import OsLabs.Malloc.Program

/-!
# Runs of a program

What holds after every sequence of calls. Without a call of `mm_init` but the first, all
blocks lie in one arena.
-/

namespace OsLabs.Malloc

open ByteMemory BoundaryTags Checked Transition

/-- A call of the program's own blocks, with a request that the allocator can serve. -/
def Guard (c : Machine) (s : State) (call : Call) : Prop := Owned s call ∧ Meets c s call

/-- A call after `mm_init`, that the allocator can serve. -/
def Later (c : Machine) (s : State) (call : Call) : Prop := call ≠ .init ∧ Guard c s call

/-- A call after `mm_init`, with a request that overflows no `int`. -/
def Small : Call → Prop
  | .init => False
  | .malloc size => size + 15 < 2 ^ 31
  | .realloc _ size => size + 15 < 2 ^ 31
  | _ => True

instance (c : Machine) (s : State) (call : Call) : Decidable (Guard c s call) :=
  inferInstanceAs (Decidable (_ ∧ _))

instance (c : Machine) (s : State) (call : Call) : Decidable (Later c s call) :=
  inferInstanceAs (Decidable (_ ∧ _))

instance (call : Call) : Decidable (Small call) :=
  match call with
  | .init => instDecidableFalse
  | .malloc size => Nat.decLt (size + 15) (2 ^ 31)
  | .realloc _ size => Nat.decLt (size + 15) (2 ^ 31)
  | .free _ => instDecidableTrue
  | .store _ _ => instDecidableTrue

/-- Blocks as they should be, in every arena and at every pointer that the program holds. -/
structure Sound (c : Machine) (s : State) : Prop where
  blocks : ∃ arenas, s.heap.Holds c arenas ∧ ∀ bs ∈ arenas, Coalesced bs
  held : HeldSound c s.heap s.held
  walked : s.heap.heap_listp = NULL ∨ s.heap.heap_listp = FAILED ∨ ∃ bps, WalkSound c s.heap bps

variable {c : Machine} {m : Memory} {h₀ : Heap} {s s' : State} {size : ℕ} {result : ℤ}
  {call : Call}

theorem step_eq_some : step c s call = some s' ↔ exec c s call = .ok s' := by
  rw [step]
  cases exec c s call <;> simp [Except.toOption]

theorem StateInv.step (hs : StateInv c s) (hguard : Guard c s call)
    (hstep : Malloc.step c s call = some s') : StateInv c s' ∧
      (call ≠ .init → s.heap.heap_listp ≠ NULL → s'.heap.heap_listp = s.heap.heap_listp) := by
  obtain ⟨t, hok, hkept⟩ := serves hs hguard.1 hguard.2
  rw [step_eq_some, hok] at hstep
  exact Except.ok.inj hstep ▸ hkept

theorem StateInv.sound (hs : StateInv c s) : Sound c s := by
  obtain ⟨arenas, hi, hholding⟩ := hs
  refine ⟨⟨arenas, hi.holds, hi.coalesced⟩, hi.holds.heldSound hholding, ?_⟩
  obtain ⟨hnull, -⟩ | hfailed | ⟨pre, bs, -, hr⟩ := hi.current
  · exact Or.inl hnull
  · exact Or.inr (Or.inl hfailed)
  · exact Or.inr (Or.inr ⟨_, hr.walkSound⟩)

theorem reach_stateInv (hreach : Reach (step c) (Guard c) ⟨mem_init c m, []⟩ s) : StateInv c s :=
  hreach.invariant (mem_init_stateInv c m) fun _ _ _ hs hguard hstep => (hs.step hguard hstep).1

/-! ## One arena -/

/-- Whatever was called since `mm_init`, the first block is where it put it. -/
def OneArena (c : Machine) (s : State) : Prop :=
  StateInv c s ∧ s.heap.heap_listp = c.mem_heap + 8

theorem first_ne_failed (c : Machine) : c.mem_heap + 8 ≠ FAILED :=
  ne_failed (c := c) (Nat.add_le_add_left (by decide) _)

theorem OneArena.ready (hone : OneArena c s) :
    ∃ bs, Ready c s.heap [] bs ∧ Holding (liveBlocks c.mem_heap [bs]) s.held := by
  obtain ⟨⟨arenas, hi, hholding⟩, hlistp⟩ := hone
  obtain ⟨hnull, -⟩ | hfailed | ⟨pre, bs, rfl, hr⟩ := hi.current
  · rw [hnull, NULL] at hlistp
    omega
  · exact absurd (hlistp.symm.trans hfailed) (first_ne_failed c)
  · have hextent := hr.heap_listp.symm.trans hlistp
    cases pre with
    | nil => exact ⟨bs, hr, hholding⟩
    | cons cs pre =>
        rw [extent_cons] at hextent
        omega

theorem OneArena.setUp (hone : OneArena c s) : SetUp c s.heap := by
  refine ⟨?_, fun hnull => ?_⟩
  · rw [hone.2]
    exact first_ne_failed c
  · have hlistp := hone.2
    rw [hnull, NULL] at hlistp
    omega

theorem OneArena.step (hone : OneArena c s) (hlater : Later c s call)
    (hstep : Malloc.step c s call = some s') : OneArena c s' := by
  obtain ⟨hs, hlistp⟩ := hone.1.step hlater.2 hstep
  refine ⟨hs, (hlistp hlater.1 ?_).trans hone.2⟩
  rw [hone.2, NULL]
  omega

theorem OneArena.later (hone : OneArena c s) (howned : Owned s call) (hsmall : Small call) :
    Later c s call := by
  cases call with
  | init => exact hsmall.elim
  | malloc size => exact ⟨nofun, howned, Or.inr ⟨hone.setUp, Or.inl hsmall⟩⟩
  | realloc ptr size => exact ⟨nofun, howned, Or.inr ⟨hone.setUp, Or.inl hsmall⟩⟩
  | free ptr => exact ⟨nofun, howned, trivial⟩
  | store p v => exact ⟨nofun, howned, trivial⟩

theorem mm_init_oneArena (hinit : mm_init c (mem_init c m) = .ok (result, h₀))
    (hset : h₀.heap_listp ≠ FAILED) : OneArena c ⟨h₀, []⟩ := by
  have hi := mem_init_inv c m
  obtain ⟨-, hok⟩ | ⟨_, h', bs, hok, hr, -, -⟩ := mm_init_spec hi.holds hi.coalesced
  · rw [hok] at hinit
    obtain ⟨-, rfl⟩ := Prod.mk.inj (Except.ok.inj hinit)
    exact absurd rfl hset
  · rw [hok] at hinit
    obtain ⟨-, rfl⟩ := Prod.mk.inj (Except.ok.inj hinit)
    exact ⟨⟨_, hr.inv, List.nodup_nil, nofun⟩, hr.heap_listp⟩

theorem mm_init_succeeds (hinit : mm_init c (mem_init c m) = .ok (0, h₀)) :
    h₀.heap_listp ≠ FAILED := by
  intro hfailed
  have hi := mem_init_inv c m
  obtain ⟨-, hok⟩ | ⟨_, h', bs, hok, hr, -, -⟩ := mm_init_spec hi.holds hi.coalesced
  · rw [hok] at hinit
    cases (Prod.mk.inj (Except.ok.inj hinit)).1
  · rw [hok] at hinit
    obtain ⟨-, rfl⟩ := Prod.mk.inj (Except.ok.inj hinit)
    exact absurd (hr.heap_listp.symm.trans hfailed) (first_ne_failed c)

theorem reach_oneArena (hinit : mm_init c (mem_init c m) = .ok (result, h₀))
    (hset : h₀.heap_listp ≠ FAILED) (hreach : Reach (step c) (Later c) ⟨h₀, []⟩ s) :
    OneArena c s :=
  hreach.invariant (mm_init_oneArena hinit hset) fun _ _ _ hone hlater hstep =>
    hone.step hlater hstep

theorem Holding.visited {bs : List Block} {held : List (ℕ × ℕ)}
    (hholding : Holding (liveBlocks c.mem_heap [bs]) held) {y : ℕ × ℕ} (hy : y ∈ held) :
    y.1 ∈ (positions (c.mem_heap + extent [] + 12) bs).map fun z => z.1 + 4 := by
  obtain ⟨x, b, hyx, hx, -⟩ := hholding.2 y hy
  obtain hx | hx := List.mem_append.mp hx
  · exact List.mem_map.mpr ⟨(x, b), (mem_inUse.mp hx).1, hyx.symm⟩
  · cases hx

/-- After `mm_init` the walk from the prologue over sound blocks reaches the epilogue at
`mem_brk`, whatever the program calls. -/
theorem heap_invariant (hinit : mm_init c (mem_init c m) = .ok (0, h₀))
    (hreach : Reach (step c) (fun s call => Owned s call ∧ Small call) ⟨h₀, []⟩ s) :
    (∃ bps, WalkSound c s.heap bps ∧ ∀ y ∈ s.held, y.1 ∈ bps) ∧ HeldSound c s.heap s.held ∧
      ∀ call, Owned s call → Small call → ∃ s', exec c s call = .ok s' := by
  have hone : OneArena c s := by
    refine hreach.invariant (mm_init_oneArena hinit (mm_init_succeeds hinit)) ?_
    exact fun s call s' hone hguard hstep => hone.step (hone.later hguard.1 hguard.2) hstep
  obtain ⟨bs, hr, hholding⟩ := hone.ready
  refine ⟨⟨_, hr.walkSound, fun y => hholding.visited⟩, hr.holds.heldSound hholding, ?_⟩
  intro call howned hsmall
  obtain ⟨-, -, hmeets⟩ := hone.later howned hsmall
  obtain ⟨s', hok, -⟩ := serves hone.1 howned hmeets
  exact ⟨s', hok⟩

/-- A heap from address 8 on. -/
def lowMachine (next_fit : Bool) (refused : ℕ → Bool) : Machine where
  mem_heap := 8
  next_fit := next_fit
  refused := refused
  heap_aligned := rfl
  heap_pos := by decide
  heap_fits := by decide

/-- `mem_sbrk` fails where there is no room only. -/
def plainMachine (next_fit : Bool) : Machine := lowMachine next_fit fun _ => false

/-- A run after `mm_init`, from what is computed of it. -/
theorem exists_reach {G : State → Call → Prop} [∀ s call, Decidable (G s call)]
    (calls : List Call) (held : List (ℕ × ℕ))
    (hinit : (mm_init c (mem_init c m)).map Prod.fst = .ok 0)
    (hcheck : (step c ⟨mem_init c m, []⟩ .init).all (checkRun (step c) G · calls) = true)
    (hrun : ((step c ⟨mem_init c m, []⟩ .init).bind (run (step c) · calls)).map State.held =
      some held) :
    ∃ h₀ s, mm_init c (mem_init c m) = .ok (0, h₀) ∧ run (step c) ⟨h₀, []⟩ calls = some s ∧
      s.held = held ∧ Reach (step c) G ⟨h₀, []⟩ s := by
  obtain ⟨h₀, hok⟩ : ∃ h₀, mm_init c (mem_init c m) = .ok (0, h₀) := by
    cases hok : mm_init c (mem_init c m) with
    | error e =>
        rw [hok] at hinit
        cases hinit
    | ok r =>
        rw [hok] at hinit
        exact ⟨r.2, congrArg Except.ok (Prod.ext (Except.ok.inj hinit) rfl)⟩
  have hstep : step c ⟨mem_init c m, []⟩ .init = some ⟨h₀, []⟩ := by
    rw [step_eq_some, exec, hok]
    rfl
  rw [hstep] at hcheck hrun
  obtain ⟨s, hs, hheld⟩ := Option.map_eq_some_iff.mp hrun
  exact ⟨h₀, s, hok, hs, hheld, reach_of_run calls (runMeets_of_check hcheck) hs⟩

/-- Splitting, growing, copying and merging. -/
def sampleCalls : List Call :=
  [.malloc 20, .malloc 5000, .store 26 7, .realloc 24 100, .free 56, .malloc 30]

theorem heap_invariant_sampleCalls :
    ∃ h₀ s, run (step (plainMachine true)) ⟨h₀, []⟩ sampleCalls = some s ∧
      s.held = [(5176, 30), (5064, 100)] ∧
      (∃ bps, WalkSound (plainMachine true) s.heap bps ∧ ∀ y ∈ s.held, y.1 ∈ bps) ∧
      HeldSound (plainMachine true) s.heap s.held := by
  obtain ⟨h₀, s, hinit, hrun, hheld, hreach⟩ := exists_reach (c := plainMachine true)
    (m := fun _ => 0) (G := fun s call => Owned s call ∧ Small call) sampleCalls
    [(5176, 30), (5064, 100)] (by decide +kernel) (by decide +kernel) (by decide +kernel)
  obtain ⟨hwalk, hsound, -⟩ := heap_invariant hinit hreach
  exact ⟨h₀, s, hrun, hheld, hwalk, hsound⟩

/-! ## Every request -/

theorem mm_malloc_safe (hreach : Reach (step c) (Guard c) ⟨mem_init c m, []⟩ s)
    (hmeets : Request c s.heap size) :
    ∃ p h', mm_malloc c s.heap size = .ok (p, h') ∧
      (∀ y ∈ s.held, ∀ a, y.1 ≤ a → a < payloadEnd s.heap y.1 → h'.mem a = s.heap.mem a) ∧
      (p = NULL ∧ HeldSound c h' s.held ∨ p ≠ NULL ∧ HeldSound c h' ((p, size) :: s.held)) := by
  obtain ⟨arenas, hi, hholding⟩ := reach_stateInv hreach
  obtain ⟨p, h', arenas', hok, ha⟩ := mm_malloc_inv hi hmeets
  have hsound := ha.inv.holds.heldSound (hold_holding hholding ha)
  refine ⟨p, h', hok, fun y hy a hle hlt => ?_, ?_⟩
  · obtain ⟨x, b, hyx, hx, -⟩ := hholding.2 y hy
    obtain ⟨hat, -, -, hge, h8⟩ := hi.holds.live_at hx
    rw [hyx, payloadEnd_eq hat h8] at hlt
    exact ha.keeps (x, b) hx a (by simp only; omega) (by simp only; omega)
  · by_cases hp : p = NULL
    · rw [hold, if_pos hp] at hsound
      exact Or.inl ⟨hp, hsound⟩
    · rw [hold, if_neg hp] at hsound
      exact Or.inr ⟨hp, hsound⟩

/-- A size of `2 ^ 32` becomes an `int` of 8, and then a block of 8 bytes. -/
theorem mm_malloc_truncates :
    (mm_malloc (plainMachine false) (mem_init (plainMachine false) 0) (2 ^ 32)).map
      (fun r => (r.1, (blockAt r.2 r.1).size, payloadEnd r.2 r.1)) = .ok (24, 8, 24) := by
  decide +kernel

theorem mm_malloc_safe_sampleCalls :
    ∃ s, run (step (plainMachine false)) ⟨mem_init (plainMachine false) 0, []⟩ sampleCalls =
        some s ∧
      ∃ p h', mm_malloc (plainMachine false) s.heap 40 = .ok (p, h') ∧
        (∀ y ∈ s.held, ∀ a, y.1 ≤ a → a < payloadEnd s.heap y.1 → h'.mem a = s.heap.mem a) ∧
        (p = NULL ∧ HeldSound (plainMachine false) h' s.held ∨
          p ≠ NULL ∧ HeldSound (plainMachine false) h' ((p, 40) :: s.held)) := by
  have hrun : ((run (step (plainMachine false)) ⟨mem_init (plainMachine false) 0, []⟩
      sampleCalls).map fun s => decide (Request (plainMachine false) s.heap 40)) = some true := by
    decide +kernel
  obtain ⟨s, hs, hrequest⟩ := Option.map_eq_some_iff.mp hrun
  have hmeets : RunMeets (step (plainMachine false)) (Guard (plainMachine false))
      ⟨mem_init (plainMachine false) 0, []⟩ sampleCalls := runMeets_of_check (by decide +kernel)
  exact ⟨s, hs, mm_malloc_safe (reach_of_run sampleCalls hmeets hs) (of_decide_eq_true hrequest)⟩

/-! ## Every failure of `mem_sbrk` -/

/-- No call reaches outside the heap, and after each call the heap is sound. -/
theorem calls_never_fault (hreach : Reach (step c) (Guard c) ⟨mem_init c m, []⟩ s) :
    Sound c s ∧ ∀ call, Guard c s call → ∃ s', exec c s call = .ok s' ∧ Sound c s' := by
  have hs := reach_stateInv hreach
  refine ⟨hs.sound, fun call hguard => ?_⟩
  obtain ⟨s', hok, hs', -⟩ := serves hs hguard.1 hguard.2
  exact ⟨s', hok, hs'.sound⟩

/-- Where `mem_sbrk` refuses the first words, `heap_listp` is not null, and the next request
searches at `(void *)-1`. -/
theorem mm_malloc_after_failed_init :
    (mm_init (lowMachine false (· == 0)) (mem_init (lowMachine false (· == 0)) 0)).map Prod.fst =
        .ok (-1) ∧
      (run (step (lowMachine false (· == 0))) ⟨mem_init (lowMachine false (· == 0)) 0, []⟩
        [.init]).map (fun s => (mm_malloc (lowMachine false (· == 0)) s.heap 1).map Prod.fst) =
        some (.error (.outside (2 ^ 64 - 5))) := by
  decide +kernel

/-- A refused `mm_init`, a second one, and one whose heap does not grow. -/
theorem calls_never_fault_refused :
    ∃ s, run (step (lowMachine true (· % 2 == 0))) ⟨mem_init (lowMachine true (· % 2 == 0)) 0, []⟩
        [.init, .free 0, .init, .malloc 20, .malloc 5000, .malloc 100, .free 24] = some s ∧
      Sound (lowMachine true (· % 2 == 0)) s := by
  have hrun : (run (step (lowMachine true (· % 2 == 0)))
      ⟨mem_init (lowMachine true (· % 2 == 0)) 0, []⟩
      [.init, .free 0, .init, .malloc 20, .malloc 5000, .malloc 100, .free 24]).isSome = true := by
    decide +kernel
  obtain ⟨s, hs⟩ := Option.isSome_iff_exists.mp hrun
  have hmeets : RunMeets (step (lowMachine true (· % 2 == 0)))
      (Guard (lowMachine true (· % 2 == 0))) ⟨mem_init (lowMachine true (· % 2 == 0)) 0, []⟩
      [.init, .free 0, .init, .malloc 20, .malloc 5000, .malloc 100, .free 24] :=
    runMeets_of_check (by decide +kernel)
  exact ⟨s, hs, (calls_never_fault (reach_of_run _ hmeets hs)).1⟩

end OsLabs.Malloc
