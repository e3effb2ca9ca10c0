import OsLabs.Malloc.Runs

/-!
# Next fit and first fit

With `NEXT_FIT` the search begins at the rover, and finds a block where the search from
the prologue does.
-/

namespace OsLabs.Malloc

open ByteMemory BoundaryTags Checked Transition

variable {c : Machine} {h h₀ : Heap} {m : Memory} {s : State} {asize : ℕ} {result : ℤ}
  {bs : List Block} {pre : List (List Block)}

/-- The rover is the pointer of a block, or that of the epilogue. -/
theorem Ready.rover_mem (hr : Ready c h pre bs) (hnext : c.next_fit = true) :
    h.rover ∈ h.heap_listp ::
        (positions (c.mem_heap + extent pre + 12) bs).map (fun y => y.1 + 4) ∨
      h.rover = h.mem_brk := by
  obtain ⟨x, hrover, l, r, hlr, rfl⟩ := hr.rover hnext
  obtain ⟨-, hbrk⟩ := hr.holds.arena
  have hlistp := hr.heap_listp
  have hspan : 8 + span bs = span l + span r := by
    rw [← span_append, ← hlr, span_cons, prologue_size]
  rw [extent_nil] at hbrk
  cases r with
  | nil =>
      rw [span_nil] at hspan
      exact Or.inr (by omega)
  | cons b r =>
      have hmem : (c.mem_heap + extent pre + 4 + span l, b) ∈
          positions (c.mem_heap + extent pre + 4) (prologue :: bs) :=
        mem_positions.mpr ⟨l, r, hlr, rfl⟩
      rw [positions_cons, prologue_size] at hmem
      rw [hrover]
      obtain hfirst | hmem := List.mem_cons.mp hmem
      · rw [(Prod.mk.inj hfirst).1, hlistp]
        exact Or.inl List.mem_cons_self
      · exact Or.inl (List.mem_cons_of_mem _ (List.mem_map.mpr ⟨_, hmem, rfl⟩))

/-- The search from the prologue, by what it finds. -/
theorem firstFit_spec (hr : Ready c h pre bs) (asize : ℕ) :
    ∃ bp, firstFit c h asize = .ok bp ∧
      (bp = NULL ↔ ∀ b ∈ bs, b.allocated = false → b.size < asize) := by
  refine ⟨_, firstFit_eq hr, ?_⟩
  cases hfind : (positions (c.mem_heap + extent pre + 12) bs).find? (fits asize) with
  | none => exact iff_of_true rfl (find?_eq_none hfind)
  | some y =>
      obtain ⟨l, s, r, rfl, hle, -⟩ := find?_eq_some hfind
      refine iff_of_false (Nat.succ_ne_zero _) fun hnone => ?_
      exact absurd (hnone ⟨s, false⟩ (by simp) rfl) (Nat.not_lt.mpr hle)

theorem find_fit_agrees (hr : Ready c h pre bs) (asize : ℕ) :
    ∃ bp h' bp', find_fit c h asize = .ok (bp, h') ∧ firstFit c h asize = .ok bp' ∧
      (bp = NULL ↔ bp' = NULL) ∧
      (bp ≠ NULL → bp ∈ (positions (c.mem_heap + extent pre + 12) bs).map (fun y => y.1 + 4) ∧
        (blockAt h bp).allocated = false ∧ asize ≤ (blockAt h bp).size) := by
  obtain ⟨bp, rover, hfind, -, hcase⟩ := find_fit_spec hr asize
  obtain ⟨bp', hfirst, hnull⟩ := firstFit_spec hr asize
  refine ⟨bp, _, bp', hfind, hfirst, ?_, fun hne => ?_⟩
  · rw [hnull]
    obtain ⟨l, s, r, rfl, hle, rfl⟩ | ⟨rfl, hnone⟩ := hcase
    · refine iff_of_false (Nat.succ_ne_zero _) fun hnone => ?_
      exact absurd (hnone ⟨s, false⟩ (by simp) rfl) (Nat.not_lt.mpr hle)
    · exact iff_of_true rfl hnone
  · obtain ⟨l, s, r, rfl, hle, rfl⟩ := hcase.resolve_right fun hand => hne hand.1
    have hmem : (c.mem_heap + extent pre + 12 + span l, ⟨s, false⟩) ∈
        positions (c.mem_heap + extent pre + 12) (l ++ ⟨s, false⟩ :: r) :=
      mem_positions.mpr ⟨l, r, rfl, rfl⟩
    have hsized := hr.holds.sized (l ++ ⟨s, false⟩ :: r) (by simp) ⟨s, false⟩ (by simp)
    rw [blockAt_eq (hr.holds.arena.1.tagged.2.at_of_mem hmem) hsized.2]
    exact ⟨List.mem_map.mpr ⟨_, hmem, rfl⟩, rfl, hle⟩

/-- After `mm_init` the rover stays at a block, and both searches find one or neither does. -/
theorem nextFit_agrees (hnext : c.next_fit = true)
    (hinit : mm_init c (mem_init c m) = .ok (result, h₀)) (hset : h₀.heap_listp ≠ FAILED)
    (hreach : Reach (step c) (Later c) ⟨h₀, []⟩ s) :
    ∃ bps, WalkSound c s.heap bps ∧
      (s.heap.rover ∈ s.heap.heap_listp :: bps ∨ s.heap.rover = s.heap.mem_brk) ∧
      ∀ asize, ∃ bp h' bp', find_fit c s.heap asize = .ok (bp, h') ∧
        firstFit c s.heap asize = .ok bp' ∧ (bp = NULL ↔ bp' = NULL) ∧
        (bp ≠ NULL → bp ∈ bps ∧ (blockAt s.heap bp).allocated = false ∧
          asize ≤ (blockAt s.heap bp).size) := by
  obtain ⟨bs, hr, -⟩ := (reach_oneArena hinit hset hreach).ready
  exact ⟨_, hr.walkSound, hr.rover_mem hnext, find_fit_agrees hr⟩

theorem nextFit_agrees_sampleCalls :
    ∃ h₀ s bps, run (step (plainMachine true)) ⟨h₀, []⟩ sampleCalls = some s ∧
      WalkSound (plainMachine true) s.heap bps ∧
      (s.heap.rover ∈ s.heap.heap_listp :: bps ∨ s.heap.rover = s.heap.mem_brk) := by
  obtain ⟨h₀, s, hinit, hrun, -, hreach⟩ := exists_reach (c := plainMachine true)
    (m := fun _ => 0) (G := Later (plainMachine true)) sampleCalls [(5176, 30), (5064, 100)]
    (by decide +kernel) (by decide +kernel) (by decide +kernel)
  obtain ⟨bps, hwalk, hrover, -⟩ :=
    nextFit_agrees rfl hinit (mm_init_succeeds hinit) hreach
  exact ⟨h₀, s, bps, hrun, hwalk, hrover⟩

/-- A size that wraps to none leaves a block of twice the heap, and the search leaves the
heap. -/
theorem find_fit_after_wrap :
    (run (step (plainMachine true)) ⟨mem_init (plainMachine true) 0, []⟩
        [.init, .malloc (2 ^ 64 - 8)]).map State.held = some [(24, 2 ^ 64 - 8)] ∧
    (run (step (plainMachine true)) ⟨mem_init (plainMachine true) 0, []⟩
        [.init, .malloc (2 ^ 64 - 8), .free 24]).map
      (fun s => (find_fit (plainMachine true) s.heap 8200).map Prod.fst) =
      some (.error (.outside 8212)) := by
  decide +kernel

end OsLabs.Malloc
