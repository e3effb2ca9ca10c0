import OsLabs.Concurrent.VectorAdd.Serial

/-!
# Vector addition that holds and waits

`vector-deadlock.c` locks the destination and then the source. Whether its threads
can deadlock depends on the options of the main program.
-/

namespace OsLabs.Concurrent.VectorAdd.HoldAndWait

open OsLabs.Transition OsLabs.Threads

inductive Loc
  | outside
  | lockDst (call : Call)
  | lockSrc (call : Call)
  | loop (call : Call) (i : ℕ)
  | unlockDst (call : Call)
  | unlockSrc (call : Call)
deriving DecidableEq, Repr

variable {ι : Type*} [DecidableEq ι]

def initial (v : Vectors) (programs : ι → List Call) : State ι ℕ Loc :=
  ⟨v, fun _ => none, fun _ => .outside, programs, []⟩

def step (s : State ι ℕ Loc) (t : ι) : Option (State ι ℕ Loc) :=
  match s.pc t with
  | .outside =>
      match s.todo t with
      | [] => none
      | call :: todo =>
          some ({ s with todo := Function.update s.todo t todo }.goto t (.lockDst call))
  | .lockDst call => s.lock t call.dst (.lockSrc call)
  | .lockSrc call => s.lock t call.src (.loop call 0)
  | .loop call i =>
      some (if i < VECTOR_SIZE then
        { s with v := addElement s.v call i }.goto t (.loop call (i + 1))
      else { s with order := s.order ++ [(t, call)] }.goto t (.unlockDst call))
  | .unlockDst call => some (s.unlock t call.dst (.unlockSrc call))
  | .unlockSrc call => some (s.unlock t call.src .outside)

def Finished (s : State ι ℕ Loc) (t : ι) : Prop := s.pc t = .outside ∧ s.todo t = []

/-- The mutexes that a thread holds. -/
def Loc.Holds : Loc → ℕ → Prop
  | .lockSrc call, x => x = call.dst
  | .loop call _, x | .unlockDst call, x => x = call.dst ∨ x = call.src
  | .unlockSrc call, x => x = call.src
  | _, _ => False

def Loc.current : Loc → Option Loop
  | .loop call i => some ⟨call, i⟩
  | _ => none

/-- The call that has not taken effect. -/
def Loc.pending : Loc → List Call
  | .lockDst call | .lockSrc call | .loop call _ => [call]
  | _ => []

/-- Who has both mutexes has those of different vectors, and no loop goes too far. -/
def Loc.Ok : Loc → Prop
  | .loop call i => call.dst ≠ call.src ∧ i ≤ VECTOR_SIZE
  | .unlockDst call | .unlockSrc call => call.dst ≠ call.src
  | _ => True

def protocol : Protocol ℕ Loc where
  mutex := id
  holds := Loc.Holds
  current := Loc.current
  pending := Loc.pending
  ok := Loc.Ok
  holds_current x l h := by
    cases x with
    | loop call i =>
        cases h
        exact ⟨.inl rfl, .inr rfl⟩
    | _ => cases h

variable {v : Vectors} {programs : ι → List Call} {s s' : State ι ℕ Loc} {t : ι} {call : Call}

theorem outside : protocol.Outside .outside := ⟨fun _ => id, trivial, rfl, rfl⟩

theorem inv_step (h : Inv protocol v programs s) (hstep : step s t = some s') :
    Inv protocol v programs s' := by
  unfold step at hstep
  cases hpc : s.pc t with
  | outside =>
      simp only [hpc] at hstep
      cases htodo : s.todo t with
      | nil =>
          simp only [htodo] at hstep
          cases hstep
      | cons call todo =>
          simp only [htodo] at hstep
          cases hstep
          refine h.move hpc (h.owned.stay hpc fun l => Iff.rfl) trivial rfl ?_ fun t' ht => ?_
          · rw [Function.update_self, htodo]
            rfl
          · exact Function.update_of_ne ht ..
  | lockDst call =>
      simp only [hpc] at hstep
      rcases State.lock_eq_some hstep with ⟨hfree, rfl⟩
      refine h.move hpc (h.owned.acquire hpc hfree fun l => ?_) trivial rfl rfl fun _ _ => rfl
      simp [protocol, Loc.Holds]
  | lockSrc call =>
      simp only [hpc] at hstep
      rcases State.lock_eq_some hstep with ⟨hfree, rfl⟩
      -- a thread that waits for the mutex it holds is not let in
      have hne : call.dst ≠ call.src := by
        intro heq
        have hheld := (h.owned call.dst t).mpr (by rw [hpc]; rfl)
        rw [heq, hfree] at hheld
        cases hheld
      refine h.enter hpc (h.owned.acquire hpc hfree fun l => ?_) ⟨hne, Nat.zero_le _⟩ rfl rfl rfl
      simp [protocol, Loc.Holds, or_comm]
  | loop call i =>
      simp only [hpc] at hstep
      have hok := h.ok t
      rw [hpc] at hok
      rcases hok with ⟨hne, hle⟩
      cases hstep
      split
      case isTrue hi => exact h.iterate hpc rfl rfl ⟨hne, hi⟩ (fun l => Iff.rfl) rfl
      case isFalse hi =>
          obtain rfl : i = VECTOR_SIZE := Nat.le_antisymm hle (Nat.le_of_not_lt hi)
          exact h.leave hpc rfl rfl hne (fun l => Iff.rfl) rfl
  | unlockDst call =>
      simp only [hpc] at hstep
      have hne := h.ok t
      rw [hpc] at hne
      have hne : call.dst ≠ call.src := hne
      cases hstep
      refine h.move hpc (h.owned.release hpc (.inl rfl) fun l => ?_) hne rfl rfl fun _ _ => rfl
      simp only [protocol, Loc.Holds]
      omega
  | unlockSrc call =>
      simp only [hpc] at hstep
      cases hstep
      refine h.move hpc (h.owned.release hpc rfl fun l => ?_) trivial rfl rfl fun _ _ => rfl
      simp [protocol, Loc.Holds]

theorem inv_of_reach (h : Reach step anyStep (initial v programs) s) : Inv protocol v programs s :=
  h.invariant (outside.inv_init v programs) fun _ _ _ hs _ => inv_step hs

/-! ## Ordered calls -/

/-- The mutex that a thread waits for. -/
def Loc.waits : Loc → Option ℕ
  | .lockDst call => some call.dst
  | .lockSrc call => some call.src
  | _ => none

/-- A thread that cannot step has finished or waits for a mutex that is held. -/
theorem step_none (h : step s t = none) : Finished s t ∨
    ∃ x, (s.pc t).waits = some x ∧ ∃ t', s.holder x = some t' := by
  unfold step at h
  cases hpc : s.pc t with
  | outside =>
      simp only [hpc] at h
      cases htodo : s.todo t with
      | nil => exact .inl ⟨hpc, htodo⟩
      | cons call todo =>
          simp only [htodo] at h
          cases h
  | lockDst call | lockSrc call =>
      simp only [hpc] at h
      exact .inr ⟨_, rfl, State.lock_eq_none h⟩
  | loop call i | unlockDst call | unlockSrc call =>
      simp only [hpc] at h
      cases h

/-- Where the destinations of all calls rank before their sources, someone can go on. -/
theorem progress [Fintype ι] {rank : ℕ → ℕ}
    (hrank : ∀ t, ∀ call ∈ programs t, rank call.dst < rank call.src)
    (h : Inv protocol v programs s) (hunfinished : ∃ t, ¬ Finished s t) :
    ∃ t, ¬ Finished s t ∧ ∃ s', step s t = some s' := by
  have hordered : ∀ {t x y}, (s.pc t).waits = some x → (s.pc t).Holds y → rank y < rank x := by
    intro t x y hwaits hholds
    cases hpc : s.pc t with
    | lockSrc call =>
        rw [hpc] at hwaits hholds
        cases hwaits
        rw [show y = call.dst from hholds]
        apply hrank t
        rw [← h.inOrder t]
        apply List.mem_append_right
        apply List.mem_append_left
        rw [hpc]
        exact List.mem_singleton_self call
    | lockDst call =>
        rw [hpc] at hholds
        exact hholds.elim
    | _ =>
        rw [hpc] at hwaits
        cases hwaits
  exact outside.progress_of_order h rank (fun _ => step_none) (fun _ _ _ => hordered) hunfinished

/-! ## The main program -/

/-- The options `-l`, `-n`, `-d` and `-p`. -/
structure Args where
  loops : ℤ
  num_threads : ℤ
  cause_deadlock : Bool
  enable_parallelism : Bool
deriving DecidableEq, Repr

namespace Args

variable (a : Args)

abbrev Thread : Type := Fin a.num_threads.toNat

end Args

variable {a : Args}

end OsLabs.Concurrent.VectorAdd.HoldAndWait
