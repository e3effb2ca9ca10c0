import OsLabs.Concurrent.VectorAdd.Serial

/-!
# Vector addition with a global order of the locks

`vector-global-order.c`: the mutex of the vector with the lower address is
locked first, and one mutex is enough where both vectors are the same.
-/

namespace OsLabs.Concurrent.VectorAdd.GlobalOrder

open OsLabs.Transition OsLabs.Threads

/-- What a thread does next. The mutexes are those of the vectors. -/
inductive Loc
  | outside
  | lockFirst (call : Call)
  | lockSecond (call : Call)
  | loop (call : Call) (i : ℕ)
  | unlockSrc (call : Call)
  | unlockDst (call : Call)
deriving DecidableEq, Repr

variable {ι : Type*} [DecidableEq ι]

def initial (v : Vectors) (programs : ι → List Call) : State ι ℕ Loc :=
  ⟨v, fun _ => none, fun _ => .outside, programs, []⟩

def step (s : State ι ℕ Loc) (t : ι) : Option (State ι ℕ Loc) :=
  match s.pc t with
  | .outside =>
      match s.todo t with
      | [] => none
      | call :: todo =>
          some ({ s with todo := Function.update s.todo t todo }.goto t (.lockFirst call))
  | .lockFirst call =>
      if call.dst < call.src then s.lock t call.dst (.lockSecond call)
      else if call.dst > call.src then s.lock t call.src (.lockSecond call)
      else s.lock t call.src (.loop call 0)
  | .lockSecond call =>
      if call.dst < call.src then s.lock t call.src (.loop call 0)
      else s.lock t call.dst (.loop call 0)
  | .loop call i =>
      some (if i < VECTOR_SIZE then
        { s with v := addElement s.v call i }.goto t (.loop call (i + 1))
      else { s with order := s.order ++ [(t, call)] }.goto t (.unlockSrc call))
  | .unlockSrc call =>
      some (if call.dst ≠ call.src then s.unlock t call.src (.unlockDst call)
        else s.unlock t call.src .outside)
  | .unlockDst call => some (s.unlock t call.dst .outside)

def Finished (s : State ι ℕ Loc) (t : ι) : Prop := s.pc t = .outside ∧ s.todo t = []

/-- The mutexes that a thread holds. -/
def Loc.Holds : Loc → ℕ → Prop
  | .lockSecond call, x => x = min call.dst call.src
  | .loop call _, x | .unlockSrc call, x => x = call.dst ∨ x = call.src
  | .unlockDst call, x => x = call.dst
  | _, _ => False

def Loc.current : Loc → Option Loop
  | .loop call i => some ⟨call, i⟩
  | _ => none

/-- The call that has not taken effect. -/
def Loc.pending : Loc → List Call
  | .lockFirst call | .lockSecond call | .loop call _ => [call]
  | _ => []

/-- A second mutex is that of another vector, and no loop goes too far. -/
def Loc.Ok : Loc → Prop
  | .lockSecond call | .unlockDst call => call.dst ≠ call.src
  | .loop _ i => i ≤ VECTOR_SIZE
  | _ => True

def protocol : Protocol ℕ Loc where
  mutex := id
  holds := Loc.Holds
  current := Loc.current
  pending := Loc.pending
  ok := Loc.Ok
  holds_current x l h := by
    cases x with
    | loop call i =>
        obtain rfl := Option.some.inj h
        exact ⟨Or.inl rfl, Or.inr rfl⟩
    | _ => cases h

variable {v : Vectors} {programs : ι → List Call} {s s' : State ι ℕ Loc} {t : ι} {call : Call}
  {a b : Loc}

theorem outside : protocol.Outside .outside := ⟨fun _ => id, trivial, rfl, rfl⟩

theorem inv_step (h : Inv protocol v programs s) (hstep : step s t = some s') :
    Inv protocol v programs s' := by
  unfold step at hstep
  have hzero {call : Call} : protocol.ok (.loop call 0) := Nat.zero_le _
  cases hpc : s.pc t with
  | outside =>
      simp only [hpc] at hstep
      cases htodo : s.todo t with
      | nil =>
          simp only [htodo] at hstep
          cases hstep
      | cons call todo =>
          simp only [htodo] at hstep
          obtain rfl := Option.some.inj hstep
          refine h.move hpc (h.owned.stay hpc fun l => Iff.rfl) trivial rfl ?_ fun t' ht => ?_
          · rw [Function.update_self, htodo]
            rfl
          · exact Function.update_of_ne ht ..
  | lockFirst call =>
      simp only [hpc] at hstep
      split at hstep
      · next hlt =>
          obtain ⟨hfree, rfl⟩ := State.lock_eq_some hstep
          refine h.move hpc (h.owned.acquire hpc hfree fun l => ?_) hlt.ne rfl rfl fun _ _ => rfl
          simp [protocol, Loc.Holds, Nat.min_eq_left hlt.le]
      · next hle =>
          split at hstep
          · next hgt =>
              obtain ⟨hfree, rfl⟩ := State.lock_eq_some hstep
              refine h.move hpc (h.owned.acquire hpc hfree fun l => ?_) hgt.ne' rfl rfl
                fun _ _ => rfl
              simp [protocol, Loc.Holds, Nat.min_eq_right (Nat.le_of_lt hgt)]
          · next hge =>
              have hsame : call.dst = call.src := by omega
              obtain ⟨hfree, rfl⟩ := State.lock_eq_some hstep
              refine h.enter hpc (h.owned.acquire hpc hfree fun l => ?_) hzero rfl rfl rfl
              simp [protocol, Loc.Holds, hsame]
  | lockSecond call =>
      simp only [hpc] at hstep
      have hne := h.ok t
      rw [hpc] at hne
      split at hstep
      · next hlt =>
          obtain ⟨hfree, rfl⟩ := State.lock_eq_some hstep
          refine h.enter hpc (h.owned.acquire hpc hfree fun l => ?_) hzero rfl rfl rfl
          simp [protocol, Loc.Holds, Nat.min_eq_left hlt.le, or_comm]
      · next hle =>
          obtain ⟨hfree, rfl⟩ := State.lock_eq_some hstep
          refine h.enter hpc (h.owned.acquire hpc hfree fun l => ?_) hzero rfl rfl rfl
          simp [protocol, Loc.Holds, Nat.min_eq_right (Nat.le_of_not_lt hle)]
  | loop call i =>
      simp only [hpc] at hstep
      obtain rfl := Option.some.inj hstep
      split
      · next hi => exact h.iterate hpc rfl rfl hi (fun l => Iff.rfl) rfl
      · next hi =>
          have hle := h.ok t
          rw [hpc] at hle
          obtain rfl : i = VECTOR_SIZE := Nat.le_antisymm hle (Nat.le_of_not_lt hi)
          exact h.leave hpc rfl rfl trivial (fun l => Iff.rfl) rfl
  | unlockSrc call =>
      simp only [hpc] at hstep
      obtain rfl := Option.some.inj hstep
      split
      · next hne =>
          refine h.move hpc (h.owned.release hpc (Or.inr rfl) fun l => ?_) hne rfl rfl
            fun _ _ => rfl
          simp only [protocol, Loc.Holds]
          omega
      · next heq =>
          rw [not_not] at heq
          refine h.move hpc (h.owned.release hpc (Or.inr rfl) fun l => ?_) trivial rfl rfl
            fun _ _ => rfl
          simp [protocol, Loc.Holds, heq]
  | unlockDst call =>
      simp only [hpc] at hstep
      obtain rfl := Option.some.inj hstep
      refine h.move hpc (h.owned.release hpc rfl fun l => ?_) trivial rfl rfl fun _ _ => rfl
      simp [protocol, Loc.Holds]

/-- The mutex that a thread waits for. -/
def Loc.waits : Loc → Option ℕ
  | .lockFirst call => some (min call.dst call.src)
  | .lockSecond call => some (max call.dst call.src)
  | _ => none

/-- A thread that cannot step has finished or waits for a mutex that is held. -/
theorem step_none (h : step s t = none) : Finished s t ∨
    ∃ x, (s.pc t).waits = some x ∧ ∃ t', s.holder x = some t' := by
  unfold step at h
  cases hpc : s.pc t with
  | outside =>
      simp only [hpc] at h
      cases htodo : s.todo t with
      | nil => exact Or.inl ⟨hpc, htodo⟩
      | cons call todo =>
          simp only [htodo] at h
          cases h
  | lockFirst call =>
      simp only [hpc] at h
      refine Or.inr ⟨_, rfl, ?_⟩
      split at h
      · next hlt =>
          rw [Nat.min_eq_left hlt.le]
          exact State.lock_eq_none h
      · next hle =>
          rw [Nat.min_eq_right (Nat.le_of_not_lt hle)]
          split at h <;> exact State.lock_eq_none h
  | lockSecond call =>
      simp only [hpc] at h
      refine Or.inr ⟨_, rfl, ?_⟩
      split at h
      · next hlt =>
          rw [Nat.max_eq_right hlt.le]
          exact State.lock_eq_none h
      · next hle =>
          rw [Nat.max_eq_left (Nat.le_of_not_lt hle)]
          exact State.lock_eq_none h
  | loop call i | unlockSrc call | unlockDst call =>
      simp only [hpc] at h
      cases h

/-- Who waits for a mutex holds only lower ones. -/
theorem lt_of_waits (hok : a.Ok) {x y : ℕ} (hwaits : a.waits = some x) (hholds : a.Holds y) :
    y < x := by
  cases a with
  | lockSecond call =>
      have hne : call.dst ≠ call.src := hok
      obtain rfl := Option.some.inj hwaits
      rw [show y = min call.dst call.src from hholds]
      omega
  | lockFirst call => exact hholds.elim
  | _ => cases hwaits

theorem progress [Fintype ι] (h : Inv protocol v programs s) (hunfinished : ∃ t, ¬ Finished s t) :
    ∃ t, ¬ Finished s t ∧ ∃ s', step s t = some s' :=
  outside.progress_of_order h id (fun _ => step_none)
    (fun t _ _ hwaits hholds => lt_of_waits (h.ok t) hwaits hholds) hunfinished

theorem atomic_of_reach [Fintype ι] (h : Reach step anyStep (initial v programs) s) :
    Atomic step Finished v programs s :=
  outside.atomic (fun _ _ _ => inv_step) (fun _ => progress) h

end OsLabs.Concurrent.VectorAdd.GlobalOrder
