import OsLabs.Concurrent.VectorAdd.Serial

/-!
# Vector addition with a lock around the locking

`vector-avoid-hold-and-wait.c`: a global mutex is held while those of the two
vectors are locked, and not any longer. A call with the same vector twice would
lock its mutex twice.
-/

namespace OsLabs.Concurrent.VectorAdd.AvoidHoldAndWait

open OsLabs.Transition OsLabs.Threads

inductive Mutex
  | global
  | vector (x : ℕ)
deriving DecidableEq, Repr

inductive Loc
  | outside
  | lockGlobal (call : Call)
  | lockDst (call : Call)
  | lockSrc (call : Call)
  | unlockGlobal (call : Call)
  | loop (call : Call) (i : ℕ)
  | unlockDst (call : Call)
  | unlockSrc (call : Call)
deriving DecidableEq, Repr

variable {ι : Type*} [DecidableEq ι]

def initial (v : Vectors) (programs : ι → List Call) : State ι Mutex Loc :=
  ⟨v, fun _ => none, fun _ => .outside, programs, []⟩

def step (s : State ι Mutex Loc) (t : ι) : Option (State ι Mutex Loc) :=
  match s.pc t with
  | .outside =>
      match s.todo t with
      | [] => none
      | call :: todo =>
          some ({ s with todo := Function.update s.todo t todo }.goto t (.lockGlobal call))
  | .lockGlobal call => s.lock t .global (.lockDst call)
  | .lockDst call => s.lock t (.vector call.dst) (.lockSrc call)
  | .lockSrc call => s.lock t (.vector call.src) (.unlockGlobal call)
  | .unlockGlobal call => some (s.unlock t .global (.loop call 0))
  | .loop call i =>
      some (if i < VECTOR_SIZE then
        { s with v := addElement s.v call i }.goto t (.loop call (i + 1))
      else { s with order := s.order ++ [(t, call)] }.goto t (.unlockDst call))
  | .unlockDst call => some (s.unlock t (.vector call.dst) (.unlockSrc call))
  | .unlockSrc call => some (s.unlock t (.vector call.src) .outside)

def Finished (s : State ι Mutex Loc) (t : ι) : Prop := s.pc t = .outside ∧ s.todo t = []

/-- The mutexes that a thread holds. -/
def Loc.Holds : Loc → Mutex → Prop
  | .lockDst _, l => l = .global
  | .lockSrc call, l => l = .global ∨ l = .vector call.dst
  | .unlockGlobal call, l => l = .global ∨ l = .vector call.dst ∨ l = .vector call.src
  | .loop call _, l | .unlockDst call, l => l = .vector call.dst ∨ l = .vector call.src
  | .unlockSrc call, l => l = .vector call.src
  | _, _ => False

def Loc.current : Loc → Option Loop
  | .loop call i => some ⟨call, i⟩
  | _ => none

/-- The call that has not taken effect. -/
def Loc.pending : Loc → List Call
  | .lockGlobal call | .lockDst call | .lockSrc call => [call]
  | .unlockGlobal call | .loop call _ => [call]
  | _ => []

/-- The vectors are different, and no loop goes too far. -/
def Loc.Ok : Loc → Prop
  | .outside => True
  | .lockGlobal call | .lockDst call | .lockSrc call => call.dst ≠ call.src
  | .unlockGlobal call | .unlockDst call | .unlockSrc call => call.dst ≠ call.src
  | .loop call i => call.dst ≠ call.src ∧ i ≤ VECTOR_SIZE

def protocol : Protocol Mutex Loc where
  mutex := .vector
  holds := Loc.Holds
  current := Loc.current
  pending := Loc.pending
  ok := Loc.Ok
  holds_current x l h := by
    cases x with
    | loop call i =>
        obtain rfl := Option.some.inj h
        exact ⟨Or.inl rfl, Or.inr rfl⟩
    | _ => cases h

variable {v : Vectors} {programs : ι → List Call} {s s' : State ι Mutex Loc} {t : ι} {call : Call}

theorem outside : protocol.Outside .outside := ⟨fun _ => id, trivial, rfl, rfl⟩

/-- A call that a thread is about to make is one of its program. -/
theorem mem_programs (h : Inv protocol v programs s) (hcall : call ∈ s.todo t) :
    call ∈ programs t := by
  rw [← h.inOrder t]
  exact List.mem_append_right _ (List.mem_append_right _ hcall)

theorem inv_step (hprograms : ∀ t, ∀ call ∈ programs t, call.dst ≠ call.src)
    (h : Inv protocol v programs s) (hstep : step s t = some s') :
    Inv protocol v programs s' := by
  unfold step at hstep
  have hok := h.ok t
  cases hpc : s.pc t with
  | outside =>
      simp only [hpc] at hstep
      cases htodo : s.todo t with
      | nil =>
          simp only [htodo] at hstep
          cases hstep
      | cons call todo =>
          simp only [htodo] at hstep
          obtain rfl := Option.some.inj hstep
          have hcall : call ∈ programs t := mem_programs h (by simp [htodo])
          refine h.move hpc (h.owned.stay hpc fun l => Iff.rfl) (hprograms t call hcall) rfl ?_
            fun t' ht => ?_
          · rw [Function.update_self, htodo]
            rfl
          · exact Function.update_of_ne ht ..
  | lockGlobal call =>
      simp only [hpc] at hstep hok
      obtain ⟨hfree, rfl⟩ := State.lock_eq_some hstep
      refine h.move hpc (h.owned.acquire hpc hfree fun l => ?_) hok rfl rfl fun _ _ => rfl
      simp [protocol, Loc.Holds]
  | lockDst call =>
      simp only [hpc] at hstep hok
      obtain ⟨hfree, rfl⟩ := State.lock_eq_some hstep
      refine h.move hpc (h.owned.acquire hpc hfree fun l => ?_) hok rfl rfl fun _ _ => rfl
      simp [protocol, Loc.Holds, or_comm]
  | lockSrc call =>
      simp only [hpc] at hstep hok
      obtain ⟨hfree, rfl⟩ := State.lock_eq_some hstep
      refine h.move hpc (h.owned.acquire hpc hfree fun l => ?_) hok rfl rfl fun _ _ => rfl
      simp only [protocol, Loc.Holds]
      tauto
  | unlockGlobal call =>
      simp only [hpc] at hstep hok
      obtain rfl := Option.some.inj hstep
      refine h.enter hpc (h.owned.release hpc (Or.inl rfl) fun l => ?_)
        (show protocol.ok (.loop call 0) from ⟨hok, Nat.zero_le _⟩) rfl rfl rfl
      cases l <;> simp [protocol, Loc.Holds]
  | loop call i =>
      simp only [hpc] at hstep hok
      obtain rfl := Option.some.inj hstep
      split
      · next hi => exact h.iterate hpc rfl rfl ⟨hok.1, hi⟩ (fun l => Iff.rfl) rfl
      · next hi =>
          obtain rfl : i = VECTOR_SIZE := Nat.le_antisymm hok.2 (Nat.le_of_not_lt hi)
          exact h.leave hpc rfl rfl hok.1 (fun l => Iff.rfl) rfl
  | unlockDst call =>
      simp only [hpc] at hstep hok
      obtain rfl := Option.some.inj hstep
      refine h.move hpc (h.owned.release hpc (Or.inl rfl) fun l => ?_) hok rfl rfl fun _ _ => rfl
      have hne : call.src ≠ call.dst := Ne.symm hok
      cases l <;> simp [protocol, Loc.Holds]
      omega
  | unlockSrc call =>
      simp only [hpc] at hstep
      obtain rfl := Option.some.inj hstep
      refine h.move hpc (h.owned.release hpc rfl fun l => ?_) trivial rfl rfl fun _ _ => rfl
      simp [protocol, Loc.Holds]

/-- The mutex that a thread waits for. -/
def Loc.waits : Loc → Option Mutex
  | .lockGlobal _ => some .global
  | .lockDst call => some (.vector call.dst)
  | .lockSrc call => some (.vector call.src)
  | _ => none

theorem step_none (h : step s t = none) : Finished s t ∨
    ∃ l, (s.pc t).waits = some l ∧ ∃ t', s.holder l = some t' := by
  unfold step at h
  cases hpc : s.pc t with
  | outside =>
      simp only [hpc] at h
      cases htodo : s.todo t with
      | nil => exact Or.inl ⟨hpc, htodo⟩
      | cons call todo =>
          simp only [htodo] at h
          cases h
  | lockGlobal call | lockDst call | lockSrc call =>
      simp only [hpc] at h
      exact Or.inr ⟨_, rfl, State.lock_eq_none h⟩
  | unlockGlobal call | loop call i | unlockDst call | unlockSrc call =>
      simp only [hpc] at h
      cases h

/-- Who waits for the global mutex waits for a thread that locks, and that one for a
thread that does not wait. -/
def Loc.rank : Loc → ℕ
  | .lockGlobal _ => 0
  | .lockDst _ | .lockSrc _ => 1
  | _ => 2

/-- Who holds the mutex of a vector does not wait, unless it waits for that of its source. -/
theorem rank_of_holds {a : Loc} {x : ℕ} (h : a.Holds (.vector x)) :
    a.rank = 2 ∨ ∃ call, a = .lockSrc call ∧ x = call.dst := by
  cases a with
  | lockSrc call => exact Or.inr ⟨call, rfl, by simpa [Loc.Holds] using h⟩
  | outside | lockGlobal call => exact h.elim
  | lockDst call => cases h
  | unlockGlobal call | loop call i | unlockDst call | unlockSrc call => exact Or.inl rfl

/-- Only the thread that holds the global mutex waits for that of a vector. -/
theorem rank_lt (h : Inv protocol v programs s) {l : Mutex} (hwaits : (s.pc t).waits = some l)
    {t' : ι} (hheld : s.holder l = some t') : (s.pc t).rank < (s.pc t').rank := by
  have hholds : (s.pc t').Holds l := (h.owned l t').mp hheld
  have hok := h.ok t
  have hself (ht : (s.pc t).Holds .global) (ht' : (s.pc t').Holds .global) : t' = t :=
    h.owned.eq ht' ht
  cases hpc : s.pc t with
  | lockGlobal call =>
      rw [hpc] at hwaits
      obtain rfl := Option.some.inj hwaits
      cases hpc' : s.pc t' <;> rw [hpc'] at hholds <;> simp_all [Loc.Holds, Loc.rank]
  | lockDst call =>
      rw [hpc] at hwaits hself
      obtain rfl := Option.some.inj hwaits
      obtain hrank | ⟨call', hpc', -⟩ := rank_of_holds hholds
      · rw [hrank]
        exact Nat.lt_succ_self 1
      · rw [hpc'] at hself
        obtain rfl := hself rfl (Or.inl rfl)
        rw [hpc] at hpc'
        cases hpc'
  | lockSrc call =>
      rw [hpc] at hwaits hself hok
      obtain rfl := Option.some.inj hwaits
      obtain hrank | ⟨call', hpc', hsame⟩ := rank_of_holds hholds
      · rw [hrank]
        exact Nat.lt_succ_self 1
      · rw [hpc'] at hself
        obtain rfl := hself (Or.inl rfl) (Or.inl rfl)
        rw [hpc] at hpc'
        obtain rfl := Loc.lockSrc.inj hpc'
        exact absurd hsame.symm hok
  | _ =>
      rw [hpc] at hwaits
      cases hwaits

theorem progress [Fintype ι] (h : Inv protocol v programs s) (hunfinished : ∃ t, ¬ Finished s t) :
    ∃ t, ¬ Finished s t ∧ ∃ s', step s t = some s' :=
  outside.progress h Loc.rank (fun _ => step_none)
    (fun _ _ _ hwaits hheld => rank_lt h hwaits hheld) hunfinished

theorem atomic_of_reach [Fintype ι]
    (hprograms : ∀ t, ∀ call ∈ programs t, call.dst ≠ call.src)
    (h : Reach step anyStep (initial v programs) s) : Atomic step Finished v programs s :=
  outside.atomic (fun _ _ _ => inv_step hprograms) (fun _ => progress) h

end OsLabs.Concurrent.VectorAdd.AvoidHoldAndWait
