import OsLabs.Lib.Ending
import OsLabs.Concurrent.VectorAdd.Serial

/-!
# Vector addition that backs off

`vector-try-wait.c`: a thread that holds the first mutex and does not get the
second gives the first one back and starts again. A call with the same vector
twice never gets the second mutex.
-/

namespace OsLabs.Concurrent.VectorAdd.TryWait

open OsLabs.Transition OsLabs.Threads

inductive Loc
  | outside
  | tryDst (call : Call)
  | trySrc (call : Call)
  | retry (call : Call)
  | loop (call : Call) (i : ℕ)
  | unlockDst (call : Call)
  | unlockSrc (call : Call)
deriving DecidableEq, Repr

variable {ι : Type*} [DecidableEq ι]

def initial (v : Vectors) (programs : ι → List Call) : State ι ℕ Loc :=
  ⟨v, fun _ => none, fun _ => .outside, programs, []⟩

/-- `pthread_mutex_trylock`, with what follows when the mutex is held, by whomever. -/
def trylock (s : State ι ℕ Loc) (t : ι) (l : ℕ) (locked failed : Loc) : State ι ℕ Loc :=
  if s.holder l = none then
    { s with holder := Function.update s.holder l (some t) }.goto t locked
  else s.goto t failed

def step (s : State ι ℕ Loc) (t : ι) : Option (State ι ℕ Loc) :=
  match s.pc t with
  | .outside =>
      match s.todo t with
      | [] => none
      | call :: todo =>
          some ({ s with todo := Function.update s.todo t todo }.goto t (.tryDst call))
  | .tryDst call => some (trylock s t call.dst (.trySrc call) (.tryDst call))
  | .trySrc call => some (trylock s t call.src (.loop call 0) (.retry call))
  | .retry call => some (s.unlock t call.dst (.tryDst call))
  | .loop call i =>
      some (if i < VECTOR_SIZE then
        { s with v := addElement s.v call i }.goto t (.loop call (i + 1))
      else { s with order := s.order ++ [(t, call)] }.goto t (.unlockDst call))
  | .unlockDst call => some (s.unlock t call.dst (.unlockSrc call))
  | .unlockSrc call => some (s.unlock t call.src .outside)

def Finished (s : State ι ℕ Loc) (t : ι) : Prop := s.pc t = .outside ∧ s.todo t = []

/-- The mutexes that a thread holds. -/
def Loc.Holds : Loc → ℕ → Prop
  | .trySrc call, x | .retry call, x => x = call.dst
  | .loop call _, x | .unlockDst call, x => x = call.dst ∨ x = call.src
  | .unlockSrc call, x => x = call.src
  | _, _ => False

def Loc.current : Loc → Option Loop
  | .loop call i => some ⟨call, i⟩
  | _ => none

/-- The call that has not taken effect. -/
def Loc.pending : Loc → List Call
  | .tryDst call | .trySrc call | .retry call | .loop call _ => [call]
  | _ => []

/-- Who has both mutexes has those of different vectors, and no loop goes too far. -/
def Loc.Ok : Loc → Prop
  | .loop call i => call.dst ≠ call.src ∧ i ≤ VECTOR_SIZE
  | .unlockDst call | .unlockSrc call => call.dst ≠ call.src
  | _ => True

def protocol : Protocol ℕ Loc where
  mutex := id
  holds := Loc.Holds
  current := Loc.current
  pending := Loc.pending
  ok := Loc.Ok
  holds_current x l h := by
    cases x with
    | loop call i =>
        cases h
        exact ⟨.inl rfl, .inr rfl⟩
    | _ => cases h

/-- Only calls with different vectors have taken effect. -/
structure TryInv (v : Vectors) (programs : ι → List Call) (s : State ι ℕ Loc) : Prop where
  base : Inv protocol v programs s
  distinct : ∀ p ∈ s.order, p.2.dst ≠ p.2.src

variable {v : Vectors} {programs : ι → List Call} {s s' : State ι ℕ Loc} {t : ι} {call : Call}

theorem outside : protocol.Outside .outside := ⟨fun _ => id, trivial, rfl, rfl⟩

theorem inv_init (v : Vectors) (programs : ι → List Call) :
    TryInv v programs (initial v programs) :=
  ⟨outside.inv_init v programs, fun _ hp => absurd hp List.not_mem_nil⟩

theorem TryInv.step (h : TryInv v programs s) (hstep : step s t = some s') :
    TryInv v programs s' := by
  rcases h with ⟨h, hdistinct⟩
  unfold TryWait.step at hstep
  cases hpc : s.pc t with
  | outside =>
      simp only [hpc] at hstep
      cases htodo : s.todo t with
      | nil =>
          simp only [htodo] at hstep
          cases hstep
      | cons call todo =>
          simp only [htodo] at hstep
          cases hstep
          refine ⟨h.move hpc (h.owned.stay hpc fun l => Iff.rfl) trivial rfl ?_ fun t' ht => ?_,
            hdistinct⟩
          · rw [Function.update_self, htodo]
            rfl
          · exact Function.update_of_ne ht ..
  | tryDst call =>
      simp only [hpc, trylock] at hstep
      split at hstep
      case isTrue hfree =>
          cases hstep
          refine ⟨h.move hpc (h.owned.acquire hpc hfree fun l => ?_) trivial rfl rfl
            fun _ _ => rfl, hdistinct⟩
          simp [protocol, Loc.Holds]
      case isFalse =>
          cases hstep
          exact ⟨h.move hpc (h.owned.stay hpc fun l => Iff.rfl) trivial rfl rfl fun _ _ => rfl,
            hdistinct⟩
  | trySrc call =>
      simp only [hpc, trylock] at hstep
      split at hstep
      case isTrue hfree =>
          cases hstep
          -- the thread holds the mutex of the destination, so it is not this one
          have hne : call.dst ≠ call.src := by
            intro heq
            have hheld := (h.owned call.dst t).mpr (by rw [hpc]; rfl)
            rw [heq, hfree] at hheld
            cases hheld
          refine ⟨h.enter hpc (h.owned.acquire hpc hfree fun l => ?_) ⟨hne, Nat.zero_le _⟩ rfl rfl
            rfl, hdistinct⟩
          simp [protocol, Loc.Holds, or_comm]
      case isFalse =>
          cases hstep
          exact ⟨h.move hpc (h.owned.stay hpc fun l => Iff.rfl) trivial rfl rfl fun _ _ => rfl,
            hdistinct⟩
  | retry call =>
      simp only [hpc] at hstep
      cases hstep
      refine ⟨h.move hpc (h.owned.release hpc rfl fun l => ?_) trivial rfl rfl fun _ _ => rfl,
        hdistinct⟩
      simp [protocol, Loc.Holds]
  | loop call i =>
      simp only [hpc] at hstep
      have hok := h.ok t
      rw [hpc] at hok
      rcases hok with ⟨hne, hle⟩
      cases hstep
      split
      case isTrue hi => exact ⟨h.iterate hpc rfl rfl ⟨hne, hi⟩ (fun l => Iff.rfl) rfl, hdistinct⟩
      case isFalse hi =>
          obtain rfl : i = VECTOR_SIZE := Nat.le_antisymm hle (Nat.le_of_not_lt hi)
          refine ⟨h.leave hpc rfl rfl hne (fun l => Iff.rfl) rfl, fun p hp => ?_⟩
          rcases List.mem_append.mp hp with hold | hnew
          · exact hdistinct p hold
          · rw [List.mem_singleton.mp hnew]
            exact hne
  | unlockDst call =>
      simp only [hpc] at hstep
      have hne := h.ok t
      rw [hpc] at hne
      have hne : call.dst ≠ call.src := hne
      cases hstep
      refine ⟨h.move hpc (h.owned.release hpc (.inl rfl) fun l => ?_) hne rfl rfl fun _ _ => rfl,
        hdistinct⟩
      simp only [protocol, Loc.Holds]
      omega
  | unlockSrc call =>
      simp only [hpc] at hstep
      cases hstep
      refine ⟨h.move hpc (h.owned.release hpc rfl fun l => ?_) trivial rfl rfl fun _ _ => rfl,
        hdistinct⟩
      simp [protocol, Loc.Holds]

theorem inv_of_reach (h : Reach step anyStep (initial v programs) s) : TryInv v programs s :=
  h.invariant (inv_init v programs) fun _ _ _ hs _ hstep => hs.step hstep

theorem inv_of_run (hs : TryInv v programs s) (as : List ι) (hrun : run step s as = some s') :
    TryInv v programs s' :=
  (reach_of_run_anyStep as hrun).invariant hs fun _ _ _ hs _ hstep => hs.step hstep

/-- Once all have finished, the program had no call with one vector twice. -/
theorem TryInv.distinct_of_finished (h : TryInv v programs s) (hfinished : ∀ t, Finished s t)
    (hcall : call ∈ programs t) : call.dst ≠ call.src := by
  have hall := h.base.inOrder t
  dsimp only at hall
  rw [(hfinished t).1, (hfinished t).2, List.append_nil] at hall
  rw [← hall] at hcall
  rcases List.mem_append.mp hcall with heffect | hnone
  · rcases List.mem_map.mp heffect with ⟨p, hp, rfl⟩
    exact h.distinct p (List.mem_of_mem_filter hp)
  · exact absurd hnone List.not_mem_nil

/-! ## The way to the end -/

/-- The steps that a thread has before it when no try fails. -/
def Loc.ahead : Loc → ℕ
  | .outside => 0
  | .tryDst _ => 300
  | .trySrc _ => 302
  | .retry _ => 301
  | .loop _ i => 103 - i
  | .unlockDst _ => 2
  | .unlockSrc _ => 1

def threadAhead (s : State ι ℕ Loc) : ι → ℕ := fun t => (s.pc t).ahead + 303 * (s.todo t).length

variable [Fintype ι]

def ahead (s : State ι ℕ Loc) : ℕ := total (threadAhead s) id

theorem ahead_lt_of_thread (hother : ∀ t', t' ≠ t → threadAhead s' t' = threadAhead s t')
    (hless : threadAhead s' t < threadAhead s t) : ahead s' < ahead s := by
  have hupdate : threadAhead s' = Function.update (threadAhead s) t (threadAhead s' t) := by
    funext t'
    by_cases ht : t' = t
    · subst ht
      rw [Function.update_self]
    · rw [Function.update_of_ne ht, hother t' ht]
  have htotal := total_update (threadAhead s) id t (threadAhead s' t)
  rw [← hupdate] at htotal
  simp only [id] at htotal
  unfold ahead
  omega

/-- A step of one thread that leaves what it has to do. -/
theorem ahead_goto_lt {s₀ : State ι ℕ Loc} {loc : Loc} (hpc : s₀.pc = s.pc)
    (htodo : s₀.todo = s.todo) (hloc : loc.ahead < (s.pc t).ahead) :
    ahead (s₀.goto t loc) < ahead s := by
  apply ahead_lt_of_thread (t := t)
  · intro t' ht
    show ((Function.update s₀.pc t loc t').ahead + _ = _)
    rw [Function.update_of_ne ht, hpc]
    show _ + 303 * (s₀.todo t').length = _
    rw [htodo]
    rfl
  · show (Function.update s₀.pc t loc t).ahead + 303 * (s₀.todo t).length <
      (s.pc t).ahead + 303 * (s.todo t).length
    rw [Function.update_self, htodo]
    omega

/-- Unless it is about to try, a thread comes closer to the end. -/
theorem step_ahead (h : TryInv v programs s) (hunfinished : ¬ Finished s t)
    (hnot : ∀ call, s.pc t ≠ .tryDst call) : ∃ s', step s t = some s' ∧ ahead s' < ahead s := by
  unfold step
  cases hpc : s.pc t with
  | outside =>
      cases htodo : s.todo t with
      | nil => exact absurd ⟨hpc, htodo⟩ hunfinished
      | cons call todo =>
          refine ⟨_, rfl, ?_⟩
          apply ahead_lt_of_thread (t := t)
          · intro t' ht
            simp [threadAhead, State.goto, Function.update_of_ne ht]
          · simp only [threadAhead, State.goto, Function.update_self, hpc, htodo,
              List.length_cons, Loc.ahead]
            omega
  | tryDst call => exact absurd hpc (hnot call)
  | trySrc call =>
      refine ⟨_, rfl, ?_⟩
      unfold trylock
      split
      · apply ahead_goto_lt rfl rfl
        rw [hpc]
        exact Nat.lt_of_sub_pos (Nat.succ_pos 198)
      · apply ahead_goto_lt rfl rfl
        rw [hpc]
        exact Nat.lt_succ_self 301
  | retry call =>
      refine ⟨_, rfl, ahead_goto_lt rfl rfl ?_⟩
      rw [hpc]
      exact Nat.lt_succ_self 300
  | loop call i =>
      have hok := h.base.ok t
      rw [hpc] at hok
      have hle : i ≤ 100 := hok.2
      refine ⟨_, rfl, ?_⟩
      split
      case isTrue hi =>
          have hi : i < 100 := hi
          apply ahead_goto_lt rfl rfl
          rw [hpc]
          show 103 - (i + 1) < 103 - i
          omega
      case isFalse =>
          apply ahead_goto_lt rfl rfl
          rw [hpc]
          show 2 < 103 - i
          omega
  | unlockDst call =>
      refine ⟨_, rfl, ahead_goto_lt rfl rfl ?_⟩
      rw [hpc]
      exact Nat.lt_succ_self 1
  | unlockSrc call =>
      refine ⟨_, rfl, ahead_goto_lt rfl rfl ?_⟩
      rw [hpc]
      exact Nat.lt_succ_self 0

/-- While everyone else is about to try or has finished, a thread gets both mutexes. -/
theorem try_ahead (h : TryInv v programs s) (hpc : s.pc t = .tryDst call)
    (hne : call.dst ≠ call.src)
    (hidle : ∀ t, Finished s t ∨ ∃ call, s.pc t = .tryDst call) :
    ∃ s', run step s [t, t] = some s' ∧ ahead s' < ahead s := by
  have hfree : ∀ l, s.holder l = none := by
    intro l
    cases hheld : s.holder l with
    | none => rfl
    | some t' =>
        have hholds : (s.pc t').Holds l := (h.base.owned l t').mp hheld
        rcases hidle t' with hfinished | ⟨call', hpc'⟩
        · rw [hfinished.1] at hholds
          exact hholds.elim
        · rw [hpc'] at hholds
          exact hholds.elim
  generalize hdst : Function.update s.holder call.dst (some t) = holder
  have hfirst : step s t = some ({ s with holder }.goto t (.trySrc call)) := by
    simp only [step, hpc, trylock, if_pos (hfree call.dst), hdst]
  have hsrc : holder call.src = none := by
    rw [← hdst, Function.update_of_ne hne.symm]
    exact hfree call.src
  generalize hboth : Function.update holder call.src (some t) = holder'
  have hsecond : step ({ s with holder }.goto t (.trySrc call)) t =
      some ({ s with holder := holder' }.goto t (.loop call 0)) := by
    simp [step, State.goto, trylock, hsrc, hboth]
  have hless : ahead ({ s with holder := holder' }.goto t (.loop call 0)) < ahead s := by
    apply ahead_goto_lt rfl rfl
    rw [hpc]
    exact Nat.lt_of_sub_pos (Nat.succ_pos 196)
  refine ⟨_, ?_, hless⟩
  rw [run_cons, hfirst, Option.bind_some, run_cons, hsecond]
  rfl

/-- From every state that is reached, the threads can be scheduled to the end exactly when no call
has one vector twice, and whenever they get there the calls have had a serial order. -/
theorem try_wait_ends_iff (h : Reach step anyStep (initial v programs) s) :
    ((∀ t, Finished s t) → Serializable v programs s.v) ∧
      ((∃ as s', run step s as = some s' ∧ ∀ t, Finished s' t) ↔
        ∀ t, ∀ call ∈ programs t, call.dst ≠ call.src) := by
  have hs := inv_of_reach h
  refine ⟨outside.serializable hs.base, ?_, fun hdistinct => ?_⟩
  · rintro ⟨as, s', hrun, hfinished⟩ t call hcall
    exact (inv_of_run hs as hrun).distinct_of_finished hfinished hcall
  · have hprogress : ∀ s, TryInv v programs s → ¬ (∀ t, Finished s t) →
        ∃ as s', run step s as = some s' ∧ TryInv v programs s' ∧ ahead s' < ahead s := by
      intro s hs hunfinished
      by_cases hidle : ∀ t, Finished s t ∨ ∃ call, s.pc t = .tryDst call
      · rcases not_forall.mp hunfinished with ⟨t, ht⟩
        rcases (hidle t).resolve_left ht with ⟨call, hpc⟩
        have hcall : call ∈ programs t := by
          rw [← hs.base.inOrder t]
          apply List.mem_append_right
          apply List.mem_append_left
          rw [hpc]
          exact List.mem_singleton_self call
        rcases try_ahead hs hpc (hdistinct t call hcall) hidle with ⟨s', hrun, hless⟩
        exact ⟨[t, t], s', hrun, inv_of_run hs _ hrun, hless⟩
      · rcases not_forall.mp hidle with ⟨t, ht⟩
        rw [not_or, not_exists] at ht
        rcases step_ahead hs ht.1 ht.2 with ⟨s', hstep, hless⟩
        refine ⟨[t], s', ?_, hs.step hstep, hless⟩
        rw [run_cons, hstep]
        rfl
    rcases exists_run_finished (fun s => ∀ t, Finished s t) hprogress hs with
      ⟨as, s', hrun, -, hfinished⟩
    exact ⟨as, s', hrun, hfinished⟩

/-- Two threads that add each way. -/
theorem try_wait_ends_iff_crosswise :
    ∃ as s', run step (initial (fun x _ => BitVec.ofNat 32 x) fun t : Fin 2 =>
      [if t = 0 then ⟨0, 1⟩ else ⟨1, 0⟩]) as = some s' ∧ ∀ t, Finished s' t :=
  (try_wait_ends_iff .refl).2.mpr (by decide)

end OsLabs.Concurrent.VectorAdd.TryWait
