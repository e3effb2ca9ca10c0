import OsLabs.Lib.Transition
import OsLabs.Concurrent.VectorAdd.Serial

/-!
# Vector addition without locks

`vector-nolock.c` adds each element with an atomic instruction, to which it gives
the element of the source as it was read before.
-/

namespace OsLabs.Concurrent.VectorAdd.NoLock

open OsLabs.Transition

inductive Loc
  | outside
  | loop (call : Call) (i : ℕ)
  /-- At `fetch_and_add`, with the element of the source. -/
  | fetchAndAdd (call : Call) (i : ℕ) (value : BitVec 32)
deriving DecidableEq, Repr

structure State (ι : Type*) where
  v : Vectors
  pc : ι → Loc
  todo : ι → List Call

variable {ι : Type*} [DecidableEq ι]

def initial (v : Vectors) (programs : ι → List Call) : State ι := ⟨v, fun _ => .outside, programs⟩

def State.goto (s : State ι) (t : ι) (loc : Loc) : State ι :=
  { s with pc := Function.update s.pc t loc }

def fetch_and_add (v : Vectors) (x i : ℕ) (value : BitVec 32) : Vectors :=
  Function.update v x (Function.update (v x) i (v x i + value))

def step (s : State ι) (t : ι) : Option (State ι) :=
  match s.pc t with
  | .outside =>
      match s.todo t with
      | [] => none
      | call :: todo =>
          some ({ s with todo := Function.update s.todo t todo }.goto t (.loop call 0))
  | .loop call i =>
      some (if i < VECTOR_SIZE then s.goto t (.fetchAndAdd call i (s.v call.src i))
        else s.goto t .outside)
  | .fetchAndAdd call i value =>
      some ({ s with v := fetch_and_add s.v call.dst i value }.goto t (.loop call (i + 1)))

def Finished (s : State ι) (t : ι) : Prop := s.pc t = .outside ∧ s.todo t = []

/-! ## What the calls add -/

/-- What a call adds to an element of a vector, as long as its source is as in `v`. -/
def Call.adds (v : Vectors) (x j : ℕ) (call : Call) : BitVec 32 :=
  if call.dst = x ∧ j < VECTOR_SIZE then v call.src j else 0

/-- What is still to be added by a thread at a place. -/
def Loc.adds (v : Vectors) (x j : ℕ) : Loc → BitVec 32
  | .outside => 0
  | .loop call i | .fetchAndAdd call i _ => if i ≤ j then Call.adds v x j call else 0

def callsAdd (v : Vectors) (x j : ℕ) (calls : List Call) : BitVec 32 :=
  (calls.map (Call.adds v x j)).sum

variable {v : Vectors} {programs : ι → List Call} {s s' : State ι} {t : ι} {call : Call} {x j : ℕ}

theorem callsAdd_cons (v : Vectors) (x j : ℕ) (call : Call) (calls : List Call) :
    callsAdd v x j (call :: calls) = Call.adds v x j call + callsAdd v x j calls :=
  List.sum_cons

/-- No vector is both a destination and a source. -/
def Apart (programs : ι → List Call) : Prop :=
  ∀ t t', ∀ call ∈ programs t, ∀ call' ∈ programs t', call.dst ≠ call'.src

def threadAdds (v : Vectors) (s : State ι) (x j : ℕ) (t : ι) : BitVec 32 :=
  Loc.adds v x j (s.pc t) + callsAdd v x j (s.todo t)

/-- The call of a thread at a place, with a value that the source had. -/
def Loc.Ok (v : Vectors) (calls : List Call) : Loc → Prop
  | .outside => True
  | .loop call i => call ∈ calls ∧ i ≤ VECTOR_SIZE
  | .fetchAndAdd call i value => call ∈ calls ∧ i < VECTOR_SIZE ∧ value = v call.src i

variable [Fintype ι]

/-- The vectors and what is still to be added make up the vectors after all calls. -/
structure Inv (v : Vectors) (programs : ι → List Call) (s : State ι) : Prop where
  sum : ∀ x j, s.v x j + ∑ t, threadAdds v s x j t = v x j + ∑ t, callsAdd v x j (programs t)
  ok : ∀ t, (s.pc t).Ok v (programs t)
  todo : ∀ t, ∀ call ∈ s.todo t, call ∈ programs t

omit [DecidableEq ι] in
theorem inv_init (v : Vectors) (programs : ι → List Call) :
    Inv v programs (initial v programs) := by
  refine ⟨fun x j => ?_, fun t => trivial, fun t call hcall => hcall⟩
  apply congrArg (v x j + ·)
  apply Finset.sum_congr rfl
  intro t _
  exact zero_add _

omit [DecidableEq ι] in
/-- A vector that is no destination is as it was. -/
theorem Inv.source (h : Inv v programs s) (hapart : Apart programs) (hcall : call ∈ programs t)
    (j : ℕ) : s.v call.src j = v call.src j := by
  have hnone : ∀ {t'} {calls : List Call}, (∀ c ∈ calls, c ∈ programs t') →
      callsAdd v call.src j calls = 0 := by
    intro t' calls hcalls
    apply List.sum_eq_zero
    intro a ha
    rcases List.mem_map.mp ha with ⟨c, hc, rfl⟩
    exact if_neg fun hdst => hapart t' t c (hcalls c hc) call hcall hdst.1
  have hloc : ∀ t', Loc.adds v call.src j (s.pc t') = 0 := by
    intro t'
    have hok := h.ok t'
    cases hpc : s.pc t' with
    | outside => rfl
    | loop c i =>
        rw [hpc] at hok
        have hzero : Call.adds v call.src j c = 0 :=
          if_neg fun hdst => hapart t' t c hok.1 call hcall hdst.1
        rw [Loc.adds, hzero, ite_self]
    | fetchAndAdd c i value =>
        rw [hpc] at hok
        have hzero : Call.adds v call.src j c = 0 :=
          if_neg fun hdst => hapart t' t c hok.1 call hcall hdst.1
        rw [Loc.adds, hzero, ite_self]
  have hsum := h.sum call.src j
  have hleft : ∑ t', threadAdds v s call.src j t' = 0 := by
    apply Finset.sum_eq_zero
    intro t' _
    rw [threadAdds, hloc t', hnone (h.todo t'), add_zero]
  have hright : ∑ t', callsAdd v call.src j (programs t') = 0 :=
    Finset.sum_eq_zero fun t' _ => hnone fun c hc => hc
  rwa [hleft, hright, add_zero, add_zero] at hsum

/-- One thread moves, and what it adds to the vectors it has no longer to add. -/
theorem Inv.move (h : Inv v programs s) (t : ι) (v' : Vectors) (loc : Loc) (todo : List Call)
    (hadds : ∀ x j, v' x j + (Loc.adds v x j loc + callsAdd v x j todo) =
      s.v x j + threadAdds v s x j t)
    (hok : loc.Ok v (programs t)) (htodo : ∀ call ∈ todo, call ∈ programs t) :
    Inv v programs ⟨v', Function.update s.pc t loc, Function.update s.todo t todo⟩ := by
  refine ⟨fun x j => ?_, fun t' => ?_, fun t' => ?_⟩
  · have hthread :
        threadAdds v ⟨v', Function.update s.pc t loc, Function.update s.todo t todo⟩ x j =
          Function.update (threadAdds v s x j) t (Loc.adds v x j loc + callsAdd v x j todo) := by
      funext t'
      by_cases ht : t' = t
      · subst ht
        simp [threadAdds]
      · simp [threadAdds, ht]
    have hsum := h.sum x j
    rw [← Finset.add_sum_erase Finset.univ _ (Finset.mem_univ t), ← add_assoc] at hsum
    rw [hthread, Finset.sum_update_of_mem (Finset.mem_univ t), ← add_assoc, hadds x j, ← hsum,
      Finset.sdiff_singleton_eq_erase]
  · show (Function.update s.pc t loc t').Ok v (programs t')
    by_cases ht : t' = t
    · subst ht
      rwa [Function.update_self]
    · rw [Function.update_of_ne ht]
      exact h.ok t'
  · show ∀ call ∈ Function.update s.todo t todo t', call ∈ programs t'
    by_cases ht : t' = t
    · subst ht
      rwa [Function.update_self]
    · rw [Function.update_of_ne ht]
      exact h.todo t'

theorem Inv.step (h : Inv v programs s) (hapart : Apart programs) (hstep : step s t = some s') :
    Inv v programs s' := by
  have hsame : Function.update s.todo t (s.todo t) = s.todo := Function.update_eq_self t s.todo
  have hok := h.ok t
  unfold NoLock.step at hstep
  cases hpc : s.pc t with
  | outside =>
      simp only [hpc] at hstep
      cases htodo : s.todo t with
      | nil =>
          simp only [htodo] at hstep
          cases hstep
      | cons call todo =>
          simp only [htodo] at hstep
          cases hstep
          have hprogram := h.todo t
          rw [htodo] at hprogram
          have hcall : call ∈ programs t := hprogram call List.mem_cons_self
          apply h.move t s.v (.loop call 0) todo (fun x j => ?_) ⟨hcall, Nat.zero_le _⟩
            fun c hc => hprogram c (List.mem_cons_of_mem call hc)
          rw [threadAdds, hpc, htodo, callsAdd_cons]
          simp [Loc.adds]
  | loop call i =>
      simp only [hpc] at hstep
      rw [hpc] at hok
      rcases hok with ⟨hcall, hle⟩
      cases hstep
      split
      case isTrue hi =>
          have hmoved := h.move t s.v (.fetchAndAdd call i (s.v call.src i)) (s.todo t)
            (fun x j => by rw [threadAdds, hpc]; rfl) ⟨hcall, hi, h.source hapart hcall i⟩
            (h.todo t)
          rwa [hsame] at hmoved
      case isFalse hi =>
          have hmoved := h.move t s.v .outside (s.todo t) (fun x j => ?_) trivial (h.todo t)
          · rwa [hsame] at hmoved
          · have hnone : Loc.adds v x j (.loop call i) = 0 := by
              rw [Loc.adds, Call.adds]
              split
              · rw [if_neg (by omega)]
              · rfl
            rw [threadAdds, hpc, hnone]
            rfl
  | fetchAndAdd call i value =>
      simp only [hpc] at hstep
      rw [hpc] at hok
      rcases hok with ⟨hcall, hi, hvalue⟩
      cases hstep
      have hmoved := h.move t (fetch_and_add s.v call.dst i value) (.loop call (i + 1)) (s.todo t)
        (fun x j => ?_) ⟨hcall, hi⟩ (h.todo t)
      · rwa [hsame] at hmoved
      · have hone : fetch_and_add s.v call.dst i value x j + Loc.adds v x j (.loop call (i + 1)) =
            s.v x j + Loc.adds v x j (.fetchAndAdd call i value) := by
          simp only [fetch_and_add, Loc.adds, Call.adds]
          by_cases hx : call.dst = x
          · subst hx
            rw [Function.update_self]
            rcases lt_trichotomy j i with hlt | rfl | hgt
            · rw [Function.update_of_ne hlt.ne, if_neg (show ¬ i + 1 ≤ j by omega),
                if_neg hlt.not_ge]
            · rw [Function.update_self, if_neg (Nat.not_succ_le_self j), if_pos le_rfl,
                if_pos ⟨rfl, hi⟩, hvalue, add_zero]
            · rw [Function.update_of_ne hgt.ne', if_pos (show i + 1 ≤ j from hgt), if_pos hgt.le]
          · rw [Function.update_of_ne (Ne.symm hx)]
            simp [hx]
        rw [threadAdds, hpc, ← add_assoc, hone, add_assoc]

theorem inv_of_reach (hapart : Apart programs) (h : Reach step anyStep (initial v programs) s) :
    Inv v programs s :=
  h.invariant (inv_init v programs) fun _ _ _ hs _ hstep => hs.step hapart hstep

/-! ## Serial orders -/

/-- Calls one after the other, none of whose sources is a destination. -/
theorem runSerially_apply {calls : List Call}
    (hapart : ∀ call ∈ calls, ∀ call' ∈ calls, call.dst ≠ call'.src) (x j : ℕ) :
    runSerially v calls x j = v x j + callsAdd v x j calls := by
  induction calls using List.reverseRecOn generalizing x j with
  | nil => simp [runSerially, callsAdd]
  | append_singleton calls call ih =>
      have hcalls := ih fun c hc c' hc' =>
        hapart c (List.mem_append_left _ hc) c' (List.mem_append_left _ hc')
      have hsource : ∀ j, callsAdd v call.src j calls = 0 := by
        intro j
        apply List.sum_eq_zero
        intro a ha
        rcases List.mem_map.mp ha with ⟨c, hc, rfl⟩
        apply if_neg
        intro hdst
        exact hapart c (List.mem_append_left _ hc) call (by simp) hdst.1
      have hlast : callsAdd v x j (calls ++ [call]) =
          callsAdd v x j calls + Call.adds v x j call := by
        simp [callsAdd]
      rw [runSerially_concat, addVector, foldl_addElement, hlast, Call.adds]
      by_cases hx : call.dst = x
      · subst hx
        rw [Function.update_self, hcalls, hcalls call.src j, hsource j, add_zero]
        by_cases hj : j < VECTOR_SIZE
        · rw [if_pos hj, if_pos ⟨rfl, hj⟩, add_assoc]
        · rw [if_neg hj, if_neg fun h => hj h.2, add_zero]
      · rw [Function.update_of_ne (Ne.symm hx), hcalls, if_neg fun h => hx h.1, add_zero]

omit [Fintype ι] in
theorem mem_programs_of_mem_order {order : List (ι × Call)}
    (horder : ∀ t, (order.filter fun p => p.1 = t).map Prod.snd = programs t) {p : ι × Call}
    (hp : p ∈ order) : p.2 ∈ programs p.1 := by
  rw [← horder p.1]
  exact List.mem_map.mpr ⟨p, List.mem_filter.mpr ⟨hp, by simp⟩, rfl⟩

/-- The calls of an order are those of the threads. -/
theorem sum_callsAdd (v : Vectors) (x j : ℕ) (order : List (ι × Call)) :
    callsAdd v x j (order.map Prod.snd) =
      ∑ t, callsAdd v x j ((order.filter fun p => p.1 = t).map Prod.snd) := by
  induction order with
  | nil => simp [callsAdd]
  | cons p order ih =>
      have hthread : ∀ t, callsAdd v x j (((p :: order).filter fun q => q.1 = t).map Prod.snd) =
          (if t = p.1 then Call.adds v x j p.2 else 0) +
            callsAdd v x j ((order.filter fun q => q.1 = t).map Prod.snd) := by
        intro t
        by_cases ht : p.1 = t
        · simp [ht, callsAdd]
        · simp [ht, Ne.symm ht]
      rw [List.map_cons, callsAdd_cons, ih]
      simp only [hthread, Finset.sum_add_distrib, Finset.sum_ite_eq', Finset.mem_univ, if_true]

/-- Without any lock, threads whose destinations are no sources leave the vectors as every serial
order of their calls does. -/
theorem nolock_serial (hapart : Apart programs) (h : Reach step anyStep (initial v programs) s)
    (hfinished : ∀ t, Finished s t) (order : List (ι × Call))
    (horder : ∀ t, (order.filter fun p => p.1 = t).map Prod.snd = programs t) :
    s.v = runSerially v (order.map Prod.snd) := by
  have hs := inv_of_reach hapart h
  have hcalls : ∀ call ∈ order.map Prod.snd, ∃ t, call ∈ programs t := by
    intro call hcall
    rcases List.mem_map.mp hcall with ⟨p, hp, rfl⟩
    exact ⟨p.1, mem_programs_of_mem_order horder hp⟩
  funext x j
  have hnone : ∑ t, threadAdds v s x j t = 0 := by
    apply Finset.sum_eq_zero
    intro t _
    rw [threadAdds, (hfinished t).1, (hfinished t).2]
    exact add_zero _
  have hsum := hs.sum x j
  rw [hnone, add_zero] at hsum
  rw [hsum, runSerially_apply ?_ x j, sum_callsAdd]
  · simp only [horder]
  · intro call hcall call' hcall'
    rcases hcalls call hcall with ⟨t, ht⟩
    rcases hcalls call' hcall' with ⟨t', ht'⟩
    exact hapart t t' call ht call' ht'

/-- Both threads add `v[1]` to `v[0]`, one of them in the middle of the other. -/
def sameCalls : Bool → List Call := fun _ => [⟨0, 1⟩]

def inTheMiddle : List Bool :=
  List.replicate 100 false ++ List.replicate 202 true ++ List.replicate 102 false

theorem nolock_serial_inTheMiddle : ∃ s,
    run step (initial (fun x _ => BitVec.ofNat 32 x) sameCalls) inTheMiddle = some s ∧
      s.v = runSerially (fun x _ => BitVec.ofNat 32 x) [⟨0, 1⟩, ⟨0, 1⟩] := by
  have hrun : ((run step (initial (fun x _ => BitVec.ofNat 32 x) sameCalls) inTheMiddle).map
      fun s => (s.pc false, s.todo false, s.pc true, s.todo true)) = some (.outside, [], .outside, []) := by
    decide +kernel
  rcases Option.map_eq_some_iff.mp hrun with ⟨s, hs, hends⟩
  simp only [Prod.mk.injEq] at hends
  rcases hends with ⟨hpcFirst, htodoFirst, hpcSecond, htodoSecond⟩
  have hfinished : ∀ t, Finished s t := by
    intro t
    cases t with
    | false => exact ⟨hpcFirst, htodoFirst⟩
    | true => exact ⟨hpcSecond, htodoSecond⟩
  exact ⟨s, hs, nolock_serial (by unfold Apart; decide) (reach_of_run_anyStep inTheMiddle hs)
    hfinished [(false, ⟨0, 1⟩), (true, ⟨0, 1⟩)] (by decide)⟩

end OsLabs.Concurrent.VectorAdd.NoLock
