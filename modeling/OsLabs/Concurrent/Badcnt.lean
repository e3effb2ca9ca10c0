import OsLabs.Lib.LostUpdate
import OsLabs.Lib.Transition

/-!
# The improperly synchronized counter

`badcnt.c`. The counter is read and written by different instructions. An `int` that
overflows is undefined: nothing is said about a run after that.
-/

namespace OsLabs.Concurrent.Badcnt

open OsLabs.Transition OsLabs.LostUpdate

def IsInt (x : ℤ) : Prop := -2 ^ 31 ≤ x ∧ x < 2 ^ 31

instance (x : ℤ) : Decidable (IsInt x) := inferInstanceAs (Decidable (_ ∧ _))

/-- At `add` the thread has read `w`, and is about to write one more. -/
inductive Loc
  | absent
  | start
  | loop (i : ℤ)
  | add (i w : ℤ)
  | finished
deriving DecidableEq, Repr

inductive Report
  | boom (cnt : ℤ)
  | ok (cnt : ℤ)
deriving DecidableEq, Repr

/-- The threads are `false` and `true`, in the order of their creation. -/
inductive MainLoc
  | create (t : Bool)
  | join (t : Bool)
  | check
  | exit (report : Report)
deriving DecidableEq, Repr

structure State where
  main : MainLoc
  thread : Bool → Loc
  cnt : ℤ
  fault : Bool

def start : State := ⟨.create false, fun _ => .absent, 0, false⟩

inductive Actor
  | main
  | thread (t : Bool)
deriving DecidableEq, Repr

def State.goto (s : State) (t : Bool) (loc : Loc) : State :=
  { s with thread := Function.update s.thread t loc }

/-- Without an overflow. -/
def checked (x : ℤ) (s next : State) : State := if IsInt x then next else { s with fault := true }

def report (niters cnt : ℤ) : Report := if cnt ≠ 2 * niters then .boom cnt else .ok cnt

def mainStep (niters : ℤ) (s : State) : Option State :=
  match s.main with
  | .create false => some { s.goto false .start with main := .create true }
  | .create true => some { s.goto true .start with main := .join false }
  | .join false => if s.thread false = .finished then some { s with main := .join true } else none
  | .join true => if s.thread true = .finished then some { s with main := .check } else none
  | .check => some (checked (2 * niters) s { s with main := .exit (report niters s.cnt) })
  | .exit _ => none

/-- The thread routine. While the threads run `main` leaves `niters` as it is. -/
def threadStep (niters : ℤ) (s : State) (t : Bool) : Option State :=
  match s.thread t with
  | .absent => none
  | .start => some (s.goto t (.loop 0))
  | .loop i => some (if i < niters then s.goto t (.add i s.cnt) else s.goto t .finished)
  | .add i w => some (checked (w + 1) s { s.goto t (.loop (i + 1)) with cnt := w + 1 })
  | .finished => none

def step (niters : ℤ) (s : State) (a : Actor) : Option State :=
  if s.fault then none
  else match a with
    | .main => mainStep niters s
    | .thread t => threadStep niters s t

/-! ## What can be lost -/

/-- How often a thread has stored. -/
def Loc.stores (niters : ℤ) : Loc → ℕ
  | .absent | .start => 0
  | .loop i | .add i _ => i.toNat
  | .finished => niters.toNat

def Loc.loaded : Loc → Option ℕ
  | .add _ w => some w.toNat
  | _ => none

/-- The loop has come as far as it may. -/
def Loc.InLoop (niters : ℤ) : Loc → Prop
  | .loop i => 0 ≤ i ∧ i ≤ max niters 0
  | .add i w => 0 ≤ i ∧ i < niters ∧ 0 ≤ w
  | _ => True

def State.counter (niters : ℤ) (s : State) : Counter Bool where
  value := s.cnt.toNat
  loaded := Loc.loaded ∘ s.thread
  stores := Loc.stores niters ∘ s.thread
  count := (s.thread false).stores niters + (s.thread true).stores niters

/-- What may be printed in the end. -/
def Outcome (niters v : ℤ) : Prop :=
  if niters ≤ 0 then v = 0 else min 2 niters ≤ v ∧ v ≤ 2 * niters

/-- What `main` has waited for. -/
def MainLoc.Waited (niters : ℤ) (s : State) : MainLoc → Prop
  | .create t => s.thread true = .absent ∧ (t = false → s.thread false = .absent)
  | .join t => t = true → s.thread false = .finished
  | .check => ∀ t, s.thread t = .finished
  | .exit r => ∃ v, Outcome niters v ∧ r = report niters v

structure Inv (niters : ℤ) (s : State) : Prop where
  nofault : s.fault = false
  nonneg : 0 ≤ s.cnt
  loops : ∀ t, (s.thread t).InLoop niters
  bounded : Bounded (s.counter niters)
  waited : s.main.Waited niters s

variable {niters : ℤ} {s s' : State} {t : Bool} {loc : Loc}

theorem goto_thread (u : Bool) : (s.goto t loc).thread u = if u = t then loc else s.thread u :=
  Function.update_apply s.thread t loc u

theorem inv_start : Inv niters start :=
  ⟨rfl, le_rfl, fun _ => trivial, bounded_zero, rfl, fun _ => rfl⟩

theorem stores_le (h : loc.InLoop niters) : loc.stores niters ≤ niters.toNat := by
  cases loc with
  | absent => exact Nat.zero_le _
  | start => exact Nat.zero_le _
  | loop i =>
      have hle := h.2
      rw [Loc.stores]
      omega
  | add i w => exact Int.toNat_le_toNat h.2.1.le
  | finished => exact le_rfl

/-- A step that neither loads nor stores. -/
theorem counter_goto (hloaded : loc.loaded = (s.thread t).loaded)
    (hstores : loc.stores niters = (s.thread t).stores niters) :
    (s.goto t loc).counter niters = s.counter niters := by
  have hsame (u : Bool) : ((s.goto t loc).thread u).stores niters = (s.thread u).stores niters := by
    rw [goto_thread]
    split
    case isTrue hu => rw [hu, hstores]
    case isFalse => rfl
  have hkeeps : Loc.loaded ∘ (s.goto t loc).thread = Loc.loaded ∘ s.thread := by
    rw [State.goto, Function.comp_update, hloaded]
    exact Function.update_eq_self t _
  rw [State.counter, State.counter, hkeeps, hsame, hsame]
  exact congrArg (Counter.mk _ _ · _) (funext hsame)

theorem counter_load {i : ℤ} (hloc : s.thread t = .loop i) :
    (s.goto t (.add i s.cnt)).counter niters = (s.counter niters).load t := by
  have hsame (u : Bool) : ((s.goto t (.add i s.cnt)).thread u).stores niters =
      (s.thread u).stores niters := by
    rw [goto_thread]
    split
    case isTrue hu => rw [hu, hloc]; rfl
    case isFalse => rfl
  have hloads : Loc.loaded ∘ (s.goto t (.add i s.cnt)).thread =
      Function.update (Loc.loaded ∘ s.thread) t (some s.cnt.toNat) := Function.comp_update ..
  rw [State.counter, State.counter, Counter.load, hloads, hsame, hsame]
  exact congrArg (Counter.mk _ _ · _) (funext hsame)

theorem counter_store {i w : ℤ} (hloc : s.thread t = .add i w) (hi : 0 ≤ i) (hw : 0 ≤ w) :
    ({ s.goto t (.loop (i + 1)) with cnt := w + 1 } : State).counter niters =
      (s.counter niters).store t w.toNat := by
  have hstore : (Loc.loop (i + 1)).stores niters = (s.thread t).stores niters + 1 := by
    rw [hloc, Loc.stores, Loc.stores]
    omega
  have hstores : Loc.stores niters ∘ Function.update s.thread t (.loop (i + 1)) =
      Function.update (Loc.stores niters ∘ s.thread) t ((s.thread t).stores niters + 1) := by
    rw [Function.comp_update, hstore]
  have hloads : Loc.loaded ∘ Function.update s.thread t (.loop (i + 1)) =
      Function.update (Loc.loaded ∘ s.thread) t none := Function.comp_update ..
  have hcount : (s.goto t (.loop (i + 1)) |>.thread false).stores niters +
      ((s.goto t (.loop (i + 1))).thread true).stores niters =
        (s.thread false).stores niters + (s.thread true).stores niters + 1 := by
    rw [goto_thread, goto_thread]
    cases t with
    | false =>
        rw [if_pos rfl, if_neg (by decide), hstore]
        omega
    | true =>
        rw [if_neg (by decide), if_pos rfl, hstore]
        omega
  have hvalue : (w + 1).toNat = w.toNat + 1 := by omega
  rw [State.counter, State.counter, Counter.store, ← hvalue, ← hcount, ← hloads]
  exact congrArg (Counter.mk _ _ · _) hstores

/-- What `main` waits for stays so. -/
theorem Inv.thread (h : Inv niters s) {cnt : ℤ}
    (hrunning : s.thread t ≠ .absent ∧ s.thread t ≠ .finished) (hcnt : 0 ≤ cnt)
    (hloop : loc.InLoop niters)
    (hbounded : Bounded (({ s.goto t loc with cnt } : State).counter niters)) :
    Inv niters { s.goto t loc with cnt } := by
  have hsame {u : Bool} {x : Loc} (hx : x = .absent ∨ x = .finished) (hu : s.thread u = x) :
      ({ s.goto t loc with cnt } : State).thread u = x := by
    have hne : u ≠ t := by
      rintro rfl
      rcases hx with rfl | rfl
      · exact hrunning.1 hu
      · exact hrunning.2 hu
    exact (Function.update_of_ne hne _ _).trans hu
  refine ⟨h.nofault, hcnt, fun u => ?_, hbounded, ?_⟩
  · change ((s.goto t loc).thread u).InLoop niters
    rw [goto_thread]
    split
    · exact hloop
    · exact h.loops u
  · have hwaited := h.waited
    change s.main.Waited niters _
    cases hmain : s.main with
    | create u =>
        rw [hmain] at hwaited
        exact ⟨hsame (Or.inl rfl) hwaited.1, fun hu => hsame (Or.inl rfl) (hwaited.2 hu)⟩
    | join u =>
        rw [hmain] at hwaited
        exact fun hu => hsame (Or.inr rfl) (hwaited hu)
    | check =>
        rw [hmain] at hwaited
        exact fun u => hsame (Or.inr rfl) (hwaited u)
    | exit r =>
        rw [hmain] at hwaited
        exact hwaited

/-- A thread that is about to store has not stored everything. -/
theorem Inv.add_le (h : Inv niters s) {i w : ℤ} (hloc : s.thread t = .add i w) :
    w + 1 ≤ 2 * niters := by
  have hloops := h.loops t
  rw [hloc] at hloops
  have hloaded : (s.counter niters).loaded t = some w.toNat := congrArg Loc.loaded hloc
  have hle := h.bounded.loaded_le t _ hloaded
  have hself : (s.thread t).stores niters = i.toNat := by
    rw [hloc]
    rfl
  have hother := stores_le (h.loops !t)
  have hcount : (s.counter niters).count = (s.thread t).stores niters +
      (s.thread !t).stores niters := by
    cases t with
    | false => rfl
    | true => exact Nat.add_comm _ _
  rw [hcount, hself] at hle
  rcases hloops with ⟨hi, hlt, hw⟩
  omega

theorem Inv.threadStep (h : Inv niters s) (hint : IsInt (2 * niters))
    (hstep : threadStep niters s t = some s') : Inv niters s' := by
  have hloops := h.loops t
  rw [Badcnt.threadStep] at hstep
  cases hloc : s.thread t with
  | absent => simp only [hloc, reduceCtorEq] at hstep
  | finished => simp only [hloc, reduceCtorEq] at hstep
  | start =>
      simp only [hloc, Option.some.injEq] at hstep
      rw [← hstep]
      refine h.thread ⟨by rw [hloc]; decide, by rw [hloc]; decide⟩ h.nonneg
        ⟨le_rfl, le_max_right _ _⟩ ?_
      have hsame : (s.goto t (.loop 0)).counter niters = s.counter niters :=
        counter_goto (by rw [hloc]; rfl) (by rw [hloc]; rfl)
      exact hsame ▸ h.bounded
  | loop i =>
      rw [hloc] at hloops
      simp only [hloc, Option.some.injEq] at hstep
      have hrunning : s.thread t ≠ .absent ∧ s.thread t ≠ .finished := by
        rw [hloc]
        exact ⟨Loc.noConfusion, Loc.noConfusion⟩
      rw [← hstep]
      split
      · next hlt =>
          refine h.thread hrunning h.nonneg ⟨hloops.1, hlt, h.nonneg⟩ ?_
          exact (counter_load hloc).symm ▸ h.bounded.load t
      · next hge =>
          refine h.thread hrunning h.nonneg trivial ?_
          have hsame : (s.goto t .finished).counter niters = s.counter niters := by
            refine counter_goto (by rw [hloc]; rfl) ?_
            rw [hloc, Loc.stores, Loc.stores]
            rcases hloops with ⟨hi, hle⟩
            omega
          exact hsame ▸ h.bounded
  | add i w =>
      have hle := h.add_le hloc
      rw [hloc] at hloops
      rcases hloops with ⟨hi, hlt, hw⟩
      have hfits : IsInt (w + 1) := ⟨by omega, lt_of_le_of_lt hle hint.2⟩
      simp only [hloc, Option.some.injEq, checked, if_pos hfits] at hstep
      rw [← hstep]
      refine h.thread ⟨by rw [hloc]; exact Loc.noConfusion, by rw [hloc]; exact Loc.noConfusion⟩
        (by omega) ⟨by omega, by omega⟩ ?_
      have hloaded : (s.counter niters).loaded t = some w.toNat := congrArg Loc.loaded hloc
      exact (counter_store hloc hi hw).symm ▸ h.bounded.store hloaded

/-- When both threads have finished. -/
theorem Inv.outcome (h : Inv niters s) (hfinished : ∀ t, s.thread t = .finished) :
    Outcome niters s.cnt := by
  have hstores (t : Bool) : (s.counter niters).stores t = niters.toNat :=
    congrArg (Loc.stores niters) (hfinished t)
  have hcount : (s.counter niters).count = niters.toNat + niters.toNat :=
    congrArg₂ (· + ·) (hstores false) (hstores true)
  have hnonneg := h.nonneg
  have hvalue : (s.counter niters).value = s.cnt.toNat := rfl
  have hle := h.bounded.value_le
  rw [hcount, hvalue] at hle
  rw [Outcome]
  split
  · omega
  · next hpos =>
      have hone := h.bounded.value_pos (by omega)
      rw [hvalue] at hone
      refine ⟨?_, by omega⟩
      by_cases htwice : 2 ≤ niters
      · have htwo := h.bounded.two_le (by omega) fun t => by
          rw [hstores t]
          omega
        omega
      · omega

/-- The step of `main` leaves the counter as it is. -/
theorem Inv.main (h : Inv niters s) {main : MainLoc} (hwaited : main.Waited niters s) :
    Inv niters { s with main } := by
  refine ⟨h.nofault, h.nonneg, h.loops, h.bounded, ?_⟩
  change main.Waited niters { s with main }
  cases main with
  | create t => exact hwaited
  | join t => exact hwaited
  | check => exact hwaited
  | exit r => exact hwaited

/-- The thread is created. -/
theorem Inv.create (h : Inv niters s) (habsent : s.thread t = .absent) {main : MainLoc}
    (hwaited : main.Waited niters (s.goto t .start)) :
    Inv niters { s.goto t .start with main } := by
  have hsame : (s.goto t .start).counter niters = s.counter niters :=
    counter_goto (by rw [habsent]; rfl) (by rw [habsent]; rfl)
  refine ⟨h.nofault, h.nonneg, fun u => ?_, hsame ▸ h.bounded, ?_⟩
  · change ((s.goto t .start).thread u).InLoop niters
    rw [goto_thread]
    split
    · trivial
    · exact h.loops u
  · change main.Waited niters { s.goto t .start with main }
    cases main with
    | create t => exact hwaited
    | join t => exact hwaited
    | check => exact hwaited
    | exit r => exact hwaited

theorem Inv.mainStep (h : Inv niters s) (hint : IsInt (2 * niters))
    (hstep : mainStep niters s = some s') : Inv niters s' := by
  have hwaited := h.waited
  rw [Badcnt.mainStep] at hstep
  cases hmain : s.main with
  | create t =>
      rw [hmain] at hwaited
      cases t with
      | false =>
          simp only [hmain, Option.some.injEq] at hstep
          rw [← hstep]
          exact h.create (hwaited.2 rfl) ⟨hwaited.1, Bool.noConfusion⟩
      | true =>
          simp only [hmain, Option.some.injEq] at hstep
          rw [← hstep]
          exact h.create hwaited.1 Bool.noConfusion
  | join t =>
      rw [hmain] at hwaited
      cases t with
      | false =>
          simp only [hmain, Option.ite_none_right_eq_some, Option.some.injEq] at hstep
          rw [← hstep.2]
          exact h.main fun _ => hstep.1
      | true =>
          simp only [hmain, Option.ite_none_right_eq_some, Option.some.injEq] at hstep
          rw [← hstep.2]
          refine h.main fun u => ?_
          cases u with
          | false => exact hwaited rfl
          | true => exact hstep.1
  | check =>
      rw [hmain] at hwaited
      simp only [hmain, Option.some.injEq, checked, if_pos hint] at hstep
      rw [← hstep]
      exact h.main ⟨s.cnt, h.outcome hwaited, rfl⟩
  | exit r => simp only [hmain, reduceCtorEq] at hstep

theorem reach_inv (hint : IsInt (2 * niters)) (h : Reach (step niters) anyStep start s) :
    Inv niters s := by
  refine h.invariant inv_start fun s a s' hs _ hstep => ?_
  have hnot : ¬ s.fault = true := ne_true_of_eq_false hs.nofault
  cases a with
  | main => exact hs.mainStep hint ((if_neg hnot).symm.trans hstep)
  | thread t => exact hs.threadStep hint ((if_neg hnot).symm.trans hstep)

/-! ## Schedules -/

/-- While `main` waits for the threads. -/
def running (first second : Loc) (cnt : ℤ) : State :=
  ⟨.join false, fun t => if t then second else first, cnt, false⟩

variable {first second : Loc} {cnt i j w : ℤ}

theorem running_goto_false :
    (running first second cnt).goto false loc = running loc second cnt := by
  rw [running, running, State.goto]
  refine congrArg (State.mk _ · _ _) (funext fun t => ?_)
  cases t with
  | false => rfl
  | true => rfl

theorem running_goto_true :
    (running first second cnt).goto true loc = running first loc cnt := by
  rw [running, running, State.goto]
  refine congrArg (State.mk _ · _ _) (funext fun t => ?_)
  cases t with
  | false => rfl
  | true => rfl

abbrev Leads (niters : ℤ) (s s' : State) : Prop := Reach (step niters) anyStep s s'

theorem Leads.thread (t : Bool) (hfault : s.fault = false)
    (hstep : threadStep niters s t = some s') : Leads niters s s' := by
  exact Reach.refl.tail (.thread t) trivial ((if_neg (ne_true_of_eq_false hfault)).trans hstep)

/-- A thread reads the counter. -/
theorem first_loads (hlt : i < niters) :
    Leads niters (running (.loop i) second cnt) (running (.add i cnt) second cnt) := by
  exact Leads.thread false rfl (congrArg some ((if_pos hlt).trans running_goto_false))

theorem second_loads (hlt : i < niters) :
    Leads niters (running first (.loop i) cnt) (running first (.add i cnt) cnt) := by
  exact Leads.thread true rfl (congrArg some ((if_pos hlt).trans running_goto_true))

theorem first_stores (hw : IsInt (w + 1)) :
    Leads niters (running (.add i w) second cnt) (running (.loop (i + 1)) second (w + 1)) := by
  refine Leads.thread false rfl (congrArg some ((if_pos hw).trans ?_))
  exact congrArg (fun s : State => { s with cnt := w + 1 }) running_goto_false

theorem second_stores (hw : IsInt (w + 1)) :
    Leads niters (running first (.add i w) cnt) (running first (.loop (i + 1)) (w + 1)) := by
  refine Leads.thread true rfl (congrArg some ((if_pos hw).trans ?_))
  exact congrArg (fun s : State => { s with cnt := w + 1 }) running_goto_true

/-- The iterations of one thread, while the other one stands still. -/
theorem first_loops (k : ℕ) (hi : i + k ≤ niters) (hnonneg : 0 ≤ cnt) (hfits : IsInt (cnt + k)) :
    Leads niters (running (.loop i) second cnt) (running (.loop (i + k)) second (cnt + k)) := by
  induction k with
  | zero =>
      rw [Nat.cast_zero, add_zero, add_zero]
      exact .refl
  | succ k ih =>
      push_cast at hi hfits ⊢
      rcases hfits with ⟨-, hupper⟩
      rw [← add_assoc, ← add_assoc]
      refine (ih (by omega) ⟨by omega, by omega⟩).trans ((first_loads (by omega)).trans ?_)
      exact first_stores ⟨by omega, by omega⟩

theorem second_loops (k : ℕ) (hi : i + k ≤ niters) (hnonneg : 0 ≤ cnt) (hfits : IsInt (cnt + k)) :
    Leads niters (running first (.loop i) cnt) (running first (.loop (i + k)) (cnt + k)) := by
  induction k with
  | zero =>
      rw [Nat.cast_zero, add_zero, add_zero]
      exact .refl
  | succ k ih =>
      push_cast at hi hfits ⊢
      rcases hfits with ⟨-, hupper⟩
      rw [← add_assoc, ← add_assoc]
      refine (ih (by omega) ⟨by omega, by omega⟩).trans ((second_loads (by omega)).trans ?_)
      exact second_stores ⟨by omega, by omega⟩

/-- Both read before one of them stores, in each iteration. -/
theorem both_loop (k : ℕ) (hi : i + k ≤ niters) (hnonneg : 0 ≤ cnt) (hfits : IsInt (cnt + k)) :
    Leads niters (running (.loop i) (.loop i) cnt)
      (running (.loop (i + k)) (.loop (i + k)) (cnt + k)) := by
  induction k with
  | zero =>
      rw [Nat.cast_zero, add_zero, add_zero]
      exact .refl
  | succ k ih =>
      push_cast at hi hfits ⊢
      rcases hfits with ⟨-, hupper⟩
      rw [← add_assoc, ← add_assoc]
      have hw : IsInt (cnt + k + 1) := ⟨by omega, by omega⟩
      refine (ih (by omega) ⟨by omega, by omega⟩).trans ((first_loads (by omega)).trans ?_)
      exact (second_loads (by omega)).trans ((first_stores hw).trans (second_stores hw))

theorem start_leads : Leads niters start (running (.loop 0) (.loop 0) 0) := by
  refine reach_of_run_anyStep [.main, .main, .thread false, .thread true] ?_
  refine congrArg some ?_
  rw [running]
  refine congrArg (State.mk _ · _ _) (funext fun t => ?_)
  cases t with
  | false => rfl
  | true => rfl

theorem leads_exit (hint : IsInt (2 * niters)) (hfirst : niters ≤ i) (hsecond : niters ≤ j) :
    ∃ s, Leads niters (running (.loop i) (.loop j) cnt) s ∧ s.main = .exit (report niters cnt) := by
  have hends : Leads niters (running (.loop i) (.loop j) cnt)
      (running .finished .finished cnt) := by
    have hfalse : Leads niters (running (.loop i) (.loop j) cnt)
        (running .finished (.loop j) cnt) :=
      .thread false rfl (congrArg some ((if_neg (not_lt.mpr hfirst)).trans running_goto_false))
    refine hfalse.trans (Leads.thread true rfl (congrArg some ?_))
    exact (if_neg (not_lt.mpr hsecond)).trans running_goto_true
  have hchecks : Leads niters (running .finished .finished cnt)
      { running .finished .finished cnt with main := .exit (report niters cnt) } :=
    reach_of_run_anyStep [Actor.main, Actor.main, Actor.main] (congrArg some (if_pos hint))
  exact ⟨_, hends.trans hchecks, rfl⟩

/-- The threads may go through the first iterations together, and lose an addition in each. -/
theorem exists_many {v : ℤ} (hint : IsInt (2 * niters)) (hlower : niters ≤ v)
    (hupper : v ≤ 2 * niters) :
    ∃ s, Leads niters start s ∧ s.main = .exit (report niters v) := by
  rcases hint with ⟨-, hfits⟩
  rcases Int.eq_ofNat_of_zero_le (sub_nonneg.mpr hupper) with ⟨together, htogether⟩
  rcases Int.eq_ofNat_of_zero_le (sub_nonneg.mpr hlower) with ⟨alone, halone⟩
  have htotal : niters = together + alone := by omega
  have hboth : Leads niters (running (.loop 0) (.loop 0) 0)
      (running (.loop (0 + together)) (.loop (0 + together)) (0 + together)) :=
    both_loop together (by omega) le_rfl ⟨by omega, by omega⟩
  have hfirst : Leads niters (running (.loop (0 + together)) (.loop (0 + together)) (0 + together))
      (running (.loop (0 + together + alone)) (.loop (0 + together)) (0 + together + alone)) :=
    first_loops alone (by omega) (by omega) ⟨by omega, by omega⟩
  have hsecond : Leads niters
      (running (.loop (0 + together + alone)) (.loop (0 + together)) (0 + together + alone))
      (running (.loop (0 + together + alone)) (.loop (0 + together + alone))
        (0 + together + alone + alone)) :=
    second_loops alone (by omega) (by omega) ⟨by omega, by omega⟩
  have hexit : ∃ s, Leads niters
      (running (.loop (0 + together + alone)) (.loop (0 + together + alone))
        (0 + together + alone + alone)) s ∧
      s.main = .exit (report niters (0 + together + alone + alone)) :=
    leads_exit ⟨by omega, hfits⟩ (by omega) (by omega)
  rcases hexit with ⟨s, hs, hmain⟩
  refine ⟨s, start_leads.trans (hboth.trans (hfirst.trans (hsecond.trans hs))), ?_⟩
  rw [hmain, show 0 + (together : ℤ) + alone + alone = v by omega]

/-- The first thread stores late, and throws away almost all that the second one has added; the
second one does the same at its end. -/
theorem exists_few {v : ℤ} (hint : IsInt (2 * niters)) (hlower : 2 ≤ v) (hupper : v ≤ niters) :
    ∃ s, Leads niters start s ∧ s.main = .exit (report niters v) := by
  rcases hint with ⟨-, hfits⟩
  rcases Int.eq_ofNat_of_zero_le (sub_nonneg.mpr hlower) with ⟨before, hbefore⟩
  rcases Int.eq_ofNat_of_zero_le (sub_nonneg.mpr hupper) with ⟨after, hafter⟩
  have hv : v = before + 2 := by omega
  have htotal : niters = before + after + 2 := by omega
  have hfirst : Leads niters (running (.loop 0) (.loop 0) 0)
      (running (.loop (0 + before)) (.loop 0) (0 + before)) :=
    first_loops before (by omega) le_rfl ⟨by omega, by omega⟩
  have hreads : Leads niters (running (.loop (0 + before)) (.loop 0) (0 + before))
      (running (.add (0 + before) (0 + before)) (.loop 0) (0 + before)) :=
    first_loads (by omega)
  have hsecond : Leads niters (running (.add (0 + before) (0 + before)) (.loop 0) (0 + before))
      (running (.add (0 + before) (0 + before)) (.loop (0 + (before + after + 1 : ℕ)))
        (0 + before + (before + after + 1 : ℕ))) :=
    second_loops (before + after + 1) (by omega) (by omega) ⟨by omega, by omega⟩
  have hstores : Leads niters
      (running (.add (0 + before) (0 + before)) (.loop (0 + (before + after + 1 : ℕ)))
        (0 + before + (before + after + 1 : ℕ)))
      (running (.loop (0 + before + 1)) (.loop (0 + (before + after + 1 : ℕ))) (0 + before + 1)) :=
    first_stores ⟨by omega, by omega⟩
  have hreads' : Leads niters
      (running (.loop (0 + before + 1)) (.loop (0 + (before + after + 1 : ℕ))) (0 + before + 1))
      (running (.loop (0 + before + 1)) (.add (0 + (before + after + 1 : ℕ)) (0 + before + 1))
        (0 + before + 1)) :=
    second_loads (by omega)
  have hrest : Leads niters
      (running (.loop (0 + before + 1)) (.add (0 + (before + after + 1 : ℕ)) (0 + before + 1))
        (0 + before + 1))
      (running (.loop (0 + before + 1 + (after + 1 : ℕ)))
        (.add (0 + (before + after + 1 : ℕ)) (0 + before + 1))
        (0 + before + 1 + (after + 1 : ℕ))) :=
    first_loops (after + 1) (by omega) (by omega) ⟨by omega, by omega⟩
  have hstores' : Leads niters
      (running (.loop (0 + before + 1 + (after + 1 : ℕ)))
        (.add (0 + (before + after + 1 : ℕ)) (0 + before + 1))
        (0 + before + 1 + (after + 1 : ℕ)))
      (running (.loop (0 + before + 1 + (after + 1 : ℕ)))
        (.loop (0 + (before + after + 1 : ℕ) + 1)) (0 + before + 1 + 1)) :=
    second_stores ⟨by omega, by omega⟩
  have hexit : ∃ s, Leads niters
      (running (.loop (0 + before + 1 + (after + 1 : ℕ)))
        (.loop (0 + (before + after + 1 : ℕ) + 1)) (0 + before + 1 + 1)) s ∧
      s.main = .exit (report niters (0 + before + 1 + 1)) :=
    leads_exit ⟨by omega, hfits⟩ (by omega) (by omega)
  rcases hexit with ⟨s, hs, hmain⟩
  refine ⟨s, start_leads.trans (hfirst.trans (hreads.trans (hsecond.trans (hstores.trans
    (hreads'.trans (hrest.trans (hstores'.trans hs))))))), ?_⟩
  rw [hmain, show 0 + (before : ℤ) + 1 + 1 = v by omega]

theorem exists_none (hint : IsInt (2 * niters)) (hnone : niters ≤ 0) :
    ∃ s, Leads niters start s ∧ s.main = .exit (report niters 0) := by
  have hexit : ∃ s, Leads niters (running (.loop 0) (.loop 0) 0) s ∧
      s.main = .exit (report niters 0) := leads_exit hint hnone hnone
  rcases hexit with ⟨s, hs, hmain⟩
  exact ⟨s, start_leads.trans hs, hmain⟩

/-- What the program may print: with two iterations or more it is any number from 2 on, up to
twice the number of iterations. When that is an `int` nothing overflows. -/
theorem badcnt_outcomes (niters : ℤ) (hint : IsInt (2 * niters)) :
    (∀ s, Reach (step niters) anyStep start s → s.fault = false) ∧
    ∀ r, (∃ s, Reach (step niters) anyStep start s ∧ s.main = .exit r) ↔
      ∃ v, Outcome niters v ∧ r = report niters v := by
  refine ⟨fun s hs => (reach_inv hint hs).nofault, fun r => ⟨?_, ?_⟩⟩
  · rintro ⟨s, hs, hmain⟩
    have hwaited := (reach_inv hint hs).waited
    rw [hmain] at hwaited
    exact hwaited
  · rintro ⟨v, houtcome, rfl⟩
    rw [Outcome] at houtcome
    split at houtcome
    case isTrue hnone => exact houtcome ▸ exists_none hint hnone
    case isFalse hsome =>
      by_cases hmany : niters ≤ v
      · exact exists_many hint hmany houtcome.2
      · exact exists_few hint (by omega) (by omega)

theorem badcnt_outcomes_three :
    (∃ s, Reach (step 3) anyStep start s ∧ s.main = .exit (.boom 2)) ∧
      ¬ ∃ s, Reach (step 3) anyStep start s ∧ s.main = .exit (.boom 1) := by
  rw [(badcnt_outcomes 3 (by decide)).2, (badcnt_outcomes 3 (by decide)).2]
  refine ⟨⟨2, by rw [Outcome]; decide, rfl⟩, ?_⟩
  rintro ⟨v, houtcome, hreport⟩
  rw [Outcome, if_neg (by decide)] at houtcome
  rw [report] at hreport
  split at hreport
  · cases hreport
    exact absurd houtcome.1 (by decide)
  · cases hreport

end OsLabs.Concurrent.Badcnt
