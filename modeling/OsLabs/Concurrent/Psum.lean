import Mathlib
import OsLabs.Lib.Transition
import OsLabs.Lib.CNumber

/-!
# The parallel sum `psum.c`

The main thread creates a thread for each part of the range, waits for all of them and
adds up what they have left in `psum`. An access outside of an array is undefined: nothing
is said about a run once it has made one.
-/

namespace OsLabs.Concurrent.Psum

open OsLabs.Transition OsLabs.CNumber

def MAXTHREADS : ℤ := 32

/-- A `long` of 64 bits. -/
def long (x : ℤ) : ℤ := x.bmod (2 ^ 64)

structure Params where
  nthreads : ℤ
  nelems : ℤ
  nelems_per_thread : ℤ
deriving DecidableEq, Repr

/-- `1L << log_nelems`; `none` where the shift is undefined. -/
def shiftLeft (log_nelems : ℤ) : Option ℤ :=
  if 0 ≤ log_nelems ∧ log_nelems < 63 then some (2 ^ log_nelems.toNat) else none

/-- The check of the input in `main`, where it is defined. -/
def checkInput (nthreads log_nelems : ℤ) : Option Params := do
  let nelems ← shiftLeft log_nelems
  if nthreads = 0 then none
  else if nelems.tmod nthreads ≠ 0 ∨ log_nelems > 31 then none
  else some ⟨nthreads, nelems, nelems.tdiv nthreads⟩

/-! ## The threads -/

inductive MainLoc
  | setMyid (i : ℤ)
  | create (i : ℤ)
  | join (i : ℤ)
  | add (i result : ℤ)
  | done (result : ℤ)
deriving DecidableEq, Repr

/-- A thread is started with a pointer to an element of `myid`. -/
inductive ThreadLoc
  | absent
  | extractid (vargp : ℤ)
  | loop (myid finish i sum : ℤ)
  | finished
deriving DecidableEq, Repr

/-- The arrays are functions of the index; `fault` is set by an access out of bounds. -/
structure State where
  main : MainLoc
  threads : ℤ → ThreadLoc
  psum : ℤ → ℤ
  tid : ℤ → ℤ
  myid : ℤ → ℤ
  fault : Bool

def start : State where
  main := .setMyid 0
  threads := fun _ => .absent
  psum := fun _ => 0
  tid := fun _ => 0
  myid := fun _ => 0
  fault := false

inductive Actor
  | main
  | thread (t : ℤ)
deriving DecidableEq, Repr

def State.goto (s : State) (t : ℤ) (loc : ThreadLoc) : State :=
  { s with threads := Function.update s.threads t loc }

/-- An access to index `i` of an array of `MAXTHREADS` elements, then `next`. -/
def access (s : State) (i : ℤ) (next : Option State) : Option State :=
  if 0 ≤ i ∧ i < MAXTHREADS then next else some { s with fault := true }

/-- `main` after the check. -/
def mainStep (p : Params) (s : State) : Option State :=
  match s.main with
  | .setMyid i =>
      if i < p.nthreads then
        access s i (some { s with myid := Function.update s.myid i (int32 i), main := .create i })
      else some { s with main := .join 0 }
  | .create i =>
      access s i (some { s.goto i (.extractid i) with
        tid := Function.update s.tid i i
        main := .setMyid (long (i + 1)) })
  | .join i =>
      if i < p.nthreads then
        access s i (if s.threads (s.tid i) = .finished then
          some { s with main := .join (long (i + 1)) } else none)
      else some { s with main := .add 0 0 }
  | .add i result =>
      if i < p.nthreads then
        access s i (some { s with main := .add (long (i + 1)) (long (result + s.psum i)) })
      else some { s with main := .done result }
  | .done _ => none

/-- The thread routine `sum`. -/
def threadStep (p : Params) (s : State) (t : ℤ) : Option State :=
  match s.threads t with
  | .absent => none
  | .extractid vargp =>
      let myid := s.myid vargp
      let start := long (myid * p.nelems_per_thread)
      access s vargp (some (s.goto t (.loop myid (long (start + p.nelems_per_thread)) start 0)))
  | .loop myid finish i sum =>
      if i < finish then some (s.goto t (.loop myid finish (long (i + 1)) (long (sum + i))))
      else access s myid
        (some { s.goto t .finished with psum := Function.update s.psum myid sum })
  | .finished => none

def step (p : Params) (s : State) (a : Actor) : Option State :=
  if s.fault then none
  else
    match a with
    | .main => mainStep p s
    | .thread t => threadStep p s t

/-! ## Sums of ranges -/

/-- The sum of the numbers below `k`. -/
def sumBelow (k : ℤ) : ℤ := k * (k - 1) / 2

theorem sumBelow_succ (k : ℤ) : sumBelow (k + 1) = sumBelow k + k := by
  unfold sumBelow
  have hsplit : (k + 1) * (k + 1 - 1) = k * (k - 1) + k * 2 := by ring
  rw [hsplit, Int.add_mul_ediv_right _ _ two_ne_zero]

theorem sumBelow_mono {a b : ℤ} (ha : 0 ≤ a) (hab : a ≤ b) : sumBelow a ≤ sumBelow b := by
  induction b, hab using Int.leInduction with
  | base => exact le_rfl
  | succ b hab ih =>
      rw [sumBelow_succ]
      linarith

theorem sumBelow_bounds {k : ℤ} (h : 0 ≤ k) (hle : k ≤ 2 ^ 31) :
    0 ≤ sumBelow k ∧ sumBelow k ≤ 2 ^ 62 := by
  constructor
  · exact sumBelow_mono le_rfl h
  · calc sumBelow k ≤ sumBelow (2 ^ 31) := sumBelow_mono h hle
      _ ≤ 2 ^ 62 := by decide

theorem long_eq {x : ℤ} (h : -2 ^ 63 ≤ x) (hlt : x < 2 ^ 63) : long x = x :=
  Int.bmod_eq_of_le (by norm_num; omega) (by norm_num; omega)

/-! ## The invariant -/

variable {p : Params} {s s' : State} {a : Actor} {i t : ℤ}

/-- A thread count that fits the arrays, for a range it divides. -/
structure Fits (p : Params) : Prop where
  pos : 0 < p.nthreads
  le : p.nthreads ≤ MAXTHREADS
  nelems : p.nelems = p.nthreads * p.nelems_per_thread
  nelems_le : p.nelems ≤ 2 ^ 31
  part_pos : 0 < p.nelems_per_thread

/-- Where the part of thread `t` begins. -/
def Params.first (p : Params) (t : ℤ) : ℤ := t * p.nelems_per_thread

theorem Params.first_succ (p : Params) (t : ℤ) :
    p.first (t + 1) = p.first t + p.nelems_per_thread := by
  unfold first
  ring

theorem Fits.first_bounds (h : Fits p) (ht : 0 ≤ t) (hle : t ≤ p.nthreads) :
    0 ≤ p.first t ∧ p.first t ≤ 2 ^ 31 := by
  have hpart := h.part_pos.le
  constructor
  · exact mul_nonneg ht hpart
  · calc p.first t ≤ p.nthreads * p.nelems_per_thread := mul_le_mul_of_nonneg_right hle hpart
      _ = p.nelems := h.nelems.symm
      _ ≤ 2 ^ 31 := h.nelems_le

/-- The threads that have been created are those below this number. -/
def MainLoc.created (p : Params) : MainLoc → ℤ
  | .setMyid i | .create i => i
  | .join _ | .add _ _ | .done _ => p.nthreads

/-- What thread `t` will have left in `psum`. -/
def partSum (p : Params) (t : ℤ) : ℤ := sumBelow (p.first (t + 1)) - sumBelow (p.first t)

/-- What holds where thread `t` is, of its elements of `myid` and `psum`. -/
def ThreadOk (p : Params) (t myid psum : ℤ) : ThreadLoc → Prop
  | .absent => False
  | .extractid vargp => vargp = t ∧ myid = t
  | .loop myid finish i sum => myid = t ∧ finish = p.first (t + 1) ∧ p.first t ≤ i ∧
      i ≤ finish ∧ sum = sumBelow i - sumBelow (p.first t)
  | .finished => psum = partSum p t

def MainOk (p : Params) (myid : ℤ → ℤ) (threads : ℤ → ThreadLoc) : MainLoc → Prop
  | .setMyid i => 0 ≤ i ∧ i ≤ p.nthreads
  | .create i => 0 ≤ i ∧ i < p.nthreads ∧ myid i = i
  | .join i => 0 ≤ i ∧ i ≤ p.nthreads ∧ ∀ t, 0 ≤ t → t < i → threads t = .finished
  | .add i result => 0 ≤ i ∧ i ≤ p.nthreads ∧ result = sumBelow (p.first i) ∧
      ∀ t, 0 ≤ t → t < p.nthreads → threads t = .finished
  | .done result => result = sumBelow p.nelems

structure Inv (p : Params) (s : State) : Prop where
  fault : s.fault = false
  main : MainOk p s.myid s.threads s.main
  created : ∀ t, 0 ≤ t → t < s.main.created p →
    s.tid t = t ∧ ThreadOk p t (s.myid t) (s.psum t) (s.threads t)
  absent : ∀ t, ¬ (0 ≤ t ∧ t < s.main.created p) → s.threads t = .absent

theorem access_eq (h0 : 0 ≤ i) (hlt : i < p.nthreads) (hfits : Fits p) (next : Option State) :
    access s i next = next :=
  if_pos ⟨h0, hlt.trans_le hfits.le⟩

theorem Fits.long_succ (h : Fits p) (h0 : 0 ≤ i) (hlt : i < p.nthreads) : long (i + 1) = i + 1 := by
  have hmax := h.le
  unfold MAXTHREADS at hmax
  exact long_eq (by omega) (by omega)

theorem Fits.first_nthreads (h : Fits p) : p.first p.nthreads = p.nelems := h.nelems.symm

theorem inv_start (hfits : Fits p) : Inv p start where
  fault := rfl
  main := ⟨le_rfl, hfits.pos.le⟩
  created := fun _ h0 hlt => absurd hlt h0.not_gt
  absent := fun _ _ => rfl

theorem Inv.created_le (h : Inv p s) : s.main.created p ≤ p.nthreads := by
  have hmain := h.main
  cases hloc : s.main with
  | setMyid i =>
      rw [hloc] at hmain
      exact hmain.2
  | create i =>
      rw [hloc] at hmain
      exact hmain.2.1.le
  | join | add | done => exact le_rfl

/-! ## The main thread -/

/-- The main thread goes on and leaves the arrays and the threads as they are. -/
theorem Inv.goto (h : Inv p s) {main : MainLoc} (hmain : MainOk p s.myid s.threads main)
    (hcreated : main.created p = s.main.created p) : Inv p { s with main } where
  fault := h.fault
  main := hmain
  created := fun t h0 hlt => h.created t h0 (hlt.trans_eq hcreated)
  absent := fun t hnot => h.absent t fun hin => hnot ⟨hin.1, hin.2.trans_eq hcreated.symm⟩

theorem Inv.setMyid (hfits : Fits p) (h : Inv p s) (hloc : s.main = .setMyid i)
    (h0 : 0 ≤ i) (hlt : i < p.nthreads) :
    Inv p { s with myid := Function.update s.myid i (int32 i), main := .create i } := by
  have hmax := hfits.le
  unfold MAXTHREADS at hmax
  have hint : int32 i = i := int32_eq (by omega) (by unfold INT_MAX; omega)
  have hcreated : s.main.created p = i := by rw [hloc]; rfl
  refine ⟨h.fault, ⟨h0, hlt, (Function.update_self ..).trans hint⟩, ?_, ?_⟩
  · intro t ht hti
    have hne : t ≠ i := hti.ne
    have hold := h.created t ht (hcreated.symm ▸ hti)
    simpa only [Function.update_of_ne hne] using hold
  · intro t hnot
    exact h.absent t (hcreated.symm ▸ hnot)

theorem Inv.create (h : Inv p s) (hloc : s.main = .create i) (h0 : 0 ≤ i)
    (hlt : i < p.nthreads) (hmyid : s.myid i = i) :
    Inv p { s.goto i (.extractid i) with
      tid := Function.update s.tid i i
      main := .setMyid (i + 1) } := by
  have hcreated : s.main.created p = i := by rw [hloc]; rfl
  refine ⟨h.fault, ⟨by omega, by omega⟩, ?_, ?_⟩
  · intro t ht hti
    rcases eq_or_ne t i with rfl | hne
    · exact ⟨Function.update_self .., by
        simpa only [State.goto, Function.update_self, ThreadOk, true_and] using hmyid⟩
    · simp only [MainLoc.created] at hti
      have hold := h.created t ht (by omega)
      simpa only [State.goto, Function.update_of_ne hne] using hold
  · intro t hnot
    simp only [MainLoc.created] at hnot
    have hne : t ≠ i := by omega
    simp only [State.goto, Function.update_of_ne hne]
    exact h.absent t (by omega)

/-- The partial sums of the threads below `i` are those of the numbers below their end. -/
theorem Inv.add (hfits : Fits p) (h : Inv p s) {result : ℤ} (hloc : s.main = .add i result)
    (hlt : i < p.nthreads) :
    Inv p { s with main := .add (i + 1) (long (result + s.psum i)) } := by
  have hmain := h.main
  rw [hloc] at hmain
  obtain ⟨h0, -, rfl, hfinished⟩ := hmain
  have hcreated : s.main.created p = p.nthreads := by rw [hloc]; rfl
  obtain ⟨-, hok⟩ := h.created i h0 (hcreated.symm ▸ hlt)
  rw [hfinished i h0 hlt] at hok
  have hpsum : s.psum i = partSum p i := hok
  have hsum : sumBelow (p.first i) + s.psum i = sumBelow (p.first (i + 1)) := by
    rw [hpsum, partSum]
    ring
  obtain ⟨hfirst0, hfirst⟩ := hfits.first_bounds (t := i + 1) (by omega) (by omega)
  obtain ⟨hlow, hhigh⟩ := sumBelow_bounds hfirst0 hfirst
  rw [hsum, long_eq (by omega) (by omega)]
  exact h.goto ⟨by omega, by omega, rfl, hfinished⟩ hcreated.symm

/-- What the main thread does under the invariant; none of its accesses is out of bounds. -/
inductive MainSteps (p : Params) (s : State) : State → Prop
  | setMyid {i : ℤ} (hloc : s.main = .setMyid i) (h0 : 0 ≤ i) (hlt : i < p.nthreads) :
      MainSteps p s { s with myid := Function.update s.myid i (int32 i), main := .create i }
  | created (hloc : s.main = .setMyid p.nthreads) : MainSteps p s { s with main := .join 0 }
  | create {i : ℤ} (hloc : s.main = .create i) (h0 : 0 ≤ i) (hlt : i < p.nthreads)
      (hmyid : s.myid i = i) :
      MainSteps p s { s.goto i (.extractid i) with
        tid := Function.update s.tid i i
        main := .setMyid (i + 1) }
  | join {i : ℤ} (hloc : s.main = .join i) (h0 : 0 ≤ i) (hlt : i < p.nthreads)
      (hfinished : ∀ t, 0 ≤ t → t < i + 1 → s.threads t = .finished) :
      MainSteps p s { s with main := .join (i + 1) }
  | joined (hloc : s.main = .join p.nthreads)
      (hfinished : ∀ t, 0 ≤ t → t < p.nthreads → s.threads t = .finished) :
      MainSteps p s { s with main := .add 0 0 }
  | add {i result : ℤ} (hloc : s.main = .add i result) (h0 : 0 ≤ i) (hlt : i < p.nthreads) :
      MainSteps p s { s with main := .add (i + 1) (long (result + s.psum i)) }
  | done {result : ℤ} (hloc : s.main = .add p.nthreads result)
      (hresult : result = sumBelow p.nelems) : MainSteps p s { s with main := .done result }

theorem Inv.mainSteps (hfits : Fits p) (h : Inv p s) (hstep : mainStep p s = some s') :
    MainSteps p s s' := by
  have hmain := h.main
  unfold Psum.mainStep at hstep
  cases hloc : s.main with
  | setMyid i =>
      simp only [hloc] at hstep hmain
      obtain ⟨h0, hle⟩ := hmain
      split at hstep
      case isTrue hlt =>
        rw [access_eq h0 hlt hfits] at hstep
        obtain rfl := Option.some.inj hstep
        exact .setMyid hloc h0 hlt
      case isFalse hge =>
        obtain rfl := Option.some.inj hstep
        obtain rfl : i = p.nthreads := hle.antisymm (not_lt.mp hge)
        exact .created hloc
  | create i =>
      simp only [hloc] at hstep hmain
      obtain ⟨h0, hlt, hmyid⟩ := hmain
      rw [access_eq h0 hlt hfits, hfits.long_succ h0 hlt] at hstep
      obtain rfl := Option.some.inj hstep
      exact .create hloc h0 hlt hmyid
  | join i =>
      simp only [hloc] at hstep hmain
      obtain ⟨h0, hle, hfinished⟩ := hmain
      have hcreated : s.main.created p = p.nthreads := by rw [hloc]; rfl
      split at hstep
      case isTrue hlt =>
        rw [access_eq h0 hlt hfits, (h.created i h0 (hcreated.symm ▸ hlt)).1,
          hfits.long_succ h0 hlt] at hstep
        split at hstep
        case isTrue hdone =>
          obtain rfl := Option.some.inj hstep
          refine .join hloc h0 hlt fun t ht hti => ?_
          rcases eq_or_ne t i with rfl | hne
          · exact hdone
          · exact hfinished t ht (by omega)
        case isFalse => cases hstep
      case isFalse hge =>
        obtain rfl := Option.some.inj hstep
        obtain rfl : i = p.nthreads := hle.antisymm (not_lt.mp hge)
        exact .joined hloc hfinished
  | add i result =>
      simp only [hloc] at hstep hmain
      obtain ⟨h0, hle, hresult, -⟩ := hmain
      split at hstep
      case isTrue hlt =>
        rw [access_eq h0 hlt hfits, hfits.long_succ h0 hlt] at hstep
        obtain rfl := Option.some.inj hstep
        exact .add hloc h0 hlt
      case isFalse hge =>
        obtain rfl := Option.some.inj hstep
        obtain rfl : i = p.nthreads := hle.antisymm (not_lt.mp hge)
        exact .done hloc (hresult.trans (congrArg sumBelow hfits.first_nthreads))
  | done result =>
      simp only [hloc] at hstep
      cases hstep

theorem Inv.mainStep (hfits : Fits p) (h : Inv p s) (hstep : mainStep p s = some s') :
    Inv p s' := by
  cases h.mainSteps hfits hstep with
  | setMyid hloc h0 hlt => exact h.setMyid hfits hloc h0 hlt
  | created hloc =>
      exact h.goto ⟨le_rfl, hfits.pos.le, fun t h0 hlt => absurd hlt h0.not_gt⟩
        (by rw [hloc]; rfl)
  | create hloc h0 hlt hmyid => exact h.create hloc h0 hlt hmyid
  | join hloc h0 hlt hfinished =>
      exact h.goto ⟨by omega, by omega, hfinished⟩ (by rw [hloc]; rfl)
  | joined hloc hfinished =>
      refine h.goto ⟨le_rfl, hfits.pos.le, ?_, hfinished⟩ (by rw [hloc]; rfl)
      simp [Params.first, sumBelow]
  | add hloc h0 hlt => exact h.add hfits hloc hlt
  | done hloc hresult => exact h.goto hresult (by rw [hloc]; rfl)

/-! ## The thread routine -/

/-- A thread that is not finished yet goes on to where it is right. -/
theorem Inv.thread (h : Inv p s) (hcreated : 0 ≤ t ∧ t < s.main.created p)
    (hunfinished : s.threads t ≠ .finished) {loc : ThreadLoc} {psum : ℤ → ℤ}
    (hok : ThreadOk p t (s.myid t) (psum t) loc) (hothers : ∀ t' ≠ t, psum t' = s.psum t') :
    Inv p { s.goto t loc with psum } := by
  refine ⟨h.fault, ?_, ?_, ?_⟩
  · have hmain := h.main
    have hkeeps : ∀ t', s.threads t' = .finished →
        Function.update s.threads t loc t' = .finished := by
      intro t' hfinished
      have hne : t' ≠ t := by
        rintro rfl
        exact hunfinished hfinished
      rw [Function.update_of_ne hne, hfinished]
    cases hloc : s.main with
    | setMyid | create | done =>
        rw [hloc] at hmain
        exact hloc ▸ hmain
    | join i =>
        rw [hloc] at hmain
        obtain ⟨h0, hle, hfinished⟩ := hmain
        have hmain' : MainOk p s.myid (Function.update s.threads t loc) (.join i) :=
          ⟨h0, hle, fun t' ht' hlt => hkeeps t' (hfinished t' ht' hlt)⟩
        exact hloc ▸ hmain'
    | add i result =>
        rw [hloc] at hmain
        obtain ⟨h0, hle, hresult, hfinished⟩ := hmain
        have hmain' : MainOk p s.myid (Function.update s.threads t loc) (.add i result) :=
          ⟨h0, hle, hresult, fun t' ht' hlt => hkeeps t' (hfinished t' ht' hlt)⟩
        exact hloc ▸ hmain'
  · intro t' ht' hlt
    rcases eq_or_ne t' t with rfl | hne
    · refine ⟨(h.created t' ht' hlt).1, ?_⟩
      simpa only [State.goto, Function.update_self] using hok
    · have hold := h.created t' ht' hlt
      simpa only [State.goto, Function.update_of_ne hne, hothers t' hne] using hold
  · intro t' hnot
    have hne : t' ≠ t := by
      rintro rfl
      exact hnot hcreated
    simpa only [State.goto, Function.update_of_ne hne] using h.absent t' hnot

theorem Inv.of_thread (h : Inv p s) (hpresent : s.threads t ≠ .absent) :
    (0 ≤ t ∧ t < s.main.created p) ∧ t < p.nthreads ∧
      ThreadOk p t (s.myid t) (s.psum t) (s.threads t) := by
  by_cases hcreated : 0 ≤ t ∧ t < s.main.created p
  · exact ⟨hcreated, hcreated.2.trans_le h.created_le, (h.created t hcreated.1 hcreated.2).2⟩
  · exact absurd (h.absent t hcreated) hpresent

/-- What a thread does under the invariant: it adds up its part, within what a `long` holds. -/
inductive ThreadSteps (p : Params) (s : State) (t : ℤ) : State → Prop
  | extractid (hloc : s.threads t = .extractid t) :
      ThreadSteps p s t (s.goto t (.loop t (p.first (t + 1)) (p.first t) 0))
  | goes {i : ℤ} (hlt : i < p.first (t + 1))
      (hloc : s.threads t = .loop t (p.first (t + 1)) i (sumBelow i - sumBelow (p.first t)))
      (hfirst : p.first t ≤ i) :
      ThreadSteps p s t
        (s.goto t (.loop t (p.first (t + 1)) (i + 1) (sumBelow (i + 1) - sumBelow (p.first t))))
  | finishes (hloc : s.threads t =
        .loop t (p.first (t + 1)) (p.first (t + 1)) (partSum p t)) :
      ThreadSteps p s t
        { s.goto t .finished with psum := Function.update s.psum t (partSum p t) }

theorem Fits.first_le_succ (h : Fits p) (t : ℤ) : p.first t ≤ p.first (t + 1) := by
  have hpart := h.part_pos
  rw [p.first_succ]
  omega

theorem Inv.threadSteps (hfits : Fits p) (h : Inv p s) (hstep : threadStep p s t = some s') :
    ThreadSteps p s t s' := by
  unfold Psum.threadStep at hstep
  cases hloc : s.threads t with
  | absent =>
      simp only [hloc] at hstep
      cases hstep
  | extractid vargp =>
      obtain ⟨hcreated, hlt, hok⟩ := h.of_thread (by rw [hloc]; nofun)
      simp only [hloc] at hstep hok
      obtain ⟨rfl, hmyid⟩ := hok
      obtain ⟨hlow, hhigh⟩ := hfits.first_bounds hcreated.1 hlt.le
      obtain ⟨hlow', hhigh'⟩ := hfits.first_bounds (t := vargp + 1) (by omega) (by omega)
      have hfirst : long (vargp * p.nelems_per_thread) = p.first vargp :=
        long_eq (by unfold Params.first at hlow; omega) (by unfold Params.first at hhigh; omega)
      have hfinish : long (p.first vargp + p.nelems_per_thread) = p.first (vargp + 1) := by
        rw [← p.first_succ]
        exact long_eq (by omega) (by omega)
      rw [access_eq hcreated.1 hlt hfits, hmyid, hfirst, hfinish] at hstep
      obtain rfl := Option.some.inj hstep
      exact .extractid hloc
  | loop myid finish i sum =>
      obtain ⟨hcreated, hlt, hok⟩ := h.of_thread (by rw [hloc]; nofun)
      simp only [hloc] at hstep hok
      obtain ⟨rfl, rfl, hfirst, hle, rfl⟩ := hok
      obtain ⟨hlow, -⟩ := hfits.first_bounds hcreated.1 hlt.le
      obtain ⟨-, hhigh⟩ := hfits.first_bounds (t := myid + 1) (by omega) (by omega)
      split at hstep
      case isTrue hgoes =>
        obtain ⟨hsum, -⟩ := sumBelow_bounds hlow (by omega)
        obtain ⟨-, hnext⟩ := sumBelow_bounds (k := i + 1) (by omega) (by omega)
        have hmono : sumBelow (p.first myid) ≤ sumBelow i := sumBelow_mono hlow hfirst
        have hadd : sumBelow i - sumBelow (p.first myid) + i =
            sumBelow (i + 1) - sumBelow (p.first myid) := by
          rw [sumBelow_succ]
          ring
        have hrange : 0 ≤ sumBelow (i + 1) - sumBelow (p.first myid) := by
          rw [sumBelow_succ]
          omega
        rw [long_eq (x := i + 1) (by omega) (by omega), hadd,
          long_eq (by omega) (by omega)] at hstep
        obtain rfl := Option.some.inj hstep
        exact .goes hgoes hloc hfirst
      case isFalse hends =>
        rw [access_eq hcreated.1 hlt hfits] at hstep
        obtain rfl := Option.some.inj hstep
        obtain rfl : i = p.first (myid + 1) := hle.antisymm (not_lt.mp hends)
        exact .finishes hloc
  | finished =>
      simp only [hloc] at hstep
      cases hstep

theorem Inv.threadStep (hfits : Fits p) (h : Inv p s) (hstep : threadStep p s t = some s') :
    Inv p s' := by
  have hle := hfits.first_le_succ t
  cases h.threadSteps hfits hstep with
  | extractid hloc =>
      obtain ⟨hcreated, -⟩ := h.of_thread (by rw [hloc]; nofun)
      exact h.thread hcreated (by rw [hloc]; nofun)
        ⟨rfl, rfl, le_rfl, hle, (sub_self _).symm⟩ fun _ _ => rfl
  | goes hlt hloc hfirst =>
      obtain ⟨hcreated, -⟩ := h.of_thread (by rw [hloc]; nofun)
      exact h.thread hcreated (by rw [hloc]; nofun)
        ⟨rfl, rfl, by omega, by omega, rfl⟩ fun _ _ => rfl
  | finishes hloc =>
      obtain ⟨hcreated, -⟩ := h.of_thread (by rw [hloc]; nofun)
      refine h.thread hcreated (by rw [hloc]; nofun) ?_ fun t' hne => Function.update_of_ne hne ..
      exact Function.update_self ..

theorem Inv.step (hfits : Fits p) (h : Inv p s) (hstep : step p s a = some s') : Inv p s' := by
  unfold Psum.step at hstep
  rw [h.fault, if_neg Bool.false_ne_true] at hstep
  cases a with
  | main => exact h.mainStep hfits hstep
  | thread t => exact h.threadStep hfits hstep

theorem reach_inv (hfits : Fits p) (h : Reach (step p) anyStep start s) : Inv p s :=
  h.invariant (inv_start hfits) fun _ _ _ hs _ hstep => hs.step hfits hstep

/-! ## The steps that are left -/

/-- A bound on the steps the main thread has left. -/
def MainLoc.left (p : Params) : MainLoc → ℕ
  | .setMyid i => (2 * (p.nthreads - i) + 2 * p.nthreads + 3).toNat
  | .create i => (2 * (p.nthreads - i) + 2 * p.nthreads + 2).toNat
  | .join i => (p.nthreads - i + p.nthreads + 2).toNat
  | .add i _ => (p.nthreads - i + 1).toNat
  | .done _ => 0

def ThreadLoc.left (p : Params) : ThreadLoc → ℕ
  | .absent => (p.nelems_per_thread + 3).toNat
  | .extractid _ => (p.nelems_per_thread + 2).toNat
  | .loop _ finish i _ => (finish - i + 1).toNat
  | .finished => 0

def State.left (p : Params) (s : State) : ℕ :=
  s.main.left p + ∑ t ∈ Finset.range p.nthreads.toNat, (s.threads t).left p

theorem sum_left_goto_lt (loc : ThreadLoc) (h0 : 0 ≤ t) (hlt : t < p.nthreads)
    (hless : loc.left p < (s.threads t).left p) :
    ∑ t' ∈ Finset.range p.nthreads.toNat, ((s.goto t loc).threads t').left p <
      ∑ t' ∈ Finset.range p.nthreads.toNat, (s.threads t').left p := by
  lift t to ℕ using h0
  have hself : (s.goto t loc).threads t = loc := Function.update_self ..
  refine Finset.sum_lt_sum (fun t' _ => ?_) ⟨t, Finset.mem_range.mpr (by omega), ?_⟩
  · rcases eq_or_ne t' t with rfl | hne
    · rw [hself]
      exact hless.le
    · exact (congrArg _ (Function.update_of_ne (Nat.cast_injective.ne hne) ..)).le
  · rw [hself]
    exact hless

theorem Inv.mainStep_left (hfits : Fits p) (h : Inv p s) (hstep : Psum.mainStep p s = some s') :
    s'.left p < s.left p := by
  have hpos := hfits.pos
  cases h.mainSteps hfits hstep with
  | setMyid hloc h0 hlt | join hloc h0 hlt | add hloc h0 hlt =>
      refine Nat.add_lt_add_right ?_ _
      simp only [hloc, MainLoc.left]
      omega
  | created hloc | joined hloc | done hloc =>
      refine Nat.add_lt_add_right ?_ _
      simp only [hloc, MainLoc.left]
      omega
  | @create i hloc h0 hlt hmyid =>
      have hmain : (MainLoc.setMyid (i + 1)).left p < s.main.left p + 1 := by
        simp only [hloc, MainLoc.left]
        omega
      have habsent : s.threads i = .absent := h.absent i fun hin => by
        rw [hloc] at hin
        exact lt_irrefl i hin.2
      have hsum := sum_left_goto_lt (s := s) (.extractid i) h0 hlt <| by
        have hpart := hfits.part_pos
        simp only [habsent, ThreadLoc.left]
        omega
      exact Nat.add_lt_add_of_le_of_lt (Nat.lt_succ_iff.mp hmain) hsum

theorem Inv.threadStep_left (hfits : Fits p) (h : Inv p s)
    (hstep : Psum.threadStep p s t = some s') : s'.left p < s.left p := by
  have hless : ∀ {loc}, s.threads t ≠ .absent → loc.left p < (s.threads t).left p →
      (s.goto t loc).left p < s.left p := fun hpresent hless => by
    obtain ⟨⟨h0, -⟩, hlt, -⟩ := h.of_thread hpresent
    exact Nat.add_lt_add_left (sum_left_goto_lt _ h0 hlt hless) _
  have hsucc := p.first_succ t
  have hpart := hfits.part_pos
  cases h.threadSteps hfits hstep with
  | extractid hloc =>
      refine hless (by rw [hloc]; nofun) ?_
      simp only [hloc, ThreadLoc.left]
      omega
  | goes hlt hloc =>
      refine hless (by rw [hloc]; nofun) ?_
      simp only [hloc, ThreadLoc.left]
      omega
  | finishes hloc =>
      have hlast : ThreadLoc.finished.left p < (s.threads t).left p := by
        simp only [hloc, ThreadLoc.left]
        omega
      exact hless (by rw [hloc]; nofun) hlast

theorem Inv.step_left (hfits : Fits p) (h : Inv p s) (hstep : Psum.step p s a = some s') :
    s'.left p < s.left p := by
  unfold Psum.step at hstep
  rw [h.fault, if_neg Bool.false_ne_true] at hstep
  cases a with
  | main => exact h.mainStep_left hfits hstep
  | thread t => exact h.threadStep_left hfits hstep

theorem Inv.run_length (hfits : Fits p) {actors : List Actor} (h : Inv p s)
    (hrun : run (Psum.step p) s actors = some s') : actors.length ≤ s.left p := by
  induction actors generalizing s with
  | nil => exact Nat.zero_le _
  | cons a actors ih =>
      obtain ⟨s₁, hstep, hrest⟩ := Option.bind_eq_some_iff.mp hrun
      exact (ih (h.step hfits hstep) hrest).trans_lt (h.step_left hfits hstep)

/-! ## No deadlock -/

theorem access_ne_none {next : Option State} (h : next ≠ none) : access s i next ≠ none := by
  unfold access
  split
  · exact h
  · exact nofun

/-- A thread that has been created and is not finished goes on. -/
theorem threadStep_ne_none (hpresent : s.threads t ≠ .absent)
    (hunfinished : s.threads t ≠ .finished) : threadStep p s t ≠ none := by
  unfold threadStep
  cases hloc : s.threads t with
  | absent => exact absurd hloc hpresent
  | extractid => exact access_ne_none nofun
  | loop myid finish i sum =>
      show (if i < finish then _ else _) ≠ none
      split
      · exact nofun
      · exact access_ne_none nofun
  | finished => exact absurd hloc hunfinished

/-- Where nothing can go on any more, the main thread has its result. -/
theorem Inv.done_of_stuck (hfits : Fits p) (h : Inv p s)
    (hstuck : ∀ a, Psum.step p s a = none) : ∃ result, s.main = .done result := by
  have hmain : Psum.mainStep p s = none := by
    have hstep := hstuck .main
    unfold Psum.step at hstep
    rwa [h.fault, if_neg Bool.false_ne_true] at hstep
  have hthread (t : ℤ) : Psum.threadStep p s t = none := by
    have hstep := hstuck (.thread t)
    unfold Psum.step at hstep
    rwa [h.fault, if_neg Bool.false_ne_true] at hstep
  have hok := h.main
  unfold Psum.mainStep at hmain
  cases hloc : s.main with
  | setMyid i =>
      simp only [hloc] at hmain
      split at hmain
      · exact absurd hmain (access_ne_none nofun)
      · cases hmain
  | create i =>
      simp only [hloc] at hmain
      exact absurd hmain (access_ne_none nofun)
  | join i =>
      simp only [hloc] at hmain hok
      split at hmain
      case isFalse => cases hmain
      case isTrue hlt =>
        have hcreated : s.main.created p = p.nthreads := by rw [hloc]; rfl
        obtain ⟨htid, hthreadOk⟩ := h.created i hok.1 (hcreated.symm ▸ hlt)
        have hunfinished : s.threads i ≠ .finished := fun hfinished => by
          rw [access_eq hok.1 hlt hfits, htid, if_pos hfinished] at hmain
          cases hmain
        have hpresent : s.threads i ≠ .absent := fun habsent => by
          rw [habsent] at hthreadOk
          exact hthreadOk
        exact absurd (hthread i) (threadStep_ne_none hpresent hunfinished)
  | add i result =>
      simp only [hloc] at hmain
      split at hmain
      · exact absurd hmain (access_ne_none nofun)
      · cases hmain
  | done result => exact ⟨result, rfl⟩

/-! ## The counts that work -/

/-- Every interleaving keeps to the arrays and ends, and then with the sum of the numbers
below `nelems`. -/
structure Correct (p : Params) : Prop where
  inBounds : ∀ s, Reach (step p) anyStep start s → s.fault = false
  result : ∀ s result, Reach (step p) anyStep start s → s.main = .done result →
    result = p.nelems * (p.nelems - 1) / 2
  ends : ∃ bound, ∀ actors s, run (step p) start actors = some s → actors.length ≤ bound
  done : ∀ s, Reach (step p) anyStep start s → (∀ a, step p s a = none) →
    ∃ result, s.main = .done result

theorem Fits.correct (hfits : Fits p) : Correct p where
  inBounds := fun _ hreach => (reach_inv hfits hreach).fault
  result := fun s result hreach hdone => by
    have hmain := (reach_inv hfits hreach).main
    rw [hdone] at hmain
    exact hmain
  ends := ⟨start.left p, fun _ _ hrun => (inv_start hfits).run_length hfits hrun⟩
  done := fun _ hreach hstuck => (reach_inv hfits hreach).done_of_stuck hfits hstuck

theorem checkInput_eq_some {nthreads log_nelems : ℤ} (h : checkInput nthreads log_nelems = some p) :
    0 ≤ log_nelems ∧ log_nelems ≤ 31 ∧ nthreads ≠ 0 ∧
      p = ⟨nthreads, 2 ^ log_nelems.toNat, (2 ^ log_nelems.toNat : ℤ).tdiv nthreads⟩ ∧
      (2 ^ log_nelems.toNat : ℤ).tmod nthreads = 0 := by
  unfold checkInput at h
  obtain ⟨nelems, hshift, hrest⟩ := Option.bind_eq_some_iff.mp h
  unfold shiftLeft at hshift
  split at hshift
  case isFalse => cases hshift
  case isTrue hlog =>
    obtain rfl := Option.some.inj hshift
    split at hrest
    case isTrue => cases hrest
    case isFalse hne =>
      split at hrest
      case isTrue => cases hrest
      case isFalse hcheck =>
        obtain rfl := Option.some.inj hrest
        rw [not_or, not_not, not_lt] at hcheck
        exact ⟨hlog.1, hcheck.2, hne, rfl, hcheck.1⟩

theorem fits_of_checkInput {nthreads log_nelems : ℤ} (h : checkInput nthreads log_nelems = some p)
    (hpos : 0 < nthreads) (hle : nthreads ≤ MAXTHREADS) : Fits p := by
  obtain ⟨h0, h31, -, rfl, hmod⟩ := checkInput_eq_some h
  have hnelems : (2 ^ log_nelems.toNat : ℤ) =
      nthreads * (2 ^ log_nelems.toNat : ℤ).tdiv nthreads :=
    (Int.mul_tdiv_cancel' (Int.dvd_of_tmod_eq_zero hmod)).symm
  refine ⟨hpos, hle, hnelems, ?_, ?_⟩
  · exact pow_le_pow_right₀ one_le_two (by omega)
  · have hpow : (0 : ℤ) < 2 ^ log_nelems.toNat := by positivity
    rw [hnelems] at hpow
    exact pos_of_mul_pos_right hpow hpos.le

/-- Nothing bounds the count by the size of the arrays: the main thread goes on creating. -/
theorem reach_setMyid (hmany : MAXTHREADS < p.nthreads) (k : ℕ) (hk : k ≤ 32) :
    ∃ s, Reach (step p) anyStep start s ∧ s.fault = false ∧ s.main = .setMyid k := by
  unfold MAXTHREADS at hmany
  induction k with
  | zero => exact ⟨start, .refl, rfl, rfl⟩
  | succ k ih =>
      obtain ⟨s, hreach, hfault, hloc⟩ := ih (by omega)
      have hbounds : 0 ≤ (k : ℤ) ∧ (k : ℤ) < MAXTHREADS := by
        unfold MAXTHREADS
        omega
      have hlong : long (k + 1) = ((k + 1 : ℕ) : ℤ) := by
        push_cast
        exact long_eq (by omega) (by omega)
      let set : State := { s with myid := Function.update s.myid k (int32 k), main := .create k }
      have hset : step p s .main = some set := by
        simp only [step, hfault, mainStep, hloc, access]
        rw [if_neg Bool.false_ne_true, if_pos (by omega), if_pos hbounds]
        simp only [set, hfault]
      have hcreate : step p set .main = some { set.goto k (.extractid k) with
          tid := Function.update set.tid k k
          main := .setMyid ((k + 1 : ℕ) : ℤ) } := by
        simp only [step, set, hfault, mainStep, access]
        rw [if_neg Bool.false_ne_true, if_pos hbounds, hlong]
      exact ⟨_, (hreach.tail .main trivial hset).tail .main trivial hcreate, hfault, rfl⟩

theorem not_correct_of_many (hmany : MAXTHREADS < p.nthreads) : ¬ Correct p := by
  intro hcorrect
  obtain ⟨s, hreach, hfault, hloc⟩ := reach_setMyid hmany 32 le_rfl
  have hlt : ((32 : ℕ) : ℤ) < p.nthreads := hmany
  have hstep : step p s .main = some { s with fault := true } := by
    simp only [step, hfault, mainStep, hloc, access]
    rw [if_neg Bool.false_ne_true, if_pos hlt, if_neg (by decide)]
  exact Bool.noConfusion (hcorrect.inBounds _ (hreach.tail .main trivial hstep))

/-- With a negative count no thread is created and nothing is added up. -/
structure Idle (s : State) : Prop where
  fault : s.fault = false
  absent : ∀ t, s.threads t = .absent
  main : s.main = .setMyid 0 ∨ s.main = .join 0 ∨ s.main = .add 0 0 ∨ s.main = .done 0

def MainLoc.idleLeft : MainLoc → ℕ
  | .setMyid _ => 3
  | .create _ | .join _ => 2
  | .add _ _ => 1
  | .done _ => 0

theorem idle_start : Idle start := ⟨rfl, fun _ => rfl, .inl rfl⟩

theorem Idle.step (hneg : p.nthreads < 0) (h : Idle s) (hstep : step p s a = some s') :
    Idle s' ∧ s'.main.idleLeft < s.main.idleLeft := by
  unfold Psum.step at hstep
  rw [h.fault, if_neg Bool.false_ne_true] at hstep
  cases a with
  | thread t =>
      simp only [threadStep, h.absent t] at hstep
      cases hstep
  | main =>
      unfold mainStep at hstep
      rcases h.main with hloc | hloc | hloc | hloc <;> simp only [hloc, hneg.not_gt] at hstep
      · obtain rfl := Option.some.inj hstep
        exact ⟨⟨h.fault, h.absent, .inr (.inl rfl)⟩, by rw [hloc]; exact Nat.lt_succ_self _⟩
      · obtain rfl := Option.some.inj hstep
        exact ⟨⟨h.fault, h.absent, .inr (.inr (.inl rfl))⟩, by rw [hloc]; exact Nat.lt_succ_self _⟩
      · obtain rfl := Option.some.inj hstep
        exact ⟨⟨h.fault, h.absent, .inr (.inr (.inr rfl))⟩, by rw [hloc]; exact Nat.lt_succ_self _⟩
      · cases hstep

theorem Idle.reach (hneg : p.nthreads < 0) (h : Reach (Psum.step p) anyStep start s) : Idle s :=
  h.invariant idle_start fun _ _ _ hs _ hstep => (hs.step hneg hstep).1

theorem Idle.done_of_stuck (hneg : p.nthreads < 0) (h : Idle s)
    (hstuck : ∀ a, Psum.step p s a = none) : s.main = .done 0 := by
  have hmain := hstuck .main
  unfold Psum.step mainStep at hmain
  rw [h.fault, if_neg Bool.false_ne_true] at hmain
  rcases h.main with hloc | hloc | hloc | hloc
  · simp [hloc, hneg.not_gt] at hmain
  · simp [hloc, hneg.not_gt] at hmain
  · simp [hloc, hneg.not_gt] at hmain
  · exact hloc

theorem Idle.run_length (hneg : p.nthreads < 0) {actors : List Actor} (h : Idle s)
    (hrun : run (Psum.step p) s actors = some s') : actors.length ≤ s.main.idleLeft := by
  induction actors generalizing s with
  | nil => exact Nat.zero_le _
  | cons a actors ih =>
      obtain ⟨s₁, hstep, hrest⟩ := Option.bind_eq_some_iff.mp hrun
      obtain ⟨hnext, hless⟩ := h.step hneg hstep
      exact (ih hnext hrest).trans_lt hless

/-- Only the sum of no numbers is the one that is found without a thread. -/
theorem correct_iff_of_neg (hneg : p.nthreads < 0) :
    Correct p ↔ p.nelems * (p.nelems - 1) / 2 = 0 := by
  constructor
  · intro hcorrect
    have hrun : run (step p) start [.main, .main, .main] =
        some { start with main := .done 0 } := by
      simp [step, mainStep, start, hneg.not_gt]
    exact (hcorrect.result _ 0 (reach_of_run_anyStep _ hrun) rfl).symm
  · intro hzero
    refine ⟨fun _ hreach => (Idle.reach hneg hreach).fault, ?_, ?_, ?_⟩
    · intro s result hreach hdone
      rw [hzero]
      rcases (Idle.reach hneg hreach).main with hloc | hloc | hloc | hloc <;>
        rw [hloc] at hdone <;> cases hdone
      rfl
    · exact ⟨_, fun _ _ hrun => idle_start.run_length hneg hrun⟩
    · exact fun _ hreach hstuck => ⟨0, (Idle.reach hneg hreach).done_of_stuck hneg hstuck⟩

/-- The input check lets a count pass that is too large for the arrays, or negative. -/
theorem psum_correct_iff {nthreads log_nelems : ℤ}
    (h : checkInput nthreads log_nelems = some p) :
    Correct p ↔ nthreads ≤ MAXTHREADS ∧ (0 < nthreads ∨ log_nelems = 0) := by
  obtain ⟨h0, h31, hne, hp, -⟩ := checkInput_eq_some h
  have hcount : p.nthreads = nthreads := by rw [hp]
  rcases lt_or_gt_of_ne hne with hneg | hpos
  · have hle : nthreads ≤ MAXTHREADS := hneg.le.trans (by decide)
    rw [correct_iff_of_neg (hcount ▸ hneg), hp]
    simp only [hle, hneg.not_gt, true_and, false_or]
    constructor
    · intro hzero
      by_contra hlog
      have htwo : (2 : ℤ) ^ 1 ≤ 2 ^ log_nelems.toNat := pow_le_pow_right₀ one_le_two (by omega)
      have hone : sumBelow 2 ≤ sumBelow (2 ^ log_nelems.toNat) :=
        sumBelow_mono zero_le_two (by simpa using htwo)
      have hsum : sumBelow (2 ^ log_nelems.toNat) = 0 := hzero
      rw [hsum] at hone
      exact absurd hone (by decide)
    · rintro rfl
      rfl
  · simp only [hpos, true_or, and_true]
    constructor
    · intro hcorrect
      by_contra hmany
      exact not_correct_of_many (hcount ▸ not_le.mp hmany) hcorrect
    · intro hle
      exact (fits_of_checkInput h hpos hle).correct

theorem psum_correct_iff_fourThreads : Correct ⟨4, 1024, 256⟩ := by
  have hcheck : checkInput 4 10 = some ⟨4, 1024, 256⟩ := by decide
  exact (psum_correct_iff hcheck).mpr (by decide)

/-- With 64 threads `myid` is written past its end. -/
theorem not_psum_correct :
    ¬ ∀ nthreads log_nelems p, checkInput nthreads log_nelems = some p → Correct p := fun h =>
  not_correct_of_many (p := ⟨64, 1024, 16⟩) (by decide) (h 64 10 _ (by decide))

end OsLabs.Concurrent.Psum
