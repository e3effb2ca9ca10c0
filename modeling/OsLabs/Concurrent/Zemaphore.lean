import Mathlib
import OsLabs.Lib.Transition
import OsLabs.Lib.Threads
import OsLabs.Lib.CNumber

/-!
# Zemaphores

The semaphore that `zemaphore.h` builds from a mutex and a condition variable,
under any number of threads. A signal wakes a sleeper, which may find that the
value has been taken; as long as anybody sleeps, every unit of the value has a
thread on its way to it. The value is an `int`, and a post past its maximum
makes it negative.
-/

namespace OsLabs.Concurrent.Zemaphore

open OsLabs.Transition OsLabs.Threads OsLabs.CNumber

inductive Call
  | wait
  | post
deriving DecidableEq, Repr

/-- What a thread does next. -/
inductive Loc
  | outside
  -- `Zem_wait`
  | waitLock
  | waitTest
  | asleep
  /-- Woken in `Cond_wait`, to lock the mutex again. -/
  | woken
  | waitDecrement
  | waitUnlock
  -- `Zem_post`
  | postLock
  | postIncrement
  | postSignal
  | postUnlock
deriving DecidableEq, Repr

/-- `value` is an `int`; `waits` and `posts` count the calls that have returned. -/
structure State (ι : Type*) where
  value : ℤ
  locked : Bool
  pc : ι → Loc
  todo : ι → List Call
  waits : ℕ
  posts : ℕ

/-- A thread steps, signals a sleeper, or wakes without a signal. -/
inductive Act (ι : Type*)
  | run (i : ι)
  | signal (i j : ι)
  | wake (i : ι)
deriving DecidableEq, Repr

variable {ι : Type*} [DecidableEq ι]

def Zem_init (value : ℤ) (programs : ι → List Call) : State ι :=
  ⟨value, false, fun _ => .outside, programs, 0, 0⟩

def State.goto (s : State ι) (i : ι) (loc : Loc) : State ι :=
  { s with pc := Function.update s.pc i loc }

/-- `Mutex_lock`, which blocks while the mutex is locked. -/
def State.lock (s : State ι) (i : ι) (loc : Loc) : Option (State ι) :=
  if s.locked then none else some ({ s with locked := true }.goto i loc)

def State.unlock (s : State ι) (i : ι) (loc : Loc) : State ι :=
  { s with locked := false }.goto i loc

variable [Fintype ι]

def step (s : State ι) : Act ι → Option (State ι)
  | .run i =>
      match s.pc i with
      | .outside =>
          match s.todo i with
          | [] => none
          | .wait :: todo =>
              some ({ s with todo := Function.update s.todo i todo }.goto i .waitLock)
          | .post :: todo =>
              some ({ s with todo := Function.update s.todo i todo }.goto i .postLock)
      | .waitLock => s.lock i .waitTest
      | .waitTest =>
          some (if s.value ≤ 0 then s.unlock i .asleep else s.goto i .waitDecrement)
      | .asleep => none
      | .woken => s.lock i .waitTest
      | .waitDecrement => some ({ s with value := int32 (s.value - 1) }.goto i .waitUnlock)
      | .waitUnlock => some ({ s with waits := s.waits + 1 }.unlock i .outside)
      | .postLock => s.lock i .postIncrement
      | .postIncrement => some ({ s with value := int32 (s.value + 1) }.goto i .postSignal)
      -- there is nobody to wake
      | .postSignal =>
          if ∀ j, s.pc j ≠ .asleep then some (s.goto i .postUnlock) else none
      | .postUnlock => some ({ s with posts := s.posts + 1 }.unlock i .outside)
  | .signal i j =>
      if s.pc i = .postSignal ∧ s.pc j = .asleep then
        some ((s.goto j .woken).goto i .postUnlock)
      else none
  | .wake i => if s.pc i = .asleep then some (s.goto i .woken) else none

/-- No `z->value++` on the largest `int`. -/
def NoOverflow (s : State ι) : Act ι → Prop
  | .run i => s.pc i = .postIncrement → s.value < INT_MAX
  | _ => True

omit [DecidableEq ι] [Fintype ι] in
instance (s : State ι) (x : Act ι) : Decidable (NoOverflow s x) := by
  cases x <;> unfold NoOverflow <;> infer_instance

/-! ## Who is where -/

@[simp] def Loc.holds : Loc → ℕ
  | .waitTest | .waitDecrement | .waitUnlock => 1
  | .postIncrement | .postSignal | .postUnlock => 1
  | _ => 0

@[simp] def Loc.sleeping : Loc → ℕ
  | .asleep => 1
  | _ => 0

/-- On the way to the value. -/
@[simp] def Loc.taking : Loc → ℕ
  | .waitTest | .woken | .waitDecrement => 1
  | _ => 0

@[simp] def Loc.decrementing : Loc → ℕ
  | .waitDecrement => 1
  | _ => 0

@[simp] def Loc.signalling : Loc → ℕ
  | .postSignal => 1
  | _ => 0

/-- The value has been taken, but the wait has not returned. -/
@[simp] def Loc.taken : Loc → ℕ
  | .waitUnlock => 1
  | _ => 0

@[simp] def Loc.posted : Loc → ℕ
  | .postSignal | .postUnlock => 1
  | _ => 0

theorem Loc.sleeping_eq_zero {b : Loc} (h : b ≠ .asleep) : b.sleeping = 0 := by
  cases b with
  | asleep => exact absurd rfl h
  | _ => rfl

theorem Loc.eq_postSignal {b : Loc} (h : 0 < b.signalling) : b = .postSignal := by
  cases b with
  | postSignal => rfl
  | _ => cases h

structure Inv (value : ℤ) (s : State ι) : Prop where
  mutex : s.locked.toNat = total s.pc Loc.holds
  nonneg : 0 ≤ s.value
  le_max : s.value ≤ INT_MAX
  decrementing : 0 < total s.pc Loc.decrementing → 0 < s.value
  posted : 0 < total s.pc Loc.posted → 0 < s.value
  count : s.value + s.waits + total s.pc Loc.taken = value + s.posts + total s.pc Loc.posted
  wakeup : 0 < total s.pc Loc.sleeping →
    s.value ≤ total s.pc Loc.taking + total s.pc Loc.signalling

variable {value : ℤ} {s s' : State ι} {i j : ι} {a : Loc} {x : Act ι}

/-- What moves when a thread goes from `a` to `b`. -/
theorem update_totals {pc : ι → Loc} (hpc : pc i = a) (b : Loc) :
    (total (Function.update pc i b) Loc.holds + a.holds = total pc Loc.holds + b.holds ∧
      total (Function.update pc i b) Loc.sleeping + a.sleeping =
        total pc Loc.sleeping + b.sleeping ∧
      total (Function.update pc i b) Loc.taking + a.taking = total pc Loc.taking + b.taking) ∧
    total (Function.update pc i b) Loc.decrementing + a.decrementing =
      total pc Loc.decrementing + b.decrementing ∧
    total (Function.update pc i b) Loc.signalling + a.signalling =
      total pc Loc.signalling + b.signalling ∧
    total (Function.update pc i b) Loc.taken + a.taken = total pc Loc.taken + b.taken ∧
    total (Function.update pc i b) Loc.posted + a.posted = total pc Loc.posted + b.posted := by
  have hmoved := fun w : Loc → ℕ => hpc ▸ total_update pc w i b
  exact ⟨⟨hmoved _, hmoved _, hmoved _⟩, hmoved _, hmoved _, hmoved _, hmoved _⟩

omit [DecidableEq ι] in
theorem Inv.holds_le (h : Inv value s) : total s.pc Loc.holds ≤ 1 := by
  rw [← h.mutex]
  exact Bool.toNat_le _

/-- The thread that holds the mutex is the only one to change the value. -/
theorem Inv.alone (h : Inv value s) (hpc : s.pc i = a) (ha : 0 < a.holds) :
    total s.pc Loc.holds = 1 ∧ total s.pc Loc.decrementing = a.decrementing ∧
      total s.pc Loc.posted = a.posted := by
  have hpos := le_total s.pc Loc.holds i
  have hle := h.holds_le
  rw [← hpc] at ha ⊢
  exact ⟨by omega, total_eq_of_alone (fun x => by cases x <;> decide) hle ha,
    total_eq_of_alone (fun x => by cases x <;> decide) hle ha⟩

omit [DecidableEq ι] in
theorem inv_init {programs : ι → List Call} (hvalue : 0 ≤ value) (hint : value ≤ INT_MAX) :
    Inv value (Zem_init value programs) := by
  have hzero (w : Loc → ℕ) (hw : w .outside = 0) : total (fun _ : ι => Loc.outside) w = 0 :=
    total_const hw
  constructor <;> simp [Zem_init, hzero Loc.holds rfl, hzero Loc.sleeping rfl,
    hzero Loc.decrementing rfl, hzero Loc.taken rfl, hzero Loc.posted rfl, hvalue, hint]

theorem Inv.lock (h : Inv value s) (b : Loc) (hstep : s.lock i b = some s') :
    s' = { s with locked := true }.goto i b ∧ total s.pc Loc.holds = 0 := by
  obtain ⟨hs', hfree⟩ := eq_of_lock hstep
  have hmutex := h.mutex
  rw [hfree] at hmutex
  exact ⟨hs', hmutex.symm⟩

/-- A step from `a` to `b` that leaves the value alone and goes on towards it. -/
theorem Inv.quiet {b : Loc} (h : Inv value s) (hpc : s.pc i = a)
    (hgoto : s'.pc = Function.update s.pc i b)
    (hmutex : s'.locked.toNat + a.holds = s.locked.toNat + b.holds) (hvalue : s'.value = s.value)
    (hwaits : s'.waits + b.taken = s.waits + a.taken)
    (hposts : s'.posts + b.posted = s.posts + a.posted)
    (hle : b.decrementing ≤ a.decrementing ∧ b.posted ≤ a.posted ∧ b.sleeping ≤ a.sleeping ∧
      a.taking + a.signalling ≤ b.taking + b.signalling) : Inv value s' := by
  obtain ⟨hdecr, hposted, hsleeping, htaking⟩ := hle
  have hmoved := update_totals hpc b
  rw [← hgoto] at hmoved
  obtain ⟨⟨hholds, hsleep, htake⟩, hdecrementing, hsignalling, htaken, hpost⟩ := hmoved
  constructor
  · have hlocked := h.mutex
    omega
  · exact hvalue ▸ h.nonneg
  · exact hvalue ▸ h.le_max
  · exact fun hpos => hvalue ▸ h.decrementing (by omega)
  · exact fun hpos => hvalue ▸ h.posted (by omega)
  · have hcount := h.count
    omega
  · intro hpos
    have hwakeup := h.wakeup (by omega)
    omega

omit [DecidableEq ι] in
theorem Inv.unlocked (h : Inv value s) (hfree : total s.pc Loc.holds = 0) :
    s.locked.toNat = 0 := h.mutex.trans hfree

theorem Inv.step (h : Inv value s) (hfits : NoOverflow s x) (hstep : step s x = some s') :
    Inv value s' := by
  obtain ⟨hmutex, hnonneg, hmax, hdecr, hposted, hcount, hwakeup⟩ := id h
  unfold Zemaphore.step at hstep
  cases x with
  | run i =>
      cases hpc : s.pc i with
      | outside =>
          simp only [hpc] at hstep
          cases htodo : s.todo i with
          | nil =>
              simp only [htodo] at hstep
              cases hstep
          | cons call todo =>
              simp only [htodo] at hstep
              cases call with
              | wait =>
                  obtain rfl := Option.some.inj hstep
                  exact h.quiet hpc rfl rfl rfl rfl rfl (by decide)
              | post =>
                  obtain rfl := Option.some.inj hstep
                  exact h.quiet hpc rfl rfl rfl rfl rfl (by decide)
      | waitLock =>
          simp only [hpc] at hstep
          obtain ⟨rfl, hfree⟩ := h.lock .waitTest hstep
          have hunlocked := h.unlocked hfree
          exact h.quiet hpc rfl (by rw [hunlocked]; rfl) rfl rfl rfl (by decide)
      | waitTest =>
          simp only [hpc] at hstep
          obtain rfl := Option.some.inj hstep
          have halone := h.alone hpc (by decide)
          split
          · have hmoved := update_totals hpc .asleep
            simp only [Loc.holds, Loc.sleeping, Loc.taking, Loc.decrementing, Loc.signalling,
              Loc.taken, Loc.posted] at hmoved halone
            constructor <;> simp only [State.unlock, State.goto, Bool.toNat_false] <;> omega
          · have hmoved := update_totals hpc .waitDecrement
            simp only [Loc.holds, Loc.sleeping, Loc.taking, Loc.decrementing, Loc.signalling,
              Loc.taken, Loc.posted] at hmoved halone
            constructor <;> simp only [State.goto] <;> omega
      | asleep =>
          simp only [hpc] at hstep
          cases hstep
      | woken =>
          simp only [hpc] at hstep
          obtain ⟨rfl, hfree⟩ := h.lock .waitTest hstep
          have hunlocked := h.unlocked hfree
          exact h.quiet hpc rfl (by rw [hunlocked]; rfl) rfl rfl rfl (by decide)
      | waitDecrement =>
          simp only [hpc] at hstep
          obtain rfl := Option.some.inj hstep
          have halone := h.alone hpc (by decide)
          have hmoved := update_totals hpc .waitUnlock
          have hwrap : int32 (s.value - 1) = s.value - 1 := by
            have hpositive := hdecr (by rw [halone.2.1]; exact Nat.one_pos)
            exact int32_eq (by omega) (by omega)
          simp only [Loc.holds, Loc.sleeping, Loc.taking, Loc.decrementing, Loc.signalling,
            Loc.taken, Loc.posted] at hmoved halone
          constructor <;> simp only [State.goto, hwrap] <;> omega
      | waitUnlock =>
          simp only [hpc] at hstep
          obtain rfl := Option.some.inj hstep
          have hlocked := hmutex.trans (h.alone hpc (by decide)).1
          exact h.quiet hpc rfl (by rw [hlocked]; rfl) rfl rfl rfl (by decide)
      | postLock =>
          simp only [hpc] at hstep
          obtain ⟨rfl, hfree⟩ := h.lock .postIncrement hstep
          have hunlocked := h.unlocked hfree
          exact h.quiet hpc rfl (by rw [hunlocked]; rfl) rfl rfl rfl (by decide)
      | postIncrement =>
          simp only [hpc] at hstep
          obtain rfl := Option.some.inj hstep
          have halone := h.alone hpc (by decide)
          have hmoved := update_totals hpc .postSignal
          have hroom : s.value < INT_MAX := hfits hpc
          have hwrap : int32 (s.value + 1) = s.value + 1 := int32_eq (by omega) (by omega)
          simp only [Loc.holds, Loc.sleeping, Loc.taking, Loc.decrementing, Loc.signalling,
            Loc.taken, Loc.posted] at hmoved halone
          constructor <;> simp only [State.goto, hwrap] <;> omega
      | postSignal =>
          simp only [hpc] at hstep
          split at hstep
          · next hnobody =>
              obtain rfl := Option.some.inj hstep
              have hsleeping : total s.pc Loc.sleeping = 0 := total_eq_zero_iff.mpr fun j =>
                Loc.sleeping_eq_zero (hnobody j)
              have halone := h.alone hpc (by decide)
              have hmoved := update_totals hpc .postUnlock
              simp only [Loc.holds, Loc.sleeping, Loc.taking, Loc.decrementing, Loc.signalling,
                Loc.taken, Loc.posted] at hmoved halone
              constructor <;> simp only [State.goto] <;> omega
          · cases hstep
      | postUnlock =>
          simp only [hpc] at hstep
          obtain rfl := Option.some.inj hstep
          have hlocked := hmutex.trans (h.alone hpc (by decide)).1
          exact h.quiet hpc rfl (by rw [hlocked]; rfl) rfl rfl rfl (by decide)
  | signal i j =>
      dsimp only at hstep
      split at hstep
      · next hpcs =>
          obtain ⟨hpc, hj⟩ := hpcs
          obtain rfl := Option.some.inj hstep
          have halone := h.alone hpc (by decide)
          have hwoken := update_totals hj .woken
          have hij : i ≠ j := by
            rintro rfl
            rw [hpc] at hj
            cases hj
          have hpc' : Function.update s.pc j .woken i = .postSignal := by
            rw [Function.update_of_ne hij, hpc]
          have hmoved := update_totals hpc' .postUnlock
          simp only [Loc.holds, Loc.sleeping, Loc.taking, Loc.decrementing, Loc.signalling,
            Loc.taken, Loc.posted] at hmoved hwoken halone
          constructor <;> simp only [State.goto] <;> omega
      · cases hstep
  | wake i =>
      dsimp only at hstep
      split at hstep
      · next hpc =>
          obtain rfl := Option.some.inj hstep
          exact h.quiet hpc rfl rfl rfl rfl rfl (by decide)
      · cases hstep

/-! ## The semaphore -/

def Loc.inWait : Loc → Bool
  | .waitLock | .waitTest | .asleep | .woken | .waitDecrement | .waitUnlock => true
  | _ => false

theorem Loc.taking_eq_zero {b : Loc} (h : b.inWait = true → b = .asleep) : b.taking = 0 := by
  cases b with
  | waitTest => cases h rfl
  | woken => cases h rfl
  | waitDecrement => cases h rfl
  | _ => rfl

/-- If all waiters sleep on a positive value, some thread is about to signal one. -/
theorem Inv.awake (h : Inv value s) (hvalue : 0 < s.value) (hsleeps : ∃ i, s.pc i = .asleep)
    (hall : ∀ i, (s.pc i).inWait = true → s.pc i = .asleep) :
    ∃ i, (s.pc i).inWait = false ∧ ∃ j s', Zemaphore.step s (.signal i j) = some s' := by
  obtain ⟨j, hj⟩ := hsleeps
  have hsleeping : 0 < total s.pc Loc.sleeping := by
    have := le_total s.pc Loc.sleeping j
    rw [hj] at this
    exact this
  have htaking : total s.pc Loc.taking = 0 := total_eq_zero_iff.mpr fun i =>
    Loc.taking_eq_zero (hall i)
  have hwakeup := h.wakeup hsleeping
  have hsignalling : 0 < total s.pc Loc.signalling := by omega
  obtain ⟨i, hi⟩ := exists_of_total_pos hsignalling
  have hpc := Loc.eq_postSignal hi
  refine ⟨i, by rw [hpc]; rfl, j, (s.goto j .woken).goto i .postUnlock, ?_⟩
  rw [Zemaphore.step, if_pos ⟨hpc, hj⟩]

/-- The post that overflows leaves a negative value behind: it signals if there is
anybody to wake, and unlocks the mutex. -/
theorem overflow_negative (hpc : s.pc i = .postIncrement) (hvalue : s.value = INT_MAX) :
    ∃ s', Reach step anyStep s s' ∧ s'.locked = false ∧ s'.value < 0 := by
  have hincrement : step s (.run i) =
      some ({ s with value := int32 (s.value + 1) }.goto i .postSignal) := by
    simp only [Zemaphore.step, hpc]
  have hnegative : int32 (s.value + 1) < 0 := by
    rw [hvalue]
    decide
  have hunlock {t : State ι} (hneg : t.value < 0) (hat : t.pc i = .postUnlock) :
      ∃ s', Reach step anyStep t s' ∧ s'.locked = false ∧ s'.value < 0 := by
    refine ⟨{ t with posts := t.posts + 1 }.unlock i .outside, ?_, rfl, hneg⟩
    refine Reach.refl.tail (.run i) trivial ?_
    simp only [Zemaphore.step, hat]
  have hsignal : ∃ t, Reach step anyStep s t ∧ t.value < 0 ∧ t.pc i = .postUnlock := by
    have hat : Function.update s.pc i .postSignal i = .postSignal := Function.update_self ..
    have hfirst : Reach step anyStep s
        ({ s with value := int32 (s.value + 1) }.goto i .postSignal) :=
      Reach.refl.tail (.run i) trivial hincrement
    by_cases hsleeps : ∃ j, Function.update s.pc i .postSignal j = .asleep
    · obtain ⟨j, hj⟩ := hsleeps
      refine ⟨_, hfirst.tail (.signal i j) trivial (if_pos ⟨hat, hj⟩), hnegative, ?_⟩
      exact Function.update_self ..
    · refine ⟨({ s with value := int32 (s.value + 1) }.goto i .postSignal).goto i .postUnlock,
        hfirst.tail (.run i) trivial ?_, hnegative, Function.update_self ..⟩
      have hnobody (j : ι) : Function.update s.pc i .postSignal j ≠ .asleep := fun hj =>
        hsleeps ⟨j, hj⟩
      simp only [Zemaphore.step, State.goto, hat]
      exact if_pos hnobody
  obtain ⟨t, ht, hneg, hat⟩ := hsignal
  obtain ⟨s', hs', hfree, hvalue'⟩ := hunlock hneg hat
  exact ⟨s', ht.trans hs', hfree, hvalue'⟩

/-- As long as no post overflows the value is that of a counting semaphore, and no
wakeup is lost. A post that overflows makes the value negative. -/
theorem zemaphore_refines {programs : ι → List Call} (hvalue : 0 ≤ value) (hint : value ≤ INT_MAX)
    (h : Reach step NoOverflow (Zem_init value programs) s) :
    (s.locked = false → 0 ≤ s.value ∧ s.value = value + s.posts - s.waits) ∧
      (s.waits : ℤ) ≤ value + s.posts ∧
      (0 < s.value → (∃ i, s.pc i = .asleep) →
        (∀ i, (s.pc i).inWait = true → s.pc i = .asleep) →
        ∃ i, (s.pc i).inWait = false ∧ ∃ j s', step s (.signal i j) = some s') ∧
      ∀ i, ¬ NoOverflow s (.run i) →
        ∃ s', Reach step anyStep s s' ∧ s'.locked = false ∧ s'.value < 0 := by
  have hinv : Inv value s := h.invariant (inv_init hvalue hint) fun _ _ _ hs hfits => hs.step hfits
  have hposted : total s.pc Loc.posted ≤ total s.pc Loc.holds :=
    total_le_total fun x => by cases x <;> decide
  have htaken : total s.pc Loc.taken ≤ total s.pc Loc.holds :=
    total_le_total fun x => by cases x <;> decide
  have hle := hinv.holds_le
  obtain ⟨hmutex, hnonneg, hmax, -, hpositive, hcount, -⟩ := id hinv
  refine ⟨fun hfree => ?_, ?_, hinv.awake, fun i hover => ?_⟩
  · rw [hfree, Bool.toNat_false] at hmutex
    exact ⟨hnonneg, by omega⟩
  · omega
  · obtain ⟨hpc, hfull⟩ := Classical.not_imp.mp hover
    exact overflow_negative hpc (by omega)

def waiterAndPoster : Fin 2 → List Call
  | 0 => [.wait]
  | 1 => [.post]

/-- The waiter falls asleep, and the other thread has posted but not signalled yet. -/
def postBeforeSignal : List (Act (Fin 2)) :=
  [false, false, false, true, true, true].map fun thread => .run (finTwoEquiv.symm thread)

theorem zemaphore_refines_postBeforeSignal :
    ∃ s, run step (Zem_init 0 waiterAndPoster) postBeforeSignal = some s ∧ s.value = 1 ∧
      s.pc 0 = .asleep ∧ ∃ i, (s.pc i).inWait = false ∧ ∃ j s', step s (.signal i j) = some s' := by
  have hrun : ((run step (Zem_init 0 waiterAndPoster) postBeforeSignal).map fun s =>
      (s.value, s.pc 0, s.pc 1)) = some (1, .asleep, .postSignal) := by decide +kernel
  obtain ⟨s, hs, hstate⟩ := Option.map_eq_some_iff.mp hrun
  simp only [Prod.mk.injEq] at hstate
  obtain ⟨hvalue, hwaiter, hposter⟩ := hstate
  have hfits : RunMeets step NoOverflow (Zem_init 0 waiterAndPoster) postBeforeSignal :=
    runMeets_of_check (by decide +kernel)
  have hreach := reach_of_run postBeforeSignal hfits hs
  refine ⟨s, hs, hvalue, hwaiter,
    (zemaphore_refines le_rfl (by decide) hreach).2.2.1 (by omega) ⟨0, hwaiter⟩ fun i hi => ?_⟩
  fin_cases i
  · exact hwaiter
  · simp [hposter, Loc.inWait] at hi

/-- One post on the largest `int`. -/
theorem post_overflows : ∃ s, Reach step anyStep (Zem_init INT_MAX fun _ : Unit => [.post]) s ∧
    s.locked = false ∧ s.posts = 1 ∧ s.value = -2147483648 := by
  have hrun : ((run step (Zem_init INT_MAX fun _ : Unit => [.post])
      (List.replicate 5 (Act.run ()))).map fun s => (s.locked, s.posts, s.value)) =
        some (false, 1, -2147483648) := by decide +kernel
  obtain ⟨s, hs, hstate⟩ := Option.map_eq_some_iff.mp hrun
  simp only [Prod.mk.injEq] at hstate
  exact ⟨s, reach_of_run_anyStep _ hs, hstate⟩

end OsLabs.Concurrent.Zemaphore
