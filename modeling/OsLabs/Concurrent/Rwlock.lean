import Mathlib
import OsLabs.Lib.Transition
import OsLabs.Lib.Threads

/-!
# Readers and writers

The locks of `rwlock.c` under any number of threads, each of which acquires and
releases the read lock or the write lock any number of times. The writers and
the readers as a group share the semaphore `writelock`.
-/

namespace OsLabs.Concurrent.Rwlock

open OsLabs.Transition OsLabs.Threads

/-- An acquire with the release that follows it. -/
inductive Pair
  | read
  | write
deriving DecidableEq, Repr

/-- What a thread does next. -/
inductive Loc
  | outside
  -- `rwlock_acquire_readlock`
  | acquireWaitLock
  | acquireIncrement
  | acquireTest
  | acquireWaitWritelock
  | acquirePostLock
  | reading
  -- `rwlock_release_readlock`
  | releaseWaitLock
  | releaseDecrement
  | releaseTest
  | releasePostWritelock
  | releasePostLock
  -- `rwlock_acquire_writelock`
  | waitWritelock
  | writing
  -- `rwlock_release_writelock`
  | postWritelock
deriving DecidableEq, Repr

/-- `todo` are the pairs each thread has still to begin. -/
structure State (ι : Type*) where
  writelock : ℕ
  lock : ℕ
  readers : ℤ
  pc : ι → Loc
  todo : ι → List Pair

variable {ι : Type*} [DecidableEq ι]

def rwlock_init (programs : ι → List Pair) : State ι := ⟨1, 1, 0, fun _ => .outside, programs⟩

def State.goto (s : State ι) (i : ι) (loc : Loc) : State ι :=
  { s with pc := Function.update s.pc i loc }

/-- The thread `i` steps, or is blocked or finished. -/
def step (s : State ι) (i : ι) : Option (State ι) :=
  match s.pc i with
  | .outside =>
      match s.todo i with
      | [] => none
      | .read :: todo =>
          some ({ s with todo := Function.update s.todo i todo }.goto i .acquireWaitLock)
      | .write :: todo =>
          some ({ s with todo := Function.update s.todo i todo }.goto i .waitWritelock)
  | .acquireWaitLock =>
      (semWait s.lock).map fun lock => { s with lock }.goto i .acquireIncrement
  | .acquireIncrement => some ({ s with readers := s.readers + 1 }.goto i .acquireTest)
  | .acquireTest =>
      some (s.goto i (if s.readers = 1 then .acquireWaitWritelock else .acquirePostLock))
  | .acquireWaitWritelock =>
      (semWait s.writelock).map fun writelock => { s with writelock }.goto i .acquirePostLock
  | .acquirePostLock => some ({ s with lock := semPost s.lock }.goto i .reading)
  | .reading => some (s.goto i .releaseWaitLock)
  | .releaseWaitLock =>
      (semWait s.lock).map fun lock => { s with lock }.goto i .releaseDecrement
  | .releaseDecrement => some ({ s with readers := s.readers - 1 }.goto i .releaseTest)
  | .releaseTest =>
      some (s.goto i (if s.readers = 0 then .releasePostWritelock else .releasePostLock))
  | .releasePostWritelock =>
      some ({ s with writelock := semPost s.writelock }.goto i .releasePostLock)
  | .releasePostLock => some ({ s with lock := semPost s.lock }.goto i .outside)
  | .waitWritelock =>
      (semWait s.writelock).map fun writelock => { s with writelock }.goto i .writing
  | .writing => some (s.goto i .postWritelock)
  | .postWritelock => some ({ s with writelock := semPost s.writelock }.goto i .outside)

def State.finished (s : State ι) (i : ι) : Prop := s.pc i = .outside ∧ s.todo i = []

/-! ## Who is where -/

/-- Between the wait on `lock` and the post. -/
@[simp] def Loc.inner : Loc → ℕ
  | .acquireIncrement | .acquireTest | .acquireWaitWritelock | .acquirePostLock => 1
  | .releaseDecrement | .releaseTest | .releasePostWritelock | .releasePostLock => 1
  | _ => 0

/-- Between the increment of `readers` and the decrement. -/
@[simp] def Loc.counted : Loc → ℕ
  | .acquireTest | .acquireWaitWritelock | .acquirePostLock | .reading => 1
  | .releaseWaitLock | .releaseDecrement => 1
  | _ => 0

/-- A reader that has passed the wait on `writelock`, its own or that of the
first reader, and has not decremented `readers`. -/
@[simp] def Loc.holdsRead : Loc → ℕ
  | .acquirePostLock | .reading | .releaseWaitLock | .releaseDecrement => 1
  | _ => 0

@[simp] def Loc.holdsWrite : Loc → ℕ
  | .writing | .postWritelock => 1
  | _ => 0

/-- A reader that may have to wait for `writelock`. -/
@[simp] def Loc.entering : Loc → ℕ
  | .acquireTest | .acquireWaitWritelock => 1
  | _ => 0

@[simp] def Loc.waiting : Loc → ℕ
  | .acquireWaitWritelock => 1
  | _ => 0

/-- A reader that may have to post `writelock`. -/
@[simp] def Loc.leaving : Loc → ℕ
  | .releaseTest | .releasePostWritelock => 1
  | _ => 0

@[simp] def Loc.posting : Loc → ℕ
  | .releasePostWritelock => 1
  | _ => 0

variable [Fintype ι]

/-- The readers hold `writelock` from when the first has passed its wait until
the last one posts. -/
structure Inv (s : State ι) : Prop where
  lock : s.lock + total s.pc Loc.inner = 1
  readers : s.readers = total s.pc Loc.counted
  nobody : s.readers = 0 → s.writelock + total s.pc Loc.holdsWrite + total s.pc Loc.leaving = 1
  first : s.readers = 1 → s.writelock + total s.pc Loc.holdsWrite = total s.pc Loc.entering
  more : 2 ≤ s.readers → s.writelock + total s.pc Loc.holdsWrite = 0
  waiting : 0 < total s.pc Loc.waiting → s.readers = 1
  posting : 0 < total s.pc Loc.posting → s.readers = 0

variable {s s' : State ι} {i j : ι} {a : Loc}

/-- What moves when a thread goes from `a` to `b`. -/
theorem update_totals (hpc : s.pc i = a) (b : Loc) :
    (total (Function.update s.pc i b) Loc.inner + a.inner = total s.pc Loc.inner + b.inner ∧
      total (Function.update s.pc i b) Loc.counted + a.counted =
        total s.pc Loc.counted + b.counted ∧
      total (Function.update s.pc i b) Loc.holdsWrite + a.holdsWrite =
        total s.pc Loc.holdsWrite + b.holdsWrite) ∧
    total (Function.update s.pc i b) Loc.entering + a.entering =
      total s.pc Loc.entering + b.entering ∧
    total (Function.update s.pc i b) Loc.waiting + a.waiting =
      total s.pc Loc.waiting + b.waiting ∧
    total (Function.update s.pc i b) Loc.leaving + a.leaving =
      total s.pc Loc.leaving + b.leaving ∧
    total (Function.update s.pc i b) Loc.posting + a.posting =
      total s.pc Loc.posting + b.posting := by
  have hmoved := fun w : Loc → ℕ => hpc ▸ total_update s.pc w i b
  exact ⟨⟨hmoved _, hmoved _, hmoved _⟩, hmoved _, hmoved _, hmoved _, hmoved _⟩

/-- A thread inside `lock` is the only one to enter or leave. -/
theorem Inv.alone (h : Inv s) (hpc : s.pc i = a) (ha : 0 < a.inner) :
    total s.pc Loc.entering = a.entering ∧ total s.pc Loc.waiting = a.waiting ∧
      total s.pc Loc.leaving = a.leaving ∧ total s.pc Loc.posting = a.posting := by
  have hone : total s.pc Loc.inner ≤ 1 := by
    have := h.lock
    omega
  rw [← hpc] at ha ⊢
  refine ⟨total_eq_of_alone ?_ hone ha, total_eq_of_alone ?_ hone ha,
    total_eq_of_alone ?_ hone ha, total_eq_of_alone ?_ hone ha⟩ <;> intro x <;> cases x <;> decide

omit [DecidableEq ι] in
theorem inv_init (programs : ι → List Pair) : Inv (rwlock_init programs) := by
  have hzero (w : Loc → ℕ) (hw : w .outside = 0) : total (fun _ : ι => Loc.outside) w = 0 :=
    total_const hw
  constructor <;> simp [rwlock_init, hzero Loc.inner rfl, hzero Loc.counted rfl,
    hzero Loc.holdsWrite rfl, hzero Loc.leaving rfl, hzero Loc.waiting rfl]

/-- A step from `a` to `b` that the readers do not notice. -/
theorem Inv.quiet {b : Loc} (h : Inv s) (hpc : s.pc i = a)
    (hgoto : s'.pc = Function.update s.pc i b) (hlock : s'.lock + b.inner = s.lock + a.inner)
    (hreaders : s'.readers = s.readers)
    (hwrite : s'.writelock + b.holdsWrite = s.writelock + a.holdsWrite)
    (hsame : a.counted = b.counted ∧ a.entering = b.entering ∧ a.waiting = b.waiting ∧
      a.leaving = b.leaving ∧ a.posting = b.posting) : Inv s' := by
  obtain ⟨hcounted, hentering, hwaiting, hleaving, hposting⟩ := hsame
  have hmoved := update_totals hpc b
  rw [← hgoto, hcounted, hentering, hwaiting, hleaving, hposting] at hmoved
  simp only [Nat.add_right_cancel_iff] at hmoved
  obtain ⟨⟨hinner, hcounted, hholds⟩, hentering, hwaiting, hleaving, hposting⟩ := hmoved
  have hlock' := h.lock
  have hwrite' : s'.writelock + total s'.pc Loc.holdsWrite =
      s.writelock + total s.pc Loc.holdsWrite := by
    omega
  constructor
  · omega
  · rw [hreaders, hcounted, h.readers]
  · rw [hreaders, hwrite', hleaving]
    exact h.nobody
  · rw [hreaders, hwrite', hentering]
    exact h.first
  · rw [hreaders, hwrite']
    exact h.more
  · rw [hreaders, hwaiting]
    exact h.waiting
  · rw [hreaders, hposting]
    exact h.posting

theorem Inv.step (h : Inv s) (hstep : step s i = some s') : Inv s' := by
  unfold Rwlock.step at hstep
  obtain ⟨hlock, hreaders, hnobody, hfirst, hmore, hwaiting, hposting⟩ := id h
  cases hpc : s.pc i with
  | outside =>
      simp only [hpc] at hstep
      cases htodo : s.todo i with
      | nil =>
          simp only [htodo] at hstep
          cases hstep
      | cons pair todo =>
          simp only [htodo] at hstep
          cases pair with
          | read =>
              obtain rfl := Option.some.inj hstep
              exact h.quiet hpc rfl rfl rfl rfl ⟨rfl, rfl, rfl, rfl, rfl⟩
          | write =>
              obtain rfl := Option.some.inj hstep
              exact h.quiet hpc rfl rfl rfl rfl ⟨rfl, rfl, rfl, rfl, rfl⟩
  | acquireWaitLock =>
      simp only [hpc] at hstep
      obtain ⟨lock, hwait, rfl⟩ := Option.map_eq_some_iff.mp hstep
      have hwait := semWait_eq_some.mp hwait
      exact h.quiet hpc rfl hwait.symm rfl rfl ⟨rfl, rfl, rfl, rfl, rfl⟩
  | acquireIncrement =>
      simp only [hpc] at hstep
      obtain rfl := Option.some.inj hstep
      have halone := h.alone hpc (by decide)
      have hmoved := update_totals hpc .acquireTest
      simp only [Loc.inner, Loc.counted, Loc.holdsWrite, Loc.entering, Loc.waiting, Loc.leaving,
        Loc.posting] at hmoved halone
      constructor <;> simp only [State.goto] <;> omega
  | acquireTest =>
      simp only [hpc] at hstep
      have halone := h.alone hpc (by decide)
      obtain rfl := Option.some.inj hstep
      split
      · have hmoved := update_totals hpc .acquireWaitWritelock
        simp only [Loc.inner, Loc.counted, Loc.holdsWrite, Loc.entering, Loc.waiting, Loc.leaving,
          Loc.posting] at hmoved halone
        constructor <;> simp only [State.goto] <;> omega
      · have hmoved := update_totals hpc .acquirePostLock
        simp only [Loc.inner, Loc.counted, Loc.holdsWrite, Loc.entering, Loc.waiting, Loc.leaving,
          Loc.posting] at hmoved halone
        constructor <;> simp only [State.goto] <;> omega
  | acquireWaitWritelock =>
      simp only [hpc] at hstep
      obtain ⟨writelock, hwait, rfl⟩ := Option.map_eq_some_iff.mp hstep
      have hwait := semWait_eq_some.mp hwait
      have halone := h.alone hpc (by decide)
      have hmoved := update_totals hpc .acquirePostLock
      simp only [Loc.inner, Loc.counted, Loc.holdsWrite, Loc.entering, Loc.waiting, Loc.leaving,
        Loc.posting] at hmoved halone
      constructor <;> simp only [State.goto] <;> omega
  | acquirePostLock =>
      simp only [hpc] at hstep
      obtain rfl := Option.some.inj hstep
      exact h.quiet hpc rfl rfl rfl rfl ⟨rfl, rfl, rfl, rfl, rfl⟩
  | reading =>
      simp only [hpc] at hstep
      obtain rfl := Option.some.inj hstep
      exact h.quiet hpc rfl rfl rfl rfl ⟨rfl, rfl, rfl, rfl, rfl⟩
  | releaseWaitLock =>
      simp only [hpc] at hstep
      obtain ⟨lock, hwait, rfl⟩ := Option.map_eq_some_iff.mp hstep
      have hwait := semWait_eq_some.mp hwait
      exact h.quiet hpc rfl hwait.symm rfl rfl ⟨rfl, rfl, rfl, rfl, rfl⟩
  | releaseDecrement =>
      simp only [hpc] at hstep
      obtain rfl := Option.some.inj hstep
      have halone := h.alone hpc (by decide)
      have hmoved := update_totals hpc .releaseTest
      simp only [Loc.inner, Loc.counted, Loc.holdsWrite, Loc.entering, Loc.waiting, Loc.leaving,
        Loc.posting] at hmoved halone
      constructor <;> simp only [State.goto] <;> omega
  | releaseTest =>
      simp only [hpc] at hstep
      have halone := h.alone hpc (by decide)
      obtain rfl := Option.some.inj hstep
      split
      · have hmoved := update_totals hpc .releasePostWritelock
        simp only [Loc.inner, Loc.counted, Loc.holdsWrite, Loc.entering, Loc.waiting, Loc.leaving,
          Loc.posting] at hmoved halone
        constructor <;> simp only [State.goto] <;> omega
      · have hmoved := update_totals hpc .releasePostLock
        simp only [Loc.inner, Loc.counted, Loc.holdsWrite, Loc.entering, Loc.waiting, Loc.leaving,
          Loc.posting] at hmoved halone
        constructor <;> simp only [State.goto] <;> omega
  | releasePostWritelock =>
      simp only [hpc] at hstep
      obtain rfl := Option.some.inj hstep
      have halone := h.alone hpc (by decide)
      have hmoved := update_totals hpc .releasePostLock
      simp only [Loc.inner, Loc.counted, Loc.holdsWrite, Loc.entering, Loc.waiting, Loc.leaving,
        Loc.posting] at hmoved halone
      constructor <;> simp only [State.goto, semPost] <;> omega
  | releasePostLock =>
      simp only [hpc] at hstep
      obtain rfl := Option.some.inj hstep
      exact h.quiet hpc rfl rfl rfl rfl ⟨rfl, rfl, rfl, rfl, rfl⟩
  | waitWritelock =>
      simp only [hpc] at hstep
      obtain ⟨writelock, hwait, rfl⟩ := Option.map_eq_some_iff.mp hstep
      have hwait := semWait_eq_some.mp hwait
      exact h.quiet hpc rfl rfl rfl hwait.symm ⟨rfl, rfl, rfl, rfl, rfl⟩
  | writing =>
      simp only [hpc] at hstep
      obtain rfl := Option.some.inj hstep
      exact h.quiet hpc rfl rfl rfl rfl ⟨rfl, rfl, rfl, rfl, rfl⟩
  | postWritelock =>
      simp only [hpc] at hstep
      obtain rfl := Option.some.inj hstep
      exact h.quiet hpc rfl rfl rfl rfl ⟨rfl, rfl, rfl, rfl, rfl⟩

/-! ## Exclusion and progress -/

omit [Fintype ι] in
theorem step_none (h : step s i = none) :
    s.finished i ∨ (s.pc i = .acquireWaitLock ∨ s.pc i = .releaseWaitLock) ∧ s.lock = 0 ∨
      (s.pc i = .acquireWaitWritelock ∨ s.pc i = .waitWritelock) ∧ s.writelock = 0 := by
  unfold Rwlock.step at h
  cases hpc : s.pc i <;> simp only [hpc] at h
  case outside =>
    refine Or.inl ⟨hpc, ?_⟩
    split at h
    · assumption
    · cases h
    · cases h
  case acquireWaitLock =>
    exact Or.inr (Or.inl ⟨Or.inl rfl, semWait_eq_none.mp (Option.map_eq_none_iff.mp h)⟩)
  case releaseWaitLock =>
    exact Or.inr (Or.inl ⟨Or.inr rfl, semWait_eq_none.mp (Option.map_eq_none_iff.mp h)⟩)
  case acquireWaitWritelock =>
    exact Or.inr (Or.inr ⟨Or.inl rfl, semWait_eq_none.mp (Option.map_eq_none_iff.mp h)⟩)
  case waitWritelock =>
    exact Or.inr (Or.inr ⟨Or.inr rfl, semWait_eq_none.mp (Option.map_eq_none_iff.mp h)⟩)
  all_goals cases h

/-- A waiting thread waits for one of a higher rank. -/
def Loc.rank : Loc → ℕ
  | .waitWritelock => 0
  | .acquireWaitLock | .releaseWaitLock => 1
  | .acquireWaitWritelock => 2
  | _ => 3

omit [DecidableEq ι] [Fintype ι] in
theorem unfinished_of_ne (h : s.pc i ≠ .outside) : ¬ s.finished i := fun hfin => h hfin.1

theorem Inv.progress (h : Inv s) (hunfinished : ∃ i, ¬ s.finished i) :
    ∃ i, ¬ s.finished i ∧ ∃ s', Rwlock.step s i = some s' := by
  refine exists_runnable (fun i => (s.pc i).rank) (fun i hi hblocked => ?_) hunfinished
  have hnone : Rwlock.step s i = none := by
    cases hs : Rwlock.step s i with
    | none => rfl
    | some s' => exact absurd ⟨s', hs⟩ hblocked
  obtain ⟨hlock, hreaders, hnobody, hfirst, hmore, hwaiting, -⟩ := id h
  -- the thread that is waited for is anywhere the weight counts
  have hwaits (w : Loc → ℕ) (hpos : 0 < total s.pc w)
      (hw : ∀ b, 0 < w b → b ≠ .outside ∧ (s.pc i).rank < b.rank) :
      ∃ j, ¬ s.finished j ∧ (s.pc i).rank < (s.pc j).rank := by
    obtain ⟨j, hj⟩ := exists_of_total_pos hpos
    exact ⟨j, unfinished_of_ne (hw _ hj).1, (hw _ hj).2⟩
  obtain hfin | ⟨hpc, hzero⟩ | ⟨hpc | hpc, hzero⟩ := step_none hnone
  · exact absurd hfin hi
  · refine hwaits Loc.inner (by omega) ?_
    obtain hpc | hpc := hpc <;> rw [hpc] <;> intro b <;> cases b <;> decide
  · have halone := h.alone hpc (by decide)
    simp only [Loc.entering, Loc.waiting] at halone
    refine hwaits Loc.holdsWrite (by omega) ?_
    rw [hpc]
    intro b
    cases b <;> decide
  · by_cases hreading : s.readers = 0
    · by_cases hwriting : 0 < total s.pc Loc.holdsWrite
      · refine hwaits Loc.holdsWrite hwriting ?_
        rw [hpc]
        intro b
        cases b <;> decide
      · refine hwaits Loc.leaving (by omega) ?_
        rw [hpc]
        intro b
        cases b <;> decide
    · refine hwaits Loc.counted (by omega) ?_
      rw [hpc]
      intro b
      cases b <;> decide

/-- `i` holds the read lock, or the write lock. -/
def State.reads (s : State ι) (i : ι) : Prop := 0 < (s.pc i).holdsRead

def State.writes (s : State ι) (i : ι) : Prop := 0 < (s.pc i).holdsWrite

/-- A reader that holds the lock is counted, and has entered. -/
theorem Loc.counted_of_holdsRead (x : Loc) (hx : 0 < x.holdsRead) :
    0 < x.counted ∧ x.entering = 0 := by
  revert hx
  cases x <;> decide

theorem Inv.writelock_of_reads (h : Inv s) (hi : s.reads i) :
    s.writelock + total s.pc Loc.holdsWrite = 0 := by
  obtain ⟨hcounted, hentered⟩ := Loc.counted_of_holdsRead _ hi
  have hreaders := h.readers
  have hone := le_total s.pc Loc.counted i
  by_cases hmany : 2 ≤ s.readers
  · exact h.more hmany
  · -- the only reader that is counted does not enter
    have hle : total s.pc Loc.counted ≤ 1 := by omega
    have hpart : ∀ x : Loc, x.entering ≤ x.counted := by
      intro x
      cases x <;> decide
    have hentering : total s.pc Loc.entering = 0 := by
      rw [total_eq_of_alone hpart hle hcounted, hentered]
    have hfirst := h.first (by omega)
    omega

theorem Inv.exclusion (h : Inv s) (hi : s.writes i) (hij : i ≠ j) :
    ¬ s.writes j ∧ ¬ s.reads j := by
  obtain ⟨hlock, hreaders, hnobody, hfirst, hmore, -, -⟩ := id h
  have hentering : total s.pc Loc.entering ≤ total s.pc Loc.counted :=
    total_le_total fun x => by cases x <;> decide
  have hone : total s.pc Loc.holdsWrite ≤ 1 := by omega
  unfold State.writes at hi
  constructor
  · exact fun hj => hij (eq_of_total_le_one hone hi hj)
  · intro hj
    have := h.writelock_of_reads hj
    have := le_total s.pc Loc.holdsWrite i
    omega

/-- Any number of threads, in any interleaving. -/
theorem rwlock_safe {programs : ι → List Pair}
    (h : Reach step anyStep (rwlock_init programs) s) :
    (∀ i j, s.writes i → i ≠ j → ¬ s.writes j ∧ ¬ s.reads j) ∧
      s.readers = total s.pc Loc.counted ∧
      (∀ i, s.reads i → s.writelock = 0) ∧
      ((∃ i, ¬ s.finished i) → ∃ i, ¬ s.finished i ∧ ∃ s', step s i = some s') := by
  have hinv : Inv s := h.invariant (inv_init programs) fun _ _ _ hs _ => hs.step
  exact ⟨fun i j => hinv.exclusion, hinv.readers,
    fun i hi => (Nat.add_eq_zero_iff.mp (hinv.writelock_of_reads hi)).1, hinv.progress⟩

def readerAndWriter : Fin 2 → List Pair
  | 0 => [.read]
  | 1 => [.write]

/-- The reader holds the lock that the writer waits for. -/
def readFirst : List (Fin 2) :=
  [false, false, false, false, false, true, false].map finTwoEquiv.symm

theorem rwlock_safe_readFirst : ∃ s, run step (rwlock_init readerAndWriter) readFirst = some s ∧
    s.pc 0 = .reading ∧ s.pc 1 = .waitWritelock ∧ s.writelock = 0 := by
  have hrun : ((run step (rwlock_init readerAndWriter) readFirst).map fun s => (s.pc 0, s.pc 1)) =
      some (.reading, .waitWritelock) := by decide +kernel
  obtain ⟨s, hs, hpc⟩ := Option.map_eq_some_iff.mp hrun
  obtain ⟨hreader, hwriter⟩ := Prod.mk.inj hpc
  have hreads : s.reads 0 := by
    rw [State.reads, hreader]
    decide
  exact ⟨s, hs, hreader, hwriter,
    (rwlock_safe (reach_of_run_anyStep readFirst hs)).2.2.1 0 hreads⟩

end OsLabs.Concurrent.Rwlock
