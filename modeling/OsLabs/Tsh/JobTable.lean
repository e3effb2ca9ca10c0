import Mathlib

/-!
# The job table of the tiny shell

The helper routines of `tsh.c` that manipulate the job list.
-/

namespace OsLabs.Tsh

abbrev MAXJOBS : ℕ := 16

/-- `UNDEF`, `FG`, `BG` and `ST`. -/
inductive JobState
  | undef
  | fg
  | bg
  | st
deriving DecidableEq, Repr

structure Job where
  pid : ℤ
  jid : ℤ
  state : JobState
  cmdline : String
deriving DecidableEq, Repr

/-- The globals `jobs` and `nextjid`. -/
structure JobTable where
  jobs : Fin MAXJOBS → Job
  nextjid : ℤ

/-- What `clearjob` leaves in a slot. -/
def clearjob : Job := ⟨0, 0, .undef, ""⟩

def initjobs : JobTable := ⟨fun _ => clearjob, 1⟩

/-- The first slot that satisfies the test of a loop over the table. -/
def firstSlot (t : JobTable) (test : Job → Bool) : Option (Fin MAXJOBS) :=
  (List.finRange MAXJOBS).find? fun i => test (t.jobs i)

def maxjid (t : JobTable) : ℤ :=
  (List.finRange MAXJOBS).foldl (fun m i => if (t.jobs i).jid > m then (t.jobs i).jid else m) 0

def JobTable.set (t : JobTable) (i : Fin MAXJOBS) (job : Job) : JobTable :=
  { t with jobs := Function.update t.jobs i job }

def addjob (t : JobTable) (pid : ℤ) (state : JobState) (cmdline : String) : JobTable × ℤ :=
  if pid < 1 then (t, 0)
  else
    match firstSlot t fun job => job.pid = 0 with
    | none => (t, 0)
    | some i =>
        let nextjid := t.nextjid + 1
        let t := t.set i ⟨pid, t.nextjid, state, cmdline⟩
        ({ t with nextjid := if nextjid > MAXJOBS then 1 else nextjid }, 1)

def deletejob (t : JobTable) (pid : ℤ) : JobTable × ℤ :=
  if pid < 1 then (t, 0)
  else
    match firstSlot t fun job => job.pid = pid with
    | none => (t, 0)
    | some i =>
        let t := t.set i clearjob
        ({ t with nextjid := maxjid t + 1 }, 1)

def fgpid (t : JobTable) : ℤ :=
  match firstSlot t fun job => job.state = .fg with
  | none => 0
  | some i => (t.jobs i).pid

def getjobpid (t : JobTable) (pid : ℤ) : Option (Fin MAXJOBS) :=
  if pid < 1 then none else firstSlot t fun job => job.pid = pid

def getjobjid (t : JobTable) (jid : ℤ) : Option (Fin MAXJOBS) :=
  if jid < 1 then none else firstSlot t fun job => job.jid = jid

def pid2jid (t : JobTable) (pid : ℤ) : ℤ :=
  if pid < 1 then 0
  else
    match firstSlot t fun job => job.pid = pid with
    | none => 0
    | some i => (t.jobs i).jid

/-- The handler's `job->state = ST` for the job `getjobpid` finds. -/
def markStopped (t : JobTable) (pid : ℤ) : JobTable :=
  match getjobpid t pid with
  | none => t
  | some i =>
      let job := t.jobs i
      t.set i { job with state := .st }

variable {t t' : JobTable}

/-! ## Searching the table -/

theorem firstSlot_some {test : Job → Bool} {i : Fin MAXJOBS} (h : firstSlot t test = some i) :
    test (t.jobs i) = true :=
  List.find?_some (p := fun i => test (t.jobs i)) h

theorem firstSlot_none {test : Job → Bool} (h : firstSlot t test = none) (i : Fin MAXJOBS) :
    test (t.jobs i) = false := by
  have := List.find?_eq_none.mp h i (List.mem_finRange i)
  simpa using this

theorem find?_of_imp {α : Type*} {p q : α → Bool} {l : List α} {a : α}
    (himp : ∀ b ∈ l, q b = true → p b = true) (h : l.find? p = some a) (ha : q a = true) :
    l.find? q = some a := by
  induction l with
  | nil => simp at h
  | cons b l ih =>
      by_cases hp : p b = true
      · have hb : b = a := by simpa [hp] using h
        simp [hb, ha]
      · have hq : q b = false := by
          apply Bool.eq_false_iff.mpr
          exact fun hq => hp (himp b (by simp) hq)
        rw [List.find?_cons_of_neg hp] at h
        rw [List.find?_cons_of_neg (by simp [hq])]
        exact ih (fun c hc => himp c (by simp [hc])) h

theorem getjobpid_some {pid : ℤ} {i : Fin MAXJOBS} (h : getjobpid t pid = some i) :
    1 ≤ pid ∧ (t.jobs i).pid = pid := by
  unfold getjobpid at h
  split at h
  · cases h
  · exact ⟨by omega, by simpa using firstSlot_some h⟩

theorem getjobpid_none {pid : ℤ} (hpid : 1 ≤ pid) (h : getjobpid t pid = none)
    (i : Fin MAXJOBS) : (t.jobs i).pid ≠ pid := by
  unfold getjobpid at h
  rw [if_neg (by omega)] at h
  simpa using firstSlot_none h i

theorem getjobjid_some {jid : ℤ} {i : Fin MAXJOBS} (h : getjobjid t jid = some i) :
    1 ≤ jid ∧ (t.jobs i).jid = jid := by
  unfold getjobjid at h
  split at h
  · cases h
  · exact ⟨by omega, by simpa using firstSlot_some h⟩

/-! ## Changing the table -/

@[simp] theorem set_self (i : Fin MAXJOBS) (job : Job) : (t.set i job).jobs i = job := by
  simp [JobTable.set]

theorem set_of_ne {i j : Fin MAXJOBS} (h : j ≠ i) (job : Job) :
    (t.set i job).jobs j = t.jobs j := by
  simp [JobTable.set, h]

/-- `t'` differs from `t` in at most one slot, which held the job of process
`pid` and which is not in the foreground in `t'`. -/
inductive Touched (t t' : JobTable) (pid : ℤ) : Prop
  | same (absent : ∀ i, (t.jobs i).pid ≠ pid) (jobs : t'.jobs = t.jobs)
  | changed (i : Fin MAXJOBS) (job : Job) (held : (t.jobs i).pid = pid)
      (jobs : t'.jobs = Function.update t.jobs i job) (notFg : job.state ≠ .fg)

theorem deletejob_cases {pid : ℤ} (hpid : 1 ≤ pid) :
    (∀ i, (t.jobs i).pid ≠ pid) ∧ deletejob t pid = (t, 0) ∨
      ∃ i, (t.jobs i).pid = pid ∧
        (deletejob t pid).1.jobs = Function.update t.jobs i clearjob := by
  unfold deletejob
  rw [if_neg (by omega)]
  cases h : firstSlot t fun job => job.pid = pid with
  | none => exact Or.inl ⟨fun i => by simpa using firstSlot_none h i, rfl⟩
  | some i => exact Or.inr ⟨i, by simpa using firstSlot_some h, rfl⟩

theorem markStopped_cases {pid : ℤ} (hpid : 1 ≤ pid) :
    (∀ i, (t.jobs i).pid ≠ pid) ∧ markStopped t pid = t ∨
      ∃ i, (t.jobs i).pid = pid ∧
        (markStopped t pid).jobs = Function.update t.jobs i { t.jobs i with state := .st } := by
  unfold markStopped
  cases h : getjobpid t pid with
  | none => exact Or.inl ⟨getjobpid_none hpid h, rfl⟩
  | some i => exact Or.inr ⟨i, (getjobpid_some h).2, rfl⟩

theorem deletejob_touched {pid : ℤ} (hpid : 1 ≤ pid) : Touched t (deletejob t pid).1 pid := by
  obtain ⟨habsent, heq⟩ | ⟨i, hi, heq⟩ := deletejob_cases (t := t) hpid
  · exact .same habsent (by rw [heq])
  · exact .changed i clearjob hi heq (by decide)

theorem markStopped_touched {pid : ℤ} (hpid : 1 ≤ pid) :
    Touched t (markStopped t pid) pid := by
  obtain ⟨habsent, heq⟩ | ⟨i, hi, heq⟩ := markStopped_cases (t := t) hpid
  · exact .same habsent (by rw [heq])
  · exact .changed i _ hi heq (by simp)

/-- When no two slots hold the same process, the loops that stop at the first
match miss nothing. -/
theorem update_eq_ite {pid : ℤ} {i : Fin MAXJOBS} (f : Job → Job)
    (hdistinct : ∀ i j, (t.jobs i).pid = pid → (t.jobs j).pid = pid → i = j)
    (hi : (t.jobs i).pid = pid) (j : Fin MAXJOBS) :
    Function.update t.jobs i (f (t.jobs i)) j =
      if (t.jobs j).pid = pid then f (t.jobs j) else t.jobs j := by
  by_cases hj : (t.jobs j).pid = pid
  · obtain rfl := hdistinct j i hj hi
    simp [hj]
  · have hji : j ≠ i := by
      rintro rfl
      exact hj hi
    simp [hj, hji]

theorem deletejob_jobs {pid : ℤ} (hpid : 1 ≤ pid)
    (hdistinct : ∀ i j, (t.jobs i).pid = pid → (t.jobs j).pid = pid → i = j)
    (j : Fin MAXJOBS) :
    (deletejob t pid).1.jobs j = if (t.jobs j).pid = pid then clearjob else t.jobs j := by
  obtain ⟨habsent, heq⟩ | ⟨i, hi, heq⟩ := deletejob_cases (t := t) hpid
  · rw [heq, if_neg (habsent j)]
  · rw [heq]
    exact update_eq_ite (fun _ => clearjob) hdistinct hi j

theorem markStopped_jobs {pid : ℤ} (hpid : 1 ≤ pid)
    (hdistinct : ∀ i j, (t.jobs i).pid = pid → (t.jobs j).pid = pid → i = j)
    (j : Fin MAXJOBS) :
    (markStopped t pid).jobs j =
      if (t.jobs j).pid = pid then { t.jobs j with state := .st } else t.jobs j := by
  obtain ⟨habsent, heq⟩ | ⟨i, hi, heq⟩ := markStopped_cases (t := t) hpid
  · rw [heq, if_neg (habsent j)]
  · rw [heq]
    exact update_eq_ite (fun job => { job with state := .st }) hdistinct hi j

theorem addjob_cases (t : JobTable) (pid : ℤ) (state : JobState) (cmdline : String) :
    addjob t pid state cmdline = (t, 0) ∨
      1 ≤ pid ∧ ∃ i, (addjob t pid state cmdline).1.jobs =
        Function.update t.jobs i ⟨pid, t.nextjid, state, cmdline⟩ := by
  unfold addjob
  split
  · exact Or.inl rfl
  · cases firstSlot t fun job => job.pid = 0 with
    | none => exact Or.inl rfl
    | some i => exact Or.inr ⟨by omega, i, rfl⟩

/-! ## The foreground job -/

theorem fgpid_of_fg {i : Fin MAXJOBS} (h : (t.jobs i).state = .fg) :
    ∃ j, (t.jobs j).state = .fg ∧ fgpid t = (t.jobs j).pid := by
  unfold fgpid
  cases hfirst : firstSlot t fun job => job.state = .fg with
  | none =>
      have := firstSlot_none hfirst i
      simp [h] at this
  | some j => exact ⟨j, by simpa using firstSlot_some hfirst, rfl⟩

/-- Changes to the job of another process leave the foreground process alone. -/
theorem Touched.fgpid_eq {pid : ℤ} (h : Touched t t' pid) (hne : fgpid t ≠ pid) :
    fgpid t' = fgpid t := by
  cases h with
  | same _ jobs =>
      unfold fgpid firstSlot
      rw [jobs]
  | changed i job held jobs notFg =>
      have himp : ∀ j ∈ List.finRange MAXJOBS, decide ((t'.jobs j).state = .fg) = true →
          decide ((t.jobs j).state = .fg) = true := by
        intro j _ hj
        rw [jobs] at hj
        by_cases hji : j = i
        · simp [hji, notFg] at hj
        · simpa [Function.update_of_ne hji] using hj
      unfold fgpid at hne ⊢
      cases hfirst : firstSlot t fun job => job.state = .fg with
      | none =>
          have hnone : (firstSlot t' fun job => job.state = .fg) = none := by
            apply List.find?_eq_none.mpr
            intro j hj hfg
            have := firstSlot_none hfirst j
            rw [himp j hj hfg] at this
            cases this
          simp [hnone]
      | some k =>
          rw [hfirst] at hne
          have hki : k ≠ i := by
            rintro rfl
            exact hne held
          have hk : t'.jobs k = t.jobs k := by rw [jobs, Function.update_of_ne hki]
          have hsome : (firstSlot t' fun job => job.state = .fg) = some k := by
            apply find?_of_imp himp hfirst
            rw [hk]
            exact firstSlot_some hfirst
          simp [hsome, hk]

end OsLabs.Tsh
