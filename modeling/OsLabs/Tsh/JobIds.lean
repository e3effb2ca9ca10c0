import Mathlib
import OsLabs.Lib.Transition
import OsLabs.Lib.CNumber
import OsLabs.Tsh.JobTable

/-!
# Job ids

`deletejob` sets `nextjid` above every live job, and `addjob` wraps it to 1
after the sixteenth. After a wrap `nextjid` may run into a live job, so the ids
are distinct as long as no job gets the id of a live one.
-/

namespace OsLabs.Tsh

open OsLabs.Transition OsLabs.CNumber

/-- The calls on the job list. -/
inductive JobCall
  | addjob (pid : ℤ) (state : JobState) (cmdline : String)
  | deletejob (pid : ℤ)

def jobStep (t : JobTable) : JobCall → Option JobTable
  | .addjob pid state cmdline => some (addjob t pid state cmdline).1
  | .deletejob pid => some (deletejob t pid).1

/-- Processes have positive ids, and a process is added once while its job lives. -/
def DistinctPids (t : JobTable) : JobCall → Prop
  | .addjob pid _ _ => 1 ≤ pid ∧ ∀ i, (t.jobs i).pid ≠ pid
  | .deletejob pid => 1 ≤ pid

/-- A job that gets a slot does not get the id of a live job, and `nextjid`
does not overflow. -/
def FreshJid (t : JobTable) : JobCall → Prop
  | .addjob _ _ _ => (∃ i, (t.jobs i).pid = 0) →
      (∀ i, (t.jobs i).pid ≠ 0 → (t.jobs i).jid ≠ t.nextjid) ∧ t.nextjid < INT_MAX
  | .deletejob pid => (∃ i, (t.jobs i).pid = pid) → ∀ i, (t.jobs i).jid < INT_MAX

def JobGuard (t : JobTable) (c : JobCall) : Prop := DistinctPids t c ∧ FreshJid t c

/-- `%jid` names one job. -/
structure JidsSound (t : JobTable) : Prop where
  distinct : ∀ i j, (t.jobs i).pid ≠ 0 → (t.jobs j).pid ≠ 0 → (t.jobs i).jid = (t.jobs j).jid →
    i = j
  positive : ∀ i, (t.jobs i).pid ≠ 0 → 0 < (t.jobs i).jid
  getjobjid_pid2jid : ∀ i, (t.jobs i).pid ≠ 0 →
    getjobjid t (pid2jid t (t.jobs i).pid) = some i
  pid2jid_getjobjid : ∀ i, (t.jobs i).pid ≠ 0 →
    ∃ j, getjobjid t (t.jobs i).jid = some j ∧ pid2jid t (t.jobs j).pid = (t.jobs i).jid

/-- Empty slots have no job id, and the live ones are told apart. -/
structure JidsOk (t : JobTable) : Prop where
  empty : ∀ i, (t.jobs i).pid = 0 → (t.jobs i).jid = 0
  pids : ∀ i, (t.jobs i).pid ≠ 0 → 1 ≤ (t.jobs i).pid
  distinctPids : ∀ i j, (t.jobs i).pid ≠ 0 → (t.jobs i).pid = (t.jobs j).pid → i = j
  jids : ∀ i, (t.jobs i).pid ≠ 0 → 1 ≤ (t.jobs i).jid
  distinctJids : ∀ i j, (t.jobs i).pid ≠ 0 → (t.jobs i).jid = (t.jobs j).jid → i = j
  nextjid : 1 ≤ t.nextjid

variable {t t' : JobTable} {c : JobCall}

theorem jidsOk_init : JidsOk initjobs :=
  ⟨fun _ _ => rfl, fun _ h => absurd rfl h, fun _ _ h => absurd rfl h, fun _ h => absurd rfl h,
    fun _ _ h => absurd rfl h, le_rfl⟩

theorem maxjid_nonneg (t : JobTable) : 0 ≤ maxjid t := by
  unfold maxjid
  generalize List.finRange MAXJOBS = slots
  have hmax : ∀ m : ℤ, m ≤ slots.foldl
      (fun m i => if (t.jobs i).jid > m then (t.jobs i).jid else m) m := by
    induction slots with
    | nil => exact fun m => le_rfl
    | cons i slots ih =>
        intro m
        rw [List.foldl_cons]
        refine le_trans ?_ (ih _)
        split
        · exact le_of_lt ‹_›
        · exact le_rfl
  exact hmax 0

/-- A free slot is taken by a job with a new process and a new id. -/
theorem JidsOk.occupy (h : JidsOk t) {i : Fin MAXJOBS} {job : Job}
    (hjobs : t'.jobs = Function.update t.jobs i job)
    (hpid : 1 ≤ job.pid) (hjid : 1 ≤ job.jid) (hnewPid : ∀ j, (t.jobs j).pid ≠ job.pid)
    (hnewJid : ∀ j, (t.jobs j).pid ≠ 0 → (t.jobs j).jid ≠ job.jid) (hnext : 1 ≤ t'.nextjid) :
    JidsOk t' := by
  have hself : t'.jobs i = job := by simp [hjobs]
  have hother (j : Fin MAXJOBS) (hj : j ≠ i) : t'.jobs j = t.jobs j := by simp [hjobs, hj]
  -- an empty slot has the id 0
  have hnewJid' (j : Fin MAXJOBS) : (t.jobs j).jid ≠ job.jid := by
    by_cases hj : (t.jobs j).pid = 0
    · rw [h.empty j hj]
      omega
    · exact hnewJid j hj
  refine ⟨fun j hj => ?_, fun j hj => ?_, fun j k hj hjk => ?_, fun j hj => ?_,
    fun j k hj hjk => ?_, hnext⟩
  · by_cases hji : j = i
    · rw [hji, hself] at hj
      omega
    · rw [hother j hji] at hj ⊢
      exact h.empty j hj
  · by_cases hji : j = i
    · rwa [hji, hself]
    · rw [hother j hji] at hj ⊢
      exact h.pids j hj
  · by_cases hji : j = i <;> by_cases hki : k = i
    · rw [hji, hki]
    · rw [hji, hself, hother k hki] at hjk
      exact absurd hjk.symm (hnewPid k)
    · rw [hki, hself, hother j hji] at hjk
      exact absurd hjk (hnewPid j)
    · rw [hother j hji] at hj
      rw [hother j hji, hother k hki] at hjk
      exact h.distinctPids j k hj hjk
  · by_cases hji : j = i
    · rwa [hji, hself]
    · rw [hother j hji] at hj ⊢
      exact h.jids j hj
  · by_cases hji : j = i <;> by_cases hki : k = i
    · rw [hji, hki]
    · rw [hji, hself, hother k hki] at hjk
      exact absurd hjk.symm (hnewJid' k)
    · rw [hki, hself, hother j hji] at hjk
      exact absurd hjk (hnewJid' j)
    · rw [hother j hji] at hj
      rw [hother j hji, hother k hki] at hjk
      exact h.distinctJids j k hj hjk

/-- A slot is cleared. -/
theorem JidsOk.clear (h : JidsOk t) {i : Fin MAXJOBS}
    (hjobs : t'.jobs = Function.update t.jobs i clearjob) (hnext : 1 ≤ t'.nextjid) :
    JidsOk t' := by
  have hself : t'.jobs i = clearjob := by simp [hjobs]
  have hother (j : Fin MAXJOBS) (hj : j ≠ i) : t'.jobs j = t.jobs j := by simp [hjobs, hj]
  have hlive (j : Fin MAXJOBS) (hj : (t'.jobs j).pid ≠ 0) : j ≠ i := by
    rintro rfl
    rw [hself] at hj
    exact hj rfl
  refine ⟨fun j hj => ?_, fun j hj => ?_, fun j k hj hjk => ?_, fun j hj => ?_,
    fun j k hj hjk => ?_, hnext⟩
  · by_cases hji : j = i
    · rw [hji, hself]
      rfl
    · rw [hother j hji] at hj ⊢
      exact h.empty j hj
  · have hji := hlive j hj
    rw [hother j hji] at hj ⊢
    exact h.pids j hj
  · have hji := hlive j hj
    have hki := hlive k (hjk ▸ hj)
    rw [hother j hji] at hj hjk
    rw [hother k hki] at hjk
    exact h.distinctPids j k hj hjk
  · have hji := hlive j hj
    rw [hother j hji] at hj ⊢
    exact h.jids j hj
  · have hji := hlive j hj
    rw [hother j hji] at hj hjk
    by_cases hki : k = i
    · rw [hki, hself] at hjk
      have := h.jids j hj
      exact absurd hjk (by simp [clearjob]; omega)
    · rw [hother k hki] at hjk
      exact h.distinctJids j k hj hjk

theorem JidsOk.step (h : JidsOk t) (hguard : JobGuard t c) (hstep : jobStep t c = some t') :
    JidsOk t' := by
  obtain ⟨hpids, hjids⟩ := hguard
  cases c with
  | addjob pid state cmdline =>
      obtain rfl := Option.some.inj hstep
      obtain ⟨hpid, hnew⟩ := hpids
      unfold Tsh.addjob
      rw [if_neg (by omega)]
      cases hslot : firstSlot t fun job => job.pid = 0 with
      | none => exact h
      | some i =>
          have hfree : (t.jobs i).pid = 0 := by simpa using firstSlot_some hslot
          refine h.occupy rfl hpid h.nextjid hnew (hjids ⟨i, hfree⟩).1 ?_
          have := h.nextjid
          dsimp only
          split <;> omega
  | deletejob pid =>
      obtain rfl := Option.some.inj hstep
      have hpid : 1 ≤ pid := hpids
      unfold Tsh.deletejob
      rw [if_neg (by omega)]
      cases hslot : firstSlot t fun job => job.pid = pid with
      | none => exact h
      | some i =>
          refine h.clear rfl ?_
          have := maxjid_nonneg (t.set i clearjob)
          dsimp only
          omega

/-! ## Looking jobs up -/

theorem JidsOk.pid2jid (h : JidsOk t) {i : Fin MAXJOBS} (hi : (t.jobs i).pid ≠ 0) :
    pid2jid t (t.jobs i).pid = (t.jobs i).jid := by
  have := h.pids i hi
  unfold Tsh.pid2jid
  rw [if_neg (by omega)]
  cases hslot : firstSlot t fun job => job.pid = (t.jobs i).pid with
  | none => simpa using firstSlot_none hslot i
  | some j =>
      have hj : (t.jobs j).pid = (t.jobs i).pid := by simpa using firstSlot_some hslot
      rw [h.distinctPids i j hi hj.symm]

theorem JidsOk.getjobjid (h : JidsOk t) {i : Fin MAXJOBS} (hi : (t.jobs i).pid ≠ 0) :
    getjobjid t (t.jobs i).jid = some i := by
  have := h.jids i hi
  unfold Tsh.getjobjid
  rw [if_neg (by omega)]
  cases hslot : firstSlot t fun job => job.jid = (t.jobs i).jid with
  | none => simpa using firstSlot_none hslot i
  | some j =>
      have hj : (t.jobs j).jid = (t.jobs i).jid := by simpa using firstSlot_some hslot
      rw [h.distinctJids i j hi hj.symm]

theorem JidsOk.sound (h : JidsOk t) : JidsSound t where
  distinct i j hi _ hij := h.distinctJids i j hi hij
  positive i hi := h.jids i hi
  getjobjid_pid2jid i hi := by rw [h.pid2jid hi, h.getjobjid hi]
  pid2jid_getjobjid i hi := ⟨i, h.getjobjid hi, h.pid2jid hi⟩

/-- As long as no job gets the id of a live one, `%jid` names one job. -/
theorem jids_sound (h : Reach jobStep JobGuard initjobs t) : JidsSound t :=
  (h.invariant jidsOk_init fun _ _ _ h => h.step).sound

instance (t : JobTable) : ∀ c, Decidable (DistinctPids t c)
  | .addjob pid _ _ => inferInstanceAs (Decidable (1 ≤ pid ∧ ∀ i, (t.jobs i).pid ≠ pid))
  | .deletejob pid => inferInstanceAs (Decidable (1 ≤ pid))

instance (t : JobTable) : ∀ c, Decidable (FreshJid t c)
  | .addjob _ _ _ => inferInstanceAs (Decidable ((∃ i, (t.jobs i).pid = 0) →
      (∀ i, (t.jobs i).pid ≠ 0 → (t.jobs i).jid ≠ t.nextjid) ∧ t.nextjid < INT_MAX))
  | .deletejob pid => inferInstanceAs (Decidable
      ((∃ i, (t.jobs i).pid = pid) → ∀ i, (t.jobs i).jid < INT_MAX))

instance (t : JobTable) (c : JobCall) : Decidable (JobGuard t c) :=
  inferInstanceAs (Decidable (DistinctPids t c ∧ FreshJid t c))

def addAll (pids : List ℤ) : List JobCall := pids.map fun pid => .addjob pid .bg "sleep"

/-- Two jobs come, the first goes and a third one comes. -/
def threeJobs : List JobCall := addAll [101, 102] ++ [.deletejob 101] ++ addAll [103]

theorem jids_sound_threeJobs : ∃ t, run jobStep initjobs threeJobs = some t ∧
    pid2jid t 103 = 3 ∧ JidsSound t := by
  have hrun : ((run jobStep initjobs threeJobs).map fun t => pid2jid t 103) = some 3 := by
    decide +kernel
  obtain ⟨t, ht, hjid⟩ := Option.map_eq_some_iff.mp hrun
  have hmeets : RunMeets jobStep JobGuard initjobs threeJobs :=
    runMeets_of_check (by decide +kernel)
  exact ⟨t, ht, hjid, jids_sound (reach_of_run threeJobs hmeets ht)⟩

/-- Sixteen jobs, of which the second and the third end, and two more. -/
def wrapped : List JobCall :=
  addAll [101, 102, 103, 104, 105, 106, 107, 108, 109, 110, 111, 112, 113, 114, 115, 116] ++
    [.deletejob 102, .deletejob 103] ++ addAll [117, 118]

/-- The processes 101 and 118 are both job 1. -/
theorem jids_collide : ¬ ∀ t, Reach jobStep DistinctPids initjobs t → JidsSound t := by
  intro hall
  have hrun : ((run jobStep initjobs wrapped).map fun t =>
      ((t.jobs 0).pid, (t.jobs 0).jid, (t.jobs 2).pid, (t.jobs 2).jid)) =
      some (101, 1, 118, 1) := by decide +kernel
  obtain ⟨t, ht, hjobs⟩ := Option.map_eq_some_iff.mp hrun
  have hmeets : RunMeets jobStep DistinctPids initjobs wrapped :=
    runMeets_of_check (by decide +kernel)
  have hsound := hall t (reach_of_run wrapped hmeets ht)
  simp only [Prod.mk.injEq] at hjobs
  obtain ⟨hpid₀, hjid₀, hpid₂, hjid₂⟩ := hjobs
  have heq := hsound.distinct 0 2 (by rw [hpid₀]; decide) (by rw [hpid₂]; decide)
    (hjid₀.trans hjid₂.symm)
  exact absurd heq (by decide)

end OsLabs.Tsh
