import Mathlib

/-!
# FIFO and SJF of `scheduler.py`

Over exact arithmetic. SJF sorts the jobs and runs the loop of FIFO.
-/

namespace OsLabs.CpuSched

structure Job where
  jobnum : ℕ
  runtime : ℚ
deriving DecidableEq, Repr

/-- The figures that are printed for a job. -/
structure JobStatistics where
  jobnum : ℕ
  response : ℚ
  turnaround : ℚ
  wait : ℚ
deriving DecidableEq, Repr

structure FifoState where
  t : ℚ
  count : ℕ
  turnaroundSum : ℚ
  waitSum : ℚ
  responseSum : ℚ
  printed : List JobStatistics
deriving DecidableEq, Repr

/-- The body of the loop that computes the statistics. -/
def FifoState.run (s : FifoState) (tmp : Job) : FifoState :=
  let response := s.t
  let turnaround := s.t + tmp.runtime
  let wait := s.t
  { responseSum := s.responseSum + response
    turnaroundSum := s.turnaroundSum + turnaround
    waitSum := s.waitSum + wait
    t := s.t + tmp.runtime
    count := s.count + 1
    printed := s.printed ++ [⟨tmp.jobnum, response, turnaround, wait⟩] }

def fifoLoop (joblist : List Job) : FifoState := joblist.foldl FifoState.run ⟨0, 0, 0, 0, 0, []⟩

structure Averages where
  response : ℚ
  turnaround : ℚ
  wait : ℚ
deriving DecidableEq, Repr

/-- `none` is the division by a count of zero. -/
def FifoState.averages (s : FifoState) : Option Averages :=
  if s.count = 0 then none
  else some ⟨s.responseSum / s.count, s.turnaroundSum / s.count, s.waitSum / s.count⟩

def fifo (joblist : List Job) : Option Averages := (fifoLoop joblist).averages

/-- `sorted(joblist, key=operator.itemgetter(1))` -/
def sortByRuntime (joblist : List Job) : List Job :=
  joblist.mergeSort fun a b => a.runtime ≤ b.runtime

def sjf (joblist : List Job) : Option Averages := fifo (sortByRuntime joblist)

/-! ## The sums of the loop -/

/-- Every job delays all the jobs behind it. -/
def totalDelay : List Job → ℚ
  | [] => 0
  | job :: jobs => jobs.length * job.runtime + totalDelay jobs

def totalRuntime (joblist : List Job) : ℚ := (joblist.map Job.runtime).sum

variable {joblist jobs left right : List Job} {job : Job}

theorem foldl_run (joblist : List Job) (s : FifoState) :
    (joblist.foldl FifoState.run s).count = s.count + joblist.length ∧
    (joblist.foldl FifoState.run s).responseSum =
      s.responseSum + joblist.length * s.t + totalDelay joblist ∧
    (joblist.foldl FifoState.run s).waitSum =
      s.waitSum + joblist.length * s.t + totalDelay joblist ∧
    (joblist.foldl FifoState.run s).turnaroundSum =
      s.turnaroundSum + joblist.length * s.t + totalDelay joblist + totalRuntime joblist := by
  induction joblist generalizing s with
  | nil => simp [totalDelay, totalRuntime]
  | cons job jobs ih =>
      obtain ⟨hcount, hresponse, hwait, hturnaround⟩ := ih (s.run job)
      simp only [List.foldl_cons, List.length_cons, Nat.cast_add, Nat.cast_one, totalDelay,
        totalRuntime, List.map_cons, List.sum_cons] at *
      refine ⟨?_, ?_, ?_, ?_⟩
      · exact hcount.trans (by rw [FifoState.run, add_assoc, add_comm 1])
      · rw [hresponse, FifoState.run]
        ring
      · rw [hwait, FifoState.run]
        ring
      · rw [hturnaround, FifoState.run]
        ring

theorem fifo_eq (h : joblist ≠ []) :
    fifo joblist = some ⟨totalDelay joblist / joblist.length,
      (totalDelay joblist + totalRuntime joblist) / joblist.length,
      totalDelay joblist / joblist.length⟩ := by
  obtain ⟨hcount, hresponse, hwait, hturnaround⟩ := foldl_run joblist ⟨0, 0, 0, 0, 0, []⟩
  have hlength : joblist.length ≠ 0 := by simpa using h
  simp only [zero_add, mul_zero] at hcount hresponse hwait hturnaround
  rw [fifo, FifoState.averages, fifoLoop, hcount, hresponse, hwait, hturnaround, if_neg hlength]

/-! ## The exchange -/

/-- A job that is not longer than those before it may as well run first. -/
theorem totalDelay_move_front (h : ∀ other ∈ left, job.runtime ≤ other.runtime) :
    totalDelay (job :: (left ++ right)) ≤ totalDelay (left ++ job :: right) := by
  induction left with
  | nil => exact le_rfl
  | cons other left ih =>
      obtain ⟨hother, hleft⟩ := List.forall_mem_cons.mp h
      have hfront := ih hleft
      simp only [List.cons_append, totalDelay, List.length_append, List.length_cons,
        Nat.cast_add, Nat.cast_one] at hfront ⊢
      linarith

theorem totalDelay_sorted_le (hsorted : joblist.Pairwise fun a b => a.runtime ≤ b.runtime)
    (hperm : jobs.Perm joblist) : totalDelay joblist ≤ totalDelay jobs := by
  induction joblist generalizing jobs with
  | nil => rw [hperm.eq_nil]
  | cons job joblist ih =>
      obtain ⟨hfirst, hrest⟩ := List.pairwise_cons.mp hsorted
      have hmem : job ∈ jobs := hperm.mem_iff.mpr List.mem_cons_self
      obtain ⟨left, right, rfl⟩ := List.append_of_mem hmem
      have hothers : (left ++ right).Perm joblist :=
        List.Perm.cons_inv (List.perm_middle.symm.trans hperm)
      have hmin : ∀ other ∈ left, job.runtime ≤ other.runtime := fun other hother =>
        hfirst other (hothers.mem_iff.mp (List.mem_append_left _ hother))
      calc totalDelay (job :: joblist)
          = joblist.length * job.runtime + totalDelay joblist := rfl
        _ ≤ joblist.length * job.runtime + totalDelay (left ++ right) := by
            linarith [ih hrest hothers]
        _ = totalDelay (job :: (left ++ right)) := by rw [totalDelay, hothers.length_eq]
        _ ≤ totalDelay (left ++ job :: right) := totalDelay_move_front hmin

theorem sortByRuntime_sorted (joblist : List Job) :
    (sortByRuntime joblist).Pairwise fun a b => a.runtime ≤ b.runtime := by
  have hpairwise : (sortByRuntime joblist).Pairwise fun a b =>
      decide (a.runtime ≤ b.runtime) = true := List.pairwise_mergeSort
    (fun a b c hab hbc => by simp only [decide_eq_true_eq] at *; exact hab.trans hbc)
    (fun a b => by simpa using le_total a.runtime b.runtime) joblist
  exact hpairwise.imp fun h => of_decide_eq_true h

/-- SJF gives averages whenever there is a job, and no other order of the jobs has a smaller
average response, turnaround or wait. -/
theorem sjf_optimal {joblist jobs : List Job} (hperm : jobs.Perm joblist) :
    (joblist ≠ [] → ∃ best, sjf joblist = some best) ∧
    ∀ best, sjf joblist = some best → ∃ other, fifo jobs = some other ∧
      best.response ≤ other.response ∧ best.turnaround ≤ other.turnaround ∧
      best.wait ≤ other.wait := by
  have hsort : (sortByRuntime joblist).Perm joblist := List.mergeSort_perm joblist _
  rcases eq_or_ne joblist [] with rfl | hne
  · refine ⟨fun h => absurd rfl h, ?_⟩
    intro best hbest
    rw [sjf, hsort.eq_nil] at hbest
    cases hbest
  · have hjobs : jobs ≠ [] := by
      rintro rfl
      exact hne hperm.symm.eq_nil
    have hsorted : sortByRuntime joblist ≠ [] := by
      intro h
      rw [h] at hsort
      exact hne hsort.symm.eq_nil
    refine ⟨fun _ => ⟨_, fifo_eq hsorted⟩, ?_⟩
    intro best hbest
    obtain rfl := Option.some.inj ((fifo_eq hsorted).symm.trans hbest)
    have hdelay : totalDelay (sortByRuntime joblist) ≤ totalDelay jobs :=
      totalDelay_sorted_le (sortByRuntime_sorted joblist) (hperm.trans hsort.symm)
    have hruntime : totalRuntime (sortByRuntime joblist) = totalRuntime jobs :=
      ((hsort.trans hperm.symm).map Job.runtime).sum_eq
    have hlength : (sortByRuntime joblist).length = jobs.length :=
      (hsort.trans hperm.symm).length_eq
    have hcount : (0 : ℚ) ≤ jobs.length := Nat.cast_nonneg _
    refine ⟨_, fifo_eq hjobs, ?_, ?_, ?_⟩
    · rw [hlength]
      exact div_le_div_of_nonneg_right hdelay hcount
    · rw [hlength, hruntime]
      exact div_le_div_of_nonneg_right (add_le_add_left hdelay _) hcount
    · rw [hlength]
      exact div_le_div_of_nonneg_right hdelay hcount

theorem sjf_optimal_twoJobs :
    ∃ best other, sjf [⟨0, 3⟩, ⟨1, 1⟩] = some best ∧ fifo [⟨0, 3⟩, ⟨1, 1⟩] = some other ∧
      best.response ≤ other.response ∧ best.turnaround ≤ other.turnaround ∧
      best.wait ≤ other.wait := by
  obtain ⟨hexists, hle⟩ := sjf_optimal (List.Perm.refl [⟨0, 3⟩, ⟨1, 1⟩])
  obtain ⟨best, hbest⟩ := hexists (List.cons_ne_nil _ _)
  obtain ⟨other, hother⟩ := hle best hbest
  exact ⟨best, other, hbest, hother⟩

end OsLabs.CpuSched
