import Mathlib
import OsLabs.Lib.Loop
import OsLabs.Lib.Rotation
import OsLabs.CpuSched.Fifo

/-!
# Round robin of `scheduler.py`

Over exact arithmetic. The trace has a slice for each line that the loop prints.
-/

namespace OsLabs.CpuSched

open OsLabs.Loop OsLabs.Rotation

/-- A job runs from `time` on; `done` when the line says so. -/
structure Slice where
  time : ℚ
  jobnum : ℕ
  ranfor : ℚ
  done : Bool
deriving DecidableEq, Repr

structure RRState where
  runlist : List Job
  jobcount : ℕ
  thetime : ℚ
  turnaround : ℕ → ℚ
  response : ℕ → ℚ
  lastran : ℕ → ℚ
  wait : ℕ → ℚ
  trace : List Slice

def RRState.start (joblist : List Job) : RRState where
  runlist := joblist
  jobcount := joblist.length
  thetime := 0
  turnaround := fun _ => 0
  response := fun _ => -1
  lastran := fun _ => 0
  wait := fun _ => 0
  trace := []

/-- The body of the loop; `none` is a pop from an empty list. -/
def RRState.step (quantum : ℚ) (s : RRState) : Option RRState :=
  match s.runlist with
  | [] => none
  | job :: runlist =>
      let jobnum := job.jobnum
      let runtime := job.runtime
      let response :=
        if s.response jobnum = -1 then Function.update s.response jobnum s.thetime
        else s.response
      let currwait := s.thetime - s.lastran jobnum
      let wait := Function.update s.wait jobnum (s.wait jobnum + currwait)
      if runtime > quantum then
        let ranfor := quantum
        some { s with
          runlist := runlist ++ [⟨jobnum, runtime - quantum⟩]
          thetime := s.thetime + ranfor
          response
          lastran := Function.update s.lastran jobnum (s.thetime + ranfor)
          wait
          trace := s.trace ++ [⟨s.thetime, jobnum, ranfor, false⟩] }
      else
        let ranfor := runtime
        some { s with
          runlist
          jobcount := s.jobcount - 1
          thetime := s.thetime + ranfor
          turnaround := Function.update s.turnaround jobnum (s.thetime + ranfor)
          response
          lastran := Function.update s.lastran jobnum (s.thetime + ranfor)
          wait
          trace := s.trace ++ [⟨s.thetime, jobnum, ranfor, true⟩] }

/-- `while jobcount > 0` -/
def rrLoop (quantum : ℚ) (fuel : ℕ) (s : RRState) : Option RRState :=
  loop (RRState.step quantum) (fun s => s.jobcount = 0) fuel s

/-- The jobs are numbered in the order of their run times. -/
def numbered (runtimes : List ℚ) : List Job := runtimes.mapIdx Job.mk

/-! ## What a job has run -/

/-- The slices that a job was given, together. -/
def ran (trace : List Slice) (jobnum : ℕ) : ℚ :=
  ((trace.filter fun slice => slice.jobnum = jobnum).map Slice.ranfor).sum

def Unfinished (trace : List Slice) (jobnum : ℕ) : Prop :=
  ∀ slice ∈ trace, slice.jobnum = jobnum → slice.done = false

def turnOf (slice : Slice) : ℕ × Bool := (slice.jobnum, slice.done)

variable {quantum : ℚ} {joblist : List Job} {s s' : RRState} {job : Job} {trace : List Slice}
  {slice : Slice} {k : ℕ}

theorem ran_append : ran (trace ++ [slice]) k =
    ran trace k + if slice.jobnum = k then slice.ranfor else 0 := by
  unfold ran
  rw [List.filter_append, List.map_append, List.sum_append]
  congr 1
  split
  case isTrue h => simp [h]
  case isFalse h => simp [h]

theorem remains_iff : Remains (trace.map turnOf) k ↔ Unfinished trace k := by
  unfold Remains Unfinished turnOf
  simp only [List.mem_map, Prod.mk.injEq, not_exists, not_and]
  exact forall₂_congr fun slice _ => forall_congr' fun _ => Bool.not_eq_true _ |>.to_iff

/-! ## A slice -/

/-- The first job has run for `ranfor`. -/
structure Ran (quantum : ℚ) (s : RRState) (job : Job) (rest : List Job) (slice : Slice)
    (s' : RRState) : Prop where
  jobnum : slice.jobnum = job.jobnum
  thetime : s'.thetime = s.thetime + slice.ranfor
  lastran : s'.lastran = Function.update s.lastran job.jobnum (s.thetime + slice.ranfor)
  wait : s'.wait = Function.update s.wait job.jobnum
    (s.wait job.jobnum + (s.thetime - s.lastran job.jobnum))
  trace : s'.trace = s.trace ++ [slice]
  leaves : slice.done = true → slice.ranfor = job.runtime ∧ s'.runlist = rest ∧
    s'.jobcount = s.jobcount - 1 ∧
    s'.turnaround = Function.update s.turnaround job.jobnum (s.thetime + slice.ranfor)
  stays : slice.done = false → quantum < job.runtime ∧ slice.ranfor = quantum ∧
    s'.runlist = rest ++ [⟨job.jobnum, job.runtime - quantum⟩] ∧ s'.jobcount = s.jobcount ∧
    s'.turnaround = s.turnaround

theorem step_spec (quantum : ℚ) {rest : List Job} (h : s.runlist = job :: rest) :
    ∃ slice s', s.step quantum = some s' ∧ Ran quantum s job rest slice s' := by
  rw [RRState.step, h]
  dsimp only
  split
  case isTrue hlong =>
    refine ⟨⟨s.thetime, job.jobnum, quantum, false⟩, _, rfl, rfl, rfl, rfl, rfl, rfl, ?_, ?_⟩
    · intro hdone
      cases hdone
    · exact fun _ => ⟨hlong, rfl, rfl, rfl, rfl⟩
  case isFalse =>
    refine ⟨⟨s.thetime, job.jobnum, job.runtime, true⟩, _, rfl, rfl, rfl, rfl, rfl, rfl, ?_, ?_⟩
    · exact fun _ => ⟨rfl, rfl, rfl, rfl⟩
    · intro hdone
      cases hdone

variable {rest : List Job}

theorem Ran.runlist (h : Ran quantum s job rest slice s') :
    s'.runlist.map Job.jobnum = requeue (rest.map Job.jobnum) job.jobnum slice.done := by
  cases hdone : slice.done with
  | true => rw [(h.leaves hdone).2.1, requeue, if_pos rfl]
  | false =>
      rw [(h.stays hdone).2.2.1, requeue, if_neg Bool.false_ne_true, List.map_append,
        List.map_singleton]

theorem Ran.ran_self (h : Ran quantum s job rest slice s') :
    ran s'.trace job.jobnum = ran s.trace job.jobnum + slice.ranfor := by
  rw [h.trace, ran_append, if_pos h.jobnum]

theorem Ran.ran_other (h : Ran quantum s job rest slice s') (hne : k ≠ job.jobnum) :
    ran s'.trace k = ran s.trace k := by
  rw [h.trace, ran_append, if_neg (by rw [h.jobnum]; exact hne.symm), add_zero]

/-- The clock advances by what the queue gets shorter. -/
theorem Ran.clock (h : Ran quantum s job rest slice s') :
    s'.thetime + totalRuntime s'.runlist = s.thetime + totalRuntime (job :: rest) := by
  rw [h.thetime]
  unfold totalRuntime
  cases hdone : slice.done with
  | true =>
      obtain ⟨hranfor, hrunlist, -⟩ := h.leaves hdone
      rw [hranfor, hrunlist, List.map_cons, List.sum_cons, add_assoc]
  | false =>
      obtain ⟨-, hranfor, hrunlist, -⟩ := h.stays hdone
      rw [hranfor, hrunlist]
      simp only [List.map_append, List.map_cons, List.map_nil, List.sum_append, List.sum_cons,
        List.sum_nil]
      ring

/-! ## The accounts -/

/-- What a job in the queue has to run is what it has not run, and the time until it ran last it
has waited or run. -/
structure Accounts (joblist : List Job) (s : RRState) : Prop where
  rotates : Rotates (joblist.map Job.jobnum) (s.trace.map turnOf) (s.runlist.map Job.jobnum)
  queued : ∀ job ∈ s.runlist, ∃ whole ∈ joblist, whole.jobnum = job.jobnum ∧
    ran s.trace job.jobnum + job.runtime = whole.runtime
  waited : ∀ k, s.wait k + ran s.trace k = s.lastran k
  finished : ∀ job ∈ joblist, ¬ Unfinished s.trace job.jobnum →
    ran s.trace job.jobnum = job.runtime ∧ s.turnaround job.jobnum = s.lastran job.jobnum
  clock : s.thetime + totalRuntime s.runlist = totalRuntime joblist
  jobcount : s.jobcount = s.runlist.length

theorem accounts_start (joblist : List Job) : Accounts joblist (RRState.start joblist) where
  rotates := rfl
  queued := fun job hjob => ⟨job, hjob, rfl, zero_add _⟩
  waited := fun k => add_zero _
  finished := fun job _ h => absurd (fun slice hslice => by cases hslice) h
  clock := zero_add _
  jobcount := rfl

theorem Accounts.nodup (h : Accounts joblist s) (hnodup : (joblist.map Job.jobnum).Nodup) :
    (s.runlist.map Job.jobnum).Nodup :=
  h.rotates.nodup hnodup

theorem Accounts.mem_runlist_iff (h : Accounts joblist s)
    (hnodup : (joblist.map Job.jobnum).Nodup) :
    k ∈ s.runlist.map Job.jobnum ↔ k ∈ joblist.map Job.jobnum ∧ Unfinished s.trace k := by
  rw [h.rotates.mem_iff hnodup, remains_iff]

theorem unfinished_append : Unfinished (trace ++ [slice]) k ↔
    Unfinished trace k ∧ (slice.jobnum = k → slice.done = false) := by
  simp [Unfinished, or_imp, forall_and]

/-- A job whose last slice this was has now run for its whole run time; of the others nothing
changes. -/
theorem Accounts.finished_step (h : Accounts joblist s)
    (hnodup : (joblist.map Job.jobnum).Nodup) (hrunlist : s.runlist = job :: rest)
    (hran : Ran quantum s job rest slice s') {other : Job} (hother : other ∈ joblist)
    (hfinished : ¬ Unfinished s'.trace other.jobnum) :
    ran s'.trace other.jobnum = other.runtime ∧
      s'.turnaround other.jobnum = s'.lastran other.jobnum := by
  have hfirst : job ∈ s.runlist := hrunlist ▸ List.mem_cons_self
  by_cases hbefore : Unfinished s.trace other.jobnum
  · rw [hran.trace, unfinished_append, hran.jobnum, not_and, Classical.not_imp] at hfinished
    obtain ⟨heq, hdone⟩ := hfinished hbefore
    obtain ⟨whole, hwhole, hnum, htotal⟩ := h.queued job hfirst
    obtain rfl : whole = other :=
      List.inj_on_of_nodup_map hnodup hwhole hother (hnum.trans heq)
    obtain ⟨hranfor, -, -, hturnaround⟩ := hran.leaves (Bool.eq_true_of_not_eq_false hdone)
    rw [← heq, hran.ran_self, hranfor, htotal, hturnaround, hran.lastran,
      Function.update_self, Function.update_self]
    exact ⟨rfl, rfl⟩
  · have hne : other.jobnum ≠ job.jobnum := by
      intro heq
      have hmem := (h.mem_runlist_iff hnodup).mp (List.mem_map_of_mem hfirst)
      exact hbefore (heq ▸ hmem.2)
    obtain ⟨htotal, hturnaround⟩ := h.finished other hother hbefore
    have hsame : s'.turnaround other.jobnum = s.turnaround other.jobnum := by
      cases hdone : slice.done with
      | true => rw [(hran.leaves hdone).2.2.2, Function.update_of_ne hne]
      | false => rw [(hran.stays hdone).2.2.2.2]
    rw [hran.ran_other hne, hran.lastran, Function.update_of_ne hne, hsame]
    exact ⟨htotal, hturnaround⟩

theorem Accounts.step (h : Accounts joblist s) (hnodup : (joblist.map Job.jobnum).Nodup)
    (hrunlist : s.runlist = job :: rest) (hran : Ran quantum s job rest slice s') :
    Accounts joblist s' := by
  have hfirst : job ∈ s.runlist := hrunlist ▸ List.mem_cons_self
  have hqueue := h.nodup hnodup
  rw [hrunlist, List.map_cons] at hqueue
  have hothers : job.jobnum ∉ rest.map Job.jobnum := (List.nodup_cons.mp hqueue).1
  obtain ⟨whole, hwhole, hnum, htotal⟩ := h.queued job hfirst
  refine ⟨?_, ?_, ?_, ?_, ?_, ?_⟩
  · have hrotates := h.rotates
    rw [hrunlist] at hrotates
    rw [hran.trace, hran.runlist, List.map_append, List.map_singleton, turnOf, hran.jobnum]
    exact hrotates.turn slice.done
  · -- a job that waits has run as much as before, and the one that ran has less to run
    have hwaiting : ∀ other ∈ rest, ∃ whole ∈ joblist, whole.jobnum = other.jobnum ∧
        ran s'.trace other.jobnum + other.runtime = whole.runtime := by
      intro other hother
      have hne : other.jobnum ≠ job.jobnum := fun heq =>
        hothers (heq ▸ List.mem_map_of_mem hother)
      rw [hran.ran_other hne]
      exact h.queued other (hrunlist ▸ List.mem_cons_of_mem _ hother)
    cases hdone : slice.done with
    | true =>
        rw [(hran.leaves hdone).2.1]
        exact hwaiting
    | false =>
        obtain ⟨-, hranfor, hrunlist', -⟩ := hran.stays hdone
        rw [hrunlist']
        intro other hother
        rcases List.mem_append.mp hother with hother | hother
        · exact hwaiting other hother
        · obtain rfl := List.mem_singleton.mp hother
          refine ⟨whole, hwhole, hnum, ?_⟩
          rw [hran.ran_self, hranfor, ← htotal]
          ring
  · intro k
    rcases eq_or_ne k job.jobnum with rfl | hne
    · rw [hran.wait, hran.lastran, hran.ran_self, Function.update_self, Function.update_self,
        ← h.waited job.jobnum]
      ring
    · rw [hran.wait, hran.lastran, hran.ran_other hne, Function.update_of_ne hne,
        Function.update_of_ne hne]
      exact h.waited k
  · intro other hother hfinished
    exact h.finished_step hnodup hrunlist hran hother hfinished
  · rw [hran.clock, ← hrunlist]
    exact h.clock
  · rw [← @List.length_map _ _ s'.runlist Job.jobnum, hran.runlist]
    have hcount := h.jobcount
    rw [hrunlist, List.length_cons] at hcount
    cases hdone : slice.done with
    | true =>
        rw [(hran.leaves hdone).2.2.1, requeue, if_pos rfl, List.length_map, hcount,
          Nat.add_sub_cancel]
    | false =>
        rw [(hran.stays hdone).2.2.2.1, requeue, if_neg Bool.false_ne_true, List.length_append,
          List.length_map, hcount, List.length_singleton]

/-! ## The run -/

/-- The slices that are left for a job, and one for a job of no time. -/
noncomputable def slicesLeft (quantum : ℚ) (runlist : List Job) : ℕ :=
  (runlist.map fun job => ⌈job.runtime / quantum⌉₊ + 1).sum

theorem slicesLeft_lt (hquantum : 0 < quantum) (hrunlist : s.runlist = job :: rest)
    (hran : Ran quantum s job rest slice s') :
    slicesLeft quantum s'.runlist < slicesLeft quantum s.runlist := by
  unfold slicesLeft
  rw [hrunlist, List.map_cons, List.sum_cons]
  cases hdone : slice.done with
  | true =>
      rw [(hran.leaves hdone).2.1]
      omega
  | false =>
      obtain ⟨hlong, -, hrunlist', -⟩ := hran.stays hdone
      have hless : ⌈(job.runtime - quantum) / quantum⌉₊ < ⌈job.runtime / quantum⌉₊ := by
        have hpos : 1 < job.runtime / quantum := (one_lt_div hquantum).mpr hlong
        rw [sub_div, div_self hquantum.ne', Nat.ceil_sub_one]
        have : 0 < ⌈job.runtime / quantum⌉₊ := Nat.ceil_pos.mpr (by linarith)
        omega
      rw [hrunlist', List.map_append, List.sum_append, List.map_singleton, List.sum_singleton]
      dsimp only
      omega

theorem rrLoop_ends (hquantum : 0 < quantum) (hnodup : (joblist.map Job.jobnum).Nodup) :
    ∃ fuel s, rrLoop quantum fuel (RRState.start joblist) = some s ∧ Accounts joblist s ∧
      s.runlist = [] := by
  have hstep : ∀ s, Accounts joblist s → decide (s.jobcount = 0) = false →
      ∃ s', s.step quantum = some s' ∧ Accounts joblist s' ∧
        slicesLeft quantum s'.runlist < slicesLeft quantum s.runlist := by
    intro s hs hactive
    cases hrunlist : s.runlist with
    | nil =>
        rw [decide_eq_false_iff_not, hs.jobcount, hrunlist] at hactive
        exact absurd rfl hactive
    | cons job rest =>
        obtain ⟨slice, s', hstep, hran⟩ := step_spec quantum hrunlist
        have hless := slicesLeft_lt hquantum hrunlist hran
        rw [hrunlist] at hless
        exact ⟨s', hstep, hs.step hnodup hrunlist hran, hless⟩
  obtain ⟨fuel, s, hloop, hs, hdone⟩ := loop_ends _ hstep (accounts_start joblist)
  refine ⟨fuel, s, hloop, hs, ?_⟩
  rw [decide_eq_true_eq, hs.jobcount] at hdone
  exact List.eq_nil_of_length_eq_zero hdone

/-- Between two consecutive slices of a job, every other job that is not finished has one slice,
and no other job has any. -/
def TakeTurns (joblist : List Job) (trace : List Slice) : Prop :=
  ∀ pre first mid second post, trace = pre ++ first :: (mid ++ second :: post) →
    second.jobnum = first.jobnum → (∀ slice ∈ mid, slice.jobnum ≠ first.jobnum) →
    ∀ job ∈ joblist, job.jobnum ≠ first.jobnum →
      (Unfinished (pre ++ [first]) job.jobnum →
        mid.countP (fun slice => slice.jobnum = job.jobnum) = 1) ∧
      (¬ Unfinished (pre ++ [first]) job.jobnum →
        mid.countP (fun slice => slice.jobnum = job.jobnum) = 0)

theorem Accounts.takeTurns (h : Accounts joblist s) (hnodup : (joblist.map Job.jobnum).Nodup) :
    TakeTurns joblist s.trace := by
  intro pre first mid second post htrace hsame hmid job hjob hne
  have hrotates := h.rotates
  rw [htrace] at hrotates
  simp only [List.map_append, List.map_cons] at hrotates
  unfold turnOf at hrotates
  rw [hsame] at hrotates
  have hcount : mid.countP (fun slice => slice.jobnum = job.jobnum) =
      ((mid.map turnOf).map Prod.fst).count job.jobnum := by
    rw [List.map_map, List.count, List.countP_map]
    apply List.countP_congr
    intro slice _
    simp [turnOf]
  have hnot : first.jobnum ∉ (mid.map turnOf).map Prod.fst := by
    simpa [turnOf] using hmid
  obtain ⟨honce, hmem⟩ := hrotates.between hnodup hnot
  have hremains : Remains (pre.map turnOf ++ [turnOf first]) job.jobnum ↔
      Unfinished (pre ++ [first]) job.jobnum := by
    rw [← List.map_singleton, ← List.map_append, remains_iff]
  have hiff : job.jobnum ∈ (mid.map turnOf).map Prod.fst ↔
      Unfinished (pre ++ [first]) job.jobnum := by
    rw [← hremains]
    exact (hmem job.jobnum).trans
      ⟨fun h => h.2.2, fun h => ⟨hne, List.mem_map_of_mem hjob, h⟩⟩
  rw [hcount]
  constructor
  · intro hunfinished
    exact List.count_eq_one_of_mem honce (hiff.mpr hunfinished)
  · intro hfinished
    exact List.count_eq_zero.mpr fun h => hfinished (hiff.mp h)

theorem map_jobnum_numbered (runtimes : List ℚ) :
    (numbered runtimes).map Job.jobnum = List.range runtimes.length := by
  apply List.ext_getElem
  · simp [numbered]
  · intro i _ _
    simp [numbered]

theorem totalRuntime_numbered (runtimes : List ℚ) :
    totalRuntime (numbered runtimes) = runtimes.sum := by
  have hmap : (numbered runtimes).map Job.runtime = runtimes := by
    apply List.ext_getElem
    · simp [numbered]
    · intro i _ _
      simp [numbered]
  rw [totalRuntime, hmap]

/-- The loop ends when every job has run for its run time, in turns, and a job is through when
it has waited and run. -/
theorem rr_correct {quantum : ℚ} (hquantum : 0 < quantum) (runtimes : List ℚ) :
    ∃ fuel s, rrLoop quantum fuel (RRState.start (numbered runtimes)) = some s ∧
      (∀ job ∈ numbered runtimes, ran s.trace job.jobnum = job.runtime ∧
        s.turnaround job.jobnum = s.wait job.jobnum + job.runtime) ∧
      TakeTurns (numbered runtimes) s.trace ∧ s.thetime = runtimes.sum := by
  have hnodup : ((numbered runtimes).map Job.jobnum).Nodup := by
    rw [map_jobnum_numbered]
    exact List.nodup_range
  obtain ⟨fuel, s, hloop, hs, hempty⟩ := rrLoop_ends hquantum hnodup
  refine ⟨fuel, s, hloop, ?_, hs.takeTurns hnodup, ?_⟩
  · intro job hjob
    have hfinished : ¬ Unfinished s.trace job.jobnum := by
      intro hunfinished
      have hmem := (hs.mem_runlist_iff hnodup).mpr ⟨List.mem_map_of_mem hjob, hunfinished⟩
      rw [hempty] at hmem
      cases hmem
    obtain ⟨hran, hturnaround⟩ := hs.finished job hjob hfinished
    refine ⟨hran, ?_⟩
    rw [hturnaround, ← hs.waited, hran]
  · have hclock := hs.clock
    rwa [hempty, totalRuntime_numbered, totalRuntime, List.map_nil, List.sum_nil, add_zero]
      at hclock

theorem rr_correct_twoJobs :
    ∃ fuel s, rrLoop 2 fuel (RRState.start (numbered [3, 1])) = some s ∧
      (∀ job ∈ numbered [3, 1], ran s.trace job.jobnum = job.runtime ∧
        s.turnaround job.jobnum = s.wait job.jobnum + job.runtime) ∧
      TakeTurns (numbered [3, 1]) s.trace ∧ s.thetime = [3, 1].sum :=
  rr_correct (by norm_num) [3, 1]

end OsLabs.CpuSched
