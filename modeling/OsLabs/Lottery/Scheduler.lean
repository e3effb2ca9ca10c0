import Mathlib
import OsLabs.Lib.Transition

/-!
# The lottery scheduler `lottery.py`

The numbers `random` draws are given as a sequence. `none` is an exception.
-/

namespace OsLabs.Lottery

open OsLabs.Transition

structure Job where
  job : ℕ
  runtime : ℤ
  tickets : ℤ
deriving DecidableEq, Repr

/-- `selected` is what `(wjob, wrun, wtix)` holds, once it holds anything. -/
structure State where
  joblist : List Job
  tickTotal : ℤ
  jobs : ℤ
  clock : ℤ
  selected : Option Job
deriving DecidableEq, Repr

/-- The jobs of `-l`, each with its run time and its tickets. -/
def load (jlist : List (ℤ × ℤ)) : State where
  joblist := jlist.mapIdx fun jobnum entry => ⟨jobnum, entry.1, entry.2⟩
  tickTotal := (jlist.map Prod.snd).sum
  jobs := jlist.length
  clock := 0
  selected := none

def runTotal (jlist : List (ℤ × ℤ)) : ℤ := (jlist.map Prod.fst).sum

/-- The loop that looks for the winner, over the jobs that are left. -/
def select (winner : ℤ) : List Job → ℤ → Option Job
  | [], _ => none
  | job :: jobs, current =>
      if current + job.tickets > winner then some job else select winner jobs (current + job.tickets)

def winner (s : State) (r : ℕ) : ℤ := (r : ℤ).fmod s.tickTotal

/-- The accounting after `w` has run, up to the update of the list. -/
def account (quantum : ℤ) (s : State) (w : Job) : State :=
  let wrun := if w.runtime ≥ quantum then w.runtime - quantum else 0
  let clock := s.clock + quantum
  if wrun = 0 then
    { s with
      tickTotal := s.tickTotal - w.tickets
      jobs := s.jobs - 1
      clock
      selected := some ⟨w.job, wrun, 0⟩ }
  else { s with clock, selected := some ⟨w.job, wrun, w.tickets⟩ }

/-- `joblist[wjob] = (wjob, wrun, wtix)` -/
def updateJob (s : State) : Option State := do
  let w ← s.selected
  if w.job < s.joblist.length then some { s with joblist := s.joblist.set w.job w } else none

/-- The body of the loop. A search without a winner leaves the one before. -/
def iterate (quantum : ℤ) (s : State) (r : ℕ) : Option State :=
  if s.tickTotal = 0 then none
  else do
    let w ← (select (winner s r) s.joblist 0).or s.selected
    updateJob (account quantum s w)

/-- `for i in range(runTotal)`, from `i` on, with its `break`. -/
def scheduling (quantum : ℤ) (random : ℕ → ℕ) : ℕ → ℕ → State → Option State
  | 0, _, s => some s
  | left + 1, i, s => do
      let s ← iterate quantum s (random i)
      if s.jobs = 0 then some s else scheduling quantum random left (i + 1) s

def simulate (quantum : ℤ) (random : ℕ → ℕ) (jlist : List (ℤ × ℤ)) : Option State :=
  scheduling quantum random (runTotal jlist).toNat 0 (load jlist)

/-! ## The winner -/

def ticketSum (joblist : List Job) : ℤ := (joblist.map Job.tickets).sum

def Unfinished (job : Job) : Prop := 0 < job.runtime

instance (job : Job) : Decidable (Unfinished job) := inferInstanceAs (Decidable (0 < job.runtime))

variable {quantum : ℤ} {s s' : State} {job : Job} {joblist left right : List Job} {n current : ℤ}
  {jlist : List (ℤ × ℤ)} {r : ℕ}

/-- The winner is the job whose tickets contain the winning number. -/
theorem select_spec (hcurrent : current ≤ n) (hlt : n < current + ticketSum joblist) :
    ∃ left job right, joblist = left ++ job :: right ∧ select n joblist current = some job ∧
      current + ticketSum left ≤ n ∧ n < current + ticketSum left + job.tickets := by
  induction joblist generalizing current with
  | nil => simp [ticketSum] at hlt; omega
  | cons job jobs ih =>
      rw [select]
      split
      case isTrue hwins =>
        exact ⟨[], job, jobs, rfl, rfl, by simpa [ticketSum] using hcurrent,
          by simpa [ticketSum] using hwins⟩
      case isFalse hpasses =>
        have hsum : ticketSum (job :: jobs) = job.tickets + ticketSum jobs := by
          simp [ticketSum]
        obtain ⟨left, winner, right, rfl, hselect, hle, hlt⟩ :=
          @ih (current + job.tickets) (by omega) (by omega)
        refine ⟨job :: left, winner, right, rfl, hselect, ?_, ?_⟩
        · simp only [ticketSum, List.map_cons, List.sum_cons] at *
          omega
        · simp only [ticketSum, List.map_cons, List.sum_cons] at *
          omega

/-! ## The invariant -/

/-- A job has run time left and tickets, or neither. -/
def Job.Ok (job : Job) : Prop :=
  0 < job.runtime ∧ 0 < job.tickets ∨ job.runtime = 0 ∧ job.tickets = 0

structure Inv (s : State) : Prop where
  numbered : ∀ (i : ℕ) (job : Job), s.joblist[i]? = some job → job.job = i
  ok : ∀ job ∈ s.joblist, job.Ok
  tickTotal : s.tickTotal = ticketSum s.joblist
  jobs : s.jobs = s.joblist.countP fun job : Job => Unfinished job

/-- The run time that is left. -/
def work (joblist : List Job) : ℤ := (joblist.map Job.runtime).sum

theorem Job.Ok.tickets_nonneg (h : job.Ok) : 0 ≤ job.tickets := by
  rcases h with ⟨-, h⟩ | ⟨-, h⟩ <;> omega

theorem Job.Ok.runtime_nonneg (h : job.Ok) : 0 ≤ job.runtime := by
  rcases h with ⟨h, -⟩ | ⟨h, -⟩ <;> omega

theorem map_load {f : Job → ℤ} {g : ℤ × ℤ → ℤ} (h : ∀ i entry, f ⟨i, entry.1, entry.2⟩ = g entry)
    (jlist : List (ℤ × ℤ)) : (load jlist).joblist.map f = jlist.map g := by
  apply List.ext_getElem
  · simp [load]
  · intro i _ _
    simp [load, h]

theorem inv_load (hpos : ∀ entry ∈ jlist, 0 < entry.1 ∧ 0 < entry.2) : Inv (load jlist) := by
  have hok : ∀ job ∈ (load jlist).joblist, 0 < job.runtime ∧ 0 < job.tickets := by
    intro job hjob
    obtain ⟨i, hi, rfl⟩ := List.mem_mapIdx.mp hjob
    exact hpos _ (List.getElem_mem hi)
  refine ⟨?_, fun job hjob => Or.inl (hok job hjob), ?_, ?_⟩
  · intro i job hjob
    simp only [load, List.getElem?_mapIdx, Option.map_eq_some_iff] at hjob
    obtain ⟨entry, -, rfl⟩ := hjob
    rfl
  · rw [ticketSum, map_load (g := Prod.snd) (fun _ _ => rfl)]
    rfl
  · have hall : (load jlist).joblist.countP (fun job : Job => Unfinished job) =
        (load jlist).joblist.length :=
      List.countP_eq_length.mpr fun job hjob => decide_eq_true (hok job hjob).1
    rw [hall]
    simp [load]

theorem work_load (jlist : List (ℤ × ℤ)) : work (load jlist).joblist = runTotal jlist := by
  rw [work, map_load (g := Prod.fst) (fun _ _ => rfl), runTotal]

/-! ## One iteration -/

/-- Only unfinished jobs hold tickets. -/
theorem ticketSum_unfinished (h : ∀ job ∈ joblist, job.Ok) :
    ticketSum (joblist.filter fun job => Unfinished job) = ticketSum joblist := by
  induction joblist with
  | nil => rfl
  | cons job jobs ih =>
      obtain ⟨hjob, hjobs⟩ := List.forall_mem_cons.mp h
      have hrest := ih hjobs
      simp only [ticketSum, List.filter_cons, List.map_cons, List.sum_cons] at *
      split
      case isTrue => simpa using hrest
      case isFalse hfinished =>
        rcases hjob with ⟨hruns, -⟩ | ⟨-, hzero⟩
        · exact absurd (decide_eq_true hruns) hfinished
        · rw [hrest, hzero, zero_add]

theorem ticketSum_nonneg (h : ∀ job ∈ joblist, job.Ok) : 0 ≤ ticketSum joblist := by
  apply List.sum_nonneg
  intro tickets htickets
  obtain ⟨job, hjob, rfl⟩ := List.mem_map.mp htickets
  exact (h job hjob).tickets_nonneg

theorem Inv.tickTotal_pos (h : Inv s) (hjobs : s.jobs ≠ 0) : 0 < s.tickTotal := by
  have hcount : s.joblist.countP (fun job : Job => Unfinished job) ≠ 0 := by
    intro hzero
    exact hjobs (by rw [h.jobs, hzero, Nat.cast_zero])
  obtain ⟨job, hjob, hruns⟩ := List.countP_pos_iff.mp (Nat.pos_of_ne_zero hcount)
  have htickets : 0 < job.tickets := by
    rcases h.ok job hjob with ⟨-, h⟩ | ⟨h, -⟩
    · exact h
    · exact absurd (of_decide_eq_true hruns) (by rw [Unfinished, h]; exact lt_irrefl 0)
  obtain ⟨left, right, hsplit⟩ := List.append_of_mem hjob
  have hok := h.ok
  rw [hsplit] at hok
  have hleft : 0 ≤ ticketSum left :=
    ticketSum_nonneg fun other hother => hok other (List.mem_append_left _ hother)
  have hright : 0 ≤ ticketSum right :=
    ticketSum_nonneg fun other hother =>
      hok other (List.mem_append_right _ (List.mem_cons_of_mem _ hother))
  rw [h.tickTotal, hsplit]
  simp only [ticketSum, List.map_append, List.map_cons, List.sum_append, List.sum_cons] at *
  omega

/-- The job that wins is unfinished, and its tickets contain the winning number. -/
def Wins (s : State) (r : ℕ) (left : List Job) (job : Job) (right : List Job) : Prop :=
  s.joblist = left ++ job :: right ∧ select (winner s r) s.joblist 0 = some job ∧
    Unfinished job ∧ ticketSum left ≤ winner s r ∧
      winner s r < ticketSum left + job.tickets

theorem Inv.exists_wins (h : Inv s) (hjobs : s.jobs ≠ 0) (r : ℕ) :
    ∃ left job right, Wins s r left job right := by
  have hpos := h.tickTotal_pos hjobs
  have hnonneg : 0 ≤ winner s r := Int.fmod_nonneg (Int.natCast_nonneg r) hpos.le
  have hlt : winner s r < 0 + ticketSum s.joblist := by
    rw [zero_add, ← h.tickTotal]
    exact Int.fmod_lt_of_pos _ hpos
  obtain ⟨left, job, right, hsplit, hselect, hle, hlt⟩ := select_spec hnonneg hlt
  rw [zero_add] at hle hlt
  refine ⟨left, job, right, hsplit, hselect, ?_, hle, hlt⟩
  have hjob : job ∈ s.joblist := hsplit ▸ List.mem_append_right _ List.mem_cons_self
  rcases h.ok job hjob with ⟨hruns, -⟩ | ⟨-, hzero⟩
  · exact hruns
  · omega

/-- What is left of a job after it has run; a job that is finished gives up its tickets. -/
def Job.run (quantum : ℤ) (job : Job) : Job :=
  let runtime := if job.runtime ≥ quantum then job.runtime - quantum else 0
  ⟨job.job, runtime, if runtime = 0 then 0 else job.tickets⟩

theorem Job.run_ok (hquantum : 1 ≤ quantum) (hok : job.Ok) (hruns : Unfinished job) :
    (job.run quantum).Ok ∧ (job.run quantum).runtime < job.runtime := by
  have htickets : 0 < job.tickets := by
    rcases hok with ⟨-, h⟩ | ⟨h, -⟩
    · exact h
    · exact absurd hruns (by rw [Unfinished, h]; exact lt_irrefl 0)
  unfold Unfinished at hruns
  unfold Job.Ok Job.run
  dsimp only
  constructor
  · rcases eq_or_ne (if job.runtime ≥ quantum then job.runtime - quantum else 0) 0 with hzero | hne
    · exact Or.inr ⟨hzero, if_pos hzero⟩
    · refine Or.inl ⟨?_, by rwa [if_neg hne]⟩
      split at hne <;> split <;> omega
  · split <;> omega

theorem account_eq (quantum : ℤ) (s : State) (w : Job) :
    (account quantum s w).joblist = s.joblist ∧
    (account quantum s w).selected = some (w.run quantum) ∧
    (account quantum s w).tickTotal = s.tickTotal - w.tickets + (w.run quantum).tickets ∧
    (account quantum s w).jobs = if (w.run quantum).runtime = 0 then s.jobs - 1 else s.jobs := by
  unfold account Job.run
  rcases eq_or_ne (if w.runtime ≥ quantum then w.runtime - quantum else 0) 0 with hzero | hne
  · simp [hzero]
  · simp [hne]

/-- The winner between `left` and `right` has run. -/
theorem iterate_eq (quantum : ℤ) (h : Inv s) (hjobs : s.jobs ≠ 0) (hwins : Wins s r left job right) :
    ∃ s', iterate quantum s r = some s' ∧ s'.joblist = left ++ job.run quantum :: right ∧
      s'.tickTotal = s.tickTotal - job.tickets + (job.run quantum).tickets ∧
      s'.jobs = if (job.run quantum).runtime = 0 then s.jobs - 1 else s.jobs := by
  obtain ⟨hsplit, hselect, -⟩ := hwins
  obtain ⟨hjoblist, hselected, htickTotal, hcount⟩ := account_eq quantum s job
  have hnum : (job.run quantum).job = left.length := by
    apply h.numbered left.length job
    rw [hsplit]
    simp
  have hlt : (job.run quantum).job < (account quantum s job).joblist.length := by
    rw [hnum, hjoblist, hsplit]
    simp
  have hset : (account quantum s job).joblist.set (job.run quantum).job (job.run quantum) =
      left ++ job.run quantum :: right := by
    rw [hnum, hjoblist, hsplit]
    simp
  refine ⟨{ account quantum s job with joblist := _ }, ?_, hset, htickTotal, hcount⟩
  rw [iterate, if_neg (h.tickTotal_pos hjobs).ne', hselect]
  simp only [Option.some_or, Option.bind_eq_bind, Option.bind_some, updateJob, hselected, if_pos hlt]

theorem work_lt (hsplit : s.joblist = left ++ job :: right)
    (hsplit' : s'.joblist = left ++ job.run quantum :: right)
    (hless : (job.run quantum).runtime < job.runtime) : work s'.joblist < work s.joblist := by
  rw [hsplit, hsplit']
  simp only [work, List.map_append, List.map_cons, List.sum_append, List.sum_cons]
  omega

/-- An iteration keeps the invariant and leaves less to run. -/
theorem Inv.iterate (hquantum : 1 ≤ quantum) (h : Inv s) (hjobs : s.jobs ≠ 0) (r : ℕ) :
    ∃ s', iterate quantum s r = some s' ∧ Inv s' ∧ work s'.joblist < work s.joblist ∧
      s'.joblist.length = s.joblist.length := by
  obtain ⟨left, job, right, hwins⟩ := h.exists_wins hjobs r
  obtain ⟨s', hs', hsplit', htickTotal, hcount⟩ := iterate_eq quantum h hjobs hwins
  obtain ⟨hsplit, -, hruns, -⟩ := hwins
  have hjob : job ∈ s.joblist := hsplit ▸ List.mem_append_right _ List.mem_cons_self
  obtain ⟨hok, hless⟩ := Job.run_ok hquantum (h.ok job hjob) hruns
  refine ⟨s', hs', ⟨?_, ?_, ?_, ?_⟩, work_lt hsplit hsplit' hless, ?_⟩
  · intro i other hother
    have hnumbered := h.numbered i
    rw [hsplit] at hnumbered
    rw [hsplit'] at hother
    rcases lt_trichotomy i left.length with hlt | rfl | hgt
    · rw [List.getElem?_append_left hlt] at hother hnumbered
      exact hnumbered other hother
    · rw [List.getElem?_append_right le_rfl, Nat.sub_self] at hother hnumbered
      obtain rfl : job.run quantum = other := Option.some.inj hother
      exact hnumbered job rfl
    · rw [List.getElem?_append_right hgt.le] at hother hnumbered
      obtain ⟨d, hd⟩ := Nat.exists_eq_succ_of_ne_zero (Nat.sub_pos_of_lt hgt).ne'
      rw [hd, List.getElem?_cons_succ] at hother hnumbered
      exact hnumbered other hother
  · have hall := h.ok
    rw [hsplit, List.forall_mem_append, List.forall_mem_cons] at hall
    rw [hsplit', List.forall_mem_append, List.forall_mem_cons]
    exact ⟨hall.1, hok, hall.2.2⟩
  · rw [htickTotal, h.tickTotal, hsplit, hsplit']
    simp only [ticketSum, List.map_append, List.map_cons, List.sum_append, List.sum_cons]
    ring
  · rw [hcount, h.jobs, hsplit, hsplit']
    simp only [List.countP_append, List.countP_cons, decide_eq_true hruns, if_true]
    rcases hok with ⟨hpos, -⟩ | ⟨hzero, -⟩
    · rw [if_neg hpos.ne', decide_eq_true (p := Unfinished (job.run quantum)) hpos, if_pos rfl]
    · have hdone : ¬ Unfinished (job.run quantum) := by
        rw [Unfinished, hzero]
        exact lt_irrefl 0
      rw [if_pos hzero, decide_eq_false hdone, if_neg Bool.false_ne_true]
      push_cast
      ring
  · rw [hsplit, hsplit', List.length_append, List.length_append, List.length_cons,
      List.length_cons]

/-! ## The loop -/

theorem Inv.work_pos (h : Inv s) (hjobs : s.jobs ≠ 0) : 0 < work s.joblist := by
  obtain ⟨s', -, h', hlt, -⟩ := h.iterate (le_refl (1 : ℤ)) hjobs 0
  have hnonneg : 0 ≤ work s'.joblist := by
    apply List.sum_nonneg
    intro runtime hruntime
    obtain ⟨job, hjob, rfl⟩ := List.mem_map.mp hruntime
    exact (h'.ok job hjob).runtime_nonneg
  omega

theorem Inv.finished (h : Inv s) (hjobs : s.jobs = 0) : ∀ job ∈ s.joblist, job.runtime = 0 := by
  intro job hjob
  have hcount : s.joblist.countP (fun job : Job => Unfinished job) = 0 := by
    have hzero := h.jobs
    omega
  have hdone := List.countP_eq_zero.mp hcount job hjob
  rcases h.ok job hjob with ⟨hruns, -⟩ | ⟨hzero, -⟩
  · exact absurd (decide_eq_true hruns) hdone
  · exact hzero

/-- As long as the loop has as many turns as there is run time left, it ends by its `break`. -/
theorem scheduling_ends (hquantum : 1 ≤ quantum) (random : ℕ → ℕ) {turns i : ℕ} (h : Inv s)
    (hjobs : s.jobs ≠ 0) (hturns : work s.joblist ≤ turns) :
    ∃ s', scheduling quantum random turns i s = some s' ∧ Inv s' ∧ s'.jobs = 0 ∧
      s'.joblist.length = s.joblist.length := by
  induction turns generalizing i s with
  | zero => exact absurd hturns (h.work_pos hjobs).not_ge
  | succ turns ih =>
      obtain ⟨t, ht, hinv, hless, hlength⟩ := h.iterate hquantum hjobs (random i)
      rw [scheduling, ht]
      simp only [Option.bind_eq_bind, Option.bind_some]
      split
      case isTrue hdone => exact ⟨t, rfl, hinv, hdone, hlength⟩
      case isFalse hgoes =>
        obtain ⟨s', hs', hinv', hdone, hlength'⟩ :=
          ih (i := i + 1) hinv hgoes (by push_cast at hturns; omega)
        exact ⟨s', hs', hinv', hdone, hlength'.trans hlength⟩

/-- The states from which an iteration starts. -/
def Head (quantum : ℤ) (jlist : List (ℤ × ℤ)) (s : State) : Prop :=
  Reach (iterate quantum) (fun s _ => s.jobs ≠ 0) (load jlist) s ∧ s.jobs ≠ 0

theorem Head.inv (hquantum : 1 ≤ quantum) (hpos : ∀ entry ∈ jlist, 0 < entry.1 ∧ 0 < entry.2)
    (h : Head quantum jlist s) : Inv s := by
  refine h.1.invariant (I := Inv) (inv_load hpos) fun t r t' ht hjobs hstep => ?_
  obtain ⟨u, hu, hinv, -⟩ := ht.iterate hquantum hjobs r
  obtain rfl : u = t' := Option.some.inj (hu.symm.trans hstep)
  exact hinv

/-- At every iteration the total is that of the unfinished jobs, and one of them is drawn; the
loop ends with all jobs finished. -/
theorem lottery_correct {quantum : ℤ} (hquantum : 1 ≤ quantum) {jlist : List (ℤ × ℤ)}
    (hpos : ∀ entry ∈ jlist, 0 < entry.1 ∧ 0 < entry.2) :
    (∀ s, Head quantum jlist s →
      s.tickTotal = ticketSum (s.joblist.filter fun job => Unfinished job) ∧ 0 < s.tickTotal ∧
      ∀ r, (∃ left job right, Wins s r left job right) ∧ ∃ s', iterate quantum s r = some s') ∧
    ∀ random, ∃ s, simulate quantum random jlist = some s ∧ s.jobs = 0 ∧
      s.joblist.length = jlist.length ∧ ∀ job ∈ s.joblist, job.runtime = 0 := by
  constructor
  · intro s hs
    have hinv := hs.inv hquantum hpos
    refine ⟨?_, hinv.tickTotal_pos hs.2, fun r => ⟨hinv.exists_wins hs.2 r, ?_⟩⟩
    · rw [ticketSum_unfinished hinv.ok]
      exact hinv.tickTotal
    · obtain ⟨s', hs', -⟩ := hinv.iterate hquantum hs.2 r
      exact ⟨s', hs'⟩
  · intro random
    have hinv := inv_load hpos
    have hlength : (load jlist).joblist.length = jlist.length := by simp [load]
    rcases eq_or_ne jlist [] with rfl | hne
    · exact ⟨load [], rfl, rfl, rfl, by simp [load]⟩
    · have hjobs : (load jlist).jobs ≠ 0 := by simpa [load] using hne
      have hturns : work (load jlist).joblist ≤ (runTotal jlist).toNat := by
        rw [work_load]
        exact Int.self_le_toNat _
      obtain ⟨s, hs, hinv', hdone, hlength'⟩ :=
        scheduling_ends hquantum random (i := 0) hinv hjobs hturns
      exact ⟨s, hs, hdone, hlength'.trans hlength, hinv'.finished hdone⟩

theorem lottery_correct_twoJobs :
    ∃ s, simulate 2 (fun i => 7 * i) [(3, 10), (1, 5)] = some s ∧ s.jobs = 0 ∧
      s.joblist.length = 2 ∧ ∀ job ∈ s.joblist, job.runtime = 0 :=
  (lottery_correct (by decide) (by decide)).2 fun i => 7 * i

end OsLabs.Lottery
