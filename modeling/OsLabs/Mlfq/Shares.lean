import Mathlib
import OsLabs.Mlfq.Runs

/-!
# The shares of a job

What an iteration does to the level of a job and to its two countdowns: the
boost gives every job with time left the full share of the highest level, an
event changes no share, and a tick changes the current job only.
-/

namespace OsLabs.Mlfq

open OsLabs.Transition

variable {c : Config} {jobs : List JobSpec} {due : ℕ → Option ℕ} {s s' : State} {q j : ℕ}

/-- The level of a job, the ticks left in its quantum and its quanta left at the level. -/
structure Share where
  level : ℕ
  ticks : ℤ
  allot : ℤ
  deriving DecidableEq, Repr

def Job.share (jb : Job) : Share := ⟨jb.currPri, jb.ticksLeft, jb.allotLeft⟩

def Config.fullShare (c : Config) (q : ℕ) : Share := ⟨q, c.quantum q, c.allotment q⟩

/-! ## The scheduling point -/

/-- The boost takes place in this iteration. -/
def Boosts (c : Config) (s : State) : Prop :=
  c.boost > 0 ∧ s.currTime ≠ 0 ∧ (s.currTime : ℤ) % c.boost = 0

instance (c : Config) (s : State) : Decidable (Boosts c s) :=
  inferInstanceAs (Decidable (_ ∧ _ ∧ _))

theorem eventDone_share (c : Config) (s : State) (event : ℕ × EventType) (j : ℕ) :
    ((eventDone c s event).job j).share = (s.job j).share :=
  setJob_congr Job.share (by rfl) j

theorem checkIoDone_share (c : Config) (s : State) (j : ℕ) :
    ((checkIoDone c s).job j).share = (s.job j).share := by
  rw [checkIoDone]
  generalize s.ioDone s.currTime = events
  induction events generalizing s with
  | nil => rfl
  | cons event events ih => exact (ih _).trans (eventDone_share c s event j)

theorem checkBoost_eq_if (c : Config) (s : State) :
    checkBoost c s = if Boosts c s then boostedState c s else s := by
  rw [checkBoost, ← Config.hiQueue, foldl_boostQueue c s c.hiQueue le_rfl, foldl_boostJob]
  rfl

/-- The boost gives every job with time left the full share of the highest level. -/
theorem schedulingPoint_share (hj : j < s.numJobs) (hleft : 0 < (s.job j).timeLeft) :
    ((schedulingPoint c s).job j).share =
      if Boosts c s then c.fullShare c.hiQueue else (s.job j).share := by
  rw [schedulingPoint, checkIoDone_share, checkBoost_eq_if]
  split
  · simp only [boostedState, if_pos hj, boosted, if_pos hleft]
    rfl
  · rfl

theorem schedulingPoint_timeLeft (c : Config) (s : State) (j : ℕ) :
    ((schedulingPoint c s).job j).timeLeft = (s.job j).timeLeft := by
  have hevents (t : State) (events : List (ℕ × EventType)) :
      ((events.foldl (eventDone c) t).job j).timeLeft = (t.job j).timeLeft := by
    induction events generalizing t with
    | nil => rfl
    | cons event events ih => exact (ih _).trans (setJob_congr Job.timeLeft (by rfl) j)
  rw [schedulingPoint, checkIoDone, hevents, checkBoost_eq_if]
  split
  · simp only [boostedState]
    split
    · exact boosted_timeLeft c (s.job j)
    · rfl
  · rfl

/-! ## The tick -/

/-- The job issues an I/O at its next tick. -/
def Job.Issues (jb : Job) : Prop :=
  jb.timeLeft ≠ 1 ∧ jb.ioFreq > 0 ∧ (jb.runTime - (jb.timeLeft - 1)) % jb.ioFreq = 0

instance (jb : Job) : Decidable jb.Issues := inferInstanceAs (Decidable (_ ∧ _ ∧ _))

/-- What an I/O makes of the job that issues it at level `q`. -/
def issued (c : Config) (q : ℕ) (jb : Job) : Job :=
  if c.stay then
    { jb with
      doingIo := true
      ticksLeft := c.quantum q
      allotLeft := c.allotment q }
  else { jb with doingIo := true }

/-- What the end of a quantum at level `q` makes of the current job. -/
def ended (c : Config) (q : ℕ) (jb : Job) : Job :=
  if jb.allotLeft - 1 = 0 then
    if q > 0 then
      { jb with
        currPri := q - 1
        ticksLeft := c.quantum (q - 1)
        allotLeft := c.allotment (q - 1) }
    else
      { jb with
        ticksLeft := c.quantum q
        allotLeft := c.allotment q }
  else
    { jb with
      allotLeft := jb.allotLeft - 1
      ticksLeft := c.quantum q }

/-- The current job after the charge for the tick at `time`. -/
def charged (time : ℕ) (jb : Job) : Job :=
  { jb with
    timeLeft := jb.timeLeft - 1
    ticksLeft := jb.ticksLeft - 1
    firstRun := if jb.firstRun = -1 then time else jb.firstRun }

/-- The current job at level `q` after the tick at `time`. -/
def ran (c : Config) (q time : ℕ) (jb : Job) : Job :=
  let after := if jb.Issues then issued c q (charged time jb) else charged time jb
  if jb.timeLeft = 1 then { charged time jb with endTime := some (time + 1) }
  else if jb.ticksLeft = 1 then ended c q after
  else after

theorem issued_timeLeft (c : Config) (q : ℕ) (jb : Job) :
    (issued c q jb).timeLeft = jb.timeLeft := by
  rw [issued]
  split <;> rfl

theorem issued_doingIo (c : Config) (q : ℕ) (jb : Job) : (issued c q jb).doingIo = true := by
  rw [issued]
  split <;> rfl

theorem ended_timeLeft (c : Config) (q : ℕ) (jb : Job) :
    (ended c q jb).timeLeft = jb.timeLeft := by
  rw [ended]
  split_ifs <;> rfl

theorem ended_doingIo (c : Config) (q : ℕ) (jb : Job) : (ended c q jb).doingIo = jb.doingIo := by
  rw [ended]
  split_ifs <;> rfl

theorem ran_timeLeft (c : Config) (q time : ℕ) (jb : Job) :
    (ran c q time jb).timeLeft = jb.timeLeft - 1 := by
  rw [ran]
  split_ifs <;> simp [ended_timeLeft, issued_timeLeft, charged]

theorem ran_doingIo (c : Config) (q time : ℕ) (jb : Job) :
    (ran c q time jb).doingIo = (decide jb.Issues || jb.doingIo) := by
  have hlast (h : jb.timeLeft = 1) : ¬ jb.Issues := fun hissues => hissues.1 h
  rw [ran]
  split_ifs <;> simp [ended_doingIo, issued_doingIo, charged, *]

theorem pop_job (h : pop s q j = some s') :
    s'.job = s.job ∧ s'.ticks = s.ticks ∧ s'.numJobs = s.numJobs := by
  rw [pop] at h
  split at h
  · cases h
  · split at h
    · obtain rfl := Option.some.inj h
      exact ⟨rfl, rfl, rfl⟩
    · cases h

theorem update_update (job : ℕ → Job) (f g : Job → Job) (j : ℕ) :
    Function.update (Function.update job j (f (job j))) j
      (g (Function.update job j (f (job j)) j)) = Function.update job j (g (f (job j))) := by
  rw [Function.update_idem, Function.update_self]

theorem issueIo_job (h : issueIo c s q j = some s') :
    s'.job = Function.update s.job j (issued c q (s.job j)) ∧ s'.ticks = s.ticks ∧
      s'.numJobs = s.numJobs := by
  obtain ⟨t, hpop, hissue⟩ := Option.bind_eq_some_iff.mp h
  obtain ⟨hjob, hticks, hnum⟩ := pop_job hpop
  obtain rfl := Option.some.inj hissue
  rw [issued]
  cases c.stay with
  | true =>
      refine ⟨?_, hticks, hnum⟩
      rw [← hjob]
      exact update_update t.job (fun jb => { jb with doingIo := true })
        (fun jb => { jb with ticksLeft := c.quantum q, allotLeft := c.allotment q }) j
  | false =>
      refine ⟨?_, hticks, hnum⟩
      rw [← hjob]
      rfl

theorem requeue_job (s : State) (q j : ℕ) (issuedIo : Bool) :
    (requeue s q j issuedIo).job = s.job ∧ (requeue s q j issuedIo).ticks = s.ticks ∧
      (requeue s q j issuedIo).numJobs = s.numJobs := by
  rw [requeue]
  split <;> exact ⟨rfl, rfl, rfl⟩

theorem endQuantum_job {issuedIo : Bool} (h : endQuantum c s q j issuedIo = some s') :
    s'.job = Function.update s.job j (ended c q (s.job j)) ∧ s'.ticks = s.ticks ∧
      s'.numJobs = s.numJobs := by
  obtain ⟨t, hpop, hend⟩ := Option.bind_eq_some_iff.mp h
  have ht : t.job = s.job ∧ t.ticks = s.ticks ∧ t.numJobs = s.numJobs := by
    split at hpop
    · exact pop_job hpop
    · obtain rfl := Option.some.inj hpop
      exact ⟨rfl, rfl, rfl⟩
  obtain ⟨hjob, hticks, hnum⟩ := ht
  rw [ended, ← hjob, ← hticks, ← hnum]
  dsimp only at hend
  split at hend
  · split at hend
    · next hallot hlevel =>
        obtain rfl := Option.some.inj hend
        rw [if_pos hallot, if_pos hlevel]
        exact requeue_job ..
    · next hallot hlevel =>
        obtain rfl := Option.some.inj hend
        rw [if_pos hallot, if_neg hlevel]
        exact requeue_job ..
  · next hallot =>
      obtain rfl := Option.some.inj hend
      rw [if_neg hallot]
      exact requeue_job ..

theorem runJob_job (h : runJob c s q = some s') : ∃ j rest, s.queue q = j :: rest ∧
    (s.job j).currPri = q ∧
    s'.job = Function.update s.job j (ran c q s.currTime (s.job j)) ∧
    s'.ticks = Function.update s.ticks j (s.ticks j + 1) ∧ s'.numJobs = s.numJobs := by
  obtain ⟨j, hhead, hrun⟩ := Option.bind_eq_some_iff.mp h
  obtain ⟨rest, hqueue⟩ := List.head?_eq_some_iff.mp hhead
  have hself : (charge s j).job j = charged s.currTime (s.job j) := setJob_self ..
  have hjob : (charge s j).job = Function.update s.job j (charged s.currTime (s.job j)) := rfl
  split at hrun
  · cases hrun
  · next hlevel =>
      refine ⟨j, rest, hqueue, not_not.mp hlevel, ?_⟩
      dsimp only at hrun
      rw [hself] at hrun
      split at hrun
      · cases hrun
      · split at hrun
        · next hlast =>
            have htime : (s.job j).timeLeft = 1 := by
              simp only [charged] at hlast
              omega
            obtain ⟨hpop, hticks, hnum⟩ := pop_job hrun
            refine ⟨?_, hticks, hnum⟩
            rw [hpop, ran, if_pos htime]
            exact update_update s.job (charged s.currTime)
              (fun jb => { jb with endTime := some (s.currTime + 1) }) j
        · next hlast =>
            have htime : (s.job j).timeLeft ≠ 1 := by
              simp only [charged] at hlast
              omega
            have hissues : ((charged s.currTime (s.job j)).ioFreq > 0 ∧
                ((charged s.currTime (s.job j)).runTime - (charged s.currTime (s.job j)).timeLeft) %
                  (charged s.currTime (s.job j)).ioFreq = 0) ↔ (s.job j).Issues :=
              (and_iff_right htime).symm
            obtain ⟨t, hissue, hend⟩ := Option.bind_eq_some_iff.mp hrun
            -- the tick is charged, then the I/O is issued, then the quantum ends
            have ht : t.job = Function.update s.job j
                (if (s.job j).Issues then issued c q (charged s.currTime (s.job j))
                  else charged s.currTime (s.job j)) ∧
                t.ticks = Function.update s.ticks j (s.ticks j + 1) ∧ t.numJobs = s.numJobs := by
              simp only [hissues, decide_eq_true_eq] at hissue
              split at hissue
              · next hio =>
                  obtain ⟨hafter, hticks, hnum⟩ := issueIo_job hissue
                  rw [hafter, if_pos hio]
                  exact ⟨update_update s.job (charged s.currTime) (issued c q) j, hticks, hnum⟩
              · next hio =>
                  obtain rfl := Option.some.inj hissue
                  rw [if_neg hio]
                  exact ⟨hjob, rfl, rfl⟩
            obtain ⟨hafter, hticks, hnum⟩ := ht
            have hquantum : (charged s.currTime (s.job j)).ticksLeft = 0 ↔
                (s.job j).ticksLeft = 1 := sub_eq_zero
            rw [ran, if_neg htime]
            simp only [hquantum] at hend
            split at hend
            · next hlast =>
                obtain ⟨hended, hticks', hnum'⟩ := endQuantum_job hend
                rw [hended, hafter, if_pos hlast, hticks', hnum']
                exact ⟨update_update s.job
                  (fun jb => if jb.Issues then issued c q (charged s.currTime jb)
                    else charged s.currTime jb) (ended c q) j, hticks, hnum⟩
            · next hlast =>
                obtain rfl := Option.some.inj hend
                rw [if_neg hlast]
                exact ⟨hafter, hticks, hnum⟩

instance (s : State) (u : Unit) : Decidable (unfinished s u) := inferInstanceAs (Decidable (_ < _))

/-- What an iteration does to the jobs: none runs, or the first job of the
highest nonempty queue runs for a tick. -/
theorem iteration_job (h : iteration c s = some s') :
    findQueue c (schedulingPoint c s) = none ∧ s'.job = (schedulingPoint c s).job ∧
        s'.ticks = s.ticks ∧ s'.numJobs = s.numJobs ∨
      ∃ q j rest, findQueue c (schedulingPoint c s) = some q ∧
        (schedulingPoint c s).queue q = j :: rest ∧
        ((schedulingPoint c s).job j).currPri = q ∧
        s'.job = Function.update (schedulingPoint c s).job j
          (ran c q s.currTime ((schedulingPoint c s).job j)) ∧
        s'.ticks = Function.update s.ticks j (s.ticks j + 1) ∧ s'.numJobs = s.numJobs := by
  obtain ⟨job, queue, heq⟩ := schedulingPoint_eq c s
  have htime : (schedulingPoint c s).currTime = s.currTime := by rw [heq]
  have hticks : (schedulingPoint c s).ticks = s.ticks := by rw [heq]
  have hnum : (schedulingPoint c s).numJobs = s.numJobs := by rw [heq]
  rw [iteration] at h
  cases hq : findQueue c (schedulingPoint c s) with
  | none =>
      simp only [hq] at h
      obtain rfl := Option.some.inj h
      exact Or.inl ⟨rfl, rfl, hticks, hnum⟩
  | some q =>
      simp only [hq] at h
      obtain ⟨j, rest, hqueue, hlevel, hjob, hticks', hnum'⟩ := runJob_job h
      rw [htime] at hjob
      rw [hticks] at hticks'
      exact Or.inr ⟨q, j, rest, rfl, hqueue, hlevel, hjob, hticks', hnum'.trans hnum⟩

end OsLabs.Mlfq
