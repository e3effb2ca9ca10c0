import Mathlib
import OsLabs.Lib.Transition
import OsLabs.Mlfq.Queues

/-!
# Runs of the MLFQ simulator

The tick of the chosen job keeps every job where it belongs, whether the job
goes on, finishes, starts an I/O or uses up its quantum. A tick decreases the
time left, and an idle tick brings the next event nearer, so the run ends.
-/

namespace OsLabs.Mlfq

open OsLabs.Loop OsLabs.Transition

variable {c : Config} {jobs : List JobSpec} {agenda : ℕ → List (ℕ × EventType)}
  {due : ℕ → Option ℕ} {s : State} {q j : ℕ} {rest : List ℕ}

/-! ## Taking the current job from its queue -/

theorem pop_eq (h : s.queue q = j :: rest) : pop s q j = some (s.setQueue q rest) := by
  rw [pop, h]
  exact if_pos rfl

theorem Queued.head (h : Queued c jobs agenda due s) (hqueue : s.queue q = j :: rest) :
    Waiting s due j ∧ q = (s.job j).currPri :=
  h.mem_queue_iff.mp (by rw [hqueue]; exact List.mem_cons_self ..)

theorem Queued.count_rest (h : Queued c jobs agenda due s) (hqueue : s.queue q = j :: rest)
    (p k : ℕ) : ((s.setQueue q rest).queue p).count k =
      if k ≠ j ∧ Waiting s due k ∧ p = (s.job k).currPri then 1 else 0 := by
  have hj := h.head hqueue
  have hold := h.inQueue p k
  rcases eq_or_ne p q with rfl | hp
  · rw [hqueue, List.count_cons] at hold
    rw [setQueue_self]
    rcases eq_or_ne k j with rfl | hk
    · simp only [hj, beq_self_eq_true, and_self, if_true] at hold
      simp only [ne_eq, not_true_eq_false, false_and, if_false]
      omega
    · simpa [hk, hk.symm] using hold
  · rw [setQueue_of_ne rest hp, hold]
    rcases eq_or_ne k j with rfl | hk
    · have hne : p ≠ (s.job k).currPri := hj.2 ▸ hp
      simp [hne]
    · simp [hk]

/-! ## The tick of the current job -/

theorem charge_timeLeft (s : State) (j : ℕ) :
    ((charge s j).job j).timeLeft = (s.job j).timeLeft - 1 :=
  congrArg Job.timeLeft (setJob_self ..)

theorem charge_job {k : ℕ} (h : k ≠ j) : (charge s j).job k = s.job k := setJob_of_ne _ h

theorem charge_currPri (s : State) (j k : ℕ) :
    ((charge s j).job k).currPri = (s.job k).currPri :=
  setJob_congr Job.currPri (by rfl) k

theorem charge_doingIo (s : State) (j k : ℕ) :
    ((charge s j).job k).doingIo = (s.job k).doingIo :=
  setJob_congr Job.doingIo (by rfl) k

/-- The time a job has received and the time it has left. -/
theorem Queued.time_charge (h : Queued c jobs agenda due s) (hj : 0 < (s.job j).timeLeft)
    (k : ℕ) (hk : k < jobs.length) : 0 ≤ ((charge s j).job k).timeLeft ∧
      (charge s j).ticks k + ((charge s j).job k).timeLeft = jobs[k].runTime := by
  have hold := h.timeLeft k hk
  rcases eq_or_ne k j with rfl | hne
  · have hticks : (charge s k).ticks k = s.ticks k + 1 := Function.update_self ..
    rw [charge_timeLeft, hticks, Nat.cast_add, Nat.cast_one]
    omega
  · have hticks : (charge s j).ticks k = s.ticks k := Function.update_of_ne hne ..
    rw [charge_job hne, hticks]
    exact hold

theorem queued_charge (h : Queued c jobs agenda due s) (hleft : 1 < (s.job j).timeLeft) :
    Queued c jobs agenda due (charge s j) := by
  have hpos (k : ℕ) : 0 < ((charge s j).job k).timeLeft ↔ 0 < (s.job k).timeLeft := by
    rcases eq_or_ne k j with rfl | hk
    · rw [charge_timeLeft]
      omega
    · rw [charge_job hk]
  have hzero (k : ℕ) : ((charge s j).job k).timeLeft = 0 ↔ (s.job k).timeLeft = 0 := by
    rcases eq_or_ne k j with rfl | hk
    · rw [charge_timeLeft]
      omega
    · rw [charge_job hk]
  have hwaiting (k : ℕ) : Waiting (charge s j) due k ↔ Waiting s due k :=
    and_congr_right fun _ => and_congr_left fun _ => hpos k
  exact
    { numJobs := h.numJobs
      level := by
        intro k hk
        rw [charge_currPri]
        exact h.level k hk
      inQueue := by
        intro p k
        simp only [hwaiting, charge_currPri]
        exact h.inQueue p k
      inAgenda := h.inAgenda
      isDue := by
        intro k t hk
        rw [hpos, charge_doingIo]
        exact h.isDue k t hk
      notDoingIo := by
        intro k hk hdue
        rw [charge_doingIo]
        exact h.notDoingIo k hk hdue
      timeLeft := h.time_charge (by omega)
      finishedJobs := by
        simp only [hzero]
        exact h.finishedJobs
      begins := h.begins }

/-! ## The end of a job -/

/-- The state after the last tick of job `j`. -/
def finishedState (s : State) (q j : ℕ) (rest : List ℕ) (time : ℕ) : State :=
  State.setQueue { (charge s j).setJob j { (charge s j).job j with endTime := some time } with
    currTime := time
    finishedJobs := s.finishedJobs + 1 } q rest

theorem finishJob_eq (hqueue : s.queue q = j :: rest) (time : ℕ) :
    finishJob { charge s j with currTime := time } q j = some (finishedState s q j rest time) :=
  pop_eq hqueue

theorem finishedState_timeLeft (q : ℕ) (rest : List ℕ) (hleft : (s.job j).timeLeft = 1)
    (time k : ℕ) :
    ((finishedState s q j rest time).job k).timeLeft = if k = j then 0 else (s.job k).timeLeft := by
  have hcharged := charge_timeLeft s j
  rw [hleft, sub_self] at hcharged
  refine (setJob_congr Job.timeLeft (by rfl) k).trans ?_
  rcases eq_or_ne k j with rfl | hk
  · rw [hcharged, if_pos rfl]
  · rw [charge_job hk, if_neg hk]

theorem finishedState_currPri (time k : ℕ) :
    ((finishedState s q j rest time).job k).currPri = (s.job k).currPri :=
  (setJob_congr Job.currPri (by rfl) k).trans (charge_currPri s j k)

theorem finishedState_doingIo (time k : ℕ) :
    ((finishedState s q j rest time).job k).doingIo = (s.job k).doingIo :=
  (setJob_congr Job.doingIo (by rfl) k).trans (charge_doingIo s j k)

theorem queued_finishedState (h : Queued c jobs agenda due s) (hqueue : s.queue q = j :: rest)
    (hleft : (s.job j).timeLeft = 1) (time : ℕ) :
    Queued c jobs agenda due (finishedState s q j rest time) := by
  obtain ⟨⟨hlt, -, hnone⟩, -⟩ := h.head hqueue
  have htime := finishedState_timeLeft q rest hleft time
  have hwaiting (k : ℕ) : Waiting (finishedState s q j rest time) due k ↔
      k ≠ j ∧ Waiting s due k := by
    rw [Waiting, htime]
    rcases eq_or_ne k j with rfl | hk
    · simp
    · simp only [hk, if_false, ne_eq, not_false_eq_true, true_and]
      rfl
  exact
    { numJobs := h.numJobs
      level := by
        intro k hk
        rw [finishedState_currPri]
        exact h.level k hk
      inQueue := by
        intro p k
        simp only [hwaiting, finishedState_currPri, and_assoc]
        exact h.count_rest hqueue p k
      inAgenda := h.inAgenda
      isDue := by
        intro k t hk
        have hne : k ≠ j := fun heq => by simp [heq, hnone] at hk
        rw [htime, finishedState_doingIo, if_neg hne]
        exact h.isDue k t hk
      notDoingIo := by
        intro k hk hdue
        rw [finishedState_doingIo]
        exact h.notDoingIo k hk hdue
      timeLeft := by
        intro k hk
        have hcharged := h.time_charge (j := j) (by omega) k hk
        have hsame : ((finishedState s q j rest time).job k).timeLeft =
            ((charge s j).job k).timeLeft := setJob_congr Job.timeLeft (by rfl) k
        rw [hsame]
        exact hcharged
      finishedJobs := by
        have hinsert : ((Finset.range s.numJobs).filter fun k =>
            ((finishedState s q j rest time).job k).timeLeft = 0) =
            insert j ((Finset.range s.numJobs).filter fun k => (s.job k).timeLeft = 0) := by
          ext k
          rcases eq_or_ne k j with rfl | hk
          · simp [htime, hlt]
          · simp [htime, hk]
        have hcard := congrArg Finset.card hinsert
        rw [Finset.card_insert_of_notMem (by simp [hleft]), ← h.finishedJobs] at hcard
        exact hcard.symm
      begins := h.begins }

/-! ## Blocking and requeueing -/

/-- A job that is due at an event may change its level and its shares. -/
theorem queued_setJob (h : Queued c jobs agenda due s) {jb : Job} (hdue : due j ≠ none)
    (hlevel : jb.currPri < c.numQueues) (htime : jb.timeLeft = (s.job j).timeLeft)
    (hio : jb.doingIo = (s.job j).doingIo) : Queued c jobs agenda due (s.setJob j jb) := by
  replace htime := setJob_congr Job.timeLeft htime
  replace hio := setJob_congr Job.doingIo hio
  have hwaiting (k : ℕ) : Waiting (s.setJob j jb) due k ↔ Waiting s due k := by
    rw [Waiting, htime]
    rfl
  exact
    { numJobs := h.numJobs
      level := by
        intro k hk
        rcases eq_or_ne k j with rfl | hne
        · rw [setJob_self]
          exact hlevel
        · rw [setJob_of_ne jb hne]
          exact h.level k hk
      inQueue := by
        intro p k
        rw [setJob_queue, h.inQueue]
        refine if_congr ?_ rfl rfl
        rw [hwaiting]
        refine and_congr_right fun hw => ?_
        have hne : k ≠ j := fun heq => hdue (by rw [← heq]; exact hw.2.2)
        rw [setJob_of_ne jb hne]
      inAgenda := h.inAgenda
      isDue := by
        intro k t hk
        rw [htime, hio]
        exact h.isDue k t hk
      notDoingIo := by
        intro k hk hnone
        rw [hio]
        exact h.notDoingIo k hk hnone
      timeLeft := by
        intro k hk
        rw [htime]
        exact h.timeLeft k hk
      finishedJobs := by
        simp only [htime]
        exact h.finishedJobs
      begins := h.begins }

/-- The current job goes from the front of its queue to the end of a queue. -/
theorem queued_requeue (h : Queued c jobs agenda due s) (hqueue : s.queue q = j :: rest) {jb : Job}
    (hlevel : jb.currPri < c.numQueues) (htime : jb.timeLeft = (s.job j).timeLeft)
    (hio : jb.doingIo = (s.job j).doingIo) :
    Queued c jobs agenda due (requeue ((s.setQueue q rest).setJob j jb) jb.currPri j false) := by
  obtain ⟨hj, -⟩ := h.head hqueue
  replace htime := setJob_congr (s := s.setQueue q rest) Job.timeLeft htime
  replace hio := setJob_congr (s := s.setQueue q rest) Job.doingIo hio
  rw [requeue, if_pos rfl]
  have hwaiting (k : ℕ) (l : List ℕ) : Waiting (((s.setQueue q rest).setJob j jb).setQueue
      jb.currPri l) due k ↔ Waiting s due k := by
    rw [Waiting, setQueue_job, htime]
    rfl
  exact
    { numJobs := h.numJobs
      level := by
        intro k hk
        rw [setQueue_job]
        rcases eq_or_ne k j with rfl | hne
        · rw [setJob_self]
          exact hlevel
        · rw [setJob_of_ne jb hne]
          exact h.level k hk
      inQueue := by
        intro p k
        simp only [hwaiting, setQueue_job]
        have hrest := h.count_rest hqueue p k
        rcases eq_or_ne p jb.currPri with rfl | hp
        · rw [setQueue_self, setJob_queue, List.count_append, hrest, List.count_singleton]
          rcases eq_or_ne k j with rfl | hk
          · simp [hj]
          · simp [hk, hk.symm]
        · rw [setQueue_of_ne _ hp, setJob_queue, hrest]
          rcases eq_or_ne k j with rfl | hk
          · simp [hp]
          · simp [hk]
      inAgenda := h.inAgenda
      isDue := by
        intro k t hk
        rw [setQueue_job, htime, hio]
        exact h.isDue k t hk
      notDoingIo := by
        intro k hk hnone
        rw [setQueue_job, hio]
        exact h.notDoingIo k hk hnone
      timeLeft := by
        intro k hk
        rw [setQueue_job, htime]
        exact h.timeLeft k hk
      finishedJobs := by
        simp only [setQueue_job, htime]
        exact h.finishedJobs
      begins := h.begins }

theorem mem_addEvent {event event' : ℕ × EventType} {t time : ℕ} (h : event ∈ s.ioDone t) :
    event ∈ (s.addEvent time event').ioDone t := by
  rw [State.addEvent]
  rcases eq_or_ne t time with rfl | ht
  · simp [h]
  · simpa [ht] using h

/-- The current job leaves its queue for an I/O. -/
theorem queued_blocked (h : Queued c jobs agenda due s) (hqueue : s.queue q = j :: rest) {jb : Job}
    (hpri : jb.currPri = (s.job j).currPri) (htime : jb.timeLeft = (s.job j).timeLeft)
    (hio : jb.doingIo = true) (t : ℕ) :
    Queued c jobs (Function.update agenda t (agenda t ++ [(j, .ioDone)]))
      (Function.update due j (some t))
      (((s.setQueue q rest).setJob j jb).addEvent t (j, .ioDone)) := by
  obtain ⟨⟨hlt, hleft, hnone⟩, -⟩ := h.head hqueue
  replace hpri := setJob_congr (s := s.setQueue q rest) Job.currPri hpri
  replace htime := setJob_congr (s := s.setQueue q rest) Job.timeLeft htime
  have hjob (k : ℕ) : (((s.setQueue q rest).setJob j jb).addEvent t (j, .ioDone)).job k =
      ((s.setQueue q rest).setJob j jb).job k := rfl
  have hwaiting (k : ℕ) : Waiting (((s.setQueue q rest).setJob j jb).addEvent t (j, .ioDone))
      (Function.update due j (some t)) k ↔ k ≠ j ∧ Waiting s due k := by
    rw [Waiting, hjob, htime]
    rcases eq_or_ne k j with rfl | hk
    · simp
    · rw [Function.update_of_ne hk]
      simp only [ne_eq, hk, not_false_eq_true, true_and]
      rfl
  exact
    { numJobs := h.numJobs
      level := by
        intro k hk
        rw [hjob, hpri]
        exact h.level k hk
      inQueue := by
        intro p k
        simp only [hwaiting, hjob, hpri, and_assoc]
        exact h.count_rest hqueue p k
      inAgenda := by
        intro t' k
        have hold := h.inAgenda t' k
        rcases eq_or_ne t' t with rfl | ht
        · rw [Function.update_self, List.map_append, List.count_append, hold]
          rcases eq_or_ne k j with rfl | hk
          · simp [hnone]
          · rw [Function.update_of_ne hk]
            simp [hk.symm]
        · rw [Function.update_of_ne ht, hold]
          rcases eq_or_ne k j with rfl | hk
          · simp [hnone, ht.symm]
          · rw [Function.update_of_ne hk]
      isDue := by
        intro k t' hk
        rw [hjob, htime]
        rcases eq_or_ne k j with rfl | hne
        · rw [setJob_self]
          exact ⟨hleft, h.numJobs ▸ hlt, Or.inl hio⟩
        · rw [Function.update_of_ne hne] at hk
          rw [setJob_of_ne jb hne]
          exact h.isDue k t' hk
      notDoingIo := by
        intro k hk hdue
        have hne : k ≠ j := fun heq => by simp [heq] at hdue
        rw [Function.update_of_ne hne] at hdue
        rw [hjob, setJob_of_ne jb hne]
        exact h.notDoingIo k hk hdue
      timeLeft := by
        intro k hk
        rw [hjob, htime]
        exact h.timeLeft k hk
      finishedJobs := by
        simp only [hjob, htime]
        exact h.finishedJobs
      begins := by
        intro k hk
        exact mem_addEvent (h.begins k hk) }

theorem setJob_setJob (s : State) (j : ℕ) (a b : Job) :
    (s.setJob j a).setJob j b = s.setJob j b := by
  rw [State.setJob, State.setJob, Function.update_idem]
  rfl

theorem issueIo_eq (c : Config) (hqueue : s.queue q = j :: rest) : ∃ jb,
    issueIo c s q j = some (((s.setQueue q rest).setJob j jb).addEvent
      (s.currTime + c.ioTime) (j, .ioDone)) ∧
    jb.currPri = (s.job j).currPri ∧ jb.timeLeft = (s.job j).timeLeft ∧ jb.doingIo = true := by
  rw [issueIo, pop_eq hqueue]
  by_cases hstay : c.stay
  · refine ⟨{ s.job j with
      doingIo := true
      ticksLeft := c.quantum q
      allotLeft := c.allotment q }, ?_, rfl, rfl, rfl⟩
    simp only [hstay, if_true, Option.bind_eq_bind, Option.bind_some, setJob_setJob, setJob_self]
    rfl
  · refine ⟨{ s.job j with doingIo := true }, ?_, rfl, rfl, rfl⟩
    simp only [hstay, Bool.false_eq_true, if_false, Option.bind_eq_bind, Option.bind_some]
    rfl

theorem endQuantum_eq {s' : State} (issuedIo : Bool)
    (hpop : (if issuedIo = false then pop s q j else some s) = some s')
    (hlevel : (s'.job j).currPri = q) (hq : q < c.numQueues) : ∃ jb,
    endQuantum c s q j issuedIo = some (requeue (s'.setJob j jb) jb.currPri j issuedIo) ∧
    jb.currPri < c.numQueues ∧ jb.timeLeft = (s'.job j).timeLeft ∧
    jb.doingIo = (s'.job j).doingIo := by
  rw [endQuantum, hpop]
  simp only [Option.bind_eq_bind, Option.bind_some]
  split
  · split
    · exact ⟨_, rfl, by dsimp only; omega, rfl, rfl⟩
    · refine ⟨{ s'.job j with
        ticksLeft := c.quantum q
        allotLeft := c.allotment q }, ?_, ?_, rfl, rfl⟩
      · dsimp only
        rw [hlevel]
      · dsimp only
        rw [hlevel]
        exact hq
  · refine ⟨{ s'.job j with
      allotLeft := (s'.job j).allotLeft - 1
      ticksLeft := c.quantum q }, ?_, ?_, rfl, rfl⟩
    · dsimp only
      rw [hlevel]
    · dsimp only
      rw [hlevel]
      exact hq

/-! ## The tick -/

/-- The events still to come are those the scheduler has recorded. -/
def Placed (c : Config) (jobs : List JobSpec) (s : State) : Prop :=
  ∃ due, Queued c jobs (agendaFrom s.currTime s.ioDone) due s

theorem agendaFrom_addEvent {now time : ℕ} (h : now ≤ time) (ioDone : ℕ → List (ℕ × EventType))
    (event : ℕ × EventType) :
    Function.update (agendaFrom now ioDone) time (agendaFrom now ioDone time ++ [event]) =
      agendaFrom now (Function.update ioDone time (ioDone time ++ [event])) := by
  funext t
  rcases eq_or_ne t time with rfl | ht
  · rw [Function.update_self, agendaFrom, agendaFrom, if_neg h.not_gt, if_neg h.not_gt,
      Function.update_self]
  · rw [Function.update_of_ne ht, agendaFrom, agendaFrom, Function.update_of_ne ht]

/-- After an I/O the job is due at an event; a quantum that ends with it only
changes the job's level and shares. -/
theorem issueIo_spec (h : Queued c jobs (agendaFrom s.currTime s.ioDone) due s)
    (hqueue : s.queue q = j :: rest) (ended : Prop) [Decidable ended] : ∃ s',
    ((issueIo c s q j).bind fun s => if ended then endQuantum c s q j true else some s) =
      some s' ∧ Placed c jobs s' ∧ s'.ticks = s.ticks := by
  obtain ⟨hw, hlevel⟩ := h.head hqueue
  obtain ⟨jb, heq, hpri, htime, hio⟩ := issueIo_eq c hqueue
  have hblocked := queued_blocked h hqueue hpri htime hio (s.currTime + c.ioTime)
  rw [agendaFrom_addEvent (Nat.le_add_right ..)] at hblocked
  rw [heq, Option.bind_some]
  split
  · next hended =>
      have hjob : (((s.setQueue q rest).setJob j jb).addEvent (s.currTime + c.ioTime)
          (j, .ioDone)).job j = jb := setJob_self ..
      obtain ⟨jb', heq', hlevel', htime', hio'⟩ := endQuantum_eq (c := c) true
        (if_neg nofun) (hjob ▸ hpri.trans hlevel.symm) (hlevel ▸ h.level j hw.1)
      exact ⟨_, heq', ⟨_, queued_setJob hblocked (by simp) hlevel' htime' hio'⟩, rfl⟩
  · exact ⟨_, rfl, ⟨_, hblocked⟩, rfl⟩

theorem endQuantum_spec (h : Queued c jobs (agendaFrom s.currTime s.ioDone) due s)
    (hqueue : s.queue q = j :: rest) : ∃ s', endQuantum c s q j false = some s' ∧
      Placed c jobs s' ∧ s'.ticks = s.ticks := by
  obtain ⟨hw, hlevel⟩ := h.head hqueue
  obtain ⟨jb, heq, hlevel', htime, hio⟩ := endQuantum_eq (c := c) false
    ((if_pos rfl).trans (pop_eq hqueue)) hlevel.symm (hlevel ▸ h.level j hw.1)
  exact ⟨_, heq, ⟨_, queued_requeue h hqueue hlevel' htime hio⟩, rfl⟩

/-- The rest of a tick after which the job has time left. -/
theorem unfinished_spec (h : Queued c jobs (agendaFrom s.currTime s.ioDone) due s)
    (hqueue : s.queue q = j :: rest) (issuedIo : Bool) (ended : Prop) [Decidable ended] : ∃ s',
    ((if issuedIo = true then issueIo c s q j else some s).bind fun s =>
      if ended then endQuantum c s q j issuedIo else some s) = some s' ∧
      Placed c jobs s' ∧ s'.ticks = s.ticks := by
  cases issuedIo with
  | true => exact issueIo_spec h hqueue ended
  | false =>
      rw [if_neg Bool.false_ne_true, Option.bind_some]
      split
      · exact endQuantum_spec h hqueue
      · exact ⟨_, rfl, ⟨due, h⟩, rfl⟩

theorem runJob_spec (h : Queued c jobs (agendaFrom (s.currTime + 1) s.ioDone) due s)
    (hqueue : s.queue q = j :: rest) : ∃ s', runJob c s q = some s' ∧ Placed c jobs s' ∧
      s'.ticks = Function.update s.ticks j (s.ticks j + 1) := by
  obtain ⟨hw, hlevel⟩ := h.head hqueue
  have hcharged := charge_timeLeft s j
  have hleft := hw.2.1
  have hhead : (s.queue q).head? = some j := by rw [hqueue, List.head?_cons]
  have hnonneg : ¬ ((charge s j).job j).timeLeft < 0 := by omega
  rw [runJob, hhead]
  simp only [Option.bind_eq_bind, Option.bind_some]
  rw [if_neg (fun hne => hne hlevel.symm), if_neg hnonneg]
  by_cases hlast : (s.job j).timeLeft = 1
  · rw [if_pos (by omega), finishJob_eq hqueue]
    exact ⟨_, rfl, ⟨due, queued_finishedState h hqueue hlast (s.currTime + 1)⟩, rfl⟩
  · rw [if_neg (by omega)]
    have hrun : Queued c jobs (agendaFrom (s.currTime + 1) s.ioDone) due
        { charge s j with currTime := s.currTime + 1 } := by
      obtain ⟨hnum, hlev, hin, hag, hdue, hnot, htime, hfin, hbegins⟩ :=
        queued_charge h (show 1 < (s.job j).timeLeft by omega)
      exact ⟨hnum, hlev, hin, hag, hdue, hnot, htime, hfin, hbegins⟩
    exact unfinished_spec (s := { charge s j with currTime := s.currTime + 1 }) hrun hqueue _ _

end OsLabs.Mlfq
