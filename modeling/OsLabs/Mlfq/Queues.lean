import Mathlib
import OsLabs.Mlfq.Scheduler

/-!
# Where the jobs are

A job that has work left is either due at one event still to come or in the
queue of its level, once. Boosts and events keep this.
-/

namespace OsLabs.Mlfq

/-- A job that has work left and is due at no event. -/
def Waiting (s : State) (due : ℕ → Option ℕ) (j : ℕ) : Prop :=
  j < s.numJobs ∧ 0 < (s.job j).timeLeft ∧ due j = none

instance (s : State) (due : ℕ → Option ℕ) (j : ℕ) : Decidable (Waiting s due j) :=
  inferInstanceAs (Decidable (_ ∧ _ ∧ _))

/-- The events of `agenda` are those still to come: `due` tells the time of a
job's event, at which its I/O is done or it begins. -/
structure Queued (c : Config) (jobs : List JobSpec) (agenda : ℕ → List (ℕ × EventType))
    (due : ℕ → Option ℕ) (s : State) : Prop where
  numJobs : s.numJobs = jobs.length
  level : ∀ j < s.numJobs, (s.job j).currPri < c.numQueues
  inQueue : ∀ q j, (s.queue q).count j =
    if Waiting s due j ∧ q = (s.job j).currPri then 1 else 0
  inAgenda : ∀ t j, ((agenda t).map Prod.fst).count j = if due j = some t then 1 else 0
  isDue : ∀ j t, due j = some t → 0 < (s.job j).timeLeft ∧ ∃ h : j < jobs.length,
    (s.job j).doingIo = true ∨ jobs[j].startTime = t
  notDoingIo : ∀ j < s.numJobs, due j = none → (s.job j).doingIo = false
  timeLeft : ∀ j, (h : j < jobs.length) →
    0 ≤ (s.job j).timeLeft ∧ s.ticks j + (s.job j).timeLeft = jobs[j].runTime
  finishedJobs : s.finishedJobs =
    ((Finset.range s.numJobs).filter fun j => (s.job j).timeLeft = 0).card
  begins : ∀ j, (h : j < jobs.length) → (j, .jobBegins) ∈ s.ioDone jobs[j].startTime

/-- The events from `now` on. -/
def agendaFrom (now : ℕ) (ioDone : ℕ → List (ℕ × EventType)) (t : ℕ) : List (ℕ × EventType) :=
  if t < now then [] else ioDone t

variable {c : Config} {jobs : List JobSpec} {agenda : ℕ → List (ℕ × EventType)}
  {due : ℕ → Option ℕ} {s : State}

theorem Queued.mem_queue_iff (h : Queued c jobs agenda due s) {q j : ℕ} :
    j ∈ s.queue q ↔ Waiting s due j ∧ q = (s.job j).currPri := by
  rw [← List.count_pos_iff, h.inQueue]
  split <;> simp_all

theorem Queued.mem_events_iff (h : Queued c jobs agenda due s) {t j : ℕ} :
    j ∈ (agenda t).map Prod.fst ↔ due j = some t := by
  rw [← List.count_pos_iff, h.inAgenda]
  split <;> simp_all

theorem Queued.queue_eq_nil (h : Queued c jobs agenda due s) {q : ℕ} (hq : c.numQueues ≤ q) :
    s.queue q = [] := by
  refine List.eq_nil_iff_forall_not_mem.mpr fun j hj => ?_
  obtain ⟨hw, hlevel⟩ := h.mem_queue_iff.mp hj
  have := h.level j hw.1
  omega

/-! ## The boost -/

theorem hiQueue_lt (c : Config) : c.hiQueue < c.numQueues :=
  Nat.sub_lt c.numQueues_pos Nat.one_pos

/-- The jobs of a level that the boost takes to the highest queue. -/
def raised (s : State) (q : ℕ) : List ℕ := (s.queue q).filter fun j => (s.job j).doingIo = false

/-- The queues after the boost has emptied the levels below `n`. -/
def boostedQueue (c : Config) (s : State) (n q : ℕ) : List ℕ :=
  if q = c.hiQueue then s.queue q ++ (List.range n).flatMap (raised s)
  else if q < n then [] else s.queue q

theorem foldl_boostQueue (c : Config) (s : State) (n : ℕ) (hn : n ≤ c.hiQueue) :
    (List.range n).foldl (boostQueue c) s = { s with queue := boostedQueue c s n } := by
  induction n with
  | zero =>
      refine congrArg (fun queue => { s with queue }) (funext fun q => ?_)
      rw [boostedQueue, List.range_zero, List.flatMap_nil, List.append_nil,
        if_neg (Nat.not_lt_zero q), ite_self]
  | succ n ih =>
      have hne : n ≠ c.hiQueue := by omega
      have hlevel : boostedQueue c s n n = s.queue n := by
        rw [boostedQueue, if_neg hne, if_neg (lt_irrefl n)]
      rw [List.range_succ, List.foldl_append, ih (Nat.le_of_succ_le hn), List.foldl_cons,
        List.foldl_nil, boostQueue]
      refine congrArg (fun queue => { s with queue }) (funext fun q => ?_)
      simp only [State.setQueue, hlevel]
      rcases eq_or_ne q n with rfl | hqn
      · rw [Function.update_self, boostedQueue, if_neg hne, if_pos (Nat.lt_succ_self q)]
      · rw [Function.update_of_ne hqn]
        rcases eq_or_ne q c.hiQueue with rfl | hq
        · rw [Function.update_self, boostedQueue, boostedQueue, if_pos rfl, if_pos rfl,
            List.range_succ, List.flatMap_append, List.flatMap_singleton, List.append_assoc]
          rfl
        · rw [Function.update_of_ne hq, boostedQueue, boostedQueue, if_neg hq, if_neg hq]
          exact if_congr (by omega) rfl rfl

/-- What the boost makes of a job. -/
def boosted (c : Config) (jb : Job) : Job :=
  if jb.timeLeft > 0 then
    { jb with
      currPri := c.hiQueue
      ticksLeft := c.quantum c.hiQueue
      allotLeft := c.allotment c.hiQueue }
  else jb

theorem boostJob_eq (c : Config) (s : State) (j : ℕ) :
    boostJob c s j = s.setJob j (boosted c (s.job j)) := by
  rw [boostJob, boosted]
  split
  · rfl
  · rw [State.setJob, Function.update_eq_self]

theorem foldl_boostJob (c : Config) (s : State) (n : ℕ) :
    (List.range n).foldl (boostJob c) s =
      { s with job := fun j => if j < n then boosted c (s.job j) else s.job j } := by
  induction n with
  | zero => simp
  | succ n ih =>
      rw [List.range_succ, List.foldl_append, ih, List.foldl_cons, List.foldl_nil, boostJob_eq]
      refine congrArg (fun job => { s with job }) (funext fun j => ?_)
      rcases lt_trichotomy j n with hlt | rfl | hgt
      · simp [hlt.ne, hlt, Nat.lt_succ_of_lt hlt]
      · simp
      · simp [hgt.ne', hgt.not_gt, (Nat.succ_le_of_lt hgt).not_gt]

theorem boosted_timeLeft (c : Config) (jb : Job) : (boosted c jb).timeLeft = jb.timeLeft := by
  rw [boosted]
  split <;> rfl

theorem boosted_doingIo (c : Config) (jb : Job) : (boosted c jb).doingIo = jb.doingIo := by
  rw [boosted]
  split <;> rfl

theorem boosted_currPri {jb : Job} (h : 0 < jb.timeLeft) : (boosted c jb).currPri = c.hiQueue := by
  rw [boosted, if_pos h]

/-- The state after a boost. -/
def boostedState (c : Config) (s : State) : State :=
  { s with
    job := fun j => if j < s.numJobs then boosted c (s.job j) else s.job j
    queue := boostedQueue c s c.hiQueue }

theorem checkBoost_cases (c : Config) (s : State) :
    checkBoost c s = boostedState c s ∨ checkBoost c s = s := by
  rw [checkBoost]
  split
  · left
    rw [← Config.hiQueue, foldl_boostQueue c s c.hiQueue le_rfl, foldl_boostJob]
    rfl
  · exact Or.inr rfl

theorem Queued.count_raised (h : Queued c jobs agenda due s) (q j : ℕ) :
    (raised s q).count j = if Waiting s due j ∧ q = (s.job j).currPri then 1 else 0 := by
  by_cases hw : Waiting s due j
  · rw [raised, List.count_filter (by simpa using h.notDoingIo j hw.1 hw.2.2), h.inQueue]
  · rw [if_neg fun hc => hw hc.1]
    refine Nat.eq_zero_of_le_zero ?_
    calc (raised s q).count j ≤ (s.queue q).count j := List.filter_sublist.count_le j
      _ = 0 := by rw [h.inQueue, if_neg fun hc => hw hc.1]

theorem sum_range_ite (P : Prop) [Decidable P] (a n : ℕ) :
    ((List.range n).map fun q => if P ∧ q = a then 1 else 0).sum =
      if P ∧ a < n then 1 else 0 := by
  induction n with
  | zero => simp
  | succ n ih =>
      rw [List.range_succ, List.map_append, List.sum_append, ih, List.map_singleton,
        List.sum_singleton]
      by_cases hP : P
      · simp only [hP, true_and]
        split_ifs <;> omega
      · simp [hP]

theorem Queued.boostedState (h : Queued c jobs agenda due s) :
    Queued c jobs agenda due (boostedState c s) := by
  have htime (j : ℕ) : ((Mlfq.boostedState c s).job j).timeLeft = (s.job j).timeLeft := by
    simp only [Mlfq.boostedState]
    split
    · exact boosted_timeLeft c (s.job j)
    · rfl
  have hio (j : ℕ) : ((Mlfq.boostedState c s).job j).doingIo = (s.job j).doingIo := by
    simp only [Mlfq.boostedState]
    split
    · exact boosted_doingIo c (s.job j)
    · rfl
  have hwaiting (j : ℕ) : Waiting (Mlfq.boostedState c s) due j ↔ Waiting s due j := by
    rw [Waiting, htime]
    rfl
  have hpri (j : ℕ) (hw : Waiting s due j) :
      ((Mlfq.boostedState c s).job j).currPri = c.hiQueue := by
    simp only [Mlfq.boostedState, if_pos hw.1]
    exact boosted_currPri hw.2.1
  exact
    { numJobs := h.numJobs
      level := by
        intro j hj
        simp only [Mlfq.boostedState, if_pos (show j < s.numJobs from hj), boosted]
        split
        · exact hiQueue_lt c
        · exact h.level j hj
      inQueue := by
        intro q j
        have hcount : ((Mlfq.boostedState c s).queue q).count j =
            if Waiting s due j ∧ q = c.hiQueue then 1 else 0 := by
          simp only [Mlfq.boostedState, boostedQueue]
          rcases eq_or_ne q c.hiQueue with rfl | hq
          · -- a waiting job was in the highest queue or in one of those below
            rw [if_pos rfl, List.count_append, List.count_flatMap, h.inQueue]
            simp only [Function.comp_def, h.count_raised, sum_range_ite, and_true]
            by_cases hw : Waiting s due j
            · have := h.level j hw.1
              simp only [hw, true_and, if_true, Config.hiQueue]
              split_ifs <;> omega
            · simp [hw]
          · have hnot : ¬ (Waiting s due j ∧ q = c.hiQueue) := fun hc => hq hc.2
            rw [if_neg hq, if_neg hnot]
            rcases Nat.lt_or_ge q c.hiQueue with hlow | hhigh
            · rw [if_pos hlow, List.count_nil]
            · have hlevel : c.numQueues ≤ q := by
                have := hiQueue_lt c
                rw [Config.hiQueue] at *
                omega
              rw [if_neg hhigh.not_gt, h.queue_eq_nil hlevel, List.count_nil]
        rw [hcount]
        by_cases hw : Waiting s due j
        · simp only [hwaiting, hpri j hw]
        · simp only [hwaiting, hw, false_and]
      inAgenda := h.inAgenda
      isDue := by
        intro j t hdue
        rw [htime, hio]
        exact h.isDue j t hdue
      notDoingIo := by
        intro j hj hdue
        rw [hio]
        exact h.notDoingIo j hj hdue
      timeLeft := by
        intro j hj
        rw [htime]
        exact h.timeLeft j hj
      finishedJobs := by
        simp only [htime]
        exact h.finishedJobs
      begins := h.begins }

theorem Queued.checkBoost (h : Queued c jobs agenda due s) :
    Queued c jobs agenda due (checkBoost c s) := by
  rcases checkBoost_cases c s with heq | heq
  · rw [heq]
    exact h.boostedState
  · rw [heq]
    exact h

/-! ## Events -/

theorem eventDone_eq (c : Config) (s : State) (j : ℕ) (type : EventType) :
    ∃ jb l, eventDone c s (j, type) = (s.setJob j jb).setQueue (s.job j).currPri l ∧
      jb.currPri = (s.job j).currPri ∧ jb.timeLeft = (s.job j).timeLeft ∧ jb.doingIo = false ∧
      ∀ k, l.count k = (s.queue (s.job j).currPri).count k + if k = j then 1 else 0 := by
  refine ⟨_, _, rfl, rfl, rfl, rfl, fun k => ?_⟩
  split
  · rw [List.count_append, List.count_singleton]
    exact congrArg _ (if_congr (by rw [beq_iff_eq, eq_comm]) rfl rfl)
  · rw [List.count_cons]
    exact congrArg _ (if_congr (by rw [beq_iff_eq, eq_comm]) rfl rfl)

theorem Queued.eventDone (h : Queued c jobs agenda due s) {t j : ℕ} {type : EventType}
    {rest : List (ℕ × EventType)} (hagenda : agenda t = (j, type) :: rest) :
    Queued c jobs (Function.update agenda t rest) (Function.update due j none)
      (eventDone c s (j, type)) := by
  have hdue : due j = some t := h.mem_events_iff.mp (by rw [hagenda]; exact List.mem_cons_self ..)
  obtain ⟨hleft, hj, -⟩ := h.isDue j t hdue
  have hlt : j < s.numJobs := h.numJobs ▸ hj
  have hnot : ¬ Waiting s due j := fun hw => by simp [hw.2.2] at hdue
  obtain ⟨jb, l, heq, hpri, htime, hio, hcount⟩ := eventDone_eq c s j type
  rw [heq]
  replace hpri := setJob_congr Job.currPri hpri
  replace htime := setJob_congr Job.timeLeft htime
  have hwaiting (k : ℕ) : Waiting ((s.setJob j jb).setQueue (s.job j).currPri l)
      (Function.update due j none) k ↔ k = j ∨ k ≠ j ∧ Waiting s due k := by
    simp only [Waiting, setQueue_job, htime]
    rcases eq_or_ne k j with rfl | hk
    · simp only [Function.update_self, true_or, iff_true, and_true]
      exact ⟨hlt, hleft⟩
    · rw [Function.update_of_ne hk]
      simp only [hk, false_or, ne_eq, not_false_eq_true, true_and]
      rfl
  exact
    { numJobs := h.numJobs
      level := by
        intro k hk
        rw [setQueue_job, hpri]
        exact h.level k hk
      inQueue := by
        intro q k
        simp only [hwaiting, setQueue_job, hpri]
        rcases eq_or_ne q (s.job j).currPri with rfl | hq
        · rw [setQueue_self, hcount, h.inQueue]
          rcases eq_or_ne k j with rfl | hk
          · simp [hnot]
          · simp [hk]
        · rw [setQueue_of_ne l hq, setJob_queue, h.inQueue]
          rcases eq_or_ne k j with rfl | hk
          · simp [hnot, hq]
          · simp [hk]
      inAgenda := by
        intro t' k
        have hold := h.inAgenda t' k
        rcases eq_or_ne t' t with rfl | ht
        · rw [hagenda, List.map_cons, List.count_cons] at hold
          rw [Function.update_self]
          rcases eq_or_ne k j with rfl | hk
          · rw [Function.update_self]
            simp only [hdue, beq_self_eq_true, if_true] at hold
            simp only [reduceCtorEq, if_false]
            omega
          · rw [Function.update_of_ne hk]
            simpa [hk.symm] using hold
        · rw [Function.update_of_ne ht, hold]
          rcases eq_or_ne k j with rfl | hk
          · simp [hdue, ht.symm]
          · rw [Function.update_of_ne hk]
      isDue := by
        intro k t' hk
        rcases eq_or_ne k j with rfl | hne
        · simp at hk
        · rw [Function.update_of_ne hne] at hk
          rw [setQueue_job, setJob_of_ne jb hne]
          exact h.isDue k t' hk
      notDoingIo := by
        intro k hk hnone
        rw [setQueue_job]
        rcases eq_or_ne k j with rfl | hne
        · rw [setJob_self, hio]
        · rw [Function.update_of_ne hne] at hnone
          rw [setJob_of_ne jb hne]
          exact h.notDoingIo k hk hnone
      timeLeft := by
        intro k hk
        rw [setQueue_job, htime]
        exact h.timeLeft k hk
      finishedJobs := by
        simp only [setQueue_job, htime]
        exact h.finishedJobs
      begins := h.begins }

/-- The events still to come once those at `t` are done. -/
def dueAfter (t : ℕ) (due : ℕ → Option ℕ) (j : ℕ) : Option ℕ :=
  if due j = some t then none else due j

theorem Queued.foldl_eventDone {t : ℕ} (events : List (ℕ × EventType))
    (h : Queued c jobs agenda due s) (hagenda : agenda t = events) :
    Queued c jobs (Function.update agenda t []) (dueAfter t due)
      (events.foldl (Mlfq.eventDone c) s) := by
  induction events generalizing agenda due s with
  | nil =>
      have hdue : dueAfter t due = due := funext fun j => by
        refine if_neg fun hj => ?_
        rw [← h.mem_events_iff, hagenda] at hj
        exact List.not_mem_nil hj
      have hsame : Function.update agenda t [] = agenda := by
        rw [← hagenda, Function.update_eq_self]
      rw [hsame, hdue]
      exact h
  | cons event events ih =>
      obtain ⟨j, type⟩ := event
      have hdue : dueAfter t (Function.update due j none) = dueAfter t due := funext fun k => by
        rcases eq_or_ne k j with rfl | hk
        · have hk : due k = some t :=
            h.mem_events_iff.mp (by rw [hagenda]; exact List.mem_cons_self ..)
          rw [dueAfter, dueAfter, Function.update_self, if_pos hk, ite_self]
        · rw [dueAfter, dueAfter, Function.update_of_ne hk]
      have hstep := ih (h.eventDone hagenda) (Function.update_self ..)
      rw [Function.update_idem, hdue] at hstep
      exact hstep

theorem foldl_eventDone_eq (c : Config) (events : List (ℕ × EventType)) (s : State) :
    ∃ job queue, events.foldl (eventDone c) s = { s with job, queue } := by
  induction events generalizing s with
  | nil => exact ⟨s.job, s.queue, rfl⟩
  | cons event events ih =>
      obtain ⟨job, queue, heq⟩ := ih (eventDone c s event)
      exact ⟨job, queue, heq⟩

theorem checkBoost_eq (c : Config) (s : State) :
    ∃ job queue, checkBoost c s = { s with job, queue } := by
  rcases checkBoost_cases c s with heq | heq
  · exact ⟨_, _, heq⟩
  · exact ⟨s.job, s.queue, heq⟩

theorem schedulingPoint_eq (c : Config) (s : State) :
    ∃ job queue, schedulingPoint c s = { s with job, queue } := by
  obtain ⟨job, queue, hboost⟩ := checkBoost_eq c s
  obtain ⟨job', queue', hdone⟩ := foldl_eventDone_eq c (s.ioDone s.currTime) { s with job, queue }
  refine ⟨job', queue', ?_⟩
  rw [schedulingPoint, checkIoDone, hboost, hdone]

theorem update_agendaFrom (t : ℕ) (ioDone : ℕ → List (ℕ × EventType)) :
    Function.update (agendaFrom t ioDone) t [] = agendaFrom (t + 1) ioDone := by
  funext t'
  rcases lt_trichotomy t' t with hlt | rfl | hgt
  · rw [Function.update_of_ne hlt.ne, agendaFrom, agendaFrom, if_pos hlt,
      if_pos (Nat.lt_succ_of_lt hlt)]
  · rw [Function.update_self, agendaFrom, if_pos (Nat.lt_succ_self t')]
  · rw [Function.update_of_ne hgt.ne', agendaFrom, agendaFrom, if_neg hgt.not_gt,
      if_neg (Nat.succ_le_of_lt hgt).not_gt]

/-- At the scheduling point the boost and the events of the time are done. -/
theorem Queued.schedulingPoint (h : Queued c jobs (agendaFrom s.currTime s.ioDone) due s) :
    Queued c jobs (agendaFrom (s.currTime + 1) s.ioDone) (dueAfter s.currTime due)
      (schedulingPoint c s) := by
  have hboost := h.checkBoost
  obtain ⟨job, queue, heq⟩ := checkBoost_eq c s
  have hagenda : agendaFrom s.currTime s.ioDone s.currTime = s.ioDone s.currTime :=
    if_neg (lt_irrefl _)
  have hdone := hboost.foldl_eventDone (s.ioDone s.currTime) hagenda
  rw [update_agendaFrom] at hdone
  rw [Mlfq.schedulingPoint, checkIoDone]
  simp only [heq] at hdone ⊢
  exact hdone

/-! ## The highest queue -/

theorem findQueueFrom_some {queue : ℕ → List ℕ} {n q : ℕ} (h : findQueueFrom queue n = some q) :
    queue q ≠ [] ∧ ∀ p ≤ n, queue p ≠ [] → p ≤ q := by
  induction n with
  | zero =>
      rw [findQueueFrom] at h
      split at h
      · next hpos =>
          obtain rfl := Option.some.inj h
          exact ⟨List.length_pos_iff.mp hpos, fun p hp _ => hp⟩
      · cases h
  | succ n ih =>
      rw [findQueueFrom] at h
      split at h
      · next hpos =>
          obtain rfl := Option.some.inj h
          exact ⟨List.length_pos_iff.mp hpos, fun p hp _ => hp⟩
      · next hempty =>
          refine ⟨(ih h).1, fun p hp hne => ?_⟩
          rcases Nat.le_succ_iff.mp hp with hle | rfl
          · exact (ih h).2 p hle hne
          · exact absurd (List.length_pos_iff.mpr hne) hempty

theorem findQueueFrom_none {queue : ℕ → List ℕ} {n : ℕ} (h : findQueueFrom queue n = none) :
    ∀ p ≤ n, queue p = [] := by
  induction n with
  | zero =>
      intro p hp
      rw [findQueueFrom] at h
      split at h
      · cases h
      · next hempty =>
          rw [Nat.le_zero.mp hp]
          exact List.length_eq_zero_iff.mp (Nat.eq_zero_of_not_pos hempty)
  | succ n ih =>
      intro p hp
      rw [findQueueFrom] at h
      split at h
      · cases h
      · next hempty =>
          rcases Nat.le_succ_iff.mp hp with hle | rfl
          · exact ih h p hle
          · exact List.length_eq_zero_iff.mp (Nat.eq_zero_of_not_pos hempty)

theorem Queued.mem_queue (h : Queued c jobs agenda due s) {j : ℕ} (hw : Waiting s due j) :
    j ∈ s.queue (s.job j).currPri :=
  h.mem_queue_iff.mpr ⟨hw, rfl⟩

theorem Queued.level_le (h : Queued c jobs agenda due s) {j : ℕ} (hw : Waiting s due j) :
    (s.job j).currPri ≤ c.hiQueue :=
  Nat.le_sub_one_of_lt (h.level j hw.1)

/-- The chosen job waits, and no waiting job has a higher priority. -/
theorem Queued.findQueue_some (h : Queued c jobs agenda due s) {q : ℕ}
    (hq : findQueue c s = some q) : ∃ j rest, s.queue q = j :: rest ∧ Waiting s due j ∧
      (s.job j).currPri = q ∧ ∀ k, Waiting s due k → (s.job k).currPri ≤ q := by
  obtain ⟨hne, hhighest⟩ := findQueueFrom_some hq
  obtain ⟨j, rest, hqueue⟩ := List.exists_cons_of_ne_nil hne
  obtain ⟨hw, hlevel⟩ := h.mem_queue_iff.mp (show j ∈ s.queue q by
    rw [hqueue]; exact List.mem_cons_self ..)
  exact ⟨j, rest, hqueue, hw, hlevel.symm, fun k hk =>
    hhighest _ (h.level_le hk) (List.ne_nil_of_mem (h.mem_queue hk))⟩

theorem Queued.findQueue_none (h : Queued c jobs agenda due s) (hq : findQueue c s = none)
    (j : ℕ) : ¬ Waiting s due j := by
  intro hw
  have hmem := h.mem_queue hw
  rw [findQueueFrom_none hq _ (h.level_le hw)] at hmem
  exact List.not_mem_nil hmem

end OsLabs.Mlfq
