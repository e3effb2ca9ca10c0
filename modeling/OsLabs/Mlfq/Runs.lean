import Mathlib
import OsLabs.Lib.Transition
import OsLabs.Mlfq.Execution

/-!
# Whole runs of the MLFQ simulator

From the job list on, every job is where it belongs at every scheduling point,
and the main loop ends with every job run for its time.
-/

namespace OsLabs.Mlfq

open OsLabs.Loop OsLabs.Transition

variable {c : Config} {jobs : List JobSpec} {due : ℕ → Option ℕ} {s : State}

/-! ## The start -/

/-- The state after the job list has been read. -/
structure Loaded (c : Config) (jobs : List JobSpec) (s : State) : Prop where
  numJobs : s.numJobs = jobs.length
  currTime : s.currTime = 0
  queue : ∀ q, s.queue q = []
  ticks : ∀ j, s.ticks j = 0
  finishedJobs : s.finishedJobs = 0
  job : ∀ j, (h : j < jobs.length) → s.job j = newJob c jobs[j]
  events : ∀ t j, ((s.ioDone t).map Prod.fst).count j =
    if jobs[j]?.map JobSpec.startTime = some t then 1 else 0
  begins : ∀ j, (h : j < jobs.length) → (j, .jobBegins) ∈ s.ioDone jobs[j].startTime

theorem Loaded.addJob (h : Loaded c jobs s) (spec : JobSpec) :
    Loaded c (jobs ++ [spec]) (addJob c s spec) where
  numJobs := by
    rw [List.length_append, ← h.numJobs]
    rfl
  currTime := h.currTime
  queue := h.queue
  ticks := h.ticks
  finishedJobs := h.finishedJobs
  job := by
    intro j hj
    have hjob : (Mlfq.addJob c s spec).job = (s.setJob s.numJobs (newJob c spec)).job := rfl
    rw [hjob]
    rcases Nat.lt_or_ge j jobs.length with hlt | hge
    · rw [setJob_of_ne _ (by rw [h.numJobs]; exact hlt.ne), h.job j hlt,
        List.getElem_append_left hlt]
    · obtain rfl : j = s.numJobs := by
        rw [h.numJobs]
        simp only [List.length_append, List.length_singleton] at hj
        omega
      rw [setJob_self, List.getElem_append_right hge]
      simp
  events := by
    intro t j
    have hold := h.events t j
    have hevents : (Mlfq.addJob c s spec).ioDone =
        (s.addEvent spec.startTime (s.numJobs, .jobBegins)).ioDone := rfl
    rw [hevents, State.addEvent, h.numJobs]
    rcases lt_trichotomy j jobs.length with hlt | rfl | hgt
    · rw [List.getElem?_append_left hlt, ← hold]
      rcases eq_or_ne t spec.startTime with rfl | ht
      · simp [hlt.ne']
      · simp [ht]
    · rw [List.getElem?_eq_none le_rfl] at hold
      rcases eq_or_ne t spec.startTime with rfl | ht
      · simpa using hold
      · simpa [ht, ht.symm] using hold
    · rw [List.getElem?_eq_none hgt.le] at hold
      rw [List.getElem?_eq_none (by simpa using hgt)]
      rcases eq_or_ne t spec.startTime with rfl | ht
      · simpa [hgt.ne] using hold
      · simpa [ht] using hold
  begins := by
    intro j hj
    have hevents : (Mlfq.addJob c s spec).ioDone =
        (s.addEvent spec.startTime (s.numJobs, .jobBegins)).ioDone := rfl
    rw [hevents]
    rcases Nat.lt_or_ge j jobs.length with hlt | hge
    · rw [List.getElem_append_left hlt]
      exact mem_addEvent (h.begins j hlt)
    · obtain rfl : j = jobs.length := by
        simp only [List.length_append, List.length_singleton] at hj
        omega
      rw [List.getElem_append_right le_rfl, h.numJobs]
      simp [State.addEvent]

theorem loaded (c : Config) (jobs : List JobSpec) : Loaded c jobs (load c jobs) := by
  induction jobs using List.reverseRecOn with
  | nil =>
      exact ⟨rfl, rfl, fun _ => rfl, fun _ => rfl, rfl, fun j hj => absurd hj (Nat.not_lt_zero j),
        fun t j => by simp [load, init], fun j hj => absurd hj (Nat.not_lt_zero j)⟩
  | append_singleton jobs spec ih =>
      rw [load, List.foldl_append]
      exact ih.addJob spec

/-- Before the main loop every job is due when it begins. -/
theorem Loaded.placed (h : Loaded c jobs s) : Placed c jobs s := by
  have htime (j : ℕ) (hj : j < jobs.length) : (s.job j).timeLeft = jobs[j].runTime := by
    rw [h.job j hj]
    rfl
  have hpos (j : ℕ) (hj : j < jobs.length) : 0 < (s.job j).timeLeft := by
    rw [htime j hj]
    exact jobs[j].runTime_pos
  have hdue (j : ℕ) (hj : j < jobs.length) : jobs[j]?.map JobSpec.startTime ≠ none := by
    rw [List.getElem?_eq_getElem hj]
    nofun
  refine ⟨fun j => jobs[j]?.map JobSpec.startTime, ?_⟩
  exact
    { numJobs := h.numJobs
      level := by
        intro j hj
        rw [h.job j (h.numJobs ▸ hj)]
        exact hiQueue_lt c
      inQueue := by
        intro q j
        rw [h.queue, List.count_nil, if_neg]
        exact fun hc => hdue j (h.numJobs ▸ hc.1.1) hc.1.2.2
      inAgenda := by
        intro t j
        rw [h.currTime, agendaFrom, if_neg (Nat.not_lt_zero t)]
        exact h.events t j
      isDue := by
        intro j t hj
        obtain ⟨spec, hspec, hstart⟩ := Option.map_eq_some_iff.mp hj
        obtain ⟨hlt, rfl⟩ := List.getElem?_eq_some_iff.mp hspec
        exact ⟨hpos j hlt, hlt, Or.inr hstart⟩
      notDoingIo := fun j hj hnone => absurd hnone (hdue j (h.numJobs ▸ hj))
      timeLeft := by
        intro j hj
        rw [h.ticks, Nat.cast_zero, zero_add]
        exact ⟨(hpos j hj).le, htime j hj⟩
      finishedJobs := by
        rw [h.finishedJobs, eq_comm, Finset.card_eq_zero, Finset.filter_eq_empty_iff]
        intro j hj
        exact (hpos j (h.numJobs ▸ Finset.mem_range.mp hj)).ne'
      begins := h.begins }

/-! ## Progress -/

theorem mem_agendaFrom {now t : ℕ} {ioDone : ℕ → List (ℕ × EventType)} {event : ℕ × EventType} :
    event ∈ agendaFrom now ioDone t ↔ now ≤ t ∧ event ∈ ioDone t := by
  rw [agendaFrom]
  split
  · simp
    omega
  · next h => simp [Nat.le_of_not_lt h]

theorem Queued.exists_event {agenda : ℕ → List (ℕ × EventType)}
    (h : Queued c jobs agenda due s) {j t : ℕ} (hdue : due j = some t) :
    ∃ type, (j, type) ∈ agenda t := by
  obtain ⟨⟨_, type⟩, hmem, rfl⟩ := List.mem_map.mp (h.mem_events_iff.mpr hdue)
  exact ⟨type, hmem⟩

/-- As long as the run is not over some job has time left. -/
theorem Queued.exists_unfinished {agenda : ℕ → List (ℕ × EventType)}
    (h : Queued c jobs agenda due s) (hactive : finished s = false) :
    ∃ j < s.numJobs, 0 < (s.job j).timeLeft := by
  by_contra! hall
  have hzero (j : ℕ) (hj : j ∈ Finset.range s.numJobs) : (s.job j).timeLeft = 0 := by
    have hlt := Finset.mem_range.mp hj
    exact le_antisymm (hall j hlt) (h.timeLeft j (h.numJobs ▸ hlt)).1
  have hcount := h.finishedJobs
  rw [Finset.filter_true_of_mem hzero, Finset.card_range] at hcount
  have hlt : s.finishedJobs < s.numJobs := by simpa [finished] using hactive
  omega

/-- An idle tick: nothing happens now, and some event is still to come. -/
theorem idle_events (h : Queued c jobs (agendaFrom s.currTime s.ioDone) due s)
    (hidle : findQueue c (schedulingPoint c s) = none) (hactive : finished s = false) :
    s.ioDone s.currTime = [] ∧ ∃ t > s.currTime, s.ioDone t ≠ [] := by
  have hp := h.schedulingPoint
  obtain ⟨job, queue, heq⟩ := schedulingPoint_eq c s
  have hnone := hp.findQueue_none hidle
  have hactive' : finished (schedulingPoint c s) = false := by
    rw [heq]
    exact hactive
  have hnum : (schedulingPoint c s).numJobs = jobs.length := hp.numJobs
  constructor
  · by_contra hne
    obtain ⟨⟨j, type⟩, hmem⟩ := List.exists_mem_of_ne_nil _ hne
    have hdue : due j = some s.currTime :=
      h.mem_events_iff.mp (List.mem_map_of_mem (mem_agendaFrom.mpr ⟨le_rfl, hmem⟩))
    obtain ⟨hleft, hj, -⟩ := h.isDue j _ hdue
    have hticks : (schedulingPoint c s).ticks = s.ticks := by rw [heq]
    have hbefore := (h.timeLeft j hj).2
    have hafter := (hp.timeLeft j hj).2
    rw [hticks] at hafter
    exact hnone j ⟨hnum ▸ hj, by omega, if_pos hdue⟩
  · obtain ⟨j, hj, hleft⟩ := hp.exists_unfinished hactive'
    cases hdue : dueAfter s.currTime due j with
    | none => exact absurd ⟨hj, hleft, hdue⟩ (hnone j)
    | some t =>
        obtain ⟨type, hmem⟩ := hp.exists_event hdue
        obtain ⟨hlt, hmem⟩ := mem_agendaFrom.mp hmem
        exact ⟨t, hlt, List.ne_nil_of_mem hmem⟩

/-- The time to the next event. -/
noncomputable def gap (s : State) : ℕ := sInf {d | s.ioDone (s.currTime + d) ≠ []}

theorem gap_lt {s' : State} (hnow : s.ioDone s.currTime = [])
    (hlater : ∃ t > s.currTime, s.ioDone t ≠ []) (htime : s'.currTime = s.currTime + 1)
    (hevents : s'.ioDone = s.ioDone) : gap s' < gap s := by
  have hne : {d | s.ioDone (s.currTime + d) ≠ []}.Nonempty := by
    obtain ⟨t, ht, hmem⟩ := hlater
    exact ⟨t - s.currTime, by rwa [Set.mem_ofPred_eq, Nat.add_sub_cancel' ht.le]⟩
  have hmem : s.ioDone (s.currTime + gap s) ≠ [] := Nat.sInf_mem hne
  cases hgap : gap s with
  | zero =>
      rw [hgap] at hmem
      exact absurd hnow hmem
  | succ d =>
      rw [hgap] at hmem
      refine Nat.lt_succ_of_le (Nat.sInf_le ?_)
      rw [Set.mem_ofPred_eq, hevents, htime, Nat.add_right_comm]
      exact hmem

/-- What decreases in every iteration: the ticks to run, then the time to the
next event. -/
noncomputable def remaining (jobs : List JobSpec) (s : State) : ℕ ×ₗ ℕ :=
  toLex (∑ j : Fin jobs.length, (jobs[j].runTime - s.ticks j).toNat, gap s)

theorem iteration_spec (h : Placed c jobs s) (hactive : finished s = false) :
    ∃ s', iteration c s = some s' ∧ Placed c jobs s' ∧ remaining jobs s' < remaining jobs s := by
  obtain ⟨due, h⟩ := h
  have hp := h.schedulingPoint
  obtain ⟨job, queue, heq⟩ := schedulingPoint_eq c s
  rw [iteration]
  cases hq : findQueue c (schedulingPoint c s) with
  | none =>
      obtain ⟨hnow, hlater⟩ := idle_events h hq hactive
      obtain ⟨hnum, hlev, hin, hag, hdue, hnot, htime, hfin, hbegins⟩ := hp
      refine ⟨_, rfl, ⟨dueAfter s.currTime due, hnum, hlev, hin, ?_, hdue, hnot, htime, hfin,
        hbegins⟩, Prod.Lex.lt_iff.mpr (Or.inr ⟨?_, gap_lt hnow hlater ?_ ?_⟩)⟩
      · rw [heq]
        exact hag
      · rw [heq]
        rfl
      · rw [heq]
      · rw [heq]
  | some q =>
      obtain ⟨j, rest, hqueue, hw, -⟩ := hp.findQueue_some hq
      have hj : j < jobs.length := hp.numJobs ▸ hw.1
      have hagenda : agendaFrom (s.currTime + 1) s.ioDone =
          agendaFrom ((schedulingPoint c s).currTime + 1) (schedulingPoint c s).ioDone := by
        rw [heq]
      have hticks : (schedulingPoint c s).ticks = s.ticks := by rw [heq]
      have hleft := (hp.timeLeft j hj).2
      have htime := hw.2.1
      rw [hagenda] at hp
      obtain ⟨s', hrun, hplaced, hticks'⟩ := runJob_spec hp hqueue
      rw [hticks] at hticks' hleft
      have hsum : ∑ k : Fin jobs.length, (jobs[k].runTime - s'.ticks k).toNat <
          ∑ k : Fin jobs.length, (jobs[k].runTime - s.ticks k).toNat := by
        have hle (k : ℕ) : s.ticks k ≤ s'.ticks k := by
          rw [hticks']
          rcases eq_or_ne k j with rfl | hk
          · rw [Function.update_self]
            exact Nat.le_succ _
          · rw [Function.update_of_ne hk]
        have hmore : s'.ticks j = s.ticks j + 1 := by rw [hticks', Function.update_self]
        refine Finset.sum_lt_sum (fun k _ => ?_) ⟨⟨j, hj⟩, Finset.mem_univ _, ?_⟩
        · have := hle k
          omega
        · simp only [Fin.getElem_fin]
          omega
      exact ⟨s', hrun, hplaced, Prod.Lex.lt_iff.mpr (Or.inl hsum)⟩

/-! ## The run -/

def step (c : Config) (s : State) (_ : Unit) : Option State := iteration c s

def unfinished (s : State) (_ : Unit) : Prop := s.finishedJobs < s.numJobs

/-- A job that has begun and has time left. -/
def Started (jobs : List JobSpec) (s : State) (j : ℕ) : Prop :=
  ∃ h : j < jobs.length, jobs[j].startTime ≤ s.currTime ∧ 0 < (s.job j).timeLeft

def Runnable (jobs : List JobSpec) (s : State) (j : ℕ) : Prop :=
  Started jobs s j ∧ (s.job j).doingIo = false

theorem reach_placed (h : Reach (step c) unfinished (load c jobs) s) : Placed c jobs s := by
  refine h.invariant (loaded c jobs).placed fun s _ s' hs hactive hstep => ?_
  have hfin : finished s = false := by
    rw [unfinished] at hactive
    simpa [finished] using hactive
  obtain ⟨t, ht, hplaced, -⟩ := iteration_spec hs hfin
  obtain rfl : t = s' := Option.some.inj (ht.symm.trans hstep)
  exact hplaced

theorem iteration_succeeds (h : Placed c jobs s) : ∃ s', iteration c s = some s' := by
  obtain ⟨due, h⟩ := h
  have hp := h.schedulingPoint
  obtain ⟨job, queue, heq⟩ := schedulingPoint_eq c s
  rw [iteration]
  cases hq : findQueue c (schedulingPoint c s) with
  | none => exact ⟨_, rfl⟩
  | some q =>
      obtain ⟨j, rest, hqueue, -⟩ := hp.findQueue_some hq
      have hagenda : agendaFrom (s.currTime + 1) s.ioDone =
          agendaFrom ((schedulingPoint c s).currTime + 1) (schedulingPoint c s).ioDone := by
        rw [heq]
      rw [hagenda] at hp
      obtain ⟨s', hrun, -⟩ := runJob_spec hp hqueue
      exact ⟨s', hrun⟩

section SchedulingPoint

variable (h : Queued c jobs (agendaFrom (s.currTime + 1) s.ioDone) due s)

include h

/-- A job that has begun is only due at the end of an I/O. -/
theorem doingIo_of_due {j t : ℕ} (hs : Started jobs s j) (hdue : due j = some t) :
    (s.job j).doingIo = true := by
  obtain ⟨hj, hstart, -⟩ := hs
  obtain ⟨-, _, hio | heq⟩ := h.isDue j t hdue
  · exact hio
  · obtain ⟨type, hmem⟩ := h.exists_event hdue
    have hle : t ≤ s.currTime := heq ▸ hstart
    exact absurd (mem_agendaFrom.mp hmem).1 (Nat.lt_succ_of_le hle).not_ge

theorem started_of_waiting {j : ℕ} (hw : Waiting s due j) : Started jobs s j := by
  have hj : j < jobs.length := h.numJobs ▸ hw.1
  refine ⟨hj, ?_, hw.2.1⟩
  by_contra! hlate
  have hmem := List.mem_map_of_mem (f := Prod.fst)
    (mem_agendaFrom.mpr ⟨Nat.succ_le_of_lt hlate, h.begins j hj⟩)
  have hdue := h.mem_events_iff.mp hmem
  rw [hw.2.2] at hdue
  cases hdue

theorem runnable_iff {j : ℕ} : Runnable jobs s j ↔ Waiting s due j := by
  constructor
  · rintro ⟨hs, hio⟩
    have hlt : j < s.numJobs := by
      rw [h.numJobs]
      exact hs.1
    refine ⟨hlt, hs.2.2, ?_⟩
    cases hdue : due j with
    | none => rfl
    | some t =>
        rw [doingIo_of_due h hs hdue] at hio
        cases hio
  · intro hw
    exact ⟨started_of_waiting h hw, h.notDoingIo j hw.1 hw.2.2⟩

theorem started_placed {j : ℕ} (hs : Started jobs s j) :
    ((s.job j).doingIo = true ∧ ∀ q, j ∉ s.queue q) ∨
      (s.job j).doingIo = false ∧
        ∀ q, (s.queue q).count j = if q = (s.job j).currPri then 1 else 0 := by
  cases hdue : due j with
  | some t =>
      refine Or.inl ⟨doingIo_of_due h hs hdue, fun q hmem => ?_⟩
      have hw := (h.mem_queue_iff.mp hmem).1
      rw [hw.2.2] at hdue
      cases hdue
  | none =>
      have hlt : j < s.numJobs := by
        rw [h.numJobs]
        exact hs.1
      have hw : Waiting s due j := ⟨hlt, hs.2.2, hdue⟩
      refine Or.inr ⟨h.notDoingIo j hlt hdue, fun q => ?_⟩
      rw [h.inQueue]
      simp only [hw, true_and]

end SchedulingPoint

/-- At the scheduling point a job that has begun is in its queue, or does I/O;
the job with the highest priority is chosen, no `Abort` happens, and the run
ends after every job has run for its time. -/
theorem mainLoop_correct (c : Config) (jobs : List JobSpec) :
    (∀ s, Reach (step c) unfinished (load c jobs) s →
      (∀ j, Started jobs (schedulingPoint c s) j →
        (((schedulingPoint c s).job j).doingIo = true ∧
            ∀ q, j ∉ (schedulingPoint c s).queue q) ∨
          ((schedulingPoint c s).job j).doingIo = false ∧
            ∀ q, ((schedulingPoint c s).queue q).count j =
              if q = ((schedulingPoint c s).job j).currPri then 1 else 0) ∧
      (∀ q, findQueue c (schedulingPoint c s) = some q → ∃ j,
        ((schedulingPoint c s).queue q).head? = some j ∧
        Runnable jobs (schedulingPoint c s) j ∧ ((schedulingPoint c s).job j).currPri = q ∧
        ∀ k, Runnable jobs (schedulingPoint c s) k →
          ((schedulingPoint c s).job k).currPri ≤ ((schedulingPoint c s).job j).currPri) ∧
      (findQueue c (schedulingPoint c s) = none → ∀ j,
        ¬ Runnable jobs (schedulingPoint c s) j) ∧
      ∃ s', iteration c s = some s') ∧
    ∃ fuel s, mainLoop c fuel (load c jobs) = some s ∧
      ∀ j, (h : j < jobs.length) → s.ticks j = jobs[j].runTime ∧ (s.job j).timeLeft = 0 := by
  constructor
  · intro s hreach
    obtain ⟨due, h⟩ := reach_placed hreach
    have hp := h.schedulingPoint
    have hagenda : agendaFrom (s.currTime + 1) s.ioDone =
        agendaFrom ((schedulingPoint c s).currTime + 1) (schedulingPoint c s).ioDone := by
      obtain ⟨job, queue, heq⟩ := schedulingPoint_eq c s
      rw [heq]
    rw [hagenda] at hp
    refine ⟨fun j hs => started_placed hp hs, fun q hq => ?_, fun hq j hrun => ?_,
      iteration_succeeds (reach_placed hreach)⟩
    · obtain ⟨j, rest, hqueue, hw, hlevel, hhighest⟩ := hp.findQueue_some hq
      refine ⟨j, by rw [hqueue, List.head?_cons], (runnable_iff hp).mpr hw, hlevel, fun k hk => ?_⟩
      rw [hlevel]
      exact hhighest k ((runnable_iff hp).mp hk)
    · exact hp.findQueue_none hq j ((runnable_iff hp).mp hrun)
  · obtain ⟨fuel, s, hloop, ⟨due, h⟩, hdone⟩ := loop_ends (remaining jobs)
      (fun s hs hactive => iteration_spec hs hactive) (loaded c jobs).placed
    refine ⟨fuel, s, hloop, fun j hj => ?_⟩
    have hcard : ((Finset.range s.numJobs).filter fun j => (s.job j).timeLeft = 0).card =
        s.numJobs := by
      refine le_antisymm ((Finset.card_filter_le _ _).trans (Finset.card_range _).le) ?_
      rw [← h.finishedJobs]
      simpa [finished] using hdone
    have hall : (Finset.range s.numJobs).filter (fun j => (s.job j).timeLeft = 0) =
        Finset.range s.numJobs := by
      refine Finset.eq_of_subset_of_card_le (Finset.filter_subset _ _) ?_
      rw [hcard, Finset.card_range]
    have hmem : j ∈ (Finset.range s.numJobs).filter fun j => (s.job j).timeLeft = 0 := by
      rw [hall, h.numJobs]
      exact Finset.mem_range.mpr hj
    have hzero : (s.job j).timeLeft = 0 := (Finset.mem_filter.mp hmem).2
    have htime := (h.timeLeft j hj).2
    rw [hzero, add_zero] at htime
    exact ⟨htime, hzero⟩

end OsLabs.Mlfq
