import OsLabs.CpuSchedMulti.Phases

/-!
# Whole runs of the multi-CPU scheduler

A CPU with an empty queue peeks at the queue of another one. As long as there is
another one, and what it steals is allowed on it, every job stays where it may be
and the run ends.
-/

namespace OsLabs.CpuSchedMulti

open OsLabs.Checked OsLabs.Loop

variable {c : Config} {jobs : Jobs} {s s' : State} {cpu other : ℕ} {name : String}

/-! ## Stealing -/

/-- Each unfinished job is in one place, and where it may be. -/
structure Scheduled (c : Config) (jobs : Jobs) (s : State) : Prop where
  place : ∀ name, Unfinished jobs s name → queued c s name + running c s name = 1
  allowed : c.perCpuQueues = true → ∀ cpu < c.numCpus, ∀ name,
    name ∈ s.perCpuSchedQueue c cpu ∨ s.schedCurrent cpu = some name →
      (jobs.job name).allows cpu = true

theorem Placed.scheduled (h : Placed c jobs s) : Scheduled c jobs s where
  place name hname := by rw [h.places, if_pos hname]
  allowed hper cpu hcpu name hname :=
    hname.elim (h.queueAllowed hper cpu hcpu name) (h.currentAllowed cpu hcpu name)

/-- When the CPU peeks there is another one, and the job that it would steal is
allowed on it. -/
def StealAllowed (c : Config) (jobs : Jobs) (s : State) (cpu draw : ℕ) : Prop :=
  s.perCpuSchedQueue c cpu = [] → c.numCpus ≠ 1 ∧ ∀ other name, otherCpu c cpu draw = some other →
    examine c jobs s cpu other = some name → (jobs.job name).allows cpu = true

theorem otherCpu_spec {draw : ℕ} (h : otherCpu c cpu draw = some other) :
    other < c.numCpus ∧ other ≠ cpu := by
  have hmem := List.mem_of_getElem? h
  rw [List.nodup_range.mem_erase_iff, List.mem_range] at hmem
  exact hmem.symm

theorem otherCpu_eq_none (hcpu : cpu < c.numCpus) (draw : ℕ) :
    otherCpu c cpu draw = none ↔ c.numCpus = 1 := by
  have hlength : ((List.range c.numCpus).erase cpu).length = c.numCpus - 1 := by
    rw [List.length_erase_of_mem (List.mem_range.mpr hcpu), List.length_range]
  rw [otherCpu, List.getElem?_eq_none_iff, hlength]
  constructor
  · intro hle
    by_contra hne
    have := Nat.mod_lt draw (show 0 < c.numCpus - 1 by omega)
    omega
  · intro hone
    rw [hone]
    exact Nat.zero_le _

theorem stealFor_safe (h : Placed c jobs s) (hper : c.perCpuQueues = true) (hcpu : cpu < c.numCpus)
    {draw : ℕ} (hallowed : StealAllowed c jobs s cpu draw) :
    Safe Never (stealFor c jobs draw s cpu) fun s' =>
      Placed c jobs s' ∧ s'.timeLeft = s.timeLeft ∧ s'.jobsFinished = s.jobsFinished := by
  rw [stealFor]
  split
  · next hempty =>
      obtain ⟨hmany, hname⟩ := hallowed hempty
      cases hother : otherCpu c cpu draw with
      | none => exact absurd ((otherCpu_eq_none hcpu draw).mp hother) hmany
      | some other =>
          obtain ⟨hlt, hne⟩ := otherCpu_spec hother
          dsimp only
          cases hexamine : examine c jobs s cpu other with
          | none => exact Safe.ok ⟨h, rfl, rfl⟩
          | some name =>
              dsimp only
              have hqueue : (s.setQueue c other ((s.perCpuSchedQueue c other).erase
                  name)).perCpuSchedQueue c cpu = s.perCpuSchedQueue c cpu := by
                rw [perCpuSchedQueue_setQueue hper, if_neg hne.symm]
              rw [hqueue]
              refine Safe.ok
                ⟨h.steal hcpu hlt hne hper ?_ (hname other name hother hexamine), rfl, rfl⟩
              exact List.mem_of_find?_eq_some hexamine
  · exact Safe.ok ⟨h, rfl, rfl⟩

/-- The condition is exact: without it the iteration raises, or leaves a job in the
queue of a CPU that is forbidden to it. -/
theorem stealFor_scheduled_iff (h : Placed c jobs s) (hper : c.perCpuQueues = true)
    (hcpu : cpu < c.numCpus) (draw : ℕ) :
    (∃ s', stealFor c jobs draw s cpu = .ok s' ∧ Scheduled c jobs s') ↔
      StealAllowed c jobs s cpu draw := by
  constructor
  · rintro ⟨s', hsteal, hs'⟩ hempty
    rw [stealFor, if_pos hempty] at hsteal
    cases hother : otherCpu c cpu draw with
    | none =>
        rw [hother] at hsteal
        cases hsteal
    | some other =>
        refine ⟨fun hone => ?_, fun other' name hother' hexamine => ?_⟩
        · rw [(otherCpu_eq_none hcpu draw).mpr hone] at hother
          cases hother
        · obtain rfl := Option.some.inj hother'
          rw [hother] at hsteal
          simp only [hexamine, Except.ok.injEq] at hsteal
          refine hs'.allowed hper cpu hcpu name (Or.inl ?_)
          rw [← hsteal, perCpuSchedQueue_setQueue hper, if_pos rfl]
          simp
  · intro hallowed
    have hsafe := stealFor_safe h hper hcpu hallowed
    cases hsteal : stealFor c jobs draw s cpu with
    | error e => exact (hsafe.of_eq_error hsteal).elim
    | ok s' => exact ⟨s', rfl, (hsafe.of_eq_ok hsteal).1.scheduled⟩

/-! ## Runs -/

/-- The condition, where a step is an iteration of `steal_jobs`. -/
def StepAllowed (c : Config) (jobs : Jobs) (s : State) (choice : Choice c.numCpus) : Prop :=
  ∀ cpu < c.numCpus, s.phase = .stealJobs cpu → timeToSteal c s = true →
    StealAllowed c jobs s cpu choice.other

/-- What holds between the steps: a tick has begun because there is work, and before
the CPUs run one of them has a job. -/
structure Inv (c : Config) (jobs : Jobs) (s : State) : Prop where
  placed : Placed c jobs s
  work : s.phase ≠ .handleInterrupts → s.jobsFinished < jobs.jobNameList.length
  current : s.phase = .runJobs → ∃ cpu < c.numCpus, s.schedCurrent cpu ≠ none

/-- How many steps there are in a tick after this one. -/
def Phase.stepsLeft (numCpus : ℕ) : Phase → ℕ
  | .handleInterrupts => numCpus + 3
  | .stealJobs cpu => numCpus - cpu + 2
  | .assignJobs => 1
  | .runJobs => 0

def measure (c : Config) (jobs : Jobs) (s : State) : ℕ :=
  workLeft jobs s * (c.numCpus + 4) + s.phase.stepsLeft c.numCpus

/-- A step that runs no job brings the end of the tick nearer. -/
theorem measure_lt (htime : s'.timeLeft = s.timeLeft)
    (hsteps : s'.phase.stepsLeft c.numCpus < s.phase.stepsLeft c.numCpus) :
    measure c jobs s' < measure c jobs s := by
  rw [measure, measure, workLeft, htime, ← workLeft]
  exact Nat.add_lt_add_left hsteps _

theorem Placed.setPhase (h : Placed c jobs s) (phase : Phase) :
    Placed c jobs { s with phase } :=
  ⟨h.places, h.queueAllowed, h.currentAllowed, h.jobsFinished, h.timeLeft, h.caches⟩

theorem handleInterrupts_eq (c : Config) (s : State) :
    (handleInterrupts c s).timeLeft = s.timeLeft ∧
      (handleInterrupts c s).jobsFinished = s.jobsFinished := by
  rw [handleInterrupts]
  refine List.foldlRecOn (motive := fun s' : State => s'.timeLeft = s.timeLeft ∧
    s'.jobsFinished = s.jobsFinished) _ _ ⟨rfl, rfl⟩ fun s' hs' cpu _ => ?_
  rw [handleOneInterrupt]
  split
  · split <;> exact hs'
  · exact hs'

theorem step_safe (hjobs : jobs.Valid c) (s : State) (choice : Choice c.numCpus)
    (h : Inv c jobs s) (hdone : s.done jobs = false) (hallowed : StepAllowed c jobs s choice) :
    Safe Never (step c jobs s choice) fun s' =>
      Inv c jobs s' ∧ measure c jobs s' < measure c jobs s := by
  rw [step]
  cases hphase : s.phase with
  | handleInterrupts =>
      have hwork : s.jobsFinished < jobs.jobNameList.length := by
        simpa [State.done, hphase] using hdone
      obtain ⟨htime, hfinished⟩ := handleInterrupts_eq c s
      refine Safe.ok ⟨⟨h.placed.handleInterrupts.setPhase _, fun _ => ?_, nofun⟩, ?_⟩
      · exact hfinished.trans_lt hwork
      · refine measure_lt htime ?_
        rw [hphase]
        exact Nat.lt_succ_self _
  | stealJobs cpu =>
      have hwork := h.work (by rw [hphase]; nofun)
      dsimp only
      split
      · next hsteal =>
          obtain ⟨htime, hcpu⟩ := hsteal
          have hper : c.perCpuQueues = true := by
            simp only [timeToSteal, Bool.and_eq_true] at htime
            exact htime.1.1.1
          refine (stealFor_safe h.placed hper hcpu (hallowed cpu hcpu hphase htime)).bind
            fun s₁ ⟨h₁, hleft, hfinished⟩ => Safe.ok ⟨⟨h₁.setPhase _, fun _ => ?_, nofun⟩, ?_⟩
          · exact hfinished.trans_lt hwork
          · refine measure_lt hleft ?_
            rw [hphase]
            simp only [Phase.stepsLeft]
            omega
      · refine Safe.ok ⟨⟨h.placed.setPhase _, fun _ => hwork, nofun⟩, measure_lt rfl ?_⟩
        rw [hphase]
        simp only [Phase.stepsLeft]
        omega
  | assignJobs =>
      have hwork := h.work (by rw [hphase]; nofun)
      refine (assignJobs_safe h.placed choice).bind fun s₁ ⟨h₁, hnothing⟩ => Safe.ok ?_
      have hwork₁ := h₁.jobsFinished.trans_lt hwork
      have hcurrent := exists_current h₁.placed hjobs hwork₁ hnothing
      refine ⟨⟨h₁.placed.setPhase _, fun _ => hwork₁, fun _ => hcurrent⟩, ?_⟩
      refine measure_lt h₁.timeLeft ?_
      rw [hphase]
      exact Nat.one_pos
  | runJobs =>
      refine (runJobs_safe h.placed (h.current hphase)).bind fun s₁ ⟨h₁, hlt⟩ => Safe.ok ?_
      refine ⟨⟨⟨h₁.places, h₁.queueAllowed, h₁.currentAllowed, h₁.jobsFinished, h₁.timeLeft,
        h₁.caches⟩, fun hne => absurd rfl hne, nofun⟩, ?_⟩
      rw [measure, measure, hphase, Phase.stepsLeft, Phase.stepsLeft]
      have hmul := Nat.mul_le_mul_right (c.numCpus + 4) (Nat.succ_le_of_lt hlt)
      rw [Nat.succ_mul] at hmul
      change workLeft jobs s₁ * (c.numCpus + 4) + _ < _
      omega

/-- At every step each job is where it may be, and the run ends with all of them
finished. -/
theorem multi_correct (c : Config) (jobList : List JobSpec) (affinity : List (String × List ℕ))
    (jobs : Jobs) (hread : readJobs c jobList affinity = some jobs) :
    ∃ s₀, initialState c jobs = some s₀ ∧ ∀ choices : ℕ → Choice c.numCpus,
      (∀ t s, follow (step c jobs) (State.done jobs) choices s₀ t = .ok s →
        s.done jobs = false → StepAllowed c jobs s (choices t)) →
      (∀ t, ∃ s, follow (step c jobs) (State.done jobs) choices s₀ t = .ok s ∧
        Scheduled c jobs s) ∧
      ∃ t s, follow (step c jobs) (State.done jobs) choices s₀ t = .ok s ∧ s.done jobs = true ∧
        ∀ name ∈ jobs.jobNameList, s.timeLeft name = 0 := by
  have hjobs := readJobs_valid hread
  obtain ⟨s₀, hinit, hplaced, hphase⟩ := initialState_placed hjobs
  have hinv : Inv c jobs s₀ :=
    ⟨hplaced, fun hne => absurd hphase hne, fun hrun => by rw [hphase] at hrun; cases hrun⟩
  refine ⟨s₀, hinit, fun choices hallowed => ⟨fun t => ?_, ?_⟩⟩
  · have hsafe := follow_safe hinv (fun s choice hs hdone hguard =>
      (step_safe hjobs s choice hs hdone hguard).mono fun _ hs' => hs'.1) hallowed t
    cases hfollow : follow (step c jobs) (State.done jobs) choices s₀ t with
    | error e => exact (hsafe.of_eq_error hfollow).elim
    | ok s => exact ⟨s, rfl, (hsafe.of_eq_ok hfollow).placed.scheduled⟩
  · obtain ⟨t, s, hfollow, hs, hdone⟩ :=
      follow_ends (measure c jobs) hinv (fun _ => id) (step_safe hjobs) hallowed
    refine ⟨t, s, hfollow, hdone, fun name hname => ?_⟩
    simp only [State.done, Bool.and_eq_true, Bool.not_eq_true', decide_eq_false_iff_not] at hdone
    by_contra hne
    have hpos : 0 < s.timeLeft name := lt_of_le_of_ne (hs.placed.timeLeft name) (Ne.symm hne)
    have hcard := Finset.card_pos.mpr ⟨name, mem_unfinished.mpr ⟨hname, hpos⟩⟩
    have := hs.placed.jobsFinished
    omega

/-- Per-CPU queues, a peek every tick. -/
def peeking (numCpus : ℕ) (h : 0 < numCpus) : Config where
  perCpuQueues := true
  peekInterval := 1
  numCpus := numCpus
  timeSlice := 10
  randomOrder := false
  cacheSize := 100
  cacheRateCold := 1
  cacheRateWarm := 2
  cacheWarmupTime := 10
  numCpus_pos := h
  timeSlice_pos := by decide
  cacheSize_nonneg := by decide
  cacheRateCold_pos := by decide
  cacheRateWarm_pos := by decide

def firstChoice (numCpus : ℕ) : Choice numCpus := ⟨0, List.range numCpus, List.Perm.refl _⟩

/-- Only a job that has the number of a CPU among its fields is taken where it may not be. -/
theorem stealAllowed_of_contains (hmany : c.numCpus ≠ 1) (h : ∀ name,
    (jobs.job name).contains cpu = true → (jobs.job name).allows cpu = true) (s : State)
    (draw : ℕ) : StealAllowed c jobs s cpu draw := by
  refine fun _ => ⟨hmany, fun other name _ hexamine => ?_⟩
  unfold examine at hexamine
  have hfound := List.find?_some hexamine
  rw [Bool.or_eq_true] at hfound
  rcases hfound with hfree | hcontains
  · rw [Job.allows, hfree, Bool.true_or]
  · exact h name hcontains

/-- Two jobs that are bound to a CPU each, and one that is not. -/
def threeJobs : List JobSpec :=
  [⟨"a", 12, 50, by decide⟩, ⟨"b", 5, 50, by decide⟩, ⟨"c", 14, 50, by decide⟩]

/-- The free job waits for the first CPU, and is stolen by the second. -/
theorem multi_correct_stealing : ∃ jobs s₀,
    readJobs (peeking 2 (by decide)) threeJobs [("a", [0]), ("b", [1])] = some jobs ∧
    initialState (peeking 2 (by decide)) jobs = some s₀ ∧
    (s₀.schedQueue 0, s₀.schedQueue 1) = (["a", "c"], ["b"]) ∧
    (follow (step (peeking 2 (by decide)) jobs) (State.done jobs) (fun _ => firstChoice 2) s₀
      7).toOption.map (fun s => (s.schedQueue 0, s.schedQueue 1)) = some ([], ["c"]) ∧
    (∀ t, ∃ s, follow (step (peeking 2 (by decide)) jobs) (State.done jobs)
      (fun _ => firstChoice 2) s₀ t = .ok s ∧ Scheduled (peeking 2 (by decide)) jobs s) ∧
    ∃ t s, follow (step (peeking 2 (by decide)) jobs) (State.done jobs)
      (fun _ => firstChoice 2) s₀ t = .ok s ∧ s.done jobs = true ∧
        ∀ name ∈ jobs.jobNameList, s.timeLeft name = 0 := by
  obtain ⟨s₀, hinit, hruns⟩ := multi_correct (peeking 2 (by decide)) threeJobs
    [("a", [0]), ("b", [1])] _ rfl
  refine ⟨_, s₀, rfl, hinit, ?_, ?_, hruns (fun _ => firstChoice 2) ?_⟩
  · rw [← Option.some.inj hinit]
    decide +kernel
  · rw [← Option.some.inj hinit]
    decide +kernel
  · intro t s _ _ cpu hcpu _ _
    refine stealAllowed_of_contains (by decide) (fun name hcontains => ?_) s _
    have hlt : cpu < 2 := hcpu
    rcases eq_or_ne name "a" with rfl | ha
    · interval_cases cpu <;> revert hcontains <;> decide +kernel
    · rcases eq_or_ne name "b" with rfl | hb
      · interval_cases cpu <;> revert hcontains <;> decide +kernel
      · rcases eq_or_ne name "c" with rfl | hc
        · interval_cases cpu <;> revert hcontains <;> decide +kernel
        · simp only [Job.allows, Function.update_of_ne, ha, hb, hc, ne_eq, not_false_eq_true]
          rfl

/-- On one CPU `steal_jobs` raises; on two it takes a job to a CPU that the job's affinity
forbids, for the size of its working set. -/
theorem steal_jobs_wrong :
    (∃ jobs s₀, readJobs (peeking 1 (by decide)) [⟨"a", 10, 50, by decide⟩] [] = some jobs ∧
      initialState (peeking 1 (by decide)) jobs = some s₀ ∧
      follow (step (peeking 1 (by decide)) jobs) (State.done jobs) (fun _ => firstChoice 1) s₀ 6 =
        .error .indexError) ∧
    ∃ jobs s₀ s, readJobs (peeking 2 (by decide))
        [⟨"a", 10, 50, by decide⟩, ⟨"b", 10, 1, by decide⟩] [("a", [0]), ("b", [0])] = some jobs ∧
      initialState (peeking 2 (by decide)) jobs = some s₀ ∧
      follow (step (peeking 2 (by decide)) jobs) (State.done jobs) (fun _ => firstChoice 2) s₀ 7 =
        .ok s ∧ ¬ Scheduled (peeking 2 (by decide)) jobs s := by
  refine ⟨⟨_, _, rfl, rfl, rfl⟩, _, _, _, rfl, rfl, rfl, fun h => ?_⟩
  have hallowed := h.allowed rfl 1 (by decide) "b" (Or.inl (by decide +kernel))
  revert hallowed
  decide +kernel

end OsLabs.CpuSchedMulti
