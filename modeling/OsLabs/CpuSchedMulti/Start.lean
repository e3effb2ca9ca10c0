import OsLabs.CpuSchedMulti.Placement

/-!
# The start of the multi-CPU scheduler

The job list and the affinity list are checked as they are read. Then each CPU in turn
gets a job that may run on it, until every job is in a queue.
-/

namespace OsLabs.CpuSchedMulti

open OsLabs.Loop

variable {c : Config} {jobs : Jobs} {cpu : ℕ} {name : String} {cpus : List ℕ}

/-! ## The lists -/

/-- What has been checked of the lists. -/
structure Jobs.Valid (c : Config) (jobs : Jobs) : Prop where
  nodup : jobs.jobNameList.Nodup
  affinity : ∀ name, ∀ cpu ∈ (jobs.job name).affinity, cpu < c.numCpus
  runTime : ∀ name ∈ jobs.jobNameList, 1 ≤ (jobs.job name).runTime
  nonneg : ∀ name, 0 ≤ (jobs.job name).runTime

theorem Jobs.Valid.allowed (h : jobs.Valid c) (name : String) :
    ∃ cpu < c.numCpus, (jobs.job name).allows cpu = true := by
  cases haffinity : (jobs.job name).affinity with
  | nil => exact ⟨0, c.numCpus_pos, by simp [Job.allows, haffinity]⟩
  | cons cpu cpus =>
      exact ⟨cpu, h.affinity name cpu (by simp [haffinity]), by simp [Job.allows, haffinity]⟩

theorem addJob_spec {entry : JobSpec} {jobs' : Jobs} (h : addJob jobs entry = some jobs')
    (hjobs : jobs.Valid c) : jobs'.Valid c := by
  rw [addJob] at h
  split at h
  · cases h
  · next hnew =>
      obtain rfl := Option.some.inj h
      have hpos := entry.runTime_pos
      refine ⟨List.nodup_append'.mpr ⟨hjobs.nodup, List.nodup_singleton _, by simpa using hnew⟩,
        fun name cpu hcpu => ?_, fun name hname => ?_, fun name => ?_⟩ <;> dsimp only at *
      · obtain rfl | hne := eq_or_ne name entry.name
        · simp at hcpu
        · rw [Function.update_of_ne hne] at hcpu
          exact hjobs.affinity name cpu hcpu
      · obtain rfl | hne := eq_or_ne name entry.name
        · rwa [Function.update_self]
        · rw [Function.update_of_ne hne]
          exact hjobs.runTime name (by simpa [hne] using hname)
      · obtain rfl | hne := eq_or_ne name entry.name
        · rw [Function.update_self]
          dsimp only
          omega
        · rw [Function.update_of_ne hne]
          exact hjobs.nonneg name

theorem addAffinity_spec {entry : String × List ℕ} {jobs' : Jobs}
    (h : addAffinity c.numCpus jobs entry = some jobs') (hjobs : jobs.Valid c) : jobs'.Valid c := by
  rw [addAffinity] at h
  split at h
  · next hentry =>
      obtain rfl := Option.some.inj h
      have hsame (name : String) : (Function.update jobs.job entry.1 { jobs.job entry.1 with
          affinity := (jobs.job entry.1).affinity ++ entry.2 } name).runTime =
            (jobs.job name).runTime := by
        obtain rfl | hne := eq_or_ne name entry.1
        · rw [Function.update_self]
        · rw [Function.update_of_ne hne]
      refine ⟨hjobs.nodup, fun name cpu hcpu => ?_, fun name hname => ?_, fun name => ?_⟩
      · dsimp only at hcpu
        obtain rfl | hne := eq_or_ne name entry.1
        · rw [Function.update_self, List.mem_append] at hcpu
          exact hcpu.elim (hjobs.affinity _ cpu) (hentry.2 cpu)
        · rw [Function.update_of_ne hne] at hcpu
          exact hjobs.affinity name cpu hcpu
      · exact (hjobs.runTime name hname).trans_eq (hsame name).symm
      · exact (hjobs.nonneg name).trans_eq (hsame name).symm
  · cases h

theorem readJobs_valid {jobList : List JobSpec} {affinity : List (String × List ℕ)}
    (h : readJobs c jobList affinity = some jobs) : jobs.Valid c := by
  have hfold {α : Type} {f : Jobs → α → Option Jobs}
      (hf : ∀ jobs entry jobs', f jobs entry = some jobs' → jobs.Valid c → jobs'.Valid c)
      (entries : List α) (jobs jobs' : Jobs) (hjobs : jobs.Valid c)
      (h : entries.foldlM f jobs = some jobs') : jobs'.Valid c := by
    induction entries generalizing jobs with
    | nil =>
        obtain rfl : jobs = jobs' := Option.some.inj h
        exact hjobs
    | cons entry entries ih =>
        rw [List.foldlM_cons] at h
        obtain ⟨jobs₁, hfirst, hrest⟩ := Option.bind_eq_some_iff.mp h
        exact ih jobs₁ (hf jobs entry jobs₁ hfirst hjobs) hrest
  obtain ⟨jobs₁, hlist, haffinity⟩ := Option.bind_eq_some_iff.mp h
  refine hfold (fun _ _ _ h => addAffinity_spec h) affinity jobs₁ jobs ?_ haffinity
  refine hfold (fun _ _ _ h => addJob_spec h) jobList _ jobs₁ ?_ hlist
  exact ⟨List.nodup_nil, fun _ cpu (hcpu : cpu ∈ []) => absurd hcpu List.not_mem_nil, nofun, fun _ => le_rfl⟩

/-! ## The first queues -/

variable {s s' : (ℕ → List String) × List String}

/-- Each job is in a queue or not assigned yet, and where it may be. -/
structure Distributed (c : Config) (jobs : Jobs) (s : (ℕ → List String) × List String) :
    Prop where
  count : ∀ name, ∑ q ∈ Finset.range c.numCpus, (s.1 q).count name + s.2.count name =
    jobs.jobNameList.count name
  allowed : ∀ cpu < c.numCpus, ∀ name ∈ s.1 cpu, (jobs.job name).allows cpu = true

theorem Distributed.assignTo (h : Distributed c jobs s) (hcpu : cpu < c.numCpus) :
    Distributed c jobs (assignTo jobs s cpu) := by
  rw [CpuSchedMulti.assignTo]
  split
  · exact h
  · next name hfind =>
      have hmem := List.mem_of_find?_eq_some hfind
      have hallows : (jobs.job name).allows cpu = true :=
        List.find?_some (p := fun name => (jobs.job name).allows cpu) hfind
      constructor
      · intro other
        have hsum := sum_update (fun l : List String => l.count other) s.1
          (Finset.mem_range.mpr hcpu) (s.1 cpu ++ [name])
        have hold := h.count other
        have hcount := List.count_pos_iff.mpr hmem
        dsimp only
        rw [List.count_append, List.count_singleton] at hsum
        rw [List.count_erase]
        obtain rfl | hne := eq_or_ne other name
        · simp only [beq_self_eq_true, if_true] at hsum ⊢
          omega
        · simp only [beq_iff_eq, hne.symm, if_false] at hsum ⊢
          omega
      · intro cpu' hcpu' other hother
        dsimp only at hother
        obtain rfl | hne := eq_or_ne cpu' cpu
        · rw [Function.update_self, List.mem_append, List.mem_singleton] at hother
          obtain hother | rfl := hother
          · exact h.allowed cpu' hcpu' other hother
          · exact hallows
        · rw [Function.update_of_ne hne] at hother
          exact h.allowed cpu' hcpu' other hother

/-- A job is assigned, if there is one for the CPU. -/
theorem length_assignTo (s : (ℕ → List String) × List String) (cpu : ℕ) :
    (assignTo jobs s cpu).2.length < s.2.length ∨ assignTo jobs s cpu = s ∧
      ∀ name ∈ s.2, (jobs.job name).allows cpu = false := by
  rw [assignTo]
  split
  · next hfind =>
      refine Or.inr ⟨rfl, fun name hname => ?_⟩
      exact Bool.eq_false_iff.mpr (List.find?_eq_none.mp hfind name hname)
  · next name hfind =>
      have hmem := List.mem_of_find?_eq_some hfind
      have hpos := List.length_pos_of_mem hmem
      left
      rw [List.length_erase_of_mem hmem]
      omega

theorem Distributed.assignFrom (h : Distributed c jobs s) (hcpus : ∀ cpu ∈ cpus, cpu < c.numCpus) :
    Distributed c jobs (cpus.foldl (CpuSchedMulti.assignTo jobs) s) ∧
      (cpus.foldl (CpuSchedMulti.assignTo jobs) s).2.length ≤ s.2.length ∧
        ∀ cpu ∈ cpus, ∀ name ∈ s.2, (jobs.job name).allows cpu = true →
          (cpus.foldl (CpuSchedMulti.assignTo jobs) s).2.length < s.2.length := by
  induction cpus generalizing s with
  | nil => exact ⟨h, le_rfl, nofun⟩
  | cons cpu cpus ih =>
      rw [List.foldl_cons]
      obtain ⟨h', hle, hlt⟩ := ih (h.assignTo (hcpus cpu List.mem_cons_self))
        fun cpu hcpu => hcpus cpu (List.mem_cons_of_mem _ hcpu)
      have hstep : (CpuSchedMulti.assignTo jobs s cpu).2.length < s.2.length ∨ _ :=
        length_assignTo s cpu
      obtain hless | ⟨hsame, hnone⟩ := hstep
      · exact ⟨h', hle.trans hless.le, fun _ _ _ _ _ => hle.trans_lt hless⟩
      · rw [hsame] at h' hle hlt ⊢
        refine ⟨h', hle, fun cpu' hcpu' name hname hallows => ?_⟩
        obtain rfl | hmem := List.mem_cons.mp hcpu'
        · rw [hnone name hname] at hallows
          cases hallows
        · exact hlt cpu' hmem name hname hallows

/-- The assignment of the jobs to the queues ends. -/
theorem distributed_loop (hjobs : jobs.Valid c) :
    ∃ s, loop (fun s => some (assignRound c jobs s)) (fun s => s.2.isEmpty)
      jobs.jobNameList.length (fun _ => [], jobs.jobNameList) = some s ∧
        Distributed c jobs s ∧ s.2.isEmpty = true := by
  refine loop_ends_within (fun s => s.2.length) (fun s hs hmore => ?_) ⟨fun name => ?_, nofun⟩ le_rfl
  · obtain ⟨h', -, hlt⟩ := hs.assignFrom fun cpu hcpu => List.mem_range.mp hcpu
    refine ⟨_, rfl, h', ?_⟩
    obtain ⟨name, hname⟩ := List.exists_mem_of_ne_nil s.2 (by simpa using hmore)
    obtain ⟨cpu, hcpu, hallows⟩ := hjobs.allowed name
    exact hlt cpu (List.mem_range.mpr hcpu) name hname hallows
  · simp

theorem placed_startWith (hjobs : jobs.Valid c) {queues : ℕ → List String}
    (hcount : ∀ name, ∑ q ∈ c.queues, (queues q).count name = jobs.jobNameList.count name)
    (hallowed : c.perCpuQueues = true → ∀ cpu < c.numCpus, ∀ name ∈ queues cpu,
      (jobs.job name).allows cpu = true) : Placed c jobs (startWith jobs queues) := by
  have hpos (name : String) (hname : name ∈ jobs.jobNameList) : 0 < (jobs.job name).runTime :=
    hjobs.runTime name hname
  refine ⟨fun name => ?_, fun hper cpu hcpu name hname => ?_, nofun, ?_, hjobs.nonneg, nofun⟩
  · have hqueued : queued c (startWith jobs queues) name = jobs.jobNameList.count name := hcount name
    have hrunning : running c (startWith jobs queues) name = 0 :=
      Finset.sum_eq_zero fun _ _ => if_neg nofun
    have hiff : Unfinished jobs (startWith jobs queues) name ↔ name ∈ jobs.jobNameList :=
      and_iff_left_of_imp (hpos name)
    rw [hqueued, hrunning, if_congr hiff rfl rfl]
    by_cases hname : name ∈ jobs.jobNameList
    · rw [if_pos hname, List.count_eq_one_of_mem hjobs.nodup hname]
    · rw [if_neg hname, List.count_eq_zero_of_not_mem hname]
  · refine hallowed hper cpu hcpu name ?_
    rwa [State.perCpuSchedQueue, Config.queueOf, if_pos hper] at hname
  · have hall : unfinished jobs (startWith jobs queues) = jobs.jobNameList.toFinset :=
      Finset.filter_true_of_mem fun name hname => hpos name (List.mem_toFinset.mp hname)
    rw [hall, List.toFinset_card_of_nodup hjobs.nodup]
    exact Nat.zero_add _

theorem initialState_placed (hjobs : jobs.Valid c) :
    ∃ s, initialState c jobs = some s ∧ Placed c jobs s ∧ s.phase = .handleInterrupts := by
  suffices hqueues : ∃ queues, initialQueues c jobs = some queues ∧
      Placed c jobs (startWith jobs queues) by
    obtain ⟨queues, hinit, hplaced⟩ := hqueues
    refine ⟨_, ?_, hplaced, rfl⟩
    rw [initialState, hinit]
    rfl
  cases hper : c.perCpuQueues with
  | true =>
      obtain ⟨s, hloop, hs, hempty⟩ := distributed_loop hjobs
      have hqueues : c.queues = Finset.range c.numCpus := by
        have hid : c.queueOf = id := funext fun cpu => by simp [Config.queueOf, hper]
        rw [Config.queues, hid, Finset.image_id]
      refine ⟨s.1, ?_, placed_startWith hjobs (fun name => ?_) fun _ => hs.allowed⟩
      · rw [initialQueues, if_pos hper, hloop]
        rfl
      · have hcount := hs.count name
        rw [List.isEmpty_iff.mp hempty] at hcount
        rwa [hqueues]
  | false =>
      have hqueues : c.queues = {0} := by
        have hone : c.queueOf = fun _ => 0 := funext fun cpu => by simp [Config.queueOf, hper]
        rw [Config.queues, hone]
        exact Finset.image_const (Finset.nonempty_range_iff.mpr c.numCpus_pos.ne') 0
      refine ⟨_, by rw [initialQueues, hper]; rfl, placed_startWith hjobs (fun name => ?_) fun h => ?_⟩
      · rw [hqueues, Finset.sum_singleton, Function.update_self]
      · rw [hper] at h
        cases h

end OsLabs.CpuSchedMulti
