import OsLabs.CpuSchedMulti.Start

/-!
# The phases of a tick

Interrupts, stealing, the assignment of jobs and the ticks of all CPUs, one after the
other. As long as there are unfinished jobs, some CPU has one after the assignment.
-/

namespace OsLabs.CpuSchedMulti

open OsLabs.Checked

variable {c : Config} {jobs : Jobs} {s s' : State} {cpu : ℕ} {name : String} {cpus : List ℕ}

/-! ## The assignment of jobs -/

/-- What the assignment of jobs to some CPUs keeps. -/
structure Assigned (c : Config) (jobs : Jobs) (s s' : State) : Prop where
  placed : Placed c jobs s'
  timeLeft : s'.timeLeft = s.timeLeft
  jobsFinished : s'.jobsFinished = s.jobsFinished
  queues : ∀ q, ∀ name ∈ s'.schedQueue q, name ∈ s.schedQueue q
  current : ∀ cpu, s'.schedCurrent cpu = none → s.schedCurrent cpu = none

/-- Nothing in the queue of the CPU is for the CPU. -/
def NothingFor (c : Config) (jobs : Jobs) (s : State) (cpu : ℕ) : Prop :=
  ∀ name ∈ s.perCpuSchedQueue c cpu, (jobs.job name).allows cpu = false

theorem Assigned.refl (h : Placed c jobs s) : Assigned c jobs s s :=
  ⟨h, rfl, rfl, fun _ _ => id, fun _ => id⟩

theorem Assigned.trans {s₁ : State} (h : Assigned c jobs s s₁) (h' : Assigned c jobs s₁ s') :
    Assigned c jobs s s' :=
  ⟨h'.placed, h'.timeLeft.trans h.timeLeft, h'.jobsFinished.trans h.jobsFinished,
    fun q name hname => h.queues q name (h'.queues q name hname),
    fun cpu hcpu => h.current cpu (h'.current cpu hcpu)⟩

theorem Assigned.nothingFor (h : Assigned c jobs s s') (hnothing : NothingFor c jobs s cpu) :
    NothingFor c jobs s' cpu := fun name hname => hnothing name (h.queues _ name hname)

theorem getJob_safe (h : Placed c jobs s) (hcpu : cpu < c.numCpus)
    (hidle : s.schedCurrent cpu = none) : Safe Never (getJob c jobs s cpu) fun s' =>
      Assigned c jobs s s' ∧ (s'.schedCurrent cpu = none → NothingFor c jobs s' cpu) := by
  rw [getJob]
  split
  · next hfind =>
      refine Safe.ok ⟨Assigned.refl h, fun _ name hname => ?_⟩
      exact Bool.eq_false_iff.mpr (List.find?_eq_none.mp hfind name hname)
  · next name hfind =>
      have hmem := List.mem_of_find?_eq_some hfind
      have hallows : (jobs.job name).allows cpu = true :=
        List.find?_some (p := fun name => (jobs.job name).allows cpu) hfind
      refine (newJob_safe (h.caches cpu) name).bind fun cache hcache => Safe.ok ?_
      have hqueues (q : ℕ) (other : String) (hother : other ∈ Function.update s.schedQueue
          (c.queueOf cpu) ((s.perCpuSchedQueue c cpu).erase name) q) : other ∈ s.schedQueue q := by
        obtain rfl | hne := eq_or_ne q (c.queueOf cpu)
        · rw [Function.update_self] at hother
          exact List.mem_of_mem_erase hother
        · rwa [Function.update_of_ne hne] at hother
      refine ⟨⟨?_, rfl, rfl, hqueues, fun cpu' hcpu' => ?_⟩, fun hnone => ?_⟩
      · refine h.move (places_of_eq hcpu rfl rfl fun other => ?_)
          (fun _ cpu' _ other hother => Or.inl (hqueues _ other hother))
          (fun cpu' _ other hother => ?_) rfl rfl fun cpu' => ?_
        · have hcount := List.count_pos_iff.mpr hmem
          rw [List.count_erase, hidle]
          obtain rfl | hne := eq_or_ne other name
          · simp
            omega
          · simp [hne.symm]
        · obtain rfl | hne := eq_or_ne cpu' cpu
          · obtain rfl : name = other := by simpa [State.setCurrent] using hother
            exact Or.inr hallows
          · exact Or.inl (by simpa [State.setCurrent, State.setQueue, hne] using hother)
        · obtain rfl | hne := eq_or_ne cpu' cpu
          · simpa using hcache
          · simpa [State.setQueue, hne] using h.caches cpu'
      · obtain rfl | hne := eq_or_ne cpu' cpu
        · exact hidle
        · simpa [State.setCurrent, State.setQueue, hne] using hcpu'
      · simp [State.setCurrent] at hnone

theorem assignJob_safe (h : Placed c jobs s) (hcpu : cpu < c.numCpus) :
    Safe Never (assignJob c jobs s cpu) fun s' =>
      Assigned c jobs s s' ∧ (s'.schedCurrent cpu = none → NothingFor c jobs s' cpu) := by
  rw [assignJob]
  split
  · next hidle => exact getJob_safe h hcpu hidle
  · next hcurrent =>
      refine Safe.ok ⟨Assigned.refl h, fun hnone => ?_⟩
      rw [hcurrent] at hnone
      cases hnone

/-- Later CPUs give nothing back to the queues. -/
theorem assignFrom_safe (h : Placed c jobs s) (hcpus : ∀ cpu ∈ cpus, cpu < c.numCpus) :
    Safe Never (cpus.foldlM (assignJob c jobs) s) fun s' => Assigned c jobs s s' ∧
      ∀ cpu ∈ cpus, s'.schedCurrent cpu = none → NothingFor c jobs s' cpu := by
  induction cpus generalizing s with
  | nil => exact Safe.ok ⟨Assigned.refl h, nofun⟩
  | cons cpu cpus ih =>
      rw [List.foldlM_cons]
      refine (assignJob_safe h (hcpus cpu List.mem_cons_self)).bind fun s₁ ⟨h₁, hnothing⟩ => ?_
      refine (ih h₁.placed fun cpu hcpu => hcpus cpu (List.mem_cons_of_mem _ hcpu)).mono
        fun s' ⟨h', hrest⟩ => ⟨h₁.trans h', fun cpu' hcpu' hnone => ?_⟩
      obtain rfl | hcpu' := List.mem_cons.mp hcpu'
      · exact h'.nothingFor (hnothing (h'.current cpu' hnone))
      · exact hrest cpu' hcpu' hnone

theorem assignJobs_safe (h : Placed c jobs s) (choice : Choice c.numCpus) :
    Safe Never (assignJobs c jobs choice.order s) fun s' => Assigned c jobs s s' ∧
      ∀ cpu < c.numCpus, s'.schedCurrent cpu = none → NothingFor c jobs s' cpu := by
  have hmem (cpu : ℕ) : cpu ∈ (if c.randomOrder then choice.order else List.range c.numCpus) ↔
      cpu < c.numCpus := by
    split
    · rw [choice.shuffled.mem_iff, List.mem_range]
    · rw [List.mem_range]
  refine (assignFrom_safe h fun cpu hcpu => (hmem cpu).mp hcpu).mono
    fun s' ⟨h', hrest⟩ => ⟨h', fun cpu hcpu => hrest cpu ((hmem cpu).mpr hcpu)⟩

/-- An unfinished job waits for a CPU that may run it. -/
theorem Placed.waits (h : Placed c jobs s) (hjobs : jobs.Valid c)
    (hname : Unfinished jobs s name) : (∃ cpu < c.numCpus, s.schedCurrent cpu = some name) ∨
      ∃ cpu < c.numCpus, name ∈ s.perCpuSchedQueue c cpu ∧ (jobs.job name).allows cpu = true := by
  have hplaces := h.places name
  rw [if_pos hname] at hplaces
  by_cases hrunning : running c s name = 0
  · right
    obtain ⟨q, hq, hcount⟩ := Finset.exists_ne_zero_of_sum_ne_zero
      (show ∑ q ∈ c.queues, (s.schedQueue q).count name ≠ 0 from by
        rw [queued] at hplaces
        omega)
    have hmem := List.count_pos_iff.mp (Nat.pos_of_ne_zero hcount)
    obtain ⟨cpu, hcpu, rfl⟩ := Finset.mem_image.mp hq
    have hcpu := Finset.mem_range.mp hcpu
    cases hper : c.perCpuQueues with
    | true => exact ⟨cpu, hcpu, hmem, h.queueAllowed hper cpu hcpu name hmem⟩
    | false =>
        -- the one queue is that of a CPU the job may run on
        obtain ⟨cpu', hcpu', hallows⟩ := hjobs.allowed name
        refine ⟨cpu', hcpu', ?_, hallows⟩
        have hone (cpu : ℕ) : c.queueOf cpu = 0 := by simp [Config.queueOf, hper]
        rw [State.perCpuSchedQueue, hone]
        rwa [hone] at hmem
  · left
    obtain ⟨cpu, hcpu, hcurrent⟩ := Finset.exists_ne_zero_of_sum_ne_zero hrunning
    refine ⟨cpu, Finset.mem_range.mp hcpu, ?_⟩
    by_contra hne
    exact hcurrent (if_neg hne)

theorem Placed.exists_unfinished (h : Placed c jobs s)
    (hwork : s.jobsFinished < jobs.jobNameList.length) : ∃ name, Unfinished jobs s name := by
  have := h.jobsFinished
  obtain ⟨name, hname⟩ := Finset.card_pos.mp (show 0 < (unfinished jobs s).card by omega)
  exact ⟨name, mem_unfinished.mp hname⟩

/-- No CPU is idle for want of a job, all of them together. -/
theorem exists_current (h : Placed c jobs s) (hjobs : jobs.Valid c)
    (hwork : s.jobsFinished < jobs.jobNameList.length)
    (hnothing : ∀ cpu < c.numCpus, s.schedCurrent cpu = none → NothingFor c jobs s cpu) :
    ∃ cpu < c.numCpus, s.schedCurrent cpu ≠ none := by
  obtain ⟨name, hname⟩ := h.exists_unfinished hwork
  obtain ⟨cpu, hcpu, hcurrent⟩ | ⟨cpu, hcpu, hmem, hallows⟩ := h.waits hjobs hname
  · exact ⟨cpu, hcpu, by simp [hcurrent]⟩
  · refine ⟨cpu, hcpu, fun hnone => ?_⟩
    rw [hnothing cpu hcpu hnone name hmem] at hallows
    cases hallows

/-! ## The ticks of the CPUs -/

theorem runJob_safe (h : Placed c jobs s) (hcpu : cpu < c.numCpus) :
    Safe Never (runJob c jobs s cpu) fun s' => Placed c jobs s' ∧ workLeft jobs s' ≤ workLeft jobs s ∧
      (s.schedCurrent cpu ≠ none → workLeft jobs s' < workLeft jobs s) ∧
        ∀ other, other ≠ cpu → s'.schedCurrent other = s.schedCurrent other := by
  rw [runJob]
  split
  · next name hcurrent =>
      exact (runOneTick_safe h hcpu hcurrent).mono fun s' htick =>
        ⟨htick.placed, htick.less.le, fun _ => htick.less, htick.others⟩
  · next hidle => exact Safe.ok ⟨h, le_rfl, fun hcurrent => absurd hidle hcurrent, fun _ _ => rfl⟩

/-- A CPU that has a job runs it when its turn comes. -/
theorem runFrom_safe (h : Placed c jobs s) (hcpus : ∀ cpu ∈ cpus, cpu < c.numCpus)
    (hnodup : cpus.Nodup) : Safe Never (cpus.foldlM (runJob c jobs) s) fun s' =>
      Placed c jobs s' ∧ workLeft jobs s' ≤ workLeft jobs s ∧
        ∀ cpu ∈ cpus, s.schedCurrent cpu ≠ none → workLeft jobs s' < workLeft jobs s := by
  induction cpus generalizing s with
  | nil => exact Safe.ok ⟨h, le_rfl, nofun⟩
  | cons cpu cpus ih =>
      rw [List.nodup_cons] at hnodup
      rw [List.foldlM_cons]
      refine (runJob_safe h (hcpus cpu List.mem_cons_self)).bind
        fun s₁ ⟨h₁, hle, hlt, hothers⟩ => ?_
      refine (ih h₁ (fun cpu hcpu => hcpus cpu (List.mem_cons_of_mem _ hcpu)) hnodup.2).mono
        fun s' ⟨h', hle', hlt'⟩ => ⟨h', hle'.trans hle, fun cpu' hcpu' hcurrent => ?_⟩
      obtain rfl | hmem := List.mem_cons.mp hcpu'
      · exact hle'.trans_lt (hlt hcurrent)
      · have hne : cpu' ≠ cpu := by
          rintro rfl
          exact hnodup.1 hmem
        rw [← hothers cpu' hne] at hcurrent
        exact (hlt' cpu' hmem hcurrent).trans_le hle

theorem runJobs_safe (h : Placed c jobs s)
    (hcurrent : ∃ cpu < c.numCpus, s.schedCurrent cpu ≠ none) :
    Safe Never (runJobs c jobs s) fun s' =>
      Placed c jobs s' ∧ workLeft jobs s' < workLeft jobs s := by
  obtain ⟨cpu, hcpu, hcurrent⟩ := hcurrent
  exact (runFrom_safe h (fun cpu hcpu => List.mem_range.mp hcpu) List.nodup_range).mono
    fun s' ⟨h', _, hlt⟩ => ⟨h', hlt cpu (List.mem_range.mpr hcpu) hcurrent⟩

end OsLabs.CpuSchedMulti
