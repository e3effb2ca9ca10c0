import OsLabs.CpuSchedMulti.Scheduler
import OsLabs.Lib.Checked

/-!
# Where the jobs are

A job that is not finished is in one queue, once, or runs on one CPU. Interrupts,
stealing, the assignment of jobs and the ticks of the CPUs move it from one place
to another.
-/

namespace OsLabs.CpuSchedMulti

open OsLabs.Checked

/-- No error is expected. -/
def Never : PyError → Prop := fun _ => False

variable {c : Config} {jobs : Jobs} {s s' : State} {cpu : ℕ} {name : String}

/-! ## Places -/

/-- The queues that are there. -/
def Config.queues (c : Config) : Finset ℕ := (Finset.range c.numCpus).image c.queueOf

/-- How often the job is queued. -/
def queued (c : Config) (s : State) (name : String) : ℕ :=
  ∑ q ∈ c.queues, (s.schedQueue q).count name

/-- How many CPUs run the job. -/
def running (c : Config) (s : State) (name : String) : ℕ :=
  ∑ cpu ∈ Finset.range c.numCpus, if s.schedCurrent cpu = some name then 1 else 0

/-- The job is there and has time left. -/
def Unfinished (jobs : Jobs) (s : State) (name : String) : Prop :=
  name ∈ jobs.jobNameList ∧ 0 < s.timeLeft name

instance (jobs : Jobs) (s : State) (name : String) : Decidable (Unfinished jobs s name) :=
  inferInstanceAs (Decidable (_ ∧ _))

def unfinished (jobs : Jobs) (s : State) : Finset String :=
  jobs.jobNameList.toFinset.filter (0 < s.timeLeft ·)

/-- Every job in the warming list has a counter. -/
def Cache.Counted (cache : Cache) : Prop :=
  ∀ name ∈ cache.cacheWarming, cache.cacheWarmingCounter name ≠ none

structure Placed (c : Config) (jobs : Jobs) (s : State) : Prop where
  places : ∀ name, queued c s name + running c s name = if Unfinished jobs s name then 1 else 0
  queueAllowed : c.perCpuQueues = true → ∀ cpu < c.numCpus, ∀ name ∈ s.perCpuSchedQueue c cpu,
    (jobs.job name).allows cpu = true
  currentAllowed : ∀ cpu < c.numCpus, ∀ name, s.schedCurrent cpu = some name →
    (jobs.job name).allows cpu = true
  jobsFinished : s.jobsFinished + (unfinished jobs s).card = jobs.jobNameList.length
  timeLeft : ∀ name, 0 ≤ s.timeLeft name
  caches : ∀ cpu, (s.caches cpu).Counted

theorem sum_update {α β : Type*} [DecidableEq α] {places : Finset α} {q : α} (F : β → ℕ)
    (g : α → β) (hq : q ∈ places) (v : β) :
    ∑ i ∈ places, F (Function.update g q v i) + F (g q) = ∑ i ∈ places, F (g i) + F v := by
  have hcomp (i : α) : F (Function.update g q v i) = Function.update (F ∘ g) q (F v) i := by
    obtain rfl | hne := eq_or_ne i q
    · simp
    · simp [hne]
  simp only [hcomp]
  rw [Finset.sum_update_of_mem hq, ← Finset.add_sum_erase places (fun i => F (g i)) hq,
    Finset.sdiff_singleton_eq_erase]
  simp only [Function.comp_apply]
  omega

theorem queueOf_mem (hcpu : cpu < c.numCpus) : c.queueOf cpu ∈ c.queues :=
  Finset.mem_image_of_mem _ (Finset.mem_range.mpr hcpu)

theorem queued_of_eq (hcpu : cpu < c.numCpus) {l : List String}
    (h : s'.schedQueue = Function.update s.schedQueue (c.queueOf cpu) l) (name : String) :
    queued c s' name + (s.perCpuSchedQueue c cpu).count name = queued c s name + l.count name := by
  rw [queued, h]
  exact sum_update (fun l : List String => l.count name) s.schedQueue (queueOf_mem hcpu) l

theorem running_of_eq (hcpu : cpu < c.numCpus) {o : Option String}
    (h : s'.schedCurrent = Function.update s.schedCurrent cpu o) (name : String) :
    running c s' name + (if s.schedCurrent cpu = some name then 1 else 0) =
      running c s name + if o = some name then 1 else 0 := by
  rw [running, h]
  exact sum_update (fun o : Option String => if o = some name then 1 else 0) s.schedCurrent
    (Finset.mem_range.mpr hcpu) o

/-- What the queue and the current job of a CPU hold together has not changed. -/
theorem places_of_eq (hcpu : cpu < c.numCpus) {l : List String} {o : Option String}
    (hqueue : s'.schedQueue = Function.update s.schedQueue (c.queueOf cpu) l)
    (hcurrent : s'.schedCurrent = Function.update s.schedCurrent cpu o)
    (hsame : ∀ name, l.count name + (if o = some name then 1 else 0) =
      (s.perCpuSchedQueue c cpu).count name + if s.schedCurrent cpu = some name then 1 else 0)
    (name : String) :
    queued c s' name + running c s' name = queued c s name + running c s name := by
  have hq := queued_of_eq hcpu hqueue name
  have hr := running_of_eq hcpu hcurrent name
  have := hsame name
  omega

theorem le_running (hcpu : cpu < c.numCpus) (h : s.schedCurrent cpu = some name) :
    1 ≤ running c s name := by
  have hle : (if s.schedCurrent cpu = some name then 1 else 0) ≤ running c s name :=
    Finset.single_le_sum (f := fun cpu => if s.schedCurrent cpu = some name then 1 else 0)
      (fun _ _ => Nat.zero_le _) (Finset.mem_range.mpr hcpu)
  rwa [if_pos h] at hle

theorem Placed.unfinished_of_current (h : Placed c jobs s) (hcpu : cpu < c.numCpus)
    (hcurrent : s.schedCurrent cpu = some name) : Unfinished jobs s name := by
  by_contra hnot
  have hplaces := h.places name
  rw [if_neg hnot] at hplaces
  have := le_running hcpu hcurrent
  omega

/-! ## Caches -/

theorem adjustLoop_safe {contents : List String} {total : ℤ} {cache : Cache}
    (htotal : total = (contents.map fun name => (jobs.job name).workingSetSize).sum)
    (h : cache.Counted) : Safe Never (adjustLoop c jobs contents total cache) Cache.Counted := by
  induction contents generalizing total cache with
  | nil =>
      rw [adjustLoop, if_neg]
      · exact Safe.ok h
      · rw [htotal]
        exact c.cacheSize_nonneg.not_gt
  | cons jobGone rest ih =>
      rw [adjustLoop]
      split
      · refine ih ?_ fun name hname => ?_
        · rw [htotal, List.map_cons, List.sum_cons]
          ring
        · obtain rfl | hne := eq_or_ne name jobGone
          · simp
          · have hold : name ∈ cache.cacheWarming := by simpa [hne] using hname
            simpa [hne] using h name hold
      · exact Safe.ok h

theorem adjustSize_safe {cache : Cache} (h : cache.Counted) :
    Safe Never (adjustSize c jobs cache) Cache.Counted := by
  refine adjustLoop_safe ?_ h
  rw [totalWorkingSet, List.map_reverse, List.sum_reverse]

theorem newJob_safe {cache : Cache} (h : cache.Counted) (name : String) :
    Safe Never (newJob c jobs cache name) Cache.Counted := by
  rw [newJob]
  split
  · split
    · exact adjustSize_safe h
    · refine Safe.ok fun other hother => ?_
      obtain rfl | hne := eq_or_ne other name
      · simp
      · have hold : other ∈ cache.cacheWarming := by simpa [hne] using hother
        simpa [hne] using h other hold
  · exact Safe.ok h

theorem updateWarming_safe {cache : Cache} (h : cache.Counted) (name : String) :
    Safe Never (updateWarming c jobs cache name) Cache.Counted := by
  rw [updateWarming]
  split
  · next hwarming =>
      obtain ⟨counter, hcounter⟩ := Option.ne_none_iff_exists'.mp (h name hwarming)
      have hset (other : String) (hother : other ∈ cache.cacheWarming) :
          Function.update cache.cacheWarmingCounter name (some (counter - 1)) other ≠ none := by
        obtain rfl | hne := eq_or_ne other name
        · simp
        · simpa [hne] using h other hother
      rw [hcounter]
      dsimp only
      split
      · exact adjustSize_safe fun other hother => hset other (List.mem_of_mem_erase hother)
      · exact Safe.ok hset
  · exact Safe.ok h

/-! ## Moves -/

theorem perCpuSchedQueue_setQueue (hper : c.perCpuQueues = true) (s : State) (cpu other : ℕ)
    (l : List String) : (s.setQueue c cpu l).perCpuSchedQueue c other =
      if other = cpu then l else s.perCpuSchedQueue c other := by
  simp only [State.perCpuSchedQueue, State.setQueue, Config.queueOf, hper, if_true,
    Function.update_apply]

/-- When jobs move to places that they may have, they are placed again. -/
theorem Placed.move (h : Placed c jobs s)
    (hplaces : ∀ name, queued c s' name + running c s' name = queued c s name + running c s name)
    (hqueue : c.perCpuQueues = true → ∀ cpu < c.numCpus, ∀ name ∈ s'.perCpuSchedQueue c cpu,
      name ∈ s.perCpuSchedQueue c cpu ∨ (jobs.job name).allows cpu = true)
    (hcurrent : ∀ cpu < c.numCpus, ∀ name, s'.schedCurrent cpu = some name →
      s.schedCurrent cpu = some name ∨ (jobs.job name).allows cpu = true)
    (hfinished : s'.jobsFinished = s.jobsFinished) (htime : s'.timeLeft = s.timeLeft)
    (hcaches : ∀ cpu, (s'.caches cpu).Counted) : Placed c jobs s' where
  places name := by
    have hiff : Unfinished jobs s' name ↔ Unfinished jobs s name := by
      rw [Unfinished, htime, Unfinished]
    rw [hplaces, h.places, if_congr hiff rfl rfl]
  queueAllowed hper cpu hcpu name hname :=
    (hqueue hper cpu hcpu name hname).elim (h.queueAllowed hper cpu hcpu name) id
  currentAllowed cpu hcpu name hname :=
    (hcurrent cpu hcpu name hname).elim (h.currentAllowed cpu hcpu name) id
  jobsFinished := by
    rw [hfinished, unfinished, htime]
    exact h.jobsFinished
  timeLeft name := by
    rw [htime]
    exact h.timeLeft name
  caches := hcaches

theorem Placed.handleOneInterrupt (h : Placed c jobs s) (interrupt : Bool)
    (hcpu : cpu < c.numCpus) : Placed c jobs (handleOneInterrupt c interrupt s cpu) := by
  rw [CpuSchedMulti.handleOneInterrupt]
  cases hcurrent : s.schedCurrent cpu with
  | none => exact h
  | some name =>
      cases interrupt with
      | false => exact h
      | true =>
          dsimp only
          rw [if_pos rfl]
          refine h.move (places_of_eq hcpu rfl rfl fun other => ?_)
            (fun hper cpu' _ other hother => ?_) (fun cpu' _ other hother => ?_) rfl rfl h.caches
          · rw [List.count_append, List.count_singleton, hcurrent]
            simp
          · rw [perCpuSchedQueue_setQueue hper] at hother
            split at hother
            · next heq =>
                subst heq
                rw [List.mem_append, List.mem_singleton] at hother
                refine hother.imp_right fun hname => ?_
                rw [hname]
                exact h.currentAllowed cpu' hcpu name hcurrent
            · exact Or.inl hother
          · obtain rfl | hne := eq_or_ne cpu' cpu
            · simp [State.setCurrent, State.setQueue] at hother
            · simp [State.setCurrent, State.setQueue, hne] at hother
              exact Or.inl hother

theorem Placed.handleInterrupts (h : Placed c jobs s) :
    Placed c jobs (handleInterrupts c s) := by
  rw [CpuSchedMulti.handleInterrupts]
  refine List.foldlRecOn (motive := Placed c jobs) _ _ h fun s hs cpu hcpu => ?_
  exact hs.handleOneInterrupt _ (List.mem_range.mp hcpu)

/-- A queued job goes to another queue. -/
theorem Placed.steal (h : Placed c jobs s) {other : ℕ} (hcpu : cpu < c.numCpus)
    (hother : other < c.numCpus) (hne : other ≠ cpu) (hper : c.perCpuQueues = true)
    (hname : name ∈ s.perCpuSchedQueue c other) (hallows : (jobs.job name).allows cpu = true) :
    Placed c jobs ((s.setQueue c other ((s.perCpuSchedQueue c other).erase name)).setQueue c cpu
      (s.perCpuSchedQueue c cpu ++ [name])) := by
  refine h.move (fun other' => ?_) (fun _ cpu' _ other' hother' => ?_)
    (fun cpu' _ other' hother' => Or.inl hother') rfl rfl h.caches
  · have hcount := List.count_pos_iff.mpr hname
    let s₁ := s.setQueue c other ((s.perCpuSchedQueue c other).erase name)
    have hcpuQueue : s₁.perCpuSchedQueue c cpu = s.perCpuSchedQueue c cpu := by
      rw [perCpuSchedQueue_setQueue hper, if_neg hne.symm]
    have hfrom := queued_of_eq hother (show s₁.schedQueue = _ from rfl) other'
    have hto := queued_of_eq hcpu (show (s₁.setQueue c cpu
      (s.perCpuSchedQueue c cpu ++ [name])).schedQueue = _ from rfl) other'
    rw [List.count_erase] at hfrom
    rw [hcpuQueue, List.count_append, List.count_singleton] at hto
    change queued c (s₁.setQueue c cpu (s.perCpuSchedQueue c cpu ++ [name])) other' +
      running c s other' = _
    obtain rfl | hname := eq_or_ne other' name
    · simp only [beq_self_eq_true, if_true] at hfrom hto
      omega
    · simp only [beq_iff_eq, hname.symm, if_false] at hfrom hto
      omega
  · rw [perCpuSchedQueue_setQueue hper] at hother'
    split at hother'
    · next heq =>
        subst heq
        rw [List.mem_append, List.mem_singleton] at hother'
        refine hother'.imp_right fun heq => ?_
        rwa [heq]
    · rw [perCpuSchedQueue_setQueue hper] at hother'
      split at hother'
      · next heq =>
          subst heq
          exact Or.inl (List.mem_of_mem_erase hother')
      · exact Or.inl hother'

/-! ## A tick of a CPU -/

/-- The time that the jobs have left. -/
def workLeft (jobs : Jobs) (s : State) : ℕ :=
  ∑ name ∈ jobs.jobNameList.toFinset, (s.timeLeft name).toNat

theorem getRate_pos (c : Config) (cache : Cache) (name : String) : 1 ≤ getRate c cache name := by
  rw [getRate]
  split
  · exact c.cacheRateWarm_pos
  · exact c.cacheRateCold_pos

variable {left : ℤ}

theorem mem_unfinished : name ∈ unfinished jobs s ↔ Unfinished jobs s name := by
  rw [unfinished, Finset.mem_filter, List.mem_toFinset, Unfinished]

theorem workLeft_lt (hmem : name ∈ jobs.jobNameList)
    (htime : s'.timeLeft = Function.update s.timeLeft name left) (hleft : 0 ≤ left)
    (hlt : left < s.timeLeft name) : workLeft jobs s' < workLeft jobs s := by
  have hsum := sum_update Int.toNat s.timeLeft (List.mem_toFinset.mpr hmem) left
  rw [← htime] at hsum
  rw [workLeft, workLeft]
  omega

/-- The job has run, and has time left. -/
theorem Placed.goOn (h : Placed c jobs s) (hpos : 0 < s.timeLeft name) (hleft : 0 < left)
    (htime : s'.timeLeft = Function.update s.timeLeft name left)
    (hqueue : s'.schedQueue = s.schedQueue) (hcurrent : s'.schedCurrent = s.schedCurrent)
    (hfinished : s'.jobsFinished = s.jobsFinished) (hcaches : ∀ cpu, (s'.caches cpu).Counted) :
    Placed c jobs s' := by
  have hiff (other : String) : 0 < s'.timeLeft other ↔ 0 < s.timeLeft other := by
    rw [htime]
    obtain rfl | hne := eq_or_ne other name
    · rw [Function.update_self]
      exact iff_of_true hleft hpos
    · rw [Function.update_of_ne hne]
  constructor
  · intro other
    have hsame : Unfinished jobs s' other ↔ Unfinished jobs s other :=
      and_congr_right fun _ => hiff other
    rw [queued, running, hqueue, hcurrent, if_congr hsame rfl rfl]
    exact h.places other
  · intro hper cpu hcpu other hother
    rw [State.perCpuSchedQueue, hqueue] at hother
    exact h.queueAllowed hper cpu hcpu other hother
  · intro cpu hcpu other hother
    rw [hcurrent] at hother
    exact h.currentAllowed cpu hcpu other hother
  · have hsame : unfinished jobs s' = unfinished jobs s :=
      Finset.filter_congr fun other _ => by rw [hiff]
    rw [hfinished, hsame]
    exact h.jobsFinished
  · intro other
    rw [htime]
    obtain rfl | hne := eq_or_ne other name
    · rw [Function.update_self]
      exact hleft.le
    · rw [Function.update_of_ne hne]
      exact h.timeLeft other
  · exact hcaches

/-- The job has run for the last time. -/
theorem Placed.finish (h : Placed c jobs s) (hcpu : cpu < c.numCpus)
    (hrun : s.schedCurrent cpu = some name)
    (htime : s'.timeLeft = Function.update s.timeLeft name 0)
    (hqueue : s'.schedQueue = s.schedQueue)
    (hcurrent : s'.schedCurrent = Function.update s.schedCurrent cpu none)
    (hfinished : s'.jobsFinished = s.jobsFinished + 1)
    (hcaches : ∀ cpu, (s'.caches cpu).Counted) : Placed c jobs s' := by
  have hname := h.unfinished_of_current hcpu hrun
  have hnot : ¬ Unfinished jobs s' name := by
    rw [Unfinished, htime, Function.update_self]
    simp
  have hiff {other : String} (hne : other ≠ name) :
      Unfinished jobs s' other ↔ Unfinished jobs s other := by
    rw [Unfinished, Unfinished, htime, Function.update_of_ne hne]
  constructor
  · intro other
    have hr := running_of_eq hcpu hcurrent other
    have hplaces := h.places other
    rw [hrun, if_neg (show ¬ none = some other from nofun)] at hr
    rw [queued, hqueue]
    rw [queued] at hplaces
    obtain rfl | hne := eq_or_ne other name
    · rw [if_pos rfl] at hr
      rw [if_pos hname] at hplaces
      rw [if_neg hnot]
      omega
    · rw [if_neg fun heq => hne (Option.some.inj heq).symm] at hr
      rw [if_congr (hiff hne) rfl rfl]
      omega
  · intro hper cpu hcpu other hother
    rw [State.perCpuSchedQueue, hqueue] at hother
    exact h.queueAllowed hper cpu hcpu other hother
  · intro cpu' hcpu' other hother
    rw [hcurrent] at hother
    obtain rfl | hne := eq_or_ne cpu' cpu
    · simp at hother
    · rw [Function.update_of_ne hne] at hother
      exact h.currentAllowed cpu' hcpu' other hother
  · have herase : unfinished jobs s' = (unfinished jobs s).erase name := by
      ext other
      rw [Finset.mem_erase, mem_unfinished, mem_unfinished]
      obtain rfl | hne := eq_or_ne other name
      · simp [hnot]
      · simp [hne, hiff hne]
    have hmem := mem_unfinished.mpr hname
    have hcard := Finset.card_pos.mpr ⟨name, hmem⟩
    have := h.jobsFinished
    rw [hfinished, herase, Finset.card_erase_of_mem hmem]
    omega
  · intro other
    rw [htime]
    obtain rfl | hne := eq_or_ne other name
    · rw [Function.update_self]
    · rw [Function.update_of_ne hne]
      exact h.timeLeft other
  · exact hcaches

/-- What a tick of `cpu` does, which leaves the other CPUs alone. -/
structure Ticked (c : Config) (jobs : Jobs) (cpu : ℕ) (s s' : State) : Prop where
  placed : Placed c jobs s'
  less : workLeft jobs s' < workLeft jobs s
  others : ∀ other, other ≠ cpu → s'.schedCurrent other = s.schedCurrent other

theorem runOneTick_safe (h : Placed c jobs s) (hcpu : cpu < c.numCpus)
    (hcurrent : s.schedCurrent cpu = some name) :
    Safe Never (runOneTick c jobs s cpu name) (Ticked c jobs cpu s) := by
  obtain ⟨hmem, hpos⟩ := h.unfinished_of_current hcpu hcurrent
  have hrate := getRate_pos c (s.caches cpu) name
  rw [runOneTick]
  refine (updateWarming_safe (h.caches cpu) name).bind fun cache hcache => ?_
  dsimp only
  set left := if s.timeLeft name - getRate c (s.caches cpu) name < 0 then 0
    else s.timeLeft name - getRate c (s.caches cpu) name with hleft
  have hnonneg : 0 ≤ left := by
    rw [hleft]
    split <;> omega
  have hlt : left < s.timeLeft name := by
    rw [hleft]
    split <;> omega
  have hcaches (other : ℕ) : (Function.update s.caches cpu cache other).Counted := by
    obtain rfl | hne := eq_or_ne other cpu
    · rwa [Function.update_self]
    · rw [Function.update_of_ne hne]
      exact h.caches other
  split
  · next hdone =>
      have hzero : left = 0 := by omega
      refine Safe.ok ⟨h.finish hcpu hcurrent ?_ rfl rfl rfl hcaches,
        workLeft_lt hmem rfl hnonneg hlt, fun other hne => Function.update_of_ne hne ..⟩
      rw [← hzero]
      rfl
  · next hdone =>
      exact Safe.ok ⟨h.goOn hpos (by omega) rfl rfl rfl rfl hcaches,
        workLeft_lt hmem rfl hnonneg hlt, fun _ _ => rfl⟩

end OsLabs.CpuSchedMulti
