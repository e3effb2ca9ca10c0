import OsLabs.CpuSchedMulti.Placement

/-!
# The cache of a CPU

What holds of a cache after any calls to `new_job` and `update_warming`.
-/

namespace OsLabs.CpuSchedMulti

open OsLabs.Checked

inductive CacheCall
  | newJob (name : String)
  | updateWarming (name : String)
deriving DecidableEq

def CacheCall.perform (c : Config) (jobs : Jobs) (cache : Cache) :
    CacheCall → Except PyError Cache
  | .newJob name => CpuSchedMulti.newJob c jobs cache name
  | .updateWarming name => CpuSchedMulti.updateWarming c jobs cache name

/-- `cache.__init__` -/
def Cache.start : Cache := ⟨[], [], fun _ => none⟩

/-- The jobs of the cache, warm or warming. -/
def Cache.jobNames (cache : Cache) : List String := cache.cacheContents ++ cache.cacheWarming

variable {c : Config} {jobs : Jobs} {cache cache' : Cache} {contents : List String} {total : ℤ}
  {name : String} {seen : Set String} {calls : List CacheCall}

/-! ## One call -/

/-- Jobs that are kicked out of the cache warm up again. -/
theorem adjustLoop_ok (hcontents : cache.cacheContents = contents.reverse)
    (htotal : total = totalWorkingSet jobs cache)
    (h : adjustLoop c jobs contents total cache = .ok cache') :
    cache'.jobNames.Perm cache.jobNames ∧ totalWorkingSet jobs cache' ≤ c.cacheSize := by
  induction contents generalizing total cache with
  | nil =>
      rw [adjustLoop] at h
      split at h
      case isTrue => cases h
      case isFalse hfits =>
        cases h
        exact ⟨.refl _, htotal ▸ not_lt.mp hfits⟩
  | cons jobGone rest ih =>
      rw [adjustLoop] at h
      split at h
      case isTrue =>
        have hless : total - (jobs.job jobGone).workingSetSize =
            (rest.reverse.map fun name => (jobs.job name).workingSetSize).sum := by
          rw [htotal, totalWorkingSet, hcontents, List.reverse_cons, List.map_append,
            List.sum_append]
          simp
        obtain ⟨hperm, hfits⟩ := ih rfl hless h
        refine ⟨hperm.trans ?_, hfits⟩
        rw [Cache.jobNames, Cache.jobNames, hcontents, List.reverse_cons, List.append_assoc]
        exact List.perm_append_comm.append_left rest.reverse
      case isFalse hfits =>
        cases h
        exact ⟨.refl _, htotal ▸ not_lt.mp hfits⟩

theorem adjustSize_ok (h : adjustSize c jobs cache = .ok cache') :
    cache'.jobNames.Perm cache.jobNames ∧ totalWorkingSet jobs cache' ≤ c.cacheSize :=
  adjustLoop_ok (List.reverse_reverse _).symm rfl h

/-- A job that the cache has not seen joins it. -/
theorem newJob_ok (hfits : totalWorkingSet jobs cache ≤ c.cacheSize)
    (h : newJob c jobs cache name = .ok cache') :
    cache'.jobNames.Perm (cache.jobNames.insert name) ∧
      totalWorkingSet jobs cache' ≤ c.cacheSize := by
  rw [newJob] at h
  split at h
  case isTrue hnew =>
    have hinsert : cache.jobNames.insert name = name :: cache.jobNames :=
      List.insert_of_not_mem (by simpa [Cache.jobNames] using hnew)
    rw [hinsert]
    split at h
    case isTrue => exact adjustSize_ok h
    case isFalse =>
      cases h
      refine ⟨?_, hfits⟩
      rw [Cache.jobNames, ← List.append_assoc]
      exact List.perm_append_singleton name cache.jobNames
  case isFalse hold =>
    cases h
    have hmem : name ∈ cache.jobNames := by
      rw [not_and_or, not_not, not_not] at hold
      exact List.mem_append.mpr hold
    rw [List.insert_of_mem hmem]
    exact ⟨.refl _, hfits⟩

/-- No job leaves the cache, whether it becomes warm or not. -/
theorem updateWarming_ok (hfits : totalWorkingSet jobs cache ≤ c.cacheSize)
    (h : updateWarming c jobs cache name = .ok cache') :
    cache'.jobNames.Perm cache.jobNames ∧ totalWorkingSet jobs cache' ≤ c.cacheSize := by
  rw [updateWarming] at h
  split at h
  case isTrue hwarming =>
    split at h
    case h_1 => cases h
    case h_2 counter hcounter =>
      dsimp only at h
      split at h
      case isTrue =>
        obtain ⟨hperm, hfits⟩ := adjustSize_ok h
        refine ⟨hperm.trans ?_, hfits⟩
        have hmoved : (name :: (cache.cacheContents ++ cache.cacheWarming.erase name)).Perm
            (cache.cacheContents ++ name :: cache.cacheWarming.erase name) :=
          List.perm_middle.symm
        exact hmoved.trans ((List.perm_cons_erase hwarming).symm.append_left _)
      case isFalse =>
        cases h
        exact ⟨.refl _, hfits⟩
  case isFalse =>
    cases h
    exact ⟨.refl _, hfits⟩

/-! ## Any calls -/

/-- Every job seen is in the cache once, warm or warming, and the warm ones fit. -/
structure Cache.Consistent (c : Config) (jobs : Jobs) (seen : Set String) (cache : Cache) :
    Prop where
  counted : cache.Counted
  nodup : cache.jobNames.Nodup
  fits : totalWorkingSet jobs cache ≤ c.cacheSize
  mem_iff : ∀ name, name ∈ cache.jobNames ↔ name ∈ seen

theorem start_consistent (c : Config) (jobs : Jobs) : Cache.start.Consistent c jobs ∅ where
  counted := nofun
  nodup := List.nodup_nil
  fits := c.cacheSize_nonneg
  mem_iff := fun _ => iff_of_false List.not_mem_nil (Set.notMem_empty _)

def CacheCall.sees : CacheCall → Set String
  | .newJob name => {name}
  | .updateWarming _ => ∅

theorem Cache.Consistent.perform (h : cache.Consistent c jobs seen) (call : CacheCall) :
    ∃ cache', call.perform c jobs cache = .ok cache' ∧
      cache'.Consistent c jobs (seen ∪ call.sees) := by
  cases call with
  | newJob name =>
      have hsafe : Safe Never (CpuSchedMulti.newJob c jobs cache name) Cache.Counted :=
        newJob_safe h.counted name
      obtain ⟨cache', hcall, hcounted⟩ := hsafe.exists_ok fun _ => id
      obtain ⟨hperm, hfits⟩ := newJob_ok h.fits hcall
      refine ⟨cache', hcall, hcounted, hperm.nodup_iff.mpr h.nodup.insert, hfits,
        fun other => ?_⟩
      rw [hperm.mem_iff, List.mem_insert_iff, h.mem_iff, or_comm]
      rfl
  | updateWarming name =>
      have hsafe : Safe Never (CpuSchedMulti.updateWarming c jobs cache name) Cache.Counted :=
        updateWarming_safe h.counted name
      obtain ⟨cache', hcall, hcounted⟩ := hsafe.exists_ok fun _ => id
      obtain ⟨hperm, hfits⟩ := updateWarming_ok h.fits hcall
      refine ⟨cache', hcall, hcounted, hperm.nodup_iff.mpr h.nodup, hfits, fun other => ?_⟩
      rw [hperm.mem_iff, h.mem_iff, CacheCall.sees, Set.union_empty]

theorem Cache.Consistent.run (h : cache.Consistent c jobs seen) (calls : List CacheCall) :
    ∃ cache', calls.foldlM (CacheCall.perform c jobs) cache = .ok cache' ∧
      cache'.Consistent c jobs (seen ∪ {name | .newJob name ∈ calls}) := by
  induction calls generalizing cache seen with
  | nil => exact ⟨cache, rfl, by simpa using h⟩
  | cons call calls ih =>
      obtain ⟨next, hcall, hnext⟩ := h.perform call
      obtain ⟨cache', hcalls, hcache'⟩ := ih hnext
      refine ⟨cache', ?_, ?_⟩
      · rw [List.foldlM_cons, hcall]
        exact hcalls
      · have hsees : call.sees ∪ {name | .newJob name ∈ calls} =
            {name | .newJob name ∈ call :: calls} := by
          ext name
          cases call <;> simp [CacheCall.sees]
        rwa [Set.union_assoc, hsees] at hcache'

/-- After any calls, whatever their order, no job is listed twice, the warm jobs fit into the
cache, and each job seen is either warm or warming. No call raises. -/
theorem cache_consistent (c : Config) (jobs : Jobs) (calls : List CacheCall) :
    ∃ cache, calls.foldlM (CacheCall.perform c jobs) Cache.start = .ok cache ∧
      cache.cacheContents.Nodup ∧ cache.cacheWarming.Nodup ∧
      cache.cacheContents.Disjoint cache.cacheWarming ∧
      totalWorkingSet jobs cache ≤ c.cacheSize ∧
      ∀ name, .newJob name ∈ calls →
        Xor (name ∈ cache.cacheContents) (name ∈ cache.cacheWarming) := by
  obtain ⟨cache, hcalls, h⟩ := (start_consistent c jobs).run calls
  obtain ⟨hcontents, hwarming, hdisjoint⟩ := List.nodup_append'.mp h.nodup
  refine ⟨cache, hcalls, hcontents, hwarming, hdisjoint, h.fits, fun name hname => ?_⟩
  have hmem : name ∈ cache.jobNames := (h.mem_iff name).mpr (.inr hname)
  obtain hwarm | hwarms := List.mem_append.mp hmem
  · exact .inl ⟨hwarm, fun hwarms => hdisjoint hwarm hwarms⟩
  · exact .inr ⟨hwarms, fun hwarm => hdisjoint hwarm hwarms⟩

end OsLabs.CpuSchedMulti
