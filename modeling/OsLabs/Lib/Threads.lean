import Mathlib

/-!
# Interleaved threads

Any finite number of threads, each at a place of its program. What the threads
at some places contribute to an invariant is a sum over all threads, which a
step of one thread changes by the difference of its two places.
-/

namespace OsLabs.Threads

variable {ι τ : Type*} [Fintype ι]

/-- What all threads contribute together. -/
def total (pc : ι → τ) (weight : τ → ℕ) : ℕ := ∑ i, weight (pc i)

variable {pc : ι → τ} {weight : τ → ℕ} {i j : ι} {x : τ}

theorem le_total (pc : ι → τ) (weight : τ → ℕ) (i : ι) : weight (pc i) ≤ total pc weight :=
  Finset.single_le_sum (f := fun i => weight (pc i)) (fun _ _ => Nat.zero_le _) (Finset.mem_univ i)

theorem total_eq_zero_iff : total pc weight = 0 ↔ ∀ i, weight (pc i) = 0 := by
  simp [total]

theorem total_const (h : weight x = 0) : total (fun _ : ι => x) weight = 0 :=
  total_eq_zero_iff.mpr fun _ => h

theorem exists_of_total_pos (h : 0 < total pc weight) : ∃ i, 0 < weight (pc i) := by
  obtain ⟨i, -, hi⟩ := Finset.sum_pos_iff.mp h
  exact ⟨i, hi⟩

theorem total_le_total {weight' : τ → ℕ} (h : ∀ x, weight x ≤ weight' x) :
    total pc weight ≤ total pc weight' :=
  Finset.sum_le_sum fun i _ => h (pc i)

/-- All threads are where `weight` is 1. -/
theorem total_eq_card_iff (hle : ∀ x, weight x ≤ 1) :
    total pc weight = Fintype.card ι ↔ ∀ i, weight (pc i) = 1 := by
  have hone : ∑ _i : ι, 1 = Fintype.card ι := by simp
  unfold total
  rw [← hone, Finset.sum_eq_sum_iff_of_le fun i _ => hle (pc i)]
  simp

/-! ## Deadlock -/

/-- If every blocked thread waits for a thread of a higher rank, some thread can run. -/
theorem exists_runnable {unfinished runnable : ι → Prop} {ρ : Type*} [LinearOrder ρ] (rank : ι → ρ)
    (hwaits : ∀ i, unfinished i → ¬ runnable i → ∃ j, unfinished j ∧ rank i < rank j)
    (h : ∃ i, unfinished i) : ∃ i, unfinished i ∧ runnable i := by
  classical
  obtain ⟨i, hi⟩ := h
  obtain ⟨m, hm, hmax⟩ := Finset.exists_max_image (Finset.univ.filter unfinished) rank
    ⟨i, by simpa using hi⟩
  have hm : unfinished m := by simpa using hm
  refine ⟨m, hm, ?_⟩
  by_contra hblocked
  obtain ⟨j, hj, hlt⟩ := hwaits m hm hblocked
  exact absurd (hmax j (by simpa using hj)) (not_le_of_gt hlt)

/-! ## One thread steps -/

variable [DecidableEq ι]

theorem add_le_total (pc : ι → τ) (weight : τ → ℕ) (hij : i ≠ j) :
    weight (pc i) + weight (pc j) ≤ total pc weight := by
  have hpair : ∑ k ∈ {i, j}, weight (pc k) = weight (pc i) + weight (pc j) := Finset.sum_pair hij
  rw [← hpair]
  exact Finset.sum_le_sum_of_subset (Finset.subset_univ _)

/-- Where at most one thread can be, there is only one. -/
theorem eq_of_total_le_one (h : total pc weight ≤ 1) (hi : 0 < weight (pc i))
    (hj : 0 < weight (pc j)) : i = j := by
  by_contra hij
  have := add_le_total pc weight hij
  omega

/-- A thread that is alone where `weight` counts is alone in a part of it. -/
theorem total_eq_of_alone {part : τ → ℕ} (hle : ∀ x, part x ≤ weight x)
    (h : total pc weight ≤ 1) (hi : 0 < weight (pc i)) : total pc part = part (pc i) := by
  unfold total
  rw [← Finset.add_sum_erase Finset.univ (fun j => part (pc j)) (Finset.mem_univ i),
    Finset.sum_eq_zero, add_zero]
  intro j hj
  have hji := add_le_total pc weight (Finset.ne_of_mem_erase hj)
  have := hle (pc j)
  omega

theorem total_update (pc : ι → τ) (weight : τ → ℕ) (i : ι) (x : τ) :
    total (Function.update pc i x) weight + weight (pc i) = total pc weight + weight x := by
  have hrest : ∑ j ∈ Finset.univ.erase i, weight (Function.update pc i x j) =
      ∑ j ∈ Finset.univ.erase i, weight (pc j) :=
    Finset.sum_congr rfl fun j hj => by rw [Function.update_of_ne (Finset.ne_of_mem_erase hj)]
  unfold total
  rw [← Finset.add_sum_erase _ _ (Finset.mem_univ i), hrest, Function.update_self,
    ← Finset.add_sum_erase Finset.univ (fun j => weight (pc j)) (Finset.mem_univ i)]
  omega

/-! ## Semaphores -/

/-- `sem_wait`, which blocks at 0. -/
def semWait : ℕ → Option ℕ
  | 0 => none
  | value + 1 => some value

/-- `sem_post`. -/
def semPost (value : ℕ) : ℕ := value + 1

theorem semWait_eq_some {value value' : ℕ} : semWait value = some value' ↔ value = value' + 1 := by
  cases value with
  | zero => simp [semWait]
  | succ value => simp [semWait]

theorem semWait_eq_none {value : ℕ} : semWait value = none ↔ value = 0 := by
  cases value <;> simp [semWait]

/-! ## Mutexes -/

section Mutexes

variable {κ : Type*} [DecidableEq κ] {holder : κ → Option ι} {holds : τ → κ → Prop} {l : κ}
  {a b : τ}

omit [Fintype ι] [DecidableEq ι] [DecidableEq κ] in
/-- A mutex is held by the thread whose place holds it. -/
def Owned (holder : κ → Option ι) (pc : ι → τ) (holds : τ → κ → Prop) : Prop :=
  ∀ l i, holder l = some i ↔ holds (pc i) l

omit [Fintype ι] [DecidableEq κ] in
theorem Owned.stay (h : Owned holder pc holds) (hpc : pc i = a)
    (hb : ∀ l, holds b l ↔ holds a l) : Owned holder (Function.update pc i b) holds := by
  intro l j
  obtain rfl | hji := eq_or_ne j i
  · rw [Function.update_self, hb, h l j, hpc]
  · rw [Function.update_of_ne hji, h l j]

omit [Fintype ι] in
theorem Owned.acquire (h : Owned holder pc holds) (hpc : pc i = a) (hfree : holder l = none)
    (hb : ∀ l', holds b l' ↔ l' = l ∨ holds a l') :
    Owned (Function.update holder l (some i)) (Function.update pc i b) holds := by
  have hnobody (j : ι) : ¬ holds (pc j) l := by
    rw [← h l j, hfree]
    simp
  intro l' j
  obtain rfl | hji := eq_or_ne j i
  · rw [Function.update_self, hb]
    obtain rfl | hl := eq_or_ne l' l
    · simp
    · simp [hl, h l' j, hpc]
  · rw [Function.update_of_ne hji]
    obtain rfl | hl := eq_or_ne l' l
    · simp [hnobody j, hji.symm]
    · rw [Function.update_of_ne hl, h l' j]

omit [Fintype ι] in
theorem Owned.release (h : Owned holder pc holds) (hpc : pc i = a) (hheld : holds a l)
    (hb : ∀ l', holds b l' ↔ l' ≠ l ∧ holds a l') :
    Owned (Function.update holder l none) (Function.update pc i b) holds := by
  have halone : holder l = some i := (h l i).mpr (hpc ▸ hheld)
  intro l' j
  obtain rfl | hji := eq_or_ne j i
  · rw [Function.update_self, hb]
    obtain rfl | hl := eq_or_ne l' l
    · simp
    · simp [hl, h l' j, hpc]
  · rw [Function.update_of_ne hji]
    obtain rfl | hl := eq_or_ne l' l
    · rw [← h l' j, halone]
      simp [hji.symm]
    · rw [Function.update_of_ne hl, h l' j]

omit [Fintype ι] [DecidableEq ι] [DecidableEq κ] in
/-- Two threads do not hold the same mutex. -/
theorem Owned.eq (h : Owned holder pc holds) (hi : holds (pc i) l) (hj : holds (pc j) l) :
    i = j :=
  Option.some.inj (((h l i).mpr hi).symm.trans ((h l j).mpr hj))

end Mutexes

/-- A mutex that a thread has locked was free. -/
theorem eq_of_lock {α : Type*} {locked : Bool} {taken s : α}
    (h : (if locked then none else some taken) = some s) : s = taken ∧ locked = false := by
  split at h
  · cases h
  · next hfree => exact ⟨(Option.some.inj h).symm, Bool.eq_false_iff.mpr hfree⟩

end OsLabs.Threads
