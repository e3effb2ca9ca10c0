import Mathlib

/-!
# A counter without a lock

Each thread loads the counter and later stores one more than it has loaded. What
the others store in between is lost.
-/

namespace OsLabs.LostUpdate

variable {ι : Type*} [DecidableEq ι]

/-- The counter, what each thread has loaded and not yet stored, and how often each has stored. -/
structure Counter (ι : Type*) where
  value : ℕ
  loaded : ι → Option ℕ
  stores : ι → ℕ
  count : ℕ

def Counter.zero : Counter ι := ⟨0, fun _ => none, fun _ => 0, 0⟩

def Counter.load (s : Counter ι) (i : ι) : Counter ι :=
  { s with loaded := Function.update s.loaded i (some s.value) }

/-- The thread has loaded `w`. -/
def Counter.store (s : Counter ι) (i : ι) (w : ℕ) : Counter ι where
  value := w + 1
  loaded := Function.update s.loaded i none
  stores := Function.update s.stores i (s.stores i + 1)
  count := s.count + 1

variable {s s' : Counter ι} {i : ι} {w : ℕ}

/-- What a step of the thread `i` does to the counter. -/
inductive Counter.Moves (s : Counter ι) (i : ι) : Counter ι → Prop
  | keeps : s.Moves i s
  | loads (hnone : s.loaded i = none) : s.Moves i (s.load i)
  | stores (w : ℕ) (hw : s.loaded i = some w) : s.Moves i (s.store i w)

theorem load_loaded (j : ι) :
    (s.load i).loaded j = if j = i then some s.value else s.loaded j :=
  Function.update_apply s.loaded i (some s.value) j

theorem store_loaded (j : ι) : (s.store i w).loaded j = if j = i then none else s.loaded j :=
  Function.update_apply s.loaded i none j

theorem store_stores (j : ι) :
    (s.store i w).stores j = if j = i then s.stores i + 1 else s.stores j :=
  Function.update_apply s.stores i (s.stores i + 1) j

/-- The other threads do not notice. -/
theorem Counter.Moves.other (h : s.Moves i s') {j : ι} (hj : j ≠ i) :
    s'.loaded j = s.loaded j ∧ s'.stores j = s.stores j := by
  cases h with
  | keeps => exact ⟨rfl, rfl⟩
  | loads => exact ⟨Function.update_of_ne hj _ _, rfl⟩
  | stores w => exact ⟨Function.update_of_ne hj _ _, Function.update_of_ne hj _ _⟩

theorem loaded_load {j : ι} {x : ℕ} (h : (s.load i).loaded j = some x) :
    x = s.value ∨ s.loaded j = some x := by
  rw [load_loaded] at h
  split at h
  · exact Or.inl (Option.some.inj h).symm
  · exact Or.inr h

theorem loaded_store {j : ι} {x : ℕ} (h : (s.store i w).loaded j = some x) :
    j ≠ i ∧ s.loaded j = some x := by
  rw [store_loaded] at h
  split at h
  case isTrue => cases h
  case isFalse hj => exact ⟨hj, h⟩

/-! ## Bounds -/

/-- A value of 1 was stored last by a thread that had not stored before. -/
structure Bounded (s : Counter ι) : Prop where
  value_le : s.value ≤ s.count
  loaded_le : ∀ i w, s.loaded i = some w → w ≤ s.count
  value_pos : 0 < s.count → 0 < s.value
  loaded_pos : ∀ i w, s.loaded i = some w → 0 < s.stores i → 0 < w
  count_pos : ∀ i, 0 < s.stores i → 0 < s.count
  last : 0 < s.count → s.value = 1 → ∃ i, s.stores i = 1

omit [DecidableEq ι] in
theorem bounded_zero : Bounded (Counter.zero : Counter ι) where
  value_le := le_rfl
  loaded_le := fun i w h => by cases h
  value_pos := id
  loaded_pos := fun i w h => by cases h
  count_pos := fun _ => id
  last := fun h => absurd h (lt_irrefl 0)

theorem Bounded.load (h : Bounded s) (i : ι) : Bounded (s.load i) where
  value_le := h.value_le
  loaded_le j x hx := by
    rcases loaded_load hx with rfl | hold
    · exact h.value_le
    · exact h.loaded_le j x hold
  value_pos := h.value_pos
  loaded_pos j x hx hstored := by
    rcases loaded_load hx with rfl | hold
    · exact h.value_pos (h.count_pos j hstored)
    · exact h.loaded_pos j x hold hstored
  count_pos := h.count_pos
  last := h.last

theorem Bounded.store (h : Bounded s) (hw : s.loaded i = some w) : Bounded (s.store i w) where
  value_le := Nat.succ_le_succ (h.loaded_le i w hw)
  loaded_le j x hx := (h.loaded_le j x (loaded_store hx).2).trans (Nat.le_succ _)
  value_pos _ := Nat.succ_pos w
  loaded_pos j x hx hstored := by
    rcases loaded_store hx with ⟨hj, hold⟩
    rw [store_stores, if_neg hj] at hstored
    exact h.loaded_pos j x hold hstored
  count_pos _ _ := Nat.succ_pos s.count
  last _ hone := by
    have hzero : w = 0 := Nat.succ.inj hone
    have hfirst : s.stores i = 0 := by
      by_contra hstored
      exact absurd (h.loaded_pos i w hw (Nat.pos_of_ne_zero hstored)) (by omega)
    refine ⟨i, ?_⟩
    rw [store_stores, if_pos rfl, hfirst]

theorem Bounded.moves (h : Bounded s) (hmoves : s.Moves i s') : Bounded s' := by
  cases hmoves with
  | keeps => exact h
  | loads => exact h.load i
  | stores w hw => exact h.store hw

omit [DecidableEq ι] in
/-- When every thread stores at least twice, or not at all, so does the counter count. -/
theorem Bounded.two_le (h : Bounded s) (hpos : 0 < s.count) (htwice : ∀ i, s.stores i ≠ 1) :
    2 ≤ s.value := by
  have hvalue := h.value_pos hpos
  by_contra hless
  rcases h.last hpos (by omega) with ⟨i, hi⟩
  exact htwice i hi

/-! ## Nothing lost -/

structure Exact (s : Counter ι) : Prop where
  value : s.value = s.count
  loaded : ∀ i w, s.loaded i = some w → w = s.count

omit [DecidableEq ι] in
theorem exact_zero : Exact (Counter.zero : Counter ι) := ⟨rfl, fun i w h => by cases h⟩

theorem Exact.load (h : Exact s) (i : ι) : Exact (s.load i) where
  value := h.value
  loaded j x hx := by
    rcases loaded_load hx with rfl | hold
    · exact h.value
    · exact h.loaded j x hold

/-- A thread that stores has to be the only one that has loaded. -/
theorem Exact.store (h : Exact s) (hw : s.loaded i = some w)
    (halone : ∀ j, j ≠ i → s.loaded j = none) : Exact (s.store i w) where
  value := congrArg Nat.succ (h.loaded i w hw)
  loaded j x hx := by
    rcases loaded_store hx with ⟨hj, hold⟩
    rw [halone j hj] at hold
    cases hold

theorem Exact.moves (h : Exact s) (hmoves : s.Moves i s')
    (halone : ∀ j, j ≠ i → s.loaded j = none) : Exact s' := by
  cases hmoves with
  | keeps => exact h
  | loads => exact h.load i
  | stores w hw => exact h.store hw halone

/-! ## Something lost -/

/-- A thread has loaded what is no longer the count, or will have. -/
def Lossy (s : Counter ι) : Prop :=
  (∃ i j, i ≠ j ∧ s.loaded i ≠ none ∧ s.loaded j ≠ none) ∨
    (∃ i w, s.loaded i = some w ∧ w < s.count) ∨
    (s.value < s.count ∧ ∀ i w, s.loaded i = some w → w < s.count)

theorem Lossy.load (h : Lossy s) (hnone : s.loaded i = none) : Lossy (s.load i) := by
  have hother {j : ι} (hj : s.loaded j ≠ none) : (s.load i).loaded j = s.loaded j := by
    have hne : j ≠ i := by
      rintro rfl
      exact hj hnone
    exact Function.update_of_ne hne _ _
  rcases h with ⟨j, k, hjk, hj, hk⟩ | ⟨j, x, hj, hx⟩ | ⟨hvalue, hloaded⟩
  · refine Or.inl ⟨j, k, hjk, ?_, ?_⟩
    · rwa [hother hj]
    · rwa [hother hk]
  · refine Or.inr (Or.inl ⟨j, x, ?_, hx⟩)
    rwa [hother (by rw [hj]; exact Option.some_ne_none x)]
  · refine Or.inr (Or.inr ⟨hvalue, fun j x hx => ?_⟩)
    rcases loaded_load hx with rfl | hold
    · exact hvalue
    · exact hloaded j x hold

theorem Lossy.store (h : Lossy s) (hbound : Bounded s) (hw : s.loaded i = some w) :
    Lossy (s.store i w) := by
  have hother {j : ι} (hj : j ≠ i) : (s.store i w).loaded j = s.loaded j :=
    Function.update_of_ne hj _ _
  -- whoever has loaded already will store too little
  have hlate {j : ι} (hj : j ≠ i) (hloaded : s.loaded j ≠ none) : Lossy (s.store i w) := by
    rcases Option.ne_none_iff_exists'.mp hloaded with ⟨x, hx⟩
    refine Or.inr (Or.inl ⟨j, x, (hother hj).trans hx, ?_⟩)
    exact Nat.lt_succ_of_le (hbound.loaded_le j x hx)
  have hstale (hless : w < s.count) : Lossy (s.store i w) := by
    refine Or.inr (Or.inr ⟨Nat.succ_lt_succ hless, fun j x hx => ?_⟩)
    exact Nat.lt_succ_of_le (hbound.loaded_le j x (loaded_store hx).2)
  rcases h with ⟨j, k, hjk, hj, hk⟩ | ⟨j, x, hj, hx⟩ | ⟨hvalue, hloaded⟩
  · by_cases hji : j = i
    · exact hlate (hji ▸ hjk.symm) hk
    · exact hlate hji hj
  · by_cases hji : j = i
    · rw [hji, hw] at hj
      exact hstale (Option.some.inj hj ▸ hx)
    · exact hlate hji (by rw [hj]; exact Option.some_ne_none x)
  · exact hstale (hloaded i w hw)

theorem Lossy.moves (h : Lossy s) (hbound : Bounded s) (hmoves : s.Moves i s') : Lossy s' := by
  cases hmoves with
  | keeps => exact h
  | loads hnone => exact h.load hnone
  | stores w hw => exact h.store hbound hw

omit [DecidableEq ι] in
theorem Lossy.value_lt (h : Lossy s) (hnone : ∀ i, s.loaded i = none) : s.value < s.count := by
  rcases h with ⟨i, j, -, hi, -⟩ | ⟨i, w, hi, -⟩ | ⟨hvalue, -⟩
  · exact absurd (hnone i) hi
  · rw [hnone i] at hi
    cases hi
  · exact hvalue

end OsLabs.LostUpdate
