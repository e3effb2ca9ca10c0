import Mathlib
import OsLabs.Ffs.FileSystem

/-!
# Bitmaps by number

Entry `i` of group `g` belongs to the number `i + g * cols`. Reading and writing
a bitmap at a group and an index is reading and writing the table of its
numbers.
-/

namespace OsLabs.Ffs

/-- The entry of a number. -/
def Bitmap.at (cols : ℕ) (bitmap : Bitmap) (b : ℤ) : Option ℤ :=
  if b < 0 then none else bitmap (b / cols).toNat (b % cols).toNat

variable {rows cols : ℕ} {bitmap bitmap' : Bitmap}

theorem listIndex_of_range {len : ℕ} {i : ℤ} (h0 : 0 ≤ i) (h : i < len) :
    listIndex len i = some i.toNat := by
  simp [listIndex, h0, h]

theorem number_div {cols : ℕ} {g i : ℤ} (h0 : 0 ≤ i) (h : i < cols) :
    (i + g * cols) / cols = g := by
  rw [Int.add_mul_ediv_right _ _ (by omega), Int.ediv_eq_zero_of_lt h0 h, zero_add]

theorem number_mod {cols : ℕ} {g i : ℤ} (h0 : 0 ≤ i) (h : i < cols) :
    (i + g * cols) % cols = i := by
  rw [Int.add_mul_emod_self_right, Int.emod_eq_of_lt h0 h]

theorem number_split (cols : ℕ) (b : ℤ) : b % cols + b / cols * cols = b := by
  have := Int.emod_add_mul_ediv b cols
  linarith [mul_comm (b / (cols : ℤ)) cols]

theorem number_range {g i : ℤ} (hg0 : 0 ≤ g) (hg : g < rows) (hi0 : 0 ≤ i) (hi : i < cols) :
    0 ≤ i + g * cols ∧ i + g * cols < rows * cols := by
  constructor
  · positivity
  · have : (g + 1) * cols ≤ rows * cols := by
      apply mul_le_mul_of_nonneg_right _ (by positivity)
      omega
    linarith [add_mul g 1 (cols : ℤ)]

theorem Bitmap.get_eq {g i : ℤ} (hg0 : 0 ≤ g) (hg : g < rows) (hi0 : 0 ≤ i) (hi : i < cols) :
    bitmap.get rows cols g i = some (bitmap.at cols (i + g * cols)) := by
  have hnonneg := (number_range hg0 hg hi0 hi).1
  simp [Bitmap.get, Bitmap.at, listIndex_of_range hg0 hg, listIndex_of_range hi0 hi,
    number_div hi0 hi, number_mod hi0 hi, not_lt.mpr hnonneg]

theorem Bitmap.set_eq {g i : ℤ} {value : Option ℤ} (hg0 : 0 ≤ g) (hg : g < rows) (hi0 : 0 ≤ i)
    (hi : i < cols) (h : bitmap.set rows cols g i value = some bitmap') (b : ℤ) :
    bitmap'.at cols b = if b = i + g * cols then value else bitmap.at cols b := by
  simp only [Bitmap.set, listIndex_of_range hg0 hg, listIndex_of_range hi0 hi,
    Option.pure_def, Option.bind_eq_bind, Option.bind_some, Option.some.injEq] at h
  subst h
  have hnonneg := (number_range hg0 hg hi0 hi).1
  unfold Bitmap.at
  by_cases hb : b < 0
  · simp [hb, show b ≠ i + g * cols by omega]
  · have hcols : (0 : ℤ) < cols := by omega
    have hdiv : 0 ≤ b / cols := Int.ediv_nonneg (by omega) (by omega)
    have hmod : 0 ≤ b % cols := Int.emod_nonneg b (by omega)
    have hiff : (b / cols).toNat = g.toNat ∧ (b % cols).toNat = i.toNat ↔ b = i + g * cols := by
      constructor
      · rintro ⟨hg', hi'⟩
        have hg'' : b / cols = g := by omega
        have hi'' : b % cols = i := by omega
        rw [← number_split cols b, hg'', hi'']
      · rintro rfl
        rw [number_div hi0 hi, number_mod hi0 hi]
        exact ⟨rfl, rfl⟩
    simp only [hb, if_false, hiff]

theorem Bitmap.exists_set (bitmap : Bitmap) {g i : ℤ} (value : Option ℤ) (hg0 : 0 ≤ g)
    (hg : g < rows) (hi0 : 0 ≤ i) (hi : i < cols) :
    ∃ bitmap', bitmap.set rows cols g i value = some bitmap' := by
  rw [Bitmap.set, listIndex_of_range hg0 hg, listIndex_of_range hi0 hi]
  exact ⟨_, rfl⟩

theorem Bitmap.set_range {g i : ℤ} {value : Option ℤ} (hg0 : 0 ≤ g) (hi0 : 0 ≤ i)
    (h : bitmap.set rows cols g i value = some bitmap') : g < rows ∧ i < cols := by
  by_cases hg : g < rows
  · by_cases hi : i < cols
    · exact ⟨hg, hi⟩
    · simp [Bitmap.set, listIndex, hg0, hi0, hi] at h
  · simp [Bitmap.set, listIndex, hg0, hg] at h

/-- `do_delete` divides by the number of groups; that finds the entry when a
group has as many entries as there are groups, or the number is below them. -/
theorem Bitmap.clear_eq {b : ℤ} (hb : 0 ≤ b) (hrows : 0 < rows) (hguard : rows = cols ∨ b < rows)
    (h : bitmap.set rows cols (b.tdiv rows) (b % rows) none = some bitmap') (x : ℤ) :
    bitmap'.at cols x = if x = b then none else bitmap.at cols x := by
  rw [Int.tdiv_eq_ediv_of_nonneg hb] at h
  have hg0 : 0 ≤ b / rows := Int.ediv_nonneg hb (by omega)
  have hi0 : 0 ≤ b % rows := Int.emod_nonneg b (by omega)
  obtain ⟨hg, hi⟩ := Bitmap.set_range hg0 hi0 h
  rw [Bitmap.set_eq hg0 hg hi0 hi h]
  have hnumber : b % rows + b / rows * cols = b := by
    obtain heq | hlt := hguard
    · rw [← heq]
      exact number_split rows b
    · rw [Int.emod_eq_of_lt hb hlt, Int.ediv_eq_zero_of_lt hb hlt]
      ring
  rw [hnumber]

theorem Bitmap.exists_clear (bitmap : Bitmap) {b : ℤ} (hrows : 0 < rows) (hb0 : 0 ≤ b)
    (hb : b < rows * cols) (hguard : rows = cols ∨ b < rows ∧ b < cols) :
    ∃ bitmap', bitmap.set rows cols (b.tdiv rows) (b % rows) none = some bitmap' := by
  rw [Int.tdiv_eq_ediv_of_nonneg hb0]
  have hrow : b / rows < rows ∧ b % rows < cols := by
    obtain rfl | ⟨hlow, hcol⟩ := hguard
    · exact ⟨Int.ediv_lt_of_lt_mul (by omega) hb, Int.emod_lt_of_pos b (by omega)⟩
    · rw [Int.ediv_eq_zero_of_lt hb0 hlow, Int.emod_eq_of_lt hb0 hlow]
      exact ⟨by omega, hcol⟩
  exact bitmap.exists_set none (Int.ediv_nonneg hb0 (by omega)) hrow.1
    (Int.emod_nonneg b (by omega)) hrow.2

/-! ## Counting -/

/-- The numbers of all entries, in the order of the nested loops. -/
def numbers (rows cols : ℕ) : List ℤ :=
  (positions rows cols).map fun p => p.2 + p.1 * cols

theorem mem_positions {p : ℕ × ℕ} : p ∈ positions rows cols ↔ p.1 < rows ∧ p.2 < cols := by
  simp only [positions, List.mem_flatMap, List.mem_range, List.mem_map]
  constructor
  · rintro ⟨g, hg, i, hi, rfl⟩
    exact ⟨hg, hi⟩
  · rintro ⟨hg, hi⟩
    exact ⟨p.1, hg, p.2, hi, rfl⟩

theorem positions_nodup : (positions rows cols).Nodup := by
  rw [positions, List.nodup_flatMap]
  constructor
  · intro g _
    exact List.nodup_range.map fun i j h => (Prod.mk.inj h).2
  · apply List.nodup_range.imp
    intro g g' hne
    rw [Function.onFun, List.disjoint_left]
    simp only [List.mem_map]
    rintro p ⟨i, _, rfl⟩ ⟨j, _, h⟩
    exact hne (Prod.mk.inj h).1.symm

theorem positions_length : (positions rows cols).length = rows * cols := by
  simp [positions, List.length_flatMap]

theorem mem_numbers {b : ℤ} : b ∈ numbers rows cols ↔ 0 ≤ b ∧ b < rows * cols := by
  simp only [numbers, List.mem_map, mem_positions]
  constructor
  · rintro ⟨p, ⟨hg, hi⟩, rfl⟩
    exact number_range (by omega) (by omega) (by omega) (by omega)
  · rintro ⟨hb0, hb⟩
    have hcols : (0 : ℤ) < cols := by
      by_contra hneg
      have : (cols : ℤ) = 0 := by omega
      simp [this] at hb
      omega
    have hmod0 : 0 ≤ b % cols := Int.emod_nonneg b (by omega)
    have hmod : b % cols < cols := Int.emod_lt_of_pos b hcols
    have hdiv0 : 0 ≤ b / cols := Int.ediv_nonneg hb0 (by omega)
    have hdiv : b / cols < rows := Int.ediv_lt_of_lt_mul hcols hb
    refine ⟨((b / cols).toNat, (b % cols).toNat), ⟨by omega, by omega⟩, ?_⟩
    rw [Int.toNat_of_nonneg hdiv0, Int.toNat_of_nonneg hmod0]
    exact number_split cols b

theorem numbers_nodup : (numbers rows cols).Nodup := by
  apply positions_nodup.map_on
  intro p hp q hq h
  obtain ⟨_, hpi⟩ := mem_positions.mp hp
  obtain ⟨_, hqi⟩ := mem_positions.mp hq
  have hdiv := congrArg (· / (cols : ℤ)) h
  have hmod := congrArg (· % (cols : ℤ)) h
  simp only [number_div (Int.natCast_nonneg p.2) (Int.ofNat_lt.mpr hpi),
    number_div (Int.natCast_nonneg q.2) (Int.ofNat_lt.mpr hqi)] at hdiv
  simp only [number_mod (Int.natCast_nonneg p.2) (Int.ofNat_lt.mpr hpi),
    number_mod (Int.natCast_nonneg q.2) (Int.ofNat_lt.mpr hqi)] at hmod
  exact Prod.ext (Int.ofNat_inj.mp hdiv) (Int.ofNat_inj.mp hmod)

/-- How many entries are free. -/
def Bitmap.numFree (rows cols : ℕ) (bitmap : Bitmap) : ℕ :=
  (positions rows cols).countP fun p => (bitmap p.1 p.2).isNone

theorem Bitmap.at_position (bitmap : Bitmap) {p : ℕ × ℕ} (hp : p ∈ positions rows cols) :
    bitmap.at cols (p.2 + p.1 * cols) = bitmap p.1 p.2 := by
  obtain ⟨hg, hi⟩ := mem_positions.mp hp
  have hnonneg : ¬ ((p.2 : ℤ) + p.1 * cols < 0) := by
    have : (0 : ℤ) ≤ p.1 * cols := by positivity
    omega
  have hi0 : (0 : ℤ) ≤ p.2 := by omega
  have hic : (p.2 : ℤ) < cols := by omega
  simp [Bitmap.at, hnonneg, number_div hi0 hic, number_mod hi0 hic]

theorem Bitmap.numFree_eq (rows cols : ℕ) (bitmap : Bitmap) :
    bitmap.numFree rows cols = (numbers rows cols).countP fun b => (bitmap.at cols b).isNone := by
  rw [numbers, List.countP_map]
  apply List.countP_congr
  intro p hp
  simp [Bitmap.at_position bitmap hp]

theorem numUsed_add_numFree (rows cols : ℕ) (bitmap : Bitmap) :
    numUsed rows cols bitmap + bitmap.numFree rows cols = rows * cols := by
  have h := List.length_eq_countP_add_countP (l := positions rows cols)
    fun p => decide (bitmap p.1 p.2 ≠ none)
  have hfree : bitmap.numFree rows cols = (positions rows cols).countP
      fun p => decide ¬ decide (bitmap p.1 p.2 ≠ none) = true := by
    apply List.countP_congr
    intro p _
    cases bitmap p.1 p.2 <;> simp
  rw [positions_length, ← hfree] at h
  unfold numUsed
  exact_mod_cast h.symm

end OsLabs.Ffs
