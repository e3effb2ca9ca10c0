import Mathlib
import OsLabs.Ffs.FileSystem
import OsLabs.Ffs.Bitmap

/-!
# The choice of a group

`pick_group` finds a group with a free inode whenever there is one, except
where it compares several groups at a time.
-/

namespace OsLabs.Ffs

variable {c : Config} {s : FileSystem}

/-- The number of free inodes of a group that exists. -/
def freeInodes (c : Config) (s : FileSystem) (group : ℤ) : ℤ :=
  get_free_count c.inodes_per_group (s.inode_bitmap group.toNat)

theorem get_free_inode_count_eq {g : ℤ} (hg0 : 0 ≤ g) (hg : g < c.num_groups) :
    get_free_inode_count c s g = some (freeInodes c s g) := by
  simp [get_free_inode_count, listIndex_of_range hg0 hg, freeInodes]

theorem get_free_count_pos {cols : ℕ} {row : ℕ → Option ℤ} :
    0 < get_free_count cols row ↔ ∃ i, i < cols ∧ row i = none := by
  simp [get_free_count, List.countP_pos_iff]

theorem get_free_count_nonneg (cols : ℕ) (row : ℕ → Option ℤ) : 0 ≤ get_free_count cols row :=
  Int.natCast_nonneg _

theorem numFree_pos {rows cols : ℕ} {bitmap : Bitmap} (h : 0 < bitmap.numFree rows cols) :
    ∃ g : ℤ, 0 ≤ g ∧ g < rows ∧ 0 < get_free_count cols (bitmap g.toNat) := by
  obtain ⟨p, hp, hnone⟩ := List.countP_pos_iff.mp h
  obtain ⟨hg, hi⟩ := mem_positions.mp hp
  refine ⟨p.1, by omega, by omega, get_free_count_pos.mpr ⟨p.2, hi, ?_⟩⟩
  simpa using hnone

/-! ## The groups near a full one -/

theorem emod_range {n : ℕ} (hn : 0 < n) (x : ℤ) : 0 ≤ x % n ∧ x % n < n :=
  ⟨Int.emod_nonneg x (by omega), Int.emod_lt_of_pos x (by omega)⟩

/-- After `a` groups above and `b` groups below the target have been found full,
the search is left with the groups in between. -/
theorem nearLoop_spec {t r : ℤ} (hsome : ∃ g : ℤ, 0 ≤ g ∧ g < c.num_groups ∧ 0 < freeInodes c s g)
    (htarget : freeInodes c s (t % c.num_groups) = 0) :
    ∀ k i a b : ℕ, a + b + k + 1 = c.num_groups →
      (∀ d : ℤ, 1 ≤ d ∧ d ≤ a ∨ c.num_groups - b ≤ d ∧ d < c.num_groups →
        freeInodes c s ((t + d) % c.num_groups) = 0) →
      nearLoop c s k i ((t + (a + 1)) % c.num_groups) ((t - (b + 1)) % c.num_groups) = some r →
      0 ≤ r ∧ r < c.num_groups ∧ 0 < freeInodes c s r := by
  intro k
  induction k with
  | zero =>
      intro i a b hsum hfull _
      obtain ⟨g, hg0, hg, hpos⟩ := hsome
      have hd := emod_range c.groups_pos (g - t)
      have hback : (t + (g - t) % c.num_groups) % c.num_groups = g := by
        rw [Int.add_emod_emod, add_sub_cancel, Int.emod_eq_of_lt hg0 hg]
      by_cases hzero : (g - t) % c.num_groups = 0
      · rw [hzero, add_zero] at hback
        rw [hback] at htarget
        omega
      · have hnone := hfull ((g - t) % c.num_groups) (by omega)
        rw [hback] at hnone
        omega
  | succ k ih =>
      intro i a b hsum hfull h
      unfold nearLoop at h
      by_cases heven : i % 2 = 0
      · have hrange := emod_range c.groups_pos (t + (a + 1))
        simp only [heven, if_true, get_free_inode_count_eq hrange.1 hrange.2] at h
        by_cases hpos : 0 < freeInodes c s ((t + (a + 1)) % c.num_groups)
        · have hr : (t + (a + 1)) % c.num_groups = r := by simpa [hpos] using h
          exact hr ▸ ⟨hrange.1, hrange.2, hpos⟩
        · have hzero : freeInodes c s ((t + (a + 1)) % c.num_groups) = 0 := by
            have : 0 ≤ freeInodes c s ((t + (a + 1)) % c.num_groups) := get_free_count_nonneg _ _
            omega
          simp only [hpos, if_false, Option.bind_eq_bind, Option.bind_some, Option.pure_def,
            Int.emod_add_emod] at h
          apply ih (i + 1) (a + 1) b (by omega)
          · intro d hd
            by_cases hda : d = a + 1
            · rw [hda]
              exact hzero
            · exact hfull d (by push_cast at hd; omega)
          · rw [← h]
            push_cast
            ring_nf
      · have hrange := emod_range c.groups_pos (t - (b + 1))
        simp only [heven, if_false, get_free_inode_count_eq hrange.1 hrange.2] at h
        by_cases hpos : 0 < freeInodes c s ((t - (b + 1)) % c.num_groups)
        · have hr : (t - (b + 1)) % c.num_groups = r := by simpa [hpos] using h
          exact hr ▸ ⟨hrange.1, hrange.2, hpos⟩
        · have hzero : freeInodes c s ((t - (b + 1)) % c.num_groups) = 0 := by
            have : 0 ≤ freeInodes c s ((t - (b + 1)) % c.num_groups) := get_free_count_nonneg _ _
            omega
          simp only [hpos, if_false, Option.bind_eq_bind, Option.bind_some, Option.pure_def,
            Int.emod_sub_emod] at h
          apply ih (i + 1) a (b + 1) (by omega)
          · intro d hd
            by_cases hdb : d = c.num_groups - (b + 1)
            · have hwrap : (t + d) % c.num_groups = (t - (b + 1)) % c.num_groups := by
                rw [hdb, show t + (c.num_groups - (b + 1)) = t - (b + 1) + c.num_groups by ring,
                  Int.add_emod_right]
              rw [hwrap]
              exact hzero
            · exact hfull d (by push_cast at hd; omega)
          · rw [← h]
            push_cast
            ring_nf

theorem find_free_inodes_near_spec {t r : ℤ} (ht0 : 0 ≤ t) (ht : t < c.num_groups)
    (hsome : ∃ g : ℤ, 0 ≤ g ∧ g < c.num_groups ∧ 0 < freeInodes c s g)
    (htarget : freeInodes c s t = 0) (h : find_free_inodes_near c s t = some r) :
    0 ≤ r ∧ r < c.num_groups ∧ 0 < freeInodes c s r := by
  have hpos := c.groups_pos
  apply nearLoop_spec (t := t) hsome _ (c.num_groups - 1) 0 0 0 (by omega)
  · intro d hd
    omega
  · simpa [find_free_inodes_near] using h
  · rwa [Int.emod_eq_of_lt ht0 ht]

/-! ## Several groups at a time -/

theorem mem_range3 {start stop step x : ℤ} {groups : List ℤ}
    (h : range3 start stop step = some groups) (hx : x ∈ groups) :
    start ≤ x ∧ x < stop ∨ stop < x ∧ x ≤ start := by
  unfold range3 at h
  split at h
  · cases h
  · rename_i hstep
    obtain rfl := Option.some.inj h
    obtain ⟨i, hi, rfl⟩ := List.mem_map.mp hx
    have hi := List.mem_range.mp hi
    by_cases hpos : 0 < step
    · rw [if_pos hpos] at hi
      have hle : (i + 1 : ℤ) ≤ (stop - start + step - 1) / step := by omega
      have hmul := (Int.le_ediv_iff_mul_le hpos).mp hle
      have hnonneg : 0 ≤ (i : ℤ) * step := by positivity
      exact Or.inl ⟨by omega, by linarith [add_mul (i : ℤ) 1 step]⟩
    · rw [if_neg hpos] at hi
      have hneg : 0 < -step := by omega
      have hle : (i + 1 : ℤ) ≤ (start - stop - step - 1) / -step := by omega
      have hmul := (Int.le_ediv_iff_mul_le hneg).mp hle
      have hnonneg : 0 ≤ (i : ℤ) * -step := by positivity
      rw [mul_neg] at hnonneg
      exact Or.inr ⟨by linarith [add_mul (i : ℤ) 1 (-step), mul_neg (i : ℤ) step], by omega⟩

/-- The group that is kept is one of those compared, or the initial one. -/
theorem mostFreeLoop_mem {how_many : ℤ} {groups : List ℤ} {best r : ℤ × ℤ}
    (h : mostFreeLoop c s how_many groups best = some r) : r = best ∨ r.2 ∈ groups := by
  unfold mostFreeLoop at h
  induction groups generalizing best with
  | nil =>
      rw [List.foldlM_nil] at h
      exact Or.inl (Option.some.inj h).symm
  | cons g groups ih =>
      rw [List.foldlM_cons] at h
      obtain ⟨best', hbest, hrest⟩ := Option.bind_eq_some_iff.mp h
      obtain ⟨sum_free, _, hpick⟩ := Option.bind_eq_some_iff.mp hbest
      have hpick := Option.some.inj hpick
      obtain hr | hr := ih hrest
      · rw [hr, ← hpick]
        split
        · exact Or.inr List.mem_cons_self
        · exact Or.inl rfl
      · exact Or.inr (List.mem_cons_of_mem g hr)

theorem find_most_free_inodes_multiple_cases {how_many g : ℤ}
    (h : find_most_free_inodes_multiple c s 0 how_many = some g) :
    ∃ groups sum_free, range3 0 c.num_groups how_many = some groups ∧
      mostFreeLoop c s how_many groups (0, -1) = some (sum_free, g) ∧ g ≠ -1 := by
  unfold find_most_free_inodes_multiple at h
  obtain ⟨groups, hgroups, h⟩ := Option.bind_eq_some_iff.mp h
  obtain ⟨best, hbest, h⟩ := Option.bind_eq_some_iff.mp h
  obtain ⟨groups', hgroups', h⟩ := Option.bind_eq_some_iff.mp h
  obtain ⟨best', hbest', h⟩ := Option.bind_eq_some_iff.mp h
  -- the second loop starts at group 0 and has nothing to do
  have hempty : groups' = [] := by
    apply List.eq_nil_iff_forall_not_mem.mpr
    intro x hx
    have := mem_range3 hgroups' hx
    omega
  rw [hempty] at hbest'
  have hsame : best = best' := Option.some.inj hbest'
  split at h
  · cases h
  · rename_i hne
    obtain rfl := Option.some.inj h
    exact ⟨groups, best.1, hgroups, hsame ▸ hbest, hne⟩

theorem find_most_free_inodes_multiple_range {how_many g : ℤ}
    (h : find_most_free_inodes_multiple c s 0 how_many = some g) :
    0 ≤ g ∧ g < c.num_groups := by
  have hpos := c.groups_pos
  obtain ⟨groups, sum_free, hgroups, hloop, hne⟩ := find_most_free_inodes_multiple_cases h
  obtain heq | hmem := mostFreeLoop_mem hloop
  · exact absurd (Prod.mk.inj heq).2 hne
  · have := mem_range3 hgroups hmem
    omega

/-- Group by group the search compares free inodes only. -/
theorem mostFreeLoop_one {groups : List ℤ} {best r : ℤ × ℤ}
    (hgroups : ∀ g ∈ groups, 0 ≤ g ∧ g < c.num_groups)
    (hbest : best.2 = -1 ∨ 0 < freeInodes c s best.2)
    (hmax : 0 ≤ best.1) (h : mostFreeLoop c s 1 groups best = some r) :
    r.2 = -1 ∨ 0 < freeInodes c s r.2 := by
  unfold mostFreeLoop at h
  induction groups generalizing best with
  | nil =>
      rw [List.foldlM_nil] at h
      exact Option.some.inj h ▸ hbest
  | cons g groups ih =>
      rw [List.foldlM_cons] at h
      obtain ⟨best', hbest', hrest⟩ := Option.bind_eq_some_iff.mp h
      obtain ⟨sum_free, hsum, hpick⟩ := Option.bind_eq_some_iff.mp hbest'
      have hpick := Option.some.inj hpick
      obtain ⟨hg0, hg⟩ := hgroups g List.mem_cons_self
      have hfree : sum_free = freeInodes c s g := by
        simp only [find_free_inodes_in_range, range, add_sub_cancel_left] at hsum
        simpa [Int.emod_eq_of_lt hg0 hg, get_free_inode_count_eq hg0 hg] using hsum.symm
      have hgroups' : ∀ g ∈ groups, 0 ≤ g ∧ g < c.num_groups :=
        fun g' hg' => hgroups g' (List.mem_cons_of_mem g hg')
      split at hpick
      · rename_i hmore
        rw [← hpick] at hrest
        exact ih hgroups' (Or.inr (by rw [← hfree]; omega)) (by omega) hrest
      · rw [← hpick] at hrest
        exact ih hgroups' hbest hmax hrest

/-- The group an inode is taken from has a free one. -/
def pickedHasRoom (c : Config) (s : FileSystem) (type : InodeType) : Bool :=
  if type = .regular ∧ c.spread_inodes = false then true
  else
    match find_most_free_inodes_multiple c s 0 c.allocate_faraway with
    | none => true
    | some g => get_free_inode_count c s g ≠ some 0

/-- Comparing one group at a time always finds a group with room. -/
theorem pickedHasRoom_one (hfaraway : c.allocate_faraway = 1) (type : InodeType) :
    pickedHasRoom c s type = true := by
  unfold pickedHasRoom
  split
  · rfl
  · cases h : find_most_free_inodes_multiple c s 0 c.allocate_faraway with
    | none => rfl
    | some g =>
        obtain ⟨hg0, hg⟩ := find_most_free_inodes_multiple_range h
        obtain ⟨groups, sum_free, hgroups, hloop, hne⟩ := find_most_free_inodes_multiple_cases h
        rw [hfaraway] at hgroups hloop
        have hin : ∀ g ∈ groups, 0 ≤ g ∧ g < c.num_groups := by
          intro x hx
          have := mem_range3 hgroups hx
          omega
        obtain heq | hpos := mostFreeLoop_one hin (Or.inl rfl) le_rfl hloop
        · exact absurd heq hne
        · simp [get_free_inode_count_eq hg0 hg, hpos.ne']

theorem pick_group_spec {parent : Path} {type : InodeType} {g : ℤ}
    (hsome : ∃ g : ℤ, 0 ≤ g ∧ g < c.num_groups ∧ 0 < freeInodes c s g)
    (hparent0 : 0 ≤ name_to_inode s parent)
    (hparent : name_to_inode s parent < c.num_groups * c.inodes_per_group)
    (hroom : pickedHasRoom c s type = true) (h : pick_group c s parent type = some g) :
    0 ≤ g ∧ g < c.num_groups ∧ 0 < freeInodes c s g := by
  unfold pick_group at h
  unfold pickedHasRoom at hroom
  split at h
  · have hinodes := c.inodes_pos
    have ht0 : 0 ≤ name_to_inode s parent / c.inodes_per_group :=
      Int.ediv_nonneg hparent0 (by omega)
    have ht : name_to_inode s parent / c.inodes_per_group < c.num_groups :=
      Int.ediv_lt_of_lt_mul (by omega) hparent
    simp only [Int.tdiv_eq_ediv_of_nonneg hparent0, get_free_inode_count_eq ht0 ht,
      Option.bind_eq_bind, Option.bind_some] at h
    split at h
    · rename_i hzero
      exact find_free_inodes_near_spec ht0 ht hsome hzero h
    · rename_i hne
      obtain rfl := Option.some.inj h
      have : 0 ≤ freeInodes c s (name_to_inode s parent / c.inodes_per_group) :=
        get_free_count_nonneg _ _
      exact ⟨ht0, ht, by omega⟩
  · rename_i hspread
    rw [if_neg hspread] at hroom
    split at h
    · obtain ⟨hg0, hg⟩ := find_most_free_inodes_multiple_range h
      simp only [h, get_free_inode_count_eq hg0 hg, ne_eq, Option.some.injEq,
        decide_eq_true_eq] at hroom
      have : 0 ≤ freeInodes c s g := get_free_count_nonneg _ _
      exact ⟨hg0, hg, by omega⟩
    · cases h

/-! ## The first free inode, the group with most free blocks -/

theorem find_free_inode_spec {g i : ℤ} (hg0 : 0 ≤ g) (hg : g < c.num_groups)
    (hpos : 0 < freeInodes c s g) (h : find_free_inode c s g = some i) :
    0 ≤ i ∧ i < c.inodes_per_group ∧
      s.inode_bitmap.at c.inodes_per_group (i + g * c.inodes_per_group) = none := by
  simp only [find_free_inode, listIndex_of_range hg0 hg, Option.bind_eq_bind, Option.bind_some,
    Option.pure_def, Option.some.injEq] at h
  cases hfind : (List.range c.inodes_per_group).find? fun i => s.inode_bitmap g.toNat i = none with
  | none =>
      obtain ⟨j, hj, hnone⟩ := get_free_count_pos.mp hpos
      have := List.find?_eq_none.mp hfind j (List.mem_range.mpr hj)
      simp [hnone] at this
  | some j =>
      rw [hfind] at h
      have hj := List.mem_range.mp (List.mem_of_find?_eq_some hfind)
      have hnone : s.inode_bitmap g.toNat j = none := by simpa using List.find?_some hfind
      have hi : (j : ℤ) = i := h
      have hat := Bitmap.at_position s.inode_bitmap (p := (g.toNat, j))
        (mem_positions.mpr ⟨(by omega : g.toNat < c.num_groups), hj⟩)
      refine ⟨by omega, by omega, ?_⟩
      rw [← hi]
      simpa [Int.toNat_of_nonneg hg0, hnone] using hat

theorem mem_range_iff {start stop x : ℤ} : x ∈ range start stop ↔ start ≤ x ∧ x < stop := by
  unfold range
  simp only [List.mem_map, List.mem_range]
  constructor
  · rintro ⟨i, hi, rfl⟩
    omega
  · intro hx
    exact ⟨(x - start).toNat, by omega, by omega⟩

theorem find_min_data_usage_spec {g : ℤ}
    (hsome : ∃ g : ℤ, 0 ≤ g ∧ g < c.num_groups ∧
      0 < get_free_count c.blocks_per_group (s.data_bitmap g.toNat))
    (h : find_min_data_usage c s = some g) : 0 ≤ g ∧ g < c.num_groups := by
  obtain ⟨best, hloop, hbest⟩ := Option.bind_eq_some_iff.mp h
  obtain rfl := Option.some.inj hbest
  have hgroups : ∀ g ∈ range 0 c.num_groups, 0 ≤ g ∧ g < c.num_groups :=
    fun g hg => mem_range_iff.mp hg
  have hstart : 0 ≤ ((-1, 0) : ℤ × ℤ).1 ∧ ((-1, 0) : ℤ × ℤ).1 < c.num_groups ∨
      ((-1, 0) : ℤ × ℤ).2 = 0 ∧ ∃ g ∈ range 0 c.num_groups,
        0 < get_free_count c.blocks_per_group (s.data_bitmap g.toNat) := by
    obtain ⟨g, hg0, hg, hpos⟩ := hsome
    exact Or.inr ⟨rfl, g, mem_range_iff.mpr ⟨hg0, hg⟩, hpos⟩
  generalize range 0 c.num_groups = groups at hloop hgroups hstart
  generalize ((-1, 0) : ℤ × ℤ) = start at hloop hstart
  induction groups generalizing start with
  | nil =>
      obtain rfl := Option.some.inj hloop
      obtain hstart | ⟨_, g, hg, _⟩ := hstart
      · exact hstart
      · cases hg
  | cons g groups ih =>
      rw [List.foldlM_cons] at hloop
      obtain ⟨next, hnext, hrest⟩ := Option.bind_eq_some_iff.mp hloop
      have hg := hgroups g List.mem_cons_self
      simp only [get_free_data_count, listIndex_of_range hg.1 hg.2, Option.bind_eq_bind,
        Option.bind_some, Option.pure_def, Option.some.injEq] at hnext
      apply ih (fun g' hg' => hgroups g' (List.mem_cons_of_mem g hg')) _ hrest
      split at hnext
      · exact Or.inl (hnext ▸ hg)
      · rename_i hle
        rw [← hnext]
        obtain hstart | ⟨hzero, g', hg', hpos⟩ := hstart
        · exact Or.inl hstart
        · refine Or.inr ⟨hzero, g', ?_, hpos⟩
          obtain rfl | hg' := List.mem_cons.mp hg'
          · omega
          · exact hg'

end OsLabs.Ffs
