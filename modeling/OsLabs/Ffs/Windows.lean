import OsLabs.Ffs.Consistency

/-!
# When the group that is picked has a free inode

`find_most_free_inodes_multiple` compares windows of groups and picks the first group of the
best one, which may be full while its neighbours are not.
-/

namespace OsLabs.Ffs

open OsLabs.Transition

variable {c : Config} {s : FileSystem} {k g : ℤ}

/-- The free inodes of `k` groups from `g` on. -/
def windowFree (c : Config) (s : FileSystem) (k g : ℤ) : ℤ :=
  ((range g (g + k)).map fun x => freeInodes c s (x % c.num_groups)).sum

theorem find_free_inodes_in_range_eq (c : Config) (s : FileSystem) (g k : ℤ) :
    find_free_inodes_in_range c s g k = some (windowFree c s k g) := by
  have hloop (groups : List ℤ) (sum : ℤ) :
      groups.foldlM (fun sum_free x => do
        return sum_free + (← get_free_inode_count c s (x % c.num_groups))) sum =
      some (sum + (groups.map fun x => freeInodes c s (x % c.num_groups)).sum) := by
    induction groups generalizing sum with
    | nil => simp
    | cons x groups ih =>
        have hrange := emod_range c.groups_pos x
        rw [List.foldlM_cons, get_free_inode_count_eq hrange.1 hrange.2]
        refine (ih _).trans ?_
        rw [List.map_cons, List.sum_cons, add_assoc]
  rw [find_free_inodes_in_range, hloop, zero_add]
  rfl

/-- The loop keeps the first of the best windows, if one beats the window it starts with. -/
theorem mostFreeLoop_first (groups : List ℤ) (best : ℤ × ℤ) :
    (mostFreeLoop c s k groups best = some best ∧ ∀ x ∈ groups, windowFree c s k x ≤ best.1) ∨
      ∃ before g after, groups = before ++ g :: after ∧
        mostFreeLoop c s k groups best = some (windowFree c s k g, g) ∧
        best.1 < windowFree c s k g ∧
        (∀ x ∈ before, windowFree c s k x < windowFree c s k g) ∧
        ∀ x ∈ after, windowFree c s k x ≤ windowFree c s k g := by
  induction groups generalizing best with
  | nil => exact Or.inl ⟨rfl, fun x hx => absurd hx List.not_mem_nil⟩
  | cons x groups ih =>
      have hfirst (b : ℤ × ℤ) (hb : (if windowFree c s k x > best.1 then (windowFree c s k x, x)
          else best) = b) :
          mostFreeLoop c s k (x :: groups) best = mostFreeLoop c s k groups b := by
        rw [mostFreeLoop, List.foldlM_cons, find_free_inodes_in_range_eq, ← hb]
        rfl
      by_cases hmore : windowFree c s k x > best.1
      · rw [hfirst _ (if_pos hmore)]
        obtain ⟨hkept, hall⟩ | ⟨before, g, after, rfl, hpicked, hbetter, hbefore, hafter⟩ :=
          ih (windowFree c s k x, x)
        · exact Or.inr ⟨[], x, groups, rfl, hkept, hmore, by simp, hall⟩
        · refine Or.inr ⟨x :: before, g, after, rfl, hpicked, lt_trans hmore hbetter, ?_, hafter⟩
          intro y hy
          obtain rfl | hy := List.mem_cons.mp hy
          · exact hbetter
          · exact hbefore y hy
      · rw [hfirst _ (if_neg hmore)]
        obtain ⟨hkept, hall⟩ | ⟨before, g, after, rfl, hpicked, hbetter, hbefore, hafter⟩ := ih best
        · refine Or.inl ⟨hkept, fun y hy => ?_⟩
          obtain rfl | hy := List.mem_cons.mp hy
          · exact not_lt.mp hmore
          · exact hall y hy
        · refine Or.inr ⟨x :: before, g, after, rfl, hpicked, hbetter, ?_, hafter⟩
          intro y hy
          obtain rfl | hy := List.mem_cons.mp hy
          · exact lt_of_le_of_lt (not_lt.mp hmore) hbetter
          · exact hbefore y hy

/-! ## The windows -/

/-- The groups at which the windows begin. -/
def windows (c : Config) : List ℤ := (range3 0 c.num_groups c.allocate_faraway).getD []

/-- The first of the windows with most free inodes begins with a group that has one. -/
def BestWindowHasRoom (c : Config) (s : FileSystem) : Prop :=
  ∀ g ∈ windows c, (∀ x ∈ windows c,
    windowFree c s c.allocate_faraway x ≤ windowFree c s c.allocate_faraway g ∧
      (x < g → windowFree c s c.allocate_faraway x < windowFree c s c.allocate_faraway g)) →
    0 < freeInodes c s g

instance (c : Config) (s : FileSystem) : Decidable (BestWindowHasRoom c s) :=
  inferInstanceAs (Decidable (∀ g ∈ windows c, _ → _))

theorem windows_eq (hfaraway : 1 ≤ c.allocate_faraway) :
    range3 0 c.num_groups c.allocate_faraway = some (windows c) ∧
      windows c = (List.range ((c.num_groups + c.allocate_faraway - 1) /
        c.allocate_faraway).toNat).map fun (i : ℕ) => i * c.allocate_faraway := by
  have hrange : range3 0 c.num_groups c.allocate_faraway =
      some ((List.range ((c.num_groups + c.allocate_faraway - 1) /
        c.allocate_faraway).toNat).map fun (i : ℕ) => i * c.allocate_faraway) := by
    rw [range3, if_neg (by omega)]
    simp only [if_pos (show 0 < c.allocate_faraway by omega), sub_zero, zero_add]
  rw [windows, hrange]
  exact ⟨rfl, rfl⟩

theorem mem_windows (hfaraway : 1 ≤ c.allocate_faraway) {x : ℤ} :
    x ∈ windows c ↔ ∃ i : ℕ, x = i * c.allocate_faraway ∧ x < c.num_groups := by
  rw [(windows_eq hfaraway).2, List.mem_map]
  have hcount (i : ℕ) : i ∈ List.range ((c.num_groups + c.allocate_faraway - 1) /
      c.allocate_faraway).toNat ↔ i * c.allocate_faraway < c.num_groups := by
    have hle : (i : ℤ) + 1 ≤ (c.num_groups + c.allocate_faraway - 1) / c.allocate_faraway ↔
        ((i : ℤ) + 1) * c.allocate_faraway ≤ c.num_groups + c.allocate_faraway - 1 :=
      Int.le_ediv_iff_mul_le (by omega)
    rw [add_mul, one_mul] at hle
    rw [List.mem_range]
    omega
  constructor
  · rintro ⟨i, hi, rfl⟩
    exact ⟨i, rfl, (hcount i).mp hi⟩
  · rintro ⟨i, rfl, hi⟩
    exact ⟨i, (hcount i).mpr hi, rfl⟩

theorem windows_sorted (hfaraway : 1 ≤ c.allocate_faraway) : (windows c).Pairwise (· < ·) := by
  rw [(windows_eq hfaraway).2, List.pairwise_map]
  refine List.pairwise_lt_range.imp fun {i j} hij => ?_
  exact mul_lt_mul_of_pos_right (Int.ofNat_lt.mpr hij) (by omega)

theorem exists_window (hfaraway : 1 ≤ c.allocate_faraway) (hg0 : 0 ≤ g) (hg : g < c.num_groups) :
    ∃ w ∈ windows c, freeInodes c s g ≤ windowFree c s c.allocate_faraway w := by
  have hdiv := Int.emod_add_mul_ediv g c.allocate_faraway
  have hmod0 := Int.emod_nonneg g (show c.allocate_faraway ≠ 0 by omega)
  have hmod := Int.emod_lt_of_pos g (show 0 < c.allocate_faraway by omega)
  have hq0 : 0 ≤ g / c.allocate_faraway := Int.ediv_nonneg hg0 (by omega)
  rw [mul_comm] at hdiv
  refine ⟨g / c.allocate_faraway * c.allocate_faraway, (mem_windows hfaraway).mpr
    ⟨(g / c.allocate_faraway).toNat, by rw [Int.toNat_of_nonneg hq0], by omega⟩, ?_⟩
  refine List.single_le_sum (fun x hx => ?_) _ (List.mem_map.mpr
    ⟨g, mem_range_iff.mpr (by omega), by rw [Int.emod_eq_of_lt hg0 hg]⟩)
  obtain ⟨y, -, rfl⟩ := List.mem_map.mp hx
  exact get_free_count_nonneg _ _

/-- The group that is picked is the first of the best window. -/
theorem find_most_free_inodes_multiple_spec (hfaraway : 1 ≤ c.allocate_faraway)
    (hsome : ∃ g : ℤ, 0 ≤ g ∧ g < c.num_groups ∧ 0 < freeInodes c s g) :
    ∃ g ∈ windows c, find_most_free_inodes_multiple c s 0 c.allocate_faraway = some g ∧
      ∀ x ∈ windows c,
        windowFree c s c.allocate_faraway x ≤ windowFree c s c.allocate_faraway g ∧
        (x < g → windowFree c s c.allocate_faraway x < windowFree c s c.allocate_faraway g) := by
  obtain ⟨hall, hmost⟩ | ⟨before, g, after, hsplit, hpicked, -, hbefore, hafter⟩ :=
    @mostFreeLoop_first c s c.allocate_faraway (windows c) (0, -1)
  · obtain ⟨g, hg0, hg, hpos⟩ := hsome
    obtain ⟨w, hw, hle⟩ := @exists_window c s g hfaraway hg0 hg
    have := hmost w hw
    omega
  · have hg : g ∈ windows c := hsplit ▸ List.mem_append_right _ List.mem_cons_self
    obtain ⟨i, hi, -⟩ := (mem_windows hfaraway).mp hg
    have hg0 : 0 ≤ g := hi ▸ mul_nonneg (Int.natCast_nonneg i) (by omega)
    refine ⟨g, hg, ?_, fun x hx => ?_⟩
    · have hnone : range3 0 0 c.allocate_faraway = some [] := by
        rw [range3, if_neg (by omega)]
        simp only [if_pos (show 0 < c.allocate_faraway by omega), sub_zero, zero_add]
        rw [Int.ediv_eq_zero_of_lt (by omega) (by omega)]
        rfl
      rw [find_most_free_inodes_multiple, (windows_eq hfaraway).1]
      simp only [Option.bind_eq_bind, Option.bind_some, hpicked, hnone]
      exact if_neg (show g ≠ -1 by omega)
    · have hsorted := hsplit ▸ windows_sorted hfaraway
      obtain ⟨-, hright, hacross⟩ := List.pairwise_append.mp hsorted
      rw [hsplit, List.mem_append, List.mem_cons] at hx
      obtain hx | rfl | hx := hx
      · exact ⟨(hbefore x hx).le, fun _ => hbefore x hx⟩
      · exact ⟨le_rfl, fun hlt => absurd hlt (lt_irrefl x)⟩
      · have hgx := (List.pairwise_cons.mp hright).1 x hx
        exact ⟨hafter x hx, fun hlt => absurd hlt (lt_asymm hgx)⟩

/-! ## The inode of a new file -/

/-- What `do_create` relies on: the group that is picked has a free inode. -/
def PicksRoom (c : Config) (s : FileSystem) (parent : Path) (type : InodeType) : Prop :=
  ∃ g i, pick_group c s parent type = some g ∧ find_free_inode c s g = some i ∧ 0 ≤ i

/-- Inode numbers in the name map are numbers of inodes. -/
def NamesInRange (c : Config) (s : FileSystem) : Prop :=
  ∀ e ∈ s.name_to_inode_map, 0 ≤ e.2 ∧ e.2 < c.num_groups * c.inodes_per_group

theorem listIndex_emod {len : ℕ} (hg0 : -(len : ℤ) ≤ g) (hg : g < len) :
    listIndex len g = some (g % len).toNat := by
  obtain hneg | hnonneg := lt_or_ge g 0
  · rw [listIndex, if_neg (by omega), if_pos (by omega), ← Int.add_emod_right,
      Int.emod_eq_of_lt (by omega) (by omega)]
  · rw [listIndex_of_range hnonneg hg, Int.emod_eq_of_lt hnonneg hg]

/-- A group by its index, which Python counts from the end when it is negative. -/
theorem find_free_inode_room (hg0 : -c.num_groups ≤ g) (hg : g < c.num_groups) :
    (∃ i, find_free_inode c s g = some i ∧ 0 ≤ i) ↔ 0 < freeInodes c s (g % c.num_groups) := by
  rw [find_free_inode, listIndex_emod hg0 hg]
  simp only [Option.bind_eq_bind, Option.bind_some, Option.pure_def, Option.some.injEq,
    exists_eq_left', freeInodes, get_free_count_pos]
  cases hfind : (List.range c.inodes_per_group).find?
      fun i => s.inode_bitmap (g % c.num_groups).toNat i = none with
  | none =>
      refine iff_of_false (by decide) ?_
      rintro ⟨i, hi, hnone⟩
      have := List.find?_eq_none.mp hfind i (List.mem_range.mpr hi)
      simp [hnone] at this
  | some i =>
      refine iff_of_true (Int.natCast_nonneg i) ⟨i, ?_, by simpa using List.find?_some hfind⟩
      exact List.mem_range.mp (List.mem_of_find?_eq_some hfind)

theorem nearLoop_isSome (n i : ℕ) {grower shrinker : ℤ}
    (hgrower : 0 ≤ grower ∧ grower < c.num_groups)
    (hshrinker : 0 ≤ shrinker ∧ shrinker < c.num_groups) :
    ∃ r, nearLoop c s n i grower shrinker = some r := by
  induction n generalizing i grower shrinker with
  | zero => exact ⟨1, rfl⟩
  | succ n ih =>
      have hnext {grower shrinker : ℤ} (current : ℤ)
          (hcurrent : 0 ≤ current ∧ current < c.num_groups)
          (hgrower : 0 ≤ grower ∧ grower < c.num_groups)
          (hshrinker : 0 ≤ shrinker ∧ shrinker < c.num_groups) :
          ∃ r, (do
            if 0 < (← get_free_inode_count c s current) then return current
            nearLoop c s n (i + 1) grower shrinker) = some r := by
        rw [get_free_inode_count_eq hcurrent.1 hcurrent.2, Option.bind_eq_bind, Option.bind_some]
        split
        · exact ⟨current, rfl⟩
        · exact ih (i + 1) hgrower hshrinker
      rw [nearLoop]
      by_cases heven : i % 2 = 0
      · simp only [heven, if_true]
        exact hnext grower hgrower (emod_range c.groups_pos _) hshrinker
      · simp only [heven, if_false]
        exact hnext shrinker hshrinker hgrower (emod_range c.groups_pos _)

theorem get_free_inode_count_emod (hg0 : -c.num_groups ≤ g) (hg : g < c.num_groups) :
    get_free_inode_count c s g = some (freeInodes c s (g % c.num_groups)) := by
  rw [get_free_inode_count, listIndex_emod hg0 hg]
  rfl

theorem name_to_inode_cases (hnames : NamesInRange c s) (path : Path) :
    name_to_inode s path = -1 ∨
      0 ≤ name_to_inode s path ∧ name_to_inode s path < c.num_groups * c.inodes_per_group := by
  rw [name_to_inode]
  cases hlookup : s.name_to_inode_map.lookup path with
  | none => exact Or.inl rfl
  | some n =>
      obtain ⟨l₁, l₂, hmap, -⟩ := List.lookup_eq_some_iff.mp hlookup
      exact Or.inr (hnames (path, n) (hmap ▸ List.mem_append_right _ List.mem_cons_self))

/-- The group of the parent, or a group near it. -/
theorem picksRoom_near {parent : Path}
    (hsome : ∃ g : ℤ, 0 ≤ g ∧ g < c.num_groups ∧ 0 < freeInodes c s g)
    (hnames : NamesInRange c s) (hspread : c.spread_inodes = false) :
    PicksRoom c s parent .regular := by
  have hgroups := c.groups_pos
  have hinodes := c.inodes_pos
  obtain ⟨t, ht⟩ : ∃ t, t = (name_to_inode s parent).tdiv c.inodes_per_group := ⟨_, rfl⟩
  have hrange : -1 ≤ t ∧ t < c.num_groups := by
    obtain hmissing | ⟨hn0, hn⟩ := name_to_inode_cases hnames parent
    · rw [ht, hmissing, Int.neg_tdiv]
      have hone := Int.tdiv_le_self (a := 1) (b := c.inodes_per_group) (by decide)
      have hzero : 0 ≤ (1 : ℤ).tdiv c.inodes_per_group := Int.tdiv_nonneg (by decide) (by omega)
      omega
    · rw [ht, Int.tdiv_eq_ediv_of_nonneg hn0]
      have hdiv0 := Int.ediv_nonneg hn0 (show (0 : ℤ) ≤ c.inodes_per_group by omega)
      exact ⟨by omega, Int.ediv_lt_of_lt_mul (by omega) hn⟩
  have hpick : pick_group c s parent .regular = (do
      let num_free_inodes ← get_free_inode_count c s t
      if num_free_inodes = 0 then find_free_inodes_near c s t else some t) := by
    rw [pick_group, if_pos ⟨rfl, hspread⟩, ht]
  rw [get_free_inode_count_emod (by omega) hrange.2, Option.bind_eq_bind, Option.bind_some] at hpick
  by_cases hfull : freeInodes c s (t % c.num_groups) = 0
  · rw [if_pos hfull] at hpick
    obtain ⟨r, hr⟩ := @nearLoop_isSome c s (c.num_groups - 1) 0 ((t + 1) % c.num_groups)
      ((t - 1) % c.num_groups) (emod_range c.groups_pos _) (emod_range c.groups_pos _)
    have hnear : find_free_inodes_near c s t = some r := hr
    obtain ⟨hr0, hrn, hpos⟩ : 0 ≤ r ∧ r < c.num_groups ∧ 0 < freeInodes c s r := by
      refine nearLoop_spec hsome hfull (c.num_groups - 1) 0 0 0 (by omega) (fun d hd => ?_) ?_
      · omega
      · simpa using hr
    rw [← Int.emod_eq_of_lt hr0 hrn] at hpos
    obtain ⟨i, hi⟩ := (find_free_inode_room (by omega) hrn).mpr hpos
    exact ⟨r, i, hpick.trans hnear, hi⟩
  · rw [if_neg hfull] at hpick
    have hpos : 0 < freeInodes c s (t % c.num_groups) :=
      lt_of_le_of_ne (get_free_count_nonneg _ _) (Ne.symm hfull)
    obtain ⟨i, hi⟩ := (find_free_inode_room (by omega) hrange.2).mpr hpos
    exact ⟨t, i, hpick, hi⟩

/-- The first group of the best window. -/
theorem picksRoom_window {parent : Path} {type : InodeType} (hfaraway : 1 ≤ c.allocate_faraway)
    (hsome : ∃ g : ℤ, 0 ≤ g ∧ g < c.num_groups ∧ 0 < freeInodes c s g)
    (hpick : pick_group c s parent type = find_most_free_inodes_multiple c s 0 c.allocate_faraway) :
    PicksRoom c s parent type ↔ BestWindowHasRoom c s := by
  obtain ⟨g, hg, hfound, hbest⟩ := find_most_free_inodes_multiple_spec hfaraway hsome
  obtain ⟨hg0, hgn⟩ := find_most_free_inodes_multiple_range hfound
  have hroom : PicksRoom c s parent type ↔ 0 < freeInodes c s g := by
    have hfree := @find_free_inode_room c s g (by omega) hgn
    rw [Int.emod_eq_of_lt hg0 hgn] at hfree
    rw [PicksRoom, hpick, hfound, ← hfree]
    simp
  rw [hroom]
  refine ⟨fun hpos x hx hmost => ?_, fun h => h g hg hbest⟩
  -- there is only one first of the best windows
  have hsame : x = g := by
    obtain hlt | rfl | hlt := lt_trichotomy x g
    · exact absurd (hmost g hg).1 (not_le.mpr ((hbest x hx).2 hlt))
    · rfl
    · exact absurd (hbest x hx).1 (not_le.mpr ((hmost g hg).2 hlt))
  exact hsame ▸ hpos

/-! ## Runs -/

/-- Deletions find their entries, and the best window has room where one is looked for. -/
def PickFits (c : Config) (s : FileSystem) : Act → Prop
  | .create path size _ => (createParent s path size).join.isSome → c.spread_inodes = true →
      BestWindowHasRoom c s
  | .mkdir path _ => (createParent s path 1).join.isSome → BestWindowHasRoom c s
  | .delete path => deleteDivides c s path = true

instance (c : Config) (s : FileSystem) : ∀ a, Decidable (PickFits c s a)
  | .create path size _ => inferInstanceAs (Decidable ((createParent s path size).join.isSome →
      c.spread_inodes = true → BestWindowHasRoom c s))
  | .mkdir path _ => inferInstanceAs (Decidable ((createParent s path 1).join.isSome →
      BestWindowHasRoom c s))
  | .delete path => inferInstanceAs (Decidable (deleteDivides c s path = true))

variable {s' : FileSystem}

theorem Consistent.exists_room (h : Consistent c s) (hfree : s.total_inodes_free ≠ 0) :
    ∃ g : ℤ, 0 ≤ g ∧ g < c.num_groups ∧ 0 < freeInodes c s g := by
  apply numFree_pos
  have := h.inodes_free
  omega

theorem Consistent.createHasRoom (h : Consistent c s) (hfaraway : 1 ≤ c.allocate_faraway)
    {path : Path} {size : ℤ} {type : InodeType}
    (hbest : (createParent s path size).join.isSome →
      ¬ (type = .regular ∧ c.spread_inodes = false) → BestWindowHasRoom c s) :
    createHasRoom c s path size type = true := by
  rw [Ffs.createHasRoom]
  split
  · next p hparent =>
      rw [hparent] at hbest
      rw [pickedHasRoom]
      split
      · rfl
      · next hspread =>
          obtain ⟨g, hg, hfound, hfirst⟩ := find_most_free_inodes_multiple_spec hfaraway
            (h.exists_room (createParent_spec hparent).1)
          obtain ⟨hg0, hgn⟩ := find_most_free_inodes_multiple_range hfound
          have hpos := hbest rfl hspread g hg hfirst
          simp [hfound, get_free_inode_count_eq hg0 hgn, hpos.ne']
  · rfl

theorem PickFits.fits (h : Consistent c s) (hfaraway : 1 ≤ c.allocate_faraway) {a : Act}
    (hfits : PickFits c s a) : Fits c s a := by
  cases a with
  | create path size fuel =>
      refine h.createHasRoom hfaraway fun hparent hspread => hfits hparent ?_
      simpa using hspread
  | mkdir path fuel => exact h.createHasRoom hfaraway fun hparent _ => hfits hparent
  | delete path => exact hfits

theorem NamesInRange.create (h : NamesInRange c s) (hs' : Consistent c s') {fuel : ℕ} {path : Path}
    {size rc : ℤ} {type : InodeType} (htype : type = .regular ∨ type = .directory)
    (hstep : do_create c fuel s path size type = some (s', rc)) : NamesInRange c s' := by
  obtain rfl | ⟨p, group, index, dest, s₁, allocated, -, -, -, -, hallocate, -, hfinish⟩ :=
    do_create_cases hstep
  · exact h
  · obtain ⟨a, -, rfl, -⟩ := allocate_blocks_cases hallocate
    obtain ⟨-, hcreated⟩ := finishCreate_spec hfinish
    rw [NamesInRange, hcreated.names]
    intro e he
    obtain he | he := List.mem_append.mp he
    · exact h e he
    · obtain rfl := List.mem_singleton.mp he
      refine hs'.inode_range _ ?_
      rw [Live, hcreated.inode_type, Function.update_self]
      exact htype.imp (congrArg some) (congrArg some)

theorem NamesInRange.delete (h : NamesInRange c s) {path : Path} {rc : ℤ}
    (hstep : do_delete c s path = some (s', rc)) : NamesInRange c s' := by
  obtain rfl | ⟨p, n, -, -, -, hdeleted⟩ := do_delete_cases hstep
  · exact h
  · exact fun e he => h e (hdeleted.names e he)

theorem NamesInRange.init (c : Config) : NamesInRange c (FileSystem.init c) := by
  intro e he
  rw [List.mem_singleton.mp he]
  have hgroups := c.groups_pos
  have hinodes := c.inodes_pos
  exact ⟨le_rfl, by positivity⟩

theorem NamesInRange.step (h : NamesInRange c s) (hs : Consistent c s) {a : Act}
    (hfits : Fits c s a) (hstep : step c s a = some s') : NamesInRange c s' := by
  have hs' := hs.step hfits hstep
  cases a with
  | create path size fuel =>
      obtain ⟨⟨s₁, rc⟩, hcreate, rfl⟩ := Option.map_eq_some_iff.mp hstep
      exact h.create hs' (Or.inl rfl) hcreate
  | mkdir path fuel =>
      obtain ⟨⟨s₁, rc⟩, hcreate, rfl⟩ := Option.map_eq_some_iff.mp hstep
      exact h.create hs' (Or.inr rfl) hcreate
  | delete path =>
      obtain ⟨⟨s₁, rc⟩, hdelete, rfl⟩ := Option.map_eq_some_iff.mp hstep
      exact h.delete hdelete

theorem reach_consistent (hfaraway : 1 ≤ c.allocate_faraway)
    (h : Reach (step c) (PickFits c) (FileSystem.init c) s) :
    Consistent c s ∧ NamesInRange c s := by
  refine h.invariant (I := fun s => Consistent c s ∧ NamesInRange c s)
    ⟨Consistent.init c, NamesInRange.init c⟩ ?_
  rintro s a s' ⟨hs, hnames⟩ hfits hstep
  have hfits' : Fits c s a := hfits.fits hs hfaraway
  exact ⟨hs.step hfits' hstep, hnames.step hs hfits' hstep⟩

theorem picksRoom_iff (hfaraway : 1 ≤ c.allocate_faraway) (hnames : NamesInRange c s)
    (hsome : ∃ g : ℤ, 0 ≤ g ∧ g < c.num_groups ∧ 0 < freeInodes c s g)
    (parent : Path) {type : InodeType} (htype : type = .regular ∨ type = .directory) :
    PicksRoom c s parent type ↔
      (type = .directory ∨ c.spread_inodes = true → BestWindowHasRoom c s) := by
  by_cases hwindow : type = .directory ∨ c.spread_inodes = true
  · have hpick : pick_group c s parent type =
        find_most_free_inodes_multiple c s 0 c.allocate_faraway := by
      have hnear : ¬ (type = .regular ∧ c.spread_inodes = false) := by
        rintro ⟨rfl, hspread⟩
        obtain hdir | htrue := hwindow
        · cases hdir
        · cases hspread.symm.trans htrue
      rw [pick_group, if_neg hnear, if_pos hwindow]
    rw [picksRoom_window hfaraway hsome hpick]
    exact ⟨fun hbest _ => hbest, fun hbest => hbest hwindow⟩
  · rw [not_or, Bool.not_eq_true] at hwindow
    obtain rfl := htype.resolve_right hwindow.1
    refine iff_of_true (picksRoom_near hsome hnames hwindow.2) ?_
    rintro (hdir | hspread)
    · cases hdir
    · cases hspread.symm.trans hwindow.2

/-- The group that is picked has a free inode, if the best window has room where windows are
compared. -/
theorem picks_room_iff (hfaraway : 1 ≤ c.allocate_faraway)
    (h : Reach (step c) (PickFits c) (FileSystem.init c) s) (hfree : 0 < s.total_inodes_free)
    (parent : Path) {type : InodeType} (htype : type = .regular ∨ type = .directory) :
    PicksRoom c s parent type ↔
      (type = .directory ∨ c.spread_inodes = true → BestWindowHasRoom c s) := by
  obtain ⟨hs, hnames⟩ := reach_consistent hfaraway h
  exact picksRoom_iff hfaraway hnames (hs.exists_room hfree.ne') parent htype

/-- `-n 4 -d 4 -i 2 -A 2`: the windows begin with the groups 0 and 2. -/
def twoWindows : Config :=
  ⟨4, 4, 2, 30, false, 1, false, 2, twoGroups.blocks_pos, twoGroups.blocks_pos, Nat.zero_lt_two⟩

/-- A directory goes to group 2, and a file next to it. -/
theorem picks_room_twoWindows : ∃ s, run (step twoWindows) (FileSystem.init twoWindows)
      [.mkdir ['/', 'd'] 4, .create ['/', 'd', '/', 'f'] 2 4] = some s ∧
    s.total_inodes_free = 5 ∧ PicksRoom twoWindows s ['/'] .directory := by
  have hrun : ((run (step twoWindows) (FileSystem.init twoWindows)
      [.mkdir ['/', 'd'] 4, .create ['/', 'd', '/', 'f'] 2 4]).map fun s =>
        (s.total_inodes_free, decide (BestWindowHasRoom twoWindows s))) = some (5, true) := by
    decide +kernel
  obtain ⟨s, hs, hpair⟩ := Option.map_eq_some_iff.mp hrun
  obtain ⟨hfree, hbest⟩ := Prod.mk.inj hpair
  have hmeets : RunMeets (step twoWindows) (PickFits twoWindows) (FileSystem.init twoWindows)
      [.mkdir ['/', 'd'] 4, .create ['/', 'd', '/', 'f'] 2 4] :=
    runMeets_of_check (by decide +kernel)
  refine ⟨s, hs, hfree, (picks_room_iff (by decide) (reach_of_run _ hmeets hs) (by omega) ['/']
    (Or.inr rfl)).mpr fun _ => of_decide_eq_true hbest⟩

/-- `-n 2 -d 4 -i 1 -A 2`: the only window begins with the group of the root directory. -/
def oneWindow : Config :=
  ⟨2, 4, 1, 30, false, 1, false, 2, Nat.zero_lt_two, twoGroups.blocks_pos, Nat.zero_lt_one⟩

theorem full_group_picked : ¬ ∀ s, Reach (step oneWindow) anyStep (FileSystem.init oneWindow) s →
    0 < s.total_inodes_free → PicksRoom oneWindow s ['/'] .directory := by
  intro hall
  obtain ⟨g, i, hpick, hfind, hi⟩ := hall _ .refl (by decide)
  have hgroup : pick_group oneWindow (FileSystem.init oneWindow) ['/'] .directory = some 0 := by
    decide +kernel
  obtain rfl := Option.some.inj (hgroup.symm.trans hpick)
  have hnone : find_free_inode oneWindow (FileSystem.init oneWindow) 0 = some (-1) := by
    decide +kernel
  obtain rfl := Option.some.inj (hnone.symm.trans hfind)
  omega

end OsLabs.Ffs
