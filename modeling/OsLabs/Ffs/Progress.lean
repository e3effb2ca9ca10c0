import OsLabs.Ffs.Allocation

/-!
# The loop of `allocate_blocks` ends

The second pass over the groups looks for single blocks. From then on a group with a free
block gives at least one, before the large-file exception leaves it.
-/

namespace OsLabs.Ffs

variable {c : Config} {start : Bitmap} {target_group size inode_number : ℤ} {a a' : Allocation}

def Ends (c : Config) (target_group size inode_number : ℤ) (a : Allocation) : Prop :=
  ∃ fuel r, allocate_blocks_loop c target_group size inode_number fuel a = some r

theorem Ends.of_take (htake : a.take c size inode_number = some a')
    (h : a'.allocated.length = size ∨
      Ends c target_group size inode_number (a'.advance c target_group)) :
    Ends c target_group size inode_number a := by
  by_cases hlength : a'.allocated.length = size
  · refine ⟨1, a', ?_⟩
    rw [allocate_blocks_loop, htake]
    exact if_pos hlength
  · obtain ⟨fuel, r, hr⟩ := h.resolve_left hlength
    refine ⟨fuel + 1, r, ?_⟩
    rw [allocate_blocks_loop, htake]
    exact (if_neg hlength).trans hr

/-! ## One block -/

theorem foldlM_free {bitmap : Bitmap} {g : ℤ} (hg0 : 0 ≤ g) (hg : g < c.num_groups) {is : List ℤ}
    (his : ∀ i ∈ is, 0 ≤ i ∧ i < c.blocks_per_group) (ok : Bool) :
    is.foldlM (fun ok i => if ok then do
        return (← bitmap.get c.num_groups c.blocks_per_group g i) = none
      else some false) ok =
      some (ok && is.all fun i => (bitmap.at c.blocks_per_group (c.block (g, i))).isNone) := by
  induction is generalizing ok with
  | nil => simp
  | cons i is ih =>
      obtain ⟨hi0, hi⟩ := his i List.mem_cons_self
      have hrest := ih fun j hj => his j (List.mem_cons_of_mem i hj)
      rw [List.foldlM_cons, List.all_cons]
      cases ok with
      | false => exact hrest false
      | true =>
          rw [if_pos rfl, Bitmap.get_eq hg0 hg hi0 hi]
          refine (hrest _).trans ?_
          rw [Bool.true_and, Config.block]
          cases bitmap.at c.blocks_per_group (i + g * c.blocks_per_group) <;> rfl

theorem range_free_spec {bitmap : Bitmap} {g i needed chunks : ℤ} (hg0 : 0 ≤ g)
    (hg : g < c.num_groups) (hi0 : 0 ≤ i) (hi : i < c.blocks_per_group) (hneeded : 1 ≤ needed)
    (hchunks : 1 ≤ chunks) : ∃ free, range_free c bitmap g i needed chunks = some free ∧
      (free = true → bitmap.at c.blocks_per_group (c.block (g, i)) = none) ∧
      (free = false → chunks = 1 → bitmap.at c.blocks_per_group (c.block (g, i)) ≠ none) := by
  obtain ⟨k, hk⟩ : ∃ k, k = if needed < chunks then needed else chunks := ⟨_, rfl⟩
  have hk1 : 1 ≤ k ∧ (chunks = 1 → k = 1) := by
    split at hk <;> omega
  rw [range_free, ← hk]
  by_cases hend : i + k - 1 ≥ c.blocks_per_group
  · rw [if_pos hend]
    refine ⟨false, rfl, fun htrue => (by cases htrue), fun _ hone => ?_⟩
    have := hk1.2 hone
    omega
  · rw [if_neg hend]
    refine ⟨_, foldlM_free hg0 hg (fun j hj => ?_) true, fun hfree => ?_, fun hfree hone => ?_⟩
    · have := mem_range_iff.mp hj
      omega
    · rw [Bool.true_and, List.all_eq_true] at hfree
      exact Option.isNone_iff_eq_none.mp (hfree i (mem_range_iff.mpr (by omega)))
    · rw [Bool.true_and, List.all_eq_false] at hfree
      obtain ⟨j, hj, hused⟩ := hfree
      have hji : j = i := by
        have := mem_range_iff.mp hj
        have := hk1.2 hone
        omega
      rw [hji] at hused
      exact fun hnone => hused (Option.isNone_iff_eq_none.mpr hnone)

/-- The loop before it has all the blocks: it may look for a block here, and the large-file
exception has not been used up in this group. -/
structure Running (c : Config) (start : Bitmap) (size inode_number : ℤ) (a : Allocation) :
    Prop where
  filling : Filling c start inode_number a
  short : (a.allocated.length : ℤ) < size
  chunks : 1 ≤ a.chunks_free
  exception : 0 < c.large_file_exception → a.allocated_in_group < c.large_file_exception

/-- The block at the index is taken, or single blocks are looked for and it is used. -/
theorem Running.take (h : Running c start size inode_number a) :
    ∃ a', a.take c size inode_number = some a' ∧ a'.index = a.index ∧
      a'.current_group = a.current_group ∧ a'.chunks_free = a.chunks_free ∧
      (a' = a ∧ (a.chunks_free = 1 →
          a.bitmap.at c.blocks_per_group (c.block (a.current_group, a.index)) ≠ none) ∨
        a'.allocated = a.allocated ++ [(a.current_group, a.index)] ∧
          a'.allocated_in_group = a.allocated_in_group + 1) := by
  obtain ⟨hg0, hg⟩ := h.filling.group
  obtain ⟨hi0, hi⟩ := h.filling.index
  have hshort := h.short
  obtain ⟨free, hrange, htrue, hfalse⟩ := @range_free_spec c a.bitmap _ _
    (size - a.allocated.length) _ hg0 hg hi0 hi (by omega) h.chunks
  rw [Allocation.take, hrange]
  cases free with
  | false => exact ⟨a, rfl, rfl, rfl, rfl, Or.inl ⟨rfl, hfalse rfl⟩⟩
  | true =>
      have hget : a.bitmap.get c.num_groups c.blocks_per_group a.current_group a.index =
          some none := by
        rw [Bitmap.get_eq hg0 hg hi0 hi]
        exact congrArg some (htrue rfl)
      obtain ⟨bitmap, hset⟩ := a.bitmap.exists_set (some inode_number) hg0 hg hi0 hi
      refine ⟨{ a with
        bitmap
        allocated := a.allocated ++ [(a.current_group, a.index)]
        allocated_in_group := a.allocated_in_group + 1 }, ?_, rfl, rfl, rfl, Or.inr ⟨rfl, rfl⟩⟩
      simp [hget, hset]

/-! ## One group -/

/-- The loop enters the next group, with a block more if single blocks are looked for and
there was one ahead. -/
structure Passed (c : Config) (target_group : ℤ) (a a' : Allocation) : Prop where
  index : a'.index = 0
  group : a'.current_group = (a.current_group + 1) % c.num_groups
  chunks : a'.chunks_free = if a'.current_group = target_group then 1 else a.chunks_free
  kept : a.allocated <+: a'.allocated
  progress : a.chunks_free = 1 → (∃ i, a.index ≤ i ∧ i < c.blocks_per_group ∧
    a.bitmap.at c.blocks_per_group (c.block (a.current_group, i)) = none) →
    a.allocated.length < a'.allocated.length

theorem Running.pass (h : Running c start size inode_number a)
    (hnext : ∀ a', Running c start size inode_number a' → Passed c target_group a a' →
      Ends c target_group size inode_number a') : Ends c target_group size inode_number a := by
  induction hn : (c.blocks_per_group - a.index).toNat generalizing a with
  | zero =>
      have hindex := h.filling.index
      omega
  | succ n ih =>
      obtain ⟨a₁, htake, hindex, hgroup, hchunks, hcases⟩ := h.take
      refine Ends.of_take htake (or_iff_not_imp_left.mpr fun hlength => ?_)
      have hshort := h.short
      have hexception := h.exception
      have hpos := h.chunks
      have hkept : a.allocated <+: a₁.allocated := by
        obtain ⟨rfl, -⟩ | ⟨hallocated, -⟩ := hcases
        · exact List.prefix_rfl
        · exact hallocated ▸ List.prefix_append _ _
      have hshort₁ : (a₁.allocated.length : ℤ) < size := by
        obtain ⟨rfl, -⟩ | ⟨hallocated, -⟩ := hcases
        · exact hshort
        · rw [hallocated, List.length_append, List.length_singleton] at hlength ⊢
          omega
      have hfilling := (h.filling.take htake).advance target_group
      by_cases hleave : a₁.index + 1 = c.blocks_per_group ∨
          (c.large_file_exception > 0 ∧ a₁.allocated_in_group = c.large_file_exception)
      · -- the group is left
        have hadvance : a₁.advance c target_group =
            { a₁ with
              index := 0
              allocated_in_group := 0
              current_group := (a₁.current_group + 1) % c.num_groups
              chunks_free := if (a₁.current_group + 1) % c.num_groups = target_group then 1
                else a₁.chunks_free } := if_pos hleave
        rw [hadvance] at hfilling ⊢
        refine hnext _ ⟨hfilling, hshort₁, ?_, fun hexc => hexc⟩ ⟨rfl, ?_, ?_, hkept, ?_⟩
        · dsimp only
          split <;> omega
        · dsimp only
          rw [hgroup]
        · dsimp only
          rw [hchunks]
        · rintro hone ⟨i, hi, hiB, hfree⟩
          obtain ⟨rfl, hused⟩ | ⟨hallocated, -⟩ := hcases
          · have hend : i = a₁.index := by
              obtain hend | ⟨hexc, hequal⟩ := hleave
              · omega
              · exact absurd hequal (hexception hexc).ne
            exact absurd (hend ▸ hfree) (hused hone)
          · dsimp only
            rw [hallocated, List.length_append, List.length_singleton]
            omega
      · have hadvance : a₁.advance c target_group = { a₁ with index := a₁.index + 1 } :=
          if_neg hleave
        rw [hadvance] at hfilling ⊢
        rw [not_or, not_and] at hleave
        refine ih ⟨hfilling, hshort₁, hchunks ▸ hpos, fun hexc => ?_⟩ (fun a' ha' hpassed => ?_) ?_
        · have hne := hleave.2 hexc
          obtain ⟨rfl, -⟩ | ⟨-, hcount⟩ := hcases
          · exact hexception hexc
          · have hlt := hexception hexc
            dsimp only
            omega
        · refine hnext a' ha' ⟨hpassed.index, ?_, ?_, hkept.trans hpassed.kept, ?_⟩
          · rw [hpassed.group]
            dsimp only
            rw [hgroup]
          · rw [hpassed.chunks]
            dsimp only
            rw [hchunks]
          · rintro hone ⟨i, hi, hiB, hfree⟩
            obtain ⟨rfl, hused⟩ | ⟨hallocated, -⟩ := hcases
            · refine hpassed.progress hone ⟨i, ?_, hiB, hfree⟩
              have hne : i ≠ a₁.index := by
                rintro rfl
                exact hused hone hfree
              dsimp only
              omega
            · have hle := hpassed.kept.length_le
              dsimp only at hle
              rw [hallocated, List.length_append, List.length_singleton] at hle
              omega
        · dsimp only
          omega

/-! ## All groups -/

/-- Fewer blocks are allocated than were free: one is still free. -/
theorem Filling.exists_free (h : Filling c start inode_number a)
    (hfree : (a.allocated.length : ℤ) < start.numFree c.num_groups c.blocks_per_group) :
    ∃ g i : ℤ, (0 ≤ g ∧ g < c.num_groups) ∧ (0 ≤ i ∧ i < c.blocks_per_group) ∧
      a.bitmap.at c.blocks_per_group (c.block (g, i)) = none := by
  by_contra hnone
  have hsubset : (numbers c.num_groups c.blocks_per_group).filter
      (fun b => (start.at c.blocks_per_group b).isNone) ⊆ a.allocated.map c.block := by
    intro b hb
    obtain ⟨hrange, hb⟩ := List.mem_filter.mp hb
    by_contra hnot
    obtain ⟨p, hp, rfl⟩ := List.mem_map.mp hrange
    obtain ⟨hg, hi⟩ := mem_positions.mp hp
    refine hnone ⟨p.1, p.2, by omega, by omega, ?_⟩
    rw [h.marked]
    exact (if_neg hnot).trans (Option.isNone_iff_eq_none.mp hb)
  have hle := ((numbers_nodup.filter _).subperm hsubset).length_le
  rw [← List.countP_eq_length_filter, ← Bitmap.numFree_eq, List.length_map] at hle
  omega

theorem Passed.bitmap (hpassed : Passed c target_group a a')
    (h : Filling c start inode_number a) (h' : Filling c start inode_number a')
    (hlength : a'.allocated.length ≤ a.allocated.length) (b : ℤ) :
    a'.bitmap.at c.blocks_per_group b = a.bitmap.at c.blocks_per_group b := by
  rw [h.marked, h'.marked, hpassed.kept.eq_of_length_le hlength]

/-- Single blocks are looked for: every round over the groups takes a block. -/
theorem Running.ends_alone (hfree : size ≤ start.numFree c.num_groups c.blocks_per_group) (m : ℕ)
    (h : Running c start size inode_number a) (hindex : a.index = 0) (hone : a.chunks_free = 1)
    (hm : size - a.allocated.length ≤ m) : Ends c target_group size inode_number a := by
  induction m generalizing a with
  | zero =>
      have hshort := h.short
      omega
  | succ m ih =>
      obtain ⟨g, i, hg, hi, hnone⟩ := h.filling.exists_free (lt_of_lt_of_le h.short hfree)
      -- `d` groups lie before the one with the free block
      obtain ⟨d, hd⟩ : ∃ d : ℕ, (a.current_group + d) % c.num_groups = g := by
        refine ⟨((g - a.current_group) % c.num_groups).toNat, ?_⟩
        rw [Int.toNat_of_nonneg (emod_range c.groups_pos _).1, Int.add_emod_emod,
          add_sub_cancel, Int.emod_eq_of_lt hg.1 hg.2]
      induction d generalizing a with
      | zero =>
          have hgroup : a.current_group = g := by
            rw [← hd, Nat.cast_zero, add_zero, Int.emod_eq_of_lt h.filling.group.1
              h.filling.group.2]
          refine h.pass fun a' ha' hpassed => ih ha' hpassed.index ?_ ?_
          · rw [hpassed.chunks, hone, ite_self]
          · have hmore := hpassed.progress hone ⟨i, hindex ▸ hi.1, hi.2, hgroup ▸ hnone⟩
            omega
      | succ d ihd =>
          refine h.pass fun a' ha' hpassed => ?_
          have hone' : a'.chunks_free = 1 := by rw [hpassed.chunks, hone, ite_self]
          by_cases hmore : a.allocated.length < a'.allocated.length
          · exact ih ha' hpassed.index hone' (by omega)
          · have hlength := hpassed.kept.length_le
            refine ihd ha' hpassed.index hone' (by omega) ?_ ?_
            · rw [hpassed.bitmap h.filling ha'.filling (Nat.not_lt.mp hmore)]
              exact hnone
            · rw [hpassed.group, Int.emod_add_emod, ← hd]
              push_cast
              ring_nf

/-- Ranges are looked for until the loop is back at the first group. -/
theorem Running.ends (hfree : size ≤ start.numFree c.num_groups c.blocks_per_group) (n : ℕ)
    (h : Running c start size inode_number a)
    (hgroup : (a.current_group + (n + 1)) % c.num_groups = target_group) :
    Ends c target_group size inode_number a := by
  induction n generalizing a with
  | zero =>
      refine h.pass fun a' ha' hpassed =>
        ha'.ends_alone hfree (size - a'.allocated.length).toNat hpassed.index ?_ (by omega)
      have htarget : a'.current_group = target_group := by
        rw [hpassed.group, ← hgroup]
        simp
      rw [hpassed.chunks, if_pos htarget]
  | succ n ih =>
      refine h.pass fun a' ha' hpassed => ih ha' ?_
      rw [hpassed.group, Int.emod_add_emod, ← hgroup]
      push_cast
      ring_nf

/-! ## The blocks that are allocated -/

theorem Config.block_inj {p q : ℤ × ℤ} (hp : 0 ≤ p.2 ∧ p.2 < c.blocks_per_group)
    (hq : 0 ≤ q.2 ∧ q.2 < c.blocks_per_group) (h : c.block p = c.block q) : p = q := by
  rw [Config.block, Config.block] at h
  have hdiv := congrArg (· / (c.blocks_per_group : ℤ)) h
  have hmod := congrArg (· % (c.blocks_per_group : ℤ)) h
  rw [number_div hp.1 hp.2, number_div hq.1 hq.2] at hdiv
  rw [number_mod hp.1 hp.2, number_mod hq.1 hq.2] at hmod
  exact Prod.ext hdiv hmod

/-- The pairs are positions of the bitmap. -/
def InRange (c : Config) (p : ℤ × ℤ) : Prop :=
  (0 ≤ p.1 ∧ p.1 < c.num_groups) ∧ 0 ≤ p.2 ∧ p.2 < c.blocks_per_group

theorem Allocation.take_inRange (hgroup : 0 ≤ a.current_group ∧ a.current_group < c.num_groups)
    (hindex : 0 ≤ a.index ∧ a.index < c.blocks_per_group) (h : ∀ p ∈ a.allocated, InRange c p)
    (htake : a.take c size inode_number = some a') : ∀ p ∈ a'.allocated, InRange c p := by
  obtain rfl | ⟨bitmap, -, -, rfl⟩ := Allocation.take_cases htake
  · exact h
  · intro p hp
    obtain hp | hp := List.mem_append.mp hp
    · exact h p hp
    · obtain rfl := List.mem_singleton.mp hp
      exact ⟨hgroup, hindex⟩

variable {s : FileSystem}

theorem filling_start (htarget0 : 0 ≤ target_group) (htarget : target_group < c.num_groups)
    (inode_number : ℤ) : Filling c s.data_bitmap inode_number
      ⟨s.data_bitmap, [], 0, 0, target_group, c.contig_allocation_policy⟩ :=
  ⟨⟨htarget0, htarget⟩, ⟨le_rfl, by simpa using c.blocks_pos⟩, List.nodup_nil, by simp, by simp⟩

theorem allocate_blocks_loop_ends (hcontig : 1 ≤ c.contig_allocation_policy)
    (htarget0 : 0 ≤ target_group) (htarget : target_group < c.num_groups) (hsize : 1 ≤ size)
    (hfree : size ≤ s.data_bitmap.numFree c.num_groups c.blocks_per_group) (inode_number : ℤ) :
    Ends c target_group size inode_number
      ⟨s.data_bitmap, [], 0, 0, target_group, c.contig_allocation_policy⟩ := by
  have hgroups := c.groups_pos
  have hrunning : Running c s.data_bitmap size inode_number
      ⟨s.data_bitmap, [], 0, 0, target_group, c.contig_allocation_policy⟩ :=
    ⟨filling_start htarget0 htarget inode_number, hsize, hcontig, fun hexc => hexc⟩
  refine hrunning.ends hfree (c.num_groups - 1) ?_
  have hall : ((c.num_groups - 1 : ℕ) : ℤ) + 1 = c.num_groups := by omega
  rw [hall, Int.add_emod_right, Int.emod_eq_of_lt htarget0 htarget]

/-- The loop of `allocate_blocks` ends with as many blocks as asked for, that were free and
are marked; the other entries of the bitmap stay. -/
theorem allocate_blocks_ends (hcontig : 1 ≤ c.contig_allocation_policy)
    (htarget0 : 0 ≤ target_group) (htarget : target_group < c.num_groups) (hsize : 1 ≤ size)
    (hfree : size ≤ s.data_bitmap.numFree c.num_groups c.blocks_per_group)
    (hassert : size ≤ s.total_data_free) (inode_number : ℤ) :
    ∃ fuel bitmap allocated, allocate_blocks c fuel s target_group size inode_number =
        some ({ s with data_bitmap := bitmap }, allocated) ∧
      allocated.length = size ∧ allocated.Nodup ∧
      (∀ p ∈ allocated, InRange c p ∧ s.data_bitmap p.1.toNat p.2.toNat = none) ∧
      ∀ g i, g < c.num_groups → i < c.blocks_per_group →
        bitmap g i = if ((g : ℤ), (i : ℤ)) ∈ allocated then some inode_number
          else s.data_bitmap g i := by
  have hstart := @filling_start c target_group s htarget0 htarget inode_number
  obtain ⟨fuel, r, hloop⟩ :=
    allocate_blocks_loop_ends hcontig htarget0 htarget hsize hfree inode_number
  have hspec := allocate_blocks_loop_spec (I := fun a => Filling c s.data_bitmap inode_number a ∧
      ∀ p ∈ a.allocated, InRange c p)
    (fun a a' h htake => ⟨h.1.take htake,
      Allocation.take_inRange h.1.group h.1.index h.2 htake⟩)
    (fun a h => ⟨h.1.advance target_group, by
      rw [Allocation.advance]
      split <;> exact h.2⟩) ⟨hstart, by simp⟩ hloop
  obtain ⟨⟨hfilling, hrange⟩, hlength⟩ := hspec
  refine ⟨fuel, r.bitmap, r.allocated, ?_, hlength, hfilling.nodup.of_map, fun p hp => ?_, ?_⟩
  · rw [allocate_blocks, if_pos hassert, hloop]
    rfl
  · obtain ⟨⟨hg0, hg⟩, hi0, hi⟩ := hrange p hp
    have hat := Bitmap.at_position s.data_bitmap (p := (p.1.toNat, p.2.toNat))
      (mem_positions.mpr ⟨(by omega : p.1.toNat < c.num_groups),
        (by omega : p.2.toNat < c.blocks_per_group)⟩)
    rw [Int.toNat_of_nonneg hg0, Int.toNat_of_nonneg hi0] at hat
    refine ⟨hrange p hp, ?_⟩
    rw [← hat]
    exact (hfilling.free _ (List.mem_map_of_mem hp)).2
  · intro g i hg hi
    have hposition : (g, i) ∈ positions c.num_groups c.blocks_per_group :=
      mem_positions.mpr ⟨hg, hi⟩
    have hmem : (i : ℤ) + g * c.blocks_per_group ∈ r.allocated.map c.block ↔
        ((g : ℤ), (i : ℤ)) ∈ r.allocated := by
      refine ⟨fun h => ?_, fun h => List.mem_map.mpr ⟨_, h, rfl⟩⟩
      obtain ⟨p, hp, heq⟩ := List.mem_map.mp h
      have hpair := Config.block_inj (hrange p hp).2 (q := ((g : ℤ), (i : ℤ)))
        ⟨Int.natCast_nonneg i, Int.ofNat_lt.mpr hi⟩ heq
      exact hpair ▸ hp
    have hmarked := hfilling.marked ((i : ℤ) + g * c.blocks_per_group)
    rw [Bitmap.at_position r.bitmap hposition, Bitmap.at_position s.data_bitmap hposition]
      at hmarked
    simpa only [hmem] using hmarked

/-- `-n 2 -d 3 -i 1 -L 1 -C 2` -/
def pairsOfBlocks : Config :=
  ⟨2, 3, 1, 1, false, 2, false, 1, Nat.zero_lt_two, Nat.zero_lt_succ 2, Nat.zero_lt_one⟩

/-- The block in the middle of each group is used. -/
def middleUsed : FileSystem :=
  { FileSystem.init pairsOfBlocks with
    data_bitmap := fun _ i => if i = 1 then some 0 else none
    total_data_free := 4 }

theorem allocate_blocks_ends_middleUsed : ∃ fuel bitmap allocated,
    allocate_blocks pairsOfBlocks fuel middleUsed 1 3 5 =
      some ({ middleUsed with data_bitmap := bitmap }, allocated) ∧
    allocated.length = (3 : ℤ) ∧ allocated.Nodup := by
  obtain ⟨fuel, bitmap, allocated, hok, hlength, hnodup, -⟩ :=
    @allocate_blocks_ends pairsOfBlocks 1 3 middleUsed (by decide) (by decide) (by decide)
      (by decide) (by decide +kernel) (by decide) 5
  exact ⟨fuel, bitmap, allocated, hok, hlength, hnodup⟩

end OsLabs.Ffs
