import Mathlib
import OsLabs.Ffs.FileSystem
import OsLabs.Ffs.Bitmap
import OsLabs.Ffs.Groups

/-!
# The allocation of data blocks

When the loop of `allocate_blocks` ends it has marked as many blocks as it was
asked for, all of them free before, and nothing else.
-/

namespace OsLabs.Ffs

variable {c : Config}

/-- The number of an allocated pair of group and index. -/
def Config.block (c : Config) (p : ℤ × ℤ) : ℤ :=
  p.2 + p.1 * c.blocks_per_group

theorem allocate_blocks_loop_spec {target_group size inode_number : ℤ} {I : Allocation → Prop}
    (htake : ∀ a a', I a → a.take c size inode_number = some a' → I a')
    (hadvance : ∀ a, I a → I (a.advance c target_group)) {fuel : ℕ} {a r : Allocation}
    (ha : I a)
    (h : allocate_blocks_loop c target_group size inode_number fuel a = some r) :
    I r ∧ r.allocated.length = size := by
  induction fuel generalizing a with
  | zero => cases h
  | succ fuel ih =>
      obtain ⟨a', htaken, hrest⟩ := Option.bind_eq_some_iff.mp h
      have ha' := htake a a' ha htaken
      split at hrest
      · rename_i hlen
        obtain rfl := Option.some.inj hrest
        exact ⟨ha', hlen⟩
      · exact ih (hadvance a' ha') hrest

/-- What one iteration may take. -/
theorem Allocation.take_cases {a a' : Allocation} {size inode_number : ℤ}
    (h : a.take c size inode_number = some a') :
    a' = a ∨ ∃ bitmap,
      a.bitmap.get c.num_groups c.blocks_per_group a.current_group a.index = some none ∧
      a.bitmap.set c.num_groups c.blocks_per_group a.current_group a.index
        (some inode_number) = some bitmap ∧
      a' = { a with
        bitmap
        allocated := a.allocated ++ [(a.current_group, a.index)]
        allocated_in_group := a.allocated_in_group + 1 } := by
  obtain ⟨free, _, h⟩ := Option.bind_eq_some_iff.mp h
  split at h
  · obtain ⟨entry, hentry, h⟩ := Option.bind_eq_some_iff.mp h
    split at h
    · rename_i hnone
      obtain ⟨bitmap, hset, h⟩ := Option.bind_eq_some_iff.mp h
      exact Or.inr ⟨bitmap, hnone ▸ hentry, hset, (Option.some.inj h).symm⟩
    · cases h
  · exact Or.inl (Option.some.inj h).symm

/-- The state of the loop against the bitmap it started from. -/
structure Filling (c : Config) (start : Bitmap) (inode_number : ℤ) (a : Allocation) : Prop where
  group : 0 ≤ a.current_group ∧ a.current_group < c.num_groups
  index : 0 ≤ a.index ∧ a.index < c.blocks_per_group
  nodup : (a.allocated.map c.block).Nodup
  free : ∀ b ∈ a.allocated.map c.block,
    (0 ≤ b ∧ b < c.num_groups * c.blocks_per_group) ∧ start.at c.blocks_per_group b = none
  marked : ∀ b, a.bitmap.at c.blocks_per_group b =
    if b ∈ a.allocated.map c.block then some inode_number else start.at c.blocks_per_group b

theorem Filling.take {start : Bitmap} {inode_number size : ℤ} {a a' : Allocation}
    (h : Filling c start inode_number a) (htake : a.take c size inode_number = some a') :
    Filling c start inode_number a' := by
  obtain rfl | ⟨bitmap, hget, hset, rfl⟩ := Allocation.take_cases htake
  · exact h
  · obtain ⟨⟨hg0, hg⟩, ⟨hi0, hi⟩, hnodup, hfree, hmarked⟩ := h
    rw [Bitmap.get_eq hg0 hg hi0 hi] at hget
    have hnone : a.bitmap.at c.blocks_per_group (c.block (a.current_group, a.index)) = none :=
      Option.some.inj hget
    rw [hmarked] at hnone
    have hnew : c.block (a.current_group, a.index) ∉ a.allocated.map c.block := by
      intro hmem
      rw [if_pos hmem] at hnone
      cases hnone
    rw [if_neg hnew] at hnone
    refine ⟨⟨hg0, hg⟩, ⟨hi0, hi⟩, ?_, ?_, ?_⟩
    · rw [List.map_append, List.map_singleton, List.nodup_append]
      refine ⟨hnodup, List.nodup_singleton _, ?_⟩
      rintro b hb b' hb' rfl
      exact hnew (List.mem_singleton.mp hb' ▸ hb)
    · intro b hb
      rw [List.map_append, List.map_singleton, List.mem_append, List.mem_singleton] at hb
      obtain hb | rfl := hb
      · exact hfree b hb
      · exact ⟨number_range hg0 hg hi0 hi, hnone⟩
    · intro b
      have hb : bitmap.at c.blocks_per_group b =
          if b = c.block (a.current_group, a.index) then some inode_number
          else a.bitmap.at c.blocks_per_group b := Bitmap.set_eq hg0 hg hi0 hi hset b
      rw [hb, hmarked]
      simp only [List.map_append, List.map_singleton, List.mem_append, List.mem_singleton]
      by_cases hself : b = c.block (a.current_group, a.index)
      · simp only [hself, or_true, if_true]
      · simp only [hself, or_false, if_false]

theorem Filling.advance {start : Bitmap} {inode_number : ℤ} {a : Allocation}
    (h : Filling c start inode_number a) (target_group : ℤ) :
    Filling c start inode_number (a.advance c target_group) := by
  have hpos := c.blocks_pos
  obtain ⟨hgroup, hindex, hnodup, hfree, hmarked⟩ := h
  simp only [Allocation.advance]
  split
  · exact ⟨emod_range c.groups_pos _, ⟨le_rfl, by simpa using hpos⟩, hnodup, hfree, hmarked⟩
  · rename_i hstay
    have hne : a.index + 1 ≠ c.blocks_per_group := fun heq => hstay (Or.inl heq)
    refine ⟨hgroup, ⟨?_, ?_⟩, hnodup, hfree, hmarked⟩
    · show 0 ≤ a.index + 1
      omega
    · show a.index + 1 < c.blocks_per_group
      omega

variable {s s' : FileSystem} {allocated : List (ℤ × ℤ)}

theorem allocate_blocks_cases {fuel : ℕ} {target_group size inode_number : ℤ}
    (h : allocate_blocks c fuel s target_group size inode_number = some (s', allocated)) :
    ∃ a, allocate_blocks_loop c target_group size inode_number fuel
        ⟨s.data_bitmap, [], 0, 0, target_group, c.contig_allocation_policy⟩ = some a ∧
      s' = { s with data_bitmap := a.bitmap } ∧ allocated = a.allocated := by
  unfold allocate_blocks at h
  split at h
  · obtain ⟨a, hloop, h⟩ := Option.bind_eq_some_iff.mp h
    obtain ⟨hs, hallocated⟩ := Prod.mk.inj (Option.some.inj h)
    exact ⟨a, hloop, hs.symm, hallocated.symm⟩
  · cases h

theorem allocate_blocks_length {fuel : ℕ} {target_group size inode_number : ℤ}
    (h : allocate_blocks c fuel s target_group size inode_number = some (s', allocated)) :
    allocated.length = size ∧ (allocated = [] → s' = s) := by
  obtain ⟨a, hloop, rfl, rfl⟩ := allocate_blocks_cases h
  have hspec := allocate_blocks_loop_spec
    (I := fun a => a.allocated = [] → a.bitmap = s.data_bitmap) ?_ ?_ (fun _ => rfl) hloop
  · refine ⟨hspec.2, fun hnil => ?_⟩
    rw [hspec.1 hnil]
  · intro a a' ha htake hnil
    obtain rfl | ⟨bitmap, _, _, rfl⟩ := Allocation.take_cases htake
    · exact ha hnil
    · simp at hnil
  · intro a ha
    simp only [Allocation.advance]
    split <;> exact ha

theorem allocate_blocks_spec {fuel : ℕ} {target_group size inode_number : ℤ}
    (htarget0 : 0 ≤ target_group) (htarget : target_group < c.num_groups)
    (h : allocate_blocks c fuel s target_group size inode_number = some (s', allocated)) :
    ∃ bitmap : Bitmap, s' = { s with data_bitmap := bitmap } ∧
      (allocated.map c.block).Nodup ∧
      (∀ b ∈ allocated.map c.block, (0 ≤ b ∧ b < c.num_groups * c.blocks_per_group) ∧
        s.data_bitmap.at c.blocks_per_group b = none) ∧
      ∀ b, bitmap.at c.blocks_per_group b =
        if b ∈ allocated.map c.block then some inode_number
        else s.data_bitmap.at c.blocks_per_group b := by
  obtain ⟨a, hloop, rfl, rfl⟩ := allocate_blocks_cases h
  have hstart : Filling c s.data_bitmap inode_number
      ⟨s.data_bitmap, [], 0, 0, target_group, c.contig_allocation_policy⟩ :=
    ⟨⟨htarget0, htarget⟩, ⟨le_rfl, by simpa using c.blocks_pos⟩, List.nodup_nil, by simp,
      by simp⟩
  have hspec := allocate_blocks_loop_spec (fun _ _ h htake => h.take htake)
    (fun _ h => h.advance target_group) hstart hloop
  exact ⟨a.bitmap, rfl, hspec.1.nodup, hspec.1.free, hspec.1.marked⟩

end OsLabs.Ffs
