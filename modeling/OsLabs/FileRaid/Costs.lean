import Mathlib
import OsLabs.FileRaid.Places

/-!
# The cost of the two parity methods

The subtractive method also reads the parity of every row of the range; the
choice between the methods counts one row only.
-/

namespace OsLabs.FileRaid

variable {r : Raid} {bmap : ℕ → ℕ × ℕ} {pmap : ℕ → ℕ} {stripe begin stop : ℕ}

/-- So many numbers in a row have so many remainders. -/
theorem card_image_mod (begin stop : ℕ) {chunk : ℕ} (hchunk : 1 ≤ chunk) :
    ((Finset.Ico begin stop).image (· % chunk)).card = min (stop - begin) chunk := by
  rcases Nat.le_total (stop - begin) chunk with hle | hge
  · have hsub : Finset.Ico begin stop ⊆ Finset.Ico begin (begin + chunk) :=
      Finset.Ico_subset_Ico_right (by omega)
    rw [Finset.card_image_of_injOn ((Nat.mod_injOn_Ico begin chunk).mono hsub), Nat.card_Ico,
      min_eq_left hle]
  · rw [min_eq_right hge]
    refine le_antisymm ?_ ?_
    · have hsub : (Finset.Ico begin stop).image (· % chunk) ⊆ Finset.range chunk := by
        intro i hi
        obtain ⟨b, -, rfl⟩ := Finset.mem_image.mp hi
        exact Finset.mem_range.mpr (Nat.mod_lt b hchunk)
      have hcard := Finset.card_le_card hsub
      rwa [Finset.card_range] at hcard
    · have hsub : Finset.Ico begin (begin + chunk) ⊆ Finset.Ico begin stop :=
        Finset.Ico_subset_Ico_right (by omega)
      have hcard := Finset.card_le_card (Finset.image_subset_image (f := (· % chunk)) hsub)
      rwa [Nat.image_Ico_mod, Finset.card_range] at hcard

theorem offset_of_within (h : Striped r bmap pmap) (hw : Within r stripe begin stop) {b : ℕ}
    (hbegin : begin ≤ b) (hstop : b < stop) :
    (bmap b).2 = stripe * r.chunkSize + b % r.chunkSize := by
  have hrow := offset_div (n := r.numDisks - 1) (b := b) r.chunk_pos
  rw [← h.offset b, h.stripe_of_within hw hbegin hstop] at hrow
  rw [h.offset, offset, hrow]

/-- A range touches one row for each of its blocks, up to the size of a chunk. -/
theorem length_offList (h : Striped r bmap pmap) (hw : Within r stripe begin stop) :
    (offList ((blocks begin stop).map bmap)).length = min (stop - begin) r.chunkSize := by
  have himage : (offList ((blocks begin stop).map bmap)).toFinset =
      ((Finset.Ico begin stop).image (· % r.chunkSize)).image (stripe * r.chunkSize + ·) := by
    ext off
    rw [List.mem_toFinset, mem_offList, Finset.image_image, Finset.mem_image]
    constructor
    · rintro ⟨_, hp, rfl⟩
      obtain ⟨b, hb, rfl⟩ := List.mem_map.mp hp
      obtain ⟨hbegin, hstop⟩ := mem_blocks.mp hb
      exact ⟨b, Finset.mem_Ico.mpr ⟨hbegin, hstop⟩, (offset_of_within h hw hbegin hstop).symm⟩
    · rintro ⟨b, hb, rfl⟩
      obtain ⟨hbegin, hstop⟩ := Finset.mem_Ico.mp hb
      exact ⟨bmap b, List.mem_map_of_mem (mem_blocks.mpr ⟨hbegin, hstop⟩),
        offset_of_within h hw hbegin hstop⟩
  rw [← List.toFinset_card_of_nodup (offList_nodup _), himage,
    Finset.card_image_of_injective _ (add_right_injective _),
    card_image_mod begin stop r.chunk_pos]

theorem length_places (h : Striped r bmap pmap) (hw : Within r stripe begin stop) (pdisk : ℕ) :
    (places bmap pdisk begin stop).length = stop - begin + min (stop - begin) r.chunkSize := by
  rw [places, List.length_append, List.length_map, length_blocks, onDisk, List.length_map,
    length_offList h hw]

theorem length_restOf (hw : Within r stripe begin stop) (hle : begin ≤ stop) :
    (restOf r bmap stripe begin stop).length = r.blocksInStripe - (stop - begin) := by
  obtain ⟨hbegin, hstop⟩ := hw
  rw [restOf, List.length_map, List.length_append, length_blocks, length_blocks]
  omega

/-- The reads of the method that is not chosen. -/
def Raid.otherReads (r : Raid) (stripe begin stop : ℕ) (bmap : ℕ → Option (ℕ × ℕ))
    (pmap : ℕ → Option ℕ) : Option (List Access) :=
  (pmap stripe).bind fun pdisk =>
    if r.choosesSubtractive (stop - begin) then r.additiveReads stripe begin stop bmap
    else Raid.subtractiveReads pdisk begin stop bmap

/-- The method chosen for a range of a stripe is the cheaper one, unless the
choice is wrong about the rows: the range has fewer blocks than the rest of the
stripe, but not with the parity of its rows. -/
theorem doPartialWrite_cheaper_iff (r : Raid) (hlevel : r.level.HasParity) (stripe begin stop : ℕ)
    (hw : Within r stripe begin stop) (hle : begin ≤ stop) :
    ∃ maps part other, r.maps = some maps ∧
      r.doPartialWrite stripe begin stop maps.1 maps.2 = some part ∧
      r.otherReads stripe begin stop maps.1 maps.2 = some other ∧
      (part.reads.length ≤ other.length ↔
        ¬ (stop - begin < r.blocksInStripe - (stop - begin) ∧
          r.blocksInStripe - (stop - begin) <
            stop - begin + min (stop - begin) r.chunkSize)) := by
  obtain ⟨bmap, pmap, hs⟩ := exists_striped hlevel
  have hplaces := length_places hs hw (pmap stripe)
  have hrest : (restOf r bmap stripe begin stop).length = _ := length_restOf hw hle
  by_cases hsub : r.choosesSubtractive (stop - begin)
  · refine ⟨_, _, (restOf r bmap stripe begin stop).map doSingleRead, hs.maps,
      doPartialWrite_eq .., ?_, ?_⟩
    · exact (if_pos hsub).trans (additiveReads_eq ..)
    · rw [partOf, if_pos hsub, List.length_map, List.length_map, hplaces, hrest]
      rw [Raid.choosesSubtractive] at hsub
      omega
  · refine ⟨_, _, (places bmap (pmap stripe) begin stop).map doSingleRead, hs.maps,
      doPartialWrite_eq .., ?_, ?_⟩
    · exact (if_neg hsub).trans (subtractiveReads_eq ..)
    · rw [partOf, if_neg hsub, List.length_map, List.length_map, hplaces, hrest]
      rw [Raid.choosesSubtractive] at hsub
      omega

/-- Three disks with chunks of four blocks. -/
def threeDisks : Raid := ⟨4, 3, .raid4, by decide, Nat.le_add_left 2 1⟩

/-- The first three blocks of the first chunk touch three rows: with the
subtractive method six blocks are read, with the other one five. -/
theorem doPartialWrite_not_cheaper : ∃ maps part other, threeDisks.maps = some maps ∧
    threeDisks.doPartialWrite 0 0 3 maps.1 maps.2 = some part ∧
      threeDisks.otherReads 0 0 3 maps.1 maps.2 = some other ∧
        part.reads.length = 6 ∧ other.length = 5 :=
  ⟨_, _, _, rfl, rfl, rfl, rfl, rfl⟩

/-- Five disks with rotating parity and chunks of two blocks. -/
def fiveDisks : Raid := ⟨2, 5, .raid5 .leftSymmetric, by decide, Nat.le_add_left 2 3⟩

/-- A range over the end of a chunk, in both rows of the second stripe: the subtractive
method is chosen, and reads four blocks where the other one would read six. -/
theorem doPartialWrite_cheaper_rows : ∃ maps part other, fiveDisks.maps = some maps ∧
    fiveDisks.doPartialWrite 1 9 11 maps.1 maps.2 = some part ∧
      fiveDisks.otherReads 1 9 11 maps.1 maps.2 = some other ∧
        part.reads.length = 4 ∧ other.length = 6 ∧ part.reads.length ≤ other.length := by
  obtain ⟨maps, part, other, hmaps, hpart, hother, hiff⟩ :=
    doPartialWrite_cheaper_iff fiveDisks (Or.inr ⟨_, rfl⟩) 1 9 11 ⟨by decide, by decide⟩ (by decide)
  have hle := hiff.mpr (by decide)
  have hlengths : (fiveDisks.maps.bind fun maps => (fiveDisks.doPartialWrite 1 9 11 maps.1
      maps.2).bind fun part => (fiveDisks.otherReads 1 9 11 maps.1 maps.2).map fun other =>
        (part.reads.length, other.length)) = some (4, 6) := by decide +kernel
  rw [hmaps, Option.bind_some, hpart, Option.bind_some, hother] at hlengths
  obtain ⟨hpartLength, hotherLength⟩ := Prod.mk.inj (Option.some.inj hlengths)
  exact ⟨maps, part, other, hmaps, hpart, hother, hpartLength, hotherLength, hle⟩

end OsLabs.FileRaid
