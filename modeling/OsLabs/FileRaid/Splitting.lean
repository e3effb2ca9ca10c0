import Mathlib
import OsLabs.FileRaid.Writes

/-!
# How a write is split

The loop over the stripes cuts the request at the ends of the stripes.
-/

namespace OsLabs.FileRaid

variable {r : Raid} {bmap : ℕ → ℕ × ℕ} {pmap : ℕ → ℕ} {addr size stripe begin stop b k : ℕ}

/-! ## Ranges of blocks -/

@[simp] theorem mem_blocks : b ∈ blocks begin stop ↔ begin ≤ b ∧ b < stop := by
  rw [blocks, List.mem_range'_1]
  omega

theorem length_blocks (begin stop : ℕ) : (blocks begin stop).length = stop - begin :=
  List.length_range'

theorem blocks_nodup (begin stop : ℕ) : (blocks begin stop).Nodup := List.nodup_range' 1

theorem blocks_self (begin : ℕ) : blocks begin begin = [] := by
  rw [blocks, Nat.sub_self]
  rfl

/-- Adjacent ranges make one. -/
theorem blocks_append (h : begin ≤ k) (h' : k ≤ stop) :
    blocks begin k ++ blocks k stop = blocks begin stop := by
  have hmid : begin + 1 * (k - begin) = k := by omega
  have happend := @List.range'_append begin (k - begin) (stop - k) 1
  rw [hmid] at happend
  rw [blocks, blocks, happend, blocks]
  congr 1
  omega

theorem blocks_succ (h : begin ≤ stop) : blocks begin (stop + 1) = blocks begin stop ++ [stop] := by
  rw [← blocks_append h (Nat.le_succ stop)]
  congr 1
  rw [blocks, Nat.succ_sub (le_refl stop), Nat.sub_self]
  rfl

/-! ## The mappings of the two levels -/

/-- The mappings of a level with parity: they never fail, the rest of the disks
is parity, and the offsets count the rows. -/
structure Striped (r : Raid) (bmap : ℕ → ℕ × ℕ) (pmap : ℕ → ℕ) : Prop where
  maps : r.maps = some (fun b => some (bmap b), fun s => some (pmap s))
  exact : Exact r r.blocksInStripe bmap fun p => p.1 = pmap (p.2 / r.chunkSize)
  offset : ∀ b, (bmap b).2 = offset (r.numDisks - 1) r.chunkSize b
  parity_lt : ∀ s, pmap s < r.numDisks
  two_le : 2 ≤ r.numDisks

/-- Levels 4 and 5. -/
def Level.HasParity (level : Level) : Prop := level = .raid4 ∨ ∃ raid5type, level = .raid5 raid5type

theorem exists_striped (h : r.level.HasParity) : ∃ bmap pmap, Striped r bmap pmap := by
  have haccepts := r.accepts
  obtain hlevel | ⟨raid5type, hlevel⟩ := h
  · rw [hlevel] at haccepts
    have hn : 2 ≤ r.numDisks := haccepts
    refine ⟨r.bmap4, r.pmap4, ?_, raid4_exact hn, fun b => rfl, fun s => ?_, hn⟩
    · rw [Raid.maps, hlevel]
    · exact Nat.sub_lt (by omega) Nat.one_pos
  · rw [hlevel] at haccepts
    have hn : 2 ≤ r.numDisks := haccepts
    have hpos : 0 < r.blocksInStripe := Nat.mul_pos (by omega) r.chunk_pos
    refine ⟨fun b => (dataDisk r raid5type (row (r.numDisks - 1) r.chunkSize b)
        (column (r.numDisks - 1) r.chunkSize b), offset (r.numDisks - 1) r.chunkSize b),
      parityDisk r, ?_, (raid5_numbering hn raid5type).exact (by omega) fun b => rfl,
      fun b => rfl, fun s => ?_, hn⟩
    · rw [Raid.maps, hlevel]
      refine congrArg some (Prod.ext (funext fun b => ?_) (funext fun s => ?_))
      · exact congrArg (Option.map fun p : ℕ × ℕ × ℕ => (p.1, p.2.2)) (mapBlock5_eq hn raid5type b)
      · refine (congrArg (Option.map fun p : ℕ × ℕ × ℕ => p.2.1)
          (mapBlock5_eq hn raid5type (s * r.blocksInStripe))).trans ?_
        rw [Nat.mul_div_cancel s hpos]
        rfl
    · rw [parityDisk]
      omega

theorem Striped.pos (h : Striped r bmap pmap) : 0 < r.blocksInStripe :=
  Nat.mul_pos (by have := h.two_le; omega) r.chunk_pos

/-! ## The parts -/

theorem mapM_some (f : ℕ → ℕ × ℕ) (l : List ℕ) :
    (l.mapM fun b => some (f b)) = some (l.map f) :=
  List.mapM_pure (m := Option)

/-- The places of a range of blocks and of its parity. -/
def places (bmap : ℕ → ℕ × ℕ) (pdisk begin stop : ℕ) : List (ℕ × ℕ) :=
  (blocks begin stop).map bmap ++ onDisk pdisk (offList ((blocks begin stop).map bmap))

/-- The places of the blocks of the stripe outside the range. -/
def restOf (r : Raid) (bmap : ℕ → ℕ × ℕ) (stripe begin stop : ℕ) : List (ℕ × ℕ) :=
  (blocks (stripe * r.blocksInStripe) begin ++
    blocks stop (stripe * r.blocksInStripe + r.blocksInStripe)).map bmap

/-- The part of a write that overwrites a range of a stripe. -/
def partOf (r : Raid) (bmap : ℕ → ℕ × ℕ) (pmap : ℕ → ℕ) (stripe begin stop : ℕ) : Part where
  stripe := stripe
  begin := begin
  stop := stop
  reads := (if r.choosesSubtractive (stop - begin) then places bmap (pmap stripe) begin stop
    else restOf r bmap stripe begin stop).map doSingleRead
  writes := (places bmap (pmap stripe) begin stop).map doSingleWrite

theorem subtractiveReads_eq (bmap : ℕ → ℕ × ℕ) (pdisk begin stop : ℕ) :
    Raid.subtractiveReads pdisk begin stop (fun b => some (bmap b)) =
      some ((places bmap pdisk begin stop).map doSingleRead) := by
  rw [Raid.subtractiveReads, mapM_some]
  rfl

theorem additiveReads_eq (r : Raid) (bmap : ℕ → ℕ × ℕ) (stripe begin stop : ℕ) :
    r.additiveReads stripe begin stop (fun b => some (bmap b)) =
      some ((restOf r bmap stripe begin stop).map doSingleRead) := by
  rw [Raid.additiveReads, mapM_some]
  rfl

theorem doPartialWrite_eq (r : Raid) (bmap : ℕ → ℕ × ℕ) (pmap : ℕ → ℕ) (stripe begin stop : ℕ) :
    r.doPartialWrite stripe begin stop (fun b => some (bmap b)) (fun s => some (pmap s)) =
      some (partOf r bmap pmap stripe begin stop) := by
  simp only [Raid.doPartialWrite, subtractiveReads_eq, additiveReads_eq, mapM_some, partOf]
  split <;> rfl

/-! ## The loop -/

/-- The blocks below the end of a stripe have been written. -/
def reached (r : Raid) (addr size stripe : ℕ) : ℕ :=
  min (addr + size) (max addr (stripe * r.blocksInStripe))

/-- The part of the request in a stripe. -/
def partAt (r : Raid) (bmap : ℕ → ℕ × ℕ) (pmap : ℕ → ℕ) (addr size stripe : ℕ) : Part :=
  partOf r bmap pmap stripe (reached r addr size stripe) (reached r addr size (stripe + 1))

theorem lt_endOfStripe (h : Striped r bmap pmap) (hfirst : addr / r.blocksInStripe ≤ stripe) :
    addr < stripe * r.blocksInStripe + r.blocksInStripe := by
  rw [← Nat.succ_mul]
  exact (Nat.div_lt_iff_lt_mul h.pos).mp (Nat.lt_succ_of_le hfirst)

/-- A part ends with the request or with its stripe. -/
theorem partEnd_eq_min {left : ℕ} (hbegin : stripe * r.blocksInStripe ≤ begin) :
    r.partEnd left begin stripe =
      min (begin + left) (stripe * r.blocksInStripe + r.blocksInStripe) := by
  rw [Raid.partEnd]
  split
  · split <;> omega
  · split <;> omega

theorem partEnd_eq (h : Striped r bmap pmap) (hfirst : addr / r.blocksInStripe ≤ stripe)
    (hlast : stripe * r.blocksInStripe < addr + size) :
    r.partEnd (addr + size - reached r addr size stripe) (reached r addr size stripe) stripe =
      reached r addr size (stripe + 1) := by
  have hlt := lt_endOfStripe h hfirst
  have hbegin : stripe * r.blocksInStripe ≤ reached r addr size stripe := by
    rw [reached]
    omega
  rw [partEnd_eq_min hbegin]
  simp only [reached, Nat.succ_mul]
  omega

theorem writeStripe_eq (h : Striped r bmap pmap) (parts : List Part)
    (hfirst : addr / r.blocksInStripe ≤ stripe)
    (hlast : stripe * r.blocksInStripe < addr + size) :
    r.writeStripe (fun b => some (bmap b)) (fun s => some (pmap s))
        ⟨addr + size - reached r addr size stripe, reached r addr size stripe, parts⟩ stripe =
      some ⟨addr + size - reached r addr size (stripe + 1), reached r addr size (stripe + 1),
        parts ++ [partAt r bmap pmap addr size stripe]⟩ := by
  have hleft : addr + size - reached r addr size stripe -
      (reached r addr size (stripe + 1) - reached r addr size stripe) =
      addr + size - reached r addr size (stripe + 1) := by
    simp only [reached, Nat.succ_mul]
    omega
  simp only [Raid.writeStripe, partEnd_eq h hfirst hlast, doPartialWrite_eq]
  exact congrArg (fun left => some (WriteLoop.mk left _ _)) hleft

theorem foldlM_writeStripe (h : Striped r bmap pmap) (hk : addr / r.blocksInStripe ≤ k)
    (hlast : ∀ stripe < k, stripe * r.blocksInStripe < addr + size) :
    (blocks (addr / r.blocksInStripe) k).foldlM
        (r.writeStripe (fun b => some (bmap b)) (fun s => some (pmap s))) ⟨size, addr, []⟩ =
      some ⟨addr + size - reached r addr size k, reached r addr size k,
        (blocks (addr / r.blocksInStripe) k).map (partAt r bmap pmap addr size)⟩ := by
  induction k, hk using Nat.le_induction with
  | base =>
      have hle : addr / r.blocksInStripe * r.blocksInStripe ≤ addr := Nat.div_mul_le_self ..
      have hreached : reached r addr size (addr / r.blocksInStripe) = addr := by
        rw [reached]
        omega
      rw [blocks_self, hreached, Nat.add_sub_cancel_left]
      rfl
  | succ k hk ih =>
      rw [blocks_succ hk, List.foldlM_append, ih fun stripe hlt => hlast stripe (by omega),
        List.map_append]
      simp only [Option.bind_eq_bind, Option.bind_some, List.foldlM_cons, List.foldlM_nil,
        writeStripe_eq h _ hk (hlast k (Nat.lt_succ_self k))]
      rfl

/-- The stripes a request touches. -/
def stripes (r : Raid) (addr size : ℕ) : List ℕ :=
  blocks (addr / r.blocksInStripe) ((addr + size - 1) / r.blocksInStripe + 1)

theorem mem_stripes (h : Striped r bmap pmap) (hsize : 1 ≤ size) :
    stripe ∈ stripes r addr size ↔ addr / r.blocksInStripe ≤ stripe ∧
      stripe * r.blocksInStripe < addr + size := by
  rw [stripes, mem_blocks, Nat.lt_succ_iff, Nat.le_div_iff_mul_le h.pos]
  omega

theorem writeParts_eq (h : Striped r bmap pmap) (hsize : 1 ≤ size) :
    r.writeParts addr size =
      some ((stripes r addr size).map (partAt r bmap pmap addr size)) := by
  have hle : addr / r.blocksInStripe ≤ (addr + size - 1) / r.blocksInStripe + 1 :=
    (Nat.div_le_div_right (by omega)).trans (Nat.le_succ _)
  have hlast (stripe : ℕ) (hlt : stripe < (addr + size - 1) / r.blocksInStripe + 1) :
      stripe * r.blocksInStripe < addr + size := by
    have := (Nat.le_div_iff_mul_le h.pos).mp (Nat.lt_succ_iff.mp hlt)
    omega
  rw [Raid.writeParts, h.maps]
  simp only [Option.bind_eq_bind, Option.bind_some]
  rw [foldlM_writeStripe h hle hlast]
  rfl

/-! ## The ranges -/

/-- The ranges are not empty, lie in their stripes, and make up the request in order. -/
structure Split (r : Raid) (addr size : ℕ) (parts : List Part) : Prop where
  nonempty : ∀ p ∈ parts, p.begin < p.stop
  within : ∀ p ∈ parts, p.stripe * r.blocksInStripe ≤ p.begin ∧
    p.stop ≤ p.stripe * r.blocksInStripe + r.blocksInStripe
  partition : (parts.flatMap fun p => blocks p.begin p.stop) = blocks addr (addr + size)

theorem flatMap_stripes (hk : addr / r.blocksInStripe ≤ k) :
    ((blocks (addr / r.blocksInStripe) k).flatMap fun stripe =>
      blocks (reached r addr size stripe) (reached r addr size (stripe + 1))) =
      blocks addr (reached r addr size k) := by
  induction k, hk using Nat.le_induction with
  | base =>
      have hle : addr / r.blocksInStripe * r.blocksInStripe ≤ addr := Nat.div_mul_le_self ..
      have hreached : reached r addr size (addr / r.blocksInStripe) = addr := by
        rw [reached]
        omega
      rw [blocks_self, hreached, blocks_self]
      rfl
  | succ k hk ih =>
      rw [blocks_succ hk, List.flatMap_append, ih, List.flatMap_singleton]
      refine blocks_append ?_ ?_ <;> simp only [reached, Nat.succ_mul] <;> omega

theorem split_parts (h : Striped r bmap pmap) (hsize : 1 ≤ size) :
    Split r addr size ((stripes r addr size).map (partAt r bmap pmap addr size)) where
  nonempty := by
    intro p hp
    obtain ⟨stripe, hmem, rfl⟩ := List.mem_map.mp hp
    obtain ⟨hfirst, hlast⟩ := (mem_stripes h hsize).mp hmem
    have hlt := lt_endOfStripe h hfirst
    have hpos := h.pos
    simp only [partAt, partOf, reached, Nat.succ_mul]
    omega
  within := by
    intro p hp
    obtain ⟨stripe, hmem, rfl⟩ := List.mem_map.mp hp
    obtain ⟨hfirst, hlast⟩ := (mem_stripes h hsize).mp hmem
    have hlt := lt_endOfStripe h hfirst
    simp only [partAt, partOf, reached, Nat.succ_mul]
    omega
  partition := by
    have hle : addr / r.blocksInStripe ≤ (addr + size - 1) / r.blocksInStripe + 1 :=
      (Nat.div_le_div_right (by omega)).trans (Nat.le_succ _)
    have hend : addr + size - 1 <
        (addr + size - 1) / r.blocksInStripe * r.blocksInStripe + r.blocksInStripe :=
      lt_endOfStripe h le_rfl
    have hreached : reached r addr size ((addr + size - 1) / r.blocksInStripe + 1) =
        addr + size := by
      simp only [reached, Nat.succ_mul]
      omega
    rw [List.flatMap_map]
    exact (flatMap_stripes hle).trans (by rw [hreached])

end OsLabs.FileRaid
