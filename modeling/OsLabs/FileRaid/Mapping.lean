import Mathlib

/-!
# RAID address mapping

The mappings of `raid.py` over exact integers. The assertion of `__bmap5` makes
its result an option.
-/

namespace OsLabs.FileRaid

inductive Raid5Type
  | leftSymmetric
  | leftAsymmetric
deriving DecidableEq, Repr

inductive Level
  | raid0
  | raid1
  | raid4
  | raid5 (raid5type : Raid5Type)
deriving DecidableEq, Repr

/-- The numbers of disks a level accepts. -/
def Level.Accepts : Level → ℕ → Prop
  | .raid0, numDisks => 1 ≤ numDisks
  | .raid1, numDisks => 2 ≤ numDisks ∧ numDisks % 2 = 0
  | .raid4, numDisks => 2 ≤ numDisks
  | .raid5 _, numDisks => 2 ≤ numDisks

structure Raid where
  chunkSize : ℕ
  numDisks : ℕ
  level : Level
  chunk_pos : 1 ≤ chunkSize
  accepts : level.Accepts numDisks

namespace Raid

variable (r : Raid)

def blocksInStripe : ℕ := (r.numDisks - 1) * r.chunkSize

def bmap0 (bnum : ℕ) : ℕ × ℕ :=
  let cnum := bnum / r.chunkSize
  let coff := bnum % r.chunkSize
  (cnum % r.numDisks, cnum / r.numDisks * r.chunkSize + coff)

/-- The two disks and the offset on both. -/
def bmap1 (bnum : ℕ) : ℕ × ℕ × ℕ :=
  let cnum := bnum / r.chunkSize
  let coff := bnum % r.chunkSize
  let disk := 2 * (cnum % (r.numDisks / 2))
  (disk, disk + 1, cnum / (r.numDisks / 2) * r.chunkSize + coff)

def bmap4 (bnum : ℕ) : ℕ × ℕ :=
  let cnum := bnum / r.chunkSize
  let coff := bnum % r.chunkSize
  (cnum % (r.numDisks - 1), cnum / (r.numDisks - 1) * r.chunkSize + coff)

def pmap4 (_snum : ℕ) : ℕ := r.numDisks - 1

/-- The disk of the data, that of the parity, and the offset. -/
def mapBlock5 (raid5type : Raid5Type) (bnum : ℕ) : Option (ℕ × ℕ × ℕ) :=
  let cnum := bnum / r.chunkSize
  let coff := bnum % r.chunkSize
  let ddsk := cnum / (r.numDisks - 1)
  let doff := ddsk * r.chunkSize + coff
  let disk := cnum % (r.numDisks - 1)
  let col := ddsk % r.numDisks
  let pdisk := r.numDisks - 1 - col
  let disk :=
    match raid5type with
    | .leftAsymmetric => if disk ≥ pdisk then disk + 1 else disk
    | .leftSymmetric => (((disk : ℤ) - col) % r.numDisks).toNat
  if disk ≠ pdisk then some (disk, pdisk, doff) else none

def bmap5 (raid5type : Raid5Type) (bnum : ℕ) : Option (ℕ × ℕ) :=
  (r.mapBlock5 raid5type bnum).map fun (disk, _, off) => (disk, off)

def pmap5 (raid5type : Raid5Type) (snum : ℕ) : Option ℕ :=
  (r.mapBlock5 raid5type (snum * r.blocksInStripe)).map fun (_, pdisk, _) => pdisk

end Raid

/-! ## Columns

Chunks are dealt out to `n` columns in turn; all mappings number the disks of a
row on top of that. -/

section Columns

variable {n chunk b b' : ℕ}

def column (n chunk b : ℕ) : ℕ := b / chunk % n

def row (n chunk b : ℕ) : ℕ := b / chunk / n

def offset (n chunk b : ℕ) : ℕ := row n chunk b * chunk + b % chunk

/-- The block in a column at an offset. -/
def blockAt (n chunk col off : ℕ) : ℕ := (off / chunk * n + col) * chunk + off % chunk

theorem row_eq_div (n chunk b : ℕ) : row n chunk b = b / (n * chunk) := by
  rw [row, Nat.div_div_eq_div_mul, Nat.mul_comm]

theorem offset_div (hchunk : 1 ≤ chunk) : offset n chunk b / chunk = row n chunk b := by
  rw [offset, Nat.mul_comm, Nat.mul_add_div hchunk, Nat.div_eq_of_lt (Nat.mod_lt b hchunk)]
  rfl

theorem offset_mod : offset n chunk b % chunk = b % chunk := by
  rw [offset, Nat.mul_add_mod_self_right, Nat.mod_mod]

/-- A block is found again from its column and offset. -/
theorem blockAt_column_offset (hchunk : 1 ≤ chunk) :
    blockAt n chunk (column n chunk b) (offset n chunk b) = b := by
  rw [blockAt, offset_div hchunk, offset_mod, row, column, Nat.div_add_mod', Nat.div_add_mod']

theorem blockAt_div (hchunk : 1 ≤ chunk) (col off : ℕ) :
    blockAt n chunk col off / chunk = off / chunk * n + col := by
  rw [blockAt, Nat.mul_comm _ chunk, Nat.mul_add_div hchunk,
    Nat.div_eq_of_lt (Nat.mod_lt off hchunk), Nat.add_zero]

theorem column_blockAt (hchunk : 1 ≤ chunk) {col : ℕ} (hcol : col < n) (off : ℕ) :
    column n chunk (blockAt n chunk col off) = col := by
  rw [column, blockAt_div hchunk, Nat.mul_comm, Nat.mul_add_mod, Nat.mod_eq_of_lt hcol]

theorem offset_blockAt (hchunk : 1 ≤ chunk) {col : ℕ} (hcol : col < n) (off : ℕ) :
    offset n chunk (blockAt n chunk col off) = off := by
  have hrow : row n chunk (blockAt n chunk col off) = off / chunk := by
    rw [row, blockAt_div hchunk, Nat.mul_comm, Nat.mul_add_div (by omega),
      Nat.div_eq_of_lt hcol, Nat.add_zero]
  rw [offset, hrow, blockAt, Nat.mul_add_mod_self_right, Nat.mod_mod, Nat.div_add_mod']

end Columns

end OsLabs.FileRaid
