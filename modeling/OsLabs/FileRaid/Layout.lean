import Mathlib
import OsLabs.FileRaid.Mapping

/-!
# What lies on every disk

At every level each physical block holds exactly one thing: one logical block,
or a mirror copy, or parity.
-/

namespace OsLabs.FileRaid

/-- Stripes hold `perStripe` blocks; a physical block is data or, where `other`
says so, something else. -/
structure Exact (r : Raid) (perStripe : ℕ) (bmap : ℕ → ℕ × ℕ) (other : ℕ × ℕ → Prop) : Prop where
  injective : Function.Injective bmap
  disk_lt : ∀ b, (bmap b).1 < r.numDisks
  stripe : ∀ b, (bmap b).2 / r.chunkSize = b / perStripe
  covered : ∀ p : ℕ × ℕ, p.1 < r.numDisks → Xor (∃ b, bmap b = p) (other p)

/-- The layout of a level. At level 1 the other blocks are the mirror copies, at
levels 4 and 5 the parity blocks. -/
def Raid.LayoutExact (r : Raid) : Prop :=
  match r.level with
  | .raid0 => Exact r (r.numDisks * r.chunkSize) r.bmap0 fun _ => False
  | .raid1 =>
      Exact r (r.numDisks / 2 * r.chunkSize) (fun b => ((r.bmap1 b).1, (r.bmap1 b).2.2))
        (fun p => ∃ b, (r.bmap1 b).2 = p) ∧
      Function.Injective (fun b => (r.bmap1 b).2) ∧ ∀ b, (r.bmap1 b).2.1 < r.numDisks
  | .raid4 =>
      Exact r r.blocksInStripe r.bmap4 (fun p => p.1 = r.pmap4 (p.2 / r.chunkSize)) ∧
      ∀ b, (r.bmap4 b).1 ≠ r.pmap4 (b / r.blocksInStripe)
  | .raid5 raid5type => ∃ (bmap : ℕ → ℕ × ℕ) (pmap : ℕ → ℕ),
      (∀ b, r.mapBlock5 raid5type b =
        some ((bmap b).1, pmap (b / r.blocksInStripe), (bmap b).2)) ∧
      (∀ s, r.pmap5 raid5type s = some (pmap s)) ∧
      Exact r r.blocksInStripe bmap (fun p => p.1 = pmap (p.2 / r.chunkSize)) ∧
      ∀ b, (bmap b).1 ≠ pmap (b / r.blocksInStripe)

variable {r : Raid}

/-- In each row the columns are numbered by `disk`, with inverse `col`, and what
is left over is `taken`. -/
structure Numbering (r : Raid) (n : ℕ) (disk col : ℕ → ℕ → ℕ) (taken : ℕ → ℕ → Prop) : Prop where
  disk_lt : ∀ s c, c < n → disk s c < r.numDisks
  col_disk : ∀ s c, c < n → col s (disk s c) = c
  free : ∀ s c, c < n → ¬ taken s (disk s c)
  col_lt : ∀ s d, d < r.numDisks → ¬ taken s d → col s d < n
  disk_col : ∀ s d, d < r.numDisks → ¬ taken s d → disk s (col s d) = d

variable {n : ℕ} {disk col : ℕ → ℕ → ℕ} {taken : ℕ → ℕ → Prop} {bmap : ℕ → ℕ × ℕ}

theorem column_lt (chunk : ℕ) (hn : 1 ≤ n) (b : ℕ) : column n chunk b < n := Nat.mod_lt _ hn

/-- The rule for all levels. -/
theorem Numbering.exact (h : Numbering r n disk col taken) (hn : 1 ≤ n)
    (hbmap : ∀ b, bmap b =
      (disk (row n r.chunkSize b) (column n r.chunkSize b), offset n r.chunkSize b)) :
    Exact r (n * r.chunkSize) bmap fun p => taken (p.2 / r.chunkSize) p.1 := by
  have hstripe : ∀ b, (bmap b).2 / r.chunkSize = row n r.chunkSize b := by
    intro b
    rw [hbmap]
    exact offset_div r.chunk_pos
  refine ⟨?_, ?_, ?_, ?_⟩
  · intro b b' heq
    rw [hbmap, hbmap] at heq
    obtain ⟨hdisk, hoff⟩ := Prod.mk.inj heq
    have hrow : row n r.chunkSize b = row n r.chunkSize b' := by
      rw [← offset_div r.chunk_pos, hoff, offset_div r.chunk_pos]
    have hcol : column n r.chunkSize b = column n r.chunkSize b' := by
      rw [← h.col_disk (row n r.chunkSize b) _ (column_lt _ hn b), hdisk, hrow,
        h.col_disk _ _ (column_lt _ hn b')]
    rw [← blockAt_column_offset (n := n) (b := b) r.chunk_pos, hcol, hoff,
      blockAt_column_offset r.chunk_pos]
  · intro b
    rw [hbmap]
    exact h.disk_lt _ _ (column_lt _ hn b)
  · intro b
    rw [hstripe, row_eq_div]
  · rintro ⟨d, off⟩ hd
    by_cases htaken : taken (off / r.chunkSize) d
    · refine Or.inr ⟨htaken, ?_⟩
      rintro ⟨b, hb⟩
      have hs := hstripe b
      rw [hb] at hs
      rw [hbmap] at hb
      obtain ⟨rfl, rfl⟩ := Prod.mk.inj hb
      rw [hs] at htaken
      exact h.free _ _ (column_lt _ hn b) htaken
    · refine Or.inl ⟨⟨blockAt n r.chunkSize (col (off / r.chunkSize) d) off, ?_⟩, htaken⟩
      have hcol := h.col_lt (off / r.chunkSize) d hd htaken
      have hoff := offset_blockAt r.chunk_pos hcol off
      rw [hbmap, hoff, column_blockAt r.chunk_pos hcol, ← offset_div (n := n) r.chunk_pos, hoff,
        h.disk_col _ _ hd htaken]

/-! ## The levels -/

theorem raid0_exact (hn : 1 ≤ r.numDisks) :
    Exact r (r.numDisks * r.chunkSize) r.bmap0 fun _ => False := by
  have h : Numbering r r.numDisks (fun _ c => c) (fun _ d => d) fun _ _ => False :=
    ⟨fun _ _ hc => hc, fun _ _ _ => rfl, fun _ _ _ => id, fun _ _ hd _ => hd, fun _ _ _ _ => rfl⟩
  exact h.exact hn fun b => rfl

theorem raid1_numbering (heven : r.numDisks % 2 = 0) :
    Numbering r (r.numDisks / 2) (fun _ c => 2 * c) (fun _ d => d / 2) fun _ d => d % 2 = 1 := by
  refine ⟨?_, ?_, ?_, ?_, ?_⟩ <;> intros <;> omega

theorem raid1_mirror (heven : r.numDisks % 2 = 0) :
    Numbering r (r.numDisks / 2) (fun _ c => 2 * c + 1) (fun _ d => d / 2)
      fun _ d => d % 2 = 0 := by
  refine ⟨?_, ?_, ?_, ?_, ?_⟩ <;> intros <;> omega

theorem raid1_exact (hn : 2 ≤ r.numDisks) (heven : r.numDisks % 2 = 0) :
    Exact r (r.numDisks / 2 * r.chunkSize) (fun b => ((r.bmap1 b).1, (r.bmap1 b).2.2))
        (fun p => ∃ b, (r.bmap1 b).2 = p) ∧
      Function.Injective (fun b => (r.bmap1 b).2) ∧ ∀ b, (r.bmap1 b).2.1 < r.numDisks := by
  have hhalf : 1 ≤ r.numDisks / 2 := by omega
  have hdata : Exact r (r.numDisks / 2 * r.chunkSize)
      (fun b => ((r.bmap1 b).1, (r.bmap1 b).2.2)) fun p => p.1 % 2 = 1 :=
    (raid1_numbering heven).exact hhalf fun b => rfl
  have hmirror : Exact r (r.numDisks / 2 * r.chunkSize) (fun b => (r.bmap1 b).2)
      fun p => p.1 % 2 = 0 :=
    (raid1_mirror heven).exact hhalf fun b => rfl
  refine ⟨⟨hdata.injective, hdata.disk_lt, hdata.stripe, ?_⟩, hmirror.injective, hmirror.disk_lt⟩
  -- the mirror copies are the blocks of the odd disks
  intro p hp
  have hodd : (∃ b, (r.bmap1 b).2 = p) ↔ p.1 % 2 = 1 := by
    obtain ⟨hm, hnot⟩ | ⟨heven', hm⟩ := hmirror.covered p hp
    · exact ⟨fun _ => by omega, fun _ => hm⟩
    · exact ⟨fun hm' => absurd hm' hm, fun hodd => by omega⟩
  rw [hodd]
  exact hdata.covered p hp

theorem raid4_exact (hn : 2 ≤ r.numDisks) :
    Exact r r.blocksInStripe r.bmap4 fun p => p.1 = r.pmap4 (p.2 / r.chunkSize) := by
  have h : Numbering r (r.numDisks - 1) (fun _ c => c) (fun _ d => d)
      fun s d => d = r.pmap4 s := by
    unfold Raid.pmap4
    refine ⟨?_, ?_, ?_, ?_, ?_⟩ <;> intros <;> omega
  exact h.exact (by omega) fun b => rfl

/-! ## Rotated parity -/

def parityDisk (r : Raid) (s : ℕ) : ℕ := r.numDisks - 1 - s % r.numDisks

/-- The disk of a column in a row. -/
def dataDisk (r : Raid) (raid5type : Raid5Type) (s c : ℕ) : ℕ :=
  match raid5type with
  | .leftAsymmetric => if c ≥ parityDisk r s then c + 1 else c
  | .leftSymmetric => (((c : ℤ) - (s % r.numDisks : ℕ)) % r.numDisks).toNat

def dataColumn (r : Raid) (raid5type : Raid5Type) (s d : ℕ) : ℕ :=
  match raid5type with
  | .leftAsymmetric => if d > parityDisk r s then d - 1 else d
  | .leftSymmetric => (d + s % r.numDisks) % r.numDisks

theorem leftAsymmetric_numbering (hn : 2 ≤ r.numDisks) :
    Numbering r (r.numDisks - 1) (dataDisk r .leftAsymmetric) (dataColumn r .leftAsymmetric)
      fun s d => d = parityDisk r s := by
  have hp : ∀ s, parityDisk r s < r.numDisks := by
    intro s
    unfold parityDisk
    omega
  refine ⟨?_, ?_, ?_, ?_, ?_⟩ <;> intro s x hx <;> have := hp s <;>
    simp only [dataDisk, dataColumn]
  · split <;> omega
  · split <;> split <;> omega
  · split <;> omega
  · intro hne
    split <;> omega
  · intro hne
    split <;> split <;> omega

/-- Without the modulus: a disk left of the shift wraps around. -/
theorem leftSymmetric_disk {N k c : ℕ} (hk : k < N) (hc : c < N) :
    (((c : ℤ) - k) % N).toNat = if k ≤ c then c - k else c + N - k := by
  split
  · rw [Int.emod_eq_of_lt (by omega) (by omega)]
    omega
  · rw [← Int.add_emod_right, Int.emod_eq_of_lt (by omega) (by omega)]
    omega

theorem leftSymmetric_column {N k d : ℕ} (hk : k < N) (hd : d < N) :
    (d + k) % N = if d + k < N then d + k else d + k - N := by
  split
  · exact Nat.mod_eq_of_lt ‹_›
  · rw [Nat.mod_eq_sub_mod (by omega), Nat.mod_eq_of_lt (by omega)]

theorem leftSymmetric_numbering (hn : 2 ≤ r.numDisks) :
    Numbering r (r.numDisks - 1) (dataDisk r .leftSymmetric) (dataColumn r .leftSymmetric)
      fun s d => d = parityDisk r s := by
  have hmod : ∀ s, s % r.numDisks < r.numDisks := fun s => Nat.mod_lt s (by omega)
  refine ⟨?_, ?_, ?_, ?_, ?_⟩ <;> intro s x hx <;> have hk := hmod s <;>
    simp only [dataDisk, dataColumn, parityDisk]
  · rw [leftSymmetric_disk hk (by omega)]
    split <;> omega
  · rw [leftSymmetric_disk hk (by omega), leftSymmetric_column hk (by split <;> omega)]
    split <;> split <;> omega
  · rw [leftSymmetric_disk hk (by omega)]
    split <;> omega
  · intro hne
    rw [leftSymmetric_column hk hx]
    split <;> omega
  · intro hne
    rw [leftSymmetric_column hk hx, leftSymmetric_disk hk (by split <;> omega)]
    split <;> split <;> omega

theorem raid5_numbering (hn : 2 ≤ r.numDisks) (raid5type : Raid5Type) :
    Numbering r (r.numDisks - 1) (dataDisk r raid5type) (dataColumn r raid5type)
      fun s d => d = parityDisk r s := by
  cases raid5type with
  | leftSymmetric => exact leftSymmetric_numbering hn
  | leftAsymmetric => exact leftAsymmetric_numbering hn

/-- The assertion holds. -/
theorem mapBlock5_eq (hn : 2 ≤ r.numDisks) (raid5type : Raid5Type) (b : ℕ) :
    r.mapBlock5 raid5type b =
      some (dataDisk r raid5type (row (r.numDisks - 1) r.chunkSize b)
          (column (r.numDisks - 1) r.chunkSize b),
        parityDisk r (b / r.blocksInStripe), offset (r.numDisks - 1) r.chunkSize b) := by
  have hfree := (raid5_numbering hn raid5type).free (row (r.numDisks - 1) r.chunkSize b) _
    (column_lt r.chunkSize (by omega) b)
  have hrow : b / r.blocksInStripe = row (r.numDisks - 1) r.chunkSize b :=
    (row_eq_div _ _ _).symm
  rw [hrow]
  cases raid5type with
  | leftSymmetric => exact if_pos hfree
  | leftAsymmetric => exact if_pos hfree

theorem raid5_exact (hn : 2 ≤ r.numDisks) (raid5type : Raid5Type) :
    ∃ (bmap : ℕ → ℕ × ℕ) (pmap : ℕ → ℕ),
      (∀ b, r.mapBlock5 raid5type b =
        some ((bmap b).1, pmap (b / r.blocksInStripe), (bmap b).2)) ∧
      (∀ s, r.pmap5 raid5type s = some (pmap s)) ∧
      Exact r r.blocksInStripe bmap (fun p => p.1 = pmap (p.2 / r.chunkSize)) ∧
      ∀ b, (bmap b).1 ≠ pmap (b / r.blocksInStripe) := by
  have hpos : 0 < r.blocksInStripe := Nat.mul_pos (by omega) r.chunk_pos
  refine ⟨fun b => (dataDisk r raid5type (row (r.numDisks - 1) r.chunkSize b)
      (column (r.numDisks - 1) r.chunkSize b), offset (r.numDisks - 1) r.chunkSize b),
    parityDisk r, mapBlock5_eq hn raid5type, ?_, ?_, ?_⟩
  · intro s
    unfold Raid.pmap5
    rw [mapBlock5_eq hn, Nat.mul_div_cancel s hpos]
    rfl
  · exact (raid5_numbering hn raid5type).exact (by omega) fun b => rfl
  · intro b
    rw [show b / r.blocksInStripe = row (r.numDisks - 1) r.chunkSize b from (row_eq_div _ _ _).symm]
    exact (raid5_numbering hn raid5type).free _ _ (column_lt _ (by omega) b)

theorem layout_exact (r : Raid) : r.LayoutExact := by
  have haccepts := r.accepts
  unfold Raid.LayoutExact
  cases hlevel : r.level with
  | raid0 =>
      rw [hlevel] at haccepts
      exact raid0_exact haccepts
  | raid1 =>
      rw [hlevel] at haccepts
      exact raid1_exact haccepts.1 haccepts.2
  | raid4 =>
      rw [hlevel] at haccepts
      refine ⟨raid4_exact haccepts, fun b => ?_⟩
      have hn : 2 ≤ r.numDisks := haccepts
      have hlt : column (r.numDisks - 1) r.chunkSize b < r.numDisks - 1 := column_lt _ (by omega) b
      exact Nat.ne_of_lt hlt
  | raid5 raid5type =>
      rw [hlevel] at haccepts
      exact raid5_exact haccepts raid5type

/-- Two stripes of four disks. -/
example : (List.range 6).map (Raid.bmap5 ⟨1, 4, .raid5 .leftSymmetric, Nat.le_refl 1,
    Nat.le_add_left 2 2⟩ .leftSymmetric) =
    [some (0, 0), some (1, 0), some (2, 0), some (3, 1), some (0, 1), some (1, 1)] := by
  decide

end OsLabs.FileRaid
