import Mathlib

/-!
# The puzzles of `bits.c`

`isLessOrEqual` and `howManyBits` over 32-bit words, with the arithmetic right
shift and additions that wrap.
-/

namespace OsLabs.Datalab

abbrev Word := BitVec 32

/-- The operator `!` of C. -/
def bang (x : Word) : Word := if x = 0 then 1 else 0

def isLessOrEqual (x y : Word) : Word :=
  bang ((y + (~~~x + 1)).sshiftRight 31 &&& 0x01)

/-- One step of the search: `cond = !!(y >> 2^k); n += cond << k; y >>= cond << k`. The last step
has `k = 0` and leaves the shift out. -/
def narrow (k : ℕ) (n y : Word) : Word × Word :=
  let cond := bang (bang (y.sshiftRight (2 ^ k)))
  (n + cond <<< k, y.sshiftRight (cond <<< k).toNat)

def howManyBits (x : Word) : Word :=
  let y := x ^^^ x.sshiftRight 1
  let n := 0
  let (n, y) := narrow 4 n y
  let (n, y) := narrow 3 n y
  let (n, y) := narrow 2 n y
  let (n, y) := narrow 1 n y
  let (n, y) := narrow 0 n y
  let is_zero := bang y
  n + 2 + (~~~is_zero + 1)

variable {x y n : Word} {k v : ℕ}

theorem bang_zero : bang 0 = 1 := rfl

theorem bang_of_ne (h : x ≠ 0) : bang x = 0 := if_neg h

/-! ## The comparison -/

/-- The sign of a word fills it, and one bit of it is kept. -/
theorem sign_bit (x : Word) : x.sshiftRight 31 &&& 0x01 = if x.toInt < 0 then 1 else 0 := by
  have hsign : x.sshiftRight 31 = if x.toInt < 0 then BitVec.allOnes 32 else 0 := by
    apply BitVec.eq_of_getLsbD_eq
    intro i hi
    have hmsb : (x.sshiftRight 31).getLsbD i = x.msb := by
      rw [BitVec.getLsbD_sshiftRight, BitVec.msb_eq_getLsbD_last]
      obtain rfl | hpos := Nat.eq_zero_or_pos i
      · simp
      · rw [if_neg (by omega)]
        simp [hi]
    rw [hmsb, BitVec.msb_eq_toInt]
    split
    case isTrue h =>
      rw [BitVec.getLsbD_allOnes]
      simp [h, hi]
    case isFalse h => simp [h]
  rw [hsign]
  split <;> rfl

theorem isLessOrEqual_eq (x y : Word) :
    isLessOrEqual x y = if (y - x).toInt < 0 then 0 else 1 := by
  have hneg : ~~~x + 1 = -x := (BitVec.neg_eq_not_add x).symm
  rw [isLessOrEqual, hneg, ← BitVec.sub_eq_add_neg, sign_bit]
  split <;> rfl

theorem toInt_bounds (x : Word) : -2 ^ 31 ≤ x.toInt ∧ x.toInt < 2 ^ 31 := by
  have hle := BitVec.le_two_mul_toInt (x := x)
  have hlt := BitVec.two_mul_toInt_lt (x := x)
  omega

/-- A difference outside the range of a word is off by `2 ^ 32`. -/
theorem toInt_sub_cases (x y : Word) :
    ∃ k, (y - x).toInt = y.toInt - x.toInt + 2 ^ 32 * k := by
  refine ⟨-((y.toInt - x.toInt).bdiv (2 ^ 32)), ?_⟩
  have hdiv := Int.bdiv_add_bmod (y.toInt - x.toInt) (2 ^ 32)
  rw [BitVec.toInt_sub]
  omega

/-- The comparison is right when the difference of the two numbers is one of 32 bits, and
wrong otherwise: its sign is then the opposite one. -/
theorem isLessOrEqual_correct_iff (x y : Word) :
    isLessOrEqual x y = (if x.toInt ≤ y.toInt then 1 else 0) ↔
      -2 ^ 31 ≤ y.toInt - x.toInt ∧ y.toInt - x.toInt < 2 ^ 31 := by
  obtain ⟨hx, hx'⟩ := toInt_bounds x
  obtain ⟨hy, hy'⟩ := toInt_bounds y
  obtain ⟨hsub, hsub'⟩ := toInt_bounds (y - x)
  obtain ⟨k, hk⟩ := toInt_sub_cases x y
  have hne : ¬(0 : Word) = 1 := by decide
  have hne' : ¬(1 : Word) = 0 := by decide
  rw [isLessOrEqual_eq]
  split
  case isTrue hneg =>
    split
    case isTrue hle =>
      refine iff_of_false hne ?_
      omega
    case isFalse hlt =>
      refine iff_of_true rfl ?_
      omega
  case isFalse hnonneg =>
    split
    case isTrue hle =>
      refine iff_of_true rfl ?_
      omega
    case isFalse hlt =>
      refine iff_of_false hne' ?_
      omega

/-- The least word is below one. -/
theorem isLessOrEqual_wrong :
    isLessOrEqual (BitVec.ofInt 32 (-2 ^ 31)) 1 ≠
      if (BitVec.ofInt 32 (-2 ^ 31)).toInt ≤ (1 : Word).toInt then 1 else 0 := by
  decide

/-! ## The number of bits

The search keeps `y` as `v` without its lowest `n` bits, where `v` is the word
it starts from. -/

/-- The search is left with fewer than `2 ^ k` bits. -/
structure Narrowed (v k : ℕ) (n y : Word) : Prop where
  shifted : y.toNat = v / 2 ^ n.toNat
  small : y.toNat < 2 ^ 2 ^ k
  kept : v ≠ 0 → y.toNat ≠ 0
  none : v = 0 → n = 0
  room : n.toNat + 2 ^ k ≤ 32

theorem sshiftRight_toNat (hy : y.toNat < 2 ^ 31) (i : ℕ) :
    (y.sshiftRight i).toNat = y.toNat / 2 ^ i := by
  have hmsb : y.msb = false := by
    rw [BitVec.msb_eq_false_iff_two_mul_lt]
    omega
  rw [BitVec.sshiftRight_eq_of_msb_false hmsb, BitVec.toNat_ushiftRight,
    Nat.shiftRight_eq_div_pow]

theorem one_shiftLeft_toNat (hk : k ≤ 4) : ((1 : Word) <<< k).toNat = 2 ^ k := by
  have hlt : 2 ^ k < 2 ^ 32 := Nat.pow_lt_pow_right (by omega) (by omega)
  have hone : (1 : Word).toNat = 1 := rfl
  rw [BitVec.toNat_shiftLeft, hone, Nat.shiftLeft_eq, Nat.one_mul, Nat.mod_eq_of_lt hlt]

theorem narrow_cases (hk : k ≤ 4) (hy : y.toNat < 2 ^ 31) (n : Word) :
    (y.toNat < 2 ^ 2 ^ k ∧ narrow k n y = (n, y)) ∨
      (2 ^ 2 ^ k ≤ y.toNat ∧ (narrow k n y).1 = n + (1 : Word) <<< k ∧
        (narrow k n y).2.toNat = y.toNat / 2 ^ 2 ^ k) := by
  have hhigh : (y.sshiftRight (2 ^ k)).toNat = y.toNat / 2 ^ 2 ^ k := sshiftRight_toNat hy _
  obtain hlt | hle := Nat.lt_or_ge y.toNat (2 ^ 2 ^ k)
  · left
    have hzero : y.sshiftRight (2 ^ k) = 0 := by
      apply BitVec.eq_of_toNat_eq
      rw [hhigh, Nat.div_eq_of_lt hlt]
      rfl
    refine ⟨hlt, ?_⟩
    rw [narrow, hzero, bang_zero, bang_of_ne (by decide)]
    simp
  · right
    have hne : y.sshiftRight (2 ^ k) ≠ 0 := by
      intro hzero
      rw [hzero] at hhigh
      exact absurd hhigh.symm (Nat.div_pos hle (by positivity)).ne'
    have hnarrow : narrow k n y = (n + (1 : Word) <<< k, y.sshiftRight (2 ^ k)) := by
      rw [narrow, bang_of_ne hne, bang_zero, one_shiftLeft_toNat hk]
    rw [hnarrow]
    exact ⟨hle, rfl, hhigh⟩

theorem Narrowed.step (h : Narrowed v (k + 1) n y) (hk : k ≤ 4) (hy : y.toNat < 2 ^ 31) :
    Narrowed v k (narrow k n y).1 (narrow k n y).2 := by
  have hroom := h.room
  rw [Nat.pow_succ] at hroom
  obtain ⟨hlt, heq⟩ | ⟨hle, hn, hhigh⟩ := narrow_cases hk hy n
  · have hroom' : n.toNat + 2 ^ k ≤ 32 := by omega
    rw [heq]
    exact ⟨h.shifted, hlt, h.kept, h.none, hroom'⟩
  · have hsum : (narrow k n y).1.toNat = n.toNat + 2 ^ k := by
      rw [hn, BitVec.toNat_add, one_shiftLeft_toNat hk, Nat.mod_eq_of_lt]
      omega
    constructor
    · rw [hhigh, h.shifted, hsum, Nat.div_div_eq_div_mul, Nat.pow_add]
    · rw [hhigh, Nat.div_lt_iff_lt_mul (by positivity), ← Nat.pow_add, ← Nat.two_mul,
        ← Nat.pow_succ']
      exact h.small
    · intro _
      rw [hhigh]
      exact (Nat.div_pos hle (by positivity)).ne'
    · rintro rfl
      rw [h.shifted, Nat.zero_div] at hle
      exact absurd hle (Nat.not_le.mpr (by positivity))
    · rw [hsum]
      omega

theorem Narrowed.lt (h : Narrowed v k n y) (hv : v < 2 ^ 31) : y.toNat < 2 ^ 31 := by
  rw [h.shifted]
  exact lt_of_le_of_lt (Nat.div_le_self _ _) hv

/-- What is left is the highest bit of the word. -/
theorem Narrowed.size (h : Narrowed v 0 n y) (hv : v ≠ 0) : v.size = n.toNat + 1 := by
  have hsmall := h.small
  have hkept := h.kept hv
  have hone : v / 2 ^ n.toNat = 1 := by
    rw [← h.shifted]
    omega
  obtain ⟨hle, hlt⟩ := (Nat.div_eq_iff (by positivity)).mp hone
  apply le_antisymm
  · rw [Nat.size_le, Nat.pow_succ]
    omega
  · rw [Nat.succ_le_iff, Nat.lt_size]
    omega

theorem Narrowed.result (h : Narrowed v 0 n y) :
    (n + 2 + (~~~(bang y) + 1)).toInt = v.size + 1 := by
  have hsmall := h.small
  have hroom := h.room
  obtain rfl | hv := eq_or_ne v 0
  · have hy : y = 0 := by
      apply BitVec.eq_of_toNat_eq
      rw [h.shifted, Nat.zero_div]
      rfl
    rw [hy, h.none rfl]
    rfl
  · have hy : y ≠ 0 := by
      rintro rfl
      exact h.kept hv rfl
    have hneg : ~~~(0 : Word) + 1 = 0 := by decide
    have hsum : (n + 2).toNat = n.toNat + 2 := by
      have htwo : (2 : Word).toNat = 2 := rfl
      rw [BitVec.toNat_add, htwo]
      exact Nat.mod_eq_of_lt (by omega)
    have hzero : n + 2 + (0 : Word) = n + 2 := BitVec.add_zero _
    rw [bang_of_ne hy, hneg, hzero, BitVec.toInt_eq_toNat_of_lt (by omega), hsum, h.size hv]
    push_cast
    ring

/-! ## Folding the sign -/

/-- The number whose bits a two's complement number needs besides its sign. -/
def magnitude (x : Word) : ℕ := if x.msb then (~~~x).toNat else x.toNat

theorem magnitude_lt_iff (x : Word) (j : ℕ) :
    magnitude x < 2 ^ j ↔ -2 ^ j ≤ x.toInt ∧ x.toInt < 2 ^ j := by
  have hcast : ((2 ^ j : ℕ) : ℤ) = 2 ^ j := by push_cast; rfl
  have hlt := x.isLt
  rw [magnitude, BitVec.toInt_eq_msb_cond, BitVec.toNat_not, ← hcast]
  split <;> omega

/-- Two neighbouring bits differ for the last time at the highest bit. -/
theorem size_xor_half (m : ℕ) : (m ^^^ m >>> 1).size = m.size := by
  obtain rfl | hm := Nat.eq_zero_or_pos m
  · rfl
  obtain ⟨i, hi⟩ := Nat.exists_eq_succ_of_ne_zero (Nat.size_pos.mpr hm).ne'
  have hle : 2 ^ i ≤ m := Nat.lt_size.mp (by omega)
  have hlt : m < 2 ^ (i + 1) := Nat.size_le.mp (by omega)
  have hhalf : m >>> 1 < 2 ^ (i + 1) := by
    rw [Nat.shiftRight_eq_div_pow]
    exact lt_of_le_of_lt (Nat.div_le_self _ _) hlt
  have hbit : (m ^^^ m >>> 1).testBit i = true := by
    rw [Nat.testBit_xor, Nat.testBit_shiftRight, Nat.add_comm 1 i, Nat.testBit_lt_two_pow hlt,
      Nat.testBit_of_two_pow_le_and_two_pow_add_one_gt hle hlt]
    rfl
  have hsize : (m ^^^ m >>> 1).size ≤ i + 1 := Nat.size_le.mpr (Nat.xor_lt_two_pow hlt hhalf)
  have hlower := Nat.lt_size.mpr (Nat.ge_two_pow_of_testBit hbit)
  omega

theorem fold_toNat (x : Word) :
    (x ^^^ x.sshiftRight 1).toNat = magnitude x ^^^ magnitude x >>> 1 := by
  rw [magnitude]
  split
  case isTrue h =>
    have hfold : x ^^^ ~~~(~~~x >>> 1) = ~~~x ^^^ ~~~x >>> 1 := by
      rw [← BitVec.not_xor_right, BitVec.not_xor_left]
    rw [BitVec.sshiftRight_eq_of_msb_true h, hfold, BitVec.toNat_xor, BitVec.toNat_ushiftRight]
  case isFalse h =>
    rw [BitVec.sshiftRight_eq_of_msb_false (Bool.eq_false_of_not_eq_true h), BitVec.toNat_xor,
      BitVec.toNat_ushiftRight]

theorem magnitude_lt (x : Word) : magnitude x < 2 ^ 31 :=
  (magnitude_lt_iff x 31).mpr (toInt_bounds x)

theorem narrowed_start (y : Word) : Narrowed y.toNat 5 0 y where
  shifted := (Nat.div_one _).symm
  small := y.isLt
  kept := id
  none := fun _ => rfl
  room := by decide

theorem howManyBits_eq (x : Word) : (howManyBits x).toInt = (magnitude x).size + 1 := by
  have hlt : (x ^^^ x.sshiftRight 1).toNat < 2 ^ 31 := by
    rw [← Nat.size_le, fold_toNat, size_xor_half, Nat.size_le]
    exact magnitude_lt x
  rw [← size_xor_half, ← fold_toNat]
  have h₅ := narrowed_start (x ^^^ x.sshiftRight 1)
  have h₄ := h₅.step (by decide) (h₅.lt hlt)
  have h₃ := h₄.step (by decide) (h₄.lt hlt)
  have h₂ := h₃.step (by decide) (h₃.lt hlt)
  have h₁ := h₂.step (by decide) (h₂.lt hlt)
  exact (h₁.step (by decide) (h₁.lt hlt)).result

theorem howManyBits_correct (x : Word) :
    ∃ k : ℕ, (howManyBits x).toInt = k ∧
      IsLeast {k : ℕ | 1 ≤ k ∧ -2 ^ (k - 1) ≤ x.toInt ∧ x.toInt < 2 ^ (k - 1)} k := by
  refine ⟨(magnitude x).size + 1, by rw [howManyBits_eq]; push_cast; rfl, ?_, ?_⟩
  · refine ⟨Nat.le_add_left _ _, (magnitude_lt_iff x _).mp ?_⟩
    rw [Nat.add_sub_cancel]
    exact Nat.lt_size_self _
  · rintro k ⟨hpos, hbounds⟩
    have hsize := Nat.size_le.mpr ((magnitude_lt_iff x (k - 1)).mpr hbounds)
    omega

end OsLabs.Datalab
