import Mathlib

/-!
# Words in a memory of bytes

A word is four bytes, the low one first.
-/

namespace OsLabs.ByteMemory

abbrev Memory := ℕ → UInt8

def word (m : Memory) (p : ℕ) : ℕ :=
  (m p).toNat + 2 ^ 8 * (m (p + 1)).toNat + 2 ^ 16 * (m (p + 2)).toNat +
    2 ^ 24 * (m (p + 3)).toNat

/-- The low 32 bits of `v`. -/
def setWord (m : Memory) (p v : ℕ) : Memory := fun a =>
  if p ≤ a ∧ a < p + 4 then UInt8.ofNat (v / 256 ^ (a - p)) else m a

def copy (m : Memory) (dst src n : ℕ) : Memory := fun a =>
  if dst ≤ a ∧ a < dst + n then m (src + (a - dst)) else m a

/-- The memories differ in `[lo, hi)` at most. -/
def SameOutside (lo hi : ℕ) (m m' : Memory) : Prop := ∀ a, a < lo ∨ hi ≤ a → m' a = m a

variable {m m' m'' : Memory} {p q v w a lo hi lo' hi' dst src n : ℕ}

theorem word_lt (m : Memory) (p : ℕ) : word m p < 2 ^ 32 := by
  have h0 := (m p).toNat_lt
  have h1 := (m (p + 1)).toNat_lt
  have h2 := (m (p + 2)).toNat_lt
  have h3 := (m (p + 3)).toNat_lt
  rw [word]
  omega

theorem word_congr (h : ∀ a, p ≤ a → a < p + 4 → m' a = m a) : word m' p = word m p := by
  rw [word, word, h p le_rfl (by omega), h (p + 1) (by omega) (by omega),
    h (p + 2) (by omega) (by omega), h (p + 3) (by omega) (by omega)]

theorem setWord_of_outside (h : a < p ∨ p + 4 ≤ a) : setWord m p v a = m a :=
  if_neg (by omega)

theorem word_setWord (m : Memory) (p v : ℕ) : word (setWord m p v) p = v % 2 ^ 32 := by
  have hbyte (i : ℕ) (hi : i < 4) : (setWord m p v (p + i)).toNat = v / 256 ^ i % 2 ^ 8 := by
    rw [setWord, if_pos (by omega), Nat.add_sub_cancel_left, UInt8.toNat_ofNat']
  have h0 := hbyte 0 (by omega)
  have h1 := hbyte 1 (by omega)
  have h2 := hbyte 2 (by omega)
  have h3 := hbyte 3 (by omega)
  rw [Nat.add_zero] at h0
  rw [word, h0, h1, h2, h3]
  omega

theorem word_setWord_of_disjoint (h : q + 4 ≤ p ∨ p + 4 ≤ q) :
    word (setWord m p v) q = word m q :=
  word_congr fun _ _ _ => setWord_of_outside (by omega)

theorem setWord_comm (h : q + 4 ≤ p ∨ p + 4 ≤ q) :
    setWord (setWord m p v) q w = setWord (setWord m q w) p v := by
  funext a
  simp only [setWord]
  split_ifs <;> first | rfl | omega

theorem sameOutside_refl (lo hi : ℕ) (m : Memory) : SameOutside lo hi m m := fun _ _ => rfl

theorem SameOutside.trans (h : SameOutside lo hi m m') (h' : SameOutside lo hi m' m'') :
    SameOutside lo hi m m'' := fun a ha => (h' a ha).trans (h a ha)

theorem SameOutside.mono (h : SameOutside lo hi m m') (hlo : lo' ≤ lo) (hhi : hi ≤ hi') :
    SameOutside lo' hi' m m' := fun a ha => h a (by omega)

theorem SameOutside.word_eq (h : SameOutside lo hi m m') (hp : p + 4 ≤ lo ∨ hi ≤ p) :
    word m' p = word m p :=
  word_congr fun a _ _ => h a (by omega)

theorem sameOutside_setWord (m : Memory) (p v : ℕ) : SameOutside p (p + 4) m (setWord m p v) :=
  fun _ ha => setWord_of_outside ha

theorem copy_of_inside (h : dst ≤ a) (hn : a < dst + n) :
    copy m dst src n a = m (src + (a - dst)) :=
  if_pos ⟨h, hn⟩

theorem sameOutside_copy (m : Memory) (dst src n : ℕ) :
    SameOutside dst (dst + n) m (copy m dst src n) :=
  fun a ha => if_neg (by omega)

end OsLabs.ByteMemory
