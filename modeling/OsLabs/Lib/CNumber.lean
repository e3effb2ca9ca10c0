import Mathlib

/-!
# C numbers

An `int` of 32 bits, and what `strtoll` in base 10 and `atoi` read from a string, for a `long`
and a `long long` of 64 bits.
-/

namespace OsLabs.CNumber

def INT_MAX : ℤ := 2147483647

/-- What arithmetic leaves in an `int`. An overflow is undefined in C; here it wraps. -/
def int32 (x : ℤ) : ℤ := x.bmod (2 ^ 32)

theorem int32_eq {x : ℤ} (hlower : -2 ^ 31 ≤ x) (hle : x ≤ INT_MAX) : int32 x = x := by
  unfold INT_MAX at hle
  exact Int.bmod_eq_of_le (by omega) (by omega)

def isspace (c : Char) : Bool :=
  c = ' ' || (9 ≤ c.toNat && c.toNat ≤ 13)

def digitsValue (digits : List Char) : ℕ :=
  digits.foldl (fun n c => 10 * n + (c.toNat - '0'.toNat)) 0

/-- The value stops at the bounds of the type. -/
def clamp (value : ℤ) : ℤ := max (-2 ^ 63) (min (2 ^ 63 - 1) value)

/-- The number at the start of a text and the text from `endptr` on. A text without a number
reads as zero, and `endptr` is its start. -/
def strtoll (text : List Char) : ℤ × List Char :=
  let number (negative : Bool) (rest : List Char) : ℤ × List Char :=
    let digits := rest.takeWhile Char.isDigit
    if digits = [] then (0, text)
    else (clamp (if negative then -digitsValue digits else digitsValue digits),
      rest.dropWhile Char.isDigit)
  match text.dropWhile isspace with
  | '-' :: rest => number true rest
  | '+' :: rest => number false rest
  | rest => number false rest

/-- The `long` becomes an `int`. -/
def atoi (text : List Char) : ℤ := int32 (strtoll text).1

variable {text : List Char}

theorem atoi_mem : -2 ^ 31 ≤ atoi text ∧ atoi text < 2 ^ 31 := by
  have hlower := Int.le_bmod (x := (strtoll text).1) (m := 2 ^ 32) (by decide)
  have hupper := Int.bmod_lt (x := (strtoll text).1) (m := 2 ^ 32) (by decide)
  rw [atoi, int32]
  norm_num at hlower hupper ⊢
  exact ⟨hlower, hupper⟩

end OsLabs.CNumber
