import Mathlib

/-!
# Balanced brackets

The nesting depth of a text, and texts that close every bracket they open.
-/

namespace OsLabs.Brackets

variable {α : Type*} [DecidableEq α] {opening closing : α} {n : ℕ} {text text' : List α}

/-- The depth after a text that starts at depth `n`; `none` if it closes what is not open. -/
def depth (opening closing : α) : ℕ → List α → Option ℕ
  | n, [] => some n
  | n, c :: cs =>
      if c = opening then depth opening closing (n + 1) cs
      else if c = closing then
        match n with
        | 0 => none
        | n + 1 => depth opening closing n cs
      else depth opening closing n cs

def Balanced (opening closing : α) (text : List α) : Prop :=
  depth opening closing 0 text = some 0

theorem depth_other {c : α} (hopen : c ≠ opening) (hclose : c ≠ closing) (n : ℕ) (cs : List α) :
    depth opening closing n (c :: cs) = depth opening closing n cs :=
  (if_neg hopen).trans (if_neg hclose)

theorem depth_append (opening closing : α) (n : ℕ) (text text' : List α) :
    depth opening closing n (text ++ text') =
      (depth opening closing n text).bind fun m => depth opening closing m text' := by
  induction text generalizing n with
  | nil => rfl
  | cons c cs ih =>
      simp only [List.cons_append, depth]
      split
      · exact ih (n + 1)
      · split
        · cases n with
          | zero => rfl
          | succ n => exact ih n
        · exact ih n

theorem depth_of_notMem (hopen : opening ∉ text) (hclose : closing ∉ text) (n : ℕ) :
    depth opening closing n text = some n := by
  induction text with
  | nil => rfl
  | cons c cs ih =>
      rw [List.mem_cons, not_or] at hopen hclose
      rw [depth_other (Ne.symm hopen.1) (Ne.symm hclose.1)]
      exact ih hopen.2 hclose.2

end OsLabs.Brackets
