import Mathlib

/-!
# Lines of a sequence

The part of a sequence up to and with its first separator.
-/

namespace OsLabs.Lines

variable {α : Type*} [DecidableEq α] {sep : α}

def upTo (sep : α) : List α → List α
  | [] => []
  | a :: s => if a = sep then [a] else a :: upTo sep s

@[simp] theorem upTo_nil : upTo sep [] = [] := rfl

theorem upTo_cons_self (s : List α) : upTo sep (sep :: s) = [sep] := if_pos rfl

theorem upTo_cons_of_ne {a : α} (h : a ≠ sep) (s : List α) :
    upTo sep (a :: s) = a :: upTo sep s := if_neg h

theorem upTo_isPrefix (s : List α) : upTo sep s <+: s := by
  induction s with
  | nil => exact List.prefix_rfl
  | cons a s ih =>
      unfold upTo
      split
      · exact ⟨s, rfl⟩
      · exact List.cons_prefix_cons.mpr ⟨rfl, ih⟩

theorem upTo_of_not_mem {s : List α} (h : sep ∉ s) : upTo sep s = s := by
  induction s with
  | nil => rfl
  | cons a s ih =>
      rw [List.mem_cons, not_or] at h
      rw [upTo_cons_of_ne (Ne.symm h.1), ih h.2]

theorem upTo_line {l : List α} (h : sep ∉ l) (s : List α) :
    upTo sep (l ++ sep :: s) = l ++ [sep] := by
  induction l with
  | nil => exact upTo_cons_self s
  | cons a l ih =>
      rw [List.mem_cons, not_or] at h
      rw [List.cons_append, upTo_cons_of_ne (Ne.symm h.1), ih h.2, List.cons_append]

/-- The sequence has no separator, or the part is a line of it. -/
theorem upTo_cases (sep : α) (s : List α) : (sep ∉ s ∧ upTo sep s = s) ∨
    ∃ l t, sep ∉ l ∧ s = l ++ sep :: t ∧ upTo sep s = l ++ [sep] := by
  by_cases h : sep ∈ s
  · obtain ⟨l, t, rfl, hl⟩ := List.eq_append_cons_of_mem h
    exact Or.inr ⟨l, t, hl, rfl, upTo_line hl t⟩
  · exact Or.inl ⟨h, upTo_of_not_mem h⟩

theorem upTo_length_le {s : List α} {n : ℕ} :
    (upTo sep s).length ≤ n ↔ s.length ≤ n ∨ sep ∈ s.take n := by
  obtain ⟨hnone, heq⟩ | ⟨l, t, hl, rfl, heq⟩ := upTo_cases sep s
  · rw [heq]
    exact (or_iff_left fun hmem => hnone (List.mem_of_mem_take hmem)).symm
  · rw [heq, List.length_append, List.length_append, List.length_singleton, List.length_cons]
    refine ⟨fun hle => Or.inr ?_, fun h => ?_⟩
    · obtain ⟨k, rfl⟩ := Nat.exists_eq_add_of_le hle
      rw [show l.length + 1 + k = l.length + (k + 1) by omega, List.take_length_add_append,
        List.take_succ_cons]
      exact List.mem_append_right _ List.mem_cons_self
    · obtain hle | hmem := h
      · omega
      · by_contra hlt
        rw [List.take_append_of_le_length (by omega)] at hmem
        exact hl (List.mem_of_mem_take hmem)

end OsLabs.Lines
