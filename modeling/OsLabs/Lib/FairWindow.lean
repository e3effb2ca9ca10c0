import Mathlib

/-!
# Bounded fairness by a window

Numbered items are chosen one after another in any order. Only those below a window may be chosen,
and the window moves on by its width once that many items have been chosen since it last did, so
that no item waits for those far behind it.
-/

namespace OsLabs.FairWindow

/-- The end of the window when `n` items have been chosen. -/
def window (w n : ℕ) : ℕ := w * (n / w + 1)

variable {w n m i j total : ℕ} {chosen : List ℕ}

@[simp] theorem window_zero : window w 0 = w := by simp [window]

theorem lt_window (hw : 0 < w) : n < window w n := Nat.lt_mul_div_succ n hw

/-- The window moves when the items chosen fill it. -/
theorem window_eq (n : ℕ) : window w n =
    if 0 < n ∧ n % w = 0 then window w (n - 1) + w else window w (n - 1) := by
  cases n with
  | zero => rfl
  | succ n =>
      rw [window, window, Nat.succ_div, Nat.add_sub_cancel]
      simp only [Nat.dvd_iff_mod_eq_zero, Nat.succ_pos, true_and]
      split
      · ring
      · rfl

/-- All items below a window are below the end of the window in which the last of them is chosen. -/
theorem window_le_of_lt (h : j < window w i) : window w j ≤ window w i := by
  have hdiv : j / w < i / w + 1 := Nat.div_lt_of_lt_mul h
  exact Nat.mul_le_mul_left w hdiv

/-- The items chosen so far, each of them once and from below the window. -/
structure Schedule (w : ℕ) (chosen : List ℕ) : Prop where
  nodup : chosen.Nodup
  within : ∀ j i, chosen[j]? = some i → i < window w j

theorem schedule_nil : Schedule w [] := ⟨List.nodup_nil, nofun⟩

theorem Schedule.concat (h : Schedule w chosen) (hi : i ∉ chosen)
    (hwithin : i < window w chosen.length) : Schedule w (chosen ++ [i]) where
  nodup := by
    rw [List.nodup_append]
    exact ⟨h.nodup, List.nodup_singleton i, by grind⟩
  within j k hk := by
    rcases lt_or_ge j chosen.length with hj | hj
    · rw [List.getElem?_append_left hj] at hk
      exact h.within j k hk
    · rw [List.getElem?_append_right hj, List.getElem?_singleton] at hk
      have hlast : j = chosen.length := by grind
      grind

/-- As long as fewer than `m` items are chosen, one below `m` is left. -/
theorem exists_open (h : chosen.length < m) : ∃ i < m, i ∉ chosen := by
  by_contra! hall
  have hsub : List.range m ⊆ chosen := fun i hi => hall i (List.mem_range.mp hi)
  have hle := (List.subperm_of_subset List.nodup_range hsub).length_le
  rw [List.length_range] at hle
  omega

theorem length_le (hnodup : chosen.Nodup) (hbelow : ∀ i ∈ chosen, i < m) : chosen.length ≤ m := by
  have hsub : chosen ⊆ List.range m := fun i hi => List.mem_range.mpr (hbelow i hi)
  have hle := (List.subperm_of_subset hnodup hsub).length_le
  rwa [List.length_range] at hle

/-- When `m` items below `m` are chosen, all of them are. -/
theorem perm_range (hnodup : chosen.Nodup) (hlength : chosen.length = m)
    (hbelow : ∀ i ∈ chosen, i < m) : chosen.Perm (List.range m) := by
  have hsub : chosen ⊆ List.range m := fun i hi => List.mem_range.mpr (hbelow i hi)
  refine (List.subperm_of_subset hnodup hsub).perm_of_length_le ?_
  rw [List.length_range, hlength]

/-- An item is chosen before the window moves past it. -/
theorem Schedule.mem_take (h : Schedule w chosen) (hw : 0 < w) (htotal : ∀ i ∈ chosen, i < total)
    (hi : i < total) (hlength : min (window w i) total ≤ chosen.length) :
    i ∈ chosen.take (window w i) := by
  have htake : (chosen.take (min (window w i) total)).length = min (window w i) total := by
    rw [List.length_take, min_eq_left hlength]
  have hbelow : ∀ k ∈ chosen.take (min (window w i) total), k < min (window w i) total := by
    intro k hk
    rcases List.mem_take_iff_getElem.mp hk with ⟨j, hj, rfl⟩
    have hopen := h.within j _ (List.getElem?_eq_getElem (by omega))
    have hle := window_le_of_lt (show j < window w i by omega)
    exact lt_min (hopen.trans_le hle) (htotal _ (List.getElem_mem _))
  have hperm := perm_range (h.nodup.sublist (List.take_sublist _ _)) htake hbelow
  have hmem := hperm.mem_iff.mpr (List.mem_range.mpr (lt_min (lt_window hw) hi))
  exact (List.take_subset_take_left chosen (min_le_left _ _)) hmem

end OsLabs.FairWindow
