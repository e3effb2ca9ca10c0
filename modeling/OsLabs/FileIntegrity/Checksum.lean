import Mathlib

/-!
# The checksums of `checksum.py`

The loop that computes an additive, an exclusive-or and a Fletcher checksum of a
list of bytes.
-/

namespace OsLabs.FileIntegrity

structure Sums where
  add : ℕ
  xor : ℕ
  fletcher_a : ℕ
  fletcher_b : ℕ
deriving DecidableEq, Repr

/-- The body of the loop. -/
def Sums.update (s : Sums) (value : ℕ) : Sums :=
  let fletcher_a := (s.fletcher_a + value) % 255
  { add := (s.add + value) % 256
    xor := s.xor ^^^ value
    fletcher_a
    fletcher_b := (s.fletcher_b + fletcher_a) % 255 }

def checksum (values : List ℕ) : Sums := values.foldl Sums.update ⟨0, 0, 0, 0⟩

def fletcher (values : List ℕ) : ℕ × ℕ :=
  ((checksum values).fletcher_a, (checksum values).fletcher_b)

/-! ## The closed form -/

/-- A value counts once for itself and once for each value behind it. -/
def weightedSum : List ℕ → ℕ
  | [] => 0
  | value :: values => (values.length + 1) * value + weightedSum values

variable {values left right : List ℕ} {x y : ℕ} {s : Sums}

theorem weightedSum_eq (values : List ℕ) :
    weightedSum values =
      ∑ i ∈ Finset.range values.length, (values.length - i) * values.getD i 0 := by
  induction values with
  | nil => rfl
  | cons value values ih =>
      rw [weightedSum, ih, List.length_cons, Finset.sum_range_succ', add_comm]
      congr 1
      apply Finset.sum_congr rfl
      intro i _
      rw [Nat.add_sub_add_right, List.getD_cons_succ]

theorem weightedSum_append (left right : List ℕ) :
    weightedSum (left ++ right) =
      weightedSum left + right.length * left.sum + weightedSum right := by
  induction left with
  | nil => simp [weightedSum]
  | cons value left ih =>
      simp only [List.cons_append, weightedSum, ih, List.length_append, List.sum_cons]
      ring

theorem foldl_update_a (values : List ℕ) (s : Sums) :
    (values.foldl Sums.update s).fletcher_a ≡ s.fletcher_a + values.sum [MOD 255] := by
  induction values generalizing s with
  | nil => rfl
  | cons value values ih =>
      have hstep : (s.update value).fletcher_a ≡ s.fletcher_a + value [MOD 255] :=
        Nat.mod_modEq _ _
      calc (values.foldl Sums.update (s.update value)).fletcher_a
          ≡ (s.update value).fletcher_a + values.sum [MOD 255] := ih _
        _ ≡ s.fletcher_a + value + values.sum [MOD 255] := hstep.add_right _
        _ = s.fletcher_a + (value :: values).sum := by rw [List.sum_cons, add_assoc]

theorem foldl_update_b (values : List ℕ) (s : Sums) :
    (values.foldl Sums.update s).fletcher_b ≡
      s.fletcher_b + values.length * s.fletcher_a + weightedSum values [MOD 255] := by
  induction values generalizing s with
  | nil => simp [weightedSum, Nat.ModEq.refl]
  | cons value values ih =>
      have ha : (s.update value).fletcher_a ≡ s.fletcher_a + value [MOD 255] :=
        Nat.mod_modEq _ _
      have hb : (s.update value).fletcher_b ≡
          s.fletcher_b + (s.fletcher_a + value) [MOD 255] :=
        (Nat.mod_modEq _ _).trans (ha.add_left _)
      calc (values.foldl Sums.update (s.update value)).fletcher_b
          ≡ (s.update value).fletcher_b + values.length * (s.update value).fletcher_a +
              weightedSum values [MOD 255] := ih _
        _ ≡ s.fletcher_b + (s.fletcher_a + value) +
              values.length * (s.fletcher_a + value) + weightedSum values [MOD 255] :=
            (hb.add (ha.mul_left _)).add_right _
        _ = s.fletcher_b + (value :: values).length * s.fletcher_a +
              weightedSum (value :: values) := by
            rw [weightedSum, List.length_cons]
            ring

/-- Both sums are reduced modulo 255 at every step. -/
theorem checksum_lt (values : List ℕ) :
    (checksum values).fletcher_a < 255 ∧ (checksum values).fletcher_b < 255 := by
  induction values using List.reverseRecOn with
  | nil => exact ⟨by decide, by decide⟩
  | append_singleton values value _ =>
      rw [checksum, List.foldl_append, List.foldl_cons, List.foldl_nil]
      exact ⟨Nat.mod_lt _ (by decide), Nat.mod_lt _ (by decide)⟩

theorem fletcher_eq (values : List ℕ) :
    fletcher values = (values.sum % 255, weightedSum values % 255) := by
  have ha : (checksum values).fletcher_a ≡ values.sum [MOD 255] := by
    simpa [checksum] using foldl_update_a values ⟨0, 0, 0, 0⟩
  have hb : (checksum values).fletcher_b ≡ weightedSum values [MOD 255] := by
    simpa [checksum] using foldl_update_b values ⟨0, 0, 0, 0⟩
  obtain ⟨halt, hblt⟩ := checksum_lt values
  apply Prod.ext
  · exact (Nat.mod_eq_of_lt halt).symm.trans ha
  · exact (Nat.mod_eq_of_lt hblt).symm.trans hb

/-! ## Detection -/

theorem modEq_of_fletcher_eq (h : fletcher left = fletcher right) :
    left.sum ≡ right.sum [MOD 255] ∧ weightedSum left ≡ weightedSum right [MOD 255] := by
  rw [fletcher_eq, fletcher_eq] at h
  exact ⟨congrArg Prod.fst h, congrArg Prod.snd h⟩

theorem fletcher_replace (h : ¬ x ≡ y [MOD 255]) (left right : List ℕ) :
    fletcher (left ++ x :: right) ≠ fletcher (left ++ y :: right) := by
  intro heq
  have hsum := (modEq_of_fletcher_eq heq).1
  simp only [List.sum_append, List.sum_cons] at hsum
  exact h (Nat.ModEq.add_right_cancel' _ (Nat.ModEq.add_left_cancel' _ hsum))

theorem fletcher_swap (h : ¬ x ≡ y [MOD 255]) (left right : List ℕ) :
    fletcher (left ++ x :: y :: right) ≠ fletcher (left ++ y :: x :: right) := by
  intro heq
  have hsum := (modEq_of_fletcher_eq heq).2
  -- both lists contain `x + y` as often as the second place counts; the first counts once more
  have hrest (a b : ℕ) : weightedSum (left ++ a :: b :: right) =
      weightedSum left + (right.length + 2) * left.sum + (right.length + 1) * (a + b) +
        weightedSum right + a := by
    simp only [weightedSum_append, weightedSum, List.length_cons]
    ring
  rw [hrest x y, hrest y x, add_comm y x] at hsum
  exact h (Nat.ModEq.add_left_cancel' _ hsum)

/-- The pair is the sum of the values and their sum weighted by position, so it tells apart any
two lists that differ in one value, or in the order of two adjacent ones. -/
theorem fletcher_detects (values : List ℕ) :
    fletcher values =
      (values.sum % 255,
        (∑ i ∈ Finset.range values.length, (values.length - i) * values.getD i 0) % 255) ∧
    (∀ left x right, values = left ++ x :: right → ∀ y, x % 255 ≠ y % 255 →
      fletcher (left ++ y :: right) ≠ fletcher values) ∧
    ∀ left x y right, values = left ++ x :: y :: right → x % 255 ≠ y % 255 →
      fletcher (left ++ y :: x :: right) ≠ fletcher values := by
  refine ⟨?_, ?_, ?_⟩
  · rw [fletcher_eq, weightedSum_eq]
  · rintro left x right rfl y hne
    exact (fletcher_replace hne left right).symm
  · rintro left x y right rfl hne
    exact (fletcher_swap hne left right).symm

end OsLabs.FileIntegrity
