import Mathlib

/-!
# The six loop orders of `mm.c`

Matrix multiplication over exact arithmetic. Each loop nest only adds to `C`,
and what it adds does not depend on `C`.
-/

namespace OsLabs.Matmult

open Matrix

variable {n : ℕ} {R : Type*} [NonUnitalNonAssocSemiring R]

structure Arrays (n : ℕ) (R : Type*) where
  A : Matrix (Fin n) (Fin n) R
  B : Matrix (Fin n) (Fin n) R
  C : Matrix (Fin n) (Fin n) R

/-- `C[i][j] += v` -/
def Arrays.add (s : Arrays n R) (i j : Fin n) (v : R) : Arrays n R :=
  { s with C := of fun i' j' => if i' = i ∧ j' = j then s.C i j + v else s.C i' j' }

/-- `for (i = 0; i < n; i++)` -/
def loop {σ : Type*} (body : Fin n → σ → σ) (s : σ) : σ :=
  (List.finRange n).foldl (fun s i => body i s) s

/-! ## The functions -/

def ijk (s : Arrays n R) : Arrays n R :=
  loop (fun i => loop fun j s =>
    let sum := loop (fun k sum => sum + s.A i k * s.B k j) 0
    s.add i j sum) s

def jik (s : Arrays n R) : Arrays n R :=
  loop (fun j => loop fun i s =>
    let sum := loop (fun k sum => sum + s.A i k * s.B k j) 0
    s.add i j sum) s

def ikj (s : Arrays n R) : Arrays n R :=
  loop (fun i => loop fun k s =>
    let r := s.A i k
    loop (fun j s => s.add i j (r * s.B k j)) s) s

def kij (s : Arrays n R) : Arrays n R :=
  loop (fun k => loop fun i s =>
    let r := s.A i k
    loop (fun j s => s.add i j (r * s.B k j)) s) s

def kji (s : Arrays n R) : Arrays n R :=
  loop (fun k => loop fun j s =>
    let r := s.B k j
    loop (fun i s => s.add i j (s.A i k * r)) s) s

def jki (s : Arrays n R) : Arrays n R :=
  loop (fun j => loop fun k s =>
    let r := s.B k j
    loop (fun i s => s.add i j (s.A i k * r)) s) s

/-! ## Loops that add -/

variable {A B C M : Matrix (Fin n) (Fin n) R}

/-- A piece of code that adds a matrix to `C` and keeps `A` and `B`. -/
def Adds (A B : Matrix (Fin n) (Fin n) R) (f : Arrays n R → Arrays n R)
    (M : Matrix (Fin n) (Fin n) R) : Prop :=
  ∀ C, f ⟨A, B, C⟩ = ⟨A, B, C + M⟩

theorem add_eq (i j : Fin n) (v : R) :
    Arrays.add ⟨A, B, C⟩ i j v = ⟨A, B, C + single i j v⟩ := by
  have hC : of (fun i' j' => if i' = i ∧ j' = j then C i j + v else C i' j') =
      C + single i j v := by
    ext i' j'
    rw [of_apply, Matrix.add_apply, single_apply]
    split
    case isTrue h =>
      obtain ⟨rfl, rfl⟩ := h
      rw [if_pos ⟨rfl, rfl⟩]
    case isFalse h =>
      rw [if_neg fun heq => h ⟨heq.1.symm, heq.2.symm⟩, add_zero]
  exact congrArg (Arrays.mk A B) hC

theorem adds_foldl {body : Fin n → Arrays n R → Arrays n R}
    {M : Fin n → Matrix (Fin n) (Fin n) R} (h : ∀ i, Adds A B (body i) (M i))
    (is : List (Fin n)) : Adds A B (fun s => is.foldl (fun s i => body i s) s) (is.map M).sum := by
  induction is with
  | nil =>
      intro C
      simp
  | cons i is ih =>
      intro C
      have hrest := ih (C + M i)
      rw [List.map_cons, List.sum_cons, ← add_assoc, ← hrest, ← h i C]
      rfl

theorem Adds.loop {body : Fin n → Arrays n R → Arrays n R}
    {M : Fin n → Matrix (Fin n) (Fin n) R} (h : ∀ i, Adds A B (body i) (M i)) :
    Adds A B (Matmult.loop body) (∑ i, M i) := by
  rw [Fin.sum_univ_def]
  exact adds_foldl h (List.finRange n)

/-- The innermost loop over a row of `C`, with the register `r`. -/
theorem adds_row (r : R) (i k : Fin n) :
    Adds A B (Matmult.loop fun j s => s.add i j (r * s.B k j)) (∑ j, single i j (r * B k j)) :=
  Adds.loop fun j _ => add_eq i j _

theorem adds_column (r : R) (k j : Fin n) :
    Adds A B (Matmult.loop fun i s => s.add i j (s.A i k * r)) (∑ i, single i j (A i k * r)) :=
  Adds.loop fun i _ => add_eq i j _

/-- The register of the first two functions. -/
theorem loop_sum (f : Fin n → R) : loop (fun k sum => sum + f k) 0 = ∑ k, f k := by
  rw [Fin.sum_univ_def, List.sum_eq_foldl, List.foldl_map]
  rfl

/-! ## The sums -/

theorem sum_register (A B : Matrix (Fin n) (Fin n) R) :
    ∑ i, ∑ j, single i j (loop (fun k sum => sum + A i k * B k j) 0) = A * B := by
  rw [matrix_eq_sum_single (A * B)]
  refine Finset.sum_congr rfl fun i _ => Finset.sum_congr rfl fun j _ => ?_
  rw [loop_sum]
  rfl

theorem sum_single (A B : Matrix (Fin n) (Fin n) R) :
    ∑ i, ∑ j, ∑ k, single i j (A i k * B k j) = A * B := by
  rw [← sum_register]
  refine Finset.sum_congr rfl fun i _ => Finset.sum_congr rfl fun j _ => ?_
  rw [loop_sum]
  exact (map_sum (singleAddMonoidHom i j) (fun k => A i k * B k j) _).symm

theorem adds_ijk (A B : Matrix (Fin n) (Fin n) R) : Adds A B ijk (A * B) := by
  rw [← sum_register]
  exact Adds.loop fun i => Adds.loop fun j C => add_eq i j _

theorem adds_jik (A B : Matrix (Fin n) (Fin n) R) : Adds A B jik (A * B) := by
  rw [← sum_register, Finset.sum_comm]
  exact Adds.loop fun j => Adds.loop fun i C => add_eq i j _

theorem sum_rows (A B : Matrix (Fin n) (Fin n) R) :
    ∑ i, ∑ k, ∑ j, single i j (A i k * B k j) = A * B := by
  rw [← sum_single]
  exact Finset.sum_congr rfl fun i _ => Finset.sum_comm

theorem adds_ikj (A B : Matrix (Fin n) (Fin n) R) : Adds A B ikj (A * B) := by
  rw [← sum_rows]
  exact Adds.loop fun i => Adds.loop fun k C => adds_row (A i k) i k C

theorem adds_kij (A B : Matrix (Fin n) (Fin n) R) : Adds A B kij (A * B) := by
  rw [← sum_rows, Finset.sum_comm]
  exact Adds.loop fun k => Adds.loop fun i C => adds_row (A i k) i k C

theorem sum_columns (A B : Matrix (Fin n) (Fin n) R) :
    ∑ j, ∑ k, ∑ i, single i j (A i k * B k j) = A * B :=
  calc
    ∑ j, ∑ k, ∑ i, single i j (A i k * B k j) = ∑ j, ∑ i, ∑ k, single i j (A i k * B k j) :=
      Finset.sum_congr rfl fun _ _ => Finset.sum_comm
    _ = ∑ i, ∑ j, ∑ k, single i j (A i k * B k j) := Finset.sum_comm
    _ = A * B := sum_single A B

theorem adds_kji (A B : Matrix (Fin n) (Fin n) R) : Adds A B kji (A * B) := by
  rw [← sum_columns, Finset.sum_comm]
  exact Adds.loop fun k => Adds.loop fun j C => adds_column (B k j) k j C

theorem adds_jki (A B : Matrix (Fin n) (Fin n) R) : Adds A B jki (A * B) := by
  rw [← sum_columns]
  exact Adds.loop fun j => Adds.loop fun k C => adds_column (B k j) k j C

/-- All six functions add the product to `C` and leave `A` and `B` alone. -/
theorem loop_orders_agree (A B C : Matrix (Fin n) (Fin n) R) :
    ijk ⟨A, B, C⟩ = ⟨A, B, C + A * B⟩ ∧ jik ⟨A, B, C⟩ = ⟨A, B, C + A * B⟩ ∧
      ikj ⟨A, B, C⟩ = ⟨A, B, C + A * B⟩ ∧ kij ⟨A, B, C⟩ = ⟨A, B, C + A * B⟩ ∧
        jki ⟨A, B, C⟩ = ⟨A, B, C + A * B⟩ ∧ kji ⟨A, B, C⟩ = ⟨A, B, C + A * B⟩ :=
  ⟨adds_ijk A B C, adds_jik A B C, adds_ikj A B C, adds_kij A B C, adds_jki A B C,
    adds_kji A B C⟩

/-- A product of two by two matrices. -/
example : (jki ⟨!![1, 2; 3, 4], !![5, 6; 7, 8], !![1, 0; 0, 1]⟩ : Arrays 2 ℤ).C =
    !![20, 22; 43, 51] := by
  decide

end OsLabs.Matmult
