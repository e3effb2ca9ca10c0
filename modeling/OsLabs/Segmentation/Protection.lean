import Mathlib
import OsLabs.Segmentation.Simulator

/-!
# Protection between segments

The physical addresses that a segment reaches are an interval. Protection says
that both intervals lie in physical memory and that they are disjoint.
-/

namespace OsLabs.Segmentation

open Set

variable {args : Args} {draws : Draws} {regs : Registers} {asize vaddr paddr : ℤ}

/-! ## Halving by floats -/

theorem roundFloat_neg (n : ℤ) : roundFloat (-n) = -roundFloat n := by
  simp only [roundFloat, Int.natAbs_neg, Int.sign_neg, neg_mul]

/-- Rounding to 53 bits neither reaches zero nor doubles a number. -/
theorem roundFloat_bounds {n : ℤ} (h : 0 < n) : 0 < roundFloat n ∧ roundFloat n ≤ 2 * n := by
  obtain ⟨m, rfl⟩ := Int.eq_ofNat_of_zero_le h.le
  have hm : 0 < m := by omega
  set ulp := 2 ^ (m.size - 53) with hulp
  have hpos : 0 < ulp := Nat.two_pow_pos _
  have hle : ulp ≤ m := by
    obtain hsize | hsize := Nat.eq_zero_or_pos (m.size - 53)
    · rw [hulp, hsize]
      exact hm
    · exact Nat.lt_size.mp (by omega)
  have hq : 0 < m / ulp := Nat.div_pos hle hpos
  have hsplit := Nat.div_add_mod m ulp
  have hmod := Nat.mod_lt m hpos
  rw [mul_comm] at hsplit
  have hone : ulp ≤ m / ulp * ulp := Nat.le_mul_of_pos_left _ hq
  simp only [roundFloat, Int.natAbs_natCast, Int.sign_eq_one_of_pos h, one_mul]
  rw [← hulp]
  split
  · have hsucc : (m / ulp + 1) * ulp = m / ulp * ulp + ulp := Nat.succ_mul _ _
    constructor <;> norm_cast <;> omega
  · constructor <;> norm_cast <;> omega

theorem roundFloat_of_neg {n : ℤ} (h : n < 0) : roundFloat n < 0 := by
  have hpos := (roundFloat_bounds (neg_pos.mpr h)).1
  rw [roundFloat_neg] at hpos
  omega

/-! ## Accepted registers -/

theorem abort_if_bind_eq_ok {α : Type} {condition : Prop} [Decidable condition] {message : String}
    {next : Unit → Except Stop α} {a : α} (h : (abort_if condition message >>= next) = .ok a) :
    ¬ condition ∧ next () = .ok a := by
  by_cases hc : condition
  · rw [abort_if, if_pos hc] at h
    cases h
  · rw [abort_if, if_neg hc] at h
    exact ⟨hc, h⟩

/-- The registers are given, none of them is drawn. -/
structure Args.Explicit (args : Args) : Prop where
  len0 : args.len0 ≠ -1
  len1 : args.len1 ≠ -1
  base0 : args.base0 ≠ -1
  base1 : args.base1 ≠ -1

/-- What the checks say of registers that they accept. -/
structure Accepted (args : Args) (regs : Registers) : Prop where
  regs_eq : regs = ⟨args.len0, args.len1, args.base0, args.base1 - args.len1⟩
  asize_ne : args.asize ≠ 0
  len0_le : 2 * args.len0 ≤ roundFloat args.asize
  len1_le : 2 * args.len1 ≤ roundFloat args.asize

theorem accepted_of_setup (hargs : args.Explicit) (h : setup args draws = .ok regs) :
    Accepted args regs := by
  simp only [setup, if_neg hargs.len0, if_neg hargs.len1, if_neg hargs.base0,
    if_neg hargs.base1] at h
  obtain ⟨-, h⟩ := abort_if_bind_eq_ok h
  obtain ⟨hasize, h⟩ := abort_if_bind_eq_ok h
  obtain ⟨-, h⟩ := abort_if_bind_eq_ok h
  obtain ⟨-, h⟩ := abort_if_bind_eq_ok h
  obtain ⟨-, h⟩ := abort_if_bind_eq_ok h
  obtain ⟨-, h⟩ := abort_if_bind_eq_ok h
  rw [toFloat] at h
  split at h
  · cases h
  · obtain ⟨hlen0, h⟩ := abort_if_bind_eq_ok h
    obtain ⟨hlen1, h⟩ := abort_if_bind_eq_ok h
    obtain ⟨-, h⟩ := abort_if_bind_eq_ok h
    exact ⟨(Except.ok.inj h).symm, hasize, not_lt.mp hlen0, not_lt.mp hlen1⟩

/-! ## Segments as intervals -/

/-- How many addresses of the upper half of the address space its segment maps. -/
def Args.size1 (args : Args) : ℤ := min args.len1 (args.asize - (roundFloat args.asize + 1) / 2)

/-- The physical addresses to which a segment translates. -/
def Args.image (args : Args) : Segment → Set ℤ
  | .seg0 => Ico args.base0 (args.base0 + args.len0)
  | .seg1 => Ico (args.base1 - args.size1) args.base1

theorem translate_eq_seg0 (h : translate asize regs vaddr = .valid .seg0 paddr) :
    0 ≤ vaddr ∧ vaddr < asize ∧ vaddr < regs.len0 ∧ paddr = vaddr + regs.base0 := by
  rw [translate] at h
  grind

theorem translate_eq_seg1 (h : translate asize regs vaddr = .valid .seg1 paddr) :
    0 ≤ vaddr ∧ vaddr < asize ∧ roundFloat asize ≤ 2 * vaddr ∧ regs.base1 ≤ paddr ∧
      paddr = regs.base1 + regs.len1 + (vaddr - asize) := by
  rw [translate] at h
  grind

/-- The exact set of physical addresses behind each segment. -/
theorem Accepted.mem_image (h : Accepted args regs) (segment : Segment) :
    (∃ vaddr, translate args.asize regs vaddr = .valid segment paddr) ↔
      paddr ∈ args.image segment := by
  obtain ⟨rfl, hasize, hlen0, hlen1⟩ := h
  have hfloat : 0 < args.asize → 0 < roundFloat args.asize ∧
      roundFloat args.asize ≤ 2 * args.asize := roundFloat_bounds
  have hneg : args.asize < 0 → roundFloat args.asize < 0 := roundFloat_of_neg
  cases segment with
  | seg0 =>
      simp only [Args.image, mem_Ico]
      constructor
      · rintro ⟨vaddr, hvalid⟩
        obtain ⟨hlow, -, hlen, rfl⟩ := translate_eq_seg0 hvalid
        dsimp only at hlen ⊢
        omega
      · rintro ⟨hlow, hhigh⟩
        refine ⟨paddr - args.base0, ?_⟩
        rw [translate, if_neg (by omega), if_neg (by omega), if_neg (by dsimp only; omega)]
        simp only [sub_add_cancel]
  | seg1 =>
      simp only [Args.image, Args.size1, mem_Ico]
      constructor
      · rintro ⟨vaddr, hvalid⟩
        obtain ⟨-, hsize, hhalf, hbase, rfl⟩ := translate_eq_seg1 hvalid
        dsimp only at hbase ⊢
        omega
      · rintro ⟨hlow, hhigh⟩
        refine ⟨paddr - args.base1 + args.asize, ?_⟩
        rw [translate, if_neg (by omega), if_pos (by omega)]
        dsimp only
        rw [if_neg (by omega)]
        congr 1
        omega

/-! ## Protection -/

/-- Valid translations stay in physical memory, and no physical address is
reached through both segments. -/
structure Protected (args : Args) (regs : Registers) : Prop where
  in_memory : ∀ vaddr segment paddr, translate args.asize regs vaddr = .valid segment paddr →
    0 ≤ paddr ∧ paddr < args.psize
  apart : ∀ vaddr vaddr' paddr, translate args.asize regs vaddr = .valid .seg0 paddr →
    translate args.asize regs vaddr' ≠ .valid .seg1 paddr

/-- The condition on the options under which the accepted registers protect. -/
structure Args.Separate (args : Args) : Prop where
  seg0 : 0 < args.len0 → 0 ≤ args.base0 ∧ args.base0 + args.len0 ≤ args.psize
  seg1 : 0 < args.size1 → 0 ≤ args.base1 - args.size1 ∧ args.base1 ≤ args.psize
  apart : 0 < args.len0 → 0 < args.size1 →
    args.base0 + args.len0 ≤ args.base1 - args.size1 ∨ args.base1 ≤ args.base0

theorem Accepted.protected_iff_image (h : Accepted args regs) : Protected args regs ↔
    (∀ segment, args.image segment ⊆ Ico 0 args.psize) ∧
      Disjoint (args.image .seg0) (args.image .seg1) := by
  constructor
  · rintro ⟨hmem, hapart⟩
    refine ⟨fun segment paddr hpaddr => ?_, disjoint_left.mpr fun paddr h0 h1 => ?_⟩
    · obtain ⟨vaddr, hvalid⟩ := (h.mem_image segment).mpr hpaddr
      exact hmem vaddr segment paddr hvalid
    · obtain ⟨vaddr, hvalid⟩ := (h.mem_image _).mpr h0
      obtain ⟨vaddr', hvalid'⟩ := (h.mem_image _).mpr h1
      exact hapart vaddr vaddr' paddr hvalid hvalid'
  · rintro ⟨hmem, hapart⟩
    refine ⟨fun vaddr segment paddr hvalid => ?_, fun vaddr vaddr' paddr h0 h1 => ?_⟩
    · exact hmem segment ((h.mem_image segment).mp ⟨vaddr, hvalid⟩)
    · exact disjoint_left.mp hapart ((h.mem_image _).mp ⟨vaddr, h0⟩)
        ((h.mem_image _).mp ⟨vaddr', h1⟩)

theorem Ico_subset_Ico_iff_imp {a b c d : ℤ} : Ico a b ⊆ Ico c d ↔ a < b → c ≤ a ∧ b ≤ d := by
  constructor
  · exact fun h hlt => (Ico_subset_Ico_iff hlt).mp h
  · intro h x hx
    have hx' := mem_Ico.mp hx
    have := h (hx'.1.trans_lt hx'.2)
    exact mem_Ico.mpr ⟨by omega, by omega⟩

theorem Args.separate_iff_image : args.Separate ↔
    (∀ segment, args.image segment ⊆ Ico 0 args.psize) ∧
      Disjoint (args.image .seg0) (args.image .seg1) := by
  have hsub (a b : ℤ) : Ico a b ⊆ Ico 0 args.psize ↔ a < b → 0 ≤ a ∧ b ≤ args.psize :=
    Ico_subset_Ico_iff_imp
  constructor
  · rintro ⟨h0, h1, hapart⟩
    refine ⟨fun segment => ?_, ?_⟩
    · cases segment with
      | seg0 => exact (hsub _ _).mpr fun hlt => h0 (by omega)
      | seg1 => exact (hsub _ _).mpr fun hlt => h1 (by omega)
    · simp only [Args.image, Ico_disjoint_Ico]
      omega
  · rintro ⟨hmem, hapart⟩
    have h0 := (hsub _ _).mp (hmem .seg0)
    have h1 := (hsub _ _).mp (hmem .seg1)
    simp only [Args.image, Ico_disjoint_Ico] at hapart
    exact ⟨fun hlt => h0 (by omega), fun hlt => h1 (by omega), fun hlt0 hlt1 => by omega⟩

/-- Accepted registers protect exactly when both segments lie in physical memory,
apart from each other. -/
theorem protected_iff (args : Args) (draws : Draws) (regs : Registers) (hargs : args.Explicit)
    (h : setup args draws = .ok regs) : Protected args regs ↔ args.Separate :=
  (accepted_of_setup hargs h).protected_iff_image.trans Args.separate_iff_image.symm

theorem protected_iff_atBothEnds : Protected ⟨16, 64, 8, 8, 0, 64⟩ ⟨8, 8, 0, 56⟩ := by
  refine (protected_iff _ ⟨0, 0, [], []⟩ _ ⟨by decide, by decide, by decide, by decide⟩
    (by decide +kernel)).mpr ⟨?_, ?_, ?_⟩
  · decide
  · decide +kernel
  · decide +kernel

/-- `-a 16 -p 64 -b 20 -l 8 -B 24 -L 8`: the lower end of the second segment is below
the base of the first, so the test for overlap does not look further. -/
theorem overlap_accepted : ∃ args draws regs, args.Explicit ∧ setup args draws = .ok regs ∧
    ¬ Protected args regs := by
  refine ⟨⟨16, 64, 8, 8, 20, 24⟩, ⟨0, 0, [], []⟩, ⟨8, 8, 20, 16⟩,
    ⟨by decide, by decide, by decide, by decide⟩, by decide +kernel, fun h => ?_⟩
  exact h.apart 0 12 20 (by decide +kernel) (by decide +kernel)

end OsLabs.Segmentation
