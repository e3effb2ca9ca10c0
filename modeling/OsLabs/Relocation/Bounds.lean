import OsLabs.Relocation.Simulator

/-!
# When the addresses are in bounds
-/

namespace OsLabs.Relocation

open OsLabs.Checked

variable {o : Options} {draw limitDraw : Draw} {addr : ℕ → Draw} {draws : List Draw}
  {size asize psize bound base k : ℤ}

/-! ## Scaled draws -/

theorem Draw.r_nonneg (draw : Draw) : 0 ≤ draw.r :=
  div_nonneg (Nat.cast_nonneg _) (Nat.cast_nonneg _)

theorem randMax_pos : (0 : ℚ) < randMax := Nat.cast_pos.mpr (by decide)

theorem Draw.r_le_one (draw : Draw) : draw.r ≤ 1 := by
  rw [Draw.r, div_le_one randMax_pos]
  exact Nat.cast_le.mpr draw.le_randMax

theorem le_toLongLong_of_nonneg {x : ℚ} (hx : 0 ≤ x) : k ≤ toLongLong x ↔ (k : ℚ) ≤ x := by
  rw [toLongLong, if_pos hx, Int.le_floor]

theorem le_toLongLong {x : ℚ} (h : (k : ℚ) ≤ x) : k ≤ toLongLong x := by
  rw [toLongLong]
  split
  case isTrue => exact Int.le_floor.mpr h
  case isFalse => exact Int.cast_le.mp (h.trans (Int.le_ceil x))

theorem toLongLong_nonneg {x : ℚ} (hx : 0 ≤ x) : 0 ≤ toLongLong x :=
  le_toLongLong (Int.cast_zero.trans_le hx)

theorem toLongLong_nonpos {x : ℚ} (hx : x ≤ 0) : toLongLong x ≤ 0 := by
  rw [toLongLong]
  split
  case isTrue hnonneg =>
    rw [le_antisymm hx hnonneg, Int.floor_zero]
  case isFalse => exact Int.ceil_nonpos.mpr hx

theorem scale_nonneg (hsize : 0 ≤ size) (draw : Draw) : 0 ≤ scale size draw :=
  toLongLong_nonneg (mul_nonneg (Int.cast_nonneg hsize) draw.r_nonneg)

theorem le_scale_iff (hsize : 0 ≤ size) :
    k ≤ scale size draw ↔ k * randMax ≤ size * draw.value := by
  rw [scale, le_toLongLong_of_nonneg (mul_nonneg (Int.cast_nonneg hsize) draw.r_nonneg), Draw.r,
    ← mul_div_assoc, le_div_iff₀ randMax_pos]
  norm_cast

/-- A scaled draw is below the size unless it is the highest one. -/
theorem scale_lt_iff : scale size draw < size ↔ 0 < size ∧ draw.value ≠ randMax := by
  have hle := draw.le_randMax
  rcases lt_or_ge 0 size with hpos | hneg
  · rw [← not_le, le_scale_iff hpos.le, mul_le_mul_iff_right₀ hpos, Nat.cast_le]
    omega
  · have hx : (size : ℚ) ≤ size * draw.r :=
      le_mul_of_le_one_right (Int.cast_nonpos.mpr hneg) draw.r_le_one
    exact iff_of_false (not_lt.mpr (le_toLongLong hx)) fun h => hneg.not_gt h.1

theorem myRand_toNat (seed : BitVec 32) :
    (myRand seed).toNat = (seed.toNat * 1103515245 + 12345) % 2 ^ 31 := by
  have hmask : (0x7fffffff : BitVec 32).toNat = 2 ^ 31 - 1 := by decide
  rw [myRand, BitVec.toNat_and, hmask, Nat.and_two_pow_sub_one_eq_mod, BitVec.toNat_add,
    BitVec.toNat_mul]
  have hfactor : (1103515245 : BitVec 32).toNat = 1103515245 := by decide
  have hsummand : (12345 : BitVec 32).toNat = 12345 := by decide
  rw [hfactor, hsummand]
  omega

/-- Every number up to `RAND_MAX` is returned for some seed. -/
theorem Draw.exists_ofSeed (draw : Draw) : ∃ seed, Draw.ofSeed seed = draw := by
  rcases draw with ⟨value, hvalue⟩
  -- 1857678181 is the inverse of the factor modulo 2 ^ 31.
  refine ⟨BitVec.ofNat 32 ((value + 2 ^ 31 - 12345) * 1857678181), ?_⟩
  rw [Draw.ofSeed, Draw.mk.injEq, myRand_toNat, BitVec.toNat_ofNat]
  rw [randMax] at hvalue
  omega

/-! ## The registers -/

/-- The limit that is given or drawn. -/
def Options.limit (o : Options) (draw : Draw) : ℤ :=
  if convert o.limitStr = -1 then drawLimit (convert o.asizeStr) draw else convert o.limitStr

theorem le_drawLimit_iff (hasize : 0 ≤ asize) :
    k ≤ drawLimit asize draw ↔ k * (4 * randMax) ≤ asize * (randMax + draw.value) := by
  have hasizeRat : (0 : ℚ) ≤ asize / 4 := div_nonneg (Int.cast_nonneg hasize) (by norm_num)
  have hx : (asize : ℚ) / 4 + asize / 4 * draw.r =
      (asize * (randMax + draw.value) : ℚ) / (4 * randMax) := by
    have hne := randMax_pos.ne'
    rw [Draw.r]
    field_simp
  rw [drawLimit, le_toLongLong_of_nonneg
    (add_nonneg hasizeRat (mul_nonneg hasizeRat draw.r_nonneg)), hx,
    le_div_iff₀ (mul_pos (by norm_num) randMax_pos)]
  norm_cast

/-- A limit that is drawn fits into the memory. -/
theorem drawLimit_lt (hpsize : 1 < psize) (hless : asize < psize) (draw : Draw) :
    drawLimit asize draw < psize := by
  rcases le_or_gt 0 asize with hpos | hneg
  · rw [← not_le, le_drawLimit_iff hpos]
    have hvalue : (draw.value : ℤ) ≤ randMax := Int.ofNat_le.mpr draw.le_randMax
    have hmax : (0 : ℤ) < randMax := by decide
    nlinarith
  · have hx : (asize : ℚ) / 4 + asize / 4 * draw.r ≤ 0 := by
      have hquarter : (asize : ℚ) / 4 ≤ 0 :=
        div_nonpos_of_nonpos_of_nonneg (Int.cast_nonpos.mpr hneg.le) (by norm_num)
      exact add_nonpos hquarter (mul_nonpos_of_nonpos_of_nonneg hquarter draw.r_nonneg)
    have hle := toLongLong_nonpos hx
    rw [drawLimit]
    omega

/-- The arguments pass the checks of `main`. -/
structure Passes (o : Options) (limitDraw : Draw) : Prop where
  psize : 1 < convert o.psizeStr
  asize : convert o.asizeStr ≠ 0
  less : convert o.asizeStr < convert o.psizeStr
  fits : convert o.baseStr ≠ -1 →
    convert o.baseStr + o.limit limitDraw ≤ convert o.psizeStr

theorem Passes.limit_lt_iff (h : Passes o limitDraw) :
    o.limit limitDraw < convert o.psizeStr ↔ convert o.limitStr < convert o.psizeStr := by
  have hpsize := h.psize
  rw [Options.limit]
  split
  case isTrue hnone =>
    exact iff_of_true (drawLimit_lt h.psize h.less limitDraw) (by omega)
  case isFalse => rfl

theorem drawBase_safe (hpsize : 0 ≤ psize) (bound : ℤ) (draws : List Draw) :
    Safe (fun _ => True) (drawBase psize bound draws) (0 ≤ ·) := by
  induction draws with
  | nil => trivial
  | cons draw rest ih =>
      rw [drawBase]
      split
      case isTrue => exact ih
      case isFalse => exact scale_nonneg hpsize draw

theorem placeBase_safe (hpsize : 0 ≤ psize) (bound given : ℤ) (draws : List Draw) :
    Safe (fun _ => True) (placeBase psize bound given draws) fun base =>
      (given = -1 → 0 ≤ base) ∧ (given ≠ -1 → base = given) := by
  rw [placeBase]
  split
  case isTrue hnone =>
    exact (drawBase_safe hpsize bound draws).mono fun base hbase =>
      ⟨fun _ => hbase, fun hgiven => absurd hnone hgiven⟩
  case isFalse hgiven => exact ⟨fun hnone => absurd hnone hgiven, fun _ => rfl⟩

def Draw.zero : Draw := ⟨0, Nat.zero_le _⟩

theorem scale_zero (size : ℤ) : scale size .zero = 0 := by
  simp [scale, Draw.r, Draw.zero, toLongLong]

theorem drawBase_zero (hbound : bound < psize) : drawBase psize bound [.zero] = .ok 0 := by
  rw [drawBase, scale_zero]
  exact if_neg (by omega)

/-! ## The trace -/

/-- The trace with a base. -/
def traceWith (o : Options) (limitDraw : Draw) (addr : ℕ → Draw) (base : ℤ) : Trace :=
  ⟨base, o.limit limitDraw,
    virtualAddressTrace o (convert o.asizeStr) base (o.limit limitDraw) addr⟩

theorem Passes.simulate_eq (h : Passes o limitDraw) (draws : List Draw) :
    simulate o ⟨limitDraw, draws, addr⟩ = (do
      let base ← placeBase (convert o.psizeStr) (o.limit limitDraw) (convert o.baseStr) draws
      if base + o.limit limitDraw > convert o.psizeStr then .error .doesNotFit
      else return traceWith o limitDraw addr base) := by
  rw [simulate, if_neg h.psize.not_ge, if_neg h.asize, if_neg h.less.not_ge]
  rfl

/-- The base of a trace is the one that is given, or a drawn one. -/
structure IsBase (o : Options) (limitDraw : Draw) (base : ℤ) : Prop where
  fits : base + o.limit limitDraw ≤ convert o.psizeStr
  drawn : convert o.baseStr = -1 → 0 ≤ base
  given : convert o.baseStr ≠ -1 → base = convert o.baseStr

theorem Passes.simulate_safe (h : Passes o limitDraw) (addr : ℕ → Draw) (draws : List Draw) :
    Safe (fun _ => True) (simulate o ⟨limitDraw, draws, addr⟩) fun trace =>
      ∃ base, IsBase o limitDraw base ∧ trace = traceWith o limitDraw addr base := by
  have hpsize : 0 ≤ convert o.psizeStr := by linarith only [h.psize]
  rw [h.simulate_eq]
  refine (placeBase_safe hpsize _ _ draws).bind fun base hbase => ?_
  split
  case isTrue => trivial
  case isFalse hfits => exact ⟨base, ⟨not_lt.mp hfits, hbase.1, hbase.2⟩, rfl⟩

theorem Passes.exists_trace (h : Passes o limitDraw) (addr : ℕ → Draw)
    (hends : convert o.baseStr = -1 → o.limit limitDraw < convert o.psizeStr) :
    ∃ base draws, IsBase o limitDraw base ∧
      simulate o ⟨limitDraw, draws, addr⟩ = .ok (traceWith o limitDraw addr base) := by
  by_cases hnone : convert o.baseStr = -1
  · have hlt := hends hnone
    refine ⟨0, [.zero], ⟨by omega, fun _ => le_rfl, fun hgiven => absurd hnone hgiven⟩, ?_⟩
    rw [h.simulate_eq, placeBase, if_pos hnone, drawBase_zero hlt, ok_bind, if_neg (by omega)]
    rfl
  · have hfits := h.fits hnone
    refine ⟨convert o.baseStr, [], ⟨hfits, fun h => absurd h hnone, fun _ => rfl⟩, ?_⟩
    rw [h.simulate_eq, placeBase, if_neg hnone, ok_bind, if_neg (by omega)]
    rfl

theorem mem_addresses_iff {line : ℤ × Answer} :
    line ∈ (traceWith o limitDraw addr base).addresses ↔
      ∃ i : ℕ, i < o.numAddrs ∧ line = (scale (convert o.asizeStr) (addr i),
        translate o.solve base (o.limit limitDraw) (scale (convert o.asizeStr) (addr i))) := by
  simp only [traceWith, virtualAddressTrace, List.mem_map, List.mem_range, Int.lt_toNat,
    eq_comm (a := line)]

theorem translate_eq_valid_iff {solve : Bool} {vaddr paddr : ℤ} :
    translate solve base bound vaddr = .valid paddr ↔
      solve = true ∧ vaddr < bound ∧ paddr = vaddr + base := by
  rw [translate]
  split
  case isTrue hhidden => simp_all
  case isFalse hsolve =>
    split
    case isTrue hbeyond =>
      exact iff_of_false nofun fun h => hbeyond.not_gt h.2.1
    case isFalse hbelow =>
      rw [Answer.valid.injEq, eq_comm]
      exact ⟨fun h => ⟨not_not.mp hsolve, not_le.mp hbelow, h⟩, fun h => h.2.2⟩

/-! ## Bounds -/

/-- What the simulator is to report: some draw ends the loop for the base, the addresses are in
the address space, and the valid ones are in the memory. -/
structure Sound (o : Options) (limitDraw : Draw) (addr : ℕ → Draw) : Prop where
  base_ends : convert o.baseStr = -1 → ∃ draw : Draw,
    scale (convert o.psizeStr) draw + o.limit limitDraw < convert o.psizeStr
  vaddr_lt : ∀ draws trace, simulate o ⟨limitDraw, draws, addr⟩ = .ok trace →
    ∀ line ∈ trace.addresses, line.1 < convert o.asizeStr
  paddr_mem : ∀ draws trace, simulate o ⟨limitDraw, draws, addr⟩ = .ok trace →
    ∀ line ∈ trace.addresses, ∀ paddr, line.2 = .valid paddr →
      0 ≤ paddr ∧ paddr < convert o.psizeStr

/-- A drawn address is at the limit or beyond it. -/
def Options.BeyondLimit (o : Options) (limitDraw draw : Draw) : Prop :=
  if convert o.limitStr = -1 then
    convert o.asizeStr * (randMax + limitDraw.value) / (4 * randMax) ≤
      convert o.asizeStr * draw.value / randMax
  else convert o.limitStr * randMax ≤ convert o.asizeStr * draw.value

theorem scale_eq_ediv (hsize : 0 ≤ size) : scale size draw = size * draw.value / randMax := by
  refine eq_of_forall_le_iff fun k => ?_
  rw [le_scale_iff hsize, Int.le_ediv_iff_mul_le (by decide)]

theorem drawLimit_eq_ediv (hasize : 0 ≤ asize) :
    drawLimit asize draw = asize * (randMax + draw.value) / (4 * randMax) := by
  refine eq_of_forall_le_iff fun k => ?_
  rw [le_drawLimit_iff hasize, Int.le_ediv_iff_mul_le (by decide)]

theorem beyondLimit_iff (hasize : 0 ≤ convert o.asizeStr) :
    o.BeyondLimit limitDraw draw ↔ o.limit limitDraw ≤ scale (convert o.asizeStr) draw := by
  rw [Options.BeyondLimit, Options.limit]
  split
  case isTrue => rw [drawLimit_eq_ediv hasize, scale_eq_ediv hasize]
  case isFalse => rw [le_scale_iff hasize]

/-- The arguments and the draws with which the addresses stay in bounds. -/
structure InBounds (o : Options) (limitDraw : Draw) (addr : ℕ → Draw) : Prop where
  limit_lt : convert o.baseStr = -1 → convert o.limitStr < convert o.psizeStr
  asize_pos : ∀ i : ℕ, i < o.numAddrs → 0 < convert o.asizeStr
  draw_ne : ∀ i : ℕ, i < o.numAddrs → (addr i).value ≠ randMax
  base_le : o.solve = true → convert o.baseStr < -1 → ∀ i : ℕ, i < o.numAddrs →
    -convert o.baseStr * randMax ≤ convert o.asizeStr * (addr i).value ∨
      o.BeyondLimit limitDraw (addr i)

theorem Sound.inBounds (hsound : Sound o limitDraw addr) (h : Passes o limitDraw) :
    InBounds o limitDraw addr := by
  have hpsize : 0 ≤ convert o.psizeStr := by linarith only [h.psize]
  have hends : convert o.baseStr = -1 → o.limit limitDraw < convert o.psizeStr := by
    intro hnone
    rcases hsound.base_ends hnone with ⟨draw, hdraw⟩
    have hscale := scale_nonneg hpsize draw
    omega
  rcases h.exists_trace addr hends with ⟨base, draws, hbase, hrun⟩
  have hvaddr : ∀ i : ℕ, i < o.numAddrs →
      0 < convert o.asizeStr ∧ (addr i).value ≠ randMax := fun i hi =>
    scale_lt_iff.mp (hsound.vaddr_lt draws _ hrun _ (mem_addresses_iff.mpr ⟨i, hi, rfl⟩))
  refine ⟨fun hnone => h.limit_lt_iff.mp (hends hnone), fun i hi => (hvaddr i hi).1,
    fun i hi => (hvaddr i hi).2, fun hsolve hneg i hi => ?_⟩
  have hasize := (hvaddr i hi).1.le
  rw [beyondLimit_iff hasize, ← le_scale_iff hasize]
  rcases lt_or_ge (scale (convert o.asizeStr) (addr i)) (o.limit limitDraw) with hbelow | hbeyond
  · have hpaddr := (hsound.paddr_mem draws _ hrun _ (mem_addresses_iff.mpr ⟨i, hi, rfl⟩) _
      (translate_eq_valid_iff.mpr ⟨hsolve, hbelow, rfl⟩)).1
    have hgiven := hbase.given (by omega)
    exact .inl (by omega)
  · exact .inr hbeyond

/-- A valid address of a trace does not lie below the memory. -/
theorem InBounds.paddr_nonneg (h : InBounds o limitDraw addr) (hbase : IsBase o limitDraw base)
    {i : ℕ} (hi : i < o.numAddrs) (hsolve : o.solve = true)
    (hbelow : scale (convert o.asizeStr) (addr i) < o.limit limitDraw) :
    0 ≤ scale (convert o.asizeStr) (addr i) + base := by
  have hasize := (h.asize_pos i hi).le
  have hnonneg := scale_nonneg hasize (addr i)
  rcases lt_trichotomy (convert o.baseStr) (-1) with hneg | hnone | hpos
  · have hgiven := hbase.given hneg.ne
    rcases h.base_le hsolve hneg i hi with hbaseLe | hbeyond
    · rw [← le_scale_iff hasize] at hbaseLe
      omega
    · rw [beyondLimit_iff hasize] at hbeyond
      omega
  · have hdrawn := hbase.drawn hnone
    omega
  · have hgiven := hbase.given hpos.ne'
    omega

theorem InBounds.sound (hin : InBounds o limitDraw addr) (h : Passes o limitDraw) :
    Sound o limitDraw addr where
  base_ends hnone := by
    refine ⟨.zero, ?_⟩
    rw [scale_zero, zero_add]
    exact h.limit_lt_iff.mpr (hin.limit_lt hnone)
  vaddr_lt draws trace hrun line hline := by
    rcases (h.simulate_safe addr draws).of_eq_ok hrun with ⟨base, -, rfl⟩
    rcases mem_addresses_iff.mp hline with ⟨i, hi, rfl⟩
    exact scale_lt_iff.mpr ⟨hin.asize_pos i hi, hin.draw_ne i hi⟩
  paddr_mem draws trace hrun line hline paddr hpaddr := by
    rcases (h.simulate_safe addr draws).of_eq_ok hrun with ⟨base, hbase, rfl⟩
    rcases mem_addresses_iff.mp hline with ⟨i, hi, rfl⟩
    rcases translate_eq_valid_iff.mp hpaddr with ⟨hsolve, hbelow, rfl⟩
    have hfits := hbase.fits
    exact ⟨hin.paddr_nonneg hbase hi hsolve hbelow, by omega⟩

/-- The highest draw is an address outside the address space, and nothing but the limit keeps the
loop for the base from going on for ever. -/
theorem sound_iff (h : Passes o limitDraw) :
    Sound o limitDraw addr ↔ InBounds o limitDraw addr :=
  ⟨fun hsound => hsound.inBounds h, fun hin => hin.sound h⟩

theorem passes_default (limitDraw : Draw) : Passes {} limitDraw where
  psize := by decide +kernel
  asize := by decide +kernel
  less := by decide +kernel
  fits hgiven := absurd (by decide +kernel) hgiven

/-- `-c -s 1 -b -50` -/
def negativeBase : Options := { seed := 1, baseStr := "-50".toList, solve := true }

/-- No address that is drawn is within the 50 bytes that lie below the memory. -/
theorem sound_iff_negativeBase :
    main ["-c", "-s", "1", "-b", "-50"] 0 = .ok ⟨-50, 387, [(554, .segmentationViolation),
      (222, .valid 172), (323, .valid 273), (259, .valid 209), (644, .segmentationViolation)]⟩ ∧
    Sound negativeBase (drawsFrom 1 0) (drawsFrom 3) := by
  have hpasses : Passes negativeBase (drawsFrom 1 0) :=
    ⟨by decide +kernel, by decide +kernel, by decide +kernel, fun _ => by decide +kernel⟩
  have hfive {P : ℕ → Prop} (h : ∀ i < 5, P i) (i : ℕ) (hi : i < negativeBase.numAddrs) : P i :=
    h i (Int.ofNat_lt.mp hi)
  refine ⟨by decide +kernel, (sound_iff hpasses).mpr ⟨?_, ?_, ?_, fun _ _ => ?_⟩⟩
  · intro hnone
    exact absurd hnone (by decide +kernel)
  · exact fun _ _ => by decide +kernel
  · exact hfive (by decide +kernel)
  · exact hfive fun i hi => .inl ((by decide +kernel : ∀ i < 5, -convert negativeBase.baseStr *
      randMax ≤ convert negativeBase.asizeStr * (drawsFrom 3 i).value) i hi)

/-- With this seed, the first address is the size of the address space. -/
theorem not_sound_highest_draw : ¬ ∀ o limitDraw addr, Passes o limitDraw →
    Sound o limitDraw addr := by
  intro h
  have hsound := h {} (drawsFrom 230538012 0) (drawsFrom 230538014) (passes_default _)
  exact (hsound.inBounds (passes_default _)).draw_ne 0 (by decide) (by decide +kernel)

end OsLabs.Relocation
