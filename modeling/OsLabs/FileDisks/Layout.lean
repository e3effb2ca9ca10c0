import OsLabs.Lib.Checked

/-!
# The blocks of the disk

`InitBlockLayout` and `MakeRequests` of `disk.py`. The numbers of the zoning and of the
address description are read already; a random number is a rational number.
-/

namespace OsLabs.FileDisks

open OsLabs.Checked

inductive PyError
  | assertionError
  | attributeError
  | indexError
  | keyError
  | unboundLocalError
  | valueError
  /-- `PrintAddrDescMessage` -/
  | badAddrDesc
  | policyNotImplemented
deriving DecidableEq, Repr

/-! ## Zones and block layout -/

/-- `blockAngleOffset` is `zoning` halved. -/
structure Layout where
  blockInfoList : List (ℕ × ℤ × ℤ)
  blockToTrackMap : ℤ → Option ℕ
  blockToAngleMap : ℤ → Option ℤ
  tracksBeginEnd : ℕ → Option (ℤ × ℤ)
  blockAngleOffset : List ℤ
  maxBlock : ℤ

/-- `range(start, stop, step)` -/
def range (start stop step : ℤ) : Except PyError (List ℤ) :=
  if step = 0 then .error .valueError
  else
    let length := if 0 < step then (stop - start + step - 1) / step
      else (start - stop - step - 1) / -step
    .ok ((List.range length.toNat).map fun i : ℕ => start + i * step)

/-- One turn of the loop over the angles of a track; the second of the pair is `block`. -/
def Layout.place (track : ℕ) (angleOffset skew pblock : ℤ) (s : Layout × Option ℤ) (angle : ℤ) :
    Layout × Option ℤ :=
  let block := angle / angleOffset + pblock
  ({ s.1 with
      blockToTrackMap := Function.update s.1.blockToTrackMap block (some track)
      blockToAngleMap := Function.update s.1.blockToAngleMap block
        (some (angle + angleOffset * skew))
      blockInfoList := s.1.blockInfoList ++ [(track, angle + angleOffset * skew, block)] },
    some block)

/-- The blocks of a track, the first of which is `pblock`. A loop without turns leaves `block`
as it was. -/
def Layout.layTrack (track : ℕ) (angleOffset skew pblock : ℤ) (layout : Layout)
    (block : Option ℤ) : Except PyError (Layout × ℤ) := do
  let angles ← range 0 360 angleOffset
  match angles.foldl (Layout.place track angleOffset skew pblock) (layout, block) with
  | (_, none) => .error .unboundLocalError
  | (layout, some block) =>
      .ok ({ layout with
        tracksBeginEnd := Function.update layout.tracksBeginEnd track (some (pblock, block)) },
        block)

/-- The outer track is not skewed. The starting position is half a turn ahead. -/
def initBlockLayout (zoning : List ℤ) (skew : ℤ) : Except PyError Layout :=
  match zoning with
  | [outer, middle, inner] => do
      let layout : Layout := ⟨[], fun _ => none, fun _ => none, fun _ => none,
        [outer / 2, middle / 2, inner / 2], 0⟩
      let (layout, block) ← layout.layTrack 0 (2 * (outer / 2)) 0 0 none
      let pblock := block + 1
      let (layout, block) ← layout.layTrack 1 (2 * (middle / 2)) skew pblock (some block)
      let pblock := block + 1
      let (layout, _) ← layout.layTrack 2 (2 * (inner / 2)) (2 * skew) pblock (some block)
      return { layout with
        maxBlock := pblock
        blockToAngleMap := fun block =>
          (layout.blockToAngleMap block).map fun angle => (angle + 180) % 360 }
  | _ => .error .assertionError

/-! ## Requests -/

/-- `int(x)` -/
def int (x : ℚ) : ℤ := if 0 ≤ x then ⌊x⌋ else ⌈x⌉

/-- The options `addr` and `addrDesc`. -/
inductive Addresses
  | addr (blocks : List ℤ)
  | addrDesc (desc : List ℤ)

/-- `random i` is the `i`th number that is drawn. -/
def makeRequests (maxBlock : ℤ) (random : ℕ → ℚ) : Addresses → Except PyError (List ℤ)
  | .addr blocks => .ok blocks
  | .addrDesc [numRequests, maxRequest, minRequest] =>
      let maxRequest := if maxRequest = -1 then maxBlock else maxRequest
      .ok ((List.range numRequests.toNat).map fun i => int (random i * maxRequest) + minRequest)
  | .addrDesc _ => .error .badAddrDesc

/-- Some random numbers make this block one of the requests, which are drawn up to the highest
possible value. -/
def Layout.CanRequest (layout : Layout) (block : ℤ) : Prop :=
  ∃ numRequests random requests, (∀ i, 0 ≤ random i ∧ random i < 1) ∧
    makeRequests layout.maxBlock random (.addrDesc [numRequests, -1, 0]) = .ok requests ∧
      block ∈ requests

/-! ## Laying a track -/

variable {layout layout' : Layout} {track t : ℕ} {angleOffset skew pblock : ℤ} {block : Option ℤ}
  {b last : ℤ}

/-- The number of blocks of a track. The last of them may be cut short. -/
def blocksOf (angleOffset : ℤ) : ℕ := ((359 + angleOffset) / angleOffset).toNat

theorem blocksOf_pos (hoffset : 0 < angleOffset) : 0 < blocksOf angleOffset := by
  have hone : 1 ≤ (359 + angleOffset) / angleOffset := by
    rw [Int.le_ediv_iff_mul_le hoffset]
    omega
  rw [blocksOf]
  omega

theorem range_eq (hoffset : 0 < angleOffset) :
    range 0 360 angleOffset =
      .ok ((List.range (blocksOf angleOffset)).map fun i : ℕ => i * angleOffset) := by
  have hstop : 360 - 0 + angleOffset - 1 = 359 + angleOffset := by ring
  rw [range, if_neg hoffset.ne', if_pos hoffset, hstop, blocksOf]
  simp

/-- The first `n` blocks of a track. -/
structure Layout.Laid (track : ℕ) (pblock : ℤ) (n : ℕ) (layout layout' : Layout) : Prop where
  blocks : layout'.blockInfoList.map (fun info => info.2.2) =
    layout.blockInfoList.map (fun info => info.2.2) ++
      (List.range n).map fun i : ℕ => pblock + i
  toTrack : ∀ b, layout'.blockToTrackMap b =
    if pblock ≤ b ∧ b < pblock + n then some track else layout.blockToTrackMap b

theorem Layout.Laid.place {n : ℕ} (h : layout.Laid track pblock n layout')
    (hoffset : 0 < angleOffset) (angle : ℤ) (hangle : angle = n * angleOffset) :
    layout.Laid track pblock (n + 1)
      (Layout.place track angleOffset skew pblock (layout', block) angle).1 := by
  have hblock : angle / angleOffset + pblock = pblock + n := by
    rw [hangle, Int.mul_ediv_cancel _ hoffset.ne', add_comm]
  refine ⟨?_, fun b => ?_⟩
  · rw [Layout.place, List.map_append, h.blocks, List.range_succ, List.map_append,
      ← List.append_assoc, hblock]
    rfl
  · rw [Layout.place, hblock]
    dsimp only
    rw [Function.update_apply, h.toTrack b]
    grind

theorem foldl_place {laid : Layout × Option ℤ} (hoffset : 0 < angleOffset) (n : ℕ)
    (h : ((List.range n).map fun i : ℕ => i * angleOffset).foldl
      (Layout.place track angleOffset skew pblock) (layout, block) = laid) :
    layout.Laid track pblock n laid.1 ∧ laid.1.tracksBeginEnd = layout.tracksBeginEnd ∧
      (0 < n → laid.2 = some (pblock + n - 1)) := by
  induction n generalizing laid with
  | zero =>
      subst h
      refine ⟨⟨?_, fun b => ?_⟩, rfl, fun h => absurd h (lt_irrefl 0)⟩
      · simp
      · rw [if_neg (by omega)]
        rfl
  | succ n ih =>
      rw [List.range_succ, List.map_append, List.foldl_append] at h
      subst h
      rcases ih rfl with ⟨hlaid, hbeginEnd, -⟩
      refine ⟨hlaid.place hoffset _ rfl, hbeginEnd, fun _ => ?_⟩
      have hblock : (n : ℤ) * angleOffset / angleOffset + pblock = pblock + (n + 1 : ℕ) - 1 := by
        rw [Int.mul_ediv_cancel _ hoffset.ne']
        omega
      exact congrArg some hblock

theorem layTrack_laid (layout : Layout) (track : ℕ) (skew pblock : ℤ) (block : Option ℤ)
    (hoffset : 0 < angleOffset) :
    ∃ layout', layout.layTrack track angleOffset skew pblock block =
        .ok (layout', pblock + blocksOf angleOffset - 1) ∧
      layout.Laid track pblock (blocksOf angleOffset) layout' ∧
      layout'.tracksBeginEnd = Function.update layout.tracksBeginEnd track
        (some (pblock, pblock + blocksOf angleOffset - 1)) := by
  rcases hlaid : ((List.range (blocksOf angleOffset)).map fun i : ℕ => i * angleOffset).foldl
    (Layout.place track angleOffset skew pblock) (layout, block) with ⟨laid, final⟩
  rcases foldl_place hoffset (blocksOf angleOffset) hlaid with ⟨hblocks, hbeginEnd, hlast⟩
  have hfinal : final = some (pblock + blocksOf angleOffset - 1) := hlast (blocksOf_pos hoffset)
  refine ⟨{ laid with
    tracksBeginEnd := Function.update laid.tracksBeginEnd track
      (some (pblock, pblock + blocksOf angleOffset - 1)) }, ?_,
    ⟨hblocks.blocks, hblocks.toTrack⟩, ?_⟩
  · rw [Layout.layTrack, range_eq hoffset]
    dsimp only [bind, Except.bind]
    rw [hlaid, hfinal]
  · rw [← hbeginEnd]

/-! ## The tracks -/

/-- The blocks are numbered from zero, and those of a track are between its first and its last
one. -/
structure Layout.Consistent (layout : Layout) (tracks blocks : ℕ) : Prop where
  numbered : layout.blockInfoList.map (fun info => info.2.2) =
    (List.range blocks).map fun i : ℕ => (i : ℤ)
  isSome_iff : ∀ b, (layout.blockToTrackMap b).isSome ↔ 0 ≤ b ∧ b < blocks
  toTrack_iff : ∀ b track, layout.blockToTrackMap b = some track ↔
    ∃ first last, layout.tracksBeginEnd track = some (first, last) ∧ first ≤ b ∧ b ≤ last
  used_iff : ∀ track, (layout.tracksBeginEnd track).isSome ↔ track < tracks

theorem Layout.Consistent.laid {blocks n : ℕ} (h : layout.Consistent track blocks)
    (hlaid : layout.Laid track blocks n layout')
    (hbeginEnd : layout'.tracksBeginEnd = Function.update layout.tracksBeginEnd track
      (some (blocks, blocks + n - 1))) :
    layout'.Consistent (track + 1) (blocks + n) where
  numbered := by
    rw [hlaid.blocks, h.numbered, List.range_add, List.map_append, List.map_map]
    congr 1
  isSome_iff b := by
    rw [hlaid.toTrack b]
    split
    · grind
    · rw [h.isSome_iff b]
      grind
  toTrack_iff b t := by
    have hunused : layout.tracksBeginEnd track = none := by
      rw [← Option.not_isSome_iff_eq_none, h.used_iff]
      exact lt_irrefl track
    have hold := h.toTrack_iff b t
    have hsome := h.isSome_iff b
    rw [hlaid.toTrack b, hbeginEnd, Function.update_apply]
    rcases eq_or_ne t track with rfl | htrack
    · rw [if_pos rfl]
      grind
    · rw [if_neg htrack]
      grind
  used_iff t := by
    rw [hbeginEnd, Function.update_apply]
    split
    case isTrue heq => simp [heq]
    case isFalse hne =>
      rw [h.used_iff t]
      omega

theorem Layout.Consistent.layTrack {blocks : ℕ} (h : layout.Consistent track blocks)
    (hoffset : 0 < angleOffset) (hpblock : pblock = blocks) (skew : ℤ) (block : Option ℤ) :
    ∃ layout' last, ∃ n : ℕ, layout.layTrack track angleOffset skew pblock block =
        .ok (layout', last) ∧
      layout'.Consistent (track + 1) (blocks + n) ∧
      layout'.tracksBeginEnd track = some (pblock, last) ∧
      last + 1 = (blocks + n : ℕ) ∧ 0 < n := by
  subst hpblock
  rcases layTrack_laid layout track skew blocks block hoffset with
    ⟨layout', hlay, hlaid, hbeginEnd⟩
  have hpos := blocksOf_pos hoffset
  refine ⟨layout', _, blocksOf angleOffset, hlay, h.laid hlaid hbeginEnd, ?_, ?_, hpos⟩
  · rw [hbeginEnd, Function.update_self]
  · rw [sub_add_cancel, Nat.cast_add]

theorem range_neg (hoffset : angleOffset < 0) : range 0 360 angleOffset = .ok [] := by
  have hlength : ((0 - 360 - angleOffset - 1) / -angleOffset).toNat = 0 := by
    have hlt : (0 - 360 - angleOffset - 1) / -angleOffset < 1 := by
      rw [Int.ediv_lt_iff_lt_mul (by omega)]
      omega
    omega
  rw [range, if_neg hoffset.ne, if_neg hoffset.not_gt]
  dsimp only
  rw [hlength]
  rfl

/-- A zone of negative width has no blocks, and none of width zero is accepted. -/
theorem Layout.Consistent.layTrack_safe {blocks : ℕ} (h : layout.Consistent track blocks)
    (hpblock : pblock = blocks) (hblock : ∀ b, block = some b → b + 1 = pblock)
    (angleOffset skew : ℤ) :
    Safe (fun _ => True) (layout.layTrack track angleOffset skew pblock block) fun laid =>
      ∃ blocks' : ℕ, laid.1.Consistent (track + 1) blocks' ∧ laid.2 + 1 = blocks' := by
  rcases lt_trichotomy angleOffset 0 with hneg | rfl | hpos
  · rw [Layout.layTrack, range_neg hneg, ok_bind]
    cases block with
    | none => trivial
    | some b =>
        have hlast := hblock b rfl
        have hnone : layout.Laid track blocks 0 { layout with
            tracksBeginEnd := Function.update layout.tracksBeginEnd track (some (pblock, b)) } := by
          refine ⟨by simp, fun b => ?_⟩
          rw [if_neg (by omega)]
        have hb : b = blocks + (0 : ℕ) - 1 := by
          rw [Nat.cast_zero]
          omega
        refine ⟨blocks, h.laid hnone ?_, hlast.trans hpblock⟩
        rw [hpblock, hb]
  · trivial
  · rcases h.layTrack hpos hpblock skew block with ⟨layout', last, n, hlay, hlayout', -, hlast, -⟩
    rw [hlay]
    exact ⟨blocks + n, hlayout', hlast⟩

theorem empty_consistent (blockAngleOffset : List ℤ) :
    Layout.Consistent ⟨[], fun _ => none, fun _ => none, fun _ => none, blockAngleOffset, 0⟩ 0 0 :=
  ⟨rfl, fun b => by simp, fun b track => by simp, fun track => by simp⟩

/-- The blocks of every disk are numbered from zero. -/
theorem initBlockLayout_safe (zoning : List ℤ) (skew : ℤ) :
    Safe (fun _ => True) (initBlockLayout zoning skew) fun layout =>
      ∃ blocks, layout.Consistent 3 blocks := by
  rw [initBlockLayout.eq_def]
  split
  case h_1 outer middle inner =>
    refine ((empty_consistent _).layTrack_safe Nat.cast_zero.symm (by simp) _ _).bind ?_
    rintro ⟨layout₀, last₀⟩ ⟨blocks₀, h₀, hlast₀⟩
    refine (h₀.layTrack_safe hlast₀ (by simp) _ _).bind ?_
    rintro ⟨layout₁, last₁⟩ ⟨blocks₁, h₁, hlast₁⟩
    refine (h₁.layTrack_safe hlast₁ (by simp) _ _).bind ?_
    rintro ⟨layout₂, last₂⟩ ⟨blocks₂, h₂, -⟩
    exact ⟨blocks₂, h₂.numbered, h₂.isSome_iff, h₂.toTrack_iff, h₂.used_iff⟩
  case h_2 => trivial

variable {outer middle inner : ℤ}

/-- The highest block to request is the first one of the inner track. -/
theorem initBlockLayout_spec (houter : 2 ≤ outer) (hmiddle : 2 ≤ middle) (hinner : 2 ≤ inner)
    (skew : ℤ) :
    ∃ layout first last, ∃ blocks : ℕ, initBlockLayout [outer, middle, inner] skew = .ok layout ∧
      layout.Consistent 3 blocks ∧ layout.tracksBeginEnd 2 = some (first, last) ∧
      layout.maxBlock = first ∧ 0 < first ∧ first ≤ last ∧ last + 1 = blocks := by
  have houterOffset : 0 < 2 * (outer / 2) := by omega
  have hmiddleOffset : 0 < 2 * (middle / 2) := by omega
  have hinnerOffset : 0 < 2 * (inner / 2) := by omega
  rcases (empty_consistent _).layTrack houterOffset Nat.cast_zero.symm 0 none with
    ⟨layout₀, last₀, n₀, hlay₀, h₀, -, hlast₀, hn₀⟩
  rcases h₀.layTrack hmiddleOffset hlast₀ skew (some last₀) with
    ⟨layout₁, last₁, n₁, hlay₁, h₁, -, hlast₁, hn₁⟩
  rcases h₁.layTrack hinnerOffset hlast₁ (2 * skew) (some last₁) with
    ⟨layout₂, last₂, n₂, hlay₂, h₂, hbeginEnd, hlast₂, hn₂⟩
  rw [zero_add] at hlay₁ hlay₂
  rw [one_add_one_eq_two] at hlay₂
  refine ⟨{ layout₂ with
    maxBlock := last₁ + 1
    blockToAngleMap := fun block =>
      (layout₂.blockToAngleMap block).map fun angle => (angle + 180) % 360 },
    last₁ + 1, last₂, 0 + n₀ + n₁ + n₂, ?_,
    ⟨h₂.numbered, h₂.isSome_iff, h₂.toTrack_iff, h₂.used_iff⟩, hbeginEnd, rfl, by omega, by omega,
    hlast₂⟩
  rw [initBlockLayout]
  dsimp only [bind, Except.bind]
  rw [hlay₀]
  dsimp only
  rw [hlay₁]
  dsimp only
  rw [hlay₂]
  rfl

/-! ## Which blocks are requested -/

theorem int_eq_floor {x : ℚ} (hx : 0 ≤ x) : int x = ⌊x⌋ := if_pos hx

/-- Below `maxBlock`, every block can be drawn, and no other one. -/
theorem canRequest_iff (hmax : 0 < layout.maxBlock) :
    layout.CanRequest b ↔ 0 ≤ b ∧ b < layout.maxBlock := by
  have hmaxRat : (0 : ℚ) < layout.maxBlock := Int.cast_pos.mpr hmax
  refine ⟨?_, fun hb => ?_⟩
  · rintro ⟨numRequests, random, requests, hrandom, hrequests, hmem⟩
    cases hrequests
    rcases List.mem_map.mp hmem with ⟨i, -, rfl⟩
    rw [if_pos rfl, add_zero]
    have hnonneg : 0 ≤ random i * layout.maxBlock := mul_nonneg (hrandom i).1 hmaxRat.le
    have hlt : random i * layout.maxBlock < layout.maxBlock :=
      mul_lt_of_lt_one_left hmaxRat (hrandom i).2
    rw [int_eq_floor hnonneg]
    exact ⟨Int.floor_nonneg.mpr hnonneg, Int.floor_lt.mpr hlt⟩
  · refine ⟨1, fun _ => b / layout.maxBlock, [b], fun _ => ⟨?_, ?_⟩, ?_, List.mem_singleton_self b⟩
    · exact div_nonneg (Int.cast_nonneg hb.1) hmaxRat.le
    · rw [div_lt_one hmaxRat]
      exact Int.cast_lt.mpr hb.2
    · rw [makeRequests, if_pos rfl, div_mul_cancel₀ _ hmaxRat.ne']
      rw [int_eq_floor (Int.cast_nonneg hb.1), Int.floor_intCast, add_zero]
      rfl

/-- The blocks are laid out, and the requests may be any of them. -/
def Layout.Sound (layout : Layout) : Prop :=
  ∃ blocks, layout.Consistent 3 blocks ∧ ∀ b, layout.CanRequest b ↔ 0 ≤ b ∧ b < blocks

theorem Layout.Consistent.blocks_eq {tracks blocks tracks' blocks' : ℕ}
    (h : layout.Consistent tracks blocks) (h' : layout.Consistent tracks' blocks') :
    blocks = blocks' := by
  have hlength := congrArg List.length (h.numbered.symm.trans h'.numbered)
  simpa using hlength

/-- The last block cannot be requested. -/
theorem Layout.Consistent.not_sound {blocks : ℕ} (h : layout.Consistent 3 blocks)
    (hmax : 0 < layout.maxBlock) (hless : layout.maxBlock < blocks) : ¬ layout.Sound := by
  rintro ⟨blocks', h', hrequest⟩
  rw [← h.blocks_eq h'] at hrequest
  have hlast := (hrequest (blocks - 1)).mpr (by omega)
  have hbelow := ((canRequest_iff hmax).mp hlast).2
  omega

theorem initBlockLayout_not_sound (houter : 2 ≤ outer) (hmiddle : 2 ≤ middle) (hinner : 2 ≤ inner)
    (skew : ℤ) :
    ¬ ∃ layout, initBlockLayout [outer, middle, inner] skew = .ok layout ∧ layout.Sound := by
  rcases initBlockLayout_spec houter hmiddle hinner skew with
    ⟨layout, first, last, blocks, hinit, hlayout, -, hmax, hfirst, hle, hlast⟩
  rintro ⟨layout', hinit', hsound⟩
  rw [hinit] at hinit'
  cases hinit'
  exact hlayout.not_sound (hmax ▸ hfirst) (by omega) hsound

/-- The blocks of every disk are laid out, but those of the inner track are never drawn. -/
theorem inner_track_not_requested (houter : 2 ≤ outer) (hmiddle : 2 ≤ middle) (hinner : 2 ≤ inner)
    (skew : ℤ) :
    (¬ ∃ layout, initBlockLayout [outer, middle, inner] skew = .ok layout ∧ layout.Sound) ∧
      ∃ layout first last, ∃ blocks : ℕ,
        initBlockLayout [outer, middle, inner] skew = .ok layout ∧ layout.Consistent 3 blocks ∧
        layout.tracksBeginEnd 2 = some (first, last) ∧ first ≤ last ∧ last + 1 = blocks ∧
        ∀ b, layout.CanRequest b ↔ 0 ≤ b ∧ b < first := by
  refine ⟨initBlockLayout_not_sound houter hmiddle hinner skew, ?_⟩
  rcases initBlockLayout_spec houter hmiddle hinner skew with
    ⟨layout, first, last, blocks, hinit, hlayout, hinnerTrack, hmax, hfirst, hle, hlast⟩
  refine ⟨layout, first, last, blocks, hinit, hlayout, hinnerTrack, hle, hlast, fun b => ?_⟩
  rw [canRequest_iff (hmax ▸ hfirst), hmax]

/-- The default zoning. -/
theorem inner_track_not_requested_default :
    ∃ layout first last, ∃ blocks : ℕ, initBlockLayout [30, 30, 30] 0 = .ok layout ∧
      layout.Consistent 3 blocks ∧ layout.tracksBeginEnd 2 = some (first, last) ∧
      first ≤ last ∧ last + 1 = blocks ∧ ∀ b, layout.CanRequest b ↔ 0 ≤ b ∧ b < first :=
  (inner_track_not_requested (by decide) (by decide) (by decide) 0).2

/-- With the default zoning, block 35 is on the disk, and the highest one requested is 23. -/
theorem default_zoning_not_sound :
    ¬ ∀ outer middle inner skew : ℤ, 2 ≤ outer → 2 ≤ middle → 2 ≤ inner →
      ∃ layout, initBlockLayout [outer, middle, inner] skew = .ok layout ∧ layout.Sound :=
  fun h => initBlockLayout_not_sound (by decide) (by decide) (by decide) 0
    (h 30 30 30 0 (by decide) (by decide) (by decide))

end OsLabs.FileDisks
