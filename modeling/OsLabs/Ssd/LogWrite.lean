import Mathlib
import OsLabs.Ssd.Device

/-!
# What one write to the log does

The invariant of a log-structured device describes every block by how many of
its pages are filled. Under it `write_logging` either finds every block in use,
or appends one page under the cursor and leaves every filled page alone.
-/

namespace OsLabs.Ssd

variable {c : Config} {s s' : Device}

/-! ## Pages and blocks -/

theorem mem_pagesOf {block page : ℕ} :
    page ∈ pagesOf c block ↔ ∃ i < c.pagesPerBlock, page = block * c.pagesPerBlock + i := by
  rw [pagesOf, List.mem_range'_1]
  constructor
  · rintro ⟨hlo, hhi⟩
    exact ⟨page - block * c.pagesPerBlock, by omega, by omega⟩
  · rintro ⟨i, hi, rfl⟩
    omega

theorem pagesOf_nodup (block : ℕ) : (pagesOf c block).Nodup := List.nodup_range'

theorem pagesOf_length (block : ℕ) : (pagesOf c block).length = c.pagesPerBlock :=
  List.length_range'

theorem page_div {block i : ℕ} (hi : i < c.pagesPerBlock) :
    (block * c.pagesPerBlock + i) / c.pagesPerBlock = block := by
  rw [Nat.mul_comm, Nat.mul_add_div c.pagesPerBlock_pos, Nat.div_eq_of_lt hi, Nat.add_zero]

theorem page_inj {b b' i i' : ℕ} (hi : i < c.pagesPerBlock) (hi' : i' < c.pagesPerBlock)
    (h : b * c.pagesPerBlock + i = b' * c.pagesPerBlock + i') : b = b' ∧ i = i' := by
  have hb : b = b' := by
    calc b = (b * c.pagesPerBlock + i) / c.pagesPerBlock := (page_div hi).symm
      _ = b' := by rw [h, page_div hi']
  subst hb
  exact ⟨rfl, by omega⟩

theorem page_split (page : ℕ) :
    page = page / c.pagesPerBlock * c.pagesPerBlock + page % c.pagesPerBlock := by
  rw [Nat.mul_comm]
  exact (Nat.div_add_mod page c.pagesPerBlock).symm

theorem mem_pagesOf_iff_div {block page : ℕ} :
    page ∈ pagesOf c block ↔ page / c.pagesPerBlock = block := by
  rw [mem_pagesOf]
  constructor
  · rintro ⟨i, hi, rfl⟩
    exact page_div hi
  · rintro rfl
    exact ⟨page % c.pagesPerBlock, Nat.mod_lt _ c.pagesPerBlock_pos, page_split page⟩

theorem page_lt_numPages {block i : ℕ} (hb : block < c.numBlocks) (hi : i < c.pagesPerBlock) :
    block * c.pagesPerBlock + i < c.numPages := by
  have hle : (block + 1) * c.pagesPerBlock ≤ c.numBlocks * c.pagesPerBlock :=
    Nat.mul_le_mul_right _ hb
  rw [Nat.succ_mul] at hle
  unfold Config.numPages
  omega

theorem blockOf_lt {page : ℕ} (h : page < c.numPages) : page / c.pagesPerBlock < c.numBlocks := by
  rw [Nat.div_lt_iff_lt_mul c.pagesPerBlock_pos]
  exact h

theorem mem_blocksFrom {start b : ℕ} (hb : b < c.numBlocks) : b ∈ blocksFrom c start := by
  rw [blocksFrom, List.mem_append, List.mem_range'_1, List.mem_range]
  omega

theorem lt_of_mem_blocksFrom {start b : ℕ} (hstart : start < c.numBlocks ∨ start = 0)
    (hb : b ∈ blocksFrom c start) : b < c.numBlocks := by
  rw [blocksFrom, List.mem_append, List.mem_range'_1, List.mem_range] at hb
  omega

/-! ## The invariant -/

/-- The first `k` pages of the block are valid and the others erased. -/
def Filled (c : Config) (s : Device) (b k : ℕ) : Prop :=
  ∀ i < c.pagesPerBlock, s.state (b * c.pagesPerBlock + i) = if i < k then .valid else .erased

def Raw (c : Config) (s : Device) (b : ℕ) : Prop :=
  ∀ i < c.pagesPerBlock, s.state (b * c.pagesPerBlock + i) = .invalid ∧
    s.reverseMap (b * c.pagesPerBlock + i) = none

/-- A block the cursor is not in: never used, erased, or full. -/
def Settled (c : Config) (s : Device) (b : ℕ) : Prop :=
  Raw c s b ∨ Filled c s b 0 ∨ Filled c s b c.pagesPerBlock

/-- Every page programmed so far was erased at that moment. -/
def Disciplined (s : Device) : Prop :=
  ∀ page before, Event.program page before ∈ s.history → before = .erased

structure LogInv (c : Config) (s : Device) : Prop where
  blocks : ∀ b < c.numBlocks, Settled c s b ∨ s.currentBlock = b ∧ s.currentPage ≠ none
  cursor : ∀ page, s.currentPage = some page → s.currentBlock < c.numBlocks ∧
    ∃ k, 0 < k ∧ k < c.pagesPerBlock ∧ page = s.currentBlock * c.pagesPerBlock + k ∧
      Filled c s s.currentBlock k
  used : ∀ b < c.numBlocks,
    s.gcUsedBlocks b = if s.state (b * c.pagesPerBlock) = .valid then 1 else 0
  logical : ∀ page l, s.reverseMap page = some l → l < c.numLogicalPages
  current : s.currentBlock < c.numBlocks ∨ s.currentBlock = 0
  collector : s.gcCurrentBlock < c.numBlocks ∨ s.gcCurrentBlock = 0
  disciplined : Disciplined s

theorem Filled.first {b k : ℕ} (h : Filled c s b k) :
    s.state (b * c.pagesPerBlock) = if 0 < k then .valid else .erased :=
  h 0 c.pagesPerBlock_pos

theorem Raw.first {b : ℕ} (h : Raw c s b) : s.state (b * c.pagesPerBlock) = .invalid :=
  (h 0 c.pagesPerBlock_pos).1

theorem Filled.congr {b k : ℕ} (h : Filled c s b k)
    (heq : ∀ i < c.pagesPerBlock, s'.state (b * c.pagesPerBlock + i) =
      s.state (b * c.pagesPerBlock + i)) : Filled c s' b k :=
  fun i hi => (heq i hi).trans (h i hi)

theorem Settled.congr {b : ℕ} (h : Settled c s b)
    (hstate : ∀ i < c.pagesPerBlock, s'.state (b * c.pagesPerBlock + i) =
      s.state (b * c.pagesPerBlock + i))
    (hreverse : ∀ i < c.pagesPerBlock, s'.reverseMap (b * c.pagesPerBlock + i) =
      s.reverseMap (b * c.pagesPerBlock + i)) : Settled c s' b := by
  rcases h with h | h | h
  · refine Or.inl fun i hi => ?_
    rw [hstate i hi, hreverse i hi]
    exact h i hi
  · exact Or.inr (Or.inl (h.congr hstate))
  · exact Or.inr (Or.inr (h.congr hstate))

theorem Settled.full {b : ℕ} (h : Settled c s b)
    (hvalid : s.state (b * c.pagesPerBlock) = .valid) : Filled c s b c.pagesPerBlock := by
  rcases h with h | h | h
  · rw [h.first] at hvalid
    cases hvalid
  · rw [h.first] at hvalid
    simp at hvalid
  · exact h

theorem init_logInv : LogInv c Device.init where
  blocks := fun _ _ => Or.inl (Or.inl fun _ _ => ⟨rfl, rfl⟩)
  cursor := by
    intro page h
    cases h
  used := fun _ _ => rfl
  logical := by
    intro page l h
    cases h
  current := Or.inr rfl
  collector := Or.inr rfl
  disciplined := by
    intro page before h
    cases h

/-! ## Finding the next page -/

/-- The maps, the history and the content of the valid pages are the same. -/
structure SameStore (s s' : Device) : Prop where
  forward : s'.forwardMap = s.forwardMap
  reverse : s'.reverseMap = s.reverseMap
  history : s'.history = s.history
  collector : s'.gcCurrentBlock = s.gcCurrentBlock
  valid : ∀ page, s'.state page = .valid ↔ s.state page = .valid
  data : ∀ page, s.state page = .valid → s'.data page = s.data page

theorem SameStore.refl (s : Device) : SameStore s s :=
  ⟨rfl, rfl, rfl, rfl, fun _ => Iff.rfl, fun _ _ => rfl⟩

/-- The cursor is on an erased page, and every other block is settled. -/
structure WriteReady (c : Config) (s : Device) (page : ℕ) : Prop where
  cursor : s.currentPage = some page
  current : s.currentBlock < c.numBlocks
  fill : ∃ k < c.pagesPerBlock, page = s.currentBlock * c.pagesPerBlock + k ∧
    Filled c s s.currentBlock k
  blocks : ∀ b < c.numBlocks, b ≠ s.currentBlock → Settled c s b
  used : ∀ b < c.numBlocks, b ≠ s.currentBlock →
    s.gcUsedBlocks b = if s.state (b * c.pagesPerBlock) = .valid then 1 else 0
  used_current : s.gcUsedBlocks s.currentBlock = 1

theorem state_physicalErase_of_ne {b b' i : ℕ} (hne : b' ≠ b) (hi : i < c.pagesPerBlock) :
    (physicalErase c s b).state (b' * c.pagesPerBlock + i) =
      s.state (b' * c.pagesPerBlock + i) := by
  have hmem : b' * c.pagesPerBlock + i ∉ pagesOf c b := by
    rw [mem_pagesOf_iff_div, page_div hi]
    exact hne
  simp [physicalErase, hmem]

theorem filled_physicalErase (b : ℕ) : Filled c (physicalErase c s b) b 0 := by
  intro i hi
  have hmem : b * c.pagesPerBlock + i ∈ pagesOf c b := mem_pagesOf.mpr ⟨i, hi, rfl⟩
  simp [physicalErase, hmem]

theorem sameStore_physicalErase {b : ℕ}
    (h : ∀ i < c.pagesPerBlock, s.state (b * c.pagesPerBlock + i) ≠ .valid) :
    SameStore s (physicalErase c s b) := by
  refine ⟨rfl, rfl, rfl, rfl, fun page => ?_, fun page hvalid => ?_⟩
  · by_cases hmem : page ∈ pagesOf c b
    · obtain ⟨i, hi, rfl⟩ := mem_pagesOf.mp hmem
      simp [physicalErase, hmem, h i hi]
    · simp [physicalErase, hmem]
  · have hmem : page ∉ pagesOf c b := by
      intro hmem
      obtain ⟨i, hi, rfl⟩ := mem_pagesOf.mp hmem
      exact h i hi hvalid
    simp [physicalErase, hmem]

theorem isBlockFree_spec (hinv : LogInv c s) (hcursor : s.currentPage = none) {b : ℕ}
    (hb : b < c.numBlocks) :
    isBlockFree c s b = (s, false) ∧ s.state (b * c.pagesPerBlock) = .valid ∨
      ∃ s' page, isBlockFree c s b = (s', true) ∧ WriteReady c s' page ∧ SameStore s s' ∧
        s.state (s'.currentBlock * c.pagesPerBlock) ≠ .valid := by
  have hsettled : ∀ b < c.numBlocks, Settled c s b := by
    intro b hb
    rcases hinv.blocks b hb with h | ⟨-, h⟩
    · exact h
    · exact (h hcursor).elim
  rcases hsettled b hb with hraw | herased | hfull
  · right
    have hnot : ∀ i < c.pagesPerBlock, s.state (b * c.pagesPerBlock + i) ≠ .valid := by
      intro i hi
      rw [(hraw i hi).1]
      simp
    refine ⟨enterBlock c (physicalErase c s b) b, b * c.pagesPerBlock,
      by simp [isBlockFree, hraw.first], ?_, ?_, ?_⟩
    · refine ⟨rfl, hb, ⟨0, c.pagesPerBlock_pos, rfl, ?_⟩, ?_, ?_, ?_⟩
      · exact (filled_physicalErase b).congr fun _ _ => rfl
      · intro b' hb' hne
        exact (hsettled b' hb').congr (fun i hi => state_physicalErase_of_ne hne hi)
          fun _ _ => rfl
      · intro b' hb' hne
        replace hne : b' ≠ b := hne
        have hused : (enterBlock c (physicalErase c s b) b).gcUsedBlocks b' =
            s.gcUsedBlocks b' := by
          simp [enterBlock, physicalErase, Function.update_of_ne hne]
        have hstate : (physicalErase c s b).state (b' * c.pagesPerBlock) =
            s.state (b' * c.pagesPerBlock) :=
          state_physicalErase_of_ne hne c.pagesPerBlock_pos
        rw [hused, hinv.used b' hb', ← hstate]
        rfl
      · simp [enterBlock]
    · have h := sameStore_physicalErase hnot
      exact ⟨h.forward, h.reverse, h.history, h.collector, h.valid, h.data⟩
    · simp [enterBlock, hraw.first]
  · right
    refine ⟨enterBlock c s b, b * c.pagesPerBlock, by simp [isBlockFree, herased.first], ?_, ?_, ?_⟩
    · refine ⟨rfl, hb, ⟨0, c.pagesPerBlock_pos, rfl, herased⟩, ?_, ?_, ?_⟩
      · intro b' hb' _
        exact hsettled b' hb'
      · intro b' hb' hne
        replace hne : b' ≠ b := hne
        have hused : (enterBlock c s b).gcUsedBlocks b' = s.gcUsedBlocks b' :=
          Function.update_of_ne hne _ _
        rw [hused]
        exact hinv.used b' hb'
      · simp [enterBlock]
    · exact ⟨rfl, rfl, rfl, rfl, fun _ => Iff.rfl, fun _ _ => rfl⟩
    · simp [enterBlock, herased.first]
  · left
    have hvalid : s.state (b * c.pagesPerBlock) = .valid := by
      rw [hfull.first, if_pos c.pagesPerBlock_pos]
    exact ⟨by simp [isBlockFree, hvalid], hvalid⟩

theorem findFree_spec (hinv : LogInv c s) (hcursor : s.currentPage = none) :
    ∀ blocks : List ℕ, (∀ b ∈ blocks, b < c.numBlocks) →
      findFree c s blocks = (s, -1) ∧ (∀ b ∈ blocks, s.state (b * c.pagesPerBlock) = .valid) ∨
        ∃ s' page, findFree c s blocks = (s', 0) ∧ WriteReady c s' page ∧ SameStore s s' ∧
          s.state (s'.currentBlock * c.pagesPerBlock) ≠ .valid
  | [], _ => Or.inl ⟨rfl, by simp⟩
  | b :: rest, hlt => by
      rcases isBlockFree_spec hinv hcursor (hlt b (by simp)) with ⟨hfree, hvalid⟩ | hfree
      · rcases findFree_spec hinv hcursor rest
          (fun b' hb' => hlt b' (by simp [hb'])) with ⟨hnone, hall⟩ | hsome
        · exact Or.inl ⟨by simp [findFree, hfree, hnone], by simpa [hvalid] using hall⟩
        · obtain ⟨s', page, hfind, hready⟩ := hsome
          exact Or.inr ⟨s', page, by simp [findFree, hfree, hfind], hready⟩
      · obtain ⟨s', page, hfree, hready⟩ := hfree
        exact Or.inr ⟨s', page, by simp [findFree, hfree], hready⟩

def NoRoom (c : Config) (s : Device) : Prop :=
  s.currentPage = none ∧ ∀ b < c.numBlocks, s.state (b * c.pagesPerBlock) = .valid

/-- `get_cursor` fails exactly on a device without room. -/
theorem getCursor_spec (hinv : LogInv c s) :
    getCursor c s = (s, -1) ∧ NoRoom c s ∨
      ∃ s' page, getCursor c s = (s', 0) ∧ WriteReady c s' page ∧ SameStore s s' ∧
        (s'.currentBlock = s.currentBlock ∨
          s.state (s'.currentBlock * c.pagesPerBlock) ≠ .valid) := by
  cases hcursor : s.currentPage with
  | none =>
      rcases findFree_spec hinv hcursor (blocksFrom c s.currentBlock)
        (fun b hb => lt_of_mem_blocksFrom hinv.current hb) with ⟨hnone, hall⟩ | hsome
      · exact Or.inl ⟨by simp [getCursor, hcursor, hnone], hcursor,
          fun b hb => hall b (mem_blocksFrom hb)⟩
      · obtain ⟨s', page, hfind, hready, hsame, hnew⟩ := hsome
        exact Or.inr ⟨s', page, by simp [getCursor, hcursor, hfind], hready, hsame,
          Or.inr hnew⟩
  | some page =>
      obtain ⟨hcurrent, k, hk, hkn, hpage, hfill⟩ := hinv.cursor page hcursor
      refine Or.inr ⟨s, page, by simp [getCursor, hcursor], ?_, SameStore.refl s, Or.inl rfl⟩
      refine ⟨hcursor, hcurrent, ⟨k, hkn, hpage, hfill⟩, ?_, ?_, ?_⟩
      · intro b hb hne
        rcases hinv.blocks b hb with h | ⟨h, -⟩
        · exact h
        · exact (hne h.symm).elim
      · intro b hb _
        exact hinv.used b hb
      · rw [hinv.used _ hcurrent, hfill.first]
        simp [hk]

/-! ## Appending a page -/

/-- The page was not valid and now holds the data of logical page `l`; every
other valid page is as before. -/
structure Appended (c : Config) (s s' : Device) (l : ℕ) (d : String) (page : ℕ) : Prop where
  page_lt : page < c.numPages
  fresh : s.state page ≠ .valid
  state_page : s'.state page = .valid
  data_page : s'.data page = d
  valid : ∀ q, q ≠ page → (s'.state q = .valid ↔ s.state q = .valid)
  data : ∀ q, q ≠ page → s.state q = .valid → s'.data q = s.data q
  forward : s'.forwardMap = Function.update s.forwardMap l (some page)
  reverse : s'.reverseMap = Function.update s.reverseMap page (some l)
  history : s'.history = .program page .erased :: s.history
  current : s'.currentBlock = s.currentBlock ∨
    s.state (s'.currentBlock * c.pagesPerBlock) ≠ .valid

def programAt (c : Config) (s : Device) (l : ℕ) (d : String) (page : ℕ) : Device :=
  updateCursor c ((physicalProgram s page d).setMaps l page)

theorem next_page_mod {b k : ℕ} (hk : k < c.pagesPerBlock) :
    (b * c.pagesPerBlock + k + 1) % c.pagesPerBlock = 0 ↔ k + 1 = c.pagesPerBlock := by
  have hmod : (b * c.pagesPerBlock + k + 1) % c.pagesPerBlock = (k + 1) % c.pagesPerBlock := by
    rw [Nat.add_assoc, Nat.mul_comm, Nat.mul_add_mod]
  rw [hmod]
  constructor
  · intro h
    by_contra hne
    rw [Nat.mod_eq_of_lt (by omega)] at h
    omega
  · intro h
    rw [h, Nat.mod_self]

theorem currentPage_programAt {page b k : ℕ} {l : ℕ} {d : String}
    (hcursor : s.currentPage = some page) (hpage : page = b * c.pagesPerBlock + k)
    (hk : k < c.pagesPerBlock) :
    (programAt c s l d page).currentPage =
      if k + 1 = c.pagesPerBlock then none else some (b * c.pagesPerBlock + (k + 1)) := by
  have hnext : (programAt c s l d page).currentPage =
      if (page + 1) % c.pagesPerBlock = 0 then none else some (page + 1) := by
    simp [programAt, updateCursor, Device.setMaps, physicalProgram, hcursor]
  rw [hnext, hpage]
  by_cases hlast : k + 1 = c.pagesPerBlock
  · rw [if_pos ((next_page_mod hk).mpr hlast), if_pos hlast]
  · rw [if_neg (fun h => hlast ((next_page_mod hk).mp h)), if_neg hlast, Nat.add_assoc]

theorem filled_programAt {b k l : ℕ} {d : String} (hfill : Filled c s b k)
    (hk : k < c.pagesPerBlock) :
    Filled c (programAt c s l d (b * c.pagesPerBlock + k)) b (k + 1) := by
  intro i hi
  have hstate : (programAt c s l d (b * c.pagesPerBlock + k)).state =
      Function.update s.state (b * c.pagesPerBlock + k) .valid := rfl
  rw [hstate]
  by_cases hik : i = k
  · subst hik
    simp
  · have hne : b * c.pagesPerBlock + i ≠ b * c.pagesPerBlock + k := by omega
    rw [Function.update_of_ne hne, hfill i hi]
    by_cases hlt : i < k
    · rw [if_pos hlt, if_pos (by omega)]
    · rw [if_neg hlt, if_neg (by omega)]

theorem logInv_programAt {page l : ℕ} {d : String} (hready : WriteReady c s page)
    (hlogical : ∀ page l, s.reverseMap page = some l → l < c.numLogicalPages)
    (hcollector : s.gcCurrentBlock < c.numBlocks ∨ s.gcCurrentBlock = 0)
    (hdisc : Disciplined s) (hl : l < c.numLogicalPages) :
    LogInv c (programAt c s l d page) := by
  obtain ⟨k, hk, hpage, hfill⟩ := hready.fill
  have hcursor := currentPage_programAt (l := l) (d := d) hready.cursor hpage hk
  have hfill' : Filled c (programAt c s l d page) s.currentBlock (k + 1) := by
    rw [hpage]
    exact filled_programAt hfill hk
  have hother : ∀ b, b ≠ s.currentBlock → ∀ i < c.pagesPerBlock,
      b * c.pagesPerBlock + i ≠ page := by
    intro b hne i hi heq
    exact hne (page_inj hi hk (heq.trans hpage)).1
  have herased : s.state page = .erased := by
    rw [hpage, hfill k hk, if_neg (lt_irrefl k)]
  refine ⟨?_, ?_, ?_, ?_, Or.inl hready.current, hcollector, ?_⟩
  · intro b hb
    by_cases hbc : b = s.currentBlock
    · subst hbc
      by_cases hlast : k + 1 = c.pagesPerBlock
      · exact Or.inl (Or.inr (Or.inr (hlast ▸ hfill')))
      · refine Or.inr ⟨rfl, ?_⟩
        rw [hcursor, if_neg hlast]
        simp
    · refine Or.inl ((hready.blocks b hb hbc).congr (fun i hi => ?_) fun i hi => ?_)
      · exact Function.update_of_ne (hother b hbc i hi) _ _
      · exact Function.update_of_ne (hother b hbc i hi) _ _
  · intro next hnext
    rw [hcursor] at hnext
    by_cases hlast : k + 1 = c.pagesPerBlock
    · simp [hlast] at hnext
    · rw [if_neg hlast, Option.some_inj] at hnext
      exact ⟨hready.current, k + 1, by omega, by omega, hnext.symm, hfill'⟩
  · intro b hb
    by_cases hbc : b = s.currentBlock
    · subst hbc
      rw [hfill'.first, if_pos (Nat.succ_pos k), if_pos rfl]
      exact hready.used_current
    · have hstate : (programAt c s l d page).state (b * c.pagesPerBlock) =
          s.state (b * c.pagesPerBlock) :=
        Function.update_of_ne (hother b hbc 0 c.pagesPerBlock_pos) _ _
      rw [hstate]
      exact hready.used b hb hbc
  · intro q l' hq
    by_cases hqp : q = page
    · subst hqp
      have : some l = some l' := by
        rw [← hq]
        exact (Function.update_self q (some l) s.reverseMap).symm
      rw [← Option.some_inj.mp this]
      exact hl
    · have hold : (programAt c s l d page).reverseMap q = s.reverseMap q :=
        Function.update_of_ne hqp _ _
      exact hlogical q l' (hold.symm.trans hq)
  · intro q before hmem
    have hmem : Event.program q before ∈ Event.program page (s.state page) :: s.history := hmem
    rcases List.mem_cons.mp hmem with heq | hmem
    · injection heq with _ hbefore
      rw [hbefore, herased]
    · exact hdisc q before hmem

theorem appended_programAt {t : Device} {page l : ℕ} {d : String} (hready : WriteReady c t page)
    (hsame : SameStore s t)
    (hcurrent : t.currentBlock = s.currentBlock ∨
      s.state (t.currentBlock * c.pagesPerBlock) ≠ .valid) :
    Appended c s (programAt c t l d page) l d page := by
  obtain ⟨k, hk, hpage, hfill⟩ := hready.fill
  have herased : t.state page = .erased := by
    rw [hpage, hfill k hk, if_neg (lt_irrefl k)]
  refine ⟨?_, ?_, ?_, ?_, ?_, ?_, ?_, ?_, ?_, hcurrent⟩
  · rw [hpage]
    exact page_lt_numPages hready.current hk
  · intro h
    rw [(hsame.valid page).mpr h] at herased
    cases herased
  · exact Function.update_self page _ t.state
  · exact Function.update_self page d t.data
  · intro q hq
    rw [← hsame.valid q]
    exact Iff.of_eq (congrArg (· = PageState.valid) (Function.update_of_ne hq _ t.state))
  · intro q hq hvalid
    exact (Function.update_of_ne hq d t.data).trans (hsame.data q hvalid)
  · rw [← hsame.forward]
    rfl
  · rw [← hsame.reverse]
    rfl
  · rw [← hsame.history, ← herased]
    rfl

/-- A write to the log is refused on a device without room, and appends a page
otherwise. The assertion on the cursor holds. -/
theorem writeLogging_spec (hinv : LogInv c s) {l : ℕ} (hl : l < c.numLogicalPages) (d : String) :
    NoRoom c s ∧ writeLogging c s l d =
        some ({ s with history := .deviceFull :: s.history }, "failure: device full") ∨
      ∃ s' page, writeLogging c s l d = some (s', "success") ∧ LogInv c s' ∧
        Appended c s s' l d page := by
  rcases getCursor_spec hinv with ⟨hcursor, hroom⟩ | ⟨t, page, hcursor, hready, hsame, hcurrent⟩
  · exact Or.inl ⟨hroom, by simp [writeLogging, hcursor]⟩
  · have herased : t.state page = .erased := by
      obtain ⟨k, hk, hpage, hfill⟩ := hready.fill
      rw [hpage, hfill k hk, if_neg (lt_irrefl k)]
    refine Or.inr ⟨programAt c t l d page, page, ?_, ?_, ?_⟩
    · simp [writeLogging, hcursor, hready.cursor, herased, programAt]
    · refine logInv_programAt hready ?_ ?_ ?_ hl
      · rw [hsame.reverse]
        exact hinv.logical
      · rw [hsame.collector]
        exact hinv.collector
      · intro q before hmem
        rw [hsame.history] at hmem
        exact hinv.disciplined q before hmem
    · exact appended_programAt hready hsame hcurrent

theorem LogInv.deviceFull (hinv : LogInv c s) :
    LogInv c { s with history := .deviceFull :: s.history } where
  blocks := hinv.blocks
  cursor := hinv.cursor
  used := hinv.used
  logical := hinv.logical
  current := hinv.current
  collector := hinv.collector
  disciplined := by
    intro q before hmem
    rcases List.mem_cons.mp hmem with heq | hmem
    · cases heq
    · exact hinv.disciplined q before hmem

end OsLabs.Ssd
