import Mathlib
import OsLabs.Ssd.LogWrite

/-!
# Garbage collection on the log

One pass of the collector keeps the invariant of the log. It keeps the mapped
data as well, as long as every copy it makes finds room; the number of free
pages before the pass decides that.
-/

namespace OsLabs.Ssd

variable {c : Config} {s s' : Device}

def content (s : Device) (l : ℕ) : Option String := (s.forwardMap l).map s.data

/-- Each mapped logical page owns the valid page it is mapped to. -/
def MapInv (c : Config) (s : Device) : Prop :=
  ∀ l page, s.forwardMap l = some page →
    page < c.numPages ∧ s.state page = .valid ∧ s.reverseMap page = some l

def fullCount (s : Device) : ℕ := s.history.count .deviceFull

def freePages (c : Config) (s : Device) : ℕ :=
  ((Finset.range c.numPages).filter fun page => s.state page ≠ .valid).card

/-! ## Appending -/

theorem Appended.state_of_valid {l page q : ℕ} {d : String} (h : Appended c s s' l d page)
    (hq : s.state q = .valid) : q ≠ page ∧ s'.state q = .valid := by
  have hne : q ≠ page := fun heq => h.fresh (heq ▸ hq)
  exact ⟨hne, (h.valid q hne).mpr hq⟩

theorem Appended.fullCount_eq {l page : ℕ} {d : String} (h : Appended c s s' l d page) :
    fullCount s' = fullCount s := by
  simp [fullCount, h.history]

theorem Appended.freePages_eq {l page : ℕ} {d : String} (h : Appended c s s' l d page) :
    freePages c s' + 1 = freePages c s := by
  have herase : ((Finset.range c.numPages).filter fun q => s'.state q ≠ .valid) =
      ((Finset.range c.numPages).filter fun q => s.state q ≠ .valid).erase page := by
    ext q
    rw [Finset.mem_erase, Finset.mem_filter, Finset.mem_filter]
    by_cases hq : q = page
    · simp [hq, h.state_page]
    · simp [hq, h.valid q hq]
  have hmem : page ∈ (Finset.range c.numPages).filter fun q => s.state q ≠ .valid := by
    rw [Finset.mem_filter, Finset.mem_range]
    exact ⟨h.page_lt, h.fresh⟩
  rw [freePages, herase]
  exact Finset.card_erase_add_one hmem

theorem Appended.mapInv {l page : ℕ} {d : String} (h : Appended c s s' l d page)
    (hmap : MapInv c s) : MapInv c s' := by
  intro l' q hq
  rw [h.forward] at hq
  by_cases hl : l' = l
  · subst hl
    rw [Function.update_self, Option.some_inj] at hq
    subst hq
    exact ⟨h.page_lt, h.state_page, by rw [h.reverse, Function.update_self]⟩
  · rw [Function.update_of_ne hl] at hq
    obtain ⟨hlt, hvalid, hreverse⟩ := hmap l' q hq
    obtain ⟨hne, hvalid'⟩ := h.state_of_valid hvalid
    exact ⟨hlt, hvalid', by rw [h.reverse, Function.update_of_ne hne, hreverse]⟩

theorem Appended.content_eq {l page : ℕ} {d : String} (h : Appended c s s' l d page)
    (hmap : MapInv c s) : content s' = Function.update (content s) l (some d) := by
  funext l'
  by_cases hl : l' = l
  · subst hl
    simp [content, h.forward, h.data_page]
  · rw [Function.update_of_ne hl]
    unfold content
    rw [h.forward, Function.update_of_ne hl]
    cases hq : s.forwardMap l' with
    | none => rfl
    | some q =>
        have hvalid := (hmap l' q hq).2.1
        simp [h.data q (h.state_of_valid hvalid).1 hvalid]

theorem NoRoom.freePages_eq_zero (hinv : LogInv c s) (h : NoRoom c s) : freePages c s = 0 := by
  rw [freePages, Finset.card_eq_zero, Finset.filter_eq_empty_iff]
  intro page hpage
  rw [Finset.mem_range] at hpage
  have hb := blockOf_lt hpage
  have hfull : Filled c s (page / c.pagesPerBlock) c.pagesPerBlock := by
    rcases hinv.blocks _ hb with hsettled | ⟨-, hcursor⟩
    · exact hsettled.full (h.2 _ hb)
    · exact (hcursor h.1).elim
  have hmod := Nat.mod_lt page c.pagesPerBlock_pos
  rw [page_split (c := c) page, hfull _ hmod, if_pos hmod]
  simp

/-! ## The write command on a log -/

inductive LogWrite (c : Config) (s s' : Device) (address : ℤ) (d : String) : String → Prop
  | illegal (out : address < 0 ∨ c.numLogicalPages ≤ address) (same : s' = s) :
      LogWrite c s s' address d "fail: illegal write address"
  | full (inRange : ¬(address < 0 ∨ c.numLogicalPages ≤ address)) (room : NoRoom c s)
      (same : s' = { s with history := .deviceFull :: s.history }) :
      LogWrite c s s' address d "failure: device full"
  | appended (inRange : ¬(address < 0 ∨ c.numLogicalPages ≤ address)) (page : ℕ)
      (page_written : Appended c s s' address.toNat d page) :
      LogWrite c s s' address d "success"

theorem write_logging (hmode : c.ssdType = .logging) (hinv : LogInv c s) (address : ℤ)
    (d : String) :
    ∃ s' r, write c s address d = some (s', r) ∧ LogInv c s' ∧ LogWrite c s s' address d r := by
  by_cases hrange : address < 0 ∨ c.numLogicalPages ≤ address
  · exact ⟨s, _, by simp [write, hrange], hinv, .illegal hrange rfl⟩
  · have hl : address.toNat < c.numLogicalPages := by omega
    rcases writeLogging_spec hinv hl d with ⟨hroom, hwrite⟩ | ⟨s', page, hwrite, hinv', happ⟩
    · exact ⟨_, _, by simp [write, hrange, hmode, hwrite], hinv.deviceFull,
        .full hrange hroom rfl⟩
    · exact ⟨s', _, by simp [write, hrange, hmode, hwrite], hinv', .appended hrange page happ⟩

theorem LogWrite.fullCount_le {address : ℤ} {d r : String} (h : LogWrite c s s' address d r) :
    fullCount s ≤ fullCount s' := by
  cases h with
  | illegal _ same => rw [same]
  | full _ _ same => simp [same, fullCount]
  | appended _ page happ => rw [happ.fullCount_eq]

def Kept (c : Config) (s : Device) (b : ℕ) : Prop :=
  (∀ i < c.pagesPerBlock, s.state (b * c.pagesPerBlock + i) = .valid) ∧ b ≠ s.currentBlock

theorem LogWrite.kept {address : ℤ} {d r : String} (h : LogWrite c s s' address d r) {b : ℕ}
    (hb : Kept c s b) : Kept c s' b := by
  cases h with
  | illegal _ same => exact same ▸ hb
  | full _ _ same =>
      subst same
      exact hb
  | appended _ page happ =>
      refine ⟨fun i hi => (happ.state_of_valid (hb.1 i hi)).2, fun heq => ?_⟩
      rcases happ.current with hsame | hnew
      · exact hb.2 (heq.trans hsame)
      · exact hnew (heq ▸ hb.1 0 c.pagesPerBlock_pos)

/-! ## Copying the live pages of a block -/

def liveAddress (s : Device) (page : ℕ) : ℤ :=
  match s.reverseMap page with
  | none => -1
  | some logicalPage => logicalPage

theorem copyLive_cons (page : ℕ) (rest : List ℕ) :
    copyLive c s (page :: rest) =
      (write c s (liveAddress s page) (physicalRead s page)).bind fun r => copyLive c r.1 rest :=
  rfl

theorem isLive_iff {page : ℕ} :
    isLive s page = true ↔ ∃ l, s.reverseMap page = some l ∧ s.forwardMap l = some page := by
  unfold isLive
  cases s.reverseMap page <;> simp

/-- The log invariant survives the copies, and so does a full block. -/
theorem copyLive_inv (hmode : c.ssdType = .logging) (hinv : LogInv c s) (pages : List ℕ) :
    ∃ s', copyLive c s pages = some s' ∧ LogInv c s' ∧ fullCount s ≤ fullCount s' ∧
      ∀ b, Kept c s b → Kept c s' b := by
  induction pages generalizing s with
  | nil => exact ⟨s, rfl, hinv, le_rfl, fun _ h => h⟩
  | cons page rest ih =>
      obtain ⟨t, r, hwrite, hinvt, hcase⟩ :=
        write_logging hmode hinv (liveAddress s page) (physicalRead s page)
      obtain ⟨s', hcopy, hinv', hle, hkept⟩ := ih hinvt
      refine ⟨s', by simp [copyLive_cons, hwrite, hcopy], hinv', hcase.fullCount_le.trans hle, ?_⟩
      exact fun b hb => hkept b (hcase.kept hb)

/-- Copies that all find room move each live page and keep every content. -/
theorem copyLive_content (hmode : c.ssdType = .logging) (hinv : LogInv c s) (hmap : MapInv c s)
    {pages : List ℕ} (hnodup : pages.Nodup) (hlive : ∀ page ∈ pages, isLive s page = true)
    (hcopy : copyLive c s pages = some s') (hfull : fullCount s' = fullCount s) :
    MapInv c s' ∧ content s' = content s ∧
      ∀ l q, s'.forwardMap l = some q →
        s.forwardMap l = some q ∧ q ∉ pages ∨ s.state q ≠ .valid := by
  induction pages generalizing s with
  | nil =>
      obtain rfl : s = s' := by simpa [copyLive] using hcopy
      exact ⟨hmap, rfl, fun l q hq => Or.inl ⟨hq, by simp⟩⟩
  | cons page rest ih =>
      obtain ⟨l, hreverse, hforward⟩ := isLive_iff.mp (hlive page (by simp))
      have hvalid := (hmap l page hforward).2.1
      obtain ⟨t, r, hwrite, hinvt, hcase⟩ :=
        write_logging hmode hinv (liveAddress s page) (physicalRead s page)
      have haddr : liveAddress s page = l := by simp [liveAddress, hreverse]
      obtain ⟨_, hrest, _, hle, -⟩ := copyLive_inv hmode hinvt rest
      rw [copyLive_cons, hwrite, Option.bind_some] at hcopy
      obtain rfl : s' = _ := Option.some_inj.mp (hcopy.symm.trans hrest)
      -- the write itself must have found room
      obtain ⟨new, happ⟩ : ∃ new, Appended c s t l (physicalRead s page) new := by
        cases hcase with
        | illegal out _ =>
            have := hinv.logical page l hreverse
            omega
        | full _ _ same =>
            have hcount : fullCount t = fullCount s + 1 := by simp [same, fullCount]
            omega
        | appended _ new happ => exact ⟨new, by simpa [haddr] using happ⟩
      have hnew : ∀ q, s.state q = .valid → q ≠ new := fun q hq =>
        (happ.state_of_valid hq).1
      have hlive' : ∀ q ∈ rest, isLive t q = true := by
        intro q hq
        obtain ⟨l', hreverse', hforward'⟩ := isLive_iff.mp (hlive q (by simp [hq]))
        have hl' : l' ≠ l := by
          rintro rfl
          have : page = q := Option.some_inj.mp (hforward.symm.trans hforward')
          exact (List.nodup_cons.mp hnodup).1 (this ▸ hq)
        have hq' := (hmap l' q hforward').2.1
        refine isLive_iff.mpr ⟨l', ?_, ?_⟩
        · rw [happ.reverse, Function.update_of_ne (hnew q hq'), hreverse']
        · rw [happ.forward, Function.update_of_ne hl', hforward']
      obtain ⟨hmap', hcontent, hmoved⟩ := ih hinvt (happ.mapInv hmap)
        (List.nodup_cons.mp hnodup).2 hlive' hcopy (by rw [hfull, happ.fullCount_eq])
      refine ⟨hmap', ?_, fun l' q hq => ?_⟩
      · rw [hcontent, happ.content_eq hmap]
        have hsame : some (physicalRead s page) = content s l := by
          simp [content, hforward, physicalRead]
        rw [hsame, Function.update_eq_self]
      · rcases hmoved l' q hq with ⟨hq, hnot⟩ | hq
        · rw [happ.forward] at hq
          by_cases hl : l' = l
          · subst hl
            rw [Function.update_self, Option.some_inj] at hq
            exact Or.inr (hq ▸ happ.fresh)
          · rw [Function.update_of_ne hl] at hq
            refine Or.inl ⟨hq, ?_⟩
            rw [List.mem_cons, not_or]
            refine ⟨?_, hnot⟩
            rintro rfl
            have h1 := (hmap l' q hq).2.2
            rw [hreverse, Option.some_inj] at h1
            exact hl h1.symm
        · exact Or.inr fun h => hq (happ.state_of_valid h).2

theorem copyLive_room (hmode : c.ssdType = .logging) (hinv : LogInv c s) {pages : List ℕ}
    (hroom : pages.length ≤ freePages c s) (hcopy : copyLive c s pages = some s') :
    fullCount s' = fullCount s := by
  induction pages generalizing s with
  | nil =>
      obtain rfl : s = s' := by simpa [copyLive] using hcopy
      rfl
  | cons page rest ih =>
      obtain ⟨t, r, hwrite, hinvt, hcase⟩ :=
        write_logging hmode hinv (liveAddress s page) (physicalRead s page)
      rw [copyLive_cons, hwrite, Option.bind_some] at hcopy
      rw [List.length_cons] at hroom
      cases hcase with
      | illegal _ same => exact same ▸ ih hinvt (by rw [same]; omega) hcopy
      | full _ room _ =>
          have := room.freePages_eq_zero hinv
          omega
      | appended _ new happ =>
          have := happ.freePages_eq
          rw [ih hinvt (by omega) hcopy, happ.fullCount_eq]

theorem copyLive_noRoom (hmode : c.ssdType = .logging) (hinv : LogInv c s) {pages : List ℕ}
    (hpages : ∀ page ∈ pages, s.state page = .valid ∧ ∃ l, s.reverseMap page = some l)
    (hroom : freePages c s < pages.length) (hcopy : copyLive c s pages = some s') :
    fullCount s < fullCount s' := by
  induction pages generalizing s with
  | nil => simp at hroom
  | cons page rest ih =>
      obtain ⟨t, r, hwrite, hinvt, hcase⟩ :=
        write_logging hmode hinv (liveAddress s page) (physicalRead s page)
      obtain ⟨_, hrest, _, hle, -⟩ := copyLive_inv hmode hinvt rest
      rw [copyLive_cons, hwrite, Option.bind_some] at hcopy
      obtain rfl : s' = _ := Option.some_inj.mp (hcopy.symm.trans hrest)
      rw [List.length_cons] at hroom
      obtain ⟨-, l, hreverse⟩ := hpages page (by simp)
      have hl := hinv.logical page l hreverse
      have haddr : liveAddress s page = l := by simp [liveAddress, hreverse]
      cases hcase with
      | illegal out _ =>
          rw [haddr] at out
          omega
      | full _ _ same =>
          have hcount : fullCount t = fullCount s + 1 := by simp [same, fullCount]
          omega
      | appended _ new happ =>
          have hfree := happ.freePages_eq
          rw [← happ.fullCount_eq]
          refine ih hinvt (fun q hq => ?_) (by omega) hcopy
          obtain ⟨hvalid, l', hl'⟩ := hpages q (by simp [hq])
          obtain ⟨hne, hvalid'⟩ := happ.state_of_valid hvalid
          exact ⟨hvalid', l', by rw [happ.reverse, Function.update_of_ne hne, hl']⟩

/-! ## Erasing the block -/

theorem LogInv.physicalErase (hinv : LogInv c s) {b : ℕ} (hb : b ≠ s.currentBlock) :
    LogInv c (physicalErase c s b) := by
  refine ⟨?_, ?_, ?_, hinv.logical, hinv.current, hinv.collector, hinv.disciplined⟩
  · intro b' hb'
    by_cases hbb : b' = b
    · subst hbb
      exact Or.inl (Or.inr (Or.inl (filled_physicalErase b')))
    · rcases hinv.blocks b' hb' with h | h
      · exact Or.inl (h.congr (fun i hi => state_physicalErase_of_ne hbb hi) fun _ _ => rfl)
      · exact Or.inr h
  · intro page hpage
    obtain ⟨hlt, k, hk, hkn, heq, hfill⟩ := hinv.cursor page hpage
    exact ⟨hlt, k, hk, hkn, heq,
      hfill.congr fun i hi => state_physicalErase_of_ne (Ne.symm hb) hi⟩
  · intro b' hb'
    by_cases hbb : b' = b
    · subst hbb
      rw [(filled_physicalErase b').first]
      simp [Ssd.physicalErase]
    · have hstate : (Ssd.physicalErase c s b).state (b' * c.pagesPerBlock) =
          s.state (b' * c.pagesPerBlock) := state_physicalErase_of_ne hbb c.pagesPerBlock_pos
      have hused : (Ssd.physicalErase c s b).gcUsedBlocks b' = s.gcUsedBlocks b' :=
        Function.update_of_ne hbb _ _
      rw [hstate, hused]
      exact hinv.used b' hb'

/-- Erasing a block without mapped pages keeps every content. -/
theorem content_physicalErase (hmap : MapInv c s) {b : ℕ}
    (hunmapped : ∀ l page, s.forwardMap l = some page → page ∉ pagesOf c b) :
    MapInv c (physicalErase c s b) ∧ content (physicalErase c s b) = content s := by
  constructor
  · intro l page hpage
    obtain ⟨hlt, hvalid, hreverse⟩ := hmap l page hpage
    exact ⟨hlt, by simpa [physicalErase, hunmapped l page hpage] using hvalid, hreverse⟩
  · funext l
    have hforward : (physicalErase c s b).forwardMap l = s.forwardMap l := rfl
    unfold content
    rw [hforward]
    cases hpage : s.forwardMap l with
    | none => rfl
    | some page => simp [physicalErase, hunmapped l page hpage]

theorem freePages_physicalErase {b : ℕ} (hb : b < c.numBlocks) :
    c.pagesPerBlock ≤ freePages c (physicalErase c s b) := by
  have hsub : (pagesOf c b).toFinset ⊆
      (Finset.range c.numPages).filter fun page => (physicalErase c s b).state page ≠ .valid := by
    intro page hpage
    rw [List.mem_toFinset] at hpage
    obtain ⟨i, hi, rfl⟩ := mem_pagesOf.mp hpage
    rw [Finset.mem_filter, Finset.mem_range]
    refine ⟨page_lt_numPages hb hi, ?_⟩
    simp [physicalErase, hpage]
  have hcard : (pagesOf c b).toFinset.card = c.pagesPerBlock := by
    rw [List.toFinset_card_of_nodup (pagesOf_nodup b), pagesOf_length]
  exact hcard ▸ Finset.card_le_card hsub

/-! ## One collected block -/

structure Collected (c : Config) (s s' : Device) : Prop where
  inv : LogInv c s'
  full_le : fullCount s ≤ fullCount s'
  keeps : MapInv c s → fullCount s' = fullCount s → MapInv c s' ∧ content s' = content s

theorem Collected.refl (hinv : LogInv c s) : Collected c s s :=
  ⟨hinv, le_rfl, fun hmap _ => ⟨hmap, rfl⟩⟩

theorem Collected.trans {t : Device} (h : Collected c s t) (h' : Collected c t s') :
    Collected c s s' := by
  refine ⟨h'.inv, h.full_le.trans h'.full_le, fun hmap hfull => ?_⟩
  have hle := h.full_le
  have hle' := h'.full_le
  obtain ⟨hmapt, hcontent⟩ := h.keeps hmap (by omega)
  obtain ⟨hmap', hcontent'⟩ := h'.keeps hmapt (by omega)
  exact ⟨hmap', hcontent'.trans hcontent⟩

theorem Collected.setCollector (h : Collected c s s') {b : ℕ} (hb : b < c.numBlocks) :
    Collected c s { s' with gcCurrentBlock := b } where
  inv :=
    { blocks := h.inv.blocks
      cursor := h.inv.cursor
      used := h.inv.used
      logical := h.inv.logical
      current := h.inv.current
      collector := Or.inl hb
      disciplined := h.inv.disciplined }
  full_le := h.full_le
  keeps := fun hmap hfull => h.keeps hmap hfull

/-- A block the collector does not pass over is unused or full. -/
theorem raw_or_kept (hinv : LogInv c s) {b : ℕ} (hb : b < c.numBlocks)
    (hpass : ¬passesOver c s b) : Raw c s b ∨ Kept c s b := by
  simp only [passesOver, not_or] at hpass
  obtain ⟨hcurrent, herased, -⟩ := hpass
  rcases hinv.blocks b hb with (hraw | hfree | hfull) | ⟨h, -⟩
  · exact Or.inl hraw
  · rw [hfree.first] at herased
    simp at herased
  · exact Or.inr ⟨fun i hi => by rw [hfull i hi, if_pos hi], hcurrent⟩
  · exact (hcurrent h.symm).elim

theorem Raw.livePages_eq_nil {b : ℕ} (h : Raw c s b) : livePages c s b = [] := by
  rw [livePages, List.filter_eq_nil_iff]
  intro page hpage
  obtain ⟨i, hi, rfl⟩ := mem_pagesOf.mp hpage
  simp [isLive, (h i hi).2]

theorem mem_livePages_of_mapped (hmap : MapInv c s) {b l page : ℕ}
    (hpage : page ∈ pagesOf c b) (hforward : s.forwardMap l = some page) :
    page ∈ livePages c s b := by
  rw [livePages, List.mem_filter]
  exact ⟨hpage, isLive_iff.mpr ⟨l, (hmap l page hforward).2.2, hforward⟩⟩

theorem collectBlock (hmode : c.ssdType = .logging) (hinv : LogInv c s) {b : ℕ}
    (hb : b < c.numBlocks) (hpass : ¬passesOver c s b) :
    ∃ t, copyLive c s (livePages c s b) = some t ∧ Collected c s (physicalErase c t b) ∧
      ((livePages c s b).length ≤ freePages c s ↔
        fullCount (physicalErase c t b) = fullCount s) := by
  obtain ⟨t, hcopy, hinvt, hle, hkept⟩ := copyLive_inv hmode hinv (livePages c s b)
  have hbt : b ≠ t.currentBlock := by
    rcases raw_or_kept hinv hb hpass with hraw | hfull
    · rw [hraw.livePages_eq_nil] at hcopy
      obtain rfl : s = t := by simpa [copyLive] using hcopy
      exact fun h => hpass (Or.inl h)
    · exact (hkept b hfull).2
  refine ⟨t, hcopy, ⟨hinvt.physicalErase hbt, hle, fun hmap hfull => ?_⟩, ⟨fun hroom => ?_,
    fun hfull => ?_⟩⟩
  rotate_left
  · exact (copyLive_room hmode hinv hroom hcopy : fullCount t = fullCount s)
  · by_contra hroom
    have hpages : ∀ page ∈ livePages c s b,
        s.state page = .valid ∧ ∃ l, s.reverseMap page = some l := by
      intro page hpage
      obtain ⟨hmem, hlive⟩ := List.mem_filter.mp hpage
      obtain ⟨l, hreverse, -⟩ := isLive_iff.mp hlive
      refine ⟨?_, l, hreverse⟩
      rcases raw_or_kept hinv hb hpass with hraw | hkept
      · simp [hraw.livePages_eq_nil] at hpage
      · obtain ⟨i, hi, rfl⟩ := mem_pagesOf.mp hmem
        exact hkept.1 i hi
    have hlt : fullCount s < fullCount t :=
      copyLive_noRoom hmode hinv hpages (not_le.mp hroom) hcopy
    exact absurd (hfull : fullCount t = fullCount s) hlt.ne'
  have hnodup : (livePages c s b).Nodup := (pagesOf_nodup b).filter _
  have hlive : ∀ page ∈ livePages c s b, isLive s page = true := fun page hpage =>
    (List.mem_filter.mp hpage).2
  obtain ⟨hmapt, hcontent, hmoved⟩ :=
    copyLive_content hmode hinv hmap hnodup hlive hcopy hfull
  have hunmapped : ∀ l page, t.forwardMap l = some page → page ∉ pagesOf c b := by
    intro l page hforward hpage
    rcases hmoved l page hforward with ⟨hold, hnot⟩ | hnew
    · exact hnot (mem_livePages_of_mapped hmap hpage hold)
    · rcases raw_or_kept hinv hb hpass with hraw | hkept
      · rw [hraw.livePages_eq_nil] at hcopy
        obtain rfl : s = t := by simpa [copyLive] using hcopy
        exact hnew (hmap l page hforward).2.1
      · obtain ⟨i, hi, rfl⟩ := mem_pagesOf.mp hpage
        exact hnew (hkept.1 i hi)
  obtain ⟨hmap', hcontent'⟩ := content_physicalErase hmapt hunmapped
  exact ⟨hmap', hcontent'.trans hcontent⟩

/-! ## A pass of the collector -/

theorem collectBlocks_spec (hmode : c.ssdType = .logging) {blocks : List ℕ}
    (hlt : ∀ b ∈ blocks, b < c.numBlocks) (hinv : LogInv c s) :
    ∃ s', collectBlocks c s blocks = some s' ∧ Collected c s s' := by
  induction blocks generalizing s with
  | nil => exact ⟨s, rfl, Collected.refl hinv⟩
  | cons b rest ih =>
      have hrest : ∀ b ∈ rest, b < c.numBlocks := fun b' hb' => hlt b' (by simp [hb'])
      by_cases hpass : passesOver c s b
      · obtain ⟨s', hcollect, h⟩ := ih hrest hinv
        exact ⟨s', by simp [collectBlocks, hpass, hcollect], h⟩
      · obtain ⟨t, hcopy, hblock, -⟩ := collectBlock hmode hinv (hlt b (by simp)) hpass
        by_cases hlow : (blocksInUse c (physicalErase c t b) : ℤ) ≤ c.lowWaterMark
        · exact ⟨_, by simp [collectBlocks, hpass, hcopy, hlow],
            hblock.setCollector (hlt b (by simp))⟩
        · obtain ⟨s', hcollect, h⟩ := ih hrest hblock.inv
          exact ⟨s', by simp [collectBlocks, hpass, hcopy, hlow, hcollect], hblock.trans h⟩

theorem upkeep_spec (hmode : c.ssdType = .logging) (hinv : LogInv c s) :
    ∃ s', upkeep c s = some s' ∧ Collected c s s' := by
  unfold upkeep garbageCollect
  split
  · exact collectBlocks_spec hmode (fun b hb => lt_of_mem_blocksFrom hinv.collector hb) hinv
  · exact ⟨s, rfl, Collected.refl hinv⟩

theorem collectBlocks_room (hmode : c.ssdType = .logging) {blocks : List ℕ}
    (hlt : ∀ b ∈ blocks, b < c.numBlocks) (hinv : LogInv c s)
    (hroom : c.pagesPerBlock ≤ freePages c s) (hcollect : collectBlocks c s blocks = some s') :
    fullCount s' = fullCount s := by
  induction blocks generalizing s with
  | nil =>
      obtain rfl : s = s' := by simpa [collectBlocks] using hcollect
      rfl
  | cons b rest ih =>
      have hrest : ∀ b ∈ rest, b < c.numBlocks := fun b' hb' => hlt b' (by simp [hb'])
      by_cases hpass : passesOver c s b
      · exact ih hrest hinv hroom (by simpa [collectBlocks, hpass] using hcollect)
      · have hb := hlt b (by simp)
        obtain ⟨t, hcopy, hblock, hfull⟩ := collectBlock hmode hinv hb hpass
        have hlen : (livePages c s b).length ≤ c.pagesPerBlock := by
          calc (livePages c s b).length ≤ (pagesOf c b).length := List.length_filter_le _ _
            _ = c.pagesPerBlock := pagesOf_length b
        have hfull := hfull.mp (hlen.trans hroom)
        simp only [collectBlocks, if_neg hpass, hcopy, Option.bind_some] at hcollect
        split at hcollect
        · obtain rfl := Option.some_inj.mp hcollect
          exact hfull
        · rw [ih hrest hblock.inv (freePages_physicalErase hb) hcollect, hfull]

/-- The first block the collector will clean, found by its own tests. -/
def firstVictim (c : Config) (s : Device) : Option ℕ :=
  (blocksFrom c s.gcCurrentBlock).find? fun b => ¬passesOver c s b

/-- If garbage collection is due, the live pages of the first block to clean
fit in the pages that are still free. -/
def GcRoom (c : Config) (s : Device) : Prop :=
  c.highWaterMark ≤ blocksInUse c s →
    ∀ b, firstVictim c s = some b → (livePages c s b).length ≤ freePages c s

instance (c : Config) (s : Device) : Decidable (GcRoom c s) :=
  match h : firstVictim c s with
  | none => isTrue (by intro _ b hb; simp [h] at hb)
  | some b =>
      decidable_of_iff (c.highWaterMark ≤ blocksInUse c s →
        (livePages c s b).length ≤ freePages c s) (by simp [GcRoom, h])

/-- Some copy of the pass fails exactly when the first one has too little room. -/
theorem collectBlocks_firstRoom (hmode : c.ssdType = .logging) {blocks : List ℕ}
    (hlt : ∀ b ∈ blocks, b < c.numBlocks) (hinv : LogInv c s)
    (hcollect : collectBlocks c s blocks = some s') :
    fullCount s' = fullCount s ↔
      ∀ b, (blocks.find? fun b => ¬passesOver c s b) = some b →
        (livePages c s b).length ≤ freePages c s := by
  induction blocks with
  | nil =>
      obtain rfl : s = s' := by simpa [collectBlocks] using hcollect
      simp
  | cons b rest ih =>
      have hrest : ∀ b ∈ rest, b < c.numBlocks := fun b' hb' => hlt b' (by simp [hb'])
      by_cases hpass : passesOver c s b
      · rw [ih hrest (by simpa [collectBlocks, hpass] using hcollect)]
        simp [hpass]
      · have hb := hlt b (by simp)
        obtain ⟨t, hcopy, hblock, hfull⟩ := collectBlock hmode hinv hb hpass
        have hfirst : (∀ b', ((b :: rest).find? fun b => ¬passesOver c s b) = some b' →
            (livePages c s b').length ≤ freePages c s) ↔
              fullCount (physicalErase c t b) = fullCount s := by
          rw [← hfull]
          simp [hpass]
        rw [hfirst]
        simp only [collectBlocks, if_neg hpass, hcopy, Option.bind_some] at hcollect
        split at hcollect
        · obtain rfl := Option.some_inj.mp hcollect
          exact Iff.rfl
        · rw [collectBlocks_room hmode hrest hblock.inv (freePages_physicalErase hb) hcollect]

/-- The pass drops no live page exactly when it has room. -/
theorem upkeep_room_iff (hmode : c.ssdType = .logging) (hinv : LogInv c s)
    (hupkeep : upkeep c s = some s') : fullCount s' = fullCount s ↔ GcRoom c s := by
  unfold upkeep garbageCollect at hupkeep
  unfold GcRoom
  split at hupkeep
  · rename_i hdue
    rw [collectBlocks_firstRoom hmode (fun b hb => lt_of_mem_blocksFrom hinv.collector hb) hinv
      hupkeep]
    exact ⟨fun h _ => h, fun h => h hdue⟩
  · rename_i hdue
    obtain rfl := Option.some_inj.mp hupkeep
    exact ⟨fun _ h => (hdue h).elim, fun _ => rfl⟩

end OsLabs.Ssd
