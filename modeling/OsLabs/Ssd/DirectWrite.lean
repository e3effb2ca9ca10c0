import Mathlib
import OsLabs.Ssd.LogWrite

/-!
# Writes without a log

A direct write reads the valid pages of one block, erases the block and
programs them again around the new page. An ideal write programs in place.
-/

namespace OsLabs.Ssd

variable {c : Config} {s s' : Device}

/-! ## Programming the old pages again -/

def withData (pages : List ℕ) (f : ℕ → String) : List (ℕ × String) :=
  pages.map fun page => (page, f page)

theorem programOld_state (a : ℕ) (f : ℕ → String) (pages : List ℕ) (q : ℕ) :
    (programOld a s (withData pages f)).state q =
      if q ∈ pages ∧ q ≠ a then .valid else s.state q := by
  induction pages generalizing s with
  | nil => simp [withData, programOld]
  | cons page rest ih =>
      rw [withData, List.map_cons, programOld]
      by_cases ha : page = a
      · rw [if_pos ha]
        refine ih.trans ?_
        by_cases hq : q = a <;> simp [hq, ha]
      · rw [if_neg ha]
        refine ih.trans ?_
        by_cases hq : q = page
        · subst hq
          simp [ha, physicalProgram]
        · simp [hq, physicalProgram]

theorem programOld_data (a : ℕ) (f : ℕ → String) (pages : List ℕ) (q : ℕ) :
    (programOld a s (withData pages f)).data q =
      if q ∈ pages ∧ q ≠ a then f q else s.data q := by
  induction pages generalizing s with
  | nil => simp [withData, programOld]
  | cons page rest ih =>
      rw [withData, List.map_cons, programOld]
      by_cases ha : page = a
      · rw [if_pos ha]
        refine ih.trans ?_
        by_cases hq : q = a <;> simp [hq, ha]
      · rw [if_neg ha]
        refine ih.trans ?_
        by_cases hq : q = page
        · subst hq
          simp [ha, physicalProgram]
        · simp [hq, physicalProgram]

theorem programOld_frame (a : ℕ) (old : List (ℕ × String)) :
    (programOld a s old).forwardMap = s.forwardMap ∧
      (programOld a s old).reverseMap = s.reverseMap ∧
      (programOld a s old).gcUsedBlocks = s.gcUsedBlocks ∧
      (programOld a s old).currentBlock = s.currentBlock ∧
      (programOld a s old).gcCurrentBlock = s.gcCurrentBlock := by
  induction old generalizing s with
  | nil => exact ⟨rfl, rfl, rfl, rfl, rfl⟩
  | cons e rest ih =>
      rw [programOld]
      split
      · exact ih
      · exact ih (s := physicalProgram s e.1 e.2)

theorem Disciplined.program (hdisc : Disciplined s) {page : ℕ} (herased : s.state page = .erased)
    (d : String) : Disciplined (physicalProgram s page d) := by
  intro q before hmem
  rcases List.mem_cons.mp hmem with heq | hmem
  · injection heq with _ hbefore
    rw [hbefore, herased]
  · exact hdisc q before hmem

theorem Disciplined.programOld (hdisc : Disciplined s) (a : ℕ) (f : ℕ → String) {pages : List ℕ}
    (hnodup : pages.Nodup) (herased : ∀ page ∈ pages, s.state page = .erased) :
    Disciplined (programOld a s (withData pages f)) := by
  induction pages generalizing s with
  | nil => exact hdisc
  | cons page rest ih =>
      rw [withData, List.map_cons, Ssd.programOld]
      obtain ⟨hpage, hrest⟩ := List.nodup_cons.mp hnodup
      split
      · exact ih hdisc hrest fun q hq => herased q (by simp [hq])
      · refine ih (hdisc.program (herased page (by simp)) _) hrest fun q hq => ?_
        have hne : q ≠ page := fun heq => hpage (heq ▸ hq)
        exact (Function.update_of_ne hne _ _).trans (herased q (by simp [hq]))

/-! ## The direct write -/

/-- The valid pages of the block, which a direct write carries over. -/
def oldPages (c : Config) (s : Device) (block : ℕ) : List ℕ :=
  (pagesOf c block).filter fun page => s.state page = .valid

def carryOver (c : Config) (s : Device) (a : ℕ) : Device :=
  programOld a (physicalErase c s (a / c.pagesPerBlock))
    (withData (oldPages c s (a / c.pagesPerBlock)) s.data)

theorem carryOver_frame (a : ℕ) :
    (carryOver c s a).forwardMap = s.forwardMap ∧
      (carryOver c s a).reverseMap = s.reverseMap ∧
      (carryOver c s a).gcUsedBlocks =
        Function.update s.gcUsedBlocks (a / c.pagesPerBlock) 0 ∧
      (carryOver c s a).currentBlock = s.currentBlock ∧
      (carryOver c s a).gcCurrentBlock = s.gcCurrentBlock :=
  programOld_frame a _

theorem writeDirect_eq (a : ℕ) (d : String) :
    writeDirect c s a d =
      if a / c.pagesPerBlock < c.numBlocks then
        some ((physicalProgram (carryOver c s a) a d).setMaps a a, "success")
      else none := rfl

theorem mem_oldPages {a q : ℕ} : q ∈ oldPages c s (a / c.pagesPerBlock) ↔
    q / c.pagesPerBlock = a / c.pagesPerBlock ∧ s.state q = .valid := by
  simp [oldPages, List.mem_filter, mem_pagesOf_iff_div]

theorem carryOver_state_self (a : ℕ) : (carryOver c s a).state a = .erased := by
  have hmem : a ∈ pagesOf c (a / c.pagesPerBlock) := mem_pagesOf_iff_div.mpr rfl
  rw [carryOver, programOld_state, if_neg (by simp)]
  simp [physicalErase, hmem]

/-- A valid page other than the written one is valid again, with its data. -/
theorem carryOver_valid {a q : ℕ} (hne : q ≠ a) (hvalid : s.state q = .valid) :
    (carryOver c s a).state q = .valid ∧ (carryOver c s a).data q = s.data q := by
  rw [carryOver, programOld_state, programOld_data]
  by_cases hblock : q / c.pagesPerBlock = a / c.pagesPerBlock
  · have hmem : q ∈ oldPages c s (a / c.pagesPerBlock) := mem_oldPages.mpr ⟨hblock, hvalid⟩
    simp [hmem, hne]
  · have hnot : q ∉ oldPages c s (a / c.pagesPerBlock) := fun h => hblock (mem_oldPages.mp h).1
    have hpage : q ∉ pagesOf c (a / c.pagesPerBlock) := fun h =>
      hblock (mem_pagesOf_iff_div.mp h)
    simp [hnot, hpage, physicalErase, hvalid]

theorem Disciplined.writeDirect (hdisc : Disciplined s) {a : ℕ} {d r : String}
    (hwrite : writeDirect c s a d = some (s', r)) : Disciplined s' := by
  rw [writeDirect_eq] at hwrite
  split at hwrite
  · obtain ⟨rfl, -⟩ := Prod.mk.inj (Option.some_inj.mp hwrite)
    have hcarry : Disciplined (carryOver c s a) := by
      have herase : Disciplined (physicalErase c s (a / c.pagesPerBlock)) := hdisc
      refine herase.programOld a s.data ((pagesOf_nodup _).filter _) fun page hpage => ?_
      have hmem : page ∈ pagesOf c (a / c.pagesPerBlock) := (List.mem_filter.mp hpage).1
      simp [physicalErase, hmem]
    exact hcarry.program (carryOver_state_self a) d
  · cases hwrite

end OsLabs.Ssd
