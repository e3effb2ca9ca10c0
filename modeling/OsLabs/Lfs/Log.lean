import Mathlib
import OsLabs.Lfs.FileSystem

/-!
# The log

Blocks are never overwritten but for the checkpoint region, so an inode on disk
keeps the blocks it points to. Every inode ever logged is well formed, the stale
ones too.
-/

namespace OsLabs.Lfs

/-! ## Blocks that stay -/

/-- All blocks but the checkpoint region are where they were. -/
def Kept (disk disk' : List Block) : Prop :=
  ∀ (a : ℕ) (b : Block), disk[a]? = some b → (∀ entries, b ≠ .checkpoint entries) →
    disk'[a]? = some b

variable {disk disk' disk'' : List Block}

theorem Kept.refl (disk : List Block) : Kept disk disk := fun _ _ h _ => h

theorem Kept.trans (h : Kept disk disk') (h' : Kept disk' disk'') : Kept disk disk'' :=
  fun a b hb hne => h' a b (h a b hb hne) hne

theorem kept_append (disk blocks : List Block) : Kept disk (disk ++ blocks) := by
  intro a b hb _
  obtain ⟨hlt, _⟩ := List.getElem?_eq_some_iff.mp hb
  rw [List.getElem?_append_left hlt, hb]

theorem kept_set_first (block : Block) (h : ∃ entries, disk[0]? = some (.checkpoint entries)) :
    Kept disk (disk.set 0 block) := by
  intro a b hb hne
  obtain ⟨entries, hfirst⟩ := h
  have ha : a ≠ 0 := by
    rintro rfl
    exact hne entries (Option.some.inj (hb.symm.trans hfirst))
  rw [List.getElem?_set_ne ha.symm, hb]

theorem Kept.dir (h : Kept disk disk') {a : ℕ} {entries : List Slot}
    (ha : disk[a]? = some (.dir entries)) : disk'[a]? = some (.dir entries) :=
  h a _ ha fun _ heq => by cases heq

theorem Kept.data (h : Kept disk disk') {a : ℕ} {contents : List Char}
    (ha : disk[a]? = some (.data contents)) : disk'[a]? = some (.data contents) :=
  h a _ ha fun _ heq => by cases heq

theorem Kept.inode (h : Kept disk disk') {a : ℕ} {inode : Inode}
    (ha : disk[a]? = some (.inode inode)) : disk'[a]? = some (.inode inode) :=
  h a _ ha fun _ heq => by cases heq

theorem Kept.imap (h : Kept disk disk') {a : ℕ} {entries : List (Option ℕ)}
    (ha : disk[a]? = some (.imap entries)) : disk'[a]? = some (.imap entries) :=
  h a _ ha fun _ heq => by cases heq

/-! ## Well-formed inodes -/

/-- The inode of a directory with blocks at `addrs`. -/
structure DirInode (disk : List Block) (i : Inode) (addrs : List ℕ) : Prop where
  type : i.type = .dir
  pointers : i.pointers = addrs.map some ++ List.replicate (numInodePtrs - addrs.length) none
  size : i.size = addrs.length
  le : addrs.length ≤ numInodePtrs
  blocks : ∀ a ∈ addrs, ∃ entries, disk[a]? = some (.dir entries)

structure RegInode (disk : List Block) (i : Inode) : Prop where
  type : i.type = .reg
  blocks : ∀ a, some a ∈ i.pointers → ∃ contents, disk[a]? = some (.data contents)

def InodeOk (disk : List Block) (i : Inode) : Prop :=
  (∃ addrs, DirInode disk i addrs) ∨ RegInode disk i

def SlotsOk (entries : List Slot) : Prop := ∀ e ∈ entries, ∀ n, e.2 = some n → n < numInodes

def BlockOk (disk : List Block) : Block → Prop
  | .inode i => InodeOk disk i
  | .dir entries => SlotsOk entries
  | _ => True

variable {i : Inode} {addrs : List ℕ}

theorem DirInode.kept (hi : DirInode disk i addrs) (h : Kept disk disk') :
    DirInode disk' i addrs := by
  refine ⟨hi.type, hi.pointers, hi.size, hi.le, fun a ha => ?_⟩
  obtain ⟨entries, hentries⟩ := hi.blocks a ha
  exact ⟨entries, h.dir hentries⟩

theorem RegInode.kept (hi : RegInode disk i) (h : Kept disk disk') : RegInode disk' i := by
  refine ⟨hi.type, fun a ha => ?_⟩
  obtain ⟨contents, hcontents⟩ := hi.blocks a ha
  exact ⟨contents, h.data hcontents⟩

theorem BlockOk.kept {b : Block} (hb : BlockOk disk b) (h : Kept disk disk') :
    BlockOk disk' b := by
  cases b with
  | inode i =>
      obtain ⟨addrs, hi⟩ | hi := hb
      · exact Or.inl ⟨addrs, hi.kept h⟩
      · exact Or.inr (hi.kept h)
  | dir entries => exact hb
  | checkpoint entries => trivial
  | data contents => trivial
  | imap entries => trivial

theorem InodeOk.dir (h : InodeOk disk i) (htype : i.type = .dir) :
    ∃ addrs, DirInode disk i addrs := by
  obtain h | h := h
  · exact h
  · rw [h.type] at htype
    cases htype

theorem InodeOk.reg (h : InodeOk disk i) (htype : i.type = .reg) : RegInode disk i := by
  obtain ⟨addrs, h⟩ | h := h
  · rw [h.type] at htype
    cases htype
  · exact h

/-! ## The invariant of the log -/

structure LogOk (s : LFS) : Prop where
  blocks : ∀ (a : ℕ) (b : Block), s.disk[a]? = some b → BlockOk s.disk b
  first : ∃ entries, s.disk[0]? = some (.checkpoint entries)
  cr_length : s.cr.length = numImapPtrsInCr

/-- The log grew and the imap is the same. -/
structure Grown (s s' : LFS) : Prop where
  ok : LogOk s'
  kept : Kept s.disk s'.disk
  inodeMap : s'.inodeMap = s.inodeMap

variable {s s' s'' : LFS}

theorem LogOk.congr (h : LogOk s) (hdisk : s'.disk = s.disk) (hcr : s'.cr = s.cr) : LogOk s' := by
  obtain ⟨blocks, first, cr_length⟩ := h
  exact ⟨by rw [hdisk]; exact blocks, by rw [hdisk]; exact first, by rw [hcr]; exact cr_length⟩

theorem Grown.refl (h : LogOk s) : Grown s s := ⟨h, Kept.refl _, rfl⟩

theorem Grown.trans (h : Grown s s') (h' : Grown s' s'') : Grown s s'' :=
  ⟨h'.ok, h.kept.trans h'.kept, h'.inodeMap.trans h.inodeMap⟩

theorem LogOk.append (h : LogOk s) {blocks : List Block}
    (hblocks : ∀ b ∈ blocks, BlockOk (s.disk ++ blocks) b) :
    Grown s { s with disk := s.disk ++ blocks } := by
  obtain ⟨hall, ⟨entries, hfirst⟩, hcr⟩ := h
  have hlt := (List.getElem?_eq_some_iff.mp hfirst).1
  refine ⟨⟨?_, ⟨entries, ?_⟩, hcr⟩, kept_append _ _, rfl⟩
  · intro a b hb
    obtain hold | hnew := Nat.lt_or_ge a s.disk.length
    · exact (hall a b (by rwa [List.getElem?_append_left hold] at hb)).kept (kept_append _ _)
    · rw [List.getElem?_append_right hnew] at hb
      exact hblocks b (List.mem_of_getElem? hb)
  · rw [List.getElem?_append_left hlt, hfirst]

theorem LogOk.log (h : LogOk s) {b : Block} (hb : BlockOk s.disk b) :
    Grown s (s.log b).1 ∧ (s.log b).1.disk[(s.log b).2]? = some b := by
  refine ⟨h.append fun b' hb' => ?_, List.getElem?_concat_length⟩
  rw [List.mem_singleton.mp hb']
  exact hb.kept (kept_append _ _)

theorem LogOk.crSync (h : LogOk s) : Grown s s.crSync := by
  have hkept := kept_set_first (.checkpoint s.cr) h.first
  obtain ⟨hall, ⟨entries, hfirst⟩, hcr⟩ := h
  have hlt := (List.getElem?_eq_some_iff.mp hfirst).1
  have hself : s.crSync.disk[0]? = some (.checkpoint s.cr) := List.getElem?_set_self hlt
  refine ⟨⟨fun a b hb => ?_, ⟨_, hself⟩, hcr⟩, hkept, rfl⟩
  by_cases ha : a = 0
  · rw [ha, hself] at hb
    rw [← Option.some.inj hb]
    trivial
  · have hb' : (s.disk.set 0 (.checkpoint s.cr))[a]? = some b := hb
    rw [List.getElem?_set_ne (Ne.symm ha)] at hb'
    exact (hall a b hb').kept hkept

theorem LogOk.sync (h : LogOk s) (c : Config) : Grown s (s.sync c) := by
  unfold LFS.sync
  split
  · exact Grown.refl h
  · exact h.crSync

theorem LogOk.logChunk (h : LogOk s) (cnum : ℕ) : Grown s (s.logChunk cnum) := by
  have hlog := (h.log (b := makeImapChunk s cnum) trivial).1
  exact ⟨⟨hlog.ok.blocks, hlog.ok.first, (List.length_set).trans hlog.ok.cr_length⟩, hlog.kept, rfl⟩

theorem LogOk.updateImapFrom (h : LogOk s) (inumList chunkList : List ℕ) :
    Grown s (updateImapFrom s chunkList inumList) := by
  induction inumList generalizing s chunkList with
  | nil => exact Grown.refl h
  | cons inum inumList ih =>
      unfold Lfs.updateImapFrom
      simp only
      split
      · exact ih h chunkList
      · exact (h.logChunk _).trans (ih (h.logChunk _).ok _)

theorem LogOk.updateImap (h : LogOk s) (inumList : List ℕ) : Grown s (s.updateImap inumList) :=
  h.updateImapFrom inumList []

end OsLabs.Lfs
