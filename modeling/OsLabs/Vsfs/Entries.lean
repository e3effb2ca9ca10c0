import Mathlib
import OsLabs.Vsfs.Directory

/-!
# Entries come and go

What each operation of the file system leaves on disk, and that it keeps the
disk sound.
-/

namespace OsLabs.Vsfs

open OsLabs.Namespace

/-! ## The block of a directory -/

def Block.push (b : Block) (name : Path) (inum : ℕ) : Block :=
  { b with dirList := b.dirList ++ [(name, inum)], dirUsed := b.dirUsed + 1 }

def Block.pop (b : Block) (name : Path) : Block :=
  { b with
    dirList := b.dirList.eraseP fun e => e.1 = name
    dirUsed := b.dirUsed - 1 }

theorem Block.addDirEntry_eq {b : Block} {name : Path} {inum : ℕ} (htype : b.ftype = .d)
    (hroom : b.dirUsed + 1 ≤ maxUsed) : b.addDirEntry name inum = some (b.push name inum) :=
  if_pos ⟨htype, hroom⟩

/-- The directory `m` in the block `b` has room for an entry. -/
structure Room (s : Disk) (m b : ℕ) (name : Path) : Prop where
  lt : m < s.numInodes
  type : (s.inodes m).ftype = .d
  addr : (s.inodes m).addr = some b
  room : (s.data b).dirUsed + 1 ≤ maxUsed
  fresh : name ∉ (dirOf s m).map Prod.fst

variable {s s' : Disk} {m n b : ℕ} {name : Path}

theorem Room.kind (hr : Room s m b name) : (tree s).kind m = some .dir :=
  kind_dir.mpr ⟨hr.lt, hr.type⟩

theorem Room.congr (hr : Room s m b name) (hnum : s'.numInodes = s.numInodes)
    (htype : (s'.inodes m).ftype = (s.inodes m).ftype)
    (haddr : (s'.inodes m).addr = (s.inodes m).addr) (hdata : s'.data b = s.data b) :
    Room s' m b name ∧ dirOf s' m = dirOf s m := by
  obtain ⟨hlt, ht, ha, hroom, hfresh⟩ := hr
  have hdir : dirOf s' m = dirOf s m := by
    rw [dirOf_eq hlt ht ha, dirOf_eq (hnum ▸ hlt) (htype.trans ht) (haddr.trans ha), hdata]
  exact ⟨⟨hnum ▸ hlt, htype.trans ht, haddr.trans ha, hdata ▸ hroom, hdir ▸ hfresh⟩, hdir⟩

theorem Room.push (hr : Room s m b name) (hs : StorageSound s) (inum : ℕ) :
    StorageSound (s.setBlock b ((s.data b).push name inum)) ∧
      ∀ i, dirOf (s.setBlock b ((s.data b).push name inum)) i =
        if i = m then dirOf s m ++ [(name, inum)] else dirOf s i := by
  obtain ⟨hlt, htype, haddr, hroom, _⟩ := hr
  obtain ⟨hb, hbtype⟩ := (hs.inode m hlt).addr_type b haddr
  have hbd : (s.data b).ftype = .d := hbtype.trans htype
  obtain ⟨hused, _⟩ := (hs.block b hb).dir hbd
  constructor
  · apply hs.setDirList hlt haddr htype (show ((s.data b).push name inum).ftype = .d from hbd)
    · show (s.data b).dirUsed + 1 = ((s.data b).dirList ++ [(name, inum)]).length
      rw [hused, List.length_append]
      rfl
    · exact hroom
  · intro i
    rw [dirOf_setBlock hs hlt htype haddr, dirOf_eq hlt htype haddr]
    rfl

/-! ## Attaching

`s₁` is the disk after the inodes are written and before the entry is. -/

variable {s₁ : Disk}

/-- The tree gets one entry. -/
theorem Room.attached (hr : Room s₁ m b name) (hs₁ : StorageSound s₁) (h : DiskSound s)
    (hkind : (tree s).kind m = some .dir) (hdirm : dirOf s₁ m = dirOf s m)
    (hchildren : ∀ i, children s₁ i = children s i) :
    Attached (tree s) (tree (s₁.setBlock b ((s₁.data b).push name n))) m name n := by
  obtain ⟨_, hdirs⟩ := hr.push hs₁ n
  obtain ⟨p, heq, _, _⟩ := h.dirs m hkind
  refine ⟨hkind, ?_, ?_, ?_⟩
  · intro hmem
    apply hr.fresh
    rw [hdirm, heq]
    exact List.mem_cons_of_mem _ (List.mem_cons_of_mem _ hmem)
  · show (children _ m).Perm ((name, n) :: children s m)
    have hself : children (s₁.setBlock b ((s₁.data b).push name n)) m =
        children s m ++ [(name, n)] := by
      unfold children
      rw [hdirs m, if_pos rfl, hdirm, heq]
      rfl
    rw [hself]
    exact List.perm_append_singleton _ _
  · intro i hi
    show children _ i = children s i
    rw [← hchildren]
    unfold children
    rw [hdirs i, if_neg hi]

/-- A new file, or a further link to one. -/
theorem Room.attachFile (hr : Room s m b name) (h : DiskSound s) (hname : name ∈ nameChars)
    (hs₁ : StorageSound s₁) (hnum : s₁.numInodes = s.numInodes) (hdata : s₁.data = s.data)
    (hinodes : ∀ i, i ≠ n → s₁.inodes i = s.inodes i) (hn : n < s.numInodes)
    (hold : (s.inodes n).ftype ≠ .d) (hnew : (s₁.inodes n).ftype = .f)
    (hrefs : (s₁.inodes n).refCnt =
      if (s.inodes n).ftype = .free then 1 else (s.inodes n).refCnt + 1) :
    DiskSound (s₁.setBlock b ((s₁.data b).push name n)) ∧
      Attached (tree s) (tree (s₁.setBlock b ((s₁.data b).push name n))) m name n := by
  have hmn : m ≠ n := by
    rintro rfl
    exact hold hr.type
  obtain ⟨hr₁, hdirm⟩ := hr.congr hnum (by rw [hinodes m hmn]) (by rw [hinodes m hmn])
    (by rw [hdata])
  have hdir₁ : ∀ i, dirOf s₁ i = dirOf s i := by
    apply dirOf_congr hnum
    · intro i _ htype
      have hin : i ≠ n := by
        rintro rfl
        obtain htype | htype := htype
        · exact hold htype
        · rw [hnew] at htype
          cases htype
      rw [hinodes i hin]
      exact ⟨rfl, rfl⟩
    · intro i b _ _ _
      rw [hdata]
  have hatt := hr₁.attached (n := n) hs₁ h hr.kind hdirm fun i => by
    unfold children
    rw [hdir₁]
  obtain ⟨hs₂, hdirs⟩ := hr₁.push hs₁ n
  generalize hs' : s₁.setBlock b ((s₁.data b).push name n) = s' at hatt hs₂ hdirs
  have hnum' : s'.numInodes = s.numInodes := by rw [← hs']; exact hnum
  have hinodes' : s'.inodes = s₁.inodes := by rw [← hs']; rfl
  have hkind : ∀ i, i ≠ n → (tree s').kind i = (tree s).kind i := by
    intro i hi
    show (if i < s'.numInodes then kindOf (s'.inodes i).ftype else none) = _
    rw [hnum', hinodes', hinodes i hi]
    rfl
  have hdirKind : ∀ p, (tree s).kind p = some .dir ↔ (tree s').kind p = some .dir := by
    intro p
    by_cases hp : p = n
    · rw [hp, kind_dir, kind_dir, hinodes', hnew]
      simp [hold]
    · rw [hkind p hp]
  refine ⟨⟨hs₂, ?_, ?_⟩, hatt⟩
  · intro i hi
    rw [← hdirKind] at hi
    by_cases him : i = m
    · subst him
      have hdir := hdirs i
      rw [if_pos rfl, hdirm] at hdir
      exact ((h.dirs i hi).attach hname hdir fun p => (hdirKind p).mp).1
    · have hdir := hdirs i
      rw [if_neg him, hdir₁] at hdir
      exact (h.dirs i hi).congr hdir fun p => (hdirKind p).mp
  · rw [hnum']
    have hnone : (tree s).kind n = none ↔ (s.inodes n).ftype = .free := by
      simp [tree, hn, kindOf_none]
    apply h.links.attachFile hatt (Finset.mem_range.mpr hn)
    · exact fun hd => hold (kind_dir.mp hd).2
    · exact kind_file.mpr ⟨hnum' ▸ hn, by rw [hinodes', hnew]⟩
    · exact hkind
    · simp only [hnone]
      show (s'.inodes n).refCnt = _
      rw [hinodes', hrefs]
      rfl
    · intro i hi
      show (s'.inodes i).refCnt = (s.inodes i).refCnt
      rw [hinodes', hinodes i hi]

/-- A new directory, in the block `blk`. -/
theorem Room.attachDir {blk : ℕ} (hr : Room s m b name) (h : DiskSound s)
    (hname : name ∈ nameChars) (hs₁ : StorageSound s₁) (hnum : s₁.numInodes = s.numInodes)
    (hdata : ∀ i, i ≠ blk → s₁.data i = s.data i) (hblk : s.dbitmap.bmap blk = false)
    (hdots : (s₁.data blk).dirList = [(['.'], n), (['.', '.'], m)])
    (hinodes : ∀ i, i ≠ n → i ≠ m → s₁.inodes i = s.inodes i) (hn : n < s.numInodes)
    (hfree : (s.inodes n).ftype = .free) (hnew : s₁.inodes n = ⟨.d, some blk, 2⟩)
    (hparent : s₁.inodes m = (s.inodes m).incRefCnt) :
    DiskSound (s₁.setBlock b ((s₁.data b).push name n)) ∧
      Attached (tree s) (tree (s₁.setBlock b ((s₁.data b).push name n))) m name n := by
  have hmn : m ≠ n := by
    rintro rfl
    rw [hr.type] at hfree
    cases hfree
  have hbblk : b ≠ blk := by
    rintro rfl
    exact h.storage.unowned hr.lt hblk hr.addr
  obtain ⟨hr₁, hdirm⟩ := hr.congr hnum (by rw [hparent]; rfl) (by rw [hparent]; rfl)
    (hdata b hbblk)
  have hsame : ∀ i, i ≠ n → (s₁.inodes i).ftype = (s.inodes i).ftype ∧
      (s₁.inodes i).addr = (s.inodes i).addr := by
    intro i hi
    by_cases him : i = m
    · rw [him, hparent]
      exact ⟨rfl, rfl⟩
    · rw [hinodes i hi him]
      exact ⟨rfl, rfl⟩
  have hdir₁ : ∀ i, i ≠ n → dirOf s₁ i = dirOf s i := by
    intro i hi
    unfold dirOf
    rw [hnum, (hsame i hi).1, (hsame i hi).2]
    split
    · rename_i hid
      cases hb' : (s.inodes i).addr with
      | none => rfl
      | some b' =>
          have hne : b' ≠ blk := by
            rintro rfl
            exact h.storage.unowned hid.1 hblk hb'
          show (s₁.data b').dirList = (s.data b').dirList
          rw [hdata b' hne]
    · rfl
  have hdirn : dirOf s₁ n = [(['.'], n), (['.', '.'], m)] := by
    rw [dirOf_eq (hnum ▸ hn) (by rw [hnew]) (by rw [hnew]), hdots]
  have hatt := hr₁.attached (n := n) hs₁ h hr.kind hdirm fun i => by
    unfold children
    by_cases hi : i = n
    · rw [hi, hdirn, dirOf_nil (by rw [hfree]; decide)]
      rfl
    · rw [hdir₁ i hi]
  obtain ⟨hs₂, hdirs⟩ := hr₁.push hs₁ n
  generalize hs' : s₁.setBlock b ((s₁.data b).push name n) = s' at hatt hs₂ hdirs
  have hnum' : s'.numInodes = s.numInodes := by rw [← hs']; exact hnum
  have hinodes' : s'.inodes = s₁.inodes := by rw [← hs']; rfl
  have hkind : ∀ i, i ≠ n → (tree s').kind i = (tree s).kind i := by
    intro i hi
    show (if i < s'.numInodes then kindOf (s'.inodes i).ftype else none) = _
    rw [hnum', hinodes', (hsame i hi).1]
    rfl
  have hnone : (tree s).kind n = none := by
    show (if n < s.numInodes then kindOf (s.inodes n).ftype else none) = none
    rw [if_pos hn, hfree]
    rfl
  have hdirKind : ∀ p, (tree s).kind p = some .dir → (tree s').kind p = some .dir := by
    intro p hp
    rw [hkind p, hp]
    rintro rfl
    rw [hnone] at hp
    cases hp
  have hself : (tree s').kind n = some .dir :=
    kind_dir.mpr ⟨hnum' ▸ hn, by rw [hinodes', hnew]⟩
  refine ⟨⟨hs₂, ?_, ?_⟩, hatt⟩
  · intro i hi
    by_cases hin : i = n
    · have hdir := hdirs i
      rw [if_neg (by rw [hin]; exact hmn.symm), hin, hdirn] at hdir
      rw [hin]
      refine ⟨m, ?_, hdirKind m hr.kind, ?_⟩
      · unfold children
        rw [hdir]
        rfl
      · unfold children
        rw [hdir]
        exact fun e he => by cases he
    · rw [hkind i hin] at hi
      by_cases him : i = m
      · subst him
        have hdir := hdirs i
        rw [if_pos rfl, hdirm] at hdir
        exact ((h.dirs i hi).attach hname hdir hdirKind).1
      · have hdir := hdirs i
        rw [if_neg him, hdir₁ i hin] at hdir
        exact (h.dirs i hi).congr hdir hdirKind
  · rw [hnum']
    apply h.links.attachDir hatt (Finset.mem_range.mpr hn) hnone hself hkind
    · show (s'.inodes n).refCnt = 2
      rw [hinodes', hnew]
    · show (s'.inodes m).refCnt = (s.inodes m).refCnt + 1
      rw [hinodes', hparent]
      rfl
    · intro i hin him
      show (s'.inodes i).refCnt = (s.inodes i).refCnt
      rw [hinodes', hinodes i hin him]

/-! ## Detaching -/

theorem eraseP_name_perm {entries : List (Path × ℕ)} (hnodup : (entries.map Prod.fst).Nodup)
    (hmem : (name, n) ∈ entries) :
    entries.Perm ((name, n) :: entries.eraseP fun e => e.1 = name) := by
  obtain ⟨e, before, after, _, hname, heq, herase⟩ :=
    List.exists_of_eraseP (p := fun e : Path × ℕ => decide (e.1 = name)) hmem (by simp)
  have he : e ∈ entries := heq ▸ List.mem_append_right _ List.mem_cons_self
  have hsame : e = (name, n) :=
    List.inj_on_of_nodup_map hnodup he hmem (by simpa using hname)
  rw [herase, heq, hsame]
  exact List.perm_middle

theorem Block.pop_length {blk : Block} {e : Path × ℕ} (hmem : e ∈ blk.dirList)
    (hname : e.1 = name) (hused : blk.dirUsed = blk.dirList.length) :
    (blk.pop name).dirUsed = (blk.pop name).dirList.length := by
  show blk.dirUsed - 1 = ((blk.dirList.eraseP fun e => e.1 = name).length : ℤ)
  have hpos := List.length_pos_of_mem hmem
  rw [List.length_eraseP_of_mem hmem (by simpa using hname), hused]
  omega

/-- An entry of a file goes, and the file with the last one. -/
theorem DiskSound.detachFile (h : DiskSound s) (hm : (tree s).kind m = some .dir)
    (haddr : (s.inodes m).addr = some b) (hname : name ∈ nameChars)
    (hmem : (name, n) ∈ children s m) (hn : (tree s).kind n = some .file)
    (hs₁ : StorageSound s₁) (hnum : s₁.numInodes = s.numInodes)
    (hdata : ∀ b, (s.data b).ftype = .d → s₁.data b = s.data b)
    (hinodes : ∀ i, i ≠ n → s₁.inodes i = s.inodes i)
    (hnew : (s₁.inodes n).ftype = if (s.inodes n).refCnt = 1 then .free else .f)
    (hrefs : (s.inodes n).refCnt ≠ 1 → (s₁.inodes n).refCnt = (s.inodes n).refCnt - 1) :
    DiskSound (s₁.setBlock b ((s₁.data b).pop name)) ∧
      Detached (tree s) (tree (s₁.setBlock b ((s₁.data b).pop name))) m name n := by
  obtain ⟨hmi, hmtype⟩ := kind_dir.mp hm
  obtain ⟨hni, hntype⟩ := kind_file.mp hn
  obtain ⟨hb, hbtype⟩ := (h.storage.inode m hmi).addr_type b haddr
  have hbd : (s.data b).ftype = .d := hbtype.trans hmtype
  have hmn : m ≠ n := by
    rintro rfl
    rw [hmtype] at hntype
    cases hntype
  have hnd : (s₁.inodes n).ftype ≠ .d := by
    rw [hnew]
    split <;> decide
  have hdir₁ : ∀ i, dirOf s₁ i = dirOf s i := by
    apply dirOf_congr hnum
    · intro i _ htype
      have hin : i ≠ n := by
        rintro rfl
        obtain htype | htype := htype
        · rw [hntype] at htype
          cases htype
        · exact hnd htype
      rw [hinodes i hin]
      exact ⟨rfl, rfl⟩
    · intro i b' hi htype hb'
      obtain ⟨_, hb't⟩ := (h.storage.inode i hi).addr_type b' hb'
      rw [hdata b' (hb't.trans htype)]
  have hmem' : (name, n) ∈ (s₁.data b).dirList := by
    rw [hdata b hbd, ← dirOf_eq hmi hmtype haddr]
    exact List.mem_of_mem_drop hmem
  obtain ⟨hused, hmax⟩ := (h.storage.block b hb).dir hbd
  rw [← hdata b hbd] at hused hmax
  have hs₂ : StorageSound (s₁.setBlock b ((s₁.data b).pop name)) := by
    apply hs₁.setDirList (hnum ▸ hmi) (by rw [hinodes m hmn, haddr]) (by rw [hinodes m hmn, hmtype])
      (show ((s₁.data b).pop name).ftype = .d by rw [← hbd, ← hdata b hbd]; rfl)
    · exact Block.pop_length hmem' rfl hused
    · show (s₁.data b).dirUsed - 1 ≤ maxUsed
      omega
  have hdirs : ∀ i, dirOf (s₁.setBlock b ((s₁.data b).pop name)) i =
      if i = m then (dirOf s m).eraseP fun e => e.1 = name else dirOf s i := by
    intro i
    rw [dirOf_setBlock hs₁ (hnum ▸ hmi) (by rw [hinodes m hmn, hmtype])
      (by rw [hinodes m hmn, haddr]), hdir₁, dirOf_eq hmi hmtype haddr, ← hdata b hbd]
    rfl
  generalize hs' : s₁.setBlock b ((s₁.data b).pop name) = s' at hs₂ hdirs
  have hnum' : s'.numInodes = s.numInodes := by rw [← hs']; exact hnum
  have hinodes' : s'.inodes = s₁.inodes := by rw [← hs']; rfl
  have hkind : ∀ i, i ≠ n → (tree s').kind i = (tree s).kind i := by
    intro i hi
    show (if i < s'.numInodes then kindOf (s'.inodes i).ftype else none) = _
    rw [hnum', hinodes', hinodes i hi]
    rfl
  have hdirKind : ∀ p, (tree s).kind p = some .dir ↔ (tree s').kind p = some .dir := by
    intro p
    by_cases hp : p = n
    · rw [hp, hn, kind_dir, hinodes']
      simp [hnd]
    · rw [hkind p hp]
  have hself := (h.dirs m hm).detach hname ((hdirs m).trans (if_pos rfl)) fun p => (hdirKind p).mp
  have hdet : Detached (tree s) (tree s') m name n := by
    refine ⟨?_, ?_⟩
    · show (children s m).Perm ((name, n) :: children s' m)
      rw [hself.2]
      exact eraseP_name_perm (h.links.names m) hmem
    · intro i hi
      show children s' i = children s i
      unfold children
      rw [hdirs i, if_neg hi]
  refine ⟨⟨hs₂, ?_, ?_⟩, hdet⟩
  · intro i hi
    rw [← hdirKind] at hi
    by_cases him : i = m
    · exact him ▸ hself.1
    · exact (h.dirs i hi).congr ((hdirs i).trans (if_neg him)) fun p => (hdirKind p).mp
  · rw [hnum']
    apply h.links.detachFile hdet hn
    · show (if n < s'.numInodes then kindOf (s'.inodes n).ftype else none) = _
      rw [hnum', if_pos hni, hinodes', hnew]
      show kindOf _ = if (s.inodes n).refCnt = 1 then none else some .file
      split <;> rfl
    · exact hkind
    · intro hne
      show (s'.inodes n).refCnt = (s.inodes n).refCnt - 1
      rw [hinodes', hrefs hne]
    · intro i hi
      show (s'.inodes i).refCnt = (s.inodes i).refCnt
      rw [hinodes', hinodes i hi]

/-! ## Blocks of files -/

/-- Nothing of the tree changes. -/
theorem DiskSound.congr (h : DiskSound s) (hs' : StorageSound s')
    (hnum : s'.numInodes = s.numInodes)
    (hinodes : ∀ i, (s'.inodes i).ftype = (s.inodes i).ftype ∧
      (s'.inodes i).refCnt = (s.inodes i).refCnt)
    (haddr : ∀ i, (s.inodes i).ftype = .d → (s'.inodes i).addr = (s.inodes i).addr)
    (hdata : ∀ b, (s.data b).ftype = .d → s'.data b = s.data b) :
    DiskSound s' ∧ tree s' = tree s ∧ ∀ i, dirOf s' i = dirOf s i := by
  have hdir : ∀ i, dirOf s' i = dirOf s i := by
    apply dirOf_congr hnum
    · intro i _ htype
      rw [(hinodes i).1, or_self] at htype
      exact ⟨(hinodes i).1, haddr i htype⟩
    · intro i b hi htype hb
      rw [hdata b (((h.storage.inode i hi).addr_type b hb).2.trans htype)]
  have htree : tree s' = tree s := by
    unfold tree
    congr 1
    · funext i
      rw [hnum, (hinodes i).1]
    · funext i
      unfold children
      rw [hdir]
    · funext i
      exact (hinodes i).2
  refine ⟨⟨hs', ?_, ?_⟩, htree, hdir⟩
  · intro i hi
    rw [htree] at hi
    exact (h.dirs i hi).congr (hdir i) fun p hp => by rwa [htree]
  · rw [htree, hnum]
    exact h.links

end OsLabs.Vsfs
