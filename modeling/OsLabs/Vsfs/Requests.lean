import Mathlib
import OsLabs.Vsfs.Entries
import OsLabs.Vsfs.Paths

/-!
# The requests

From a sound state every request runs to its end, keeps the state sound, and
leaves the disk alone when it reports failure.
-/

namespace OsLabs.Vsfs

open OsLabs.Namespace

structure FsSound (s : Fs) : Prop where
  disk : DiskSound s.disk
  paths : PathsSound s

/-- No assertion fails in the request, and so on. -/
def Served (s : Fs) (result : Option (Fs × ℤ)) : Prop :=
  ∃ s' rc, result = some (s', rc) ∧ FsSound s' ∧ (rc = -1 → s'.disk = s.disk)

theorem FsSound.refused {s : Fs} (h : FsSound s) : Served s (some (s, -1)) :=
  ⟨s, -1, rfl, h, fun _ => rfl⟩

variable {s s₁ : Disk} {m n b : ℕ} {name : Path}

/-! ## Method calls -/

theorem Disk.inode_eq (hn : n < s.numInodes) : s.inode n = some (s.inodes n) := if_pos hn

theorem Disk.block_eq (hb : b < s.numData) : s.block b = some (s.data b) := if_pos hb

theorem Disk.onInode_eq (hn : n < s.numInodes) (method : Inode → Inode) :
    s.onInode n method = some (s.setInode n (method (s.inodes n))) := by
  unfold Disk.onInode
  rw [Disk.inode_eq hn]
  rfl

theorem Disk.onBlock_eq {method : Block → Option Block} {blk : Block} (hb : b < s.numData)
    (hmethod : method (s.data b) = some blk) : s.onBlock b method = some (s.setBlock b blk) := by
  unfold Disk.onBlock
  rw [Disk.block_eq hb, Option.bind_some, hmethod]
  rfl

theorem Disk.setInode_self (s : Disk) (n : ℕ) : s.setInode n (s.inodes n) = s := by
  unfold Disk.setInode
  rw [Function.update_eq_self]

theorem Bitmap.clear_mark {bits : Bitmap} (h : bits.bmap n = false) :
    (bits.mark n).clear n = bits := by
  unfold Bitmap.clear Bitmap.mark
  simp [← h]

/-! ## The directory above -/

theorem DiskSound.parent_cases (h : DiskSound s) (hm : (tree s).kind m = some .dir)
    (name : Path) : ∃ b, s.inode m = some (s.inodes m) ∧ (s.inodes m).addr = some b ∧
      b < s.numData ∧ (s.data b).ftype = .d ∧ (entryRefused (s.data b) name = some true ∨
        entryRefused (s.data b) name = some false ∧ Room s m b name) := by
  obtain ⟨hmi, htype⟩ := kind_dir.mp hm
  obtain ⟨b, haddr, hb, hbtype, hdir⟩ := h.addr_of_dir hm
  refine ⟨b, Disk.inode_eq hmi, haddr, hb, hbtype, ?_⟩
  unfold entryRefused Block.getFreeEntries Block.dirEntryExists
  rw [if_pos hbtype, if_pos hbtype]
  by_cases hroom : maxUsed - (s.data b).dirUsed ≤ 0
  · left
    simp [hroom]
  · by_cases hfresh : name ∈ (dirOf s m).map Prod.fst
    · left
      rw [hdir] at hfresh
      obtain ⟨e, he, rfl⟩ := List.mem_map.mp hfresh
      have hany : (s.data b).dirList.any (fun e' => e.1 = e'.1) = true :=
        List.any_eq_true.mpr ⟨e, he, by simp⟩
      simp [hany]
    · right
      have hany : (s.data b).dirList.any (fun e => name = e.1) = false := by
        rw [List.any_eq_false]
        intro e he heq
        apply hfresh
        rw [hdir]
        exact List.mem_map.mpr ⟨e, he, (by simpa using heq : name = e.1).symm⟩
      exact ⟨by simp [hroom, hany], hmi, htype, haddr, by omega, hfresh⟩

theorem choose_mem {list : List Path} (hne : list ≠ []) (r : ℕ) :
    ∃ path ∈ list, choose list r = some path := by
  have hlt : r % list.length < list.length := Nat.mod_lt r (List.length_pos_of_ne_nil hne)
  exact ⟨list[r % list.length], List.getElem_mem hlt, List.getElem?_eq_getElem hlt⟩

theorem nameChars_nonempty : nameChars ≠ [] := by decide

/-! ## link -/

theorem createLink_cases {fs : Fs} {target : Path} (h : DiskSound fs.disk) {parent : Path}
    (hm : fs.nameToInum parent = some m) (hmk : (tree fs.disk).kind m = some .dir)
    (hn : fs.nameToInum target = some n) (hnk : (tree fs.disk).kind n = some .file)
    (hname : name ∈ nameChars) :
    createLink fs target name parent = some (fs.disk, none) ∨ ∃ b s₁, Room fs.disk m b name ∧
      s₁ = fs.disk.setInode n (fs.disk.inodes n).incRefCnt ∧
      createLink fs target name parent =
        some (s₁.setBlock b ((s₁.data b).push name n), some n) := by
  obtain ⟨b, hinode, haddr, hb, hbtype, hrefused⟩ := h.parent_cases hmk name
  have hni := (kind_file.mp hnk).1
  unfold createLink
  rw [hm, hn, Option.bind_eq_bind, Option.bind_some, hinode, Option.bind_eq_bind,
    Option.bind_some, haddr, Option.bind_eq_bind, Option.bind_some, Disk.block_eq hb,
    Option.bind_eq_bind, Option.bind_some]
  obtain hrefused | ⟨hrefused, hr⟩ := hrefused
  · left
    rw [hrefused]
    rfl
  · right
    refine ⟨b, _, hr, rfl, ?_⟩
    rw [hrefused, lastName_name hname]
    simp only [Option.bind_eq_bind, Option.bind_some, Bool.false_eq_true, if_false]
    rw [Disk.onInode_eq hni, Option.bind_some,
      Disk.onBlock_eq (s := fs.disk.setInode n _) hb (Block.addDirEntry_eq hbtype hr.room)]
    rfl

theorem FsSound.doLink {fs : Fs} (h : FsSound fs) (r₁ r₂ r₃ : ℕ) :
    Served fs (doLink fs r₁ r₂ r₃) := by
  unfold Vsfs.doLink
  split
  · exact h.refused
  · rename_i hne
    have hfiles : fs.files ≠ [] := fun hnil => hne (by rw [hnil]; rfl)
    obtain ⟨parent, hparent, hchoose₁⟩ := choose_mem (List.ne_nil_of_mem h.paths.root.1) r₁
    obtain ⟨name, hname, hchoose₂⟩ := choose_mem nameChars_nonempty r₂
    obtain ⟨target, htarget, hchoose₃⟩ := choose_mem hfiles r₃
    obtain ⟨m, hm, hmk, _⟩ := h.paths.dirs parent hparent
    obtain ⟨n, hn, hnk, _⟩ := h.paths.files target htarget
    obtain ⟨hni, hntype⟩ := kind_file.mp hnk
    rw [hchoose₁, hchoose₂, hchoose₃]
    obtain hnone | ⟨b, s₁, hr, hs₁, hsome⟩ := createLink_cases h.disk hm hmk hn hnk hname
    · simp only [Option.bind_eq_bind, Option.bind_some, hnone]
      exact h.refused
    · simp only [Option.bind_eq_bind, Option.bind_some, hsome]
      refine ⟨_, _, rfl, ?_, fun hrc => by cases hrc⟩
      have hself : s₁.inodes n = (fs.disk.inodes n).incRefCnt := by
        simp [hs₁, Disk.setInode]
      have hother : ∀ i, i ≠ n → s₁.inodes i = fs.disk.inodes i := by
        intro i hi
        simp [hs₁, Disk.setInode, hi]
      obtain ⟨hd, hatt⟩ := hr.attachFile (n := n) h.disk hname
        (hs₁ ▸ h.disk.storage.setRefCnt hni rfl rfl) (by rw [hs₁]; rfl) (by rw [hs₁]; rfl) hother
        hni (by rw [hntype]; decide) (by rw [hself]; exact hntype)
        (by rw [hself, hntype]; rfl)
      have hkind : ∀ i, (tree s₁).kind i = (tree fs.disk).kind i := by
        intro i
        show (if i < s₁.numInodes then kindOf (s₁.inodes i).ftype else none) = _
        by_cases hi : i = n
        · rw [hi, hself, hs₁]
          rfl
        · rw [hother i hi, hs₁]
          rfl
      have he : Entered fs { fs with
          disk := s₁.setBlock b ((s₁.data b).push name n)
          files := fs.files ++ [fullName parent name]
          nameToInum := Function.update fs.nameToInum (fullName parent name) (some n) }
          parent name m n :=
        ⟨hparent, hm, hname, hatt, fun i _ => hkind i, rfl⟩
      exact ⟨hd, h.paths.enterFile h.disk he ((hkind n).trans hnk) rfl rfl⟩

/-! ## create and mkdir -/

theorem initInode_eq {fblock : Option ℕ} {refCnt : ℤ} {ftype : FType} (hn : n < s.numInodes)
    (hm : m < s.numInodes) (hb : b < s.numData) (htype : (s.data b).ftype = .d)
    (hroom : (s.data b).dirUsed + 1 ≤ maxUsed)
    (hs₁ : s₁ = (s.setInode n ⟨ftype, fblock, refCnt⟩).setInode m
      (if ftype = .d then ((s.setInode n ⟨ftype, fblock, refCnt⟩).inodes m).incRefCnt
        else (s.setInode n ⟨ftype, fblock, refCnt⟩).inodes m)) :
    initInode s n m b name ftype fblock refCnt =
      some (s₁.setBlock b ((s₁.data b).push name n), some n) := by
  unfold initInode
  rw [Option.bind_eq_bind, Disk.onInode_eq hn, Option.bind_some]
  simp only [Inode.setAll]
  rw [Disk.onInode_eq (s := s.setInode n _) hm, Option.bind_some, ← hs₁,
    Disk.onBlock_eq (s := s₁) (by rw [hs₁]; exact hb)
      (Block.addDirEntry_eq (by rw [hs₁]; exact htype) (by rw [hs₁]; exact hroom))]
  rfl

/-- A file is created in the inode `n`, or nothing happens. -/
theorem createFile_file_cases {fs : Fs} (h : DiskSound fs.disk) {parent : Path}
    (hm : fs.nameToInum parent = some m) (hmk : (tree fs.disk).kind m = some .dir)
    (name : Path) : createFile fs parent name .f = some (fs.disk, none) ∨
      ∃ b n s₁, Room fs.disk m b name ∧
      n < fs.disk.numInodes ∧ fs.disk.ibitmap.bmap n = false ∧
      s₁ = Disk.setInode { fs.disk with ibitmap := fs.disk.ibitmap.mark n } n ⟨.f, none, 1⟩ ∧
      createFile fs parent name .f =
        some (s₁.setBlock b ((s₁.data b).push name n), some n) := by
  obtain ⟨b, hinode, haddr, hb, hbtype, hrefused⟩ := h.parent_cases hmk name
  unfold createFile
  rw [hm, Option.bind_eq_bind, Option.bind_some, hinode, Option.bind_eq_bind,
    Option.bind_some, haddr, Option.bind_eq_bind, Option.bind_some, Disk.block_eq hb,
    Option.bind_eq_bind, Option.bind_some]
  obtain hrefused | ⟨hrefused, hr⟩ := hrefused
  · left
    rw [hrefused]
    rfl
  · rw [hrefused]
    obtain halloc | ⟨n, hn, hfree, halloc⟩ := Bitmap.alloc_cases fs.disk.ibitmap
    · left
      rw [halloc]
      rfl
    · right
      have hni : n < fs.disk.numInodes := h.storage.isize ▸ hn
      refine ⟨b, n, _, hr, hni, hfree, rfl, ?_⟩
      rw [halloc]
      simp only [Option.bind_eq_bind, Option.bind_some, Bool.false_eq_true, if_false]
      apply initInode_eq (s := { fs.disk with ibitmap := fs.disk.ibitmap.mark n })
        hni hr.lt hb hbtype hr.room
      exact (Disk.setInode_self _ m).symm

/-- The directory block of a new directory. -/
theorem newDirBlock_cases (hsize : s.dbitmap.size = s.numData)
    (hblock : ∀ b, b < s.numData → BlockOk s b) :
    newDirBlock s n m = some none ∨ ∃ fblock, fblock < s.numData ∧
      s.dbitmap.bmap fblock = false ∧
      newDirBlock s n m = some (some (Disk.setBlock { s with dbitmap := s.dbitmap.mark fblock }
        fblock ⟨.d, 2, [(['.'], n), (['.', '.'], m)], (s.data fblock).data⟩, fblock)) := by
  unfold newDirBlock
  obtain halloc | ⟨fblock, hlt, hfree, halloc⟩ := Bitmap.alloc_cases s.dbitmap
  · left
    rw [halloc]
  · right
    have hd : fblock < s.numData := hsize ▸ hlt
    refine ⟨fblock, hd, hfree, ?_⟩
    have htype := (hblock fblock hd).free_of_bit hfree
    obtain ⟨hlist, hused⟩ := (hblock fblock hd).nondir (by rw [htype]; decide)
    rw [halloc]
    simp only [Option.bind_eq_bind]
    rw [Disk.onBlock_eq (s := { s with dbitmap := s.dbitmap.mark fblock }) hd
        (show Block.setType (s.data fblock) .d = some { s.data fblock with ftype := .d } from
          if_pos htype), Option.bind_some]
    generalize hs₁ : Disk.setBlock { s with dbitmap := s.dbitmap.mark fblock } fblock
      { s.data fblock with ftype := .d } = s₁
    have hblk₁ : s₁.data fblock = ⟨.d, 0, [], (s.data fblock).data⟩ := by
      simp [← hs₁, Disk.setBlock, hlist, hused]
    have hd₁ : fblock < s₁.numData := by rw [← hs₁]; exact hd
    have hadd₁ : (s₁.data fblock).addDirEntry ['.'] n = some ((s₁.data fblock).push ['.'] n) :=
      Block.addDirEntry_eq (by rw [hblk₁])
        (by rw [hblk₁]; exact (by decide : (0 : ℤ) + 1 ≤ maxUsed))
    rw [Disk.onBlock_eq hd₁ hadd₁, Option.bind_some]
    generalize hs₂ : s₁.setBlock fblock ((s₁.data fblock).push ['.'] n) = s₂
    have hblk₂ : s₂.data fblock = ⟨.d, 1, [(['.'], n)], (s.data fblock).data⟩ := by
      simp [← hs₂, Disk.setBlock, hblk₁, Block.push]
    have hd₂ : fblock < s₂.numData := by rw [← hs₂]; exact hd₁
    have hadd₂ : (s₂.data fblock).addDirEntry ['.', '.'] m =
        some ((s₂.data fblock).push ['.', '.'] m) :=
      Block.addDirEntry_eq (by rw [hblk₂])
        (by rw [hblk₂]; exact (by decide : (1 : ℤ) + 1 ≤ maxUsed))
    rw [Disk.onBlock_eq hd₂ hadd₂, Option.bind_some, hblk₂, ← hs₂, ← hs₁]
    simp [Disk.setBlock, Block.push]

/-- A directory is created in the inode `n` and the block `fblock`, or nothing
happens. -/
theorem createFile_dir_cases {fs : Fs} (h : DiskSound fs.disk) {parent : Path}
    (hm : fs.nameToInum parent = some m) (hmk : (tree fs.disk).kind m = some .dir)
    (name : Path) : createFile fs parent name .d = some (fs.disk, none) ∨ ∃ b n fblock blk s₁ s₂,
      Room fs.disk m b name ∧ n < fs.disk.numInodes ∧ fs.disk.ibitmap.bmap n = false ∧
      fblock < fs.disk.numData ∧ fs.disk.dbitmap.bmap fblock = false ∧
      blk = ⟨.d, 2, [(['.'], n), (['.', '.'], m)], (fs.disk.data fblock).data⟩ ∧
      s₁ = (Disk.setBlock { fs.disk with
        ibitmap := fs.disk.ibitmap.mark n
        dbitmap := fs.disk.dbitmap.mark fblock } fblock blk).setInode n ⟨.d, some fblock, 2⟩ ∧
      s₂ = s₁.setInode m (s₁.inodes m).incRefCnt ∧
      createFile fs parent name .d =
        some (s₂.setBlock b ((s₂.data b).push name n), some n) := by
  obtain ⟨b, hinode, haddr, hb, hbtype, hrefused⟩ := h.parent_cases hmk name
  unfold createFile
  rw [hm, Option.bind_eq_bind, Option.bind_some, hinode, Option.bind_eq_bind,
    Option.bind_some, haddr, Option.bind_eq_bind, Option.bind_some, Disk.block_eq hb,
    Option.bind_eq_bind, Option.bind_some]
  obtain hrefused | ⟨hrefused, hr⟩ := hrefused
  · left
    rw [hrefused]
    rfl
  · rw [hrefused]
    obtain halloc | ⟨n, hn, hfree, halloc⟩ := Bitmap.alloc_cases fs.disk.ibitmap
    · left
      rw [halloc]
      rfl
    · have hni : n < fs.disk.numInodes := h.storage.isize ▸ hn
      rw [halloc]
      simp only [Option.bind_eq_bind, Option.bind_some, Bool.false_eq_true, if_false, if_true]
      obtain hnone | ⟨fblock, hfb, hfbfree, hsome⟩ :=
        newDirBlock_cases (s := { fs.disk with ibitmap := fs.disk.ibitmap.mark n }) (n := n)
          (m := m) h.storage.dsize fun b hb =>
            ⟨(h.storage.block b hb).bit, (h.storage.block b hb).nondir, (h.storage.block b hb).dir⟩
      · -- the inode is given back as it was
        left
        have htype := (h.storage.inode n hni).free_of_bit hfree
        have hnaddr := (h.storage.inode n hni).free_addr htype
        have hself : (fs.disk.inodes n).free = fs.disk.inodes n := by
          unfold Inode.free
          rw [← htype, ← hnaddr]
        rw [hnone, Option.bind_some]
        simp only
        unfold inodeFree
        rw [Bitmap.free_eq (show n < (fs.disk.ibitmap.mark n).size from hn)
            (by simp [Bitmap.mark]), Option.bind_eq_bind, Option.bind_some,
          Bitmap.clear_mark hfree, Disk.onInode_eq (s := fs.disk) hni, hself, Disk.setInode_self]
        rfl
      · right
        refine ⟨b, n, fblock, _, _, _, hr, hni, hfree, hfb, hfbfree, rfl, rfl, rfl, ?_⟩
        rw [hsome, Option.bind_some]
        have hne : b ≠ fblock := by
          rintro rfl
          exact h.storage.unowned hr.lt hfbfree haddr
        apply initInode_eq (s := Disk.setBlock { fs.disk with
            ibitmap := fs.disk.ibitmap.mark n
            dbitmap := fs.disk.dbitmap.mark fblock } fblock _) hni hr.lt hb
        · simp [Disk.setBlock, hne, hbtype]
        · simpa [Disk.setBlock, hne] using hr.room
        · rfl

theorem kind_free (h : StorageSound s) (hn : n < s.numInodes) (hfree : s.ibitmap.bmap n = false) :
    (s.inodes n).ftype = .free ∧ (tree s).kind n = none := by
  have htype := (h.inode n hn).free_of_bit hfree
  refine ⟨htype, ?_⟩
  show (if n < s.numInodes then kindOf (s.inodes n).ftype else none) = none
  rw [if_pos hn, htype]
  rfl

theorem FsSound.doCreate_file {fs : Fs} (h : FsSound fs) (r₁ r₂ : ℕ) :
    Served fs (doCreate fs .f r₁ r₂) := by
  unfold Vsfs.doCreate
  obtain ⟨parent, hparent, hchoose₁⟩ := choose_mem (List.ne_nil_of_mem h.paths.root.1) r₁
  obtain ⟨name, hname, hchoose₂⟩ := choose_mem nameChars_nonempty r₂
  obtain ⟨m, hm, hmk, _⟩ := h.paths.dirs parent hparent
  rw [hchoose₁, hchoose₂]
  obtain hnone | ⟨b, n, s₁, hr, hni, hfree, hs₁, hsome⟩ :=
    createFile_file_cases h.disk hm hmk name
  · simp only [Option.bind_eq_bind, Option.bind_some, hnone]
    exact h.refused
  · simp only [Option.bind_eq_bind, Option.bind_some, hsome]
    refine ⟨_, _, rfl, ?_, fun hrc => by cases hrc⟩
    obtain ⟨htype, hkind⟩ := kind_free h.disk.storage hni hfree
    have hself : s₁.inodes n = ⟨.f, none, 1⟩ := by simp [hs₁, Disk.setInode]
    have hother : ∀ i, i ≠ n → s₁.inodes i = fs.disk.inodes i := by
      intro i hi
      simp [hs₁, Disk.setInode, hi]
    obtain ⟨hd, hatt⟩ := hr.attachFile (n := n) h.disk hname
      (hs₁ ▸ h.disk.storage.newFile hni hfree 1) (by rw [hs₁]; rfl) (by rw [hs₁]; rfl) hother
      hni (by rw [htype]; decide) (by rw [hself]) (by rw [hself, htype]; rfl)
    have he : Entered fs { fs with
        disk := s₁.setBlock b ((s₁.data b).push name n)
        files := fs.files ++ [fullName parent name]
        nameToInum := Function.update fs.nameToInum (fullName parent name) (some n) }
        parent name m n := by
      refine ⟨hparent, hm, hname, hatt, fun i hi => ?_, rfl⟩
      have hin : i ≠ n := by
        rintro rfl
        exact hi hkind
      show (if i < s₁.numInodes then kindOf (s₁.inodes i).ftype else none) = _
      rw [hother i hin, hs₁]
      rfl
    refine ⟨hd, h.paths.enterFile h.disk he ?_ rfl rfl⟩
    exact kind_file.mpr ⟨by rw [hs₁]; exact hni, congrArg Inode.ftype hself⟩

theorem FsSound.doCreate_dir {fs : Fs} (h : FsSound fs) (r₁ r₂ : ℕ) :
    Served fs (doCreate fs .d r₁ r₂) := by
  unfold Vsfs.doCreate
  obtain ⟨parent, hparent, hchoose₁⟩ := choose_mem (List.ne_nil_of_mem h.paths.root.1) r₁
  obtain ⟨name, hname, hchoose₂⟩ := choose_mem nameChars_nonempty r₂
  obtain ⟨m, hm, hmk, _⟩ := h.paths.dirs parent hparent
  rw [hchoose₁, hchoose₂]
  obtain hnone | ⟨b, n, fblock, blk, s₁, s₂, hr, hni, hfree, hfb, hfbfree, hblk, hs₁, hs₂, hsome⟩ :=
    createFile_dir_cases h.disk hm hmk name
  · simp only [Option.bind_eq_bind, Option.bind_some, hnone]
    exact h.refused
  · simp only [Option.bind_eq_bind, Option.bind_some, hsome]
    refine ⟨_, _, rfl, ?_, fun hrc => by cases hrc⟩
    obtain ⟨htype, hkind⟩ := kind_free h.disk.storage hni hfree
    have hmn : m ≠ n := by
      rintro rfl
      rw [hkind] at hmk
      cases hmk
    have hstore₁ : StorageSound s₁ := by
      rw [hs₁]
      apply h.disk.storage.newDir hni hfree hfb hfbfree <;> rw [hblk]
      · rfl
      · exact (by decide : (2 : ℤ) ≤ maxUsed)
    have hm₁ : s₁.inodes m = fs.disk.inodes m := by
      simp [hs₁, Disk.setInode, Disk.setBlock, hmn]
    have hself : s₂.inodes n = ⟨.d, some fblock, 2⟩ := by
      simp [hs₂, hs₁, Disk.setInode, Ne.symm hmn]
    have hparent₂ : s₂.inodes m = (fs.disk.inodes m).incRefCnt := by
      rw [← hm₁]
      simp [hs₂, Disk.setInode]
    have hother : ∀ i, i ≠ n → i ≠ m → s₂.inodes i = fs.disk.inodes i := by
      intro i hin him
      simp [hs₂, hs₁, Disk.setInode, Disk.setBlock, hin, him]
    obtain ⟨hd, hatt⟩ := hr.attachDir (n := n) h.disk hname
      (hs₂ ▸ hstore₁.setRefCnt (by rw [hs₁]; exact hr.lt) rfl rfl) (by rw [hs₂, hs₁]; rfl)
      (fun i hi => by simp [hs₂, hs₁, Disk.setInode, Disk.setBlock, hi]) hfbfree
      (by simp [hs₂, hs₁, Disk.setInode, Disk.setBlock, hblk]) hother hni htype hself hparent₂
    have he : Entered fs { fs with
        disk := s₂.setBlock b ((s₂.data b).push name n)
        dirs := fs.dirs ++ [fullName parent name]
        nameToInum := Function.update fs.nameToInum (fullName parent name) (some n) }
        parent name m n := by
      refine ⟨hparent, hm, hname, hatt, fun i hi => ?_, rfl⟩
      have hin : i ≠ n := by
        rintro rfl
        exact hi hkind
      show (if i < s₂.numInodes then kindOf (s₂.inodes i).ftype else none) = _
      by_cases him : i = m
      · rw [him, hparent₂, hs₂, hs₁]
        rfl
      · rw [hother i hin him, hs₂, hs₁]
        rfl
    refine ⟨hd, h.paths.enterDir h.disk he hkind ?_ rfl rfl⟩
    exact kind_dir.mpr ⟨by rw [hs₂, hs₁]; exact hni, congrArg Inode.ftype hself⟩

/-! ## append -/

theorem writeFile_cases {fs : Fs} {tfile : Path} (h : DiskSound fs.disk)
    (hn : fs.nameToInum tfile = some n) (hni : n < fs.disk.numInodes) (data : List Char) :
    writeFile fs tfile data = some (fs.disk, -1) ∨ ∃ fblock blk,
      (fs.disk.inodes n).addr = none ∧ fblock < fs.disk.numData ∧
      fs.disk.dbitmap.bmap fblock = false ∧ blk = ⟨.f, 0, [], data⟩ ∧
      writeFile fs tfile data = some ((Disk.setBlock { fs.disk with
        dbitmap := fs.disk.dbitmap.mark fblock } fblock blk).setInode n
          ((fs.disk.inodes n).setAddr fblock), 0) := by
  unfold writeFile
  rw [hn, Option.bind_eq_bind, Option.bind_some, Disk.inode_eq hni, Option.bind_eq_bind,
    Option.bind_some]
  cases haddr : (fs.disk.inodes n).addr with
  | some b =>
      left
      rfl
  | none =>
      obtain halloc | ⟨fblock, hlt, hfree, halloc⟩ := Bitmap.alloc_cases fs.disk.dbitmap
      · left
        rw [halloc]
        rfl
      · right
        have hd : fblock < fs.disk.numData := h.storage.dsize ▸ hlt
        refine ⟨fblock, _, rfl, hd, hfree, rfl, ?_⟩
        have htype := (h.storage.block fblock hd).free_of_bit hfree
        obtain ⟨hlist, hused⟩ := (h.storage.block fblock hd).nondir (by rw [htype]; decide)
        rw [halloc]
        simp only [Option.bind_eq_bind, Option.isSome_none, Bool.false_eq_true, if_false]
        rw [Disk.onBlock_eq (s := { fs.disk with dbitmap := fs.disk.dbitmap.mark fblock }) hd
            (show Block.setType (fs.disk.data fblock) .f =
              some { fs.disk.data fblock with ftype := .f } from if_pos htype), Option.bind_some]
        generalize hs₁ : Disk.setBlock { fs.disk with dbitmap := fs.disk.dbitmap.mark fblock }
          fblock { fs.disk.data fblock with ftype := .f } = s₁
        have hblk₁ : s₁.data fblock = { fs.disk.data fblock with ftype := .f } := by
          simp [← hs₁, Disk.setBlock]
        have hd₁ : fblock < s₁.numData := by rw [← hs₁]; exact hd
        rw [Disk.onBlock_eq hd₁ (show Block.addData (s₁.data fblock) data =
            some { s₁.data fblock with data } from if_pos (by rw [hblk₁])), Option.bind_some,
          Disk.onInode_eq (s := s₁.setBlock fblock _) (by rw [← hs₁]; exact hni), Option.bind_some,
          hblk₁, ← hs₁]
        simp [Disk.setBlock, Disk.setInode, hlist, hused]

theorem FsSound.doAppend {fs : Fs} (h : FsSound fs) (r₁ r₂ : ℕ) :
    Served fs (doAppend fs r₁ r₂) := by
  unfold Vsfs.doAppend
  split
  · exact h.refused
  · rename_i hne
    have hfiles : fs.files ≠ [] := fun hnil => hne (by rw [hnil]; rfl)
    obtain ⟨afile, hafile, hchoose⟩ := choose_mem hfiles r₁
    obtain ⟨n, hn, hnk, _⟩ := h.paths.files afile hafile
    obtain ⟨hni, htype⟩ := kind_file.mp hnk
    rw [hchoose]
    generalize [Char.ofNat ('a'.toNat + r₂ % 26)] = data
    obtain hnone | ⟨fblock, blk, haddr, hd, hfree, hblk, hsome⟩ :=
      writeFile_cases h.disk hn hni data
    · simp only [Option.bind_eq_bind, Option.bind_some, hnone]
      exact h.refused
    · simp only [Option.bind_eq_bind, Option.bind_some, hsome]
      refine ⟨_, _, rfl, ?_, fun hrc => by cases hrc⟩
      have hstore := h.disk.storage.newBlock hni htype haddr hd hfree
        (show blk.ftype = .f by rw [hblk]) (by rw [hblk]; exact ⟨rfl, rfl⟩)
      generalize hs' : (Disk.setBlock { fs.disk with
        dbitmap := fs.disk.dbitmap.mark fblock } fblock blk).setInode n
          ((fs.disk.inodes n).setAddr fblock) = s' at hstore
      have hself : s'.inodes n = (fs.disk.inodes n).setAddr fblock := by
        simp [← hs', Disk.setInode]
      have hother : ∀ i, i ≠ n → s'.inodes i = fs.disk.inodes i := by
        intro i hi
        simp [← hs', Disk.setInode, Disk.setBlock, hi]
      obtain ⟨hdisk, htree, hdir⟩ := h.disk.congr hstore (by rw [← hs']; rfl)
        (fun i => by
          by_cases hi : i = n
          · rw [hi, hself]
            exact ⟨rfl, rfl⟩
          · rw [hother i hi]
            exact ⟨rfl, rfl⟩)
        (fun i hi => by
          rw [hother i]
          rintro rfl
          rw [htype] at hi
          cases hi)
        (fun b hb => by
          have hne : b ≠ fblock := by
            rintro rfl
            rw [(h.disk.storage.block b hd).bit.mpr (by rw [hb]; decide)] at hfree
            cases hfree
          simp [← hs', Disk.setInode, Disk.setBlock, hne])
      refine ⟨hdisk, h.paths.congr ?_ ?_⟩
      · exact htree
      · exact ⟨rfl, rfl, rfl⟩

/-! ## delete -/

/-- What `dropLink` leaves: one link less, and with the last link the inode and
its block are free. -/
structure Dropped (s s₁ : Disk) (n : ℕ) : Prop where
  storage : StorageSound s₁
  numInodes : s₁.numInodes = s.numInodes
  numData : s₁.numData = s.numData
  data : ∀ b, (s.data b).ftype = .d → s₁.data b = s.data b
  inodes : ∀ i, i ≠ n → s₁.inodes i = s.inodes i
  ftype : (s₁.inodes n).ftype = if (s.inodes n).refCnt = 1 then .free else .f
  refCnt : (s.inodes n).refCnt ≠ 1 → (s₁.inodes n).refCnt = (s.inodes n).refCnt - 1

theorem inodeFree_eq (hsize : s.ibitmap.size = s.numInodes) (hn : n < s.numInodes)
    (hbit : s.ibitmap.bmap n = true) :
    inodeFree s n = some (Disk.setInode { s with ibitmap := s.ibitmap.clear n } n
      (s.inodes n).free) := by
  unfold inodeFree
  rw [Bitmap.free_eq (hsize ▸ hn) hbit, Option.bind_eq_bind, Option.bind_some]
  exact Disk.onInode_eq (s := { s with ibitmap := s.ibitmap.clear n }) hn _

theorem dropLink_spec (h : StorageSound s) (hn : (tree s).kind n = some .file) :
    ∃ s₁, dropLink s n (s.inodes n) = some s₁ ∧ Dropped s s₁ n := by
  obtain ⟨hni, htype⟩ := kind_file.mp hn
  have hbit := (h.inode n hni).bit.mpr (by rw [htype]; decide)
  unfold dropLink
  split
  · rename_i hlast
    cases haddr : (s.inodes n).addr with
    | none =>
        refine ⟨_, inodeFree_eq h.isize hni hbit,
          h.freeInode hni (by rw [htype]; decide) haddr, rfl, rfl, fun _ _ => rfl, ?_, ?_, ?_⟩
        · intro i hi
          simp [Disk.setInode, hi]
        · simp [Disk.setInode, Inode.free, hlast]
        · exact fun hne => absurd hlast hne
    | some b =>
        obtain ⟨hb, hbtype⟩ := (h.inode n hni).addr_type b haddr
        rw [htype] at hbtype
        have hbbit := (h.block b hb).bit.mpr (by rw [hbtype]; decide)
        obtain ⟨hlist, hused⟩ := (h.block b hb).nondir (by rw [hbtype]; decide)
        have hfree : (s.data b).free =
            some { s.data b with ftype := .free, dirUsed := (s.data b).dirUsed, data := [] } := by
          unfold Block.free
          rw [hbtype]
          rfl
        have hdfree : dataFree s b =
            some (Disk.setBlock { s with dbitmap := s.dbitmap.clear b } b
              { s.data b with ftype := .free, dirUsed := (s.data b).dirUsed, data := [] }) := by
          unfold dataFree
          rw [Bitmap.free_eq (h.dsize ▸ hb) hbbit, Option.bind_eq_bind, Option.bind_some]
          exact Disk.onBlock_eq (s := { s with dbitmap := s.dbitmap.clear b }) hb hfree
        refine ⟨_, ?_, h.freeBoth hni htype haddr (show ({ s.data b with
            ftype := .free, dirUsed := (s.data b).dirUsed, data := [] } : Block).ftype = .free
              from rfl) ⟨hlist, hused⟩, rfl, rfl, ?_, ?_, ?_, ?_⟩
        · show (dataFree s b).bind _ = _
          rw [hdfree, Option.bind_some]
          exact inodeFree_eq (s := Disk.setBlock { s with dbitmap := s.dbitmap.clear b } b _)
            h.isize hni hbit
        · intro b' hb'
          have hne : b' ≠ b := by
            rintro rfl
            rw [hbtype] at hb'
            cases hb'
          simp [Disk.setInode, Disk.setBlock, hne]
        · intro i hi
          simp [Disk.setInode, Disk.setBlock, hi]
        · simp [Disk.setInode, Inode.free, hlast]
        · exact fun hne => absurd hlast hne
  · rename_i hmore
    refine ⟨_, Disk.onInode_eq hni _, h.setRefCnt hni rfl rfl, rfl, rfl, fun _ _ => rfl, ?_, ?_, ?_⟩
    · intro i hi
      simp [Disk.setInode, hi]
    · simp [Disk.setInode, Inode.decRefCnt, hmore, htype]
    · intro _
      simp [Disk.setInode, Inode.decRefCnt]

theorem deleteFile_eq {fs : Fs} {tfile : Path} (h : DiskSound fs.disk)
    (hmem : tfile ∈ fs.files) (hn : fs.nameToInum tfile = some n)
    (hnk : (tree fs.disk).kind n = some .file)
    (hm : fs.nameToInum (getParent tfile) = some m) (hlast : lastName tfile = name)
    (hchild : (name, n) ∈ children fs.disk m) :
    ∃ b s₁, (fs.disk.inodes m).addr = some b ∧ Dropped fs.disk s₁ n ∧
      deleteFile fs tfile = some ({ fs with
        disk := s₁.setBlock b ((s₁.data b).pop name)
        files := fs.files.erase tfile }, 0) := by
  have hmk := h.links.dirs m (List.ne_nil_of_mem hchild)
  obtain ⟨hni, htype⟩ := kind_file.mp hnk
  obtain ⟨hmi, hmtype⟩ := kind_dir.mp hmk
  obtain ⟨b, haddr, hb, hbtype, hdir⟩ := h.addr_of_dir hmk
  have hmn : m ≠ n := by
    rintro rfl
    rw [hmk] at hnk
    cases hnk
  obtain ⟨s₁, hdrop, hs₁⟩ := dropLink_spec h.storage hnk
  refine ⟨b, s₁, haddr, hs₁, ?_⟩
  have hm₁ : m < s₁.numInodes := hs₁.numInodes ▸ hmi
  have hdata₁ := hs₁.data b hbtype
  have hany : (s₁.data b).dirList.any (fun e => e.1 = lastName tfile) = true := by
    rw [List.any_eq_true]
    refine ⟨(name, n), ?_, by simp [hlast]⟩
    rw [hdata₁, ← hdir]
    exact List.mem_of_mem_drop hchild
  have hdel : (s₁.data b).delDirEntry tfile = some ((s₁.data b).pop name) := by
    unfold Block.delDirEntry
    rw [if_pos ⟨hdata₁ ▸ hbtype, hany⟩, hlast]
    rfl
  unfold deleteFile
  simp only [Option.bind_eq_bind]
  rw [hn, Option.bind_some, Disk.inode_eq hni, Option.bind_some, hdrop, Option.bind_some, hm,
    Option.bind_some, Disk.inode_eq hm₁, Option.bind_some, hs₁.inodes m hmn, haddr,
    Option.bind_some, Disk.onInode_eq hm₁, Option.bind_some, htype, if_neg (by decide),
    Disk.setInode_self, Disk.onBlock_eq (hs₁.numData ▸ hb) hdel, Option.bind_some,
    if_pos (List.contains_iff_mem.mpr hmem)]
  rfl

theorem FsSound.doDelete {fs : Fs} (h : FsSound fs) (r : ℕ) : Served fs (doDelete fs r) := by
  unfold Vsfs.doDelete
  split
  · exact h.refused
  · rename_i hne
    have hfiles : fs.files ≠ [] := fun hnil => hne (by rw [hnil]; rfl)
    obtain ⟨dfile, hdfile, hchoose⟩ := choose_mem hfiles r
    obtain ⟨n, hn, hnk, hl⟩ := h.paths.files dfile hdfile
    obtain ⟨names, name, m, hnames, hname, rfl, hparent, hm, hchild, _⟩ :=
      hl.walks h.paths h.disk
    obtain ⟨b, s₁, haddr, hs₁, heq⟩ := deleteFile_eq h.disk hdfile hn hnk
      (by rw [getParent_pathOf hnames hname, hm]) (lastName_pathOf hnames hname) hchild
    rw [hchoose, Option.bind_eq_bind, Option.bind_some, heq]
    refine ⟨_, _, rfl, ?_, fun hrc => by cases hrc⟩
    have hmk := h.disk.links.dirs m (List.ne_nil_of_mem hchild)
    obtain ⟨hdisk, hdet⟩ := h.disk.detachFile hmk haddr hname hchild hnk hs₁.storage
      hs₁.numInodes hs₁.data hs₁.inodes hs₁.ftype hs₁.refCnt
    refine ⟨hdisk, ?_⟩
    refine h.paths.leave hdisk hparent hm hname hdet hnk ?_ ?_ ?_ rfl rfl
    · intro i hi
      show (if i < s₁.numInodes then kindOf (s₁.inodes i).ftype else none) = _
      rw [hs₁.numInodes, hs₁.inodes i hi]
      rfl
    · show (if n < s₁.numInodes then kindOf (s₁.inodes n).ftype else none) = none ∨
        (if n < s₁.numInodes then kindOf (s₁.inodes n).ftype else none) = some .file
      rw [if_pos (hs₁.numInodes ▸ (kind_file.mp hnk).1), hs₁.ftype]
      split
      · exact Or.inl rfl
      · exact Or.inr rfl
    · rw [fullName_pathOf hnames]

/-! ## Any request -/

theorem FsSound.perform {fs : Fs} (h : FsSound fs) (a : Act) : Served fs (perform fs a) := by
  cases a with
  | create r₁ r₂ => exact h.doCreate_file r₁ r₂
  | mkdir r₁ r₂ => exact h.doCreate_dir r₁ r₂
  | link r₁ r₂ r₃ => exact h.doLink r₁ r₂ r₃
  | append r₁ r₂ => exact h.doAppend r₁ r₂
  | delete r => exact h.doDelete r

end OsLabs.Vsfs
