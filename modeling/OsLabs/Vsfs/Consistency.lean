import Mathlib
import OsLabs.Lib.Transition
import OsLabs.Vsfs.Requests

/-!
# The file system in every run

From the state the constructor leaves, every run of requests keeps bitmaps,
inodes, directories and path lists consistent.
-/

namespace OsLabs.Vsfs

open OsLabs.Transition OsLabs.Namespace

structure Consistent (s : Fs) : Prop where
  inode_bit : ∀ i, i < s.disk.numInodes →
    (s.disk.ibitmap.bmap i = true ↔ (s.disk.inodes i).ftype ≠ .free)
  data_bit : ∀ b, b < s.disk.numData →
    (s.disk.dbitmap.bmap b = true ↔ (s.disk.data b).ftype ≠ .free)
  inode_count : s.disk.ibitmap.numAllocated =
    (List.range s.disk.numInodes).countP s.disk.ibitmap.bmap
  data_count : s.disk.dbitmap.numAllocated =
    (List.range s.disk.numData).countP s.disk.dbitmap.bmap
  owner : ∀ b, b < s.disk.numData → (s.disk.data b).ftype ≠ .free →
    ∃! i, i < s.disk.numInodes ∧ (s.disk.inodes i).ftype ≠ .free ∧
      (s.disk.inodes i).addr = some b
  file_refs : ∀ n, n < s.disk.numInodes → (s.disk.inodes n).ftype = .f →
    (s.disk.inodes n).refCnt = (∑ d ∈ Finset.range s.disk.numInodes,
      (dirOf s.disk d).countP fun e => e.2 = n : ℕ)
  dir_refs : ∀ d, d < s.disk.numInodes → (s.disk.inodes d).ftype = .d →
    (s.disk.inodes d).refCnt = 2 + ((dirOf s.disk d).countP fun e =>
      e.1 ≠ ['.'] ∧ e.1 ≠ ['.', '.'] ∧ (s.disk.inodes e.2).ftype = .d : ℕ)
  names : ∀ d, ((dirOf s.disk d).map Prod.fst).Nodup
  paths : ∀ path ∈ s.files ++ s.dirs,
    ∃ n, s.nameToInum path = some n ∧ resolve s.disk path = some n

variable {s : Disk} {fs : Fs} {d n : ℕ}

/-! ## From the invariant -/

theorem DiskSound.dirOf_cases (h : DiskSound s) (d : ℕ) :
    dirOf s d = [] ∧ children s d = [] ∨ (tree s).kind d = some .dir ∧ DirOk s d := by
  by_cases hd : (tree s).kind d = some .dir
  · exact Or.inr ⟨hd, h.dirs d hd⟩
  · left
    have hnil : dirOf s d = [] := if_neg fun hd' => hd (kind_dir.mpr hd')
    refine ⟨hnil, ?_⟩
    unfold children
    rw [hnil]
    rfl

theorem DiskSound.countP_file (h : DiskSound s) (hn : (tree s).kind n = some .file) (d : ℕ) :
    (dirOf s d).countP (fun e => e.2 = n) = (children s d).countP fun e => e.2 = n := by
  obtain ⟨hnil, hnil'⟩ | ⟨hd, p, heq, hp, _⟩ := h.dirOf_cases d
  · rw [hnil, hnil']
  · have hne : ∀ i, (tree s).kind i = some .dir → i ≠ n := by
      rintro i hi rfl
      rw [hn] at hi
      cases hi
    rw [heq, List.countP_cons_of_neg (by simpa using hne d hd),
      List.countP_cons_of_neg (by simpa using hne p hp)]

theorem DiskSound.countP_dir (h : DiskSound s) (d : ℕ) :
    (dirOf s d).countP (fun e => e.1 ≠ ['.'] ∧ e.1 ≠ ['.', '.'] ∧ (s.inodes e.2).ftype = .d) =
      (children s d).countP fun e => (tree s).kind e.2 = some .dir := by
  obtain ⟨hnil, hnil'⟩ | ⟨_, p, heq, _, hnames⟩ := h.dirOf_cases d
  · rw [hnil, hnil']
    rfl
  · rw [heq, List.countP_cons_of_neg (by simp), List.countP_cons_of_neg (by simp)]
    apply List.countP_congr
    intro e he
    obtain ⟨hdot, hdots⟩ := nameChars_ne_dots (hnames e he)
    have hlt : e.2 < s.numInodes :=
      Finset.mem_range.mp (h.links.within e.2 (h.links.target d e he))
    simp [Ne.symm hdot, Ne.symm hdots, kind_dir, hlt]

theorem DiskSound.names (h : DiskSound s) (d : ℕ) : ((dirOf s d).map Prod.fst).Nodup := by
  obtain ⟨hnil, _⟩ | ⟨_, hok⟩ := h.dirOf_cases d
  · rw [hnil]
    exact List.nodup_nil
  · exact hok.names_nodup (h.links.names d)

theorem FsSound.consistent (h : FsSound fs) : Consistent fs := by
  have hstore := h.disk.storage
  refine ⟨fun i hi => (hstore.inode i hi).bit, fun b hb => (hstore.block b hb).bit, ?_, ?_, ?_, ?_,
    ?_, h.disk.names, ?_⟩
  · rw [hstore.icount, Bitmap.popcount, hstore.isize]
  · rw [hstore.dcount, Bitmap.popcount, hstore.dsize]
  · intro b hb htype
    obtain ⟨i, hi, haddr⟩ := hstore.owned b hb htype
    refine ⟨i, ⟨hi, ?_, haddr⟩, fun j hj => hstore.addr_inj j i b hj.1 hi hj.2.2 haddr⟩
    intro hfree
    rw [(hstore.inode i hi).free_addr hfree] at haddr
    cases haddr
  · intro n hn htype
    have hfile := kind_file.mpr ⟨hn, htype⟩
    rw [Finset.sum_congr rfl fun d _ => h.disk.countP_file hfile d]
    exact h.disk.links.file_refs n hfile
  · intro d hd htype
    rw [h.disk.countP_dir d]
    exact h.disk.links.dir_refs d (kind_dir.mpr ⟨hd, htype⟩)
  · intro path hpath
    obtain hpath | hpath := List.mem_append.mp hpath
    · obtain ⟨n, hn, _, hl⟩ := h.paths.files path hpath
      obtain ⟨names, name, _, hnames, hname, rfl, _, _, _, hwalk⟩ := hl.walks h.paths h.disk
      exact ⟨n, hn, (resolve_pathOf _ (hnames.append hname)).trans hwalk⟩
    · obtain ⟨n, hn, _⟩ := h.paths.dirs path hpath
      obtain ⟨names, hnames, rfl, hwalk⟩ := h.paths.dir_path h.disk hpath
      exact ⟨n, hn, (resolve_pathOf _ hnames).trans (hwalk.trans hn)⟩

/-! ## The first state -/

theorem Bitmap.popcount_init (size : ℕ) : (Bitmap.init size).popcount = 0 := by
  simp [Bitmap.popcount, Bitmap.init]

/-- The root directory in inode 0 and block 0. -/
def Disk.first (numInodes numData : ℕ) : Disk where
  numInodes := numInodes
  numData := numData
  ibitmap := (Bitmap.init numInodes).mark 0
  inodes := Function.update (fun _ => Inode.init) 0 ⟨.d, some 0, 2⟩
  dbitmap := (Bitmap.init numData).mark 0
  data := Function.update (fun _ => Block.init) 0 ⟨.d, 2, [(['.'], 0), (['.', '.'], 0)], []⟩

def Fs.first (numInodes numData : ℕ) : Fs where
  disk := Disk.first numInodes numData
  files := []
  dirs := [['/']]
  nameToInum := Function.update (fun _ => none) ['/'] (some 0)

variable {numInodes numData : ℕ}

theorem Fs.init_eq (hi : 1 ≤ numInodes) (hd : 1 ≤ numData) :
    Fs.init numInodes numData = some (Fs.first numInodes numData) := by
  have hmark : ∀ size, 1 ≤ size → (Bitmap.init size).markAllocated 0 =
      some ((Bitmap.init size).mark 0) := fun size hsize => if_pos ⟨hsize, rfl⟩
  have hi' : 0 < numInodes := hi
  have hd' : 0 < numData := hd
  unfold Fs.init
  rw [hmark numInodes hi, hmark numData hd]
  simp [Disk.onInode, Disk.onBlock, Disk.inode, Disk.block, hi', hd', Disk.setInode,
    Disk.setBlock, Block.setType, Block.init, Block.addDirEntry, maxUsed, Inode.setAll, Fs.first,
    Disk.first]

theorem Disk.first_storage (hi : 1 ≤ numInodes) (hd : 1 ≤ numData) :
    StorageSound (Disk.first numInodes numData) := by
  have hcount : ∀ size, 1 ≤ size → ((Bitmap.init size).mark 0).numAllocated =
      ((Bitmap.init size).mark 0).popcount := by
    intro size hsize
    rw [Bitmap.popcount_mark (b := Bitmap.init size) hsize rfl, Bitmap.popcount_init]
    rfl
  have hinode : ∀ i, i ≠ 0 → (Disk.first numInodes numData).inodes i = Inode.init := by
    intro i hi
    simp [Disk.first, hi]
  have hblock : ∀ b, b ≠ 0 → (Disk.first numInodes numData).data b = Block.init := by
    intro b hb
    simp [Disk.first, hb]
  refine ⟨rfl, rfl, hcount numInodes hi, hcount numData hd, ?_, ?_, ?_, ?_⟩
  · intro i _
    by_cases hi0 : i = 0
    · subst hi0
      refine ⟨by simp [Disk.first, Bitmap.mark], ?_, ?_, ?_⟩
      · simp [Disk.first]
      · simp [Disk.first]
      · rintro b ⟨⟩
        exact ⟨hd, rfl⟩
    · refine ⟨?_, ?_, ?_, ?_⟩ <;> rw [hinode i hi0]
      · simp [Disk.first, Bitmap.mark, Bitmap.init, Inode.init, hi0]
      · exact fun _ => rfl
      · exact fun hd => by cases hd
      · exact fun b hb => by cases hb
  · intro b _
    by_cases hb0 : b = 0
    · subst hb0
      refine ⟨by simp [Disk.first, Bitmap.mark], ?_, ?_⟩
      · simp [Disk.first]
      · simp [Disk.first, maxUsed]
    · refine ⟨?_, ?_, ?_⟩ <;> rw [hblock b hb0]
      · simp [Disk.first, Bitmap.mark, Bitmap.init, Block.init, hb0]
      · exact fun _ => ⟨rfl, rfl⟩
      · exact fun hd => by cases hd
  · intro i j b _ _ hib hjb
    have hzero : ∀ k, ((Disk.first numInodes numData).inodes k).addr = some b → k = 0 := by
      intro k hk
      by_contra hk0
      rw [hinode k hk0] at hk
      cases hk
    rw [hzero i hib, hzero j hjb]
  · intro b _ htype
    by_cases hb0 : b = 0
    · exact ⟨0, hi, by rw [hb0]; rfl⟩
    · rw [hblock b hb0] at htype
      exact absurd rfl htype

theorem Disk.first_kind (hi : 1 ≤ numInodes) {i : ℕ}
    (hkind : (tree (Disk.first numInodes numData)).kind i ≠ none) :
    i = 0 ∧ (tree (Disk.first numInodes numData)).kind i = some .dir := by
  by_cases hi0 : i = 0
  · exact ⟨hi0, by rw [hi0]; exact kind_dir.mpr ⟨hi, rfl⟩⟩
  · exfalso
    apply hkind
    show (if i < numInodes then kindOf ((Disk.first numInodes numData).inodes i).ftype else none)
      = none
    rw [show (Disk.first numInodes numData).inodes i = Inode.init by simp [Disk.first, hi0]]
    split <;> rfl

theorem Disk.first_sound (hi : 1 ≤ numInodes) (hd : 1 ≤ numData) :
    DiskSound (Disk.first numInodes numData) := by
  have hroot : (tree (Disk.first numInodes numData)).kind 0 = some .dir :=
    kind_dir.mpr ⟨hi, rfl⟩
  have hdir : dirOf (Disk.first numInodes numData) 0 = [(['.'], 0), (['.', '.'], 0)] :=
    dirOf_eq (s := Disk.first numInodes numData) hi rfl rfl
  have hchildren : ∀ i, children (Disk.first numInodes numData) i = [] := by
    intro i
    unfold children
    by_cases hi0 : i = 0
    · rw [hi0, hdir]
      rfl
    · rw [dirOf_nil (by simp [Disk.first, hi0, Inode.init])]
      rfl
  have hentries : ∀ i, (tree (Disk.first numInodes numData)).entries i = [] := hchildren
  have hfile : ∀ n, (tree (Disk.first numInodes numData)).kind n ≠ some .file := by
    intro n hn
    have := (Disk.first_kind hi (by rw [hn]; exact Option.some_ne_none _)).2
    rw [hn] at this
    cases this
  refine ⟨Disk.first_storage hi hd, ?_, ?_⟩
  · intro i hkind
    obtain ⟨rfl, _⟩ := Disk.first_kind hi (by rw [hkind]; exact Option.some_ne_none _)
    refine ⟨0, ?_, hroot, ?_⟩
    · rw [hchildren, hdir]
    · rw [hchildren]
      exact fun e he => by cases he
  · refine ⟨?_, hroot, ?_, ?_, ?_, ?_, ?_, ?_, ?_⟩
    · intro n hn
      rw [(Disk.first_kind hi hn).1]
      exact Finset.mem_range.mpr hi
    · exact fun d hne => absurd (hentries d) hne
    · intro d e he
      rw [hentries] at he
      cases he
    · intro d
      rw [hentries]
      exact List.nodup_nil
    · exact fun n hn => absurd hn (hfile n)
    · exact fun n hn => absurd hn (hfile n)
    · intro d hd
      obtain ⟨rfl, _⟩ := Disk.first_kind hi (by rw [hd]; exact Option.some_ne_none _)
      rw [Tree.subdirs, hentries]
      rfl
    · intro n hn
      rw [(Disk.first_kind hi hn).1]

theorem Fs.first_sound (hi : 1 ≤ numInodes) (hd : 1 ≤ numData) :
    FsSound (Fs.first numInodes numData) := by
  have hroot : (Fs.first numInodes numData).nameToInum ['/'] = some 0 := by
    simp [Fs.first]
  refine ⟨Disk.first_sound hi hd, ⟨List.mem_singleton_self _, hroot⟩, ?_, ?_, ?_, List.nodup_nil⟩
  · intro path hpath
    rw [List.mem_singleton.mp hpath]
    exact ⟨0, hroot, kind_dir.mpr ⟨hi, rfl⟩, Or.inl rfl⟩
  · exact fun path hpath => absurd hpath List.not_mem_nil
  · intro p hp q hq _
    rw [List.mem_singleton.mp hp, List.mem_singleton.mp hq]

/-! ## Every run -/

theorem FsSound.step {fs' : Fs} {a : Act} (h : FsSound fs) (hstep : step fs a = some fs') :
    FsSound fs' := by
  obtain ⟨s', rc, heq, hsound, _⟩ := h.perform a
  unfold Vsfs.step at hstep
  rw [heq] at hstep
  exact Option.some.inj hstep ▸ hsound

/-- In every state that is reached the file system is consistent, and from there
no request fails an assertion, nor changes the disk when it returns -1. -/
theorem fs_consistent (numInodes numData : ℕ) (hi : 1 ≤ numInodes) (hd : 1 ≤ numData) :
    ∃ s₀, Fs.init numInodes numData = some s₀ ∧ ∀ s, Reach step anyStep s₀ s →
      Consistent s ∧ ∀ a, ∃ s' rc, perform s a = some (s', rc) ∧
        (rc = -1 → s'.disk = s.disk) := by
  refine ⟨_, Fs.init_eq hi hd, fun s hreach => ?_⟩
  have hsound : FsSound s :=
    hreach.invariant (Fs.first_sound hi hd) fun _ _ _ h _ hstep => h.step hstep
  refine ⟨hsound.consistent, fun a => ?_⟩
  obtain ⟨s', rc, heq, _, hsame⟩ := hsound.perform a
  exact ⟨s', rc, heq, hsame⟩

/-- The default sizes. -/
theorem fs_consistent_default : ∃ s₀, Fs.init 8 8 = some s₀ ∧ ∀ s, Reach step anyStep s₀ s →
    Consistent s ∧ ∀ a, ∃ s' rc, perform s a = some (s', rc) ∧ (rc = -1 → s'.disk = s.disk) :=
  fs_consistent 8 8 (by decide) (by decide)

/-- A linked file in a directory is written and loses one of its names. -/
example : ((Fs.init 8 8).bind fun s =>
    (run step s [.mkdir 0 0, .create 1 1, .append 0 0, .link 0 2 0, .delete 0]).map fun s =>
      (s.files, s.dirs, (s.disk.inodes 2).refCnt, s.disk.dbitmap.numAllocated)) =
    some ([['/', 'c']], [['/'], ['/', 'a']], 1, 3) := by
  decide +kernel

end OsLabs.Vsfs
