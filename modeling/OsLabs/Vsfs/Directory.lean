import Mathlib
import OsLabs.Lib.Namespace
import OsLabs.Vsfs.FileSystem
import OsLabs.Vsfs.Storage

/-!
# Directories on disk

The entries of the directory blocks form a directory tree with hard links. Each
operation on the disk is one step of that tree.
-/

namespace OsLabs.Vsfs

open OsLabs.Namespace

/-- The entries of a directory, with `.` and `..` in front. -/
def dirOf (s : Disk) (i : ℕ) : List (Path × ℕ) :=
  if i < s.numInodes ∧ (s.inodes i).ftype = .d then
    match (s.inodes i).addr with
    | none => []
    | some b => (s.data b).dirList
  else []

def children (s : Disk) (i : ℕ) : List (Path × ℕ) := (dirOf s i).drop 2

def kindOf : FType → Option Kind
  | .d => some .dir
  | .f => some .file
  | .free => none

def tree (s : Disk) : Tree ℕ Path where
  kind i := if i < s.numInodes then kindOf (s.inodes i).ftype else none
  entries := children s
  refs i := (s.inodes i).refCnt

/-- The directory `i` starts with itself and a directory above. -/
def DirOk (s : Disk) (i : ℕ) : Prop :=
  ∃ p, dirOf s i = (['.'], i) :: (['.', '.'], p) :: children s i ∧
    (tree s).kind p = some .dir ∧ ∀ e ∈ children s i, e.1 ∈ nameChars

structure DiskSound (s : Disk) : Prop where
  storage : StorageSound s
  dirs : ∀ i, (tree s).kind i = some .dir → DirOk s i
  links : (tree s).Sound (Finset.range s.numInodes) 0

variable {s s' : Disk} {i m n b : ℕ} {name : Path}

theorem kindOf_dir {ftype : FType} : kindOf ftype = some .dir ↔ ftype = .d := by
  cases ftype <;> simp [kindOf]

theorem kindOf_file {ftype : FType} : kindOf ftype = some .file ↔ ftype = .f := by
  cases ftype <;> simp [kindOf]

theorem kindOf_none {ftype : FType} : kindOf ftype = none ↔ ftype = .free := by
  cases ftype <;> simp [kindOf]

theorem kind_dir : (tree s).kind i = some .dir ↔ i < s.numInodes ∧ (s.inodes i).ftype = .d := by
  by_cases hi : i < s.numInodes <;> simp [tree, hi, kindOf_dir]

theorem kind_file : (tree s).kind i = some .file ↔ i < s.numInodes ∧ (s.inodes i).ftype = .f := by
  by_cases hi : i < s.numInodes <;> simp [tree, hi, kindOf_file]

theorem dirOf_eq (hi : i < s.numInodes) (htype : (s.inodes i).ftype = .d)
    (haddr : (s.inodes i).addr = some b) : dirOf s i = (s.data b).dirList := by
  simp [dirOf, hi, htype, haddr]

theorem dirOf_nil (htype : (s.inodes i).ftype ≠ .d) : dirOf s i = [] := by
  simp [dirOf, htype]

theorem DiskSound.addr_of_dir (h : DiskSound s) (hm : (tree s).kind m = some .dir) :
    ∃ b, (s.inodes m).addr = some b ∧ b < s.numData ∧ (s.data b).ftype = .d ∧
      dirOf s m = (s.data b).dirList := by
  obtain ⟨hmi, htype⟩ := kind_dir.mp hm
  obtain ⟨b, hb⟩ := Option.ne_none_iff_exists'.mp ((h.storage.inode m hmi).dir_addr htype)
  obtain ⟨hbd, hbt⟩ := (h.storage.inode m hmi).addr_type b hb
  exact ⟨b, hb, hbd, hbt.trans htype, dirOf_eq hmi htype hb⟩

/-- The block of one directory changes. -/
theorem dirOf_setBlock (h : StorageSound s) {blk : Block} (hm : m < s.numInodes)
    (htype : (s.inodes m).ftype = .d) (haddr : (s.inodes m).addr = some b) (i : ℕ) :
    dirOf (s.setBlock b blk) i = if i = m then blk.dirList else dirOf s i := by
  split
  · rename_i him
    rw [him, dirOf_eq (s := s.setBlock b blk) hm htype haddr]
    simp [Disk.setBlock]
  · rename_i him
    unfold dirOf
    split
    · rename_i hi
      have hi' : i < s.numInodes ∧ (s.inodes i).ftype = .d := hi
      rw [if_pos hi']
      show (match (s.inodes i).addr with
        | none => []
        | some b' => ((s.setBlock b blk).data b').dirList) = _
      cases hib : (s.inodes i).addr with
      | none => rfl
      | some b' =>
          have hne : b' ≠ b := by
            rintro rfl
            exact h.not_shared hm haddr hi'.1 him hib
          simp [Disk.setBlock, hne]
    · rename_i hi
      exact (if_neg hi).symm

/-- Inodes that are no directories change, and blocks that belong to none. -/
theorem dirOf_congr (hnum : s'.numInodes = s.numInodes)
    (hinode : ∀ i, i < s.numInodes → (s.inodes i).ftype = .d ∨ (s'.inodes i).ftype = .d →
      (s'.inodes i).ftype = (s.inodes i).ftype ∧ (s'.inodes i).addr = (s.inodes i).addr)
    (hblock : ∀ i b, i < s.numInodes → (s.inodes i).ftype = .d → (s.inodes i).addr = some b →
      (s'.data b).dirList = (s.data b).dirList) (i : ℕ) : dirOf s' i = dirOf s i := by
  unfold dirOf
  rw [hnum]
  by_cases hi : i < s.numInodes ∧ (s.inodes i).ftype = .d
  · obtain ⟨htype, haddr⟩ := hinode i hi.1 (Or.inl hi.2)
    rw [htype, haddr, if_pos hi, if_pos hi]
    cases hb : (s.inodes i).addr with
    | none => rfl
    | some b => exact hblock i b hi.1 hi.2 hb
  · rw [if_neg hi, if_neg]
    rintro ⟨hlt, hd⟩
    exact hi ⟨hlt, (hinode i hlt (Or.inr hd)).1 ▸ hd⟩

theorem DirOk.congr (h : DirOk s i) (hdir : dirOf s' i = dirOf s i)
    (hkind : ∀ p, (tree s).kind p = some .dir → (tree s').kind p = some .dir) : DirOk s' i := by
  obtain ⟨p, heq, hp, hnames⟩ := h
  refine ⟨p, ?_, hkind p hp, ?_⟩
  · rw [children, hdir]
    exact heq
  · rw [children, hdir]
    exact hnames

/-- One more entry at the end of the directory `m`. -/
theorem DirOk.attach (h : DirOk s m) (hname : name ∈ nameChars)
    (hdir : dirOf s' m = dirOf s m ++ [(name, n)])
    (hkind : ∀ p, (tree s).kind p = some .dir → (tree s').kind p = some .dir) :
    DirOk s' m ∧ children s' m = children s m ++ [(name, n)] := by
  obtain ⟨p, heq, hp, hnames⟩ := h
  have hchildren : children s' m = children s m ++ [(name, n)] := by
    unfold children
    rw [hdir, heq]
    rfl
  refine ⟨⟨p, ?_, hkind p hp, ?_⟩, hchildren⟩
  · rw [hchildren, hdir, heq]
    rfl
  · intro e he
    rw [hchildren] at he
    obtain he | he := List.mem_append.mp he
    · exact hnames e he
    · rw [List.mem_singleton.mp he]
      exact hname

theorem nameChars_ne_dots (hname : name ∈ nameChars) : ['.'] ≠ name ∧ ['.', '.'] ≠ name := by
  constructor <;>
  · rintro rfl
    simp [nameChars] at hname

/-- The entry of a name goes from the directory `m`. -/
theorem DirOk.detach (h : DirOk s m) (hname : name ∈ nameChars)
    (hdir : dirOf s' m = (dirOf s m).eraseP fun e => e.1 = name)
    (hkind : ∀ p, (tree s).kind p = some .dir → (tree s').kind p = some .dir) :
    DirOk s' m ∧ children s' m = (children s m).eraseP fun e => e.1 = name := by
  obtain ⟨p, heq, hp, hnames⟩ := h
  obtain ⟨hdot, hdots⟩ := nameChars_ne_dots hname
  have herase : dirOf s' m = (['.'], m) :: (['.', '.'], p) ::
      (children s m).eraseP fun e => e.1 = name := by
    rw [hdir, heq, List.eraseP_cons_of_neg (by simpa using hdot),
      List.eraseP_cons_of_neg (by simpa using hdots)]
  have hchildren : children s' m = (children s m).eraseP fun e => e.1 = name := by
    conv_lhs => unfold children
    rw [herase]
    rfl
  refine ⟨⟨p, ?_, hkind p hp, ?_⟩, hchildren⟩
  · rw [hchildren, herase]
  · intro e he
    rw [hchildren] at he
    exact hnames e (List.mem_of_mem_eraseP he)

/-- Names are unique with `.` and `..` as well. -/
theorem DirOk.names_nodup (h : DirOk s m) (hnodup : ((children s m).map Prod.fst).Nodup) :
    ((dirOf s m).map Prod.fst).Nodup := by
  obtain ⟨p, heq, _, hnames⟩ := h
  have hnot : ∀ dots, (∀ name ∈ nameChars, dots ≠ name) →
      dots ∉ (children s m).map Prod.fst := by
    intro dots hdots hmem
    obtain ⟨e, he, rfl⟩ := List.mem_map.mp hmem
    exact hdots e.1 (hnames e he) rfl
  rw [heq, List.map_cons, List.map_cons, List.nodup_cons, List.nodup_cons]
  refine ⟨?_, hnot _ fun name hname => (nameChars_ne_dots hname).2, hnodup⟩
  intro hmem
  obtain hmem | hmem := List.mem_cons.mp hmem
  · simp at hmem
  · exact hnot _ (fun name hname => (nameChars_ne_dots hname).1) hmem

end OsLabs.Vsfs
