import Mathlib
import OsLabs.Lfs.Agreement
import OsLabs.Lfs.Tree

/-!
# Walks through the tree

As long as inodes are read as they are in memory, a walk follows the tree of names, and a call
that succeeds changes the tree at one entry or one file.
-/

namespace OsLabs.Lfs

open OsLabs.Transition

variable {c : Config} {s s' t : LFS} {a : Act} {d n p : ℕ} {i pi : Inode} {name path : Path}
  {names : List Path} {slots : List Slot}

/-! ## The tree of a log -/

def nodeAt (disk : List Block) (i : Inode) : Node :=
  if i.type = .dir then .dir (slotsOf disk i.pointers.reduceOption) else .file i

def treeOf (s : LFS) : Tree := fun n => (inodeOf s n).map (nodeAt s.disk)

theorem nodeAt_dir {disk : List Block} {addrs : List ℕ} (h : DirInode disk i addrs) :
    nodeAt disk i = .dir (slotsOf disk addrs) := by
  have haddrs : i.pointers.reduceOption = addrs := by
    rw [h.pointers, List.reduceOption_append, List.reduceOption_replicate_none, List.append_nil]
    simp [List.reduceOption]
  rw [nodeAt, if_pos h.type, haddrs]

theorem nodeAt_file {disk : List Block} (h : i.type = .reg) : nodeAt disk i = .file i := by
  rw [nodeAt, if_neg (by rw [h]; decide)]

theorem nodeAt_kept {disk disk' : List Block} (h : InodeOk disk i) (hkept : Kept disk disk') :
    nodeAt disk' i = nodeAt disk i := by
  obtain ⟨addrs, hdir⟩ | hreg := h
  · rw [nodeAt_dir hdir, nodeAt_dir (hdir.kept hkept), slotsOf_kept hkept hdir.blocks]
  · rw [nodeAt_file hreg.type, nodeAt_file hreg.type]

theorem treeOf_eq_none : treeOf s n = none ↔ inodeOf s n = none := Option.map_eq_none_iff

theorem treeOf_of_inode (h : inodeOf s n = some i) : treeOf s n = some (nodeAt s.disk i) := by
  rw [treeOf, h]
  rfl

theorem LogOk.inodeOf_ok (h : LogOk s) (hi : inodeOf s n = some i) : InodeOk s.disk i := by
  obtain ⟨a, -, ha⟩ := inodeAt_eq_some.mp hi
  exact h.blocks a _ ha

theorem LogOk.treeOf_eq_dir (h : LogOk s) (hd : treeOf s d = some (.dir slots)) :
    ∃ i addrs, inodeOf s d = some i ∧ DirInode s.disk i addrs ∧ slotsOf s.disk addrs = slots := by
  obtain ⟨i, hi, hnode⟩ := Option.map_eq_some_iff.mp hd
  obtain ⟨addrs, hdir⟩ | hreg := h.inodeOf_ok hi
  · rw [nodeAt_dir hdir] at hnode
    exact ⟨i, addrs, hi, hdir, Node.dir.inj hnode⟩
  · rw [nodeAt_file hreg.type] at hnode
    cases hnode

theorem treeOf_eq_file : treeOf s n = some (.file i) ↔ inodeOf s n = some i ∧ i.type = .reg := by
  constructor
  · intro hn
    obtain ⟨j, hj, hnode⟩ := Option.map_eq_some_iff.mp hn
    cases htype : j.type with
    | dir =>
        rw [nodeAt, if_pos htype] at hnode
        cases hnode
    | reg =>
        rw [nodeAt_file htype] at hnode
        exact Node.file.inj hnode ▸ ⟨hj, htype⟩
  · rintro ⟨hi, htype⟩
    rw [treeOf_of_inode hi, nodeAt_file htype]

theorem treeOf_congr (hlog : LogOk s) (hkept : Kept s.disk t.disk) (h : inodeOf t n = inodeOf s n) :
    treeOf t n = treeOf s n := by
  rw [treeOf, treeOf, h]
  refine Option.map_congr fun i hi => ?_
  exact nodeAt_kept (hlog.inodeOf_ok hi) hkept

theorem treeOf_grown (hlog : LogOk s) (hmap : Mapped s) (h : Grown s t) : treeOf t = treeOf s :=
  funext fun _ => treeOf_congr hlog h.kept (hmap.inodeOf_eq h.kept (congrFun h.inodeMap _))

/-! ## Walks -/

/-- A walk, which fails at a name that is not found and raises an exception at a file. -/
def Tree.walk (v : Tree) : ℕ → List Path → Option (Option ℕ)
  | d, [] => some (some d)
  | d, name :: names =>
      match v d with
      | some (.dir slots) =>
          match findName slots name with
          | none => some none
          | some n => v.walk n names
      | _ => none

variable {v : Tree}

theorem Tree.walk_join (v : Tree) (d : ℕ) (names : List Path) :
    (v.walk d names).join = v.resolve d names := by
  induction names generalizing d with
  | nil => rfl
  | cons name names ih =>
      rw [Tree.walk, Tree.resolve]
      cases hd : v d with
      | none => rw [Tree.slots_none hd]; rfl
      | some node =>
          rw [Tree.slots_eq hd]
          cases node with
          | file i => rfl
          | dir slots =>
              rw [Node.slots]
              cases hname : findName slots name with
              | none =>
                  simp only [hname]
                  rfl
              | some n =>
                  simp only [hname, Option.bind_some]
                  exact ih n

theorem Tree.walk_eq_some : v.walk d names = some (some p) ↔ v.resolve d names = some p := by
  rw [← v.walk_join, Option.join_eq_some_iff]

theorem Tree.Sound.find_mapped (h : v.Sound) (hfind : findName (v.slots d) name = some n) :
    v n ≠ none :=
  h.named d _ (findName_eq_some hfind) n rfl

theorem Tree.Sound.resolve_mapped (h : v.Sound) (hd : v d ≠ none)
    (hresolve : v.resolve d names = some p) : v p ≠ none := by
  induction names generalizing d with
  | nil => exact Option.some.inj hresolve ▸ hd
  | cons name names ih =>
      obtain ⟨n, hn, hrest⟩ := Option.bind_eq_some_iff.mp hresolve
      exact ih (h.find_mapped hn) hrest

/-- What the calls read is what is in memory, and the tree is sound. -/
structure ReadOk (c : Config) (s : LFS) : Prop where
  log : LogOk s
  mapped : Mapped s
  sound : (treeOf s).Sound
  reads : ∀ n i, inodeOf s n = some i → getInodeFromInumber c s n = some i

theorem ReadOk.lookup_dir (h : ReadOk c s) (hd : treeOf s d = some (.dir slots)) (name : Path) :
    ∃ i addrs, inodeOf s d = some i ∧ DirInode s.disk i addrs ∧ slotsOf s.disk addrs = slots ∧
      lookup c s d name = some (findName slots name, i) := by
  obtain ⟨i, addrs, hi, hdir, rfl⟩ := h.log.treeOf_eq_dir hd
  refine ⟨i, addrs, hi, hdir, rfl, ?_⟩
  rw [lookup, h.reads d i hi]
  simp only [Option.bind_eq_bind, Option.bind_some, hdir.type, if_true, hdir.lookupFrom]
  rfl

theorem ReadOk.lookup_file (h : ReadOk c s) (hd : treeOf s d = some (.file i)) (name : Path) :
    lookup c s d name = none := by
  obtain ⟨hi, htype⟩ := treeOf_eq_file.mp hd
  rw [lookup, h.reads d i hi]
  simp only [Option.bind_eq_bind, Option.bind_some, htype]
  rfl

theorem ReadOk.walkDirs_eq (h : ReadOk c s) (hd : treeOf s d ≠ none) (names : List Path) :
    walkDirs c s d names = (treeOf s).walk d names := by
  induction names generalizing d with
  | nil => rfl
  | cons name names ih =>
      rw [walkDirs, Tree.walk]
      obtain ⟨node, hnode⟩ := Option.ne_none_iff_exists'.mp hd
      rw [hnode]
      cases node with
      | file i =>
          rw [h.lookup_file hnode]
          rfl
      | dir slots =>
          obtain ⟨i, addrs, -, hdir, -, hlookup⟩ := h.lookup_dir hnode name
          rw [hlookup]
          simp only [Option.bind_eq_bind, Option.bind_some]
          cases hname : findName slots name with
          | none => rfl
          | some n =>
              simp only [hdir.type, if_true]
              have hfind : findName ((treeOf s).slots d) name = some n := by
                rw [Tree.slots_eq hnode]
                exact hname
              exact ih (h.sound.find_mapped hfind)

/-! ## Paths -/

/-- The names that lead to the directory of a path. -/
def dirsOf (path : Path) : List Path := (path.splitOn '/').tail.dropLast

def lastOf (path : Path) : Path := (path.splitOn '/').getLastD []

def Absolute (path : Path) : Prop := (path.splitOn '/').head? = some []

instance (path : Path) : Decidable (Absolute path) := inferInstanceAs (Decidable (_ = _))

/-- The inode number that a path resolves to. -/
def resolution (c : Config) (s : LFS) (path : Path) : Option ℕ :=
  (walkPath c s path).bind Walk.inodeNumber

def Tree.resolution (v : Tree) (path : Path) : Option ℕ :=
  if Absolute path then v.resolve rootInode (dirsOf path ++ [lastOf path]) else none

theorem walkPath_eq (c : Config) (s : LFS) (path : Path) :
    walkPath c s path = if Absolute path then
      (walkDirs c s rootInode (dirsOf path)).bind fun
        | none => some Walk.error
        | some p => (lookup c s p (lastOf path)).map fun r => ⟨r.1, lastOf path, some (p, r.2)⟩
      else some Walk.error := by
  rw [walkPath]
  dsimp only
  split
  · next habsolute =>
      refine Eq.trans (congrArg (Option.bind _) (funext fun result => ?_)) (if_pos habsolute).symm
      cases result with
      | none => rfl
      | some p => exact (Option.map_eq_bind ..).symm
  · next habsolute => exact (if_neg habsolute).symm

theorem Tree.Sound.root_mapped (h : v.Sound) : v rootInode ≠ none := by
  obtain ⟨slots, hroot⟩ := h.root
  exact hroot ▸ Option.some_ne_none _

/-- The walk of a path, by the tree. -/
theorem ReadOk.walkPath_cases (h : ReadOk c s) (path : Path) :
    (walkPath c s path = some Walk.error ∧
      (¬ Absolute path ∨ (treeOf s).walk rootInode (dirsOf path) = some none)) ∨
    Absolute path ∧ ((walkPath c s path = none ∧
      ((treeOf s).walk rootInode (dirsOf path) = none ∨
        ∃ p i, (treeOf s).resolve rootInode (dirsOf path) = some p ∧
          treeOf s p = some (.file i))) ∨
      ∃ p pi slots, (treeOf s).resolve rootInode (dirsOf path) = some p ∧
        inodeOf s p = some pi ∧ treeOf s p = some (.dir slots) ∧
        walkPath c s path =
          some ⟨findName slots (lastOf path), lastOf path, some (p, pi)⟩) := by
  rw [walkPath_eq]
  by_cases habsolute : Absolute path
  · rw [if_pos habsolute, h.walkDirs_eq h.sound.root_mapped]
    cases hwalk : (treeOf s).walk rootInode (dirsOf path) with
    | none => exact Or.inr ⟨habsolute, Or.inl ⟨rfl, Or.inl rfl⟩⟩
    | some result =>
        cases result with
        | none => exact Or.inl ⟨rfl, Or.inr rfl⟩
        | some p =>
            refine Or.inr ⟨habsolute, ?_⟩
            have hp := Tree.walk_eq_some.mp hwalk
            obtain ⟨node, hnode⟩ := Option.ne_none_iff_exists'.mp
              (h.sound.resolve_mapped h.sound.root_mapped hp)
            cases node with
            | file i =>
                refine Or.inl ⟨?_, Or.inr ⟨p, i, hp, hnode⟩⟩
                simp only [Option.bind_some, h.lookup_file hnode, Option.map_none]
            | dir slots =>
                obtain ⟨pi, addrs, hpi, -, -, hlookup⟩ := h.lookup_dir hnode (lastOf path)
                refine Or.inr ⟨p, pi, slots, hp, hpi, hnode, ?_⟩
                simp only [Option.bind_some, hlookup, Option.map_some]
  · exact Or.inl ⟨if_neg habsolute, Or.inl habsolute⟩

theorem Tree.resolve_append (v : Tree) (d : ℕ) (names : List Path) (name : Path) :
    v.resolve d (names ++ [name]) =
      (v.resolve d names).bind fun p => findName (v.slots p) name := by
  induction names generalizing d with
  | nil =>
      rw [List.nil_append, Tree.resolve, Tree.resolve, Option.bind_some]
      cases findName (v.slots d) name with
      | none => rfl
      | some n => rfl
  | cons y names ih =>
      rw [List.cons_append, Tree.resolve, Tree.resolve, Option.bind_assoc]
      exact congrArg (Option.bind _) (funext ih)

/-- The directory of a walk, and what it has found there. -/
theorem ReadOk.walk_spec (h : ReadOk c s) {result : Option ℕ}
    (hwalk : walkPath c s path = some ⟨result, name, some (p, pi)⟩) :
    name = lastOf path ∧ (treeOf s).resolve rootInode (dirsOf path) = some p ∧
      inodeOf s p = some pi ∧ ∃ slots, treeOf s p = some (.dir slots) ∧
        result = findName slots name := by
  obtain ⟨herr, -⟩ | ⟨-, ⟨hnone, -⟩ | ⟨p', pi', slots, hp, hpi, hdir, heq⟩⟩ := h.walkPath_cases path
  · cases herr.symm.trans hwalk
  · cases hnone.symm.trans hwalk
  · obtain ⟨rfl, rfl, hparent⟩ := Walk.mk.inj (Option.some.inj (hwalk.symm.trans heq))
    obtain ⟨rfl, rfl⟩ := Prod.mk.inj (Option.some.inj hparent)
    exact ⟨rfl, hp, hpi, slots, hdir, rfl⟩

theorem ReadOk.walk_mapped (h : ReadOk c s) {parent : Option (ℕ × Inode)}
    (hwalk : walkPath c s path = some ⟨some n, name, parent⟩) : treeOf s n ≠ none := by
  obtain ⟨-, p, pi, rfl⟩ := h.log.walk_number hwalk
  obtain ⟨-, -, -, slots, hdir, hn⟩ := h.walk_spec hwalk
  have hfind : findName ((treeOf s).slots p) name = some n := by
    rw [Tree.slots_eq hdir]
    exact hn.symm
  exact h.sound.find_mapped hfind

theorem ReadOk.targets (h : ReadOk c s) (ht : Targets c s path n i) : inodeOf s n = some i := by
  obtain ⟨name, parent, hwalk⟩ := ht.walk
  obtain ⟨j, hj⟩ := Option.ne_none_iff_exists'.mp
    (treeOf_eq_none.not.mp (h.walk_mapped hwalk))
  rw [hj]
  exact (h.reads n j hj).symm.trans ht.inode

/-- A path resolves by the tree. -/
theorem ReadOk.resolution_eq (h : ReadOk c s) (path : Path) :
    resolution c s path = (treeOf s).resolution path := by
  rw [resolution, Tree.resolution, Tree.resolve_append]
  obtain ⟨herr, hcases⟩ | ⟨habsolute, ⟨hnone, hcases⟩ | ⟨p, pi, slots, hp, -, hdir, heq⟩⟩ :=
    h.walkPath_cases path
  · rw [herr]
    obtain hrelative | hmissing := hcases
    · rw [if_neg hrelative]
      rfl
    · rw [← Tree.walk_join, hmissing]
      exact (ite_self _).symm
  · rw [hnone, if_pos habsolute, Option.bind_none]
    obtain hwalk | ⟨p, i, hp, hfile⟩ := hcases
    · rw [← Tree.walk_join, hwalk]
      rfl
    · rw [hp, Option.bind_some, Tree.slots_eq hfile]
      rfl
  · rw [heq, if_pos habsolute, hp, Option.bind_some, Option.bind_some, Tree.slots_eq hdir]
    rfl

end OsLabs.Lfs
