import Mathlib
import OsLabs.Lfs.Changes

/-!
# Calls that are refused or carried out

`__walk_path` checks that the directory it has looked into is one, not the inode that it has
found there: a walk through a file fails the assertion of the next lookup. `file_link` does not
check the walk of its second path.
-/

namespace OsLabs.Lfs

open OsLabs.Transition

variable {c : Config} {s : LFS} {a : Act} {v : Tree} {d n : ℕ} {names : List Path} {path : Path}

/-- The call succeeds, or it returns -1 and changes nothing. -/
def Atomic (c : Config) (s : LFS) (a : Act) : Prop :=
  ∃ ret, (perform c s a).2 = some ret ∧ (0 ≤ ret ∨ ret = -1 ∧ (perform c s a).1 = s)

/-! ## What the calls need -/

def Tree.isDir (v : Tree) (d : ℕ) : Bool :=
  match v d with
  | some (.dir _) => true
  | _ => false

/-- All inodes on the way are directories, the one at the end too. -/
def Tree.Through (v : Tree) : ℕ → List Path → Prop
  | d, [] => v.isDir d = true
  | d, name :: names => v.isDir d = true ∧ ∀ n ∈ findName (v.slots d) name, v.Through n names

instance Tree.decidableThrough (v : Tree) : ∀ names d, Decidable (v.Through d names)
  | [], d => inferInstanceAs (Decidable (v.isDir d = true))
  | name :: names, d =>
      have (n : ℕ) : Decidable (v.Through n names) := v.decidableThrough names n
      inferInstanceAs (Decidable (v.isDir d = true ∧ ∀ n ∈ findName (v.slots d) name, _))

/-- The path does not lead through a file. -/
def PathFits (v : Tree) (path : Path) : Prop :=
  Absolute path → v.Through rootInode (dirsOf path)

instance (v : Tree) (path : Path) : Decidable (PathFits v path) :=
  inferInstanceAs (Decidable (_ → _))

/-- The directory of the path exists. -/
def HasParent (v : Tree) (path : Path) : Prop :=
  Absolute path ∧ ∃ p ∈ v.resolve rootInode (dirsOf path), v.isDir p = true

instance (v : Tree) (path : Path) : Decidable (HasParent v path) :=
  inferInstanceAs (Decidable (_ ∧ _))

/-- No path leads through a file, and a link to a file is made in a directory that exists. -/
def CallFits (s : LFS) : Act → Prop
  | .create path _ => PathFits (treeOf s) path
  | .mkdir path _ => PathFits (treeOf s) path
  | .link srcpath dstpath => PathFits (treeOf s) srcpath ∧
      ∀ n ∈ (treeOf s).resolution srcpath, (treeOf s).isDir n = false → HasParent (treeOf s) dstpath
  | .write path .. => PathFits (treeOf s) path
  | .delete path => PathFits (treeOf s) path

instance (s : LFS) : ∀ a, Decidable (CallFits s a)
  | .create path _ => inferInstanceAs (Decidable (PathFits (treeOf s) path))
  | .mkdir path _ => inferInstanceAs (Decidable (PathFits (treeOf s) path))
  | .link srcpath dstpath => inferInstanceAs (Decidable (PathFits (treeOf s) srcpath ∧
      ∀ n ∈ (treeOf s).resolution srcpath,
        (treeOf s).isDir n = false → HasParent (treeOf s) dstpath))
  | .write path .. => inferInstanceAs (Decidable (PathFits (treeOf s) path))
  | .delete path => inferInstanceAs (Decidable (PathFits (treeOf s) path))

/-! ## Walks that raise an exception -/

theorem Tree.isDir_iff : v.isDir d = true ↔ ∃ slots, v d = some (.dir slots) := by
  rw [Tree.isDir]
  split
  · next slots hd => exact iff_of_true rfl ⟨slots, hd⟩
  · next hne => exact iff_of_false Bool.false_ne_true fun h => h.elim fun slots hd => hne slots hd

theorem Tree.isDir_eq_false (hd : v d ≠ none) :
    v.isDir d = false ↔ ∃ i, v d = some (.file i) := by
  rw [Tree.isDir]
  obtain ⟨node, hnode⟩ := Option.ne_none_iff_exists'.mp hd
  rw [hnode]
  cases node with
  | dir slots => simp
  | file i => simp

theorem Tree.Sound.through_iff (h : v.Sound) (hd : v d ≠ none) :
    v.Through d names ↔ v.walk d names ≠ none ∧
      ∀ p, v.resolve d names = some p → v.isDir p = true := by
  induction names generalizing d with
  | nil =>
      rw [Tree.Through, Tree.walk, Tree.resolve]
      refine ⟨fun hdir => ⟨Option.some_ne_none _, fun p hp => ?_⟩, fun hall => hall.2 d rfl⟩
      exact Option.some.inj hp ▸ hdir
  | cons name names ih =>
      rw [Tree.Through, Tree.walk, Tree.resolve]
      obtain ⟨node, hnode⟩ := Option.ne_none_iff_exists'.mp hd
      cases node with
      | file i =>
          have hfile : v.isDir d = false := (Tree.isDir_eq_false hd).mpr ⟨i, hnode⟩
          simp [hnode, hfile]
      | dir slots =>
          have hdir : v.isDir d = true := Tree.isDir_iff.mpr ⟨slots, hnode⟩
          rw [hnode, Tree.slots_eq hnode, Node.slots]
          cases hname : findName slots name with
          | none => simp [hdir, hname]
          | some n =>
              have hfind : findName (v.slots d) name = some n := by
                rw [Tree.slots_eq hnode]
                exact hname
              have hn := h.find_mapped hfind
              simp only [hdir, true_and, hname, Option.mem_def, Option.some.injEq, forall_eq',
                Option.bind_some]
              exact ih hn

theorem ReadOk.walkPath_eq_none (h : ReadOk c s) :
    walkPath c s path = none ↔ ¬ PathFits (treeOf s) path := by
  rw [PathFits, h.sound.through_iff h.sound.root_mapped]
  obtain ⟨herr, hcases⟩ | ⟨habsolute, ⟨hnone, hcases⟩ | ⟨p, pi, slots, hp, -, hdir, heq⟩⟩ :=
    h.walkPath_cases path
  · rw [herr]
    refine iff_of_false (Option.some_ne_none _) (not_not.mpr fun habsolute => ?_)
    obtain hrelative | hmissing := hcases
    · exact absurd habsolute hrelative
    · refine ⟨hmissing ▸ Option.some_ne_none _, fun p hp => ?_⟩
      rw [← Tree.walk_join, hmissing] at hp
      cases hp
  · refine iff_of_true hnone fun hfits => ?_
    obtain ⟨hwalk, hdirs⟩ := hfits habsolute
    obtain hraises | ⟨p, i, hp, hfile⟩ := hcases
    · exact hwalk hraises
    · have hdir := hdirs p hp
      rw [Tree.isDir, hfile] at hdir
      cases hdir
  · rw [heq]
    refine iff_of_false (Option.some_ne_none _) (not_not.mpr fun _ => ⟨?_, fun p' hp' => ?_⟩)
    · rw [Tree.walk_eq_some.mpr hp]
      exact Option.some_ne_none _
    · obtain rfl := Option.some.inj (hp.symm.trans hp')
      exact Tree.isDir_iff.mpr ⟨slots, hdir⟩

theorem ReadOk.unreadable_iff (h : ReadOk c s) :
    Unreadable c s path ↔ ¬ PathFits (treeOf s) path := by
  rw [← h.walkPath_eq_none, Unreadable, or_iff_left]
  rintro ⟨n, name, parent, hwalk, hnone⟩
  obtain ⟨i, hi⟩ := Option.ne_none_iff_exists'.mp (treeOf_eq_none.not.mp (h.walk_mapped hwalk))
  cases hnone.symm.trans (h.reads n i hi)

/-- The walk of the second path of a link raises an exception or fails. -/
theorem ReadOk.noParent_iff (h : ReadOk c s) :
    (walkPath c s path = none ∨ ∃ name, walkPath c s path = some ⟨none, name, none⟩) ↔
      ¬ HasParent (treeOf s) path := by
  rw [HasParent]
  obtain ⟨herr, hcases⟩ | ⟨habsolute, ⟨hnone, hcases⟩ | ⟨p, pi, slots, hp, -, hdir, heq⟩⟩ :=
    h.walkPath_cases path
  · refine iff_of_true (Or.inr ⟨_, herr⟩) ?_
    rintro ⟨habsolute, p, hp, -⟩
    obtain hrelative | hmissing := hcases
    · exact hrelative habsolute
    · rw [← Tree.walk_join, hmissing] at hp
      cases hp
  · refine iff_of_true (Or.inl hnone) ?_
    rintro ⟨-, p, hp, hdir⟩
    obtain hraises | ⟨p', i, hp', hfile⟩ := hcases
    · rw [← Tree.walk_join, hraises] at hp
      cases hp
    · obtain rfl := Option.some.inj (hp'.symm.trans hp)
      rw [Tree.isDir, hfile] at hdir
      cases hdir
  · refine iff_of_false ?_ (not_not.mpr ⟨habsolute, p, hp, Tree.isDir_iff.mpr ⟨slots, hdir⟩⟩)
    rw [heq]
    rintro (hraises | ⟨name, hfails⟩)
    · cases hraises
    · cases (Walk.mk.inj (Option.some.inj hfails)).2.2

theorem ReadOk.targets_iff (h : ReadOk c s) :
    (∃ i, Targets c s path n i ∧ i.type = .reg) ↔
      (treeOf s).resolution path = some n ∧ (treeOf s).isDir n = false := by
  rw [← h.resolution_eq]
  constructor
  · rintro ⟨i, ht, htype⟩
    have hfile := treeOf_eq_file.mpr ⟨h.targets ht, htype⟩
    obtain ⟨name, parent, hwalk⟩ := ht.walk
    rw [resolution, hwalk]
    exact ⟨rfl, (Tree.isDir_eq_false (hfile ▸ Option.some_ne_none _)).mpr ⟨i, hfile⟩⟩
  · rintro ⟨hn, hdir⟩
    obtain ⟨⟨result, name, parent⟩, hwalk, rfl⟩ := Option.bind_eq_some_iff.mp hn
    obtain ⟨i, hfile⟩ := (Tree.isDir_eq_false (h.walk_mapped hwalk)).mp hdir
    obtain ⟨hi, htype⟩ := treeOf_eq_file.mp hfile
    exact ⟨i, ⟨⟨name, parent, hwalk⟩, h.reads n i hi⟩, htype⟩

/-- The calls raise an exception exactly where a walk does. -/
theorem ReadOk.raises_iff (h : ReadOk c s) : Raises c s a ↔ ¬ CallFits s a := by
  cases a with
  | create path random => exact h.walkPath_eq_none
  | mkdir path random => exact h.walkPath_eq_none
  | link srcpath dstpath =>
      rw [Raises, CallFits, not_and_or, h.unreadable_iff]
      refine or_congr_right ⟨?_, fun hall => ?_⟩
      · rintro ⟨n, i, ht, htype, hdst⟩ hall
        obtain ⟨hn, hdir⟩ := h.targets_iff.mp ⟨i, ht, htype⟩
        exact h.noParent_iff.mp hdst (hall n hn hdir)
      · push Not at hall
        obtain ⟨n, hn, hdir, hparent⟩ := hall
        obtain ⟨i, ht, htype⟩ := h.targets_iff.mpr ⟨hn, hdir⟩
        exact ⟨n, i, ht, htype, h.noParent_iff.mpr hparent⟩
  | write path offset numBlks random => exact h.unreadable_iff
  | delete path =>
      rw [Raises, CallFits, ← h.unreadable_iff, or_iff_left]
      rintro ⟨n, i, ht, -, -, hnone⟩
      cases (inodeOf_eq_none hnone).symm.trans (h.targets ht)

/-- An exception leaves the state as it is. -/
theorem Raises.perform_eq (h : Raises c s a) : perform c s a = (s, none) := by
  cases a with
  | create path random => simp only [perform, fileCreate, show walkPath c s path = none from h]
  | mkdir path random => simp only [perform, fileCreate, show walkPath c s path = none from h]
  | link srcpath dstpath =>
      obtain (hwalk | ⟨n, name, parent, hwalk, hget⟩) | ⟨n, i, ht, htype, hdst⟩ := h
      · simp only [perform, fileLink, hwalk]
      · simp only [perform, fileLink, hwalk, hget]
      · obtain ⟨name, parent, hwalk⟩ := ht.walk
        simp only [perform, fileLink, hwalk, ht.inode, htype, ne_eq, not_true, if_false]
        obtain hdst | ⟨name', hdst⟩ := hdst
        · rw [hdst]
        · rw [hdst]
  | write path offset numBlks random =>
      obtain hwalk | ⟨n, name, parent, hwalk, hget⟩ := h
      · simp only [perform, fileWrite, hwalk]
      · simp only [perform, fileWrite, hwalk, hget]
  | delete path =>
      obtain (hwalk | ⟨n, name, parent, hwalk, hget⟩) | ⟨n, i, ht, htype, hone, hnone⟩ := h
      · simp only [perform, fileDelete, hwalk]
      · cases parent with
        | none => simp only [perform, fileDelete, hwalk]
        | some parent => simp only [perform, fileDelete, hwalk, hget]
      · obtain ⟨name, parent, hwalk⟩ := ht.walk
        cases parent with
        | none => simp only [perform, fileDelete, hwalk]
        | some parent =>
            simp only [perform, fileDelete, hwalk, ht.inode, htype, ne_eq, not_true, if_false,
              hone, if_true, LFS.freeInode, hnone]

/-- In every state reached, a call is atomic exactly if its paths fit. -/
theorem call_atomic_iff (h : Reach (execute c) (Coherent c) LFS.init s) (a : Act) :
    Atomic c s a ↔ CallFits s a := by
  have hs := (reach_steady h).readOk
  constructor
  · rintro ⟨ret, hret, -⟩
    by_contra hnot
    have hraises := (hs.raises_iff.mpr hnot).perform_eq
    rw [hraises] at hret
    cases hret
  · intro hfits
    obtain ⟨hsame, ⟨-, hraises⟩ | hret⟩ | ⟨k, ret, hret, hnonneg, -⟩ :=
      Effect.change hs (perform_effect hs.log hs.mapped a)
    · exact absurd hfits (hs.raises_iff.mp hraises)
    · exact ⟨-1, hret, Or.inr ⟨rfl, hsame⟩⟩
    · exact ⟨ret, hret, Or.inl hnonneg⟩

/-- A link in a directory, after a call that was refused. -/
def linkInDirectory : List Command :=
  [.call (.mkdir ['/', 'd'] 0), .call (.create ['/', 'a'] 0), .call (.delete ['/', 'd']), .sync,
    .call (.link ['/', 'a'] ['/', 'd', '/', 'b'])]

theorem call_atomic_linkInDirectory :
    ∃ s, run (execute defaults) LFS.init linkInDirectory = some s ∧
      (resolution defaults s ['/', 'd', '/', 'b'] = some 2) ∧
      Atomic defaults s (.write ['/', 'd', '/', 'b'] 0 2 []) := by
  have hrun : ((run (execute defaults) LFS.init linkInDirectory).map fun s =>
      (resolution defaults s ['/', 'd', '/', 'b'],
        decide (CallFits s (.write ['/', 'd', '/', 'b'] 0 2 [])))) = some (some 2, true) := by
    decide +kernel
  obtain ⟨s, hs, hpair⟩ := Option.map_eq_some_iff.mp hrun
  obtain ⟨hnumber, hfits⟩ := Prod.mk.inj hpair
  have hmeets : RunMeets (execute defaults) (Coherent defaults) LFS.init linkInDirectory :=
    runMeets_of_check (by decide +kernel)
  exact ⟨s, hs, hnumber, (call_atomic_iff (reach_of_run _ hmeets hs) _).mpr
    (of_decide_eq_true hfits)⟩

/-- Below a regular file the lookup fails its assertion. -/
theorem create_below_file : ¬ ∀ s, Reach (execute defaults) anyStep LFS.init s →
    ∀ a, Atomic defaults s a := by
  intro hall
  have hrun : ((run (execute defaults) LFS.init [.call (.create ['/', 'a'] 0)]).map fun s =>
      (perform defaults s (.create ['/', 'a', '/', 'b'] 0)).2) = some none := by decide +kernel
  obtain ⟨s, hs, hraises⟩ := Option.map_eq_some_iff.mp hrun
  obtain ⟨ret, hret, -⟩ := hall s (reach_of_run_anyStep _ hs) (.create ['/', 'a', '/', 'b'] 0)
  cases hraises.symm.trans hret

end OsLabs.Lfs
