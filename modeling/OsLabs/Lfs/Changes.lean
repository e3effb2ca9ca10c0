import Mathlib
import OsLabs.Lfs.Walks

/-!
# What the calls do to the tree

A call changes the tree at the entry or the file that its path names, and the tree stays sound
over whole runs.
-/

namespace OsLabs.Lfs

open OsLabs.Transition

variable {c : Config} {s s' t : LFS} {a : Act} {d n p : ℕ} {i pi : Inode} {name path : Path}
  {slots slots' : List Slot} {addrs : List ℕ} {refs : ℤ} {r : Option Inode}

/-! ## One call -/

theorem Relinked.treeOf (h : Relinked s t p n refs slots r) (hlog : LogOk s) (hpn : p ≠ n) :
    treeOf t p = some (.dir slots) ∧ treeOf t n = r.map (nodeAt t.disk) ∧
      ∀ d, d ≠ p → d ≠ n → treeOf t d = treeOf s d := by
  obtain ⟨pi', ⟨-, addrs, hdir, hslots⟩, hview⟩ := h.view
  refine ⟨?_, ?_, fun d hdp hdn => treeOf_congr hlog h.written.kept ?_⟩
  · rw [Lfs.treeOf, hview, Function.update_of_ne hpn, Function.update_self, Option.map_some,
      nodeAt_dir hdir, hslots]
  · rw [Lfs.treeOf, hview, Function.update_self]
  · rw [hview, Function.update_of_ne hdn, Function.update_of_ne hdp]

theorem ReadOk.opens (h : ReadOk c s) {result : Option ℕ}
    (ho : Opens c s path p name result pi addrs) :
    treeOf s p = some (.dir (slotsOf s.disk addrs)) ∧
      findName (slotsOf s.disk addrs) name = result := by
  obtain ⟨-, -, hpi, -⟩ := h.walk_spec ho.walk
  exact ⟨by rw [treeOf_of_inode hpi, nodeAt_dir ho.dir], ho.found⟩

/-- The directory gets an entry for `n`. -/
theorem Relinked.enters (hrel : Relinked s t p n refs slots' r) (h : ReadOk c s)
    (hgrown : Grown t s') (hdir : Lfs.treeOf s p = some (.dir slots)) (hn : n < numInodes)
    (hfresh : findName slots name = none) (hins : Inserted (name, some n) slots slots')
    {node : Node} (hent : (Lfs.treeOf s).Entered p n node) (hnode : r.map (nodeAt t.disk) = node) :
    Tree.Enters (Lfs.treeOf s) (Lfs.treeOf s') p n name slots slots' node := by
  have hpn : p ≠ n := by
    rintro rfl
    exact hent.not_dir slots hdir
  obtain ⟨hself, hnew, hother⟩ := hrel.treeOf h.log hpn
  rw [treeOf_grown hrel.written.ok hrel.written.mapped hgrown]
  exact ⟨hdir, hn, hfresh, hins, hent, hself, hnew.trans hnode, hother⟩

/-- The directory loses its entry for the file `n`. -/
theorem Relinked.removes {pre post : List Slot}
    (hrel : Relinked s t p n refs (pre ++ noEntry :: post) r) (h : ReadOk c s)
    (hgrown : Grown t s') (hdir : Lfs.treeOf s p = some (.dir slots))
    (hfile : Lfs.treeOf s n = some (.file i))
    (hremoved : FirstSlot name slots pre (name, some n) post) (hlast : i.refs = 1 → r = none)
    (hmore : 1 < i.refs → r = some { i with refs := i.refs - 1 }) :
    Tree.Removes (Lfs.treeOf s) (Lfs.treeOf s') p n name slots pre post i
      (r.map (nodeAt t.disk)) := by
  have hpn : p ≠ n := by
    rintro rfl
    cases hdir.symm.trans hfile
  obtain ⟨hself, hfreed, hother⟩ := hrel.treeOf h.log hpn
  rw [treeOf_grown hrel.written.ok hrel.written.mapped hgrown]
  refine ⟨hdir, hfile, hremoved, fun hone => ?_, fun hgt => ?_, hself, hfreed, hother⟩
  · rw [hlast hone, Option.map_none]
  · rw [hmore hgt]
    exact congrArg some (nodeAt_file (treeOf_eq_file.mp hfile).2)

theorem Written.treeOf {inums : List ℕ} {i' : Inode} (hw : Written inums s t) (h : ReadOk c s)
    (hgrown : Grown t s') (htype : i'.type = .reg)
    (hview : inodeOf t = Function.update (inodeOf s) n (some i')) :
    Lfs.treeOf s' = Function.update (Lfs.treeOf s) n (some (.file i')) := by
  rw [treeOf_grown hw.ok hw.mapped hgrown]
  funext m
  by_cases hm : m = n
  · rw [hm, Function.update_self, Lfs.treeOf, hview, Function.update_self]
    exact congrArg some (nodeAt_file htype)
  · rw [Function.update_of_ne hm]
    refine treeOf_congr h.log hw.kept ?_
    rw [hview, Function.update_of_ne hm]

/-- The entry or the file that the path of a call names. -/
def touched (c : Config) (s : LFS) : Act → Option Touched
  | .create path _ => (walkPath c s path).bind fun w =>
      w.parent.map fun parent => .enters parent.1 w.fileName
  | .mkdir path _ => (walkPath c s path).bind fun w =>
      w.parent.map fun parent => .enters parent.1 w.fileName
  | .link _ dstpath => (walkPath c s dstpath).bind fun w =>
      w.parent.map fun parent => .enters parent.1 w.fileName
  | .write path .. => (resolution c s path).map .writes
  | .delete path => (walkPath c s path).bind fun w =>
      w.parent.map fun parent => .removes parent.1 w.fileName

theorem potentialWrites_le (offset pointer : ℕ) (contents : List (List Char)) :
    offset ≤ (potentialWrites offset pointer contents).2 := by
  induction contents generalizing offset pointer with
  | nil => exact le_rfl
  | cons block contents ih =>
      rw [potentialWrites]
      split
      · exact (Nat.le_succ offset).trans (ih (offset + 1) (pointer + 1))
      · exact le_rfl

/-- A call leaves the state as it is, or succeeds and changes the tree. -/
theorem Effect.change {rc : Option ℤ} (h : ReadOk c s) (he : Effect c s a (s', rc)) :
    s' = s ∧ (rc = none ∧ Raises c s a ∨ rc = some (-1)) ∨
      ∃ k ret, rc = some ret ∧ 0 ≤ ret ∧ touched c s a = some k ∧
        Tree.Change (treeOf s) (treeOf s') k := by
  cases he with
  | raises hraises => exact Or.inl ⟨rfl, Or.inl ⟨rfl, hraises⟩⟩
  | refused => exact Or.inl ⟨rfl, Or.inr rfl⟩
  | creates opens free inRange inserted relinked =>
      obtain ⟨hdir, hfresh⟩ := h.opens opens
      refine Or.inr ⟨_, 0, rfl, le_rfl, ?_, .enters (relinked.enters h
        (relinked.written.commit c _).1 hdir inRange hfresh inserted
        (.file (treeOf_eq_none.mpr (inodeOf_eq_none free))) ?_)⟩
      · rw [touched, opens.walk]
        rfl
      · rw [Option.map_some, nodeAt_file rfl]
  | mkdirs opens free inRange inserted relinked new =>
      obtain ⟨hdir, hfresh⟩ := h.opens opens
      obtain ⟨-, addrs, hnew, hslots⟩ := new
      refine Or.inr ⟨_, 0, rfl, le_rfl, ?_, .enters (relinked.enters h
        (relinked.written.commit c _).1 hdir inRange hfresh inserted
        (.dir (treeOf_eq_none.mpr (inodeOf_eq_none free))) ?_)⟩
      · rw [touched, opens.walk]
        rfl
      · rw [Option.map_some, nodeAt_dir hnew, hslots]
  | links linked opens source regular inserted relinked =>
      obtain ⟨hdir, hfresh⟩ := h.opens opens
      have hfile := treeOf_eq_file.mpr ⟨h.targets source, regular.type⟩
      refine Or.inr ⟨_, 0, rfl, le_rfl, ?_, .enters (relinked.enters h
        (relinked.written.commit c _).1 hdir (h.sound.within _ (hfile ▸ Option.some_ne_none _))
        hfresh inserted (.link hfile) ?_)⟩
      · rw [touched, opens.walk]
        rfl
      · exact congrArg some (nodeAt_file regular.type)
  | @writes path offset numBlks random n i t target regular inRange written view logs =>
      have hi := h.targets target
      obtain ⟨name, parent, hwalk⟩ := target.walk
      have hrefs : (writtenInode s.disk i offset.toNat (makeRandomBlocks numBlks random)).refs =
          i.refs := rfl
      have htype : (writtenInode s.disk i offset.toNat (makeRandomBlocks numBlks random)).type =
          .reg := regular.type
      refine Or.inr ⟨_, _, rfl, ?_, ?_, .writes (treeOf_eq_file.mpr ⟨hi, regular.type⟩) hrefs ?_⟩
      · exact sub_nonneg.mpr (Int.ofNat_le.mpr (potentialWrites_le _ _ _))
      · rw [touched, resolution, hwalk]
        rfl
      · exact written.treeOf h (written.commit c _).1 htype view
  | @deletes path name p n pi i addrs pre post t r opens target regular removed relinked last
      more kept =>
      obtain ⟨hdir, -⟩ := h.opens opens
      have hfile := treeOf_eq_file.mpr ⟨h.targets target, regular.type⟩
      refine Or.inr ⟨.removes p name, 0, rfl, le_rfl, ?_, .removes (relinked.removes h
        (relinked.written.commit c _).1 hdir hfile removed last more)⟩
      rw [touched, opens.walk]
      rfl

/-! ## Runs -/

/-- The calls and the method `sync`. -/
inductive Command
  | call (a : Act)
  | sync
deriving DecidableEq, Repr

def execute (c : Config) (s : LFS) : Command → Option LFS
  | .call a => step c s a
  | .sync => some s.crSync

/-- If inodes are read by the checkpoint region, every call writes it, and a link that succeeds
links an inode in the imap piece of the directory. -/
def Coherent (c : Config) (s : LFS) : Command → Prop
  | .call a => c.useDiskCr = true → c.noForceCheckpoints = false ∧ OneChunk c s a
  | .sync => True

instance (c : Config) (s : LFS) : ∀ x, Decidable (Coherent c s x)
  | .call a => inferInstanceAs (Decidable (c.useDiskCr = true →
      c.noForceCheckpoints = false ∧ OneChunk c s a))
  | .sync => isTrue trivial

/-- The invariant of runs whose commands are coherent. -/
structure Steady (c : Config) (s : LFS) : Prop where
  log : LogOk s
  mapped : Mapped s
  sound : (treeOf s).Sound
  imap : c.useDiskCr = true → ImapOk s

theorem Steady.readOk (h : Steady c s) : ReadOk c s := by
  refine ⟨h.log, h.mapped, h.sound, fun n i hi => ?_⟩
  cases hdisk : c.useDiskCr with
  | false => exact h.mapped.getInode hdisk hi
  | true => exact (h.imap hdisk).getInode_eq hi

theorem ImapOk.crSync (h : ImapOk s) : ImapOk s.crSync := by
  have hgrown := h.log.crSync
  refine ⟨hgrown.ok, h.mapped.grown hgrown, fun k hk => ?_, ?_⟩
  · exact (h.chunks k hk).kept hgrown.kept rfl fun n _ => congrFun hgrown.inodeMap n
  · obtain ⟨entries, hfirst⟩ := h.log.first
    exact List.getElem?_set_self (List.getElem?_eq_some_iff.mp hfirst).1

theorem Effect.grown {rc : Option ℤ} (hlog : LogOk s) (hmap : Mapped s)
    (he : Effect c s a (s', rc)) : LogOk s' ∧ Mapped s' := by
  cases he with
  | raises => exact ⟨hlog, hmap⟩
  | refused => exact ⟨hlog, hmap⟩
  | creates _ _ _ _ relinked =>
      exact (relinked.written.commit c _).imp Grown.ok id
  | mkdirs _ _ _ _ relinked _ =>
      exact (relinked.written.commit c _).imp Grown.ok id
  | links _ _ _ _ _ relinked =>
      exact (relinked.written.commit c _).imp Grown.ok id
  | writes _ _ _ written _ _ =>
      exact (written.commit c _).imp Grown.ok id
  | deletes _ _ _ _ relinked _ _ _ =>
      exact (relinked.written.commit c _).imp Grown.ok id

theorem Steady.execute {x : Command} (h : Steady c s) (hguard : Coherent c s x)
    (hstep : execute c s x = some s') : Steady c s' := by
  cases x with
  | sync =>
      obtain rfl := Option.some.inj hstep
      have hgrown := h.log.crSync
      refine ⟨hgrown.ok, h.mapped.grown hgrown, ?_, fun hdisk => (h.imap hdisk).crSync⟩
      rw [treeOf_grown h.log h.mapped hgrown]
      exact h.sound
  | call a =>
      have hresult : s' = (perform c s a).1 := (Option.some.inj hstep).symm
      have heffect : Effect c s a (s', (perform c s a).2) :=
        hresult ▸ perform_effect h.log h.mapped a
      obtain ⟨hlog, hmapped⟩ := heffect.grown h.log h.mapped
      refine ⟨hlog, hmapped, ?_, fun hdisk => ?_⟩
      · obtain ⟨hsame, -⟩ | ⟨k, ret, -, -, -, hchange⟩ := heffect.change h.readOk
        · rw [hsame]
          exact h.sound
        · exact h.sound.change hchange
      · exact (h.imap hdisk).step (hguard hdisk).1 (hguard hdisk).2 heffect

theorem treeOf_init : treeOf LFS.init =
    Function.update (fun _ => none) rootInode (some (.dir (makeNewDirblock 0 0))) := by
  funext n
  by_cases hn : n = rootInode
  · rw [hn, Function.update_self]
    rfl
  · rw [Function.update_of_ne hn]
    refine treeOf_eq_none.mpr (inodeOf_eq_none ?_)
    rw [inodeMap_init]
    exact if_neg hn

theorem sound_init : (treeOf LFS.init).Sound := by
  have hroot : treeOf LFS.init rootInode = some (.dir (makeNewDirblock 0 0)) := by
    rw [treeOf_init, Function.update_self]
  have hother (n : ℕ) (hn : n ≠ rootInode) : treeOf LFS.init n = none := by
    rw [treeOf_init, Function.update_of_ne hn]
  have hmem {d : ℕ} {e : Slot} (he : e ∈ (treeOf LFS.init).slots d) :
      e = (['.'], some 0) ∨ e = (['.', '.'], some 0) ∨ e = noEntry := by
    by_cases hd : d = rootInode
    · rw [hd, Tree.slots_eq hroot] at he
      exact mem_makeNewDirblock he
    · rw [Tree.slots_none (hother d hd)] at he
      cases he
  refine ⟨⟨_, hroot⟩, fun n hn => ?_, fun d e he n hen => ?_, fun n i hn => ?_,
    fun d e he hnone => ?_, fun d name hname => ?_⟩
  · by_cases hn' : n = rootInode
    · rw [hn']
      decide
    · exact absurd (hother n hn') hn
  · have hzero : n = rootInode := by
      obtain rfl | rfl | rfl := hmem he
      · exact (Option.some.inj hen).symm
      · exact (Option.some.inj hen).symm
      · cases hen
    rw [hzero, hroot]
    exact Option.some_ne_none _
  · by_cases hn' : n = rootInode
    · rw [hn', hroot] at hn
      cases hn
    · cases (hother n hn').symm.trans hn
  · obtain rfl | rfl | rfl := hmem he
    · cases hnone
    · cases hnone
    · rfl
  · by_cases hd : d = rootInode
    · rw [hd, Tree.slots_eq hroot]
      exact makeNewDirblock_unique hname
    · rw [Tree.slots_none (hother d hd)]
      exact Nat.zero_le _

theorem reach_steady (h : Reach (execute c) (Coherent c) LFS.init s) : Steady c s :=
  h.invariant ⟨logOk_init, mapped_init, sound_init, fun _ => imapOk_init⟩
    fun _ _ _ hs hguard hstep => hs.execute hguard hstep

end OsLabs.Lfs
