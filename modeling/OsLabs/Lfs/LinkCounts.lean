import Mathlib
import OsLabs.Lib.Namespace
import OsLabs.Lfs.Links

/-!
# The namespace in memory

The inodes that the imap in memory maps form a directory tree with hard links, whose links the
inodes count, in every state that the calls reach without a path component `-`.
-/

namespace OsLabs.Lfs

open OsLabs.Transition

variable {c : Config} {s s' t : LFS} {a : Act} {v v' : Tree} {d m n p : ℕ} {i : Inode}
  {name : Path} {slots slots' pre post : List Slot} {node : Node} {refs : ℤ} {r : Option Inode}

/-! ## The tree of entries -/

def Tree.space (v : Tree) (refs : ℕ → ℤ) : Namespace.Tree ℕ Path := ⟨v.kind, v.children, refs⟩

/-- The number of child directories of a directory. -/
def Tree.subdirs (v : Tree) (d : ℕ) : ℕ := (v.children d).countP fun e => v.kind e.2 = some .dir

def Tree.Child (v : Tree) (d n : ℕ) : Prop := ∃ name, (name, n) ∈ v.children d

theorem Tree.children_congr (h : v'.slots d = v.slots d) : v'.children d = v.children d := by
  rw [Tree.children, h, Tree.children]

theorem Tree.Enters.attached (hc : Tree.Enters v v' p n name slots slots' node) (hs : v.Sound)
    (h : v.Dotted) (hname : name ≠ ['-']) (f f' : ℕ → ℤ) :
    Namespace.Attached (v.space f) (v'.space f') p name n where
  dir := Tree.kind_of hc.dir
  fresh hmem := by
    obtain ⟨e, he, heq⟩ := List.mem_map.mp hmem
    exact hc.not_mem hs hname _ (heq ▸ (Tree.mem_children.mp he).1)
  self := by
    have hvacant : ∀ e ∈ slots, e.1 = ['-'] → e.2 = none := fun e he =>
      h.vacant p e (Tree.slots_eq hc.dir ▸ he)
    have hperm := hc.inserted.children hvacant (hc.not_dot hs h)
    have hslots : v.slots p = slots := Tree.slots_eq hc.dir
    rw [← hc.slots_self, ← hslots] at hperm
    exact hperm
  other m hm := by
    by_cases hmn : m = n
    · subst hmn
      have hold : v.children m = [] := by
        rw [Tree.children, hc.entered.slots_none]
        rfl
      refine Eq.trans ?_ hold.symm
      refine List.eq_nil_iff_forall_not_mem.mpr fun e he => ?_
      obtain ⟨hmem, hdot⟩ := Tree.mem_children.mp he
      rw [Tree.slots_eq hc.new] at hmem
      obtain ⟨-, heq | heq | heq⟩ := hc.entered.mem_slots hmem
      · exact hdot ((Prod.mk.inj heq).1 ▸ by decide)
      · exact hdot ((Prod.mk.inj heq).1 ▸ by decide)
      · cases (Prod.mk.inj heq).2
    · exact Tree.children_congr (Tree.slots_congr (hc.other m hm hmn))

theorem Tree.Removes.detached {r : Option Node}
    (hc : Tree.Removes v v' p n name slots pre post i r) (hs : v.Sound) (h : v.Dotted)
    (f f' : ℕ → ℤ) : Namespace.Detached (v.space f) (v'.space f') p name n where
  self := by
    have hperm := hc.removed.children (hc.not_dot hs h)
    have hslots : v.slots p = slots := Tree.slots_eq hc.dir
    have hslots' : v'.slots p = pre ++ noEntry :: post := Tree.slots_eq hc.self
    rw [← hslots, ← hslots'] at hperm
    exact hperm
  other m hm := Tree.children_congr (hc.slots_other hs hm)

/-! ## The reference counts -/

def refsOf (s : LFS) (n : ℕ) : ℤ := (inodeOf s n).elim 0 Inode.refs

theorem refsOf_eq (h : inodeOf s n = some i) : refsOf s n = i.refs := by
  rw [refsOf, h]
  rfl

theorem refsOf_file (h : treeOf s n = some (.file i)) : refsOf s n = i.refs :=
  refsOf_eq (treeOf_eq_file.mp h).1

/-- The reference counts once a call has written the imap. -/
theorem Relinked.refsOf (h : Relinked s t p n refs slots r) (hgrown : Grown t s') (hpn : p ≠ n) :
    Lfs.refsOf s' p = refs ∧ Lfs.refsOf s' n = r.elim 0 Inode.refs ∧
      ∀ m, m ≠ p → m ≠ n → Lfs.refsOf s' m = Lfs.refsOf s m := by
  obtain ⟨pi, ⟨hrefs, -⟩, hview⟩ := h.view
  have hinode (m : ℕ) : inodeOf s' m =
      Function.update (Function.update (inodeOf s) p (some pi)) n r m := by
    rw [h.written.mapped.inodeOf_eq hgrown.kept (congrFun hgrown.inodeMap m), hview]
  refine ⟨?_, ?_, fun m hmp hmn => ?_⟩
  · rw [Lfs.refsOf, hinode, Function.update_of_ne hpn, Function.update_self]
    exact hrefs
  · rw [Lfs.refsOf, hinode, Function.update_self]
  · rw [Lfs.refsOf, hinode, Function.update_of_ne hmn, Function.update_of_ne hmp, Lfs.refsOf]

/-- The inodes count the links of the tree. -/
structure Linked (s : LFS) : Prop where
  dotted : (treeOf s).Dotted
  space : ((treeOf s).space (refsOf s)).Sound (Finset.range numInodes) rootInode

theorem Linked.enterFile (h : Linked s) (hs : (treeOf s).Sound)
    (hc : Tree.Enters (treeOf s) (treeOf s') p n name slots slots' (.file i))
    (hname : name ≠ ['-']) (hrefs : ∀ m, m ≠ n → refsOf s' m = refsOf s m) : Linked s' := by
  have hself : refsOf s' n = if (treeOf s).kind n = none then 1 else refsOf s n + 1 := by
    rw [refsOf_file hc.new]
    cases hc.entered with
    | file new => rw [if_pos (Tree.kind_none.mpr new), makeInode]
    | link old =>
        rw [Tree.kind_of old, if_neg (Option.some_ne_none _), refsOf_file old]
  refine ⟨h.dotted.enters hc hname, h.space.attachFile
    (hc.attached hs h.dotted hname _ _) (Finset.mem_range.mpr hc.inRange) hc.not_kind_dir
    (Tree.kind_of hc.new) (fun m hm => ?_) hself hrefs⟩
  exact (hc.kind m).trans (if_neg hm)

theorem Linked.enterDir {block : List Slot} (h : Linked s) (hs : (treeOf s).Sound)
    (hc : Tree.Enters (treeOf s) (treeOf s') p n name slots slots' (.dir block))
    (hnew : treeOf s n = none) (hname : name ≠ ['-']) (hself : refsOf s' n = 2)
    (hparent : refsOf s' p = refsOf s p + 1)
    (hrefs : ∀ m, m ≠ n → m ≠ p → refsOf s' m = refsOf s m) : Linked s' := by
  refine ⟨h.dotted.enters hc hname, h.space.attachDir
    (hc.attached hs h.dotted hname _ _) (Finset.mem_range.mpr hc.inRange)
    (Tree.kind_none.mpr hnew) (Tree.kind_of hc.new) (fun m hm => ?_) hself hparent hrefs⟩
  exact (hc.kind m).trans (if_neg hm)

theorem Linked.removes {r : Option Node} (h : Linked s) (hs : (treeOf s).Sound)
    (hc : Tree.Removes (treeOf s) (treeOf s') p n name slots pre post i r)
    (hrefs : ∀ m, m ≠ n → refsOf s' m = refsOf s m) : Linked s' := by
  have hold : refsOf s n = i.refs := refsOf_file hc.file
  have hself : (treeOf s').kind n = if refsOf s n = 1 then none else some .file := by
    obtain ⟨hone, hnone⟩ | ⟨hmore, hfile⟩ := hc.freed_cases hs
    · rw [hold, if_pos hone, Tree.kind_none.mpr hnone]
    · rw [hold, if_neg hmore.ne', Tree.kind_of hfile, Node.kind]
  have hless : refsOf s n ≠ 1 → refsOf s' n = refsOf s n - 1 := by
    intro hne
    obtain ⟨hone, -⟩ | ⟨-, hfile⟩ := hc.freed_cases hs
    · exact absurd (hold.trans hone) hne
    · rw [refsOf_file hfile, hold]
  exact ⟨h.dotted.removes hs hc, h.space.detachFile (hc.detached hs h.dotted _ _)
    (Tree.kind_of hc.file) hself (fun m hm => hc.kind hm) hless hrefs⟩

theorem Linked.congr (h : Linked s) (hkind : (treeOf s').kind = (treeOf s).kind)
    (hslots : (treeOf s').slots = (treeOf s).slots) (hrefs : refsOf s' = refsOf s) :
    Linked s' := by
  have hspace : (treeOf s').space (refsOf s') = (treeOf s).space (refsOf s) := by
    have hchildren : (treeOf s').children = (treeOf s).children :=
      funext fun d => Tree.children_congr (congrFun hslots d)
    rw [Tree.space, hkind, hchildren, hrefs, Tree.space]
  refine ⟨⟨?_, ?_⟩, hspace ▸ h.space⟩
  · rw [hslots]
    exact h.dotted.vacant
  · rw [hslots, hkind]
    exact h.dotted.dots

theorem Linked.writes {i' : Inode} (h : Linked s) (hfile : treeOf s n = some (.file i))
    (hrefs : i'.refs = i.refs)
    (hwritten : treeOf s' = Function.update (treeOf s) n (some (.file i')))
    (hother : ∀ m, m ≠ n → refsOf s' m = refsOf s m) : Linked s' := by
  have hself : treeOf s' n = some (.file i') := by rw [hwritten, Function.update_self]
  have hsame (m : ℕ) (hm : m ≠ n) : treeOf s' m = treeOf s m := by
    rw [hwritten, Function.update_of_ne hm]
  refine h.congr (funext fun m => ?_) (funext fun m => ?_) (funext fun m => ?_)
  · by_cases hm : m = n
    · rw [hm, Tree.kind_of hself, Tree.kind_of hfile]
      rfl
    · exact Tree.kind_congr (hsame m hm)
  · by_cases hm : m = n
    · rw [hm, Tree.slots_eq hself, Tree.slots_eq hfile]
      rfl
    · exact Tree.slots_congr (hsame m hm)
  · by_cases hm : m = n
    · rw [hm, refsOf_file hself, refsOf_file hfile, hrefs]
    · exact hother m hm

/-! ## Calls -/

def Act.paths : Act → List Path
  | .create path _ => [path]
  | .mkdir path _ => [path]
  | .link srcpath dstpath => [srcpath, dstpath]
  | .write path .. => [path]
  | .delete path => [path]

/-- No component of a path is `-`. -/
def NoDash (_ : LFS) (a : Act) : Prop := ∀ path ∈ a.paths, ['-'] ∉ path.splitOn '/'

instance (s : LFS) (a : Act) : Decidable (NoDash s a) :=
  inferInstanceAs (Decidable (∀ path ∈ a.paths, ['-'] ∉ path.splitOn '/'))

theorem NoDash.lastOf_ne {path : Path} (h : NoDash s a) (hpath : path ∈ a.paths) :
    lastOf path ≠ ['-'] := by
  have hne : path.splitOn '/' ≠ [] := List.splitOn_ne_nil _ _
  have hlast : lastOf path ∈ path.splitOn '/' := by
    rw [lastOf, List.getLastD_eq_getLast?, List.getLast?_eq_some_getLast hne]
    exact List.getLast_mem hne
  exact fun heq => h path hpath (heq ▸ hlast)

theorem Tree.Enters.ne (hc : Tree.Enters v v' p n name slots slots' node) : p ≠ n := by
  rintro rfl
  exact hc.entered.not_dir slots hc.dir

theorem Relinked.refs_kept {pi : Inode} (h : Relinked s t p n pi.refs slots r)
    (hgrown : Grown t s') (hpn : p ≠ n) (hpi : inodeOf s p = some pi) :
    ∀ m, m ≠ n → Lfs.refsOf s' m = Lfs.refsOf s m := by
  obtain ⟨hparent, -, hother⟩ := h.refsOf hgrown hpn
  intro m hm
  by_cases hmp : m = p
  · rw [hmp, hparent, refsOf_eq hpi]
  · exact hother m hmp hm

theorem Effect.linked {rc : Option ℤ} (h : ReadOk c s) (hl : Linked s) (hguard : NoDash s a)
    (he : Effect c s a (s', rc)) : Linked s' := by
  cases he with
  | raises => exact hl
  | refused => exact hl
  | @creates path name random p n pi addrs slots t opens free inRange inserted relinked =>
      obtain ⟨hdir, hfresh⟩ := h.opens opens
      obtain ⟨rfl, -, hpi, -⟩ := h.walk_spec opens.walk
      have hgrown := (relinked.written.commit c [p, n]).1
      have hc := relinked.enters h hgrown hdir inRange hfresh inserted
        (.file (treeOf_eq_none.mpr (inodeOf_eq_none free))) (congrArg some (nodeAt_file rfl))
      exact hl.enterFile h.sound hc (hguard.lastOf_ne List.mem_cons_self)
        (relinked.refs_kept hgrown hc.ne hpi)
  | @mkdirs path name random p n pi i addrs slots t opens free inRange inserted relinked new =>
      obtain ⟨hdir, hfresh⟩ := h.opens opens
      obtain ⟨rfl, -, hpi, -⟩ := h.walk_spec opens.walk
      obtain ⟨hrefs, addrs, hnew, hslots⟩ := new
      have hnone := treeOf_eq_none.mpr (inodeOf_eq_none free)
      have hgrown := (relinked.written.commit c [p, n]).1
      have hc := relinked.enters h hgrown hdir inRange hfresh inserted (.dir hnone)
        (by rw [Option.map_some, nodeAt_dir hnew, hslots])
      obtain ⟨hparent, hself, hother⟩ := relinked.refsOf hgrown hc.ne
      exact hl.enterDir h.sound hc hnone (hguard.lastOf_ne List.mem_cons_self)
        (hself.trans hrefs) (hparent.trans (refsOf_eq hpi ▸ rfl))
        fun m hmn hmp => hother m hmp hmn
  | @links srcpath dstpath name p n pi i addrs slots t linked opens source regular inserted
      relinked =>
      obtain ⟨hdir, hfresh⟩ := h.opens opens
      obtain ⟨rfl, -, hpi, -⟩ := h.walk_spec opens.walk
      have hfile := treeOf_eq_file.mpr ⟨h.targets source, regular.type⟩
      have hgrown := (relinked.written.commit c [p]).1
      have hc := relinked.enters h hgrown hdir
        (h.sound.within _ (hfile ▸ Option.some_ne_none _)) hfresh inserted (.link hfile)
        (congrArg some (nodeAt_file regular.type))
      exact hl.enterFile h.sound hc
        (hguard.lastOf_ne (List.mem_cons_of_mem _ List.mem_cons_self))
        (relinked.refs_kept hgrown hc.ne hpi)
  | @writes path offset numBlks random n i t target regular inRange written view logs =>
      have hgrown := (written.commit c [n]).1
      have hrefs : (writtenInode s.disk i offset.toNat (makeRandomBlocks numBlks random)).refs =
          i.refs := rfl
      have htype : (writtenInode s.disk i offset.toNat (makeRandomBlocks numBlks random)).type =
          .reg := regular.type
      refine hl.writes (treeOf_eq_file.mpr ⟨h.targets target, regular.type⟩) hrefs
        (written.treeOf h hgrown htype view) fun m hm => ?_
      rw [refsOf, written.mapped.inodeOf_eq hgrown.kept (congrFun hgrown.inodeMap m), view,
        Function.update_of_ne hm, refsOf]
  | @deletes path name p n pi i addrs pre post t r opens target regular removed relinked last
      more kept =>
      obtain ⟨hdir, -⟩ := h.opens opens
      obtain ⟨-, -, hpi, -⟩ := h.walk_spec opens.walk
      have hfile := treeOf_eq_file.mpr ⟨h.targets target, regular.type⟩
      have hgrown := (relinked.written.commit c [n, p]).1
      have hpn : p ≠ n := by
        rintro rfl
        cases hdir.symm.trans hfile
      exact hl.removes h.sound
        (relinked.removes h hgrown hdir hfile removed last more)
        (relinked.refs_kept hgrown hpn hpi)

/-! ## Runs -/

theorem linked_init : Linked LFS.init := by
  have hroot : treeOf LFS.init rootInode = some (.dir (makeNewDirblock 0 0)) := by
    rw [treeOf_init, Function.update_self]
  have hother {n : ℕ} (hn : n ≠ rootInode) : treeOf LFS.init n = none := by
    rw [treeOf_init, Function.update_of_ne hn]
  have honly {n : ℕ} (hn : (treeOf LFS.init).kind n ≠ none) : n = rootInode := by
    by_contra hne
    exact hn (Tree.kind_none.mpr (hother hne))
  have hdir : (treeOf LFS.init).kind rootInode = some .dir := Tree.kind_of hroot
  have hentries (d : ℕ) : ((treeOf LFS.init).space (refsOf LFS.init)).entries d = [] := by
    have hchildren : (treeOf LFS.init).children d = [] := by
      by_cases hd : d = rootInode
      · rw [hd, Tree.children, Tree.slots_eq hroot]
        rfl
      · rw [Tree.children, Tree.slots_none (hother hd)]
        rfl
    exact hchildren
  have hnot {n : ℕ} : (treeOf LFS.init).kind n ≠ some .file := by
    intro hfile
    obtain rfl := honly (hfile ▸ Option.some_ne_none _)
    cases hdir.symm.trans hfile
  constructor
  · constructor
    · intro d e he hdash
      obtain rfl := honly (Tree.dir_of_slots he ▸ Option.some_ne_none _)
      rw [Tree.slots_eq hroot] at he
      obtain rfl | rfl | rfl := mem_makeNewDirblock he
      · exact absurd hdash (by simp)
      · exact absurd hdash (by simp)
      · rfl
    · intro d hd y hy
      obtain rfl := honly (hd ▸ Option.some_ne_none _)
      refine ⟨rootInode, ?_, hdir⟩
      rw [Tree.slots_eq hroot]
      obtain rfl | rfl : y = ['.'] ∨ y = ['.', '.'] := by simpa [dotNames] using hy
      · exact List.mem_cons_self
      · exact List.mem_cons_of_mem _ List.mem_cons_self
  · refine ⟨fun n hn => ?_, hdir, fun d hd => absurd (hentries d) hd, fun d e he => ?_,
      fun d => ?_, fun n hn => absurd hn hnot, fun n hn => absurd hn hnot, fun d hd => ?_,
      fun n hn => ?_⟩
    · rw [honly hn]
      decide
    · rw [hentries] at he
      cases he
    · rw [hentries]
      exact List.nodup_nil
    · obtain rfl := honly (hd ▸ Option.some_ne_none _)
      have hnone : ((treeOf LFS.init).space (refsOf LFS.init)).subdirs rootInode = 0 := by
        rw [Namespace.Tree.subdirs, hentries]
        rfl
      rw [hnone]
      rfl
    · rw [honly hn]

/-- What the inodes in memory say about the namespace. -/
structure NamespaceOk (s : LFS) : Prop where
  mapped : ∀ n, s.inodeMap n ≠ none → ∃ i, inodeOf s n = some i
  named : ∀ d, ∀ e ∈ occupied ((treeOf s).slots d), ∃ n i, e.2 = some n ∧ inodeOf s n = some i
  file_refs : ∀ n i, inodeOf s n = some i → i.type = .reg →
    i.refs = (treeOf s).links n ∧ 1 ≤ i.refs
  dir_refs : ∀ n i, inodeOf s n = some i → i.type = .dir → i.refs = 2 + (treeOf s).subdirs n
  names : ∀ d, ((occupied ((treeOf s).slots d)).map Prod.fst).Nodup
  reachable : ∀ n, s.inodeMap n ≠ none → Relation.ReflTransGen (treeOf s).Child rootInode n
  dir_blocks : ∀ n i a, inodeOf s n = some i → i.type = .dir → some a ∈ i.pointers →
    ∃ entries, s.disk[a]? = some (.dir entries)
  data_blocks : ∀ n i a, inodeOf s n = some i → i.type = .reg → some a ∈ i.pointers →
    ∃ contents, s.disk[a]? = some (.data contents)

theorem Tree.links_space (h : v.Dotted) (hs : v.Sound) (hn : v.kind n ≠ some .dir)
    (f : ℕ → ℤ) : (v.space f).links (Finset.range numInodes) n = v.links n := by
  refine Finset.sum_congr rfl fun d _ => ?_
  refine (List.countP_filterMap ..).trans (List.countP_congr fun e he => ?_)
  obtain ⟨name, number⟩ := e
  cases number with
  | none => rw [childSlot_none rfl]; simp
  | some k =>
      by_cases hdot : name ∈ dotNames
      · have hk : k ≠ n := by
          rintro rfl
          exact hn (h.dot_dir hs he hdot)
        have hslot : childSlot (name, some k) = none := if_pos hdot
        simp [hslot, hk]
      · simp [childSlot_name hdot]

theorem Linked.namespaceOk (h : Linked s) (hs : Steady c s) : NamespaceOk s := by
  have hmapped {n : ℕ} (hn : s.inodeMap n ≠ none) : (treeOf s).kind n ≠ none := by
    obtain ⟨-, i, hi⟩ := hs.mapped n hn
    rw [Tree.kind_of (treeOf_of_inode hi)]
    exact Option.some_ne_none _
  have hfile {n : ℕ} {i : Inode} (hi : inodeOf s n = some i) (htype : i.type = .reg) :
      (treeOf s).kind n = some .file :=
    Tree.kind_of (treeOf_eq_file.mpr ⟨hi, htype⟩)
  constructor
  · exact fun n hn => (hs.mapped n hn).2
  · intro d e he
    obtain ⟨hmem, -⟩ := List.mem_filter.mp he
    cases hnumber : e.2 with
    | none => exact absurd (hs.sound.free d e hmem hnumber) (h.dotted.occupied_name he)
    | some n =>
        have hn := treeOf_eq_none.not.mp (hs.sound.named d e hmem n hnumber)
        obtain ⟨i, hi⟩ := Option.ne_none_iff_exists'.mp hn
        exact ⟨n, i, rfl, hi⟩
  · intro n i hi htype
    have hkind := hfile hi htype
    have hnot : (treeOf s).kind n ≠ some .dir := by
      rw [hkind]
      decide
    have hlinks := Tree.links_space h.dotted hs.sound hnot (refsOf s)
    have hcount := h.space.file_refs n hkind
    have hpos := h.space.file_linked n hkind
    rw [hlinks] at hcount hpos
    have hrefs : i.refs = (treeOf s).links n := (refsOf_eq hi).symm.trans hcount
    exact ⟨hrefs, by omega⟩
  · intro n i hi htype
    have hkind : (treeOf s).kind n = some .dir := by
      rw [Tree.kind_of (treeOf_of_inode hi), nodeAt, if_pos htype, Node.kind]
    exact (refsOf_eq hi).symm.trans (h.space.dir_refs n hkind)
  · exact h.dotted.names_nodup hs.sound
  · exact fun n hn => h.space.reachable n (hmapped hn)
  · intro n i a hi htype ha
    obtain ⟨addrs, hdir⟩ := (hs.log.inodeOf_ok hi).dir htype
    rw [hdir.pointers] at ha
    exact hdir.blocks a (by simpa using ha)
  · intro n i a hi htype ha
    exact ((hs.log.inodeOf_ok hi).reg htype).blocks a ha

/-- The invariant of runs that read the imap in memory. -/
structure Accounted (c : Config) (s : LFS) : Prop where
  steady : Steady c s
  linked : Linked s

theorem Accounted.init (c : Config) : Accounted c LFS.init :=
  ⟨⟨logOk_init, mapped_init, sound_init, fun _ => imapOk_init⟩, linked_init⟩

theorem Accounted.step (h : Accounted c s) (hc : c.useDiskCr = false) (hguard : NoDash s a)
    (hstep : step c s a = some s') : Accounted c s' := by
  have hmemory : Coherent c s (.call a) := fun hdisk => absurd (hc.symm.trans hdisk) (by simp)
  have hsteady : Steady c s' := h.steady.execute hmemory hstep
  obtain rfl : (perform c s a).1 = s' := Option.some.inj hstep
  exact ⟨hsteady, Effect.linked h.steady.readOk h.linked hguard
    (perform_effect h.steady.log h.steady.mapped a)⟩

/-- Every run whose paths have no component `-`, where inodes are read through the imap in
memory. -/
theorem namespace_ok (hc : c.useDiskCr = false) (h : Reach (step c) NoDash LFS.init s) :
    NamespaceOk s := by
  have hs : Accounted c s :=
    h.invariant (Accounted.init c) fun _ _ _ hs hguard hstep => hs.step hc hguard hstep
  exact hs.linked.namespaceOk hs.steady

/-- A file with two names in two directories. -/
def linkedTwice : List Act :=
  [.mkdir ['/', 'd'] 0, .create ['/', 'd', '/', 'a'] 0,
    .link ['/', 'd', '/', 'a'] ['/', 'b'], .write ['/', 'b'] 1 2 []]

theorem namespace_ok_linkedTwice : ∃ s, run (step defaults) LFS.init linkedTwice = some s ∧
    NamespaceOk s ∧ ∃ i, inodeOf s 2 = some i ∧ i.type = .reg ∧ (treeOf s).links 2 = 2 := by
  have hrun : ((run (step defaults) LFS.init linkedTwice).bind fun s =>
      (inodeOf s 2).map fun i => (i.type, i.refs)) = some (.reg, 2) := by decide +kernel
  obtain ⟨s, hs, hmap⟩ := Option.bind_eq_some_iff.mp hrun
  obtain ⟨i, hi, hpair⟩ := Option.map_eq_some_iff.mp hmap
  obtain ⟨htype, hrefs⟩ := Prod.mk.inj hpair
  have hmeets : RunMeets (step defaults) NoDash LFS.init linkedTwice :=
    runMeets_of_check (by decide +kernel)
  have hok := namespace_ok (c := defaults) rfl (reach_of_run linkedTwice hmeets hs)
  have hlinks := (hok.file_refs 2 i hi htype).1
  exact ⟨s, hs, hok, i, hi, htype, by omega⟩

end OsLabs.Lfs
