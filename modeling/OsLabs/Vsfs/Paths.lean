import Mathlib
import OsLabs.Vsfs.Directory

/-!
# Paths

The lists of the workload generator against the directories on disk: a path in
the lists leads from the root to the inode that is stored for it.
-/

namespace OsLabs.Vsfs

open OsLabs.Namespace

/-! ## Strings -/

/-- The path with these components below the root. -/
def pathOf : List Path → Path
  | [] => ['/']
  | names => names.flatMap fun name => '/' :: name

def AreNames (names : List Path) : Prop := ∀ name ∈ names, name ∈ nameChars

variable {names names' : List Path} {name name' : Path}

theorem nameChars_char (hname : name ∈ nameChars) : ∃ c, name = [c] ∧ c ≠ '/' := by
  have hall : ∀ name ∈ nameChars, ∃ c, name = [c] ∧ c ≠ '/' := by
    simp [nameChars]
  exact hall name hname

theorem nameChars_ne_nil (hname : name ∈ nameChars) : name ≠ [] := by
  obtain ⟨c, rfl, _⟩ := nameChars_char hname
  exact List.cons_ne_nil c []

theorem not_mem_name (hname : name ∈ nameChars) : '/' ∉ name := by
  obtain ⟨c, rfl, hc⟩ := nameChars_char hname
  simpa using Ne.symm hc

theorem flatMap_eq_intercalate (names : List Path) (name : Path) :
    name ++ names.flatMap (fun name => '/' :: name) = ['/'].intercalate (name :: names) := by
  induction names generalizing name with
  | nil => simp
  | cons name' names ih =>
      rw [List.intercalate_cons_cons, ← ih name']
      simp

theorem splitOn_flatMap (h : AreNames names) :
    (names.flatMap fun name => '/' :: name).splitOn '/' = [] :: names := by
  rw [← List.nil_append (names.flatMap _), flatMap_eq_intercalate]
  apply List.splitOn_intercalate
  · intro name hname
    obtain rfl | hname := List.mem_cons.mp hname
    · exact List.not_mem_nil
    · exact not_mem_name (h name hname)
  · exact List.cons_ne_nil _ _

theorem pathOf_append (names : List Path) (name : Path) :
    pathOf (names ++ [name]) = (names ++ [name]).flatMap fun name => '/' :: name := by
  cases names <;> rfl

theorem AreNames.append (h : AreNames names) (hname : name ∈ nameChars) :
    AreNames (names ++ [name]) := by
  intro c hc
  obtain hc | hc := List.mem_append.mp hc
  · exact h c hc
  · rwa [List.mem_singleton.mp hc]

theorem splitOn_pathOf_append (h : AreNames names) (hname : name ∈ nameChars) :
    (pathOf (names ++ [name])).splitOn '/' = [] :: (names ++ [name]) := by
  rw [pathOf_append]
  exact splitOn_flatMap (h.append hname)

theorem foldl_eq_flatMap (names : List Path) (acc : Path) :
    names.foldl (fun pname c => pname ++ '/' :: c) acc =
      acc ++ names.flatMap fun name => '/' :: name := by
  induction names generalizing acc with
  | nil => simp
  | cons name names ih => simp [ih]

theorem getParent_pathOf (h : AreNames names) (hname : name ∈ nameChars) :
    getParent (pathOf (names ++ [name])) = pathOf names := by
  unfold getParent
  rw [splitOn_pathOf_append h hname]
  cases names with
  | nil => rfl
  | cons name' names =>
      rw [if_neg (by simp), List.tail_cons, List.dropLast_concat, foldl_eq_flatMap]
      rfl

theorem lastName_pathOf (h : AreNames names) (hname : name ∈ nameChars) :
    lastName (pathOf (names ++ [name])) = name := by
  unfold lastName
  rw [splitOn_pathOf_append h hname, ← List.cons_append, List.getLastD_concat]

theorem lastName_name (hname : name ∈ nameChars) : lastName name = name := by
  have hall : ∀ name ∈ nameChars, lastName name = name := by decide
  exact hall name hname

theorem pathOf_eq_root (h : AreNames names) : pathOf names = ['/'] ↔ names = [] := by
  constructor
  · intro heq
    cases names with
    | nil => rfl
    | cons name names =>
        obtain ⟨c, rfl, _⟩ := nameChars_char (h name List.mem_cons_self)
        simp [pathOf] at heq
  · rintro rfl
    rfl

theorem fullName_pathOf (h : AreNames names) (name : Path) :
    fullName (pathOf names) name = pathOf (names ++ [name]) := by
  unfold fullName
  rw [pathOf_append]
  cases names with
  | nil => simp [pathOf]
  | cons name' names =>
      rw [if_neg fun heq => List.cons_ne_nil _ _ ((pathOf_eq_root h).mp heq), List.flatMap_append]
      simp [pathOf]

theorem pathOf_append_inj (h : AreNames names) (hname : name ∈ nameChars)
    (h' : AreNames names') (hname' : name' ∈ nameChars)
    (heq : pathOf (names ++ [name]) = pathOf (names' ++ [name'])) :
    names = names' ∧ name = name' := by
  have hsplit := congrArg (List.splitOn '/') heq
  rw [splitOn_pathOf_append h hname, splitOn_pathOf_append h' hname'] at hsplit
  have := List.append_inj' (List.cons.inj hsplit).2 rfl
  exact ⟨this.1, (List.cons.inj this.2).1⟩

theorem length_fullName (hname : name ∈ nameChars) (parent : Path) :
    parent.length < (fullName parent name).length := by
  obtain ⟨c, rfl, _⟩ := nameChars_char hname
  unfold fullName
  split <;> simp

/-! ## Walking the directories -/

/-- Follow the components through the directory blocks. -/
def walk (s : Disk) (inum : ℕ) : List Path → Option ℕ
  | [] => some inum
  | name :: names => ((dirOf s inum).lookup name).bind fun inum => walk s inum names

/-- The inode a path leads to from the root. -/
def resolve (s : Disk) (path : Path) : Option ℕ :=
  walk s 0 ((path.splitOn '/').filter fun name => name ≠ [])

theorem walk_append (s : Disk) (inum : ℕ) (names names' : List Path) :
    walk s inum (names ++ names') = (walk s inum names).bind fun inum => walk s inum names' := by
  induction names generalizing inum with
  | nil => rfl
  | cons name names ih =>
      show ((dirOf s inum).lookup name).bind _ = (((dirOf s inum).lookup name).bind _).bind _
      cases (dirOf s inum).lookup name with
      | none => rfl
      | some inum => exact ih inum

theorem resolve_pathOf (s : Disk) (h : AreNames names) :
    resolve s (pathOf names) = walk s 0 names := by
  unfold resolve
  cases names with
  | nil => rfl
  | cons name names =>
      show walk s 0 (List.filter _ (List.splitOn '/' (List.flatMap _ _))) = _
      rw [splitOn_flatMap h, List.filter_cons_of_neg (by simp), List.filter_eq_self.mpr]
      intro c hc
      simpa using nameChars_ne_nil (h c hc)

theorem lookup_of_mem {entries : List (Path × ℕ)} {n : ℕ}
    (hnodup : (entries.map Prod.fst).Nodup) (hmem : (name, n) ∈ entries) :
    entries.lookup name = some n := by
  obtain ⟨before, after, rfl⟩ := List.append_of_mem hmem
  refine List.lookup_eq_some_iff.mpr ⟨before, after, rfl, ?_⟩
  intro e he
  rw [List.map_append, List.map_cons, List.nodup_middle, List.nodup_cons] at hnodup
  have hne : name ≠ e.1 := by
    rintro rfl
    exact hnodup.1 (List.mem_append_left _ (List.mem_map.mpr ⟨e, he, rfl⟩))
  simpa using hne

/-! ## The lists -/

/-- The path is a name in a directory of the list, and the entry there names
the inode. -/
def Listed (s : Fs) (path : Path) (inum : ℕ) : Prop :=
  ∃ parent ∈ s.dirs, ∃ name ∈ nameChars, ∃ m, path = fullName parent name ∧
    s.nameToInum parent = some m ∧ (name, inum) ∈ children s.disk m

structure PathsSound (s : Fs) : Prop where
  root : ['/'] ∈ s.dirs ∧ s.nameToInum ['/'] = some 0
  dirs : ∀ path ∈ s.dirs, ∃ n, s.nameToInum path = some n ∧
    (tree s.disk).kind n = some .dir ∧ (path = ['/'] ∨ Listed s path n)
  files : ∀ path ∈ s.files, ∃ n, s.nameToInum path = some n ∧
    (tree s.disk).kind n = some .file ∧ Listed s path n
  inj : ∀ p ∈ s.dirs, ∀ q ∈ s.dirs, s.nameToInum p = s.nameToInum q → p = q
  nodup : s.files.Nodup

variable {s s' : Fs} {path parent : Path} {m n : ℕ}

/-- The components of a directory lead to it; by induction on the length of the
path, as the directory above has a shorter one. -/
theorem PathsSound.dir_path (h : PathsSound s) (hd : DiskSound s.disk) (hpath : path ∈ s.dirs) :
    ∃ names, AreNames names ∧ path = pathOf names ∧
      walk s.disk 0 names = s.nameToInum path := by
  induction hlen : path.length using Nat.strong_induction_on generalizing path with
  | h len ih =>
      obtain ⟨n, hn, _, rfl | ⟨parent, hparent, name, hname, m, rfl, hm, hmem⟩⟩ :=
        h.dirs path hpath
      · exact ⟨[], fun _ hname => absurd hname List.not_mem_nil, rfl, h.root.2.symm⟩
      · obtain ⟨names, hnames, rfl, hwalk⟩ :=
          ih _ (hlen ▸ length_fullName hname parent) hparent rfl
        refine ⟨names ++ [name], hnames.append hname, fullName_pathOf hnames name, ?_⟩
        have hkind := hd.links.dirs m (List.ne_nil_of_mem hmem)
        have hmem' : (name, n) ∈ dirOf s.disk m := List.mem_of_mem_drop hmem
        rw [walk_append, hwalk, hm, hn]
        show ((dirOf s.disk m).lookup name).bind _ = _
        rw [lookup_of_mem ((hd.dirs m hkind).names_nodup (hd.links.names m)) hmem']
        rfl

theorem Listed.walks (hl : Listed s path n) (h : PathsSound s) (hd : DiskSound s.disk) :
    ∃ names name m, AreNames names ∧ name ∈ nameChars ∧ path = pathOf (names ++ [name]) ∧
      pathOf names ∈ s.dirs ∧ s.nameToInum (pathOf names) = some m ∧
      (name, n) ∈ children s.disk m ∧ walk s.disk 0 (names ++ [name]) = some n := by
  obtain ⟨parent, hparent, name, hname, m, rfl, hm, hmem⟩ := hl
  obtain ⟨names, hnames, rfl, hwalk⟩ := h.dir_path hd hparent
  refine ⟨names, name, m, hnames, hname, fullName_pathOf hnames name, hparent, hm, hmem, ?_⟩
  have hkind := hd.links.dirs m (List.ne_nil_of_mem hmem)
  have hmem' : (name, n) ∈ dirOf s.disk m := List.mem_of_mem_drop hmem
  rw [walk_append, hwalk, hm]
  show ((dirOf s.disk m).lookup name).bind _ = _
  rw [lookup_of_mem ((hd.dirs m hkind).names_nodup (hd.links.names m)) hmem']
  rfl

/-! ## New and lost names -/

theorem PathsSound.parent_inj (h : PathsSound s) (hd : DiskSound s.disk) {parent' : Path}
    (hparent : parent ∈ s.dirs) (hparent' : parent' ∈ s.dirs) (hname : name ∈ nameChars)
    (hname' : name' ∈ nameChars) (heq : fullName parent name = fullName parent' name') :
    parent = parent' ∧ name = name' := by
  obtain ⟨names, hnames, rfl, _⟩ := h.dir_path hd hparent
  obtain ⟨names', hnames', rfl, _⟩ := h.dir_path hd hparent'
  rw [fullName_pathOf hnames, fullName_pathOf hnames'] at heq
  obtain ⟨rfl, rfl⟩ := pathOf_append_inj hnames hname hnames' hname' heq
  exact ⟨rfl, rfl⟩

/-- A name that the directory does not have is no path of the lists. -/
theorem PathsSound.fullName_fresh (h : PathsSound s) (hd : DiskSound s.disk)
    (hparent : parent ∈ s.dirs) (hm : s.nameToInum parent = some m) (hname : name ∈ nameChars)
    (hfresh : name ∉ (children s.disk m).map Prod.fst) :
    fullName parent name ∉ s.dirs ∧ fullName parent name ∉ s.files := by
  have hnot : ∀ n, ¬ Listed s (fullName parent name) n := by
    rintro n ⟨parent', hparent', name', hname', m', heq, hm', hmem⟩
    obtain ⟨rfl, rfl⟩ := h.parent_inj hd hparent hparent' hname hname' heq
    obtain rfl := Option.some.inj (hm.symm.trans hm')
    exact hfresh (List.mem_map.mpr ⟨_, hmem, rfl⟩)
  constructor
  · intro hmem
    obtain ⟨n, _, _, hroot | hl⟩ := h.dirs _ hmem
    · have hlen := length_fullName hname parent
      obtain ⟨p, _, hp⟩ : ∃ names, AreNames names ∧ parent = pathOf names := by
        obtain ⟨names, hnames, hp, _⟩ := h.dir_path hd hparent
        exact ⟨names, hnames, hp⟩
      rw [hroot, hp] at hlen
      cases p <;> simp [pathOf] at hlen
    · exact hnot n hl
  · intro hmem
    obtain ⟨n, _, _, hl⟩ := h.files _ hmem
    exact hnot n hl

theorem Listed.congr (hl : Listed s path n) (hdirs : ∀ p ∈ s.dirs, p ∈ s'.dirs)
    (hinum : ∀ p ∈ s.dirs, s'.nameToInum p = s.nameToInum p)
    (hmem : ∀ parent ∈ s.dirs, ∀ name ∈ nameChars, ∀ m, path = fullName parent name →
      s.nameToInum parent = some m → (name, n) ∈ children s.disk m →
      (name, n) ∈ children s'.disk m) : Listed s' path n := by
  obtain ⟨parent, hparent, name, hname, m, rfl, hm, hc⟩ := hl
  exact ⟨parent, hdirs parent hparent, name, hname, m, rfl, (hinum parent hparent).trans hm,
    hmem parent hparent name hname m rfl hm hc⟩

theorem PathsSound.congr (h : PathsSound s) (htree : tree s'.disk = tree s.disk)
    (hsame : s'.files = s.files ∧ s'.dirs = s.dirs ∧ s'.nameToInum = s.nameToInum) :
    PathsSound s' := by
  obtain ⟨hfiles, hdirs, hinum⟩ := hsame
  have hl : ∀ path n, Listed s path n → Listed s' path n := by
    intro path n hl
    refine hl.congr (fun p hp => hdirs ▸ hp) (fun p _ => by rw [hinum]) ?_
    intro _ _ name _ m _ _ hmem
    show _ ∈ (tree s'.disk).entries m
    rw [htree]
    exact hmem
  refine ⟨?_, ?_, ?_, ?_, hfiles ▸ h.nodup⟩ <;> rw [hinum]
  · exact hdirs ▸ h.root
  · intro path hpath
    obtain ⟨n, hn, hkind, hlisted⟩ := h.dirs path (hdirs ▸ hpath)
    exact ⟨n, hn, htree ▸ hkind, hlisted.imp_right (hl path n)⟩
  · intro path hpath
    obtain ⟨n, hn, hkind, hlisted⟩ := h.files path (hfiles ▸ hpath)
    exact ⟨n, hn, htree ▸ hkind, hl path n hlisted⟩
  · exact hdirs ▸ h.inj

/-- The request made the entry `(name, n)` in the directory `parent`. -/
structure Entered (s s' : Fs) (parent name : Path) (m n : ℕ) : Prop where
  parent_mem : parent ∈ s.dirs
  parent_inum : s.nameToInum parent = some m
  name_mem : name ∈ nameChars
  attached : Attached (tree s.disk) (tree s'.disk) m name n
  kind : ∀ i, (tree s.disk).kind i ≠ none → (tree s'.disk).kind i = (tree s.disk).kind i
  inum : s'.nameToInum = Function.update s.nameToInum (fullName parent name) (some n)

theorem Entered.fresh (he : Entered s s' parent name m n) (h : PathsSound s)
    (hd : DiskSound s.disk) : fullName parent name ∉ s.dirs ∧ fullName parent name ∉ s.files :=
  h.fullName_fresh hd he.parent_mem he.parent_inum he.name_mem he.attached.fresh

theorem Entered.inum_other (he : Entered s s' parent name m n) (hne : path ≠ fullName parent name) :
    s'.nameToInum path = s.nameToInum path := by
  rw [he.inum, Function.update_of_ne hne]

theorem Entered.inum_dir (he : Entered s s' parent name m n) (h : PathsSound s)
    (hd : DiskSound s.disk) (hpath : path ∈ s.dirs) :
    s'.nameToInum path = s.nameToInum path := by
  apply he.inum_other
  rintro rfl
  exact (he.fresh h hd).1 hpath

theorem Entered.listed (he : Entered s s' parent name m n) (h : PathsSound s)
    (hd : DiskSound s.disk) (hdirs : ∀ p ∈ s.dirs, p ∈ s'.dirs) {i : ℕ}
    (hl : Listed s path i) : Listed s' path i := by
  apply hl.congr hdirs fun p hp => he.inum_dir h hd hp
  intro parent' _ name' _ m' _ _ hc
  by_cases hm' : m' = m
  · subst hm'
    exact he.attached.self.mem_iff.mpr (List.mem_cons_of_mem _ hc)
  · show _ ∈ (tree s'.disk).entries m'
    rw [he.attached.other m' hm']
    exact hc

theorem Entered.listed_self (he : Entered s s' parent name m n) (h : PathsSound s)
    (hd : DiskSound s.disk) (hdirs : ∀ p ∈ s.dirs, p ∈ s'.dirs) :
    Listed s' (fullName parent name) n :=
  ⟨parent, hdirs parent he.parent_mem, name, he.name_mem, m, rfl,
    (he.inum_dir h hd he.parent_mem).trans he.parent_inum,
    he.attached.self.mem_iff.mpr List.mem_cons_self⟩

theorem Entered.inum_self (he : Entered s s' parent name m n) :
    s'.nameToInum (fullName parent name) = some n := by
  rw [he.inum, Function.update_self]

/-- The paths of the lists before the request. -/
theorem Entered.old_dir (he : Entered s s' parent name m n) (h : PathsSound s)
    (hd : DiskSound s.disk) (hdirs : ∀ p ∈ s.dirs, p ∈ s'.dirs) (hpath : path ∈ s.dirs) :
    ∃ n, s'.nameToInum path = some n ∧ (tree s'.disk).kind n = some .dir ∧
      (path = ['/'] ∨ Listed s' path n) := by
  obtain ⟨i, hi, hkind, hl⟩ := h.dirs path hpath
  refine ⟨i, (he.inum_dir h hd hpath).trans hi, ?_, hl.imp_right (he.listed h hd hdirs)⟩
  rw [he.kind i (by rw [hkind]; exact Option.some_ne_none _), hkind]

theorem Entered.old_file (he : Entered s s' parent name m n) (h : PathsSound s)
    (hd : DiskSound s.disk) (hdirs : ∀ p ∈ s.dirs, p ∈ s'.dirs) (hpath : path ∈ s.files) :
    ∃ n, s'.nameToInum path = some n ∧ (tree s'.disk).kind n = some .file ∧
      Listed s' path n := by
  obtain ⟨i, hi, hkind, hl⟩ := h.files path hpath
  have hne : path ≠ fullName parent name := by
    rintro rfl
    exact (he.fresh h hd).2 hpath
  refine ⟨i, (he.inum_other hne).trans hi, ?_, he.listed h hd hdirs hl⟩
  rw [he.kind i (by rw [hkind]; exact Option.some_ne_none _), hkind]

theorem PathsSound.enterFile (h : PathsSound s) (hd : DiskSound s.disk)
    (he : Entered s s' parent name m n) (hkind : (tree s'.disk).kind n = some .file)
    (hfiles : s'.files = s.files ++ [fullName parent name]) (hdirs : s'.dirs = s.dirs) :
    PathsSound s' := by
  have hsub : ∀ p ∈ s.dirs, p ∈ s'.dirs := fun p hp => hdirs ▸ hp
  refine ⟨?_, ?_, ?_, ?_, ?_⟩
  · exact ⟨hsub _ h.root.1, (he.inum_dir h hd h.root.1).trans h.root.2⟩
  · intro path hpath
    exact he.old_dir h hd hsub (hdirs ▸ hpath)
  · intro path hpath
    rw [hfiles] at hpath
    obtain hpath | hpath := List.mem_append.mp hpath
    · exact he.old_file h hd hsub hpath
    · rw [List.mem_singleton.mp hpath]
      exact ⟨n, he.inum_self, hkind, he.listed_self h hd hsub⟩
  · intro p hp q hq hpq
    rw [hdirs] at hp hq
    rw [he.inum_dir h hd hp, he.inum_dir h hd hq] at hpq
    exact h.inj p hp q hq hpq
  · rw [hfiles, List.nodup_append]
    refine ⟨h.nodup, List.nodup_singleton _, ?_⟩
    rintro p hp q hq rfl
    rw [List.mem_singleton.mp hq] at hp
    exact (he.fresh h hd).2 hp

theorem PathsSound.enterDir (h : PathsSound s) (hd : DiskSound s.disk)
    (he : Entered s s' parent name m n) (hnew : (tree s.disk).kind n = none)
    (hkind : (tree s'.disk).kind n = some .dir) (hfiles : s'.files = s.files)
    (hdirs : s'.dirs = s.dirs ++ [fullName parent name]) : PathsSound s' := by
  have hsub : ∀ p ∈ s.dirs, p ∈ s'.dirs := fun p hp => hdirs ▸ List.mem_append_left _ hp
  have hcases : ∀ p ∈ s'.dirs, p ∈ s.dirs ∧ s'.nameToInum p = s.nameToInum p ∧
      s.nameToInum p ≠ some n ∨ p = fullName parent name := by
    intro p hp
    rw [hdirs] at hp
    obtain hp | hp := List.mem_append.mp hp
    · refine Or.inl ⟨hp, he.inum_dir h hd hp, fun heq => ?_⟩
      obtain ⟨i, hi, hikind, _⟩ := h.dirs p hp
      obtain rfl := Option.some.inj (hi.symm.trans heq)
      rw [hnew] at hikind
      cases hikind
    · exact Or.inr (List.mem_singleton.mp hp)
  refine ⟨?_, ?_, ?_, ?_, hfiles ▸ h.nodup⟩
  · exact ⟨hsub _ h.root.1, (he.inum_dir h hd h.root.1).trans h.root.2⟩
  · intro path hpath
    obtain ⟨hpath, _, _⟩ | rfl := hcases path hpath
    · exact he.old_dir h hd hsub hpath
    · exact ⟨n, he.inum_self, hkind, Or.inr (he.listed_self h hd hsub)⟩
  · intro path hpath
    exact he.old_file h hd hsub (hfiles ▸ hpath)
  · intro p hp q hq hpq
    obtain ⟨hp, hpi, hpn⟩ | rfl := hcases p hp <;> obtain ⟨hq, hqi, hqn⟩ | rfl := hcases q hq
    · exact h.inj p hp q hq (hpi.symm.trans (hpq.trans hqi))
    · exact absurd (hpi.symm.trans (hpq.trans he.inum_self)) hpn
    · exact absurd (hqi.symm.trans (hpq.symm.trans he.inum_self)) hqn
    · rfl

/-- The path goes from the list with its entry. -/
theorem PathsSound.leave (h : PathsSound s) (hd' : DiskSound s'.disk)
    (hparent : parent ∈ s.dirs) (hm : s.nameToInum parent = some m) (hname : name ∈ nameChars)
    (hdet : Detached (tree s.disk) (tree s'.disk) m name n)
    (hn : (tree s.disk).kind n = some .file)
    (hkind : ∀ i, i ≠ n → (tree s'.disk).kind i = (tree s.disk).kind i)
    (hself : (tree s'.disk).kind n = none ∨ (tree s'.disk).kind n = some .file)
    (hfiles : s'.files = s.files.erase (fullName parent name)) (hdirs : s'.dirs = s.dirs)
    (hinum : s'.nameToInum = s.nameToInum) : PathsSound s' := by
  have hsub : ∀ p ∈ s.dirs, p ∈ s'.dirs := fun p hp => hdirs ▸ hp
  have hlisted : ∀ path i, Listed s path i → path ≠ fullName parent name ∨ i ≠ n →
      Listed s' path i := by
    intro path i hl hne
    refine hl.congr hsub (fun p _ => by rw [hinum]) ?_
    intro parent' hparent' name' _ m' hpath hm' hc
    by_cases hmm : m' = m
    · subst hmm
      have hpp := h.inj parent' hparent' parent hparent (hm'.trans hm.symm)
      obtain heq | hc := List.mem_cons.mp (hdet.self.mem_iff.mp hc)
      · obtain ⟨rfl, rfl⟩ := Prod.mk.inj heq
        obtain hne | hne := hne
        · exact absurd (hpp ▸ hpath) hne
        · exact absurd rfl hne
      · exact hc
    · show _ ∈ (tree s'.disk).entries m'
      rw [hdet.other m' hmm]
      exact hc
  refine ⟨?_, ?_, ?_, ?_, ?_⟩
  · rw [hdirs, hinum]
    exact h.root
  · intro path hpath
    obtain ⟨i, hi, hik, hl⟩ := h.dirs path (hdirs ▸ hpath)
    have hin : i ≠ n := by
      rintro rfl
      rw [hn] at hik
      cases hik
    refine ⟨i, hinum ▸ hi, (hkind i hin).trans hik, ?_⟩
    exact hl.imp_right fun hl => hlisted path i hl (Or.inr hin)
  · intro path hpath
    rw [hfiles] at hpath
    obtain ⟨hne, hpath⟩ := h.nodup.mem_erase_iff.mp hpath
    obtain ⟨i, hi, hik, hl⟩ := h.files path hpath
    have hl' := hlisted path i hl (Or.inl hne)
    refine ⟨i, hinum ▸ hi, ?_, hl'⟩
    by_cases hin : i = n
    · obtain ⟨_, _, _, _, m', _, _, hc⟩ := hl'
      obtain hnone | hfile := hself
      · exact absurd (hin ▸ hnone) (hd'.links.target m' _ hc)
      · rw [hin, hfile]
    · rw [hkind i hin, hik]
  · rw [hdirs, hinum]
    exact h.inj
  · rw [hfiles]
    exact h.nodup.erase _

end OsLabs.Vsfs
