import Mathlib
import OsLabs.Lfs.Changes

/-!
# What a call leaves as it is

Free slots are found by their name `-`, which a file may have as well. A new entry may take the
slot of such a file, and a slot that is freed may hide it.
-/

namespace OsLabs.Lfs

open OsLabs.Transition

variable {c : Config} {s s' : LFS} {a : Act} {v v' : Tree} {d n m p : ℕ} {name y : Path}
  {names : List Path} {slots slots' pre post : List Slot} {i : Inode} {node : Node}
  {r : Option Node} {path : Path}

/-! ## Slots named `-` -/

/-- The numbers in the slots that are named like free ones. -/
def dashes (slots : List Slot) : List (Option ℕ) :=
  (slots.filter fun e => e.1 = ['-']).map Prod.snd

theorem findName_dash (slots : List Slot) :
    findName slots ['-'] = (dashes slots).head?.join := by
  rw [findName, ← List.head?_filter, dashes, List.head?_map]
  cases (slots.filter fun e => e.1 = ['-']).head? with
  | none => rfl
  | some e => rfl

theorem dashes_append (slots slots' : List Slot) :
    dashes (slots ++ slots') = dashes slots ++ dashes slots' := by
  rw [dashes, List.filter_append, List.map_append]
  rfl

theorem dashes_eq_nil (h : ∀ e ∈ slots, e.1 ≠ ['-']) : dashes slots = [] := by
  rw [dashes, List.map_eq_nil_iff, List.filter_eq_nil_iff]
  exact fun e he => by simpa using h e he

/-- Two lists of slots that differ at slots with other names. -/
theorem findName_append {x x' : Slot} (hx : x.1 ≠ y) (hx' : x'.1 ≠ y) :
    findName (pre ++ x :: post) y = findName (pre ++ x' :: post) y := by
  rw [findName, findName, List.find?_append, List.find?_append,
    List.find?_cons_of_neg (by simpa using hx), List.find?_cons_of_neg (by simpa using hx')]

theorem Inserted.findName_other (h : Inserted (name, some n) slots slots')
    (hfits : name = ['-'] ∨ (dashes slots).head?.join = (dashes slots).tail.head?.join)
    (hy : y ≠ name) : findName slots' y = findName slots y := by
  obtain ⟨pre, e, post, hfirst, rfl⟩ | ⟨hnone, rfl⟩ := h
  · obtain ⟨rfl, hnamed, hpre⟩ := hfirst
    by_cases hdash : y = ['-']
    · obtain rfl | hfits := hfits
      · exact absurd hdash hy
      · have hslots : dashes (pre ++ e :: post) = e.2 :: dashes post := by
          rw [dashes_append, dashes_eq_nil hpre, List.nil_append, dashes,
            List.filter_cons_of_pos (by simpa using hnamed), List.map_cons]
          rfl
        have hslots' : dashes (pre ++ (name, some n) :: post) = dashes post := by
          rw [dashes_append, dashes_eq_nil hpre, List.nil_append, dashes,
            List.filter_cons_of_neg (by simpa using fun h => hy (hdash.trans h.symm))]
          rfl
        rw [hdash, findName_dash, findName_dash, hfits, hslots, hslots', List.tail_cons]
    · exact findName_append (Ne.symm hy) fun h => hdash (h.symm.trans hnamed)
  · have hnew : ∀ e ∈ List.replicate 7 noEntry, e = noEntry :=
      fun e he => List.eq_of_mem_replicate he
    rw [findName, findName, List.find?_append, List.find?_cons_of_neg (by simpa using Ne.symm hy)]
    cases hfind : slots.find? fun e => e.1 = y with
    | some e => rfl
    | none =>
        rw [Option.none_or, Option.bind_none]
        refine Option.bind_eq_none_iff.mpr fun e he => ?_
        rw [hnew e (List.mem_of_find?_eq_some he)]
        rfl

/-- The slot `slots'` that was freed is not found, and the others are, by name. -/
theorem FirstSlot.findName_other (h : FirstSlot name slots pre (name, some n) post)
    (hfits : name = ['-'] ∨ dashes (slots.takeWhile fun e => e.1 ≠ name) ≠ [] ∨
      (dashes (slots.dropWhile fun e => e.1 ≠ name)).head?.join = none) (hy : y ≠ name) :
    findName (pre ++ noEntry :: post) y = findName slots y := by
  obtain ⟨rfl, -, hpre⟩ := h
  by_cases hdash : y = ['-']
  · subst hdash
    have htake : (pre ++ (name, some n) :: post).takeWhile (fun e => e.1 ≠ name) = pre := by
      rw [List.takeWhile_append_of_pos fun e he => by simpa using hpre e he]
      simp
    have hdrop : (pre ++ (name, some n) :: post).dropWhile (fun e => e.1 ≠ name) =
        (name, some n) :: post := by
      rw [List.dropWhile_append_of_pos fun e he => by simpa using hpre e he]
      simp
    have hrest : dashes ((name, some n) :: post) = dashes post := by
      rw [dashes, List.filter_cons_of_neg (by simpa using Ne.symm hy)]
      rfl
    have hfree : dashes (noEntry :: post) = none :: dashes post := rfl
    rw [htake, hdrop, hrest] at hfits
    rw [findName_dash, findName_dash, dashes_append, dashes_append, hrest, hfree]
    obtain heq | hbefore | hafter := hfits
    · exact absurd heq.symm hy
    · obtain ⟨x, xs, hxs⟩ := List.exists_cons_of_ne_nil hbefore
      rw [hxs]
      rfl
    · cases hbefore : dashes pre with
      | nil =>
          rw [List.nil_append, List.nil_append, hafter]
          rfl
      | cons x xs => rfl
  · exact findName_append (Ne.symm hdash) (Ne.symm hy)

theorem FirstSlot.findName_self (h : FirstSlot name slots pre (name, some n) post)
    (hunique : name ≠ ['-'] → slots.countP (fun e => e.1 = name) ≤ 1) :
    findName (pre ++ noEntry :: post) name = none := by
  obtain ⟨rfl, -, hpre⟩ := h
  have hfirst : pre.find? (fun e => e.1 = name) = none :=
    List.find?_eq_none.mpr fun e he => by simpa using hpre e he
  rw [findName, List.find?_append, hfirst, Option.none_or]
  by_cases hdash : name = ['-']
  · have hfree : (noEntry :: post).find? (fun e => e.1 = name) = some noEntry :=
      List.find?_cons_of_pos (decide_eq_true hdash.symm)
    rw [hfree]
    rfl
  · have hcount := hunique hdash
    rw [List.countP_append, List.countP_cons_of_pos (by simp)] at hcount
    have hpost : post.countP (fun e => e.1 = name) = 0 := by omega
    have hfree : (noEntry :: post).find? (fun e => e.1 = name) = post.find? fun e => e.1 = name :=
      List.find?_cons_of_neg fun h => hdash (of_decide_eq_true h).symm
    rw [hfree, List.find?_eq_none.mpr fun e he => List.countP_eq_zero.mp hpost e he]
    rfl

/-! ## Trees that agree -/

/-- The entry that a call makes or frees. -/
def Touched.entry : Touched → Option (ℕ × Path)
  | .enters p name => some (p, name)
  | .removes p name => some (p, name)
  | .writes _ => none

/-- The slot that is taken or freed does not change what the name `-` stands for. -/
def EntryFits (v : Tree) : Touched → Prop
  | .enters p name => name = ['-'] ∨
      (dashes (v.slots p)).head?.join = (dashes (v.slots p)).tail.head?.join
  | .removes p name => name = ['-'] ∨
      dashes ((v.slots p).takeWhile fun e => e.1 ≠ name) ≠ [] ∨
      (dashes ((v.slots p).dropWhile fun e => e.1 ≠ name)).head?.join = none
  | .writes _ => True

instance (v : Tree) : ∀ k, Decidable (EntryFits v k)
  | .enters _ name => inferInstanceAs (Decidable (name = ['-'] ∨ _ = _))
  | .removes _ name => inferInstanceAs (Decidable (name = ['-'] ∨ _ ≠ [] ∨ _ = none))
  | .writes _ => isTrue trivial

/-- The names in the directories of `v` have not changed, that at `entry` apart. -/
def Tree.AgreeBut (v v' : Tree) (entry : Option (ℕ × Path)) : Prop :=
  ∀ d y, v d ≠ none → entry ≠ some (d, y) → findName (v'.slots d) y = findName (v.slots d) y

/-- The names lead through the entry. -/
def Tree.Passes (v : Tree) (entry : Option (ℕ × Path)) : ℕ → List Path → Prop
  | _, [] => False
  | d, y :: names => entry = some (d, y) ∨ ∃ n, findName (v.slots d) y = some n ∧
      v.Passes entry n names

variable {entry : Option (ℕ × Path)} {k : Touched}

theorem Tree.passes_iff : v.Passes (some (p, name)) d names ↔
    ∃ before after, names = before ++ name :: after ∧ v.resolve d before = some p := by
  induction names generalizing d with
  | nil => exact iff_of_false id fun ⟨before, after, hnames, _⟩ => by simp at hnames
  | cons y names ih =>
      rw [Tree.Passes]
      constructor
      · rintro (hhere | ⟨n, hn, hrest⟩)
        · obtain ⟨rfl, rfl⟩ := Prod.mk.inj (Option.some.inj hhere)
          exact ⟨[], names, rfl, rfl⟩
        · obtain ⟨before, after, rfl, hbefore⟩ := ih.mp hrest
          refine ⟨y :: before, after, rfl, ?_⟩
          rw [Tree.resolve, hn, Option.bind_some, hbefore]
      · rintro ⟨before, after, hnames, hbefore⟩
        cases before with
        | nil =>
            obtain ⟨rfl, rfl⟩ := List.cons.inj hnames
            obtain rfl := Option.some.inj hbefore
            exact Or.inl rfl
        | cons x before =>
            obtain ⟨rfl, rfl⟩ := List.cons.inj hnames
            obtain ⟨n, hn, hrest⟩ := Option.bind_eq_some_iff.mp hbefore
            exact Or.inr ⟨n, hn, ih.mpr ⟨before, after, rfl, hrest⟩⟩

theorem Tree.not_passes_none : ¬ v.Passes none d names := by
  induction names generalizing d with
  | nil => exact id
  | cons y names ih =>
      rintro (hhere | ⟨n, -, hrest⟩)
      · cases hhere
      · exact ih hrest

theorem Tree.AgreeBut.resolve_eq (h : Tree.AgreeBut v v' entry) (hv : v.Sound) (hd : v d ≠ none)
    (hnot : ¬ v.Passes entry d names) : v'.resolve d names = v.resolve d names := by
  induction names generalizing d with
  | nil => rfl
  | cons y names ih =>
      rw [Tree.Passes, not_or] at hnot
      rw [Tree.resolve, Tree.resolve, h d y hd hnot.1]
      refine Option.bind_congr fun n hn => ih (hv.find_mapped hn) fun hpasses => ?_
      exact hnot.2 ⟨n, hn, hpasses⟩

/-- A path goes through the entry before the change if it does so after it. -/
theorem Tree.AgreeBut.passes (h : Tree.AgreeBut v v' entry) (hv : v.Sound) (hd : v d ≠ none)
    (hpasses : v.Passes entry d names) : v'.Passes entry d names := by
  induction names generalizing d with
  | nil => exact hpasses
  | cons y names ih =>
      obtain hhere | ⟨n, hn, hrest⟩ := hpasses
      · exact Or.inl hhere
      · by_cases hhere : entry = some (d, y)
        · exact Or.inl hhere
        · exact Or.inr ⟨n, (h d y hd hhere).trans hn, ih (hv.find_mapped hn) hrest⟩

/-- Nothing is found through an entry that is free. -/
theorem Tree.Passes.resolve_eq_none (h : v.Passes (some (p, name)) d names)
    (hfree : findName (v.slots p) name = none) : v.resolve d names = none := by
  induction names generalizing d with
  | nil => exact h.elim
  | cons y names ih =>
      rw [Tree.resolve]
      obtain hhere | ⟨n, hn, hrest⟩ := h
      · obtain ⟨rfl, rfl⟩ := Prod.mk.inj (Option.some.inj hhere)
        rw [hfree, Option.bind_none]
      · rw [hn, Option.bind_some, ih hrest]

/-! ## What changes keep -/

theorem Tree.Enters.agreeBut {node : Node}
    (hc : Tree.Enters v v' p n name slots slots' node) (hfits : EntryFits v (.enters p name)) :
    Tree.AgreeBut v v' (some (p, name)) := by
  intro d y hd hy
  by_cases hdp : d = p
  · subst hdp
    have hne : y ≠ name := by
      rintro rfl
      exact hy rfl
    rw [EntryFits, Tree.slots_eq hc.dir] at hfits
    rw [hc.slots_self, Tree.slots_eq hc.dir]
    exact hc.inserted.findName_other hfits hne
  · by_cases hdn : d = n
    · -- a new inode has no slots, as it was not there, and a linked one has none, as a file
      subst hdn
      have hold := hc.entered.slots_none
      have hnew := hc.new
      cases hc.entered with
      | file new => exact absurd new hd
      | dir new => exact absurd new hd
      | link old => rw [hold, Tree.slots_eq hnew, Node.slots]
    · rw [Tree.slots_congr (hc.other d hdp hdn)]

theorem Tree.Removes.agreeBut {r : Option Node}
    (hc : Tree.Removes v v' p n name slots pre post i r) (hv : v.Sound)
    (hfits : EntryFits v (.removes p name)) : Tree.AgreeBut v v' (some (p, name)) := by
  intro d y hd hy
  by_cases hdp : d = p
  · subst hdp
    have hne : y ≠ name := by
      rintro rfl
      exact hy rfl
    rw [EntryFits, Tree.slots_eq hc.dir] at hfits
    rw [Tree.slots_eq hc.self, Tree.slots_eq hc.dir]
    exact hc.removed.findName_other hfits hne
  · rw [hc.slots_other hv hdp]

theorem Tree.Removes.findName_self {r : Option Node}
    (hc : Tree.Removes v v' p n name slots pre post i r) (hv : v.Sound) :
    findName (v'.slots p) name = none := by
  rw [Tree.slots_eq hc.self]
  refine FirstSlot.findName_self hc.removed fun hname => ?_
  have hunique := hv.unique p name hname
  rwa [Tree.slots_eq hc.dir] at hunique

theorem Tree.Change.agreeBut (hv : v.Sound) (hc : Tree.Change v v' k) (hfits : EntryFits v k) :
    Tree.AgreeBut v v' k.entry := by
  cases hc with
  | enters change => exact change.agreeBut hfits
  | removes change => exact change.agreeBut hv hfits
  | @writes n i i' file refs written =>
      intro d y hd _
      subst written
      by_cases hdn : d = n
      · subst hdn
        rw [Tree.slots_eq file, Tree.slots_eq (Function.update_self ..)]
        rfl
      · rw [Tree.slots_congr (Function.update_of_ne hdn ..)]

/-- A file that is not written keeps its pointers. -/
theorem Tree.Change.pointers (hv : v.Sound) (hc : Tree.Change v v' k) (hm : v m = some (.file i))
    (hwritten : k ≠ .writes m) (hm' : v' m = some node) :
    ∃ i', node = .file i' ∧ i'.pointers = i.pointers := by
  cases hc with
  | @enters p n name slots slots' node' change =>
      have hmp : m ≠ p := by
        rintro rfl
        cases hm.symm.trans change.dir
      by_cases hmn : m = n
      · subst hmn
        have hnode := Option.some.inj (change.new.symm.trans hm')
        subst hnode
        cases change.entered with
        | file new => cases new.symm.trans hm
        | dir new => cases new.symm.trans hm
        | link old =>
            obtain rfl := Node.file.inj (Option.some.inj (old.symm.trans hm))
            exact ⟨_, rfl, rfl⟩
      · exact ⟨i, (Option.some.inj (hm.symm.trans ((change.other m hmp hmn).symm.trans hm'))).symm,
          rfl⟩
  | @removes p n name slots pre post j r change =>
      have hmp : m ≠ p := by
        rintro rfl
        cases hm.symm.trans change.dir
      by_cases hmn : m = n
      · subst hmn
        obtain rfl := Node.file.inj (Option.some.inj (change.file.symm.trans hm))
        obtain ⟨-, hnone⟩ | ⟨-, hfile⟩ := change.freed_cases hv
        · cases hnone.symm.trans hm'
        · exact ⟨_, (Option.some.inj (hfile.symm.trans hm')).symm, rfl⟩
      · exact ⟨i, (Option.some.inj (hm.symm.trans ((change.other m hmp hmn).symm.trans hm'))).symm,
          rfl⟩
  | @writes n j j' file refs written =>
      have hmn : m ≠ n := by
        rintro rfl
        exact hwritten rfl
      rw [written, Function.update_of_ne hmn] at hm'
      exact ⟨i, (Option.some.inj (hm.symm.trans hm')).symm, rfl⟩

/-! ## The frame of a call -/

/-- The path leads through the entry `name` of the directory `p`. -/
def GoesThrough (c : Config) (s : LFS) (path : Path) (p : ℕ) (name : Path) : Prop :=
  Absolute path ∧ ∃ before after, dirsOf path ++ [lastOf path] = before ++ name :: after ∧
    walkDirs c s rootInode before = some (some p)

/-- The entry that a call makes or frees. -/
def entryOf (c : Config) (s : LFS) (a : Act) : Option (ℕ × Path) :=
  (touched c s a).bind Touched.entry

/-- What a call that succeeds does not touch is as it was. -/
structure Framed (c : Config) (s s' : LFS) (a : Act) : Prop where
  pointers : ∀ n i i', inodeOf s n = some i → i.type = .reg → inodeOf s' n = some i' →
    touched c s a ≠ some (.writes n) → i'.pointers = i.pointers
  kept : ∀ path n, resolution c s path = some n →
    (∀ p name, entryOf c s a = some (p, name) → ¬ GoesThrough c s path p name) →
    resolution c s' path = some n
  fresh : ∀ path n, resolution c s path = none → resolution c s' path = some n →
    ∃ p name, touched c s a = some (.enters p name) ∧ GoesThrough c s' path p name

/-- The call does not overwrite, hide or uncover a file named `-`. -/
def FrameFits (c : Config) (s : LFS) (a : Act) : Prop :=
  ∀ k ∈ touched c s a, EntryFits (treeOf s) k

instance (c : Config) (s : LFS) (a : Act) : Decidable (FrameFits c s a) :=
  inferInstanceAs (Decidable (∀ k ∈ touched c s a, _))

theorem ReadOk.goesThrough_iff (h : ReadOk c s) : GoesThrough c s path p name ↔
    Absolute path ∧
      (treeOf s).Passes (some (p, name)) rootInode (dirsOf path ++ [lastOf path]) := by
  rw [GoesThrough, Tree.passes_iff]
  simp only [h.walkDirs_eq h.sound.root_mapped, Tree.walk_eq_some]

theorem ReadOk.resolution_eq_some (h : ReadOk c s) : resolution c s path = some n ↔
    Absolute path ∧ (treeOf s).resolve rootInode (dirsOf path ++ [lastOf path]) = some n := by
  rw [h.resolution_eq, Tree.resolution, Option.ite_none_right_eq_some]

theorem ReadOk.framed (h : ReadOk c s) (h' : ReadOk c s') (htouched : touched c s a = some k)
    (hc : Tree.Change (treeOf s) (treeOf s') k) (hfits : EntryFits (treeOf s) k) :
    Framed c s s' a := by
  have hagree := hc.agreeBut h.sound hfits
  have hroot := h.sound.root_mapped
  have hentry : entryOf c s a = k.entry := by rw [entryOf, htouched, Option.bind_some]
  refine ⟨fun m j j' hj htype hj' hwritten => ?_, fun path m hm hnot => ?_,
    fun path m hnone hm => ?_⟩
  · have hk : k ≠ .writes m := fun heq => hwritten (heq ▸ htouched)
    obtain ⟨i', hfile, hpointers⟩ := hc.pointers h.sound (treeOf_eq_file.mpr ⟨hj, htype⟩) hk
      (treeOf_of_inode hj')
    have hfile' := (treeOf_of_inode hj').trans (congrArg some hfile)
    obtain rfl := Option.some.inj ((treeOf_eq_file.mp hfile').1.symm.trans hj')
    exact hpointers
  · obtain ⟨habsolute, hresolve⟩ := h.resolution_eq_some.mp hm
    refine h'.resolution_eq_some.mpr ⟨habsolute, ?_⟩
    rw [hagree.resolve_eq h.sound hroot fun hpasses => ?_, hresolve]
    cases hcase : k.entry with
    | none =>
        rw [hcase] at hpasses
        exact Tree.not_passes_none hpasses
    | some e =>
        obtain ⟨p, name⟩ := e
        rw [hcase] at hpasses
        exact hnot p name (hentry.trans hcase) (h.goesThrough_iff.mpr ⟨habsolute, hpasses⟩)
  · obtain ⟨habsolute, hresolve⟩ := h'.resolution_eq_some.mp hm
    have hpasses : (treeOf s).Passes k.entry rootInode (dirsOf path ++ [lastOf path]) := by
      by_contra hnot
      rw [hagree.resolve_eq h.sound hroot hnot] at hresolve
      cases hnone.symm.trans (h.resolution_eq_some.mpr ⟨habsolute, hresolve⟩)
    have hpasses' := hagree.passes h.sound hroot hpasses
    cases hc with
    | @enters p n name slots slots' node change =>
        exact ⟨p, name, htouched, h'.goesThrough_iff.mpr ⟨habsolute, hpasses'⟩⟩
    | removes change =>
        cases hresolve.symm.trans (hpasses'.resolve_eq_none (change.findName_self h.sound))
    | writes => exact absurd hpasses' Tree.not_passes_none

/-- In every state reached, a call that succeeds and fits changes no path but those through its
entry. -/
theorem frame_law (h : Reach (execute c) (Coherent c) LFS.init s)
    (hguard : Coherent c s (.call a)) {ret : ℤ} (hret : (perform c s a).2 = some ret)
    (hok : ret ≠ -1) (hfits : FrameFits c s a) : Framed c s (perform c s a).1 a := by
  have hs := reach_steady h
  have hs' : Steady c (perform c s a).1 := hs.execute hguard rfl
  obtain ⟨-, ⟨hnone, -⟩ | hrefused⟩ | ⟨k, ret', -, -, htouched, hchange⟩ :=
    Effect.change hs.readOk (perform_effect hs.log hs.mapped a)
  · cases hret.symm.trans hnone
  · exact absurd (Option.some.inj (hret.symm.trans hrefused)) hok
  · exact hs.readOk.framed hs'.readOk htouched hchange (hfits k htouched)

/-- A directory with a file named `-`. -/
def dashInDirectory : List Command :=
  [.call (.mkdir ['/', 'd'] 0), .call (.create ['/', 'd', '/', 'a'] 0),
    .call (.create ['/', 'd', '/', '-'] 0)]

theorem frame_law_dashInDirectory :
    ∃ s, run (execute defaults) LFS.init dashInDirectory = some s ∧
      resolution defaults s ['/', 'd', '/', '-'] = some 3 ∧
      Framed defaults s (perform defaults s (.delete ['/', 'd', '/', '-'])).1
        (.delete ['/', 'd', '/', '-']) := by
  have hrun : ((run (execute defaults) LFS.init dashInDirectory).map fun s =>
      (resolution defaults s ['/', 'd', '/', '-'],
        (perform defaults s (.delete ['/', 'd', '/', '-'])).2,
        decide (FrameFits defaults s (.delete ['/', 'd', '/', '-'])))) =
      some (some 3, some 0, true) := by decide +kernel
  obtain ⟨s, hs, hresults⟩ := Option.map_eq_some_iff.mp hrun
  obtain ⟨hnumber, hresults⟩ := Prod.mk.inj hresults
  obtain ⟨hret, hfits⟩ := Prod.mk.inj hresults
  have hmeets : RunMeets (execute defaults) (Coherent defaults) LFS.init dashInDirectory :=
    runMeets_of_check (by decide +kernel)
  have hmemory : defaults.useDiskCr ≠ true := by decide
  exact ⟨s, hs, hnumber, frame_law (reach_of_run _ hmeets hs) (fun hdisk => absurd hdisk hmemory)
    hret (by decide) (of_decide_eq_true hfits)⟩

/-- A new file takes the slot of the file that is named like a free slot. -/
theorem create_over_dash : ¬ ∀ s, Reach (execute defaults) anyStep LFS.init s →
    ∀ a ret, (perform defaults s a).2 = some ret → ret ≠ -1 →
      Framed defaults s (perform defaults s a).1 a := by
  intro hall
  have hrun : ((run (execute defaults) LFS.init [.call (.create ['/', '-'] 0)]).map fun s =>
      (resolution defaults s ['/', '-'], (perform defaults s (.create ['/', 'x'] 0)).2,
        touched defaults s (.create ['/', 'x'] 0),
        resolution defaults (perform defaults s (.create ['/', 'x'] 0)).1 ['/', '-'])) =
      some (some 1, some 0, some (.enters 0 ['x']), none) := by decide +kernel
  obtain ⟨s, hs, hresults⟩ := Option.map_eq_some_iff.mp hrun
  obtain ⟨hbefore, hresults⟩ := Prod.mk.inj hresults
  obtain ⟨hret, hresults⟩ := Prod.mk.inj hresults
  obtain ⟨htouched, hafter⟩ := Prod.mk.inj hresults
  have hframed := hall s (reach_of_run_anyStep _ hs) _ _ hret (by decide)
  refine absurd (hframed.kept _ _ hbefore fun p name hname => ?_) (by rw [hafter]; decide)
  rw [entryOf, htouched] at hname
  obtain ⟨rfl, rfl⟩ := Prod.mk.inj (Option.some.inj hname)
  rintro ⟨-, before, after, hnames, -⟩
  have hmem : ['x'] ∈ dirsOf ['/', '-'] ++ [lastOf ['/', '-']] :=
    hnames ▸ List.mem_append_right before List.mem_cons_self
  exact absurd hmem (by decide)

end OsLabs.Lfs
