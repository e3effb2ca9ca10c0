import Mathlib
import OsLabs.Lfs.Directory

/-!
# The tree of names

What the log says about names: every inode is a file, or a directory with its slots. A new
entry takes the first slot named `-`, whatever it holds, so that a file with that name is lost
but its inode stays; a file is named at most as often as its reference count says.
-/

namespace OsLabs.Lfs

inductive Node
  | dir (slots : List Slot)
  | file (inode : Inode)
deriving DecidableEq, Repr

abbrev Tree := ℕ → Option Node

def Node.slots : Node → List Slot
  | .dir slots => slots
  | .file _ => []

def Tree.slots (v : Tree) (d : ℕ) : List Slot := ((v d).map Node.slots).getD []

/-- The number that a name has in a directory. -/
def findName (slots : List Slot) (name : Path) : Option ℕ :=
  (slots.find? fun e => e.1 = name).bind Prod.snd

/-- The inode that a list of names leads to. -/
def Tree.resolve (v : Tree) : ℕ → List Path → Option ℕ
  | d, [] => some d
  | d, name :: names => (findName (v.slots d) name).bind fun n => v.resolve n names

/-- The number of slots that name an inode. -/
def Tree.links (v : Tree) (n : ℕ) : ℕ :=
  ∑ d ∈ Finset.range numInodes, (v.slots d).countP fun e => e.2 = some n

structure Tree.Sound (v : Tree) : Prop where
  root : ∃ slots, v rootInode = some (.dir slots)
  within : ∀ n, v n ≠ none → n < numInodes
  named : ∀ d, ∀ e ∈ v.slots d, ∀ n, e.2 = some n → v n ≠ none
  counted : ∀ n i, v n = some (.file i) → (v.links n : ℤ) ≤ i.refs
  free : ∀ d, ∀ e ∈ v.slots d, e.2 = none → e.1 = ['-']
  unique : ∀ d name, name ≠ ['-'] → (v.slots d).countP (fun e => e.1 = name) ≤ 1

/-- The inode `n` before and after the directory `p` gets an entry for it. -/
inductive Tree.Entered (v : Tree) (p n : ℕ) : Node → Prop
  | file (new : v n = none) : Entered v p n (.file (makeInode .reg 0 1))
  | dir (new : v n = none) : Entered v p n (.dir (makeNewDirblock p n))
  | link {i : Inode} (old : v n = some (.file i)) :
      Entered v p n (.file { i with refs := i.refs + 1 })

variable {v v' : Tree} {d n m p : ℕ} {name : Path} {slots slots' pre post : List Slot} {e x : Slot}

/-! ## Slots -/

theorem Tree.slots_eq {node : Node} (h : v d = some node) : v.slots d = node.slots := by
  rw [Tree.slots, h]
  rfl

theorem Tree.slots_none (h : v d = none) : v.slots d = [] := by
  rw [Tree.slots, h]
  rfl

theorem Tree.slots_congr (h : v' d = v d) : v'.slots d = v.slots d := by
  rw [Tree.slots, h, Tree.slots]

theorem findName_eq_some (h : findName slots name = some n) : (name, some n) ∈ slots := by
  obtain ⟨e, hfind, hn⟩ := Option.bind_eq_some_iff.mp h
  have hname : e.1 = name := by simpa using List.find?_some hfind
  have he : e = (name, some n) := Prod.ext hname hn
  exact he ▸ List.mem_of_find?_eq_some hfind

theorem findName_eq_none (hfree : ∀ e ∈ slots, e.2 = none → e.1 = ['-']) (hname : name ≠ ['-'])
    (h : findName slots name = none) : ∀ e ∈ slots, e.1 ≠ name := by
  cases hfind : slots.find? fun e => e.1 = name with
  | none => exact fun e he => by simpa using List.find?_eq_none.mp hfind e he
  | some e =>
      have hnumber : e.2 = none := by
        rw [findName, hfind] at h
        exact h
      have hnamed : e.1 = name := by simpa using List.find?_some hfind
      exact absurd (hnamed.symm.trans (hfree e (List.mem_of_find?_eq_some hfind) hnumber)) hname

/-- What one entry more does to a count of slots. -/
theorem Inserted.countP_le (h : Inserted x slots slots') {q : Slot → Bool}
    (hfree : q noEntry = false) : slots'.countP q ≤ slots.countP q + if q x then 1 else 0 := by
  obtain ⟨pre, e, post, hfirst, rfl⟩ | ⟨-, rfl⟩ := h
  · rw [hfirst.splits, List.countP_append, List.countP_append, List.countP_cons, List.countP_cons]
    omega
  · have hzero : (List.replicate 7 noEntry).countP q = 0 := by
      rw [List.countP_replicate, hfree]
      rfl
    rw [List.countP_append, List.countP_cons, hzero]
    omega

theorem Inserted.mem (h : Inserted x slots slots') (he : e ∈ slots') :
    e ∈ slots ∨ e = x ∨ e = noEntry := by
  obtain ⟨pre, y, post, hfirst, rfl⟩ | ⟨-, rfl⟩ := h
  · rw [hfirst.splits]
    simp only [List.mem_append, List.mem_cons] at he ⊢
    tauto
  · simp only [List.mem_append, List.mem_cons] at he
    obtain he | he | he := he
    · exact Or.inl he
    · exact Or.inr (Or.inl he)
    · exact Or.inr (Or.inr (List.eq_of_mem_replicate he))

theorem mem_makeNewDirblock (he : e ∈ makeNewDirblock p n) :
    e = (['.'], some n) ∨ e = (['.', '.'], some p) ∨ e = noEntry := by
  simp only [makeNewDirblock, makeEmptyDirblock, List.replicate_succ, List.replicate_zero,
    List.set_cons_zero, List.set_cons_succ, List.mem_cons, List.not_mem_nil, or_false] at he
  tauto

theorem makeNewDirblock_unique (hname : name ≠ ['-']) :
    (makeNewDirblock p n).countP (fun e => e.1 = name) ≤ 1 := by
  have hfree : ¬ ['-'] = name := fun h => hname h.symm
  simp only [makeNewDirblock, makeEmptyDirblock, noEntry, List.replicate_succ, List.replicate_zero,
    List.set_cons_zero, List.set_cons_succ, List.countP_cons, List.countP_nil, hfree,
    decide_false, Bool.false_eq_true, if_false, decide_eq_true_eq]
  split
  · next hdots =>
      subst hdots
      decide
  · split <;> omega

/-! ## Counting names -/

theorem Tree.Sound.links_eq_zero (h : v.Sound) (hn : v n = none) : v.links n = 0 := by
  refine Finset.sum_eq_zero fun d _ => ?_
  rw [List.countP_eq_zero]
  intro e he hen
  exact h.named d e he n (of_decide_eq_true hen) hn

theorem links_le {k : ℕ} (hp : p < numInodes)
    (hself : (v'.slots p).countP (fun e => e.2 = some m) ≤
      (v.slots p).countP (fun e => e.2 = some m) + k)
    (hother : ∀ d, d ≠ p → (v'.slots d).countP (fun e => e.2 = some m) ≤
      (v.slots d).countP fun e => e.2 = some m) : v'.links m ≤ v.links m + k := by
  rw [Tree.links, Tree.links, ← Finset.add_sum_erase _ _ (Finset.mem_range.mpr hp),
    ← Finset.add_sum_erase _ _ (Finset.mem_range.mpr hp)]
  have hrest := Finset.sum_le_sum fun d hd =>
    hother d (Finset.ne_of_mem_erase (s := Finset.range numInodes) hd)
  omega

theorem Tree.Sound.links_pos (h : v.Sound) (he : e ∈ v.slots d) (hn : e.2 = some n) :
    0 < v.links n := by
  have hd : d < numInodes := by
    refine h.within d fun hnone => ?_
    rw [Tree.slots_none hnone] at he
    cases he
  refine Finset.sum_pos_iff.mpr ⟨d, Finset.mem_range.mpr hd, ?_⟩
  exact List.countP_pos_iff.mpr ⟨e, he, by simpa using hn⟩

/-! ## Changes keep the tree sound -/

variable {node : Node}

theorem Tree.Entered.not_dir (h : v.Entered p n node) (slots : List Slot) :
    v n ≠ some (.dir slots) := by
  cases h with
  | file new => exact fun hdir => absurd (new.symm.trans hdir) (by simp)
  | dir new => exact fun hdir => absurd (new.symm.trans hdir) (by simp)
  | link old => exact fun hdir => absurd (old.symm.trans hdir) (by simp)

theorem Tree.Entered.slots_none (h : v.Entered p n node) : v.slots n = [] := by
  cases h with
  | file new => exact Tree.slots_none new
  | dir new => exact Tree.slots_none new
  | link old => exact Tree.slots_eq old

theorem Tree.Entered.mem_slots (h : v.Entered p n node) (he : e ∈ node.slots) :
    node = .dir (makeNewDirblock p n) ∧
      (e = (['.'], some n) ∨ e = (['.', '.'], some p) ∨ e = noEntry) := by
  cases h with
  | file => exact absurd he List.not_mem_nil
  | dir => exact ⟨rfl, mem_makeNewDirblock he⟩
  | link => exact absurd he List.not_mem_nil

/-- The tree after an entry has been made. -/
structure Tree.Enters (v v' : Tree) (p n : ℕ) (name : Path) (slots slots' : List Slot)
    (node : Node) : Prop where
  dir : v p = some (.dir slots)
  inRange : n < numInodes
  fresh : findName slots name = none
  inserted : Inserted (name, some n) slots slots'
  entered : v.Entered p n node
  self : v' p = some (.dir slots')
  new : v' n = some node
  other : ∀ d, d ≠ p → d ≠ n → v' d = v d

theorem Tree.Enters.slots_self (hc : Tree.Enters v v' p n name slots slots' node) :
    v'.slots p = slots' :=
  Tree.slots_eq hc.self

theorem Tree.Enters.countP_le (hc : Tree.Enters v v' p n name slots slots' node)
    {q : Slot → Bool} (hfree : q noEntry = false) :
    (v'.slots p).countP q ≤ (v.slots p).countP q + if q (name, some n) then 1 else 0 := by
  rw [hc.slots_self, Tree.slots_eq hc.dir]
  exact hc.inserted.countP_le hfree

theorem Tree.Enters.mem (hc : Tree.Enters v v' p n name slots slots' node)
    (he : e ∈ v'.slots d) : e ∈ v.slots d ∨ e = (name, some n) ∨ e = noEntry ∨
      d = n ∧ (e = (['.'], some n) ∨ e = (['.', '.'], some p) ∨ e = noEntry) := by
  by_cases hdp : d = p
  · subst hdp
    rw [hc.slots_self] at he
    rw [Tree.slots_eq hc.dir]
    exact (hc.inserted.mem he).imp id (Or.imp id Or.inl)
  · by_cases hdn : d = n
    · subst hdn
      rw [Tree.slots_eq hc.new] at he
      exact Or.inr (Or.inr (Or.inr ⟨rfl, (hc.entered.mem_slots he).2⟩))
    · rw [Tree.slots_congr (hc.other d hdp hdn)] at he
      exact Or.inl he

theorem Tree.Enters.kept (hc : Tree.Enters v v' p n name slots slots' node) (hm : v m ≠ none) :
    v' m ≠ none := by
  by_cases hmp : m = p
  · rw [hmp, hc.self]
    exact Option.some_ne_none _
  · by_cases hmn : m = n
    · rw [hmn, hc.new]
      exact Option.some_ne_none _
    · rwa [hc.other m hmp hmn]

theorem Tree.Enters.links_le (hc : Tree.Enters v v' p n name slots slots' node) (h : v.Sound)
    {i : Inode} (hm : v' m = some (.file i)) :
    v'.links m ≤ v.links m + if n = m then 1 else 0 := by
  have hmp : m ≠ p := by
    rintro rfl
    cases hm.symm.trans hc.self
  have hp : p < numInodes := h.within p (hc.dir ▸ Option.some_ne_none _)
  refine Lfs.links_le hp ?_ fun d hdp => ?_
  · simpa using hc.countP_le (q := fun e => e.2 = some m) (by simp [noEntry])
  · by_cases hdn : d = n
    · subst hdn
      refine le_of_eq_of_le (List.countP_eq_zero.mpr fun e he hem => ?_) (Nat.zero_le _)
      rw [Tree.slots_eq hc.new] at he
      obtain ⟨rfl, hcases⟩ := hc.entered.mem_slots he
      have hmd : m ≠ d := by
        rintro rfl
        cases hm.symm.trans hc.new
      have hem : e.2 = some m := of_decide_eq_true hem
      obtain rfl | rfl | rfl := hcases
      · exact hmd (Option.some.inj hem).symm
      · exact hmp (Option.some.inj hem).symm
      · cases hem
    · rw [Tree.slots_congr (hc.other d hdp hdn)]

theorem Tree.Sound.enters (h : v.Sound) (hc : Tree.Enters v v' p n name slots slots' node) :
    v'.Sound := by
  refine ⟨?_, fun m hm => ?_, fun d e he m hem => ?_, fun m i hm => ?_, fun d e he hnone => ?_,
    fun d y hy => ?_⟩
  · obtain ⟨slots₀, hroot⟩ := h.root
    by_cases hp : rootInode = p
    · exact ⟨slots', hp ▸ hc.self⟩
    · have hn : rootInode ≠ n := by
        rintro rfl
        exact hc.entered.not_dir slots₀ hroot
      exact ⟨slots₀, (hc.other _ hp hn).trans hroot⟩
  · by_cases hmn : m = n
    · exact hmn ▸ hc.inRange
    · by_cases hmp : m = p
      · exact h.within m (hmp ▸ hc.dir ▸ Option.some_ne_none _)
      · exact h.within m (hc.other m hmp hmn ▸ hm)
  · have hnew : v' n ≠ none := hc.new ▸ Option.some_ne_none _
    obtain he | rfl | rfl | ⟨-, rfl | rfl | rfl⟩ := hc.mem he
    · exact hc.kept (h.named d e he m hem)
    · exact Option.some.inj hem ▸ hnew
    · cases hem
    · exact Option.some.inj hem ▸ hnew
    · exact Option.some.inj hem ▸ hc.self ▸ Option.some_ne_none _
    · cases hem
  · have hle := hc.links_le h hm
    by_cases hnm : n = m
    · subst hnm
      rw [if_pos rfl] at hle
      have hnode := Option.some.inj (hc.new.symm.trans hm)
      cases hc.entered with
      | file new =>
          rw [h.links_eq_zero new] at hle
          have hone : (makeInode .reg 0 1).refs = 1 := rfl
          rw [← Node.file.inj hnode, hone]
          omega
      | dir => cases hnode
      | link old =>
          have hcounted := h.counted n _ old
          rw [← Node.file.inj hnode]
          push_cast
          omega
    · rw [if_neg hnm, add_zero] at hle
      have hmp : m ≠ p := by
        rintro rfl
        cases hm.symm.trans hc.self
      rw [hc.other m hmp (Ne.symm hnm)] at hm
      have hcounted := h.counted m i hm
      omega
  · obtain he | rfl | rfl | ⟨-, rfl | rfl | rfl⟩ := hc.mem he
    · exact h.free d e he hnone
    · cases hnone
    · rfl
    · cases hnone
    · cases hnone
    · rfl
  · by_cases hdp : d = p
    · subst hdp
      have hle := hc.countP_le (q := fun e => e.1 = y) (decide_eq_false (Ne.symm hy))
      by_cases hname : name = y
      · have hzero : (v.slots d).countP (fun e => e.1 = y) = 0 := by
          rw [List.countP_eq_zero, Tree.slots_eq hc.dir]
          intro e he hey
          refine findName_eq_none (fun e he => ?_) (hname ▸ hy) hc.fresh e he
            ((of_decide_eq_true hey).trans hname.symm)
          exact h.free d e (Tree.slots_eq hc.dir ▸ he)
        rw [hzero, if_pos (by simpa using hname)] at hle
        exact hle
      · rw [if_neg (by simpa using hname), add_zero] at hle
        exact hle.trans (h.unique d y hy)
    · by_cases hdn : d = n
      · subst hdn
        rw [Tree.slots_eq hc.new]
        cases hc.entered with
        | file => exact Nat.zero_le _
        | dir => exact makeNewDirblock_unique hy
        | link => exact Nat.zero_le _
      · rw [Tree.slots_congr (hc.other d hdp hdn)]
        exact h.unique d y hy

/-- The tree after an entry has been freed. -/
structure Tree.Removes (v v' : Tree) (p n : ℕ) (name : Path) (slots pre post : List Slot)
    (i : Inode) (r : Option Node) : Prop where
  dir : v p = some (.dir slots)
  file : v n = some (.file i)
  removed : FirstSlot name slots pre (name, some n) post
  last : i.refs = 1 → r = none
  more : 1 < i.refs → r = some (.file { i with refs := i.refs - 1 })
  self : v' p = some (.dir (pre ++ noEntry :: post))
  freed : v' n = r
  other : ∀ d, d ≠ p → d ≠ n → v' d = v d

variable {i : Inode} {r : Option Node}

/-- One link of the file is left for every slot that names it. -/
theorem Tree.Removes.freed_cases (hc : Tree.Removes v v' p n name slots pre post i r)
    (h : v.Sound) : i.refs = 1 ∧ v' n = none ∨
      1 < i.refs ∧ v' n = some (.file { i with refs := i.refs - 1 }) := by
  have hmem : (name, some n) ∈ v.slots p := by
    rw [Tree.slots_eq hc.dir, Node.slots, hc.removed.splits]
    exact List.mem_append_right _ List.mem_cons_self
  have hpos := h.links_pos hmem rfl
  have hcounted := h.counted n i hc.file
  obtain hone | hmore : i.refs = 1 ∨ 1 < i.refs := by omega
  · exact Or.inl ⟨hone, hc.freed.trans (hc.last hone)⟩
  · exact Or.inr ⟨hmore, hc.freed.trans (hc.more hmore)⟩

theorem Tree.Removes.slots_freed (hc : Tree.Removes v v' p n name slots pre post i r)
    (h : v.Sound) : v'.slots n = [] := by
  obtain ⟨-, hnone⟩ | ⟨-, hfile⟩ := hc.freed_cases h
  · exact Tree.slots_none hnone
  · exact Tree.slots_eq hfile

theorem Tree.Removes.slots_other (hc : Tree.Removes v v' p n name slots pre post i r)
    (h : v.Sound) (hd : d ≠ p) : v'.slots d = v.slots d := by
  by_cases hdn : d = n
  · rw [hdn, hc.slots_freed h, Tree.slots_eq hc.file, Node.slots]
  · exact Tree.slots_congr (hc.other d hd hdn)

theorem Tree.Removes.mem (hc : Tree.Removes v v' p n name slots pre post i r) (h : v.Sound)
    (he : e ∈ v'.slots d) : e ∈ v.slots d ∨ e = noEntry := by
  by_cases hdp : d = p
  · rw [hdp, Tree.slots_eq hc.self, Node.slots] at he
    rw [hdp, Tree.slots_eq hc.dir, Node.slots, hc.removed.splits]
    simp only [List.mem_append, List.mem_cons] at he ⊢
    tauto
  · exact Or.inl (hc.slots_other h hdp ▸ he)

theorem Tree.Removes.countP_add (hc : Tree.Removes v v' p n name slots pre post i r)
    {q : Slot → Bool} (hfree : q noEntry = false) :
    (v'.slots p).countP q + (if q (name, some n) then 1 else 0) = (v.slots p).countP q := by
  rw [Tree.slots_eq hc.self, Tree.slots_eq hc.dir, Node.slots, Node.slots, hc.removed.splits,
    List.countP_append, List.countP_append, List.countP_cons, List.countP_cons, hfree]
  simp only [Bool.false_eq_true, if_false]
  omega

theorem Tree.Removes.links_add (hc : Tree.Removes v v' p n name slots pre post i r)
    (h : v.Sound) (m : ℕ) : v'.links m + (if n = m then 1 else 0) = v.links m := by
  have hp : p ∈ Finset.range numInodes :=
    Finset.mem_range.mpr (h.within p (hc.dir ▸ Option.some_ne_none _))
  have hself := hc.countP_add (q := fun e => e.2 = some m) (by simp [noEntry])
  simp only [Option.some.injEq, decide_eq_true_eq] at hself
  rw [Tree.links, Tree.links, ← Finset.add_sum_erase _ _ hp, ← Finset.add_sum_erase _ _ hp]
  have hrest : ∑ d ∈ (Finset.range numInodes).erase p,
      (v'.slots d).countP (fun e => e.2 = some m) =
      ∑ d ∈ (Finset.range numInodes).erase p, (v.slots d).countP fun e => e.2 = some m :=
    Finset.sum_congr rfl fun d hd => by rw [hc.slots_other h (Finset.ne_of_mem_erase hd)]
  omega

theorem Tree.Sound.removes (h : v.Sound)
    (hc : Tree.Removes v v' p n name slots pre post i r) : v'.Sound := by
  have hpn : p ≠ n := by
    rintro rfl
    cases hc.dir.symm.trans hc.file
  refine ⟨?_, fun m hm => ?_, fun d e he m hem => ?_, fun m j hm => ?_, fun d e he hnone => ?_,
    fun d y hy => ?_⟩
  · obtain ⟨slots₀, hroot⟩ := h.root
    by_cases hp : rootInode = p
    · exact ⟨_, hp ▸ hc.self⟩
    · have hn : rootInode ≠ n := by
        rintro rfl
        cases hroot.symm.trans hc.file
      exact ⟨slots₀, (hc.other _ hp hn).trans hroot⟩
  · by_cases hmn : m = n
    · exact h.within m (hmn ▸ hc.file ▸ Option.some_ne_none _)
    · by_cases hmp : m = p
      · exact h.within m (hmp ▸ hc.dir ▸ Option.some_ne_none _)
      · exact h.within m (hc.other m hmp hmn ▸ hm)
  · by_cases hmn : m = n
    · -- a slot that still names the file counts as a second link
      obtain ⟨hone, -⟩ | ⟨-, hfile⟩ := hc.freed_cases h
      · have hd : d < numInodes := by
          refine h.within d fun hnone => ?_
          obtain hmem | rfl := hc.mem h he
          · rw [Tree.slots_none hnone] at hmem
            cases hmem
          · cases hem
        have hpos : 0 < v'.links n := Finset.sum_pos_iff.mpr ⟨d, Finset.mem_range.mpr hd,
          List.countP_pos_iff.mpr ⟨e, he, by simpa using hmn ▸ hem⟩⟩
        have hadd := hc.links_add h n
        have hcounted := h.counted n i hc.file
        rw [if_pos rfl] at hadd
        omega
      · rw [hmn, hfile]
        exact Option.some_ne_none _
    · obtain hmem | rfl := hc.mem h he
      · have hm := h.named d e hmem m hem
        by_cases hmp : m = p
        · exact hmp ▸ hc.self ▸ Option.some_ne_none _
        · rwa [hc.other m hmp hmn]
      · cases hem
  · have hadd := hc.links_add h m
    by_cases hnm : n = m
    · subst hnm
      obtain ⟨-, hnone⟩ | ⟨-, hfile⟩ := hc.freed_cases h
      · cases hnone.symm.trans hm
      · rw [← Node.file.inj (Option.some.inj (hfile.symm.trans hm))]
        have hcounted := h.counted n i hc.file
        rw [if_pos rfl] at hadd
        dsimp only
        omega
    · rw [if_neg hnm, add_zero] at hadd
      have hmp : m ≠ p := by
        rintro rfl
        cases hm.symm.trans hc.self
      rw [hc.other m hmp (Ne.symm hnm)] at hm
      rw [hadd]
      exact h.counted m j hm
  · obtain hmem | rfl := hc.mem h he
    · exact h.free d e hmem hnone
    · rfl
  · by_cases hdp : d = p
    · have hadd := hc.countP_add (q := fun e => e.1 = y) (decide_eq_false (Ne.symm hy))
      have hold := h.unique p y hy
      rw [hdp]
      omega
    · rw [hc.slots_other h hdp]
      exact h.unique d y hy

/-- The tree after a file has been written. -/
theorem Tree.Sound.writes (h : v.Sound) {i' : Inode} (hn : v n = some (.file i))
    (hrefs : i'.refs = i.refs) : Tree.Sound (Function.update v n (some (.file i'))) := by
  have hother (m : ℕ) (hm : m ≠ n) : Function.update v n (some (.file i')) m = v m :=
    Function.update_of_ne hm ..
  have hself : Function.update v n (some (.file i')) n = some (.file i') :=
    Function.update_self ..
  have hslots : Tree.slots (Function.update v n (some (.file i'))) = v.slots := by
    funext d
    by_cases hdn : d = n
    · rw [hdn, Tree.slots_eq hself, Tree.slots_eq hn, Node.slots, Node.slots]
    · exact Tree.slots_congr (hother d hdn)
  have hsome (m : ℕ) : Function.update v n (some (.file i')) m ≠ none ↔ v m ≠ none := by
    by_cases hmn : m = n
    · rw [hmn, hself, hn]
      simp
    · rw [hother m hmn]
  refine ⟨?_, fun m hm => h.within m ((hsome m).mp hm), fun d e he m hem => ?_,
    fun m j hm => ?_, fun d e he => h.free d e (hslots ▸ he), fun d => ?_⟩
  · obtain ⟨slots₀, hroot⟩ := h.root
    have hne : rootInode ≠ n := by
      rintro rfl
      cases hroot.symm.trans hn
    exact ⟨slots₀, (hother _ hne).trans hroot⟩
  · exact (hsome m).mpr (h.named d e (hslots ▸ he) m hem)
  · have hlinks : Tree.links (Function.update v n (some (.file i'))) m = v.links m := by
      rw [Tree.links, Tree.links, hslots]
    rw [hlinks]
    by_cases hmn : m = n
    · rw [hmn, hself] at hm
      rw [hmn, ← Node.file.inj (Option.some.inj hm), hrefs]
      exact h.counted n i hn
    · rw [hother m hmn] at hm
      exact h.counted m j hm
  · rw [hslots]
    exact h.unique d

/-! ## Changes -/

/-- The entry that a call makes or frees, or the file that it writes. -/
inductive Touched
  | enters (p : ℕ) (name : Path)
  | removes (p : ℕ) (name : Path)
  | writes (n : ℕ)
deriving DecidableEq, Repr

/-- What the calls do to the tree. -/
inductive Tree.Change (v v' : Tree) : Touched → Prop
  | enters {p n : ℕ} {name : Path} {slots slots' : List Slot} {node : Node}
      (change : Tree.Enters v v' p n name slots slots' node) : Change v v' (.enters p name)
  | removes {p n : ℕ} {name : Path} {slots pre post : List Slot} {i : Inode} {r : Option Node}
      (change : Tree.Removes v v' p n name slots pre post i r) : Change v v' (.removes p name)
  | writes {n : ℕ} {i i' : Inode} (file : v n = some (.file i)) (refs : i'.refs = i.refs)
      (written : v' = Function.update v n (some (.file i'))) : Change v v' (.writes n)

theorem Tree.Sound.change {k : Touched} (h : v.Sound) (hc : Tree.Change v v' k) : v'.Sound := by
  cases hc with
  | enters change => exact h.enters change
  | removes change => exact h.removes change
  | writes file refs written => exact written ▸ h.writes file refs

end OsLabs.Lfs
