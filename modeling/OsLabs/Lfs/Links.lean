import Mathlib
import OsLabs.Lib.Namespace
import OsLabs.Lfs.Changes

/-!
# Entries other than `.` and `..`

As long as no file is named `-`, a new entry takes a free slot. Every directory keeps `.` and
`..`, and a call adds or removes one entry next to them.
-/

namespace OsLabs.Lfs

open OsLabs.Transition

def Node.kind : Node → Namespace.Kind
  | .dir _ => .dir
  | .file _ => .file

def Tree.kind (v : Tree) (n : ℕ) : Option Namespace.Kind := (v n).map Node.kind

def dotNames : List Path := [['.'], ['.', '.']]

local instance lawfulBEq_path : LawfulBEq Path := inferInstance

def childSlot (e : Slot) : Option (Path × ℕ) :=
  if e.1 ∈ dotNames then none else e.2.map fun n => (e.1, n)

/-- The entries of a directory other than `.` and `..`. -/
def Tree.children (v : Tree) (d : ℕ) : List (Path × ℕ) := (v.slots d).filterMap childSlot

/-- The slots named `-` are free, and every directory has entries `.` and `..` for directories. -/
structure Tree.Dotted (v : Tree) : Prop where
  vacant : ∀ d, ∀ e ∈ v.slots d, e.1 = ['-'] → e.2 = none
  dots : ∀ d, v.kind d = some .dir → ∀ y ∈ dotNames,
    ∃ m, (y, some m) ∈ v.slots d ∧ v.kind m = some .dir

variable {c : Config} {s s' t : LFS} {a : Act} {v v' : Tree} {d m n p : ℕ} {i : Inode}
  {name : Path} {slots slots' pre post : List Slot} {node : Node} {e e' : Slot} {refs : ℤ}
  {r : Option Inode}

/-! ## Kinds and entries -/

theorem Tree.kind_dir : v.kind n = some .dir ↔ ∃ slots, v n = some (.dir slots) := by
  rw [Tree.kind]
  cases v n with
  | none => simp
  | some node => cases node <;> simp [Node.kind]

theorem Tree.kind_file : v.kind n = some .file ↔ ∃ i, v n = some (.file i) := by
  rw [Tree.kind]
  cases v n with
  | none => simp
  | some node => cases node <;> simp [Node.kind]

theorem Tree.kind_none : v.kind n = none ↔ v n = none := Option.map_eq_none_iff

theorem Tree.kind_of (h : v n = some node) : v.kind n = some node.kind := by
  rw [Tree.kind, h]
  rfl

theorem Tree.kind_congr (h : v' n = v n) : v'.kind n = v.kind n := by
  rw [Tree.kind, h, Tree.kind]

theorem Tree.dir_of_slots (he : e ∈ v.slots d) : v.kind d = some .dir := by
  cases hd : v d with
  | none =>
      rw [Tree.slots_none hd] at he
      cases he
  | some node =>
      rw [Tree.slots_eq hd] at he
      cases node with
      | file i => cases he
      | dir slots => exact Tree.kind_of hd

theorem childSlot_noEntry : childSlot noEntry = none := rfl

theorem childSlot_none (h : e.2 = none) : childSlot e = none := by
  rw [childSlot, h]
  exact ite_self _

theorem childSlot_name (hname : name ∉ dotNames) (n : ℕ) :
    childSlot (name, some n) = some (name, n) := if_neg hname

theorem childSlot_eq_some {x : Path × ℕ} :
    childSlot e = some x ↔ e = (x.1, some x.2) ∧ x.1 ∉ dotNames := by
  obtain ⟨name, number⟩ := e
  obtain ⟨name', n⟩ := x
  rw [childSlot]
  split
  · next hdot => exact iff_of_false (by simp) fun ⟨heq, hnot⟩ => hnot ((Prod.mk.inj heq).1 ▸ hdot)
  · next hdot =>
      simp only [Option.map_eq_some_iff, Prod.mk.injEq]
      constructor
      · rintro ⟨n', rfl, rfl, rfl⟩
        exact ⟨⟨rfl, rfl⟩, hdot⟩
      · rintro ⟨⟨rfl, rfl⟩, -⟩
        exact ⟨n, rfl, rfl, rfl⟩

theorem Tree.mem_children {x : Path × ℕ} :
    x ∈ v.children d ↔ (x.1, some x.2) ∈ v.slots d ∧ x.1 ∉ dotNames := by
  rw [Tree.children, List.mem_filterMap]
  constructor
  · rintro ⟨e, he, hx⟩
    obtain ⟨rfl, hname⟩ := childSlot_eq_some.mp hx
    exact ⟨he, hname⟩
  · exact fun ⟨he, hname⟩ => ⟨_, he, childSlot_eq_some.mpr ⟨rfl, hname⟩⟩

/-- The slots of a directory that hold an entry. -/
def occupied (slots : List Slot) : List Slot := slots.filter fun e => e ≠ noEntry

theorem Tree.Dotted.occupied_name (h : v.Dotted) (he : e ∈ occupied (v.slots d)) :
    e.1 ≠ ['-'] := by
  obtain ⟨hmem, hne⟩ := List.mem_filter.mp he
  intro hdash
  exact of_decide_eq_true hne (Prod.ext hdash (h.vacant d e hmem hdash))

theorem Tree.Dotted.names_nodup (h : v.Dotted) (hs : v.Sound) (d : ℕ) :
    ((occupied (v.slots d)).map Prod.fst).Nodup := by
  rw [List.nodup_iff_count_le_one]
  intro y
  by_cases hy : y = ['-']
  · rw [hy, List.count_eq_zero.mpr]
    · exact Nat.zero_le 1
    · intro hmem
      obtain ⟨e, he, hname⟩ := List.mem_map.mp hmem
      exact h.occupied_name he hname
  · refine le_trans ?_ (hs.unique d y hy)
    rw [List.count, List.countP_map, occupied, List.countP_filter]
    exact List.countP_mono_left fun e _ he => by simpa using (Bool.and_eq_true_iff.mp he).1

theorem Tree.Dotted.slot_unique (h : v.Dotted) (hs : v.Sound) (he : e ∈ v.slots d)
    (he' : e' ∈ v.slots d) (hname : e.1 = e'.1) (hdash : e.1 ≠ ['-']) : e = e' := by
  have hmem {x : Slot} (hx : x ∈ v.slots d) (hne : x.1 ≠ ['-']) : x ∈ occupied (v.slots d) :=
    List.mem_filter.mpr ⟨hx, decide_eq_true fun heq => hne (congrArg Prod.fst heq)⟩
  exact List.inj_on_of_nodup_map (h.names_nodup hs d) (hmem he hdash)
    (hmem he' (hname ▸ hdash)) hname

/-- Slots named `.` and `..` name directories. -/
theorem Tree.Dotted.dot_dir (h : v.Dotted) (hs : v.Sound) (he : (name, some n) ∈ v.slots d)
    (hname : name ∈ dotNames) : v.kind n = some .dir := by
  obtain ⟨m, hm, hdir⟩ := h.dots d (Tree.dir_of_slots he) name hname
  have hdash : name ≠ ['-'] := by
    rintro rfl
    revert hname
    decide
  have heq := h.slot_unique hs he hm rfl hdash
  exact Option.some.inj (Prod.mk.inj heq).2 ▸ hdir

/-! ## Entering and removing names -/

theorem ne_dash_of_dot (h : name ∈ dotNames) : name ≠ ['-'] := by
  rintro rfl
  revert h
  decide

theorem Inserted.mem_old {x : Slot} (h : Inserted x slots slots') (he : e ∈ slots)
    (hname : e.1 ≠ ['-']) : e ∈ slots' := by
  obtain ⟨pre, y, post, ⟨rfl, hdash, -⟩, rfl⟩ | ⟨-, rfl⟩ := h
  · have hey : e ≠ y := by
      rintro rfl
      exact hname hdash
    simp only [List.mem_append, List.mem_cons] at he ⊢
    tauto
  · exact List.mem_append_left _ he

/-- The new entry takes a slot that is free. -/
theorem Inserted.children (h : Inserted (name, some n) slots slots')
    (hvacant : ∀ e ∈ slots, e.1 = ['-'] → e.2 = none) (hname : name ∉ dotNames) :
    (slots'.filterMap childSlot).Perm ((name, n) :: slots.filterMap childSlot) := by
  obtain ⟨pre, e, post, ⟨rfl, hdash, -⟩, rfl⟩ | ⟨-, rfl⟩ := h
  · have hnone : childSlot e = none := childSlot_none (hvacant e (by simp) hdash)
    rw [List.filterMap_append, List.filterMap_append, List.filterMap_cons_none hnone,
      List.filterMap_cons_some (childSlot_name hname n)]
    exact List.perm_middle
  · have hfree : (List.replicate 7 noEntry).filterMap childSlot = [] := rfl
    rw [List.filterMap_append, List.filterMap_cons_some (childSlot_name hname n), hfree]
    exact List.perm_append_singleton _ _

theorem FirstSlot.children (h : FirstSlot name slots pre (name, some n) post)
    (hname : name ∉ dotNames) :
    (slots.filterMap childSlot).Perm
      ((name, n) :: (pre ++ noEntry :: post).filterMap childSlot) := by
  rw [h.splits, List.filterMap_append, List.filterMap_append,
    List.filterMap_cons_some (childSlot_name hname n), List.filterMap_cons_none childSlot_noEntry]
  exact List.perm_middle

theorem Tree.Enters.kind (hc : Tree.Enters v v' p n name slots slots' node) (m : ℕ) :
    v'.kind m = if m = n then some node.kind else v.kind m := by
  split
  · next hm =>
      rw [hm]
      exact Tree.kind_of hc.new
  · next hm =>
      by_cases hmp : m = p
      · rw [hmp, Tree.kind_of hc.self, Tree.kind_of hc.dir]
        rfl
      · exact Tree.kind_congr (hc.other m hmp hm)

theorem Tree.Enters.not_mem (hc : Tree.Enters v v' p n name slots slots' node) (hs : v.Sound)
    (hname : name ≠ ['-']) (number : Option ℕ) : (name, number) ∉ v.slots p := by
  intro hmem
  refine findName_eq_none (fun e he => ?_) hname hc.fresh (name, number) ?_ rfl
  · exact hs.free p e (Tree.slots_eq hc.dir ▸ he)
  · rwa [Tree.slots_eq hc.dir] at hmem

theorem Tree.Enters.not_dot (hc : Tree.Enters v v' p n name slots slots' node) (hs : v.Sound)
    (h : v.Dotted) : name ∉ dotNames := by
  intro hdot
  obtain ⟨m, hm, -⟩ := h.dots p (Tree.kind_of hc.dir) name hdot
  exact hc.not_mem hs (ne_dash_of_dot hdot) _ hm

theorem Tree.Enters.not_kind_dir (hc : Tree.Enters v v' p n name slots slots' node) :
    v.kind n ≠ some .dir := by
  intro hdir
  obtain ⟨slots₀, hn⟩ := Tree.kind_dir.mp hdir
  exact hc.entered.not_dir slots₀ hn

theorem Tree.Dotted.enters (h : v.Dotted) (hc : Tree.Enters v v' p n name slots slots' node)
    (hname : name ≠ ['-']) : v'.Dotted := by
  constructor
  · intro d e he hdash
    obtain hold | rfl | rfl | ⟨-, rfl | rfl | rfl⟩ := hc.mem he
    · exact h.vacant d e hold hdash
    · exact absurd hdash hname
    · rfl
    · exact absurd hdash (by simp)
    · exact absurd hdash (by simp)
    · rfl
  · intro d hd y hy
    have hkept {m : ℕ} (hm : v.kind m = some .dir) : v'.kind m = some .dir := by
      have hmn : m ≠ n := by
        rintro rfl
        exact hc.not_kind_dir hm
      rwa [hc.kind, if_neg hmn]
    by_cases hdn : d = n
    · subst hdn
      have hent := hc.entered
      have hnew := hc.new
      cases hent with
      | file => cases (Tree.kind_of hnew).symm.trans hd
      | link => cases (Tree.kind_of hnew).symm.trans hd
      | dir =>
          rw [Tree.slots_eq hnew]
          obtain rfl | rfl : y = ['.'] ∨ y = ['.', '.'] := by simpa [dotNames] using hy
          · exact ⟨d, List.mem_cons_self, hd⟩
          · refine ⟨p, List.mem_cons_of_mem _ List.mem_cons_self, hkept (Tree.kind_of hc.dir)⟩
    · rw [hc.kind, if_neg hdn] at hd
      obtain ⟨m, hm, hdir⟩ := h.dots d hd y hy
      refine ⟨m, ?_, hkept hdir⟩
      by_cases hdp : d = p
      · rw [hdp, Tree.slots_eq hc.dir] at hm
        rw [hdp, hc.slots_self]
        exact hc.inserted.mem_old hm (ne_dash_of_dot hy)
      · rwa [Tree.slots_congr (hc.other d hdp hdn)]

theorem Tree.Removes.kind {r : Option Node}
    (hc : Tree.Removes v v' p n name slots pre post i r) (hm : m ≠ n) : v'.kind m = v.kind m := by
  by_cases hmp : m = p
  · rw [hmp, Tree.kind_of hc.self, Tree.kind_of hc.dir]
    rfl
  · exact Tree.kind_congr (hc.other m hmp hm)

theorem Tree.Removes.mem_old {r : Option Node}
    (hc : Tree.Removes v v' p n name slots pre post i r) (hs : v.Sound) (he : e ∈ v.slots d)
    (hn : e.2 ≠ some n) : e ∈ v'.slots d := by
  by_cases hdp : d = p
  · have hne : e ≠ (name, some n) := by
      rintro rfl
      exact hn rfl
    rw [hdp, Tree.slots_eq hc.dir, Node.slots, hc.removed.splits] at he
    rw [hdp, Tree.slots_eq hc.self, Node.slots]
    simp only [List.mem_append, List.mem_cons] at he ⊢
    tauto
  · rwa [hc.slots_other hs hdp]

theorem Tree.Removes.not_dot {r : Option Node}
    (hc : Tree.Removes v v' p n name slots pre post i r) (hs : v.Sound) (h : v.Dotted) :
    name ∉ dotNames := by
  intro hdot
  have hmem : (name, some n) ∈ v.slots p := by
    rw [Tree.slots_eq hc.dir, Node.slots, hc.removed.splits]
    exact List.mem_append_right _ List.mem_cons_self
  cases (h.dot_dir hs hmem hdot).symm.trans (Tree.kind_of hc.file)

theorem Tree.Dotted.removes {r : Option Node} (h : v.Dotted) (hs : v.Sound)
    (hc : Tree.Removes v v' p n name slots pre post i r) : v'.Dotted := by
  have hdir {m : ℕ} (hm : v'.kind m = some .dir) : m ≠ n := by
    rintro rfl
    obtain ⟨slots₀, hnone⟩ := Tree.kind_dir.mp hm
    obtain ⟨-, hfreed⟩ | ⟨-, hfreed⟩ := hc.freed_cases hs
    · cases hfreed.symm.trans hnone
    · cases hfreed.symm.trans hnone
  constructor
  · intro d e he hdash
    obtain hold | rfl := hc.mem hs he
    · exact h.vacant d e hold hdash
    · rfl
  · intro d hd y hy
    rw [hc.kind (hdir hd)] at hd
    obtain ⟨m, hm, hmdir⟩ := h.dots d hd y hy
    have hmn : m ≠ n := by
      rintro rfl
      cases hmdir.symm.trans (Tree.kind_of hc.file)
    exact ⟨m, hc.mem_old hs hm fun heq => hmn (Option.some.inj heq), by rwa [hc.kind hmn]⟩

end OsLabs.Lfs
