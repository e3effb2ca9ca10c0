import OsLabs.Lib.ChildTree

/-!
# The process tree

`fork.py`: processes fork and exit, each under a name that the user or the simulator
gives. `children` and `parents` are dictionaries; the entries of a process that exited
are set to `-1`, and any use of such an entry raises, as that of a missing one does.
-/

namespace OsLabs.Fork

def Name := List Char
deriving DecidableEq, Repr

inductive Failure
  /-- `bad_action` prints the action and exits. -/
  | badAction (action : List Char)
  /-- `root process: cannot exit` -/
  | rootExit
  /-- A Python exception. -/
  | exception
  /-- The loop appends to the list it runs over. -/
  | forever
deriving DecidableEq, Repr

structure Options where
  leaf_only : Bool
  local_reparent : Bool
  /-- How deep Python lets a recursion go. -/
  recursionLimit : ℕ

structure Forker where
  process_list : List Name
  children : Name → Option (List Name)
  parents : Name → Option Name

def root_name : Name := ['a']

def init : Forker where
  process_list := [root_name]
  children := Function.update (fun _ => none) root_name (some [])
  parents := fun _ => none

def lookup {α : Type} : Option α → Except Failure α
  | some a => .ok a
  | none => .error .exception

def do_fork (s : Forker) (p c : Name) : Except Failure Forker := do
  let children := Function.update s.children c (some [])
  let siblings ← lookup (children p)
  return {
    process_list := s.process_list ++ [c]
    children := Function.update children p (some (siblings ++ [c]))
    parents := Function.update s.parents c (some p) }

/-- The names in the order in which `walk` prints them. -/
def walk (children : Name → Option (List Name)) : ℕ → Name → Option (List Name) :=
  ChildTree.preorder children

def collect_children (children : Name → Option (List Name)) : ℕ → Name → Option (List Name)
  | 0, _ => none
  | fuel + 1, p => do
      let cs ← children p
      if cs = [] then return [p]
      else do
        let below ← cs.mapM (collect_children children fuel)
        return p :: below.flatten

/-- `self.parents[orphan] = q` and `self.children[q].append(orphan)`. -/
def adopt (q : Name) (s : Forker) (orphan : Name) : Except Failure Forker := do
  let siblings ← lookup (s.children q)
  return { s with
    children := Function.update s.children q (some (siblings ++ [orphan]))
    parents := Function.update s.parents orphan (some q) }

def reparent (o : Options) (s : Forker) (p exit_parent : Name) : Except Failure Forker :=
  if o.local_reparent then do
    let orphans ← lookup (s.children p)
    if exit_parent = p ∧ orphans ≠ [] then .error .forever
    else orphans.foldlM (adopt exit_parent) s
  else do
    let descendents ← lookup (collect_children s.children o.recursionLimit p)
    (descendents.erase p).foldlM
      (fun s d => adopt root_name { s with children := Function.update s.children d (some []) } d) s

def do_exit (o : Options) (s : Forker) (p : Name) : Except Failure Forker :=
  if p = root_name then .error .rootExit
  else do
    let exit_parent ← lookup (s.parents p)
    let s ← reparent o { s with process_list := s.process_list.erase p } p exit_parent
    let siblings ← lookup (s.children exit_parent)
    if p ∈ siblings then
      return {
        process_list := s.process_list
        children :=
          Function.update (Function.update s.children exit_parent (some (siblings.erase p))) p none
        parents := Function.update s.parents p none }
    else .error .exception

inductive Action
  | fork (p c : Name)
  | exit (p : Name)
deriving DecidableEq, Repr

def check_legal (action : List Char) : Except Failure Action :=
  if '+' ∈ action then
    match action.splitOn '+' with
    | [p, c] => .ok (.fork p c)
    | _ => .error (.badAction action)
  else if '-' ∈ action then
    match action.splitOn '-' with
    | [p, _] => .ok (.exit p)
    | _ => .error (.badAction action)
  else .error (.badAction action)

/-- One turn of the loop of `run`, less what it prints. -/
def perform (o : Options) (s : Forker) (action : List Char) : Except Failure Forker := do
  match ← check_legal action with
  | .fork fork_choice new_child =>
      if fork_choice ∈ s.process_list then do_fork s fork_choice new_child
      else .error (.badAction action)
  | .exit exit_choice =>
      if exit_choice ∈ s.process_list then
        if o.leaf_only then do
          let cs ← lookup (s.children exit_choice)
          if 0 < cs.length then return s else do_exit o s exit_choice
        else do_exit o s exit_choice
      else .error (.badAction action)

/-! ## One action on a tree -/

open ChildTree

variable {o : Options} {s s' : Forker} {p q c : Name} {cs qs w : List Name}
  {children : Name → Option (List Name)}

def Forker.IsTree (s : Forker) : Prop :=
  ChildTree.IsTree root_name s.process_list s.children s.parents

theorem init_isTree : init.IsTree := by
  constructor
  · exact List.nodup_singleton _
  · exact List.mem_singleton_self _
  · rfl
  · intro x hx hne
    exact absurd (List.mem_singleton.mp hx) hne
  · intro p hp
    obtain rfl := List.mem_singleton.mp hp
    exact ⟨[], rfl, fun x => rfl⟩
  · intro x hx
    have hne : x ≠ root_name := fun heq => hx (List.mem_singleton.mpr heq)
    simp [init, hne]

theorem lookup_bind_eq_ok {α β : Type} {x : Option α} {f : α → Except Failure β} {b : β} :
    (lookup x >>= f) = .ok b ↔ ∃ a, x = some a ∧ f a = .ok b := by
  cases x with
  | none => exact iff_of_false nofun nofun
  | some a => simp [lookup, bind, Except.bind]

theorem collect_children_eq (children : Name → Option (List Name)) (fuel : ℕ) (p : Name) :
    collect_children children fuel p = preorder children fuel p := by
  induction fuel generalizing p with
  | zero => rfl
  | succ fuel ih =>
      rw [collect_children, preorder]
      cases children p with
      | none => rfl
      | some cs =>
          change (if cs = [] then some [p] else _) = _
          split
          · next hnil =>
              subst hnil
              rfl
          · rw [funext ih]
            rfl

theorem do_fork_isTree (h : s.IsTree) (hp : p ∈ s.process_list) (hc : c ∉ s.process_list)
    (hok : do_fork s p c = .ok s') : s'.IsTree := by
  obtain ⟨cs, hcs, hok⟩ := lookup_bind_eq_ok.mp hok
  obtain rfl := Except.ok.inj hok
  rw [Function.update_of_ne (ne_of_mem_of_not_mem hp hc)] at hcs
  exact h.addLeaf hp hc hcs

theorem foldlM_adopt (hqs : s.children q = some qs) :
    cs.foldlM (adopt q) s = .ok { s with
      children := Function.update s.children q (some (qs ++ cs))
      parents := fun x => if x ∈ cs then some q else s.parents x } := by
  induction cs generalizing s qs with
  | nil => simp [← hqs, pure, Except.pure]
  | cons c cs ih =>
      have hadopt : adopt q s c = .ok { s with
          children := Function.update s.children q (some (qs ++ [c]))
          parents := Function.update s.parents c (some q) } := by
        rw [adopt, hqs]
        rfl
      rw [List.foldlM_cons, hadopt]
      refine (@ih _ (qs ++ [c]) (by simp)).trans ?_
      simp only [Function.update_idem, List.append_assoc, List.singleton_append,
        Function.update_apply, List.mem_cons]
      congr 2
      funext x
      split <;> simp_all

theorem foldlM_clear_adopt (hroot : root_name ∉ cs) (hqs : s.children root_name = some qs) :
    cs.foldlM (fun s d =>
        adopt root_name { s with children := Function.update s.children d (some []) } d) s =
      .ok { s with
        children := Function.update (fun x => if x ∈ cs then some [] else s.children x) root_name
          (some (qs ++ cs))
        parents := fun x => if x ∈ cs then some root_name else s.parents x } := by
  induction cs generalizing s qs with
  | nil => simp [← hqs, pure, Except.pure]
  | cons c cs ih =>
      obtain ⟨hc, hcs⟩ := not_or.mp (List.mem_cons.not.mp hroot)
      have hadopt : adopt root_name
          { s with children := Function.update s.children c (some []) } c = .ok { s with
            children := Function.update (Function.update s.children c (some [])) root_name
              (some (qs ++ [c]))
            parents := Function.update s.parents c (some root_name) } := by
        rw [adopt]
        simp only [Function.update_of_ne hc, hqs]
        rfl
      rw [List.foldlM_cons, hadopt]
      refine (@ih _ (qs ++ [c]) hcs (by simp)).trans ?_
      simp only [List.append_assoc, List.singleton_append, Function.update_apply, List.mem_cons]
      congr 2
      · funext x
        simp only [Function.update_apply]
        split_ifs <;> simp_all
      · funext x
        split_ifs <;> simp_all

/-- After its children have moved, the process that exits is a leaf. -/
theorem reparent_isTree {l : List Name} {e : Name} (h : s.IsTree) (hparent : s.parents p = some e)
    (hok : reparent o { s with process_list := l } p e = .ok s') :
    s'.process_list = l ∧ s'.parents p = some e ∧
      ChildTree.IsTree root_name s.process_list (Function.update s'.children p (some []))
        s'.parents := by
  obtain ⟨hp, hroot, he, hlt⟩ := h.parent_cases hparent
  have hep : e ≠ p := fun heq => absurd hlt (heq ▸ Nat.lt_irrefl _)
  rw [reparent] at hok
  split at hok
  · obtain ⟨orphans, horphans, hok⟩ := lookup_bind_eq_ok.mp hok
    obtain ⟨es, hes, -⟩ := h.children_mem e he
    rw [if_neg fun hand => hep hand.1, foldlM_adopt (s := { s with process_list := l }) hes] at hok
    obtain rfl := Except.ok.inj hok
    have horphan (x : Name) : x ∈ orphans ↔ s.parents x = some p := h.mem_children hp horphans
    have hpp : s.parents p ≠ some p := fun heq => hep (Option.some.inj (hparent.symm.trans heq))
    refine ⟨rfl, ?_, h.move he (h.children_nodup hp horphans) hes ?_ ?_ ?_ ?_ fun x => rfl⟩
    · exact (if_neg ((horphan p).not.mpr hpp)).trans hparent
    · intro x hx
      obtain ⟨hmem, -, -, hltx⟩ := h.parent_cases ((horphan x).mp hx)
      refine ⟨hmem, hlt.trans hltx, fun heq => hep ?_⟩
      exact Option.some.inj (heq.symm.trans ((horphan x).mp hx))
    · exact (Function.update_of_ne hep ..).trans (Function.update_self ..)
    · intro r hre hr
      obtain rfl | hrp := eq_or_ne r p
      · exact Or.inl ⟨Function.update_self .., fun x => (horphan x).mpr⟩
      · refine Or.inr ⟨?_, fun x hx heq => hrp ?_⟩
        · exact (Function.update_of_ne hrp ..).trans (Function.update_of_ne hre ..)
        · exact Option.some.inj (heq.symm.trans ((horphan x).mp hx))
    · intro x hx
      have hxp : x ≠ p := (ne_of_mem_of_not_mem hp hx).symm
      have hxe : x ≠ e := (ne_of_mem_of_not_mem he hx).symm
      exact ((Function.update_of_ne hxp ..).trans (Function.update_of_ne hxe ..)).trans
        (h.gone x hx).1
  · obtain ⟨w, hw, hok⟩ := lookup_bind_eq_ok.mp hok
    rw [collect_children_eq] at hw
    obtain ⟨hnodup, hmem, hsub⟩ := h.preorder_subtree hp hw
    have hds (x : Name) : x ∈ w.erase p ↔ x ≠ p ∧ x ∈ w := hnodup.mem_erase_iff
    obtain ⟨rs, hrs, -⟩ := h.children_mem root_name h.root_mem
    have hrootlt := h.root_lt hp hroot
    have hrootw : root_name ∉ w := fun hw => absurd (hmem _ hw).2 (by omega)
    rw [foldlM_clear_adopt (s := { s with process_list := l })
      (fun hx => hrootw (List.mem_of_mem_erase hx)) hrs] at hok
    obtain rfl := Except.ok.inj hok
    have hpds : p ∉ w.erase p := fun hx => ((hds p).mp hx).1 rfl
    have hbelow (x : Name) (hx : x ∈ w.erase p) : ∃ q ∈ w, s.parents x = some q :=
      ((hsub x).mp ((hds x).mp hx).2).resolve_left ((hds x).mp hx).1
    refine ⟨rfl, ?_, h.move h.root_mem (hnodup.erase p) hrs ?_ ?_ ?_ ?_ fun x => rfl⟩
    · exact (if_neg hpds).trans hparent
    · intro x hx
      obtain ⟨q, hq, hxq⟩ := hbelow x hx
      obtain ⟨hxmem, hle⟩ := hmem x ((hds x).mp hx).2
      refine ⟨hxmem, by omega, fun heq => hrootw ?_⟩
      rwa [Option.some.inj (heq.symm.trans hxq)]
    · simp only [Function.update_of_ne hroot.symm, Function.update_self]
    · intro r hrr hr
      obtain rfl | hrp := eq_or_ne r p
      · refine Or.inl ⟨Function.update_self .., fun x hx => (hds x).mpr ⟨?_, ?_⟩⟩
        · rintro rfl
          exact hep (Option.some.inj (hparent.symm.trans hx))
        · exact (hsub x).mpr (Or.inr ⟨r, (hsub r).mpr (Or.inl rfl), hx⟩)
      · simp only [Function.update_of_ne hrp, Function.update_of_ne hrr]
        by_cases hrw : r ∈ w
        · refine Or.inl ⟨if_pos ((hds r).mpr ⟨hrp, hrw⟩), fun x hx => (hds x).mpr ⟨?_, ?_⟩⟩
          · rintro rfl
            -- the parent of `p` is above it
            obtain rfl := Option.some.inj (hparent.symm.trans hx)
            have hle := (hmem e hrw).2
            omega
          · exact (hsub x).mpr (Or.inr ⟨r, hrw, hx⟩)
        · refine Or.inr ⟨if_neg fun hx => hrw ((hds r).mp hx).2, fun x hx heq => hrw ?_⟩
          obtain ⟨q, hq, hxq⟩ := hbelow x hx
          rwa [Option.some.inj (heq.symm.trans hxq)]
    · intro x hx
      have hxw : x ∉ w.erase p := fun hmem' => hx (hmem x ((hds x).mp hmem').2).1
      have hxp : x ≠ p := (ne_of_mem_of_not_mem hp hx).symm
      have hxr : x ≠ root_name := (ne_of_mem_of_not_mem h.root_mem hx).symm
      simp only [Function.update_of_ne hxp, Function.update_of_ne hxr, if_neg hxw]
      exact (h.gone x hx).1

theorem reparent_ok {l : List Name} {e : Name} (h : s.IsTree) (hparent : s.parents p = some e)
    (hdepth : s.process_list.length ≤ o.recursionLimit) :
    ∃ s', reparent o { s with process_list := l } p e = .ok s' := by
  obtain ⟨hp, hroot, he, hlt⟩ := h.parent_cases hparent
  obtain ⟨orphans, horphans, -⟩ := h.children_mem p hp
  rw [reparent]
  split
  · obtain ⟨es, hes, -⟩ := h.children_mem e he
    simp only [horphans]
    change ∃ s', (if e = p ∧ orphans ≠ [] then _ else _) = _
    rw [if_neg, foldlM_adopt (s := { s with process_list := l }) hes]
    · exact ⟨_, rfl⟩
    · rintro ⟨rfl, -⟩
      exact Nat.lt_irrefl _ hlt
  · obtain ⟨w, hw, hmem, -⟩ := h.preorder_spec hp (Nat.le_add_right_of_le hdepth)
    obtain ⟨rs, hrs, -⟩ := h.children_mem root_name h.root_mem
    have hrootlt := h.root_lt hp hroot
    have hrootw : root_name ∉ w := fun hw => absurd (hmem _ hw).2 (by omega)
    simp only [collect_children_eq, hw]
    refine ⟨_, foldlM_clear_adopt (s := { s with process_list := l })
      (fun hx => hrootw (List.mem_of_mem_erase hx)) hrs⟩

theorem do_exit_ok (h : s.IsTree) (hp : p ∈ s.process_list) (hroot : p ≠ root_name)
    (hdepth : s.process_list.length ≤ o.recursionLimit) : ∃ s', do_exit o s p = .ok s' := by
  obtain ⟨e, he, hparent, hlt⟩ := h.parent_mem p hp hroot
  have hep : e ≠ p := by
    rintro rfl
    exact Nat.lt_irrefl _ hlt
  obtain ⟨t, ht⟩ := @reparent_ok o s p (s.process_list.erase p) e h hparent hdepth
  obtain ⟨-, hpe, htree⟩ := reparent_isTree h hparent ht
  obtain ⟨es, hes, -⟩ := htree.children_mem e he
  have hmem : p ∈ es := (htree.mem_children he hes).mpr hpe
  rw [Function.update_of_ne hep] at hes
  rw [do_exit, if_neg hroot]
  simp only [hparent]
  change ∃ s', (reparent o { s with process_list := s.process_list.erase p } p e >>= _) = _
  rw [ht]
  change ∃ s', (lookup (t.children e) >>= _) = _
  rw [hes]
  change ∃ s', (if p ∈ es then _ else _) = _
  rw [if_pos hmem]
  exact ⟨_, rfl⟩

theorem do_exit_isTree (h : s.IsTree) (hok : do_exit o s p = .ok s') : s'.IsTree := by
  rw [do_exit] at hok
  split at hok
  · cases hok
  · obtain ⟨e, hparent, hok⟩ := lookup_bind_eq_ok.mp hok
    cases ht : reparent o { s with process_list := s.process_list.erase p } p e with
    | error f =>
        rw [ht] at hok
        cases hok
    | ok t =>
        obtain ⟨hlist, hpe, htree⟩ := reparent_isTree h hparent ht
        have hep : e ≠ p := by
          rintro rfl
          exact absurd (h.parent_cases hparent).2.2.2 (Nat.lt_irrefl _)
        rw [ht] at hok
        obtain ⟨es, hes, hok⟩ := lookup_bind_eq_ok.mp hok
        split at hok
        · obtain rfl := Except.ok.inj hok
          have hleaf := htree.removeLeaf hpe (Function.update_self ..)
            ((Function.update_of_ne hep ..).trans hes)
          rw [Function.update_comm hep.symm, Function.update_idem] at hleaf
          rw [Forker.IsTree, hlist]
          exact hleaf
        · cases hok

end OsLabs.Fork
