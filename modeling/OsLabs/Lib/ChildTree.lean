import Mathlib

/-!
# Rooted trees in two maps

A tree whose nodes are listed, with a map to the children of a node and one to its
parent. A parent is listed before its children, so that the walk from the root ends,
and every node is met in it once.
-/

namespace OsLabs.ChildTree

theorem mapM_eq_some {α β : Type} {f : α → Option β} {g : α → β} {l : List α}
    (h : ∀ a ∈ l, f a = some (g a)) : l.mapM f = some (l.map g) := by
  induction l with
  | nil => rfl
  | cons a l ih =>
      rw [List.mapM_cons, h a List.mem_cons_self,
        ih fun b hb => h b (List.mem_cons_of_mem _ hb)]
      rfl

theorem mapM_some_mono {α β : Type} {f g : α → Option β} {l : List α} {bs : List β}
    (hfg : ∀ a b, f a = some b → g a = some b) (h : l.mapM f = some bs) : l.mapM g = some bs := by
  induction l generalizing bs with
  | nil => exact h
  | cons a l ih =>
      rw [List.mapM_cons] at h ⊢
      obtain ⟨b, hb, h⟩ := Option.bind_eq_some_iff.mp h
      obtain ⟨bs', hbs', h⟩ := Option.bind_eq_some_iff.mp h
      rw [hfg a b hb]
      change (l.mapM g >>= _) = _
      rw [ih hbs']
      exact h

variable {α : Type}

/-- A node, and after it what is below each of its children. -/
def preorder (children : α → Option (List α)) : ℕ → α → Option (List α)
  | 0, _ => none
  | fuel + 1, p => do
      let cs ← children p
      let below ← cs.mapM (preorder children fuel)
      return p :: below.flatten

theorem preorder_mono {children : α → Option (List α)} {n m : ℕ} (hnm : n ≤ m) {p : α}
    {w : List α} (h : preorder children n p = some w) : preorder children m p = some w := by
  induction n generalizing p w m with
  | zero => cases h
  | succ n ih =>
      obtain ⟨m, rfl⟩ := Nat.exists_eq_succ_of_ne_zero (by omega : m ≠ 0)
      obtain ⟨cs, hcs, h⟩ := Option.bind_eq_some_iff.mp h
      obtain ⟨below, hbelow, h⟩ := Option.bind_eq_some_iff.mp h
      rw [preorder, hcs]
      change (cs.mapM (preorder children m) >>= _) = _
      rw [mapM_some_mono (fun c w => ih (Nat.le_of_succ_le_succ hnm)) hbelow]
      exact h

variable [DecidableEq α]

theorem sum_map_ite_eq (l : List α) (x : α) :
    (l.map fun c => if c = x then 1 else 0).sum = l.count x := by
  induction l with
  | nil => rfl
  | cons c l ih =>
      rw [List.map_cons, List.sum_cons, ih, List.count_cons, add_comm]
      simp only [beq_iff_eq]

structure IsTree (root : α) (nodes : List α) (children : α → Option (List α))
    (parent : α → Option α) : Prop where
  nodup : nodes.Nodup
  root_mem : root ∈ nodes
  parent_root : parent root = none
  parent_mem : ∀ x ∈ nodes, x ≠ root →
    ∃ p ∈ nodes, parent x = some p ∧ nodes.idxOf p < nodes.idxOf x
  children_mem : ∀ p ∈ nodes,
    ∃ cs, children p = some cs ∧ ∀ x, cs.count x = if parent x = some p then 1 else 0
  gone : ∀ x ∉ nodes, children x = none ∧ parent x = none

variable {root p q x : α} {nodes cs w : List α} {children children' : α → Option (List α)}
  {parent parent' : α → Option α} {fuel : ℕ}

/-! ## The order of the nodes -/

theorem IsTree.parent_cases (h : IsTree root nodes children parent) (hp : parent x = some p) :
    x ∈ nodes ∧ x ≠ root ∧ p ∈ nodes ∧ nodes.idxOf p < nodes.idxOf x := by
  have hx : x ∈ nodes := by
    by_contra hnot
    rw [(h.gone x hnot).2] at hp
    cases hp
  have hne : x ≠ root := by
    rintro rfl
    rw [h.parent_root] at hp
    cases hp
  obtain ⟨p', hp', hparent, hlt⟩ := h.parent_mem x hx hne
  obtain rfl := Option.some.inj (hparent.symm.trans hp)
  exact ⟨hx, hne, hp', hlt⟩

theorem IsTree.mem_children (h : IsTree root nodes children parent) (hp : p ∈ nodes)
    (hcs : children p = some cs) : x ∈ cs ↔ parent x = some p := by
  obtain ⟨cs', hcs', hcount⟩ := h.children_mem p hp
  obtain rfl := Option.some.inj (hcs'.symm.trans hcs)
  rw [← List.count_pos_iff, hcount]
  split
  · next heq => exact iff_of_true Nat.one_pos heq
  · next hne => exact iff_of_false (Nat.lt_irrefl 0) hne

theorem IsTree.children_nodup (h : IsTree root nodes children parent) (hp : p ∈ nodes)
    (hcs : children p = some cs) : cs.Nodup := by
  obtain ⟨cs', hcs', hcount⟩ := h.children_mem p hp
  obtain rfl := Option.some.inj (hcs'.symm.trans hcs)
  refine List.nodup_iff_count_le_one.mpr fun x => ?_
  rw [hcount]
  split <;> omega

theorem IsTree.root_le (h : IsTree root nodes children parent) (hx : x ∈ nodes) :
    nodes.idxOf root ≤ nodes.idxOf x := by
  induction hn : nodes.idxOf x using Nat.strong_induction_on generalizing x with
  | h n ih =>
      obtain rfl | hne := eq_or_ne x root
      · exact hn.le
      · obtain ⟨p, hp, -, hlt⟩ := h.parent_mem x hx hne
        exact (ih _ (hn ▸ hlt) hp rfl).trans (hn ▸ hlt.le)

theorem IsTree.root_lt (h : IsTree root nodes children parent) (hx : x ∈ nodes) (hne : x ≠ root) :
    nodes.idxOf root < nodes.idxOf x := by
  obtain ⟨p, hp, -, hlt⟩ := h.parent_mem x hx hne
  exact (h.root_le hp).trans_lt hlt

/-! ## The walk -/

/-- Of a node that is met, so is everything below it, as often. -/
theorem IsTree.preorder_spec (h : IsTree root nodes children parent) (hp : p ∈ nodes)
    (hfuel : nodes.length ≤ fuel + nodes.idxOf p) :
    ∃ w, preorder children fuel p = some w ∧
      (∀ x ∈ w, x ∈ nodes ∧ nodes.idxOf p ≤ nodes.idxOf x) ∧
      ∀ x, w.count x = (if p = x then 1 else 0) + (parent x).elim 0 (w.count ·) := by
  induction fuel generalizing p with
  | zero =>
      have hlt := List.idxOf_lt_length_of_mem hp
      omega
  | succ fuel ih =>
      obtain ⟨cs, hcs, hcount⟩ := h.children_mem p hp
      have hchild (c : α) (hc : c ∈ cs) : c ∈ nodes ∧ nodes.idxOf p < nodes.idxOf c := by
        obtain ⟨hmem, -, -, hlt⟩ := h.parent_cases ((h.mem_children hp hcs).mp hc)
        exact ⟨hmem, hlt⟩
      have hbelow (c : α) (hc : c ∈ cs) := ih (hchild c hc).1 (by have := (hchild c hc).2; omega)
      let g (c : α) : List α := (preorder children fuel c).getD []
      have hg (c : α) (hc : c ∈ cs) : preorder children fuel c = some (g c) := by
        obtain ⟨w, hw, -⟩ := hbelow c hc
        simp only [g, hw, Option.getD_some]
      refine ⟨p :: (cs.map g).flatten, ?_, fun x hx => ?_, fun x => ?_⟩
      · rw [preorder, hcs]
        change (cs.mapM (preorder children fuel) >>= _) = _
        rw [mapM_eq_some hg]
        rfl
      · obtain rfl | hx := List.mem_cons.mp hx
        · exact ⟨hp, le_rfl⟩
        · obtain ⟨l, hl, hxl⟩ := List.mem_flatten.mp hx
          obtain ⟨c, hc, rfl⟩ := List.mem_map.mp hl
          obtain ⟨w, hw, hmem, -⟩ := hbelow c hc
          obtain rfl := Option.some.inj ((hg c hc).symm.trans hw)
          obtain ⟨hx, hle⟩ := hmem x hxl
          exact ⟨hx, (hchild c hc).2.le.trans hle⟩
      · have hcounts : ∀ c ∈ cs, ∀ x,
            (g c).count x = (if c = x then 1 else 0) + (parent x).elim 0 ((g c).count ·) := by
          intro c hc x
          obtain ⟨w, hw, -, hcountw⟩ := hbelow c hc
          obtain rfl := Option.some.inj ((hg c hc).symm.trans hw)
          exact hcountw x
        have hflat (y : α) : (cs.map g).flatten.count y = (cs.map fun c => (g c).count y).sum := by
          rw [List.count_flatten, List.map_map]
          rfl
        rw [List.count_cons, hflat, List.map_congr_left fun c hc => hcounts c hc x,
          List.sum_map_add, sum_map_ite_eq, hcount]
        cases parent x with
        | none => simp
        | some q =>
            simp only [Option.elim_some, Option.some.injEq, List.count_cons, hflat, beq_iff_eq,
              eq_comm (a := q)]
            omega

theorem IsTree.count_le_one (h : IsTree root nodes children parent)
    (hmem : ∀ x ∈ w, x ∈ nodes ∧ nodes.idxOf p ≤ nodes.idxOf x)
    (hcount : ∀ x, w.count x = (if p = x then 1 else 0) + (parent x).elim 0 (w.count ·)) (x : α) :
    w.count x ≤ 1 := by
  induction hn : nodes.idxOf x using Nat.strong_induction_on generalizing x with
  | h n ih =>
      rw [hcount]
      cases hparent : parent x with
      | none =>
          split <;> simp
      | some q =>
          obtain ⟨-, -, -, hlt⟩ := h.parent_cases hparent
          split
          · next heq =>
              -- nothing above `p` is below it
              have hzero : w.count q = 0 := by
                refine List.count_eq_zero.mpr fun hq => ?_
                have hle := (hmem q hq).2
                rw [← heq] at hlt
                omega
              simp [hzero]
          · have hle := ih _ (hn ▸ hlt) q rfl
            simpa using hle

/-- What is met from a node: the node, and the children of what is met. -/
theorem IsTree.preorder_subtree (h : IsTree root nodes children parent) (hp : p ∈ nodes)
    (hw : preorder children fuel p = some w) :
    w.Nodup ∧ (∀ x ∈ w, x ∈ nodes ∧ nodes.idxOf p ≤ nodes.idxOf x) ∧
      ∀ x, x ∈ w ↔ x = p ∨ ∃ q ∈ w, parent x = some q := by
  obtain ⟨w', hw', hmem, hcount⟩ :=
    h.preorder_spec hp (by omega : nodes.length ≤ fuel + nodes.length + nodes.idxOf p)
  obtain rfl := Option.some.inj ((preorder_mono (Nat.le_add_right ..) hw).symm.trans hw')
  refine ⟨List.nodup_iff_count_le_one.mpr (h.count_le_one hmem hcount), hmem, fun x => ?_⟩
  rw [← List.count_pos_iff, hcount]
  cases hparent : parent x with
  | none =>
      simp only [Option.elim_none, Nat.add_zero, reduceCtorEq, and_false, exists_false, or_false]
      split
      · next heq => exact iff_of_true Nat.one_pos heq.symm
      · next hne => exact iff_of_false (Nat.lt_irrefl 0) (Ne.symm hne)
  | some q =>
      simp only [Option.elim_some, Option.some.injEq, exists_eq_right', ← List.count_pos_iff]
      split
      · next heq => exact iff_of_true (by omega) (Or.inl heq.symm)
      · next hne =>
          rw [Nat.zero_add]
          exact (or_iff_right (Ne.symm hne)).symm

/-- The walk from the root meets each node once. -/
theorem IsTree.preorder_perm (h : IsTree root nodes children parent) :
    ∃ w, preorder children nodes.length root = some w ∧ w.Perm nodes := by
  obtain ⟨w, hw, hmem, hcount⟩ := h.preorder_spec h.root_mem (Nat.le_add_right nodes.length _)
  have hone (x : α) (hx : x ∈ nodes) : w.count x = 1 := by
    induction hn : nodes.idxOf x using Nat.strong_induction_on generalizing x with
    | h n ih =>
        rw [hcount]
        obtain rfl | hne := eq_or_ne x root
        · rw [h.parent_root, if_pos rfl]
          rfl
        · obtain ⟨p, hp, hparent, hlt⟩ := h.parent_mem x hx hne
          rw [hparent, if_neg hne.symm, Nat.zero_add]
          exact ih _ (hn ▸ hlt) p hp rfl
  refine ⟨w, hw, List.perm_iff_count.mpr fun x => ?_⟩
  by_cases hx : x ∈ nodes
  · rw [hone x hx, List.count_eq_one_of_mem h.nodup hx]
  · rw [List.count_eq_zero.mpr fun hxw => hx (hmem x hxw).1, List.count_eq_zero.mpr hx]

/-! ## A leaf comes and goes -/

theorem IsTree.addLeaf (h : IsTree root nodes children parent) {c : α} (hp : p ∈ nodes)
    (hc : c ∉ nodes) (hcs : children p = some cs) :
    IsTree root (nodes ++ [c])
      (Function.update (Function.update children c (some [])) p (some (cs ++ [c])))
      (Function.update parent c (some p)) := by
  have hpc : p ≠ c := fun heq => hc (heq ▸ hp)
  have hidx (x : α) (hx : x ∈ nodes) : (nodes ++ [c]).idxOf x = nodes.idxOf x :=
    List.idxOf_append_of_mem hx
  have hidxc : (nodes ++ [c]).idxOf c = nodes.length := by
    rw [List.idxOf_append_of_notMem hc]
    simp
  have hne (x : α) (hx : x ∈ nodes) : x ≠ c := fun heq => hc (heq ▸ hx)
  constructor
  · rw [List.nodup_append_comm]
    exact List.nodup_cons.mpr ⟨hc, h.nodup⟩
  · exact List.mem_append_left _ h.root_mem
  · rw [Function.update_of_ne (hne root h.root_mem)]
    exact h.parent_root
  · intro x hx hroot
    obtain hx | hx := List.mem_append.mp hx
    · obtain ⟨q, hq, hparent, hlt⟩ := h.parent_mem x hx hroot
      refine ⟨q, List.mem_append_left _ hq, ?_, ?_⟩
      · rwa [Function.update_of_ne (hne x hx)]
      · rwa [hidx q hq, hidx x hx]
    · obtain rfl := List.mem_singleton.mp hx
      refine ⟨p, List.mem_append_left _ hp, Function.update_self .., ?_⟩
      rw [hidx p hp, hidxc]
      exact List.idxOf_lt_length_of_mem hp
  · intro q hq
    obtain rfl | hqp := eq_or_ne q p
    · obtain ⟨cs', hcs', hcount⟩ := h.children_mem q hp
      obtain rfl := Option.some.inj (hcs'.symm.trans hcs)
      refine ⟨_, Function.update_self .., fun x => ?_⟩
      obtain rfl | hxc := eq_or_ne x c
      · have hzero := hcount x
        rw [(h.gone x hc).2, if_neg nofun] at hzero
        simp [hzero]
      · rw [List.count_append, hcount, Function.update_of_ne hxc,
          List.count_eq_zero.mpr (by simpa using hxc), Nat.add_zero]
    · rw [Function.update_of_ne hqp]
      obtain hq | hq := List.mem_append.mp hq
      · obtain ⟨cs', hcs', hcount⟩ := h.children_mem q hq
        refine ⟨cs', by rwa [Function.update_of_ne (hne q hq)], fun x => ?_⟩
        obtain rfl | hxc := eq_or_ne x c
        · rw [hcount, (h.gone x hc).2, Function.update_self, if_neg nofun, if_neg]
          exact fun heq => hqp (Option.some.inj heq).symm
        · rw [hcount, Function.update_of_ne hxc]
      · obtain rfl := List.mem_singleton.mp hq
        refine ⟨[], Function.update_self .., fun x => ?_⟩
        rw [List.count_nil, if_neg]
        intro hx
        obtain rfl | hxc := eq_or_ne x q
        · rw [Function.update_self] at hx
          exact hpc (Option.some.inj hx)
        · rw [Function.update_of_ne hxc] at hx
          exact hc (h.parent_cases hx).2.2.1
  · intro x hx
    rw [List.mem_append, List.mem_singleton, not_or] at hx
    have hxp : x ≠ p := fun heq => hx.1 (heq ▸ hp)
    rw [Function.update_of_ne hxp, Function.update_of_ne hx.2, Function.update_of_ne hx.2]
    exact h.gone x hx.1

theorem idxOf_erase_lt {y : α} (hxp : x ≠ p) (hyp : y ≠ p)
    (h : nodes.idxOf x < nodes.idxOf y) : (nodes.erase p).idxOf x < (nodes.erase p).idxOf y := by
  by_cases hp : p ∈ nodes
  · obtain ⟨u, v, rfl, hu⟩ := List.eq_append_cons_of_mem hp
    rw [List.erase_append_right _ hu, List.erase_cons_head]
    rw [List.idxOf_append, List.idxOf_append, List.idxOf_cons_ne _ hxp.symm,
      List.idxOf_cons_ne _ hyp.symm] at h
    rw [List.idxOf_append, List.idxOf_append]
    split_ifs at h ⊢ with hx hy hy
    · exact h
    · have := List.idxOf_lt_length_of_mem hx
      omega
    · omega
    · omega
  · rwa [List.erase_of_not_mem hp]

theorem IsTree.removeLeaf (h : IsTree root nodes children parent) {es : List α} {e : α}
    (hparent : parent p = some e) (hleaf : children p = some []) (hes : children e = some es) :
    IsTree root (nodes.erase p)
      (Function.update (Function.update children e (some (es.erase p))) p none)
      (Function.update parent p none) := by
  obtain ⟨hp, hroot, he, hlt⟩ := h.parent_cases hparent
  have hmem (x : α) : x ∈ nodes.erase p ↔ x ≠ p ∧ x ∈ nodes := h.nodup.mem_erase_iff
  -- a leaf is no one's parent
  have hchild (x : α) : parent x ≠ some p := fun hx =>
    List.not_mem_nil ((h.mem_children hp hleaf).mpr hx)
  constructor
  · exact h.nodup.erase p
  · exact (hmem root).mpr ⟨hroot.symm, h.root_mem⟩
  · rw [Function.update_of_ne hroot.symm]
    exact h.parent_root
  · intro x hx hne
    obtain ⟨hxp, hx⟩ := (hmem x).mp hx
    obtain ⟨q, hq, hqx, hlt⟩ := h.parent_mem x hx hne
    have hqp : q ≠ p := fun heq => hchild x (heq ▸ hqx)
    exact ⟨q, (hmem q).mpr ⟨hqp, hq⟩, by rwa [Function.update_of_ne hxp],
      idxOf_erase_lt hqp hxp hlt⟩
  · intro q hq
    obtain ⟨hqp, hq⟩ := (hmem q).mp hq
    obtain ⟨cs, hcs, hcount⟩ := h.children_mem q hq
    rw [Function.update_of_ne hqp]
    obtain rfl | hqe := eq_or_ne q e
    · obtain rfl := Option.some.inj (hcs.symm.trans hes)
      refine ⟨_, Function.update_self .., fun x => ?_⟩
      obtain rfl | hxp := eq_or_ne x p
      · rw [List.count_erase_self, hcount, if_pos hparent, Function.update_self,
          if_neg (show ¬ none = some q from nofun)]
      · rw [List.count_erase_of_ne hxp, hcount, Function.update_of_ne hxp]
    · refine ⟨cs, by rwa [Function.update_of_ne hqe], fun x => ?_⟩
      obtain rfl | hxp := eq_or_ne x p
      · rw [hcount, hparent, Function.update_self, if_neg (show ¬ none = some q from nofun), if_neg]
        exact fun heq => hqe (Option.some.inj heq).symm
      · rw [hcount, Function.update_of_ne hxp]
  · intro x hx
    obtain rfl | hxp := eq_or_ne x p
    · exact ⟨Function.update_self .., Function.update_self ..⟩
    · have hx' : x ∉ nodes := fun hmem' => hx ((hmem x).mpr ⟨hxp, hmem'⟩)
      have hxe : x ≠ e := fun heq => hx' (heq ▸ he)
      rw [Function.update_of_ne hxp, Function.update_of_ne hxe, Function.update_of_ne hxp]
      exact h.gone x hx'

/-! ## Nodes move -/

/-- Nodes get the parent `q`; who loses a child this way loses all. -/
theorem IsTree.move (h : IsTree root nodes children parent) {moved qs : List α} (hq : q ∈ nodes)
    (hnodup : moved.Nodup) (hqs : children q = some qs)
    (hbelow : ∀ x ∈ moved, x ∈ nodes ∧ nodes.idxOf q < nodes.idxOf x ∧ parent x ≠ some q)
    (hself : children' q = some (qs ++ moved))
    (hothers : ∀ p ≠ q, p ∈ nodes →
      children' p = some [] ∧ (∀ x, parent x = some p → x ∈ moved) ∨
        children' p = children p ∧ ∀ x ∈ moved, parent x ≠ some p)
    (hgone : ∀ x ∉ nodes, children' x = none)
    (hparent : ∀ x, parent' x = if x ∈ moved then some q else parent x) :
    IsTree root nodes children' parent' := by
  have hroot : root ∉ moved := fun hmem => by
    have hlt := (hbelow root hmem).2.1
    have hle := h.root_le hq
    omega
  constructor
  · exact h.nodup
  · exact h.root_mem
  · rw [hparent, if_neg hroot]
    exact h.parent_root
  · intro x hx hne
    rw [hparent]
    split
    · next hmem => exact ⟨q, hq, rfl, (hbelow x hmem).2.1⟩
    · exact h.parent_mem x hx hne
  · intro p hp
    obtain rfl | hpq := eq_or_ne p q
    · obtain ⟨cs, hcs, hcount⟩ := h.children_mem p hp
      obtain rfl := Option.some.inj (hcs.symm.trans hqs)
      refine ⟨_, hself, fun x => ?_⟩
      rw [List.count_append, hcount, hparent]
      by_cases hx : x ∈ moved
      · rw [if_neg (hbelow x hx).2.2, if_pos hx, if_pos rfl, List.count_eq_one_of_mem hnodup hx]
      · rw [if_neg hx, List.count_eq_zero.mpr hx, Nat.add_zero]
    · obtain ⟨hempty, hall⟩ | ⟨hsame, hnone⟩ := hothers p hpq hp
      · refine ⟨[], hempty, fun x => ?_⟩
        rw [List.count_nil, hparent, if_neg]
        split
        · exact fun heq => hpq (Option.some.inj heq).symm
        · next hx => exact fun heq => hx (hall x heq)
      · obtain ⟨cs, hcs, hcount⟩ := h.children_mem p hp
        refine ⟨cs, hsame.trans hcs, fun x => ?_⟩
        rw [hcount, hparent]
        by_cases hx : x ∈ moved
        · rw [if_pos hx, if_neg (hnone x hx), if_neg]
          exact fun heq => hpq (Option.some.inj heq).symm
        · rw [if_neg hx]
  · intro x hx
    refine ⟨hgone x hx, ?_⟩
    rw [hparent, if_neg fun hmem => hx (hbelow x hmem).1]
    exact (h.gone x hx).2

end OsLabs.ChildTree
