import Mathlib
import OsLabs.Lib.Transition
import OsLabs.Lib.Extents
import OsLabs.FreeSpace.Allocator

/-!
# Conservation of the heap

The free extents and the allocated extents tile the heap in every reached state.
-/

namespace OsLabs.FreeSpace

open OsLabs.Transition OsLabs.Extents

variable {c : Config} {s s' : State} {freelist sizemap : List Entry} {addr size n : ℤ} {i : ℕ}

def extent (e : Entry) : Set ℤ := Set.Ico e.1 (e.1 + e.2)

def Config.heap (c : Config) : Set ℤ := Set.Ico c.start (c.start + c.size)

def State.extents (s : State) : List (Set ℤ) := (s.freelist ++ s.sizemap).map extent

theorem extent_nonempty {e : Entry} : (extent e).Nonempty ↔ 0 < e.2 := by
  unfold extent
  rw [Set.nonempty_Ico]
  omega

theorem extent_split (addr : ℤ) (hsize : 0 ≤ size) (hle : size ≤ n) :
    extent (addr, size) ∪ extent (addr + size, n - size) = extent (addr, n) := by
  unfold extent
  rw [show addr + size + (n - size) = addr + n by omega]
  exact Set.Ico_union_Ico_eq_Ico (by omega) (by omega)

theorem extent_disjoint_next : Disjoint (extent (addr, size)) (extent (addr + size, n)) := by
  unfold extent
  rw [Set.Ico_disjoint_Ico]
  exact (min_le_left _ _).trans (le_max_right _ _)

theorem not_disjoint_of_same_addr (hsize : 0 < size) (hn : 0 < n) :
    ¬ Disjoint (extent (addr, size)) (extent (addr, n)) := by
  intro hdisjoint
  have hmem : ∀ m, 0 < m → addr ∈ extent (addr, m) := by
    intro m hm
    unfold extent
    rw [Set.mem_Ico]
    omega
  exact Set.disjoint_left.mp hdisjoint (hmem size hsize) (hmem n hn)

/-! ## The dictionary `sizemap` -/

theorem mem_of_lookup (h : sizemap.lookup addr = some n) : (addr, n) ∈ sizemap := by
  obtain ⟨l₁, l₂, rfl, -⟩ := List.lookup_eq_some_iff.mp h
  exact List.mem_append_right _ List.mem_cons_self

theorem perm_of_lookup (h : sizemap.lookup addr = some n) :
    sizemap.Perm ((addr, n) :: sizemap.eraseP fun e => e.1 == addr) := by
  obtain ⟨l₁, l₂, rfl, hbefore⟩ := List.lookup_eq_some_iff.mp h
  have herase : (l₁ ++ (addr, n) :: l₂).eraseP (fun e => e.1 == addr) = l₁ ++ l₂ := by
    rw [List.eraseP_append_right]
    · rw [List.eraseP_cons_of_pos]
      exact beq_self_eq_true addr
    · intro e he hsame
      have := hbefore e he
      rw [beq_iff_eq] at hsame
      simp [hsame] at this
  rw [herase]
  exact List.perm_middle

/-- The assertion of `addToMap` holds for the address of a free extent. -/
theorem addToMap_of_tiles (size : ℤ) {S : Set ℤ}
    (h : Tiles S (((addr, n) :: (freelist ++ sizemap)).map extent)) :
    addToMap sizemap addr size = some (sizemap ++ [(addr, size)]) := by
  unfold addToMap
  rw [if_neg]
  rw [Bool.not_eq_true, Option.isSome_eq_false_iff, Option.isNone_iff_eq_none]
  by_contra hpresent
  obtain ⟨m, hm⟩ := Option.ne_none_iff_exists'.mp hpresent
  have hmem : extent (addr, m) ∈ (freelist ++ sizemap).map extent :=
    List.mem_map_of_mem (List.mem_append_right _ (mem_of_lookup hm))
  have hn := extent_nonempty.mp (h.nonempty _ List.mem_cons_self)
  have hlen := extent_nonempty.mp (h.nonempty _ (List.mem_cons_of_mem _ hmem))
  exact not_disjoint_of_same_addr hn hlen (h.disjoint_of_mem hmem)

/-! ## The search -/

/-- The best extent found so far is on the list and large enough. -/
def Hit (size : ℤ) (freelist : List Entry) (b : Search) : Prop :=
  ∀ i addr, b.best = some (i, addr) → freelist[i]? = some (addr, b.bestSize) ∧ size ≤ b.bestSize

theorem size_le_of_takes {bestSize esize : ℤ} (h : c.takes size bestSize esize = true) :
    size ≤ esize := by
  unfold Config.takes at h
  rw [Bool.and_eq_true, decide_eq_true_eq] at h
  exact h.1

theorem hit_searchFrom (before : List Entry) {rest : List Entry} {b : Search}
    (hb : Hit size (before ++ rest) b) :
    Hit size (before ++ rest) (searchFrom c size rest before.length b) := by
  induction rest generalizing before b with
  | nil => exact hb
  | cons e rest ih =>
      obtain ⟨eaddr, esize⟩ := e
      have hnext := @ih (before ++ [(eaddr, esize)])
      rw [List.append_assoc, List.singleton_append, List.length_append, List.length_singleton]
        at hnext
      unfold searchFrom
      split
      · rename_i htakes
        have hhit : Hit size (before ++ (eaddr, esize) :: rest)
            ⟨some (before.length, eaddr), esize, b.count + 1⟩ := by
          intro i addr hbest
          obtain ⟨rfl, rfl⟩ := Prod.mk.inj (Option.some.inj hbest)
          refine ⟨?_, size_le_of_takes htakes⟩
          rw [List.getElem?_append_right (Nat.le_refl _), Nat.sub_self]
          rfl
        split
        · exact hhit
        · exact hnext hhit
      · exact hnext hb

theorem hit_search (c : Config) (freelist : List Entry) (size : ℤ) :
    Hit size freelist (searchFrom c size freelist 0 c.searchInit) :=
  hit_searchFrom [] fun _ _ hbest => nomatch hbest

/-! ## `malloc` -/

theorem size_le_requestSize (c : Config) (size : ℤ) : size + c.headerSize ≤ requestSize c size := by
  unfold requestSize roundedSize
  split
  · rename_i halign
    have hpos : 0 < c.align := c.align_ok.resolve_left halign
    have := Int.emod_lt_of_pos size hpos
    dsimp only
    split <;> omega
  · omega

/-- The allocated extent, the new free list and the allocated extents of
before tile the heap. -/
theorem malloc_spec (h : Tiles c.heap s.extents) {request : ℤ} (hreq : 1 ≤ request) :
    (∃ count, malloc c s request = some (s, -1, count)) ∨
    ∃ addr freelist count, malloc c s request =
        some (⟨freelist, s.sizemap ++ [(addr, requestSize c request)]⟩, addr, count) ∧
      Tiles c.heap (((addr, requestSize c request) :: (freelist ++ s.sizemap)).map extent) := by
  have hpos : 0 < requestSize c request := by
    have := size_le_requestSize c request
    omega
  unfold malloc
  dsimp only
  generalize requestSize c request = size at hpos ⊢
  have hhit := hit_search c s.freelist size
  generalize searchFrom c size s.freelist 0 c.searchInit = b at hhit ⊢
  obtain ⟨best, bestSize, count⟩ := b
  cases best with
  | none => exact Or.inl ⟨count, rfl⟩
  | some found =>
      obtain ⟨bestIdx, bestAddr⟩ := found
      obtain ⟨hget, hle⟩ := hhit bestIdx bestAddr rfl
      dsimp only at hget hle ⊢
      obtain ⟨hidx, hget⟩ := List.getElem?_eq_some_iff.mp hget
      -- the chosen extent first, then the rest of the free list
      have hchosen : Tiles c.heap (((bestAddr, bestSize) ::
          (s.freelist.eraseIdx bestIdx ++ s.sizemap)).map extent) := by
        refine h.perm (List.Perm.map _ ?_)
        rw [← List.cons_append, ← hget]
        exact (List.getElem_cons_eraseIdx_perm hidx).symm.append_right _
      have hadd := addToMap_of_tiles size hchosen
      right
      by_cases hsplit : bestSize > size
      · rw [if_pos hsplit, hadd]
        refine ⟨_, _, _, rfl, ?_⟩
        have hcut := hchosen.split (extent_split _ hpos.le hle) extent_disjoint_next
          (extent_nonempty.mpr hpos) (extent_nonempty.mpr (show 0 < bestSize - size by omega))
        refine hcut.perm ?_
        rw [List.map_cons, List.map_append]
        refine List.Perm.cons _ ?_
        rw [← List.map_append, ← List.map_cons, ← List.cons_append]
        exact ((List.set_perm_cons_eraseIdx hidx _).symm.append_right _).map _
      · have heq : bestSize = size := by omega
        subst heq
        rw [if_neg hsplit, if_pos rfl, hadd]
        exact ⟨_, _, _, rfl, hchosen⟩

/-! ## `free` -/

theorem insert_perm (freelist : List Entry) (e : Entry) :
    (c.insert freelist e).Perm (e :: freelist) := by
  have happend : (freelist ++ [e]).Perm (e :: freelist) := List.perm_append_singleton e freelist
  unfold Config.insert
  split
  · exact happend
  · exact List.Perm.refl _
  · exact (List.perm_insertionSort _ _).trans happend
  · exact (List.perm_insertionSort _ _).trans happend
  · exact (List.perm_insertionSort _ _).trans happend

/-- Merging neighbours of the list keeps the tiling, with `others` the extents
the pass does not look at any more. -/
theorem coalesceFrom_tiles {S : Set ℤ} {curr : Entry} {rest : List Entry} (others : List Entry)
    (h : Tiles S ((curr :: (rest ++ others)).map extent)) :
    Tiles S ((coalesceFrom curr rest ++ others).map extent) := by
  induction rest generalizing curr others with
  | nil => exact h
  | cons e rest ih =>
      obtain ⟨eaddr, esize⟩ := e
      unfold coalesceFrom
      split
      · rename_i hadjacent
        subst hadjacent
        refine ih others (h.join ?_)
        have hpos := extent_nonempty.mp (h.nonempty (extent curr) List.mem_cons_self)
        have hnext := extent_nonempty.mp (h.nonempty (extent (curr.1 + curr.2, esize))
          (List.mem_cons_of_mem _ List.mem_cons_self))
        dsimp only at hnext
        have hjoined := extent_split curr.1 hpos.le (show curr.2 ≤ curr.2 + esize by omega)
        rwa [add_sub_cancel_left] at hjoined
      · have hdone : ((curr :: ((eaddr, esize) :: rest ++ others)).map extent).Perm
            (((eaddr, esize) :: (rest ++ curr :: others)).map extent) :=
          ((List.Perm.swap _ _ _).trans (List.perm_middle.symm.cons _)).map extent
        exact (ih (curr :: others) (h.perm hdone)).perm (List.perm_middle.map extent)

/-- The freed extent is on the free list instead of among the allocated ones. -/
theorem free_perm (c : Config) (hlookup : s.sizemap.lookup addr = some size) :
    (s.freelist ++ s.sizemap).Perm
      (c.insert s.freelist (addr, size) ++ s.sizemap.eraseP fun e => e.1 == addr) :=
  calc
    List.Perm (s.freelist ++ s.sizemap)
        (s.freelist ++ (addr, size) :: s.sizemap.eraseP fun e => e.1 == addr) :=
      (perm_of_lookup hlookup).append_left _
    List.Perm _ ((addr, size) :: s.freelist ++ s.sizemap.eraseP fun e => e.1 == addr) :=
      List.perm_middle
    List.Perm _ _ := (insert_perm _ _).symm.append_right _

theorem insert_tiles (h : Tiles c.heap s.extents) (hlookup : s.sizemap.lookup addr = some size) :
    Tiles c.heap ((c.insert s.freelist (addr, size) ++
      s.sizemap.eraseP fun e => e.1 == addr).map extent) :=
  h.perm ((free_perm c hlookup).map extent)

theorem insert_ne_nil (freelist : List Entry) (e : Entry) : c.insert freelist e ≠ [] := by
  intro hnil
  have hperm := @insert_perm c freelist e
  rw [hnil] at hperm
  exact absurd hperm.symm.eq_nil (List.cons_ne_nil e freelist)

theorem free_spec (h : Tiles c.heap s.extents) (addr : ℤ) :
    ∃ s' rc, free c s addr = some (s', rc) ∧ Tiles c.heap s'.extents := by
  unfold free
  cases hlookup : s.sizemap.lookup addr with
  | none => exact ⟨s, -1, rfl, h⟩
  | some size =>
      have hinserted := insert_tiles h hlookup
      dsimp only
      split
      · -- the list is not empty: the freed extent is on it
        obtain ⟨curr, rest, hlist⟩ :=
          List.exists_cons_of_ne_nil (@insert_ne_nil c s.freelist (addr, size))
        rw [hlist] at hinserted ⊢
        exact ⟨_, _, rfl, coalesceFrom_tiles _ hinserted⟩
      · exact ⟨_, _, rfl, hinserted⟩

/-! ## Runs -/

theorem init_tiles (hsize : 0 < c.size) : Tiles c.heap c.init.extents := by
  have hpos : (0 : ℤ) < c.size := Int.natCast_pos.mpr hsize
  exact Tiles.singleton ((extent_nonempty (e := (c.start, (c.size : ℤ)))).mpr hpos)

theorem step_tiles {op : Op} (h : Tiles c.heap s.extents) (hop : positiveRequest s op)
    (hstep : step c s op = some s') : Tiles c.heap s'.extents := by
  cases op with
  | malloc request =>
      obtain ⟨count, hcall⟩ | ⟨addr, freelist, count, hcall, htiles⟩ := malloc_spec h hop
      · have : s = s' := by simpa [step, hcall] using hstep
        exact this ▸ h
      · have : State.mk freelist (s.sizemap ++ [(addr, requestSize c request)]) = s' := by
          simpa [step, hcall] using hstep
        refine this ▸ htiles.perm (List.Perm.map _ ?_)
        dsimp only
        rw [← List.append_assoc]
        exact (List.perm_append_singleton _ _).symm
  | free addr =>
      obtain ⟨s'', rc, hcall, htiles⟩ := free_spec h addr
      have : s'' = s' := by simpa [step, hcall] using hstep
      exact this ▸ htiles

theorem reach_tiles (hsize : 0 < c.size) (hreach : Reach (step c) positiveRequest c.init s) :
    Tiles c.heap s.extents :=
  hreach.invariant (I := fun s => Tiles c.heap s.extents) (init_tiles hsize)
    fun _ _ _ h hop hstep => step_tiles h hop hstep

/-! An empty heap keeps its one empty extent. -/

theorem malloc_empty (hsize : c.size = 0) {request : ℤ} (hreq : 1 ≤ request) :
    malloc c c.init request = some (c.init, -1, 1) := by
  have hlarge : ¬ requestSize c request ≤ (c.size : ℤ) := by
    have := size_le_requestSize c request
    omega
  simp [malloc, Config.init, searchFrom, Config.searchInit, Config.takes, hlarge]

theorem reach_empty (hsize : c.size = 0) (hreach : Reach (step c) positiveRequest c.init s) :
    s = c.init := by
  refine hreach.invariant (I := fun s => s = c.init) rfl fun t op t' ht hop hstep => ?_
  subst ht
  cases op with
  | malloc request =>
      rw [step, malloc_empty hsize hop] at hstep
      exact (Option.some.inj hstep).symm
  | free addr => exact (Option.some.inj hstep).symm

/-- No byte of the heap is lost or handed out twice, and no call raises. -/
theorem heap_conserved (c : Config) (hreach : Reach (step c) positiveRequest c.init s) :
    (s.freelist ++ s.sizemap).Pairwise (fun e e' => Disjoint (extent e) (extent e')) ∧
      (0 < c.size → ∀ e ∈ s.freelist ++ s.sizemap, 0 < e.2) ∧
      (∀ x, (∃ e ∈ s.freelist ++ s.sizemap, x ∈ extent e) ↔ x ∈ c.heap) ∧
      (∀ request ≥ 1, (∃ count, malloc c s request = some (s, -1, count)) ∨
        ∃ addr n freelist count,
          malloc c s request = some (⟨freelist, s.sizemap ++ [(addr, n)]⟩, addr, count) ∧
          request + c.headerSize ≤ n ∧ extent (addr, n) ⊆ c.heap ∧
          ∀ e ∈ s.sizemap, Disjoint (extent (addr, n)) (extent e)) ∧
      ∀ addr, ∃ s' rc, free c s addr = some (s', rc) := by
  obtain hsize | hsize := Nat.eq_zero_or_pos c.size
  · obtain rfl := reach_empty hsize hreach
    refine ⟨List.pairwise_singleton _ _, fun hpos => absurd hsize hpos.ne', fun x => ?_,
      fun request hreq => Or.inl ⟨1, malloc_empty hsize hreq⟩, fun addr => ⟨c.init, -1, rfl⟩⟩
    simp [Config.init, extent, Config.heap]
  · have htiles := reach_tiles hsize hreach
    refine ⟨List.pairwise_map.mp htiles.disjoint, fun _ e he => ?_, fun x => ?_,
      fun request hreq => ?_, fun addr => ?_⟩
    · exact extent_nonempty.mp (htiles.nonempty _ (List.mem_map_of_mem he))
    · rw [← htiles.cover x]
      simp only [State.extents, List.mem_map, exists_exists_and_eq_and]
    · obtain hfail | ⟨addr, freelist, count, hcall, hnew⟩ := malloc_spec htiles hreq
      · exact Or.inl hfail
      · refine Or.inr ⟨addr, _, freelist, count, hcall, size_le_requestSize c request,
          hnew.subset List.mem_cons_self, fun e he => ?_⟩
        exact hnew.disjoint_of_mem (List.mem_map_of_mem (List.mem_append_right _ he))
    · obtain ⟨s', rc, hcall, -⟩ := free_spec htiles addr
      exact ⟨s', rc, hcall⟩

/-- Best fit with a header and alignment; the freed extent joins the tail. -/
def coalescingHeap : Config :=
  ⟨100, 1000, 4, .best, .addrsort, true, 8, Or.inr (Int.natCast_pos.mpr (Nat.zero_lt_succ 7))⟩

theorem coalescing_run : run (step coalescingHeap) coalescingHeap.init
    [.malloc 3, .malloc 20, .malloc 9, .free 1012, .free 1040] =
      some ⟨[(1012, 88)], [(1000, 12)]⟩ := by
  decide +kernel

theorem heap_conserved_coalescing : ([((1012 : ℤ), (88 : ℤ))] ++ [(1000, 12)]).Pairwise
    fun e e' => Disjoint (extent e) (extent e') :=
  (heap_conserved coalescingHeap (reach_of_run _ (runMeets_of_check (by decide +kernel))
    coalescing_run)).1

end OsLabs.FreeSpace
