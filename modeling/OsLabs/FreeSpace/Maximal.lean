import Mathlib
import OsLabs.FreeSpace.Search
import OsLabs.FreeSpace.Conservation

/-!
# Coalescing in address order

In address order the coalescing pass sees the neighbours of a freed extent
next to it, so that no two free extents touch: they are the maximal runs of
unallocated bytes, and a request fails only when no run is long enough.
-/

namespace OsLabs.FreeSpace

open OsLabs.Transition OsLabs.Extents

variable {c : Config} {s s' : State} {freelist rest : List Entry} {e e' curr : Entry}
  {addr size n x : ℤ} {i : ℕ}

/-- The extents follow one another in the order of their addresses. -/
def Ordered (freelist : List Entry) : Prop := freelist.Pairwise fun e e' => e.1 + e.2 ≤ e'.1

/-- Moreover they do not touch. -/
def Spaced (freelist : List Entry) : Prop := freelist.Pairwise fun e e' => e.1 + e.2 < e'.1

/-! ## The coalescing pass -/

/-- An extent and the next one joined. -/
theorem ordered_joined (h : Ordered (curr :: e :: rest)) (hpos : ∀ e' ∈ curr :: e :: rest, 0 < e'.2)
    (htouch : e.1 = curr.1 + curr.2) : Ordered ((curr.1, curr.2 + e.2) :: rest) ∧
      ∀ e' ∈ (curr.1, curr.2 + e.2) :: rest, 0 < e'.2 := by
  obtain ⟨-, hrest⟩ := List.pairwise_cons.mp h
  obtain ⟨hnext, hrest⟩ := List.pairwise_cons.mp hrest
  constructor
  · refine List.pairwise_cons.mpr ⟨fun e' he' => ?_, hrest⟩
    have := hnext e' he'
    dsimp only
    omega
  · intro e' he'
    obtain rfl | he' := List.mem_cons.mp he'
    · have := hpos curr (List.mem_cons_self ..)
      have := hpos e (List.mem_cons_of_mem _ (List.mem_cons_self ..))
      dsimp only
      omega
    · exact hpos e' (List.mem_cons_of_mem _ (List.mem_cons_of_mem _ he'))

/-- The pass joins all extents that touch, and none begins before the first. -/
theorem spaced_coalesceFrom (h : Ordered (curr :: rest)) (hpos : ∀ e ∈ curr :: rest, 0 < e.2) :
    Spaced (coalesceFrom curr rest) ∧ ∀ e ∈ coalesceFrom curr rest, curr.1 ≤ e.1 := by
  induction rest generalizing curr with
  | nil =>
      refine ⟨List.pairwise_singleton _ _, fun e he => ?_⟩
      exact (congrArg Prod.fst (List.mem_singleton.mp he)).ge
  | cons next rest ih =>
      obtain ⟨eaddr, esize⟩ := next
      obtain ⟨hcurr, hrest⟩ := List.pairwise_cons.mp h
      rw [coalesceFrom]
      split
      · next htouch =>
          obtain ⟨hordered, hpos⟩ := ordered_joined h hpos htouch
          exact ih hordered hpos
      · next hapart =>
          obtain ⟨hspaced, hfirst⟩ := ih hrest fun e he => hpos e (List.mem_cons_of_mem _ he)
          have hlt : curr.1 + curr.2 < eaddr :=
            lt_of_le_of_ne (hcurr _ (List.mem_cons_self ..)) (Ne.symm hapart)
          have hcurrpos := hpos curr (List.mem_cons_self ..)
          refine ⟨List.pairwise_cons.mpr ⟨fun e he => hlt.trans_le (hfirst e he), hspaced⟩, ?_⟩
          intro e he
          obtain rfl | he := List.mem_cons.mp he
          · exact le_rfl
          · have hle : eaddr ≤ e.1 := hfirst e he
            omega

/-- Disjoint extents sorted by their addresses follow one another. -/
theorem ordered_of_sorted (hsorted : freelist.Pairwise fun e e' => e.1 ≤ e'.1)
    (hdisjoint : freelist.Pairwise fun e e' => Disjoint (extent e) (extent e'))
    (hpos : ∀ e ∈ freelist, 0 < e.2) : Ordered freelist := by
  refine (hsorted.and hdisjoint).imp_of_mem fun {e e'} he he' hpair => ?_
  by_contra hlt
  have hsize := hpos e' he'
  have hmem : e'.1 ∈ extent e := Set.mem_Ico.mpr ⟨hpair.1, by omega⟩
  have hmem' : e'.1 ∈ extent e' := Set.mem_Ico.mpr ⟨le_rfl, by omega⟩
  exact Set.disjoint_left.mp hpair.2 hmem hmem'

theorem spaced_set (h : Spaced freelist) (hget : freelist[i]? = some (addr, n)) (hsize : 0 ≤ size) :
    Spaced (freelist.set i (addr + size, n - size)) := by
  obtain ⟨hbefore, hafter⟩ := pairwise_at hget h
  refine (pairwise_set_iff _ (List.getElem?_eq_some_iff.mp hget).1 h).mpr ⟨?_, ?_⟩
  · intro j hj a ha
    have := hbefore j hj a ha
    dsimp only at this ⊢
    omega
  · intro j hj a ha
    have := hafter j hj a ha
    dsimp only at this ⊢
    omega

/-! ## The calls -/

/-- What the state of a heap with bytes keeps. -/
structure Coalesced (c : Config) (s : State) : Prop where
  tiles : Tiles c.heap s.extents
  spaced : Spaced s.freelist

theorem Coalesced.pos (h : Coalesced c s) (he : e ∈ s.freelist ++ s.sizemap) : 0 < e.2 :=
  extent_nonempty.mp (h.tiles.nonempty _ (List.mem_map_of_mem he))

theorem takeFrom_spaced (h : Spaced freelist) (hget : freelist[i]? = some (addr, n))
    (hsize : 0 ≤ size) : Spaced (takeFrom freelist i addr n size) := by
  rw [takeFrom]
  split
  · exact spaced_set h hget hsize
  · exact h.sublist (List.eraseIdx_sublist ..)

theorem malloc_spaced (h : Coalesced c s) {request ptr : ℤ} (hreq : 1 ≤ request) {count : ℕ}
    (hcall : malloc c s request = some (s', ptr, count)) : Spaced s'.freelist := by
  have hsize := size_le_requestSize c request
  obtain ⟨-, rfl, -⟩ | ⟨i, m, hpicked, -, rfl⟩ := malloc_cases hcall
  · exact h.spaced
  · exact takeFrom_spaced h.spaced hpicked.get (by omega)

theorem free_spaced (horder : c.returnPolicy = .addrsort) (hcoalesce : c.coalesce = true)
    (h : Coalesced c s) {rc : ℤ} (hcall : free c s addr = some (s', rc)) :
    Spaced s'.freelist := by
  rw [free] at hcall
  cases hlookup : s.sizemap.lookup addr with
  | none =>
      rw [hlookup] at hcall
      obtain ⟨rfl, -⟩ := hcall
      exact h.spaced
  | some size =>
      -- the freed extent joins the free ones, and all of these are disjoint
      have hinserted := insert_tiles h.tiles hlookup
      have hpos (e : Entry) (he : e ∈ c.insert s.freelist (addr, size)) : 0 < e.2 :=
        extent_nonempty.mp (hinserted.nonempty _ (List.mem_map_of_mem (List.mem_append_left _ he)))
      have hdisjoint := (List.pairwise_append.mp (List.pairwise_map.mp hinserted.disjoint)).1
      have hsorted : (c.insert s.freelist (addr, size)).Pairwise fun e e' => e.1 ≤ e'.1 := by
        rw [Config.insert, horder]
        exact List.pairwise_insertionSort _ _
      have hordered := ordered_of_sorted hsorted hdisjoint hpos
      obtain ⟨curr, rest, hlist⟩ :=
        List.exists_cons_of_ne_nil (@insert_ne_nil c s.freelist (addr, size))
      rw [hlist] at hordered hpos
      simp only [hlookup, hcoalesce, hlist, coalescePass] at hcall
      obtain ⟨rfl, -⟩ := hcall
      exact (spaced_coalesceFrom hordered hpos).1

theorem coalesced_init (hsize : 0 < c.size) : Coalesced c c.init :=
  ⟨init_tiles hsize, List.pairwise_singleton _ _⟩

theorem reach_coalesced (horder : c.returnPolicy = .addrsort) (hcoalesce : c.coalesce = true)
    (hsize : 0 < c.size) (hreach : Reach (step c) positiveRequest c.init s) : Coalesced c s := by
  refine hreach.invariant (coalesced_init hsize) fun s op s' h hop hstep => ?_
  refine ⟨step_tiles h.tiles hop hstep, ?_⟩
  cases op with
  | malloc request =>
      obtain ⟨⟨_, ptr, count⟩, hcall, rfl⟩ := Option.map_eq_some_iff.mp hstep
      exact malloc_spaced h hop hcall
  | free addr =>
      obtain ⟨⟨_, rc⟩, hcall, rfl⟩ := Option.map_eq_some_iff.mp hstep
      exact free_spaced horder hcoalesce h hcall

/-! ## Runs of unallocated bytes -/

def Unallocated (c : Config) (s : State) (x : ℤ) : Prop :=
  x ∈ c.heap ∧ ∀ e ∈ s.sizemap, x ∉ extent e

/-- The bytes of an interval are unallocated. -/
def Run (c : Config) (s : State) (addr n : ℤ) : Prop :=
  ∀ x, addr ≤ x → x < addr + n → Unallocated c s x

/-- A run that is not empty and cannot be extended. -/
structure MaximalRun (c : Config) (s : State) (addr n : ℤ) : Prop where
  pos : 0 < n
  run : Run c s addr n
  before : ¬ Unallocated c s (addr - 1)
  after : ¬ Unallocated c s (addr + n)

theorem Coalesced.unallocated_iff (h : Coalesced c s) :
    Unallocated c s x ↔ ∃ e ∈ s.freelist, x ∈ extent e := by
  have hcover : x ∈ c.heap ↔ ∃ e ∈ s.freelist ++ s.sizemap, x ∈ extent e := by
    rw [← h.tiles.cover x]
    simp only [State.extents, List.mem_map, exists_exists_and_eq_and]
  have hdisjoint := (List.pairwise_append.mp (List.pairwise_map.mp h.tiles.disjoint)).2.2
  constructor
  · rintro ⟨hheap, hfree⟩
    obtain ⟨e, he, hx⟩ := hcover.mp hheap
    obtain he | he := List.mem_append.mp he
    · exact ⟨e, he, hx⟩
    · exact absurd hx (hfree e he)
  · rintro ⟨e, he, hx⟩
    refine ⟨hcover.mpr ⟨e, List.mem_append_left _ he, hx⟩, fun e' he' => ?_⟩
    exact Set.disjoint_left.mp (hdisjoint e he e' he') hx

/-- Between two free extents there is an allocated byte. -/
theorem Coalesced.apart (h : Coalesced c s) (he : e ∈ s.freelist) (he' : e' ∈ s.freelist)
    (hne : e ≠ e') : e.1 + e.2 < e'.1 ∨ e'.1 + e'.2 < e.1 := by
  have hpairs : s.freelist.Pairwise fun e e' => e.1 + e.2 < e'.1 ∨ e'.1 + e'.2 < e.1 :=
    List.Pairwise.imp Or.inl h.spaced
  have : Std.Symm fun e e' : Entry => e.1 + e.2 < e'.1 ∨ e'.1 + e'.2 < e.1 := ⟨fun _ _ => Or.symm⟩
  exact hpairs.forall he he' hne

/-- A run lies in one free extent. -/
theorem Coalesced.extent_of_run (h : Coalesced c s) (hrun : Run c s addr n) (hn : 0 < n) :
    ∃ e ∈ s.freelist, e.1 ≤ addr ∧ addr + n ≤ e.1 + e.2 := by
  obtain ⟨e, he, hx⟩ := h.unallocated_iff.mp (hrun addr le_rfl (by omega))
  obtain ⟨hlow, hhigh⟩ := Set.mem_Ico.mp hx
  refine ⟨e, he, hlow, ?_⟩
  by_contra hlt
  -- the byte after the extent belongs to the run as well
  obtain ⟨e', he', hx'⟩ := h.unallocated_iff.mp (hrun (e.1 + e.2) (by omega) (by omega))
  obtain ⟨hlow', hhigh'⟩ := Set.mem_Ico.mp hx'
  have hne : e ≠ e' := by
    rintro rfl
    omega
  have := h.apart he he' hne
  omega

theorem Coalesced.run_of_mem (h : Coalesced c s) (he : (addr, n) ∈ s.freelist) :
    Run c s addr n :=
  fun _ hlow hhigh => h.unallocated_iff.mpr ⟨_, he, Set.mem_Ico.mpr ⟨hlow, hhigh⟩⟩

/-- The free extents are the maximal runs. -/
theorem Coalesced.mem_freelist_iff (h : Coalesced c s) :
    (addr, n) ∈ s.freelist ↔ MaximalRun c s addr n := by
  constructor
  · intro he
    have hpos : 0 < n := h.pos (List.mem_append_left _ he)
    have houtside {x : ℤ} (hx : x = addr - 1 ∨ x = addr + n) : ¬ Unallocated c s x := by
      intro hfree
      obtain ⟨e', he', hx'⟩ := h.unallocated_iff.mp hfree
      obtain ⟨hlow, hhigh⟩ := Set.mem_Ico.mp hx'
      have hne : (addr, n) ≠ e' := by
        rintro rfl
        dsimp only at hlow hhigh
        omega
      have hapart := h.apart he he' hne
      dsimp only at hapart
      omega
    exact ⟨hpos, h.run_of_mem he, houtside (Or.inl rfl), houtside (Or.inr rfl)⟩
  · rintro ⟨hpos, hrun, hbefore, hafter⟩
    obtain ⟨⟨eaddr, esize⟩, he, hlow, hhigh⟩ := h.extent_of_run hrun hpos
    dsimp only at hlow hhigh
    have hextent := h.run_of_mem he
    have hstart : eaddr = addr := by
      by_contra hne
      exact hbefore (hextent (addr - 1) (by omega) (by omega))
    subst hstart
    have hend : esize = n := by
      by_contra hne
      exact hafter (hextent (eaddr + n) (by omega) (by omega))
    exact hend ▸ he

/-! ## Requests -/

/-- The search misses only when every free extent is too small. -/
theorem Coalesced.missed_iff (h : Coalesced c s) (request : ℤ) :
    (search c s request).best = none ↔ ∀ e ∈ s.freelist, e.2 < requestSize c request := by
  have hsearch := searched c (requestSize c request) s.freelist
  constructor
  · intro hnone e he
    by_contra! hlarge
    have hpos := h.pos (List.mem_append_left _ he)
    have hsub : extent e ⊆ c.heap := h.tiles.subset
      (List.mem_map_of_mem (List.mem_append_left _ he))
    obtain ⟨-, hbig⟩ | ⟨-, hneg⟩ := hsearch.missed hnone e he hlarge
    · have hle := (Set.Ico_subset_Ico_iff (by omega)).mp hsub
      omega
    · omega
  · intro hsmall
    cases hbest : (search c s request).best with
    | none => rfl
    | some found =>
        have hpicked := hsearch.found found.1 found.2 hbest
        have hlt := hsmall _ (List.mem_of_getElem? hpicked.get)
        exact absurd hpicked.large hlt.not_ge

/-- Some run of unallocated bytes has room for the request. -/
def HasRoom (c : Config) (s : State) (request : ℤ) : Prop :=
  ∃ addr n, requestSize c request ≤ n ∧ Run c s addr n

theorem Coalesced.malloc_iff (h : Coalesced c s) {request : ℤ} (hreq : 1 ≤ request) :
    (search c s request).best = none ↔ ¬ HasRoom c s request := by
  have hsize := size_le_requestSize c request
  rw [h.missed_iff]
  constructor
  · rintro hsmall ⟨addr, n, hle, hrun⟩
    obtain ⟨e, he, hlow, hhigh⟩ := h.extent_of_run hrun (by omega)
    have := hsmall e he
    omega
  · intro hnone e he
    by_contra! hlarge
    exact hnone ⟨e.1, e.2, hlarge, h.run_of_mem he⟩

/-- An address that `malloc` returns for a block is one of the heap. -/
theorem Coalesced.mem_heap (h : Coalesced c s) {i : ℕ} {m : ℤ}
    (hpicked : Picked c size s.freelist i addr m) : addr ∈ c.heap := by
  have he := List.mem_of_getElem? hpicked.get
  have hpos := h.pos (List.mem_append_left _ he)
  exact (h.run_of_mem he addr le_rfl (by dsimp only at hpos; omega)).1

/-- In an empty heap no byte is unallocated. -/
theorem not_unallocated (hsize : c.size = 0) (s : State) (x : ℤ) : ¬ Unallocated c s x := by
  rintro ⟨hheap, -⟩
  obtain ⟨hlow, hhigh⟩ := Set.mem_Ico.mp hheap
  omega

/-- With address order and coalescing, the free list is sorted and consists of
the maximal runs of unallocated bytes, so that `malloc` allocates whenever a
run is long enough; where `-1` is no address of the heap it returns `-1` in no
other case. -/
theorem freelist_maximal (c : Config) (horder : c.returnPolicy = .addrsort)
    (hcoalesce : c.coalesce = true) (hreach : Reach (step c) positiveRequest c.init s) :
    s.freelist.Pairwise (fun e e' => e.1 < e'.1) ∧
      (∀ addr n, (addr, n) ∈ s.freelist ∧ 0 < n ↔ MaximalRun c s addr n) ∧
      (0 < c.size → ∀ e ∈ s.freelist, 0 < e.2) ∧
      ∀ request ≥ 1,
        ((∃ count, malloc c s request = some (s, -1, count)) ↔ ¬ HasRoom c s request) ∧
        (-1 ∉ c.heap →
          ((∃ s' count, malloc c s request = some (s', -1, count)) ↔ ¬ HasRoom c s request)) := by
  obtain hsize | hsize := Nat.eq_zero_or_pos c.size
  · obtain rfl := reach_empty hsize hreach
    have hroom {request : ℤ} (hreq : 1 ≤ request) : ¬ HasRoom c c.init request := by
      rintro ⟨addr, n, hle, hrun⟩
      have hlen := size_le_requestSize c request
      exact not_unallocated hsize _ _ (hrun addr le_rfl (by omega))
    refine ⟨List.pairwise_singleton _ _, fun addr n => ?_, fun hpos => absurd hsize hpos.ne',
      fun request hreq => ⟨iff_of_true ⟨1, malloc_empty hsize hreq⟩ (hroom hreq),
        fun _ => iff_of_true ⟨c.init, 1, malloc_empty hsize hreq⟩ (hroom hreq)⟩⟩
    constructor
    · rintro ⟨hmem, hpos⟩
      obtain ⟨-, hzero⟩ := Prod.mk.inj (List.mem_singleton.mp hmem)
      omega
    · rintro ⟨hpos, hrun, -, -⟩
      exact absurd (hrun addr le_rfl (by omega)) (not_unallocated hsize _ _)
  · have h := reach_coalesced horder hcoalesce hsize hreach
    refine ⟨?_, fun addr n => ?_, fun _ e he => h.pos (List.mem_append_left _ he),
      fun request hreq => ?_⟩
    · refine List.Pairwise.imp_of_mem (fun {e e'} he _ hlt => ?_) h.spaced
      have := h.pos (List.mem_append_left _ he)
      omega
    · rw [← h.mem_freelist_iff]
      exact and_iff_left_of_imp fun he => h.pos (List.mem_append_left _ he)
    · rw [← h.malloc_iff hreq]
      -- a call that allocates adds an entry to the map
      have hmiss (hnone : (search c s request).best = none) :
          malloc c s request = some (s, -1, (search c s request).count) := malloc_of_missed hnone
      refine ⟨⟨?_, fun hnone => ⟨_, hmiss hnone⟩⟩,
        fun hheap => ⟨?_, fun hnone => ⟨s, _, hmiss hnone⟩⟩⟩
      · rintro ⟨count, hcall⟩
        obtain ⟨hnone, -⟩ | ⟨i, m, -, -, hsame⟩ := malloc_cases hcall
        · exact hnone
        · have hlength := congrArg (fun s : State => s.sizemap.length) hsame
          simp at hlength
      · rintro ⟨s', count, hcall⟩
        obtain ⟨hnone, -⟩ | ⟨i, m, hpicked, -⟩ := malloc_cases hcall
        · exact hnone
        · exact absurd (h.mem_heap hpicked) hheap

/-- The heap of `coalescingHeap` in a state with two free extents apart. -/
theorem freelist_maximal_coalescing : MaximalRun coalescingHeap
    ⟨[(1000, 12), (1040, 60)], [(1012, 28)]⟩ 1000 12 := by
  have hreach : Reach (step coalescingHeap) positiveRequest coalescingHeap.init
      ⟨[(1000, 12), (1040, 60)], [(1012, 28)]⟩ :=
    reach_of_run [.malloc 3, .malloc 20, .free 1000] (runMeets_of_check (by decide +kernel))
      (by decide +kernel)
  exact ((freelist_maximal coalescingHeap rfl rfl hreach).2.1 1000 12).mp (by decide)

/-- A heap that begins at address `-1`. -/
def belowZero : Config := ⟨10, -1, 0, .first, .addrsort, true, -1, unaligned_ok⟩

/-- There `malloc` returns `-1` for a block. -/
theorem malloc_returns_sentinel :
    (∃ s' count, malloc belowZero belowZero.init 3 = some (s', -1, count)) ∧
      HasRoom belowZero belowZero.init 3 := by
  refine ⟨⟨⟨[(2, 7)], [(-1, 3)]⟩, 1, by decide +kernel⟩, -1, 3, by decide, fun x hlow hhigh => ?_⟩
  refine ⟨Set.mem_Ico.mpr ⟨hlow, ?_⟩, fun e he => absurd he List.not_mem_nil⟩
  simp only [belowZero]
  omega

end OsLabs.FreeSpace
