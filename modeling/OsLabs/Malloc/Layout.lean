import OsLabs.Malloc.Coalesce

/-!
# The layout of the heap

Each call of `mm_init` that gets its four words begins an arena: padding, a prologue
block, the blocks, and the header of an epilogue of size zero, over which the arena
grows.
-/

namespace OsLabs.Malloc

open ByteMemory BoundaryTags Checked

def prologue : Block := ⟨8, true⟩

@[simp] theorem prologue_size : prologue.size = 8 := rfl

structure ArenaAt (m : Memory) (g : ℕ) (bs : List Block) : Prop where
  tagged : Tagged m (g + 4) (prologue :: bs)
  epilogue : word m (g + 12 + span bs) = 1

def ArenasAt (m : Memory) : ℕ → List (List Block) → Prop
  | _, [] => True
  | g, bs :: rest => ArenaAt m g bs ∧ ArenasAt m (g + (16 + span bs)) rest

def extent (arenas : List (List Block)) : ℕ := (arenas.map fun bs => 16 + span bs).sum

def Sized (b : Block) : Prop := 16 ≤ b.size ∧ b.size % 8 = 0

/-- No two neighbours are both free. -/
def Coalesced (bs : List Block) : Prop := bs.IsChain fun b d => b.allocated ∨ d.allocated

/-- The allocated blocks, with the addresses of their headers. -/
def liveBlocks : ℕ → List (List Block) → List (ℕ × Block)
  | _, [] => []
  | g, bs :: rest => inUse (g + 12) bs ++ liveBlocks (g + (16 + span bs)) rest

/-- The heap is made up of arenas. -/
structure Heap.Holds (c : Machine) (h : Heap) (arenas : List (List Block)) : Prop where
  layout : ArenasAt h.mem c.mem_heap arenas
  brk : h.mem_brk = c.mem_heap + extent arenas
  room : h.mem_brk ≤ c.mem_heap + MAX_HEAP
  sized : ∀ bs ∈ arenas, ∀ b ∈ bs, Sized b

/-- The rover is the pointer of a block of the arena, or of its epilogue. -/
def RoverAt (g : ℕ) (bs : List Block) (rover : ℕ) : Prop :=
  ∃ x, rover = x + 4 ∧ Boundary (g + 4) (prologue :: bs) x

/-- `heap_listp` and the rover point into the last arena. -/
structure Ready (c : Machine) (h : Heap) (pre : List (List Block)) (bs : List Block) : Prop where
  holds : h.Holds c (pre ++ [bs])
  coalesced : ∀ cs ∈ pre ++ [bs], Coalesced cs
  heap_listp : h.heap_listp = c.mem_heap + extent pre + 8
  rover : c.next_fit = true → RoverAt (c.mem_heap + extent pre) bs h.rover

variable {c : Machine} {h : Heap} {m m' : Memory} {g s x : ℕ} {b p n : Block}
  {bs bs' l l' lf r r' rf : List Block} {pre post arenas : List (List Block)}

@[simp] theorem extent_nil : extent [] = 0 := rfl

@[simp] theorem extent_cons (bs : List Block) (rest : List (List Block)) :
    extent (bs :: rest) = 16 + span bs + extent rest := List.sum_cons

@[simp] theorem extent_append (pre post : List (List Block)) :
    extent (pre ++ post) = extent pre + extent post := by
  simp [extent]

theorem arenasAt_append :
    ArenasAt m g (pre ++ post) ↔ ArenasAt m g pre ∧ ArenasAt m (g + extent pre) post := by
  induction pre generalizing g with
  | nil => simp [ArenasAt]
  | cons bs pre ih => simp [ArenasAt, ih, and_assoc, Nat.add_assoc]

theorem liveBlocks_append :
    liveBlocks g (pre ++ post) = liveBlocks g pre ++ liveBlocks (g + extent pre) post := by
  induction pre generalizing g with
  | nil => simp [liveBlocks]
  | cons bs pre ih => simp [liveBlocks, ih, Nat.add_assoc]

theorem liveBlocks_bounds {y : ℕ × Block} (h : y ∈ liveBlocks g arenas) :
    g + 12 ≤ y.1 ∧ y.1 + y.2.size + 4 ≤ g + extent arenas := by
  induction arenas generalizing g with
  | nil => cases h
  | cons bs rest ih =>
      rw [extent_cons]
      obtain h | h := List.mem_append.mp h
      · have hbounds := inUse_bounds h
        omega
      · have hbounds := ih h
        omega

/-- Each allocated block comes before the next. -/
theorem liveBlocks_pairwise (g : ℕ) (arenas : List (List Block)) :
    (liveBlocks g arenas).Pairwise fun y z => y.1 + y.2.size ≤ z.1 := by
  induction arenas generalizing g with
  | nil => exact List.Pairwise.nil
  | cons bs rest ih =>
      refine List.pairwise_append.mpr ⟨(positions_pairwise _ _).filter _, ih _, ?_⟩
      intro y hy z hz
      have hy := inUse_bounds hy
      have hz := liveBlocks_bounds hz
      omega

theorem liveBlocks_disjoint {y z : ℕ × Block} (hy : y ∈ liveBlocks g arenas)
    (hz : z ∈ liveBlocks g arenas) (hne : y ≠ z) :
    y.1 + y.2.size ≤ z.1 ∨ z.1 + z.2.size ≤ y.1 := by
  have hpairs : (liveBlocks g arenas).Pairwise
      fun y z => y.1 + y.2.size ≤ z.1 ∨ z.1 + z.2.size ≤ y.1 :=
    (liveBlocks_pairwise g arenas).imp Or.inl
  have : Std.Symm fun y z : ℕ × Block => y.1 + y.2.size ≤ z.1 ∨ z.1 + z.2.size ≤ y.1 :=
    ⟨fun _ _ => Or.symm⟩
  exact hpairs.forall hy hz hne

/-- A stretch of an arena in which nothing is allocated meets no allocated block. -/
theorem liveBlocks_apart {u : List Block} (hfree : ∀ b ∈ u, b.allocated = false) {y : ℕ × Block}
    (hy : y ∈ liveBlocks g (pre ++ (l ++ u ++ r) :: post)) :
    y.1 + y.2.size ≤ g + extent pre + 12 + span l ∨
      g + extent pre + 12 + span l + span u ≤ y.1 := by
  rw [liveBlocks_append, liveBlocks, inUse_append, inUse_append, inUse_free hfree,
    List.append_nil] at hy
  obtain hy | hy := List.mem_append.mp hy
  · have hbounds := liveBlocks_bounds hy
    omega
  · obtain hy | hy := List.mem_append.mp hy
    · obtain hy | hy := List.mem_append.mp hy
      · have hbounds := inUse_bounds hy
        omega
      · have hbounds := inUse_bounds hy
        rw [span_append] at hbounds
        omega
    · have hbounds := liveBlocks_bounds hy
      rw [span_append, span_append] at hbounds
      omega

theorem ArenaAt.congr (h : ArenaAt m g bs) (hsize : ∀ b ∈ bs, 4 ≤ b.size)
    (hsame : ∀ x, g ≤ x → x < g + 16 + span bs → m' x = m x) : ArenaAt m' g bs := by
  constructor
  · refine h.tagged.congr ?_ fun x hx hlt => hsame x (by omega) ?_
    · rintro b (_ | ⟨_, hb⟩)
      · exact Nat.le_of_ble_eq_true rfl
      · exact hsize b hb
    · rw [span_cons, prologue_size] at hlt
      omega
  · exact (word_congr fun x hx hlt => hsame x (by omega) (by omega)).trans h.epilogue

theorem ArenasAt.congr (h : ArenasAt m g arenas) (hsize : ∀ bs ∈ arenas, ∀ b ∈ bs, 4 ≤ b.size)
    (hsame : ∀ x, g ≤ x → x < g + extent arenas → m' x = m x) : ArenasAt m' g arenas := by
  induction arenas generalizing g with
  | nil => trivial
  | cons bs rest ih =>
      rw [extent_cons] at hsame
      refine ⟨h.1.congr (hsize bs List.mem_cons_self) fun x hx hlt => hsame x hx (by omega), ?_⟩
      exact ih h.2 (fun cs hcs => hsize cs (List.mem_cons_of_mem _ hcs))
        fun x hx hlt => hsame x (by omega) (by omega)

/-- What happens within one arena leaves the others alone. -/
theorem ArenasAt.replace (h : ArenasAt m g (pre ++ bs :: post))
    (hsize : ∀ cs ∈ pre ++ bs :: post, ∀ b ∈ cs, 4 ≤ b.size)
    (hnew : ArenaAt m' (g + extent pre) bs') (hspan : span bs' = span bs)
    (hsame : SameOutside (g + extent pre) (g + extent pre + 16 + span bs) m m') :
    ArenasAt m' g (pre ++ bs' :: post) := by
  obtain ⟨hpre, -, hpost⟩ := arenasAt_append.mp h
  refine arenasAt_append.mpr ⟨?_, hnew, ?_⟩
  · exact hpre.congr (fun cs hcs => hsize cs (List.mem_append_left _ hcs))
      fun x hx hlt => hsame x (Or.inl hlt)
  · rw [hspan]
    refine hpost.congr (fun cs hcs => hsize cs ?_) fun x hx hlt => hsame x (Or.inr (by omega))
    exact List.mem_append_right _ (List.mem_cons_of_mem _ hcs)

/-- Blocks of an arena become others, of the same size in all. -/
theorem ArenaAt.replace {u v : List Block} (h : ArenaAt m g (l ++ u ++ r))
    (hspan : span v = span u) (hsized : ∀ b ∈ l ++ u ++ r, Sized b)
    (hnew : Tagged m' (g + 12 + span l) v)
    (hsame : SameOutside (g + 12 + span l) (g + 12 + span l + span u) m m') :
    ArenaAt m' g (l ++ v ++ r) := by
  have hprologue : span (prologue :: l) = 8 + span l := rfl
  have hstart : g + 4 + span (prologue :: l) = g + 12 + span l := by omega
  have hsize (b : Block) (hb : b ∈ l ++ u ++ r) : 4 ≤ b.size := by
    have := (hsized b hb).1
    omega
  constructor
  · refine Tagged.replace (l := prologue :: l) h.tagged hspan ?_ ?_ ?_ ?_
    · rintro b (_ | ⟨_, hb⟩)
      · exact Nat.le_of_ble_eq_true rfl
      · exact hsize b (List.mem_append_left _ (List.mem_append_left _ hb))
    · exact fun b hb => hsize b (List.mem_append_right _ hb)
    · rwa [hstart]
    · rwa [hstart]
  · have hend := h.epilogue
    simp only [span_append, hspan] at hend ⊢
    rw [hsame.word_eq (Or.inr (by omega)), hend]

theorem Heap.Holds.arena (hh : h.Holds c (pre ++ bs :: post)) :
    ArenaAt h.mem (c.mem_heap + extent pre) bs ∧
      c.mem_heap + extent pre + 16 + span bs + extent post = h.mem_brk := by
  have hbrk := hh.brk
  rw [extent_append, extent_cons] at hbrk
  exact ⟨(arenasAt_append.mp hh.layout).2.1, by omega⟩

theorem Heap.Holds.sized_prologue (hh : h.Holds c (pre ++ bs :: post)) :
    ∀ b ∈ prologue :: bs, 8 ≤ b.size ∧ b.size % 8 = 0 := by
  rintro b (_ | ⟨_, hb⟩)
  · exact ⟨le_rfl, rfl⟩
  · obtain ⟨hge, h8⟩ := hh.sized bs (by simp) b hb
    exact ⟨by omega, h8⟩

theorem roverAt_block (b : Block) :
    RoverAt g (l ++ b :: r) (g + 12 + span l + 4) := by
  refine ⟨g + 12 + span l, rfl, prologue :: l, b :: r, rfl, ?_⟩
  rw [span_cons, prologue_size]
  omega

theorem RoverAt.split {rover : ℕ} {cs : List Block} (h : RoverAt g (l ++ [b] ++ r) rover)
    (hspan : span cs = b.size) : RoverAt g (l ++ cs ++ r) rover := by
  obtain ⟨x, hx, hboundary⟩ := h
  exact ⟨x, hx, Boundary.split (l := prologue :: l) hboundary hspan⟩

theorem forall_mem_replace {P : List Block → Prop} (h : ∀ cs ∈ pre ++ bs :: post, P cs)
    (hnew : P bs') : ∀ cs ∈ pre ++ bs' :: post, P cs := by
  intro cs hcs
  obtain hcs | hcs := List.mem_append.mp hcs
  · exact h cs (List.mem_append_left _ hcs)
  · obtain rfl | hcs := List.mem_cons.mp hcs
    · exact hnew
    · exact h cs (List.mem_append_right _ (List.mem_cons_of_mem _ hcs))

theorem Heap.Holds.of_eq {h' : Heap} (hh : h.Holds c arenas) (hmem : h'.mem = h.mem)
    (hbrk : h'.mem_brk = h.mem_brk) : h'.Holds c arenas :=
  ⟨hmem ▸ hh.layout, hbrk ▸ hh.brk, hbrk ▸ hh.room, hh.sized⟩

theorem Ready.of_eq {h' : Heap} (hr : Ready c h pre bs) (hmem : h'.mem = h.mem)
    (hbrk : h'.mem_brk = h.mem_brk) (hlistp : h'.heap_listp = h.heap_listp)
    (hrover : c.next_fit = true → RoverAt (c.mem_heap + extent pre) bs h'.rover) :
    Ready c h' pre bs :=
  ⟨hr.holds.of_eq hmem hbrk, hr.coalesced, hlistp.trans hr.heap_listp, hrover⟩

/-- Around an allocated block nothing need be said. -/
theorem coalesced_allocated_iff :
    Coalesced (l ++ ⟨s, true⟩ :: r) ↔ Coalesced l ∧ Coalesced r := by
  simp only [Coalesced, List.isChain_append, List.isChain_cons, List.head?_cons,
    Option.mem_some_iff, forall_eq', or_true, true_or, implies_true, and_true, true_and]

theorem coalesced_free_iff :
    Coalesced (l ++ ⟨s, false⟩ :: r) ↔ Coalesced l ∧ Coalesced r ∧
      (∀ b ∈ l.getLast?, b.allocated = true) ∧ ∀ b ∈ r.head?, b.allocated = true := by
  simp only [Coalesced, List.isChain_append, List.isChain_cons, List.head?_cons,
    Option.mem_some_iff, forall_eq', Bool.false_eq_true, or_false, false_or]
  exact ⟨fun ⟨hl, ⟨hhead, hr⟩, hlast⟩ => ⟨hl, hr, hlast, hhead⟩,
    fun ⟨hl, hr, hlast, hhead⟩ => ⟨hl, ⟨hhead, hr⟩, hlast⟩⟩

/-- A heap whose last arena changes. -/
theorem Ready.update {h' : Heap} (hr : Ready c h pre bs)
    (hbrk : h'.mem_brk + span bs = h.mem_brk + span bs')
    (hroom : h'.mem_brk ≤ c.mem_heap + MAX_HEAP) (hlistp : h'.heap_listp = h.heap_listp)
    (hnew : ArenaAt h'.mem (c.mem_heap + extent pre) bs') (hsized : ∀ b ∈ bs', Sized b)
    (hcoal : Coalesced bs') (hsame : ∀ x < c.mem_heap + extent pre, h'.mem x = h.mem x)
    (hrover : c.next_fit = true → RoverAt (c.mem_heap + extent pre) bs' h'.rover) :
    Ready c h' pre bs' := by
  obtain ⟨hpre, -⟩ := arenasAt_append.mp hr.holds.layout
  have hold := hr.holds.brk
  rw [extent_append, extent_cons, extent_nil] at hold
  have hmem (cs : List Block) (hcs : cs ∈ pre) : cs ∈ pre ++ [bs] := List.mem_append_left _ hcs
  refine ⟨⟨arenasAt_append.mpr ⟨?_, hnew, trivial⟩, ?_, hroom, ?_⟩, ?_, ?_, hrover⟩
  · refine hpre.congr (fun cs hcs b hb => ?_) fun x _ hlt => hsame x hlt
    have hge := (hr.holds.sized cs (hmem cs hcs) b hb).1
    omega
  · rw [extent_append, extent_cons, extent_nil]
    omega
  · intro cs hcs
    obtain hcs | hcs := List.mem_append.mp hcs
    · exact hr.holds.sized cs (hmem cs hcs)
    · exact List.mem_singleton.mp hcs ▸ hsized
  · intro cs hcs
    obtain hcs | hcs := List.mem_append.mp hcs
    · exact hr.coalesced cs (hmem cs hcs)
    · exact List.mem_singleton.mp hcs ▸ hcoal
  · rw [hlistp, hr.heap_listp]

/-! ## The neighbours of a block -/

theorem exists_before (hl : Coalesced l) :
    ∃ u p l' lf, prologue :: l = u ++ [p] ∧ l = l' ++ lf ∧
      (p.allocated = true ∧ lf = [] ∨ p.allocated = false ∧ lf = [p]) ∧
      (∀ b ∈ l'.getLast?, b.allocated = true) ∧ (p = prologue ∨ p ∈ l) := by
  obtain rfl | ⟨u, p, rfl⟩ := l.eq_nil_or_concat
  · exact ⟨[], prologue, [], [], rfl, rfl, Or.inl ⟨rfl, rfl⟩, nofun, Or.inl rfl⟩
  · cases hp : p.allocated with
    | true => exact ⟨prologue :: u, p, u ++ [p], [], by simp, by simp, by simp [hp], by simp [hp],
        by simp⟩
    | false =>
        refine ⟨prologue :: u, p, u, [p], by simp, by simp, by simp [hp], fun b hb => ?_, by simp⟩
        rw [Coalesced, List.concat_eq_append] at hl
        have hjoin := (List.isChain_append.mp hl).2.2 b hb p (by simp)
        simpa [hp] using hjoin

theorem exists_after (hr : Coalesced r) (htag : Tagged m x r) (hend : word m (x + span r) = 1)
    (hsized : ∀ b ∈ r, Sized b) :
    ∃ n rf r', r = rf ++ r' ∧ word m x = n.tag ∧ n.size % 8 = 0 ∧
      (n.allocated = true ∧ rf = [] ∨ n.allocated = false ∧ rf = [n]) ∧
      ∀ b ∈ r'.head?, b.allocated = true := by
  cases r with
  | nil => exact ⟨⟨0, true⟩, [], [], rfl, hend, rfl, Or.inl ⟨rfl, rfl⟩, nofun⟩
  | cons n r =>
      have hsize := (hsized n List.mem_cons_self).2
      cases hn : n.allocated with
      | true => exact ⟨n, [], n :: r, rfl, htag.1.1, hsize, Or.inl ⟨hn, rfl⟩, by simp [hn]⟩
      | false =>
          refine ⟨n, [n], r, rfl, htag.1.1, hsize, Or.inr ⟨hn, rfl⟩, fun b hb => ?_⟩
          have hjoin := (List.isChain_cons.mp hr).1 b hb
          simpa [hn] using hjoin

end OsLabs.Malloc
