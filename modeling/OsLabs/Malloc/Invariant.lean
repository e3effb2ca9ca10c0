import OsLabs.Malloc.Requests

/-!
# The invariant of the allocator

`heap_listp` is null before the first `mm_init`, and what `mm_init` got from `mem_sbrk`
after it: a failure, or the last arena.
-/

namespace OsLabs.Malloc

open ByteMemory BoundaryTags Checked

variable {c : Machine} {h : Heap} {m m' : Memory} {g s x ptr size asize : ℕ} {b : Block}
  {bs l r : List Block} {pre post arenas : List (List Block)} {live live' : List (ℕ × Block)}

structure Inv (c : Machine) (h : Heap) (arenas : List (List Block)) : Prop where
  holds : h.Holds c arenas
  coalesced : ∀ bs ∈ arenas, Coalesced bs
  current : h.heap_listp = NULL ∧ arenas = [] ∨ h.heap_listp = FAILED ∨
    ∃ pre bs, arenas = pre ++ [bs] ∧ Ready c h pre bs

theorem Ready.inv (hr : Ready c h pre bs) : Inv c h (pre ++ [bs]) :=
  ⟨hr.holds, hr.coalesced, Or.inr (Or.inr ⟨pre, bs, rfl, hr⟩)⟩

theorem mem_liveBlocks (h : (x, b) ∈ liveBlocks g arenas) :
    ∃ pre l r post, arenas = pre ++ (l ++ b :: r) :: post ∧ x = g + extent pre + 12 + span l ∧
      b.allocated = true := by
  induction arenas generalizing g with
  | nil => cases h
  | cons bs rest ih =>
      obtain h | h := List.mem_append.mp h
      · obtain ⟨hpos, hb⟩ := mem_inUse.mp h
        obtain ⟨l, r, rfl, rfl⟩ := mem_positions.mp hpos
        exact ⟨[], l, r, rest, rfl, by rw [extent_nil, Nat.add_zero], hb⟩
      · obtain ⟨pre, l, r, post, rfl, rfl, hb⟩ := ih h
        refine ⟨bs :: pre, l, r, post, rfl, ?_, hb⟩
        rw [extent_cons]
        omega

theorem Heap.Holds.live_at (hh : h.Holds c arenas) (hx : (x, b) ∈ liveBlocks c.mem_heap arenas) :
    b.At h.mem x ∧ c.mem_heap + 12 ≤ x ∧ x + b.size + 4 ≤ h.mem_brk ∧ Sized b := by
  have hbounds := liveBlocks_bounds hx
  obtain ⟨pre, l, r, post, rfl, rfl, -⟩ := mem_liveBlocks hx
  refine ⟨?_, hbounds.1, hh.brk ▸ hbounds.2, hh.sized (l ++ b :: r) (by simp) b (by simp)⟩
  refine hh.arena.1.tagged.2.at_of_mem (mem_positions.mpr ⟨l, r, rfl, ?_⟩)
  rw [prologue_size]

/-- The bytes between the tags of a live block are not the allocator's. -/
theorem Heap.Holds.payload (hh : h.Holds c arenas) (hx : (x, b) ∈ liveBlocks c.mem_heap arenas)
    {lo hi : ℕ} (hlo : x + 4 ≤ lo) (hhi : hi + 4 ≤ x + b.size)
    (hsame : SameOutside lo hi h.mem m') :
    Heap.Holds c { h with mem := m' } arenas := by
  obtain ⟨hat, -, -, hge, -⟩ := hh.live_at hx
  obtain ⟨pre, l, r, post, rfl, rfl, -⟩ := mem_liveBlocks hx
  obtain ⟨harena, -⟩ := hh.arena
  have hat' : b.At m' (c.mem_heap + extent pre + 12 + span l) :=
    ⟨(hsame.word_eq (by omega)).trans hat.1, (hsame.word_eq (by omega)).trans hat.2⟩
  refine ⟨hh.layout.replace (fun cs hcs d hd => ?_) ?_ rfl (hsame.mono ?_ ?_), hh.brk, hh.room,
    hh.sized⟩
  · have hge := (hh.sized cs hcs d hd).1
    omega
  · have hnew : ArenaAt m' (c.mem_heap + extent pre) (l ++ [b] ++ r) :=
      ArenaAt.replace (u := [b]) (by simpa using harena) rfl
        (by simpa using hh.sized (l ++ b :: r) (by simp)) ⟨hat', trivial⟩
        (hsame.mono (by omega) (by simp only [span_cons, span_nil]; omega))
    simpa using hnew
  · omega
  · rw [span_append, span_cons]
    omega

theorem Inv.payload (hi : Inv c h arenas) (hx : (x, b) ∈ liveBlocks c.mem_heap arenas)
    {lo hi' : ℕ} (hlo : x + 4 ≤ lo) (hhi : hi' + 4 ≤ x + b.size)
    (hsame : SameOutside lo hi' h.mem m') : Inv c { h with mem := m' } arenas := by
  have hholds := hi.holds.payload hx hlo hhi hsame
  refine ⟨hholds, hi.coalesced, ?_⟩
  obtain hnull | hfailed | ⟨pre, bs, rfl, hr⟩ := hi.current
  · exact Or.inl hnull
  · exact Or.inr (Or.inl hfailed)
  · exact Or.inr (Or.inr ⟨pre, bs, rfl, hholds, hi.coalesced, hr.heap_listp, hr.rover⟩)

/-! ## `mm_init` -/

/-- An operation that leaves the live blocks as they are. -/
structure Same (c : Machine) (h h' : Heap) (arenas arenas' : List (List Block)) : Prop where
  inv : Inv c h' arenas'
  live : liveBlocks c.mem_heap arenas' = liveBlocks c.mem_heap arenas
  keeps : Keeps (liveBlocks c.mem_heap arenas) h.mem h'.mem

theorem mm_init_inv (hi : Inv c h arenas) :
    ∃ result h' arenas', mm_init c h = .ok (result, h') ∧ Same c h h' arenas arenas' ∧
      ((mem_sbrk c h (4 * WSIZE : ℕ)).1 = FAILED ∧ h'.heap_listp = FAILED ∨
        ∃ pre bs, arenas' = pre ++ [bs] ∧ Ready c h' pre bs) := by
  obtain ⟨hsbrk, hok⟩ | ⟨result, h', bs, hok, hr, hfree, hsame⟩ :=
    mm_init_spec hi.holds hi.coalesced
  · exact ⟨_, _, arenas, hok, ⟨⟨hi.holds.of_eq rfl rfl, hi.coalesced, Or.inr (Or.inl rfl)⟩, rfl,
      Keeps.refl _ _⟩, Or.inl ⟨hsbrk, rfl⟩⟩
  · refine ⟨result, h', arenas ++ [bs], hok, ⟨hr.inv, ?_, fun y hy a _ hlt => hsame a ?_⟩,
      Or.inr ⟨arenas, bs, rfl, hr⟩⟩
    · rw [liveBlocks_append, liveBlocks, inUse_free hfree]
      exact List.append_nil _
    · have hbounds := liveBlocks_bounds hy
      have hbrk := hi.holds.brk
      omega

/-- The last `mm_init`, or the one that is to come, gets its four words. -/
def SetUp (c : Machine) (h : Heap) : Prop :=
  h.heap_listp ≠ FAILED ∧ (h.heap_listp = NULL → (mem_sbrk c h (4 * WSIZE : ℕ)).1 ≠ FAILED)

instance (c : Machine) (h : Heap) : Decidable (SetUp c h) := inferInstanceAs (Decidable (_ ∧ _))

theorem lazyInit_inv (hi : Inv c h arenas) :
    ∃ h' arenas', lazyInit c h = .ok h' ∧ Same c h h' arenas arenas' ∧
      (h.heap_listp ≠ NULL → h' = h) ∧
      (SetUp c h → ∃ pre bs, arenas' = pre ++ [bs] ∧ Ready c h' pre bs) := by
  rw [lazyInit]
  by_cases hnull : h.heap_listp = 0
  · rw [if_pos hnull]
    obtain ⟨result, h', arenas', hok, hsame, hcase⟩ := mm_init_inv hi
    rw [hok]
    refine ⟨h', arenas', rfl, hsame, fun hne => absurd hnull hne, fun hset => ?_⟩
    exact hcase.resolve_left fun hfail => hset.2 hnull hfail.1
  · rw [if_neg hnull]
    refine ⟨h, arenas, rfl, ⟨hi, rfl, Keeps.refl _ _⟩, fun _ => rfl, fun hset => ?_⟩
    exact (hi.current.resolve_left fun hand => hnull hand.1).resolve_left hset.1

/-! ## `mm_malloc` -/

/-- `mem_sbrk` does not give the `int` that a size becomes. -/
def Refused (c : Machine) (h : Heap) (asize : ℕ) : Prop :=
  toInt asize < 0 ∨ h.heap_listp ≠ NULL ∧ (mem_sbrk c h (toInt asize)).1 = FAILED

/-- The adjusted size is that of a block, or no `size_t` wraps and `mem_sbrk` refuses. -/
def SizeFits (c : Machine) (h : Heap) (size : ℕ) : Prop :=
  size + 15 < 2 ^ 31 ∨ size + 15 < 2 ^ 64 ∧ Refused c h (adjusted size)

instance (c : Machine) (h : Heap) (size : ℕ) : Decidable (SizeFits c h size) := by
  unfold SizeFits Refused
  infer_instance

/-- What a request for a block does: none, or one more. -/
structure Allocated (c : Machine) (h h' : Heap) (arenas arenas' : List (List Block))
    (p size : ℕ) : Prop where
  inv : Inv c h' arenas'
  listp : h.heap_listp ≠ NULL → h'.heap_listp = h.heap_listp
  keeps : Keeps (liveBlocks c.mem_heap arenas) h.mem h'.mem
  result : p = NULL ∧ liveBlocks c.mem_heap arenas' = liveBlocks c.mem_heap arenas ∨
    ∃ x n, p = x + 4 ∧ size + 8 ≤ n ∧
      Gains (liveBlocks c.mem_heap arenas) (liveBlocks c.mem_heap arenas') (x, ⟨n, true⟩)

theorem mem_sbrk_eq_of_failed {incr : ℤ} (hroom : h.mem_brk ≤ c.mem_heap + MAX_HEAP)
    (hfail : (mem_sbrk c h incr).1 = FAILED) :
    mem_sbrk c h incr = (FAILED, { h with sbrks := h.sbrks + 1 }) := by
  rw [mem_sbrk] at hfail ⊢
  split at hfail
  · next hcond => rw [if_pos hcond]
  · exact absurd hfail (ne_failed hroom)

theorem mem_sbrk_rover (rover : ℕ) (incr : ℤ) :
    (mem_sbrk c { h with rover := rover } incr).1 = (mem_sbrk c h incr).1 := by
  rw [mem_sbrk, mem_sbrk]
  split <;> rfl

/-- A size that is no block's, and that `mem_sbrk` refuses. -/
theorem allocate_refused (hr : Ready c h pre bs) (ha8 : asize % 8 = 0) (hage : 2 ^ 31 ≤ asize)
    (halt : asize < 2 ^ 64) (hfail : (mem_sbrk c h (toInt asize)).1 = FAILED) :
    ∃ h', allocate c h asize = .ok (NULL, h') ∧ Ready c h' pre bs ∧ h'.mem = h.mem := by
  obtain ⟨bp, rover, hfind, hrover, hcase⟩ := find_fit_spec hr asize
  obtain ⟨harena, hbrk⟩ := hr.holds.arena
  rw [allocate, hfind, ok_bind]
  obtain ⟨l, s, r, rfl, hle, -⟩ | ⟨rfl, -⟩ := hcase
  · simp only [span_append, span_cons, extent_nil] at hbrk
    have hlt : s < 2 ^ 31 := size_lt (g := c.mem_heap) hr.holds.room le_rfl (by omega)
    omega
  · have hchunk : CHUNKSIZE = 4096 := rfl
    have hmax : max asize CHUNKSIZE = asize := by omega
    have hsize : evenSize (asize / WSIZE) = asize := by
      rw [evenSize, size_t, size_t, WSIZE]
      split <;> omega
    have hsbrk := @mem_sbrk_eq_of_failed c { h with rover := rover } _ hr.holds.room
      ((mem_sbrk_rover rover _).trans hfail)
    refine ⟨{ h with rover := rover, sbrks := h.sbrks + 1 }, ?_, hr.of_eq rfl rfl rfl hrover, rfl⟩
    change growAndPlace c { h with rover := rover } asize = _
    rw [growAndPlace]
    simp only [hmax]
    rw [extend_heap, hsize, hsbrk, extendAt_failed]
    rfl

theorem adjusted_large (hlarge : 2 ^ 31 ≤ size + 15) (hwrap : size + 15 < 2 ^ 64) :
    adjusted size % 8 = 0 ∧ 2 ^ 31 ≤ adjusted size ∧ adjusted size < 2 ^ 64 := by
  rw [adjusted, DSIZE, if_neg (by omega), size_t, size_t]
  omega

theorem Refused.sbrk {h' : Heap} (hrefused : Refused c h asize)
    (heq : h.heap_listp ≠ NULL → h' = h) :
    (mem_sbrk c h' (toInt asize)).1 = FAILED := by
  obtain hneg | ⟨hset, hfail⟩ := hrefused
  · rw [mem_sbrk, if_pos (Or.inl hneg)]
  · rw [heq hset, hfail]

theorem Allocated.of_ready {h₁ h' : Heap} {bs' : List Block} {p : ℕ}
    (hsame : Same c h h₁ arenas (pre ++ [bs])) (heq : h.heap_listp ≠ NULL → h₁ = h)
    (hr : Ready c h₁ pre bs) (ha : Allocates c h₁ h' pre bs bs' p asize)
    (hsize : size + 8 ≤ asize) : Allocated c h h' arenas (pre ++ [bs']) p size := by
  obtain ⟨hready, hkeeps, hresult⟩ := ha
  rw [hsame.live] at hkeeps hresult
  refine ⟨hready.inv, fun hset => ?_, hsame.keeps.trans hkeeps, ?_⟩
  · rw [hready.heap_listp, ← hr.heap_listp, heq hset]
  obtain ⟨hp, hlive⟩ | ⟨x, n, hp, hn, hgains⟩ := hresult
  · exact Or.inl ⟨hp, hlive⟩
  · exact Or.inr ⟨x, n, hp, by omega, hgains⟩

theorem mm_malloc_inv (hi : Inv c h arenas)
    (hmeets : size = 0 ∨ SetUp c h ∧ SizeFits c h size) :
    ∃ p h' arenas', mm_malloc c h size = .ok (p, h') ∧ Allocated c h h' arenas arenas' p size := by
  obtain ⟨h₁, arenas₁, hlazy, hsame, heq, hready⟩ := lazyInit_inv hi
  rw [mm_malloc, hlazy, ok_bind]
  by_cases hzero : size = 0
  · rw [if_pos hzero]
    exact ⟨NULL, h₁, arenas₁, rfl, hsame.inv, fun hset => by rw [heq hset], hsame.keeps,
      Or.inl ⟨rfl, hsame.live⟩⟩
  · rw [if_neg hzero]
    obtain ⟨hset, hfits⟩ := hmeets.resolve_left hzero
    obtain ⟨pre, bs, rfl, hr⟩ := hready hset
    by_cases hsmall : size + 15 < 2 ^ 31
    · obtain ⟨ha8, hage, hale, halt⟩ := adjusted_spec (Nat.pos_of_ne_zero hzero) hsmall
      obtain ⟨p, h', bs', hok, hallocates⟩ := allocate_spec hr ha8 hage halt
      exact ⟨p, h', _, hok, Allocated.of_ready hsame heq hr hallocates hale⟩
    · obtain ⟨hwrap, hrefused⟩ := hfits.resolve_left hsmall
      obtain ⟨ha8, hage, halt⟩ := adjusted_large (Nat.le_of_not_lt hsmall) hwrap
      obtain ⟨h', hok, hr', hmem⟩ := allocate_refused hr ha8 hage halt (hrefused.sbrk heq)
      refine ⟨NULL, h', _, hok, hr'.inv, fun hset => ?_, ?_, Or.inl ⟨rfl, hsame.live⟩⟩
      · rw [hr'.heap_listp, ← hr.heap_listp, heq hset]
      · rw [hmem]
        exact hsame.keeps

/-! ## `mm_free` -/

/-- What freeing a block does. -/
structure Freed (c : Machine) (h h' : Heap) (arenas arenas' : List (List Block))
    (y : ℕ × Block) : Prop where
  inv : Inv c h' arenas'
  listp : h'.heap_listp = h.heap_listp
  live : Gains (liveBlocks c.mem_heap arenas') (liveBlocks c.mem_heap arenas) y
  keeps : Keeps (liveBlocks c.mem_heap arenas') h.mem h'.mem

theorem mm_free_inv (hi : Inv c h arenas) (hx : (x, b) ∈ liveBlocks c.mem_heap arenas) :
    ∃ h' arenas', mm_free c h (x + 4) = .ok h' ∧ Freed c h h' arenas arenas' (x, b) := by
  obtain ⟨s, allocated⟩ := b
  obtain ⟨pre, l, r, post, rfl, rfl, rfl⟩ := mem_liveBlocks hx
  have hlistp : h.heap_listp ≠ 0 := by
    intro hnull
    obtain ⟨-, hnil⟩ | hfailed | ⟨pre', bs, -, hr⟩ := hi.current
    · simp at hnil
    · exact absurd (hnull.symm.trans hfailed) (by decide)
    · have hlistp := hr.heap_listp
      omega
  obtain ⟨bs', m', rover, hok, hholds, hcoal, hgains, hkeeps, hrover, hout, hspan⟩ :=
    mm_free_spec hi.holds hi.coalesced hlistp rfl
  refine ⟨_, _, hok, ⟨hholds, hcoal, ?_⟩, rfl, hgains, hkeeps⟩
  obtain ⟨-, hnil⟩ | hfailed | ⟨pre', bs, heq, hr⟩ := hi.current
  · simp at hnil
  · exact Or.inr (Or.inl hfailed)
  · refine Or.inr (Or.inr ?_)
    obtain rfl | ⟨post, last, rfl⟩ := post.eq_nil_or_concat
    · obtain ⟨rfl, hbs⟩ := List.append_inj' heq rfl
      obtain rfl := (List.cons.inj hbs).1
      exact ⟨pre, bs', rfl, hholds, hcoal, hr.heap_listp,
        fun hnext => hrover hnext (hr.rover hnext)⟩
    · rw [List.concat_eq_append, ← List.cons_append, ← List.append_assoc] at heq
      obtain ⟨rfl, hbs⟩ := List.append_inj' heq rfl
      obtain rfl := (List.cons.inj hbs).1
      have hextent : extent (pre ++ bs' :: post) =
          extent (pre ++ (l ++ ⟨s, true⟩ :: r) :: post) := by
        rw [extent_append, extent_cons, hspan, ← extent_cons, ← extent_append]
      refine ⟨pre ++ bs' :: post, last, by simp, by simpa using hholds, by simpa using hcoal, ?_,
        ?_⟩
      · rw [hextent]
        exact hr.heap_listp
      · intro hnext
        obtain ⟨z, hz, hboundary⟩ := hr.rover hnext
        have hge := hboundary.bounds.1
        have hsame : rover = h.rover := by
          refine hout ?_
          rw [extent_append, extent_cons] at hge
          omega
        rw [hextent]
        exact ⟨z, hsame.trans hz, hboundary⟩

/-! ## `mm_realloc` -/

theorem Gains.mem_iff {y z : ℕ × Block} (hg : Gains live live' y) :
    z ∈ live' ↔ z = y ∨ z ∈ live := by
  obtain ⟨u, v, rfl, rfl⟩ := hg
  simp only [List.mem_append, List.mem_cons]
  exact or_left_comm

theorem Gains.apart {y z : ℕ × Block} (hg : Gains live (liveBlocks g arenas) y) (hz : z ∈ live) :
    z.1 + z.2.size ≤ y.1 ∨ y.1 + y.2.size ≤ z.1 := by
  have hpairwise := liveBlocks_pairwise g arenas
  obtain ⟨u, v, rfl, heq⟩ := hg
  rw [heq, List.pairwise_append, List.pairwise_cons] at hpairwise
  obtain ⟨-, ⟨hv, -⟩, hu⟩ := hpairwise
  obtain hz | hz := List.mem_append.mp hz
  · exact Or.inl (hu z hz y List.mem_cons_self)
  · exact Or.inr (hv z hz)

/-- A block in the place of another, with what was in it as far as it reaches. -/
structure Moved (c : Machine) (h h' : Heap) (arenas arenas' : List (List Block)) (y : ℕ × Block)
    (p size : ℕ) : Prop where
  inv : Inv c h' arenas'
  live : ∃ x n both, p = x + 4 ∧ size + 8 ≤ n ∧
    Gains (liveBlocks c.mem_heap arenas) both (x, ⟨n, true⟩) ∧
    Gains (liveBlocks c.mem_heap arenas') both y ∧
    ∀ z ∈ liveBlocks c.mem_heap arenas, z.1 + z.2.size ≤ x ∨ x + n ≤ z.1
  gone : ∀ z ∈ liveBlocks c.mem_heap arenas', z.1 + z.2.size ≤ y.1 ∨ y.1 + y.2.size ≤ z.1
  copied : ∀ i < min (y.2.size - 8) size, h'.mem (p + i) = h.mem (y.1 + 4 + i)
  keeps : ∀ z ∈ liveBlocks c.mem_heap arenas, z ≠ y →
    ∀ a, z.1 ≤ a → a < z.1 + z.2.size → h'.mem a = h.mem a

theorem memcpy_eq {dst src n : ℕ} (hsrc : InHeap c h src n) (hdst : InHeap c h dst n)
    (hapart : dst + n ≤ src ∨ src + n ≤ dst) :
    memcpy c h dst src n = .ok { h with mem := copy h.mem dst src n } := by
  rw [memcpy, if_neg (not_not.mpr hsrc), if_neg (not_not.mpr hdst), if_neg (by omega)]

theorem mm_realloc_inv (hi : Inv c h arenas) (hx : (x, b) ∈ liveBlocks c.mem_heap arenas)
    (hsize : size ≠ 0) (hset : SetUp c h) (hfits : SizeFits c h size) :
    ∃ p h' arenas', mm_realloc c h (x + 4) size = .ok (p, h') ∧
      (h.heap_listp ≠ NULL → h'.heap_listp = h.heap_listp) ∧
      (p = NULL ∧ Same c h h' arenas arenas' ∨ Moved c h h' arenas arenas' (x, b) p size) := by
  obtain ⟨p, h₁, arenas₁, hmalloc, hinv, hlistp, hkeeps, hresult⟩ :=
    mm_malloc_inv hi (Or.inr ⟨hset, hfits⟩)
  rw [mm_realloc, if_neg hsize, if_neg (by rw [NULL]; omega), hmalloc, ok_bind]
  obtain ⟨rfl, hlive⟩ | ⟨y, n, rfl, hn, hgains⟩ := hresult
  · exact ⟨NULL, h₁, arenas₁, rfl, hlistp, Or.inl ⟨rfl, hinv, hlive, hkeeps⟩⟩
  · have hx₁ := hgains.mem_iff.mpr (Or.inr hx)
    have hy₁ := hgains.mem_iff.mpr (Or.inl rfl)
    obtain ⟨hxat, hxlo, hxbrk, hxge, hx8⟩ := hinv.holds.live_at hx₁
    obtain ⟨-, hylo, hybrk, -⟩ := hinv.holds.live_at hy₁
    have hapart := hgains.apart hx
    simp only at hapart hybrk
    have hget : GET_SIZE c h₁ (HDRP (x + 4)) = .ok b.size := by
      rw [HDRP_add]
      exact GET_SIZE_eq ⟨by omega, by omega⟩ hxat.1 hx8
    obtain ⟨k, hk⟩ : ∃ k, k = if size < b.size then size else b.size := ⟨_, rfl⟩
    have hkle : k ≤ size ∧ k ≤ b.size := by
      rw [hk]
      split <;> omega
    have hcopy : memcpy c h₁ (y + 4) (x + 4) k =
        .ok { h₁ with mem := copy h₁.mem (y + 4) (x + 4) k } :=
      memcpy_eq ⟨by omega, by omega⟩ ⟨by omega, by omega⟩ (by omega)
    have hinv₂ : Inv c { h₁ with mem := copy h₁.mem (y + 4) (x + 4) k } arenas₁ :=
      hinv.payload hy₁ le_rfl (by simp only; omega) (sameOutside_copy _ _ _ _)
    obtain ⟨h', arenas', hfree, hfreed⟩ := mm_free_inv hinv₂ hx₁
    refine ⟨y + 4, h', arenas', ?_, fun hne => hfreed.listp.trans (hlistp hne), Or.inr ⟨hfreed.inv,
      ⟨y, n, _, rfl, hn, hgains, hfreed.live, fun z => hgains.apart⟩, fun z => hfreed.live.apart,
      fun i hilt => ?_, fun z hz hne a hza hlt => ?_⟩⟩
    · change (if y + 4 = NULL then _ else _) = _
      rw [if_neg (by rw [NULL]; omega), hget, ok_bind]
      simp only [← hk]
      rw [hcopy, ok_bind, hfree]
      rfl
    · simp only at hilt
      have hik : i < k := by
        rw [hk]
        split <;> omega
      have hy' : (y, ⟨n, true⟩) ∈ liveBlocks c.mem_heap arenas' := by
        have hmem := hfreed.live.mem_iff.mp hy₁
        refine hmem.resolve_left fun heq => ?_
        obtain ⟨rfl, rfl⟩ := Prod.mk.inj heq
        simp only at hapart
        omega
      calc h'.mem (y + 4 + i) = copy h₁.mem (y + 4) (x + 4) k (y + 4 + i) :=
            hfreed.keeps _ hy' _ (by omega) (by simp only; omega)
        _ = h₁.mem (x + 4 + i) := by
            rw [copy_of_inside (by omega) (by omega), Nat.add_sub_cancel_left]
        _ = h.mem (x + 4 + i) := hkeeps _ hx _ (by simp only; omega) (by simp only; omega)
    · have hz' : z ∈ liveBlocks c.mem_heap arenas' :=
        (hfreed.live.mem_iff.mp (hgains.mem_iff.mpr (Or.inr hz))).resolve_left hne
      have hzapart := hgains.apart hz
      simp only at hzapart
      calc h'.mem a = copy h₁.mem (y + 4) (x + 4) k a := hfreed.keeps z hz' a hza hlt
        _ = h₁.mem a := sameOutside_copy h₁.mem (y + 4) (x + 4) k a (by omega)
        _ = h.mem a := hkeeps z hz a hza hlt

end OsLabs.Malloc
