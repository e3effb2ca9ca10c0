import OsLabs.Malloc.Free

/-!
# Growing the heap

A new block takes the place of the epilogue, and is merged with the last block where that
one is free.
-/

namespace OsLabs.Malloc

open ByteMemory BoundaryTags Checked

variable {c : Machine} {h : Heap} {m m' : Memory} {g e : ℕ} {bs : List Block}
  {pre arenas : List (List Block)}

theorem toInt_eq (he : e < 2 ^ 31) : toInt e = e := Int.bmod_eq_of_le (by omega) (by omega)

theorem mem_sbrk_eq (c : Machine) (h : Heap) (n : ℕ) :
    mem_sbrk c h n = (FAILED, { h with sbrks := h.sbrks + 1 }) ∨
      h.mem_brk + n ≤ c.mem_heap + MAX_HEAP ∧
        mem_sbrk c h n =
          (h.mem_brk, { h with mem_brk := h.mem_brk + n, sbrks := h.sbrks + 1 }) := by
  rw [mem_sbrk]
  split
  · exact Or.inl rfl
  · next hroom =>
      refine Or.inr ⟨by omega, ?_⟩
      congr 2

/-- An address of the heap is not what `mem_sbrk` fails with. -/
theorem ne_failed {p : ℕ} (hp : p ≤ c.mem_heap + MAX_HEAP) : p ≠ FAILED := by
  have hfits := c.heap_fits
  have hfailed : FAILED = 18446744073709551615 := rfl
  omega

theorem extendAt_failed (size : ℕ) (h : Heap) : extendAt c size (FAILED, h) = .ok (NULL, h) :=
  by rw [extendAt, if_pos rfl]

/-- The block in the place of the epilogue, and the epilogue after it. -/
theorem extendAt_eq {size : ℕ} {h : Heap} {a : ℕ} (hlo : c.mem_heap ≤ a)
    (hbrk : a + size + 4 ≤ h.mem_brk) (hge : 16 ≤ size) (hsize : size % 8 = 0) (hlt : size < 2 ^ 31)
    (hbp : a + 4 ≠ FAILED) :
    extendAt c size (a + 4, h) = coalesce c { h with
      mem := setWord (writeTags h.mem a ⟨size, false⟩) (a + size) 1 } (a + 4) := by
  have htag : (Block.mk size false).tag < 2 ^ 32 := by
    simp only [Block.tag, Bool.toNat_false]
    omega
  have hin : InHeap c h a 4 := ⟨hlo, by omega⟩
  have hend : InHeap c h (a + size) 4 := ⟨by omega, hbrk⟩
  have hat := writeTags_at h.mem a (b := ⟨size, false⟩) (by simp only; omega) htag
  rw [extendAt, if_neg hbp, HDRP_add]
  refine (putTags_bind (b := ⟨size, false⟩) hlo (by simp only; omega) (by simp only; omega) hsize
    htag _).trans ?_
  rw [NEXT_BLKP_eq (h := { h with mem := writeTags h.mem a ⟨size, false⟩ }) hin hat.1 hsize,
    ok_bind, HDRP_add, PUT_eq (h := { h with mem := writeTags h.mem a ⟨size, false⟩ }) hend,
    ok_bind]
  rfl

theorem extend_heap_spec (hr : Ready c h pre bs) (he8 : e % 8 = 0) (hge : 16 ≤ e)
    (he : e < 2 ^ 31) :
    extend_heap c h (e / WSIZE) = .ok (NULL, { h with sbrks := h.sbrks + 1 }) ∨
      ∃ l lf m' rover', bs = l ++ lf ∧ (∀ b ∈ lf, b.allocated = false) ∧
        extend_heap c h (e / WSIZE) = .ok (c.mem_heap + extent pre + 12 + span l + 4,
          { h with mem := m', mem_brk := h.mem_brk + e, sbrks := h.sbrks + 1, rover := rover' }) ∧
        Ready c
          { h with mem := m', mem_brk := h.mem_brk + e, sbrks := h.sbrks + 1, rover := rover' } pre
          (l ++ [⟨span lf + e, false⟩]) ∧
        ∀ x < c.mem_heap + extent pre + 12 + span l, m' x = h.mem x := by
  have hsize : evenSize (e / WSIZE) = e := by
    rw [evenSize, size_t, size_t, WSIZE]
    split <;> omega
  rw [extend_heap, hsize, toInt_eq he]
  obtain hfail | ⟨hroom, hok⟩ := mem_sbrk_eq c h e
  · left
    rw [hfail, extendAt_failed]
  · right
    obtain ⟨harena, hbrk⟩ := hr.holds.arena
    have hsized := hr.holds.sized bs (by simp)
    rw [extent_nil] at hbrk
    obtain ⟨g, hg⟩ : ∃ g, g = c.mem_heap + extent pre := ⟨_, rfl⟩
    rw [← hg] at harena hbrk ⊢
    obtain ⟨m, hm⟩ : ∃ m, m = setWord (writeTags h.mem (g + 12 + span bs) ⟨e, false⟩)
      (g + 12 + span bs + e) 1 := ⟨_, rfl⟩
    have hbp : h.mem_brk = g + 12 + span bs + 4 := by omega
    have hbelow (x : ℕ) (hx : x < g + 12 + span bs) : m x = h.mem x := by
      rw [hm, setWord_of_outside (by omega)]
      exact sameOutside_writeTags h.mem _ (b := ⟨e, false⟩) (by simp only; omega) x (Or.inl hx)
    have htag : (Block.mk e false).tag < 2 ^ 32 := by
      simp only [Block.tag, Bool.toNat_false]
      omega
    have hnew : ArenaAt m g (bs ++ [⟨e, false⟩]) := by
      constructor
      · rw [← List.cons_append, tagged_append]
        refine ⟨harena.tagged.congr ?_ fun x _ hx => hbelow x ?_, ?_, trivial⟩
        · intro b hb
          have hge := (hr.holds.sized_prologue b hb).1
          omega
        · rw [span_cons, prologue_size] at hx
          omega
        · have haddr : g + 4 + span (prologue :: bs) = g + 12 + span bs := by
            rw [span_cons, prologue_size]
            omega
          rw [haddr]
          refine (writeTags_at h.mem _ (by simp only; omega) htag).congr (by simp only; omega)
            fun x _ hx => ?_
          rw [hm]
          exact setWord_of_outside (Or.inl hx)
      · rw [hm, span_append, span_cons, span_nil, ← Nat.add_assoc]
        exact word_setWord _ _ _
    obtain ⟨h', hh'⟩ : ∃ h' : Heap, h' = { h with
      mem := m, mem_brk := h.mem_brk + e, sbrks := h.sbrks + 1 } := ⟨_, rfl⟩
    have hextend : extendAt c e (mem_sbrk c h e) = coalesce c h' (g + 12 + span bs + 4) := by
      rw [hok, hbp, extendAt_eq (by omega) (by simp only; omega) hge he8 he
        (ne_failed (c := c) (by omega)), hh', hbp, hm]
    have hroom' : h'.mem_brk ≤ c.mem_heap + MAX_HEAP := hh' ▸ hroom
    have hsized' : ∀ b ∈ bs ++ [⟨e, false⟩], Sized b := by
      intro b hb
      obtain hb | hb := List.mem_append.mp hb
      · exact hsized b hb
      · exact List.mem_singleton.mp hb ▸ ⟨hge, he8⟩
    have hnew' : ArenaAt h'.mem g (bs ++ [⟨e, false⟩]) := by rwa [hh']
    have hbrk' : g + 16 + span (bs ++ [⟨e, false⟩]) ≤ h'.mem_brk := by
      rw [hh', span_append, span_cons, span_nil]
      simp only
      omega
    obtain ⟨l, lf, rf, r, m', rover', rfl, hrf, hfree, hlast, -, hcoal, harena', hsame, hrover⟩ :=
      coalesce_spec hnew' (by omega) hbrk' hroom' hsized' (hr.coalesced bs (by simp))
        List.IsChain.nil
    obtain ⟨rfl, rfl⟩ := List.nil_eq_append_iff.mp hrf
    simp only [span_nil, Nat.add_zero, List.append_nil] at harena' hsame hrover hfree
    have hspanlf : span lf % 8 = 0 :=
      span_mod fun b hb => (hsized b (List.mem_append_right _ hb)).2
    have hsame' (x : ℕ) (hx : x < g + 12 + span l) : m' x = h.mem x := by
      have hmem : h'.mem = m := by rw [hh']
      rw [hsame x (Or.inl hx), hmem]
      refine hbelow x ?_
      rw [span_append]
      omega
    have hcoalesced := hr.coalesced (l ++ lf) (List.mem_append_right _ (List.mem_singleton_self _))
    refine ⟨l, lf, m', rover', rfl, hfree, ?_, ?_, hsame'⟩
    · rw [hextend, hcoal, hh']
    · refine hr.update ?_ hroom rfl (hg ▸ harena') ?_ ?_ (fun x hx => hsame' x (by omega))
        fun hnext => ?_
      · simp only [span_append, span_cons, span_nil]
        omega
      · intro b hb
        obtain hb | hb := List.mem_append.mp hb
        · exact hsized b (List.mem_append_left _ hb)
        · obtain rfl := List.mem_singleton.mp hb
          refine ⟨?_, ?_⟩
          · simp only
            omega
          · simp only
            omega
      · exact coalesced_free_iff.mpr
          ⟨(List.isChain_append.mp hcoalesced).1, List.IsChain.nil, hlast, by simp⟩
      · obtain ⟨x, hx, hboundary⟩ := hr.rover hnext
        have hold : RoverAt g (l ++ (lf ++ [⟨e, false⟩]) ++ []) h'.rover := by
          refine ⟨x, by rw [hh', hx], ?_⟩
          have happend := (@boundary_append _ x _ [⟨e, false⟩]).mpr (Or.inl hboundary)
          simpa [hg] using happend
        have hnewRover := @RoverAt.keptOut c g l [] _ (span lf + e) h'.rover rover' hold (by simp)
          hnext ?_
        · simpa [hg] using hnewRover
        · obtain ⟨rfl, -, rfl⟩ | rfl := hrover
          · exact Or.inl ⟨by simp, rfl⟩
          · exact Or.inr rfl

/-- An arena begins, or `heap_listp` is what `mem_sbrk` fails with. -/
theorem mm_init_spec (hh : h.Holds c arenas) (hcoal : ∀ bs ∈ arenas, Coalesced bs) :
    (mem_sbrk c h (4 * WSIZE : ℕ)).1 = FAILED ∧
        mm_init c h = .ok (-1, { h with sbrks := h.sbrks + 1, heap_listp := FAILED }) ∨
      ∃ result h' bs, mm_init c h = .ok (result, h') ∧ Ready c h' arenas bs ∧
        (∀ b ∈ bs, b.allocated = false) ∧ ∀ x < h.mem_brk, h'.mem x = h.mem x := by
  obtain hfail | ⟨hroom, hok⟩ := mem_sbrk_eq c h (4 * WSIZE)
  · refine Or.inl ⟨by rw [hfail], ?_⟩
    rw [mm_init, hfail, initAt, if_pos rfl]
  · right
    obtain ⟨p, hp⟩ : ∃ p, p = h.mem_brk := ⟨_, rfl⟩
    have hbrk := hh.brk
    rw [WSIZE, ← hp] at hroom hok
    have hpack : PACK DSIZE 1 = 9 := rfl
    have hpack' : PACK 0 1 = 1 := rfl
    obtain ⟨m, hm⟩ : ∃ m, m = setWord (setWord (setWord (setWord h.mem p 0) (p + 4) 9) (p + 8) 9)
      (p + 12) 1 := ⟨_, rfl⟩
    obtain ⟨h', hh'⟩ : ∃ h' : Heap, h' = { h with
      mem := m, mem_brk := p + 4 * 4, sbrks := h.sbrks + 1, heap_listp := p + 2 * 4
      rover := if c.next_fit then p + 2 * 4 else h.rover } := ⟨_, rfl⟩
    have hput (q val : ℕ) (m : Memory) (hq : p ≤ q) (hend : q ≤ p + 12) :
        PUT c { h with mem := m, mem_brk := p + 4 * 4, sbrks := h.sbrks + 1 } q val =
          .ok { h with mem := setWord m q val, mem_brk := p + 4 * 4, sbrks := h.sbrks + 1 } :=
      if_pos ⟨by omega, by simp only; omega⟩
    have hinit : mm_init c h = extend_heap c h' (CHUNKSIZE / 4) >>= fun r =>
        .ok (if r.1 = NULL then -1 else 0, r.2) := by
      rw [mm_init, WSIZE, hok, initAt, if_neg (ne_failed (c := c) (by omega)), hpack, hpack',
        WSIZE, hput p _ _ (by omega) (by omega), ok_bind, hput _ _ _ (by omega) (by omega), ok_bind,
        hput _ _ _ (by omega) (by omega), ok_bind, hput _ _ _ (by omega) (by omega), ok_bind, hh',
        hm]
      rfl
    have hbelow (x : ℕ) (hx : x < p) : m x = h.mem x := by
      rw [hm, setWord_of_outside (by omega), setWord_of_outside (by omega),
        setWord_of_outside (by omega), setWord_of_outside (by omega)]
    have harena : ArenaAt m p [] := by
      constructor
      · refine ⟨⟨?_, ?_⟩, trivial⟩
        · rw [hm, word_setWord_of_disjoint (by omega), word_setWord_of_disjoint (by omega)]
          exact word_setWord _ _ _
        · rw [prologue_size, hm, word_setWord_of_disjoint (by omega)]
          exact word_setWord _ _ _
      · rw [hm]
        exact word_setWord _ _ _
    have hready : Ready c h' arenas [] := by
      have hpbrk : c.mem_heap + extent arenas = p := by omega
      refine ⟨⟨?_, ?_, ?_, ?_⟩, ?_, ?_, fun hnext => ?_⟩
      · rw [hh']
        refine arenasAt_append.mpr ⟨hh.layout.congr (fun bs hbs b hb => ?_) fun x _ hx => ?_, ?_,
          trivial⟩
        · have hge := (hh.sized bs hbs b hb).1
          omega
        · exact hbelow x (by omega)
        · rwa [hpbrk]
      · rw [hh', extent_append, extent_cons, extent_nil, span_nil]
        simp only
        omega
      · rw [hh']
        exact hroom
      · intro bs hbs
        obtain hbs | hbs := List.mem_append.mp hbs
        · exact hh.sized bs hbs
        · rw [List.mem_singleton.mp hbs]
          exact fun b hb => absurd hb List.not_mem_nil
      · intro bs hbs
        obtain hbs | hbs := List.mem_append.mp hbs
        · exact hcoal bs hbs
        · rw [List.mem_singleton.mp hbs]
          exact List.IsChain.nil
      · rw [hh', hpbrk]
      · rw [hh', hpbrk]
        exact ⟨p + 4, by simp [hnext], boundary_start ..⟩
    rw [hinit]
    obtain hfail | ⟨l, lf, m', rover', hnil, -, hextend, hready', hsame⟩ :=
      extend_heap_spec (e := CHUNKSIZE) hready rfl (by decide) (by decide)
    · rw [WSIZE] at hfail
      rw [hfail]
      refine ⟨_, _, [], rfl, hready.of_eq rfl rfl rfl hready.rover,
        fun b hb => absurd hb List.not_mem_nil, fun x hx => ?_⟩
      rw [hh']
      exact hbelow x (by omega)
    · rw [WSIZE] at hextend
      rw [hextend]
      obtain ⟨rfl, rfl⟩ := List.nil_eq_append_iff.mp hnil
      refine ⟨_, _, _, rfl, hready', by simp, fun x hx => ?_⟩
      refine (hsame x (by omega)).trans ?_
      rw [hh']
      exact hbelow x (by omega)

end OsLabs.Malloc
