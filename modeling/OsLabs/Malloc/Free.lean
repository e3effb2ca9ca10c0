import OsLabs.Malloc.Layout

/-!
# Freeing a block

A block that becomes free is merged with the free blocks next to it.
-/

namespace OsLabs.Malloc

open ByteMemory BoundaryTags Checked

variable {c : Machine} {h : Heap} {m m' : Memory} {g s x : ℕ} {b p n : Block}
  {bs bs' l l' lf r r' rf : List Block} {pre post arenas : List (List Block)}

/-- The sizes of an arena in the heap are far from the limit of a word. -/
theorem size_lt (hroom : h.mem_brk ≤ c.mem_heap + MAX_HEAP) (hlo : c.mem_heap ≤ g) {n : ℕ}
    (hbrk : g + n ≤ h.mem_brk) : n < 2 ^ 31 := by
  have hmax : MAX_HEAP < 2 ^ 31 := by decide
  omega

theorem coalesce_spec (harena : ArenaAt h.mem g (l ++ ⟨s, false⟩ :: r)) (hlo : c.mem_heap ≤ g)
    (hbrk : g + 16 + span (l ++ ⟨s, false⟩ :: r) ≤ h.mem_brk)
    (hroom : h.mem_brk ≤ c.mem_heap + MAX_HEAP)
    (hsized : ∀ b ∈ l ++ ⟨s, false⟩ :: r, Sized b) (hl : Coalesced l) (hr : Coalesced r) :
    ∃ l' lf rf r' m' rover', l = l' ++ lf ∧ r = rf ++ r' ∧
      (∀ b ∈ lf ++ rf, b.allocated = false) ∧
      (∀ b ∈ l'.getLast?, b.allocated = true) ∧ (∀ b ∈ r'.head?, b.allocated = true) ∧
      coalesce c h (g + 12 + span l + 4) =
        .ok (g + 12 + span l' + 4, { h with mem := m', rover := rover' }) ∧
      ArenaAt m' g (l' ++ [⟨span lf + s + span rf, false⟩] ++ r') ∧
      SameOutside (g + 12 + span l') (g + 12 + span l' + (span lf + s + span rf)) h.mem m' ∧
      (lf = [] ∧ rf = [] ∧ rover' = h.rover ∨
        rover' = keptOut c (g + 12 + span l' + 4)
          (g + 12 + span l' + (span lf + s + span rf) + 4) h.rover) := by
  obtain ⟨u, p, l', lf, hu, rfl, hpcase, hlast, hpmem⟩ := exists_before hl
  have htagged := harena.tagged
  rw [← List.cons_append, tagged_append] at htagged
  obtain ⟨hleft, hb, hright⟩ := htagged
  obtain ⟨x, hx⟩ : ∃ x, x = g + 4 + span u := ⟨_, rfl⟩
  have hspanl : 8 + span (l' ++ lf) = span u + p.size := by
    have hspan := congrArg span hu
    simpa using hspan
  have haddr : g + 12 + span (l' ++ lf) = x + p.size := by omega
  have hstart : g + 4 + span (prologue :: (l' ++ lf)) = x + p.size := by
    rw [← haddr, span_cons, prologue_size]
    omega
  have hpat : p.At h.mem x := by
    rw [hu, tagged_append] at hleft
    exact hx ▸ hleft.2.1
  obtain ⟨hpge, hp8⟩ : 8 ≤ p.size ∧ p.size % 8 = 0 := by
    obtain rfl | hp := hpmem
    · exact ⟨le_rfl, rfl⟩
    · have hsize := hsized p (List.mem_append_left _ hp)
      exact ⟨by have := hsize.1; omega, hsize.2⟩
  obtain ⟨hs, hs8⟩ : 16 ≤ s ∧ s % 8 = 0 := hsized ⟨s, false⟩ (by simp)
  rw [hstart] at hb hright
  have hend : word h.mem (x + p.size + s + span r) = 1 := by
    have hepilogue := harena.epilogue
    rw [span_append, span_cons, ← Nat.add_assoc, haddr] at hepilogue
    rwa [Nat.add_assoc (x + p.size)]
  obtain ⟨n, rf, r', rfl, hn, hn8, hncase, hhead⟩ := exists_after hr hright hend
    fun b hb => hsized b (by simp [hb])
  have hrange : x + p.size + s + span (rf ++ r') + 4 ≤ h.mem_brk := by
    rw [span_append, span_cons] at hbrk
    simp only at hbrk
    omega
  rw [span_append] at hrange
  have hlt : p.size + s + span rf < 2 ^ 31 := size_lt (g := x) hroom (by omega) (by omega)
  have hspanlf : span lf ≤ p.size := by
    obtain ⟨-, rfl⟩ | ⟨-, rfl⟩ := hpcase <;> simp
  obtain ⟨S, hS⟩ : ∃ S, S = span lf + s + span rf := ⟨_, rfl⟩
  have hwrite : ArenaAt (writeTags h.mem (g + 12 + span l') ⟨S, false⟩) g
        (l' ++ [⟨S, false⟩] ++ r') ∧
      SameOutside (g + 12 + span l') (g + 12 + span l' + S) h.mem
        (writeTags h.mem (g + 12 + span l') ⟨S, false⟩) := by
    have hsame := sameOutside_writeTags h.mem (g + 12 + span l') (b := ⟨S, false⟩)
      (by simp only; omega)
    refine ⟨?_, hsame⟩
    have hmid : span (lf ++ ⟨s, false⟩ :: rf) = S := by
      simp only [span_append, span_cons]
      omega
    refine ArenaAt.replace (u := lf ++ ⟨s, false⟩ :: rf) (by simpa using harena) ?_
      (by simpa using hsized) ⟨writeTags_at _ _ ?_ ?_, trivial⟩ ?_
    · rw [hmid]
      simp
    · simp only
      omega
    · simp only [Block.tag, Bool.toNat_false]
      omega
    · rwa [hmid]
  have hrun : ∃ m' rover', coalesce c h (x + p.size + 4) =
      .ok (g + 12 + span l' + 4, { h with mem := m', rover := rover' }) ∧
        (lf = [] ∧ rf = [] ∧ m' = h.mem ∧ rover' = h.rover ∨
          m' = writeTags h.mem (g + 12 + span l') ⟨S, false⟩ ∧
            rover' = keptOut c (g + 12 + span l' + 4) (g + 12 + span l' + S + 4) h.rover) := by
    obtain ⟨hpa, rfl⟩ | ⟨hpa, rfl⟩ := hpcase
    · rw [List.append_nil] at haddr
      obtain ⟨hna, rfl⟩ | ⟨hna, rfl⟩ := hncase
      · refine ⟨_, _, ?_, Or.inl ⟨rfl, rfl, rfl, rfl⟩⟩
        rw [haddr]
        exact coalesce_case1 hpat hb hn (by omega) (by omega) hp8 hs8 hn8 hpge (by omega) hpa hna
      · rw [span_cons, span_nil] at hS hlt hrange
        have hsum : S = s + n.size := by simpa using hS
        refine ⟨_, _, ?_, Or.inr ⟨rfl, rfl⟩⟩
        rw [haddr, hsum]
        exact coalesce_case2 hpat hb hn (by omega) (by omega) hp8 hs8 hn8 hpge (by omega)
          (by omega) hpa hna (by omega)
    · have hl' : g + 12 + span l' = x := by
        rw [span_append, span_cons, span_nil] at haddr
        omega
      obtain ⟨hna, rfl⟩ | ⟨hna, rfl⟩ := hncase
      · have hsum : S = p.size + s := by simpa using hS
        refine ⟨_, _, ?_, Or.inr ⟨rfl, rfl⟩⟩
        rw [hl', hsum]
        exact coalesce_case3 hpat hb hn (by omega) (by omega) hp8 hs8 hn8 hpge (by omega)
          (by omega) hpa hna
      · rw [span_cons, span_nil] at hlt hrange
        have hsum : S = p.size + s + n.size := by simpa using hS
        refine ⟨_, _, ?_, Or.inr ⟨rfl, rfl⟩⟩
        rw [hl', hsum]
        have hnge := (hsized n (by simp)).1
        exact coalesce_case4 hpat hb hn (by omega) (by omega) hp8 hs8 hn8 hpge (by omega)
          (by omega) hpa hna (by omega) hright.1.2 (by omega)
  obtain ⟨m', rover', hok, hresult⟩ := hrun
  rw [haddr]
  refine ⟨l', lf, rf, r', m', rover', rfl, rfl, ?_, hlast, hhead, hok, ?_⟩
  · rintro b hb
    obtain hb | hb := List.mem_append.mp hb
    · obtain ⟨-, rfl⟩ | ⟨hpa, rfl⟩ := hpcase
      · cases hb
      · exact List.mem_singleton.mp hb ▸ hpa
    · obtain ⟨-, rfl⟩ | ⟨hna, rfl⟩ := hncase
      · cases hb
      · exact List.mem_singleton.mp hb ▸ hna
  · rw [← hS]
    obtain ⟨rfl, rfl, rfl, rfl⟩ | ⟨rfl, rfl⟩ := hresult
    · have hsum : S = s := by simpa using hS
      exact ⟨by simpa [hsum] using harena, sameOutside_refl _ _ _, Or.inl ⟨rfl, rfl, rfl⟩⟩
    · exact ⟨hwrite.1, hwrite.2, Or.inr rfl⟩

/-- After blocks were merged the rover points to a block again. -/
theorem RoverAt.keptOut {cs : List Block} {S rover rover' : ℕ} (hr : RoverAt g (l ++ cs ++ r) rover)
    (hspan : span cs = S) (hnext : c.next_fit = true)
    (hrover : cs = [⟨S, false⟩] ∧ rover' = rover ∨
      rover' = keptOut c (g + 12 + span l + 4) (g + 12 + span l + S + 4) rover) :
    RoverAt g (l ++ [⟨S, false⟩] ++ r) rover' := by
  obtain ⟨rfl, rfl⟩ | rfl := hrover
  · exact hr
  · obtain ⟨x, rfl, hx⟩ := hr
    by_cases hinside : g + 12 + span l < x ∧ x < g + 12 + span l + S
    · rw [Malloc.keptOut, if_pos ⟨hnext, by omega, by omega⟩, List.append_assoc]
      exact roverAt_block _
    · rw [Malloc.keptOut, if_neg (by omega)]
      refine ⟨x, rfl, Boundary.join (l := prologue :: l) hx hspan ?_⟩
      simp only [span_cons, prologue_size]
      omega

/-! ## `mm_free` -/

/-- The allocated blocks have the bytes that they had. -/
def Keeps (live : List (ℕ × Block)) (m m' : Memory) : Prop :=
  ∀ y ∈ live, ∀ a, y.1 ≤ a → a < y.1 + y.2.size → m' a = m a

/-- One block more. -/
def Gains (live live' : List (ℕ × Block)) (y : ℕ × Block) : Prop :=
  ∃ u v, live = u ++ v ∧ live' = u ++ y :: v

theorem lazyInit_eq (h : Heap) (hlistp : h.heap_listp ≠ 0) : lazyInit c h = .ok h := if_neg hlistp

theorem mm_free_spec (hh : h.Holds c (pre ++ (l ++ ⟨s, true⟩ :: r) :: post))
    (hcoal : ∀ cs ∈ pre ++ (l ++ ⟨s, true⟩ :: r) :: post, Coalesced cs) (hlistp : h.heap_listp ≠ 0)
    (hg : g = c.mem_heap + extent pre) :
    ∃ bs' m' rover', mm_free c h (g + 12 + span l + 4) = .ok { h with mem := m', rover := rover' } ∧
      Heap.Holds c { h with mem := m', rover := rover' } (pre ++ bs' :: post) ∧
      (∀ cs ∈ pre ++ bs' :: post, Coalesced cs) ∧
      Gains (liveBlocks c.mem_heap (pre ++ bs' :: post))
        (liveBlocks c.mem_heap (pre ++ (l ++ ⟨s, true⟩ :: r) :: post))
        (g + 12 + span l, ⟨s, true⟩) ∧
      Keeps (liveBlocks c.mem_heap (pre ++ bs' :: post)) h.mem m' ∧
      (c.next_fit = true → RoverAt g (l ++ ⟨s, true⟩ :: r) h.rover → RoverAt g bs' rover') ∧
      (g + 16 + span (l ++ ⟨s, true⟩ :: r) ≤ h.rover → rover' = h.rover) ∧
      span bs' = span (l ++ ⟨s, true⟩ :: r) := by
  obtain ⟨harena, hbrk⟩ := hh.arena
  have hsized := hh.sized (l ++ ⟨s, true⟩ :: r) (by simp)
  obtain ⟨hs16, hs8⟩ := hsized ⟨s, true⟩ (by simp)
  have hroom := hh.room
  simp only at hs16 hs8
  rw [← hg] at harena hbrk
  have hspan : span (l ++ ⟨s, true⟩ :: r) = span l + (s + span r) := by simp
  have hlt : s < 2 ^ 31 := size_lt (g := g) hroom (by omega) (by omega)
  have hat : (Block.mk s true).At h.mem (g + 12 + span l) := by
    refine harena.tagged.2.at_of_mem (mem_positions.mpr ⟨l, r, rfl, ?_⟩)
    rw [prologue_size]
  have htag : (Block.mk s false).tag < 2 ^ 32 := by
    simp only [Block.tag, Bool.toNat_false]
    omega
  obtain ⟨m, hm⟩ : ∃ m, m = writeTags h.mem (g + 12 + span l) ⟨s, false⟩ := ⟨_, rfl⟩
  have hwrite : SameOutside (g + 12 + span l) (g + 12 + span l + s) h.mem m :=
    hm ▸ sameOutside_writeTags h.mem _ (b := ⟨s, false⟩) (by simp only; omega)
  have harena1 : ArenaAt m g (l ++ [⟨s, false⟩] ++ r) := by
    refine ArenaAt.replace (u := [⟨s, true⟩]) (by simpa using harena) (by simp)
      (by simpa using hsized) ⟨?_, trivial⟩ (by simpa using hwrite)
    rw [hm]
    exact writeTags_at _ _ (by simp only; omega) htag
  rw [List.append_assoc, List.singleton_append] at harena1
  have hsized1 : ∀ b ∈ l ++ ⟨s, false⟩ :: r, Sized b := by
    intro b hb
    obtain hb | hb := List.mem_append.mp hb
    · exact hsized b (List.mem_append_left _ hb)
    · obtain rfl | hb := List.mem_cons.mp hb
      · exact ⟨hs16, hs8⟩
      · exact hsized b (List.mem_append_right _ (List.mem_cons_of_mem _ hb))
  obtain ⟨hl, hr⟩ :=
    coalesced_allocated_iff.mp (hcoal (l ++ ⟨s, true⟩ :: r) (by simp))
  have hfree : mm_free c h (g + 12 + span l + 4) =
      coalesce c { h with mem := m } (g + 12 + span l + 4) >>= fun x => .ok x.2 := by
    have hin : InHeap c h (g + 12 + span l) 4 := ⟨by omega, by omega⟩
    rw [mm_free, if_neg (by rw [NULL]; omega), HDRP_add, GET_SIZE_eq hin hat.1 hs8, ok_bind,
      lazyInit_eq h hlistp, ok_bind]
    refine (putTags_bind (b := ⟨s, false⟩) (by omega) (by simp only; omega) (by simp only; omega)
      hs8 htag _).trans ?_
    rw [← hm]
    rfl
  have hspan1 : span (l ++ ⟨s, false⟩ :: r) = span (l ++ ⟨s, true⟩ :: r) := by simp
  obtain ⟨l', lf, rf, r', m', rover', rfl, rfl, hlrf, hlast, hhead, hok, harena', hsame, hrover⟩ :=
    coalesce_spec (h := { h with mem := m }) harena1 (by omega) (by simp only; omega) hroom hsized1
      hl hr
  obtain ⟨S, hS⟩ : ∃ S, S = span lf + s + span rf := ⟨_, rfl⟩
  have hmid : span (lf ++ ⟨s, true⟩ :: rf) = S := by
    simp only [span_append, span_cons, hS]
    omega
  have hmid1 : span (lf ++ ⟨s, false⟩ :: rf) = S := by
    simp only [span_append, span_cons, hS]
    omega
  rw [← hS] at harena' hsame hrover
  have hspan' : span (l' ++ [⟨S, false⟩] ++ r') =
      span (l' ++ lf ++ ⟨s, true⟩ :: (rf ++ r')) := by
    simp only [span_append, span_cons, span_nil, hS]
    omega
  have hsame' : SameOutside (g + 12 + span l') (g + 12 + span l' + S) h.mem m' := by
    refine (hwrite.mono ?_ ?_).trans hsame
    · rw [span_append]
      omega
    · rw [span_append, hS]
      omega
  have hlfree : ∀ b ∈ lf, b.allocated = false := fun b hb => hlrf b (List.mem_append_left _ hb)
  have hrfree : ∀ b ∈ rf, b.allocated = false := fun b hb => hlrf b (List.mem_append_right _ hb)
  refine ⟨l' ++ [⟨S, false⟩] ++ r', m', rover', ?_, ⟨?_, ?_, hroom, ?_⟩, ?_, ?_, ?_, ?_, ?_, hspan'⟩
  · rw [hfree, hok]
    rfl
  · refine hh.layout.replace (fun cs hcs b hb => ?_) (hg ▸ harena') hspan' (hsame'.mono ?_ ?_)
    · have hge := (hh.sized cs hcs b hb).1
      omega
    · omega
    · simp only [← hspan', span_append, span_cons, span_nil]
      omega
  · rw [extent_append, extent_cons, hspan', ← extent_cons, ← extent_append]
    exact hh.brk
  · refine forall_mem_replace hh.sized fun b hb => ?_
    obtain hb | hb := List.mem_append.mp hb
    · obtain hb | hb := List.mem_append.mp hb
      · exact hsized1 b (by simp [hb])
      · obtain rfl := List.mem_singleton.mp hb
        have hlf8 : span lf % 8 = 0 := span_mod fun b hb => (hsized1 b (by simp [hb])).2
        have hrf8 : span rf % 8 = 0 := span_mod fun b hb => (hsized1 b (by simp [hb])).2
        refine ⟨?_, ?_⟩
        · simp only
          omega
        · simp only
          omega
    · exact hsized1 b (by simp [hb])
  · refine forall_mem_replace hcoal ?_
    rw [List.append_assoc]
    exact coalesced_free_iff.mpr ⟨(List.isChain_append.mp hl).1, (List.isChain_append.mp hr).2.1,
      hlast, hhead⟩
  · refine ⟨liveBlocks c.mem_heap pre ++ inUse (g + 12) l',
      inUse (g + 12 + span l' + S) r' ++
        liveBlocks (g + (16 + span (l' ++ [⟨S, false⟩] ++ r'))) post, ?_, ?_⟩
    · rw [liveBlocks_append, liveBlocks, ← hg, inUse_append, inUse_append]
      simp [Nat.add_assoc]
    · have hend : g + 12 + span (l' ++ lf) + s + span rf = g + 12 + span l' + S := by
        rw [span_append, hS]
        omega
      rw [liveBlocks_append, liveBlocks, ← hg, hspan', inUse_append, inUse_append,
        inUse_free hlfree, inUse_cons_true, inUse_append, inUse_free hrfree, hend]
      simp
  · intro y hy a hya hlt
    have hapart := liveBlocks_apart (u := [⟨S, false⟩]) (by simp) hy
    simp only [span_cons, span_nil, ← hg] at hapart
    exact hsame' a (by omega)
  · intro hnext hold
    have hfreed : RoverAt g (l' ++ (lf ++ ⟨s, false⟩ :: rf) ++ r') h.rover := by
      have hsplit := @RoverAt.split g ⟨s, true⟩ (l' ++ lf) (rf ++ r') h.rover [⟨s, false⟩]
        (by simpa using hold) (by simp)
      simpa using hsplit
    refine hfreed.keptOut hmid1 hnext ?_
    obtain ⟨rfl, rfl, hrover⟩ | hrover := hrover
    · rw [span_nil, Nat.zero_add] at hS
      exact Or.inl ⟨by simp [hS], hrover⟩
    · exact Or.inr hrover
  · intro hout
    obtain ⟨-, -, hrover⟩ | hrover := hrover
    · exact hrover
    · rw [hrover, keptOut, if_neg]
      rw [← hspan', span_append, span_append, span_cons, span_nil] at hout
      simp only at hout ⊢
      omega

end OsLabs.Malloc
