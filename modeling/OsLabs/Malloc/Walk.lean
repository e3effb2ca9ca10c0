import OsLabs.Malloc.Invariant

/-!
# The heap as it is walked

What the words of the heap say when they are followed from `heap_listp`, and at the
pointers that the program holds.
-/

namespace OsLabs.Malloc

open ByteMemory BoundaryTags Checked

variable {c : Machine} {h : Heap} {m m' : Memory} {g s x fuel : ℕ} {b : Block}
  {bs l r : List Block} {pre post arenas : List (List Block)} {live live' : List (ℕ × Block)}
  {held : List (ℕ × ℕ)}

/-- The loop of `checkheap`: the pointers that it visits, and the one that it stops at. -/
def walk (c : Machine) (h : Heap) : ℕ → ℕ → Except Fault (List ℕ × ℕ)
  | 0, _ => .error .running
  | fuel + 1, bp => do
      if 0 < (← GET_SIZE c h (HDRP bp)) then do
        let (bps, last) ← walk c h fuel (← NEXT_BLKP c h bp)
        return (bp :: bps, last)
      else return ([], bp)

/-- What the header of a block says. -/
def blockAt (h : Heap) (bp : ℕ) : Block where
  size := word h.mem (HDRP bp) &&& (2 ^ 32 - 1 - 7)
  allocated := word h.mem (HDRP bp) &&& 1 ≠ 0

/-- Where the payload of a block ends. -/
def payloadEnd (h : Heap) (bp : ℕ) : ℕ := bp + (blockAt h bp).size - DSIZE

/-- The walk from the prologue, over blocks as they should be, to the epilogue. -/
def WalkSound (c : Machine) (h : Heap) (bps : List ℕ) : Prop :=
  walk c h h.mem_brk h.heap_listp = .ok (h.heap_listp :: bps, h.mem_brk) ∧
    blockAt h h.heap_listp = ⟨DSIZE, true⟩ ∧
    word h.mem (HDRP h.mem_brk) = PACK 0 1 ∧
    (∀ bp ∈ bps, bp % 8 = 0 ∧ (blockAt h bp).size % 8 = 0 ∧ 16 ≤ (blockAt h bp).size ∧
      word h.mem (payloadEnd h bp) = word h.mem (HDRP bp)) ∧
    bps.IsChain fun p q => (blockAt h p).allocated ∨ (blockAt h q).allocated

/-- The payloads that the program holds: allocated, large enough, in the heap, and apart. -/
def HeldSound (c : Machine) (h : Heap) (held : List (ℕ × ℕ)) : Prop :=
  (∀ y ∈ held, (blockAt h y.1).allocated = true ∧ y.1 % 8 = 0 ∧ c.mem_heap ≤ y.1 ∧
    y.1 + y.2 ≤ payloadEnd h y.1 ∧ payloadEnd h y.1 ≤ h.mem_brk) ∧
  held.Pairwise fun y z => payloadEnd h y.1 ≤ z.1 ∨ payloadEnd h z.1 ≤ y.1

theorem blockAt_eq (hat : b.At h.mem x) (h8 : b.size % 8 = 0) : blockAt h (x + 4) = b := by
  have hlt := word_lt h.mem x
  obtain ⟨size, allocated⟩ := b
  rw [blockAt, HDRP_add, and_not_seven hlt, Nat.and_one_is_mod, hat.1, Block.tag]
  simp only at h8
  cases allocated <;> simp <;> omega

theorem payloadEnd_eq (hat : b.At h.mem x) (h8 : b.size % 8 = 0) :
    payloadEnd h (x + 4) = x + b.size - 4 := by
  rw [payloadEnd, blockAt_eq hat h8, DSIZE]
  omega

theorem walk_eq {a : ℕ} (htag : Tagged h.mem a bs) (hlo : c.mem_heap ≤ a)
    (hbrk : a + span bs + 4 ≤ h.mem_brk) (hsize : ∀ b ∈ bs, 8 ≤ b.size ∧ b.size % 8 = 0)
    (hend : word h.mem (a + span bs) = 1) (hfuel : bs.length < fuel) :
    walk c h fuel (a + 4) = .ok ((positions a bs).map fun y => y.1 + 4, a + span bs + 4) := by
  induction bs generalizing a fuel with
  | nil =>
      obtain ⟨fuel, rfl⟩ := Nat.exists_eq_succ_of_ne_zero (Nat.ne_zero_of_lt hfuel)
      rw [walk, HDRP_add, GET_SIZE_eq (b := ⟨0, true⟩) ⟨hlo, by simp only [span_nil] at hbrk; omega⟩
        hend rfl]
      rfl
  | cons b bs ih =>
      obtain ⟨fuel, rfl⟩ := Nat.exists_eq_succ_of_ne_zero (Nat.ne_zero_of_lt hfuel)
      obtain ⟨hge, h8⟩ := hsize b List.mem_cons_self
      rw [span_cons] at hbrk hend
      have hin : InHeap c h a 4 := ⟨hlo, by omega⟩
      have hrest := @ih fuel (a + b.size) htag.2 (by omega) (by omega)
        (fun d hd => hsize d (List.mem_cons_of_mem _ hd)) (by rw [Nat.add_assoc a]; exact hend)
        (Nat.lt_of_succ_lt_succ hfuel)
      rw [walk, HDRP_add, GET_SIZE_eq hin htag.1.1 h8, ok_bind, if_pos (by omega),
        NEXT_BLKP_eq hin htag.1.1 h8, ok_bind, hrest, span_cons, Nat.add_assoc a]
      rfl

theorem span_sized (hsized : ∀ b ∈ bs, Sized b) : span bs % 8 = 0 :=
  span_mod fun b hb => (hsized b hb).2

theorem extent_sized (hsized : ∀ bs ∈ arenas, ∀ b ∈ bs, Sized b) : extent arenas % 8 = 0 := by
  induction arenas with
  | nil => rfl
  | cons bs rest ih =>
      have hbs := span_sized (hsized bs List.mem_cons_self)
      have hrest := ih fun cs hcs => hsized cs (List.mem_cons_of_mem _ hcs)
      rw [extent_cons]
      omega

theorem Ready.walkSound (hr : Ready c h pre bs) :
    WalkSound c h ((positions (c.mem_heap + extent pre + 12) bs).map fun y => y.1 + 4) := by
  obtain ⟨harena, hbrk⟩ := hr.holds.arena
  have hsize := hr.holds.sized_prologue
  have hsized := hr.holds.sized bs (by simp)
  have hpre := extent_sized fun cs hcs => hr.holds.sized cs (List.mem_append_left _ hcs)
  have haligned := c.heap_aligned
  rw [extent_nil] at hbrk
  have hend : word h.mem (c.mem_heap + extent pre + 4 + span (prologue :: bs)) = 1 := by
    rw [← harena.epilogue, span_cons, prologue_size]
    congr 1
    omega
  have hat {y : ℕ × Block} (hy : y ∈ positions (c.mem_heap + extent pre + 12) bs) :
      y.2.At h.mem y.1 := harena.tagged.2.at_of_mem hy
  have hmem {y : ℕ × Block} (hy : y ∈ positions (c.mem_heap + extent pre + 12) bs) :
      Sized y.2 ∧ (y.1 + 4) % 8 = 0 := by
    obtain ⟨x, b⟩ := y
    obtain ⟨l, r, rfl, rfl⟩ := mem_positions.mp hy
    refine ⟨hsized b (by simp), ?_⟩
    have hl := span_sized fun d hd => hsized d (List.mem_append_left _ hd)
    simp only
    omega
  refine ⟨?_, ?_, ?_, ?_, ?_⟩
  · have hlen := length_le_span fun b hb => (Nat.le_add_left 1 7).trans (hsize b hb).1
    have hspan : span (prologue :: bs) = 8 + span bs := by rw [span_cons, prologue_size]
    have hwalk := @walk_eq c h h.mem_brk (prologue :: bs) _ harena.tagged (by omega) (by omega)
      hsize hend (by omega)
    have hstop : c.mem_heap + extent pre + 4 + span (prologue :: bs) + 4 = h.mem_brk := by omega
    rw [hr.heap_listp, ← Nat.add_assoc _ 4 4, hwalk, hstop, positions_cons, List.map_cons,
      prologue_size]
  · rw [hr.heap_listp]
    exact blockAt_eq harena.tagged.1 rfl
  · have hepilogue := harena.epilogue
    have hlast : c.mem_heap + extent pre + 12 + span bs = HDRP h.mem_brk := by
      rw [HDRP, WSIZE]
      omega
    rw [← hlast, hepilogue]
    rfl
  · intro bp hbp
    obtain ⟨y, hy, rfl⟩ := List.mem_map.mp hbp
    obtain ⟨⟨hge, h8⟩, hbp8⟩ := hmem hy
    rw [blockAt_eq (hat hy) h8, payloadEnd_eq (hat hy) h8, HDRP_add]
    exact ⟨hbp8, h8, hge, (hat hy).2.trans (hat hy).1.symm⟩
  · rw [List.isChain_map]
    have hchain := hr.coalesced bs (by simp)
    rw [Coalesced, ← positions_map_snd (c.mem_heap + extent pre + 12) bs,
      List.isChain_map] at hchain
    refine hchain.imp_of_mem_imp fun y z hy hz halloc => ?_
    rwa [blockAt_eq (hat hy) (hmem hy).1.2, blockAt_eq (hat hz) (hmem hz).1.2]

/-- The pointers of the program are those of live blocks, each large enough. -/
def Holding (live : List (ℕ × Block)) (held : List (ℕ × ℕ)) : Prop :=
  (held.map Prod.fst).Nodup ∧ ∀ y ∈ held, ∃ x b, y.1 = x + 4 ∧ (x, b) ∈ live ∧ y.2 + 8 ≤ b.size

theorem liveBlocks_aligned (hh : h.Holds c arenas) (hx : (x, b) ∈ liveBlocks c.mem_heap arenas) :
    (x + 4) % 8 = 0 := by
  obtain ⟨pre, l, r, post, rfl, rfl, -⟩ := mem_liveBlocks hx
  have hpre := extent_sized fun cs hcs => hh.sized cs (List.mem_append_left _ hcs)
  have hl := span_sized fun d hd =>
    hh.sized (l ++ b :: r) (by simp) d (List.mem_append_left _ hd)
  have haligned := c.heap_aligned
  omega

theorem Heap.Holds.heldSound (hh : h.Holds c arenas)
    (hheld : Holding (liveBlocks c.mem_heap arenas) held) : HeldSound c h held := by
  obtain ⟨hnodup, hblock⟩ := hheld
  refine ⟨fun y hy => ?_, ?_⟩
  · obtain ⟨x, b, hyx, hx, hle⟩ := hblock y hy
    obtain ⟨hat, hlo, hbrk, hge, h8⟩ := hh.live_at hx
    rw [hyx, payloadEnd_eq hat h8, blockAt_eq hat h8]
    refine ⟨?_, liveBlocks_aligned hh hx, by omega, by omega, by omega⟩
    obtain ⟨pre, l, r, post, -, -, halloc⟩ := mem_liveBlocks hx
    exact halloc
  · refine (List.pairwise_map.mp hnodup).imp_of_mem fun {y z} hy hz hne => ?_
    obtain ⟨x, b, hyx, hx, -⟩ := hblock y hy
    obtain ⟨w, d, hzw, hw, -⟩ := hblock z hz
    obtain ⟨hat, -, -, hge, h8⟩ := hh.live_at hx
    obtain ⟨hatw, -, -, hgew, h8w⟩ := hh.live_at hw
    have hdisjoint := liveBlocks_disjoint hx hw fun heq =>
      hne (by rw [hyx, hzw, (Prod.mk.inj heq).1])
    rw [hyx, hzw, payloadEnd_eq hat h8, payloadEnd_eq hatw h8w]
    simp only at hdisjoint
    omega

end OsLabs.Malloc
