import OsLabs.Malloc.Tags

/-!
# Coalescing

`coalesce` at four words: the last of the block before, the two of the block, and the
first of what follows.
-/

namespace OsLabs.Malloc

open ByteMemory BoundaryTags Checked

variable {c : Machine} {h : Heap} {a x s : ℕ} {b p n : Block}

/-- The rover, kept out of what lies between two addresses. -/
def keptOut (c : Machine) (lo hi rover : ℕ) : ℕ :=
  if c.next_fit ∧ lo < rover ∧ rover < hi then lo else rover

theorem fixRover_eq (hin : InHeap c h a 4) (hw : word h.mem a = b.tag) (hsize : b.size % 8 = 0) :
    fixRover c h (a + 4) =
      .ok (a + 4, { h with rover := keptOut c (a + 4) (a + b.size + 4) h.rover }) := by
  rw [fixRover, keptOut]
  by_cases hnext : c.next_fit = true ∧ h.rover > a + 4
  · rw [if_pos hnext, NEXT_BLKP_eq hin hw hsize, ok_bind]
    by_cases hlt : h.rover < a + b.size + 4
    · rw [if_pos hlt, if_pos ⟨hnext.1, hnext.2, hlt⟩]
      rfl
    · rw [if_neg hlt, if_neg fun hand => hlt hand.2.2]
      rfl
  · rw [if_neg hnext, if_neg fun hand => hnext ⟨hand.1, hand.2.1⟩]
    rfl

section Cases

variable (hp : p.At h.mem x) (hb : (Block.mk s false).At h.mem (x + p.size))
  (hn : word h.mem (x + p.size + s) = n.tag) (hlo : c.mem_heap ≤ x)
  (hbrk : x + p.size + s + 4 ≤ h.mem_brk) (hpsize : p.size % 8 = 0) (hssize : s % 8 = 0)
  (hnsize : n.size % 8 = 0) (hpge : 8 ≤ p.size) (hsge : 8 ≤ s)

include hp hb hn hlo hbrk hpsize hssize hnsize hpge hsge

/-- What `coalesce` reads before it writes. -/
theorem coalesce_reads : coalesce c h (x + p.size + 4) =
    if p.allocated.toNat ≠ 0 ∧ n.allocated.toNat ≠ 0 then .ok (x + p.size + 4, h)
    else if p.allocated.toNat ≠ 0 ∧ n.allocated.toNat = 0 then joinNext c h (x + p.size + 4) s
    else if p.allocated.toNat = 0 ∧ n.allocated.toNat ≠ 0 then joinPrev c h (x + p.size + 4) s
    else joinBoth c h (x + p.size + 4) s := by
  have hxin : InHeap c h x 4 := ⟨hlo, by omega⟩
  have hfootin : InHeap c h (x + p.size - 4) 4 := ⟨by omega, by omega⟩
  have hain : InHeap c h (x + p.size) 4 := ⟨by omega, by omega⟩
  have hnin : InHeap c h (x + p.size + s) 4 := ⟨by omega, hbrk⟩
  rw [coalesce, PREV_BLKP_eq hfootin hp.2 hpsize, ok_bind, FTRP_eq hxin hp.1 hpsize, ok_bind,
    GET_ALLOC_eq hfootin hp.2 hpsize, ok_bind, NEXT_BLKP_eq hain hb.1 hssize, ok_bind, HDRP_add,
    GET_ALLOC_eq hnin hn hnsize, ok_bind, HDRP_add, GET_SIZE_eq hain hb.1 hssize, ok_bind]
  rfl

theorem coalesce_case1 (hpa : p.allocated = true) (hna : n.allocated = true) :
    coalesce c h (x + p.size + 4) = .ok (x + p.size + 4, h) := by
  rw [coalesce_reads hp hb hn hlo hbrk hpsize hssize hnsize hpge hsge, hpa, hna]
  rfl

theorem coalesce_case2 (hlt : s + n.size < 2 ^ 32) (hpa : p.allocated = true)
    (hna : n.allocated = false) (hend : x + p.size + s + n.size ≤ h.mem_brk) :
    coalesce c h (x + p.size + 4) = .ok (x + p.size + 4, { h with
      mem := writeTags h.mem (x + p.size) ⟨s + n.size, false⟩
      rover := keptOut c (x + p.size + 4) (x + p.size + (s + n.size) + 4) h.rover }) := by
  have hain : InHeap c h (x + p.size) 4 := ⟨by omega, by omega⟩
  have hnin : InHeap c h (x + p.size + s) 4 := ⟨by omega, hbrk⟩
  have hsum : size_t (s + n.size) = s + n.size := Nat.mod_eq_of_lt (by omega)
  have hwhole : (s + n.size) % 8 = 0 := by omega
  have htag : (Block.mk (s + n.size) false).tag < 2 ^ 32 := by
    simp only [Block.tag, Bool.toNat_false]
    omega
  rw [coalesce_reads hp hb hn hlo hbrk hpsize hssize hnsize hpge hsge, hpa, hna, if_neg (by simp),
    if_pos (by simp), joinNext, NEXT_BLKP_eq hain hb.1 hssize, ok_bind, HDRP_add,
    GET_SIZE_eq hnin hn hnsize, ok_bind, HDRP_add, hsum]
  refine (putTags_bind (b := ⟨s + n.size, false⟩) hain.1 ?_ ?_ hwhole htag _).trans ?_
  · simp only
    omega
  · simp only
    omega
  · exact fixRover_eq
      (h := { h with mem := writeTags h.mem (x + p.size) ⟨s + n.size, false⟩ }) hain
      (writeTags_at _ _ (by simp only; omega) htag).1 hwhole

theorem coalesce_case3 (hlt : p.size + s < 2 ^ 32) (hpa : p.allocated = false)
    (hna : n.allocated = true) :
    coalesce c h (x + p.size + 4) = .ok (x + 4, { h with
      mem := writeTags h.mem x ⟨p.size + s, false⟩
      rover := keptOut c (x + 4) (x + (p.size + s) + 4) h.rover }) := by
  have hxin : InHeap c h x 4 := ⟨hlo, by omega⟩
  have hfootin : InHeap c h (x + p.size - 4) 4 := ⟨by omega, by omega⟩
  have hain : InHeap c h (x + p.size) 4 := ⟨by omega, by omega⟩
  have hnin : InHeap c h (x + p.size + s) 4 := ⟨by omega, hbrk⟩
  have hendin : InHeap c h (x + p.size + s - 4) 4 := ⟨by omega, by omega⟩
  have hsum : size_t (s + p.size) = p.size + s := by
    rw [size_t, Nat.mod_eq_of_lt (by omega), Nat.add_comm]
  have hwhole : (p.size + s) % 8 = 0 := by omega
  have htag : (Block.mk (p.size + s) false).tag < 2 ^ 32 := by
    simp only [Block.tag, Bool.toNat_false]
    omega
  obtain ⟨t, ht⟩ : ∃ t, t = (Block.mk (p.size + s) false).tag := ⟨_, rfl⟩
  have hpack : PACK (p.size + s) 0 = t := ht ▸ PACK_eq false hwhole
  -- the last word of the block before is not written
  have hfoot1 : word (setWord h.mem (x + p.size + s - 4) t) (x + p.size - 4) = p.tag := by
    rw [word_setWord_of_disjoint (by omega), hp.2]
  have hfoot2 : word (setWord (setWord h.mem (x + p.size + s - 4) t) x t) (x + p.size - 4) =
      p.tag := by
    rw [word_setWord_of_disjoint (by omega), hfoot1]
  have hmem : setWord (setWord h.mem (x + p.size + s - 4) t) x t =
      writeTags h.mem x ⟨p.size + s, false⟩ := by
    rw [writeTags, ← ht, Nat.add_assoc x]
    exact setWord_comm (by omega)
  rw [coalesce_reads hp hb hn hlo hbrk hpsize hssize hnsize hpge hsge, hpa, hna, if_neg (by simp),
    if_neg (by simp), if_pos (by simp), joinPrev, PREV_BLKP_eq hfootin hp.2 hpsize, ok_bind,
    HDRP_add, GET_SIZE_eq hxin hp.1 hpsize, ok_bind, FTRP_eq hain hb.1 hssize, ok_bind, hsum, hpack,
    PUT_eq hendin, ok_bind,
    PREV_BLKP_eq (h := { h with mem := setWord h.mem (x + p.size + s - 4) t }) hfootin hfoot1
      hpsize, ok_bind, HDRP_add,
    PUT_eq (h := { h with mem := setWord h.mem (x + p.size + s - 4) t }) hxin, ok_bind,
    PREV_BLKP_eq (h := { h with mem := setWord (setWord h.mem (x + p.size + s - 4) t) x t }) hfootin
      hfoot2 hpsize, ok_bind, hmem]
  exact fixRover_eq (h := { h with mem := writeTags h.mem x ⟨p.size + s, false⟩ }) hxin
    (writeTags_at _ _ (by simp only; omega) htag).1 hwhole

theorem coalesce_case4 (hlt : p.size + s + n.size < 2 ^ 32) (hpa : p.allocated = false)
    (hna : n.allocated = false) (hnge : 8 ≤ n.size)
    (hnfoot : word h.mem (x + p.size + s + n.size - 4) = n.tag)
    (hend : x + p.size + s + n.size ≤ h.mem_brk) :
    coalesce c h (x + p.size + 4) = .ok (x + 4, { h with
      mem := writeTags h.mem x ⟨p.size + s + n.size, false⟩
      rover := keptOut c (x + 4) (x + (p.size + s + n.size) + 4) h.rover }) := by
  have hxin : InHeap c h x 4 := ⟨hlo, by omega⟩
  have hfootin : InHeap c h (x + p.size - 4) 4 := ⟨by omega, by omega⟩
  have hain : InHeap c h (x + p.size) 4 := ⟨by omega, by omega⟩
  have hnin : InHeap c h (x + p.size + s) 4 := ⟨by omega, hbrk⟩
  have hendin : InHeap c h (x + p.size + s + n.size - 4) 4 := ⟨by omega, by omega⟩
  have hsum : size_t (s + (p.size + n.size) % 2 ^ 32) = p.size + s + n.size := by
    rw [size_t]
    omega
  have hwhole : (p.size + s + n.size) % 8 = 0 := by omega
  have htag : (Block.mk (p.size + s + n.size) false).tag < 2 ^ 32 := by
    simp only [Block.tag, Bool.toNat_false]
    omega
  obtain ⟨t, ht⟩ : ∃ t, t = (Block.mk (p.size + s + n.size) false).tag := ⟨_, rfl⟩
  have hpack : PACK (p.size + s + n.size) 0 = t := ht ▸ PACK_eq false hwhole
  have hfoot1 : word (setWord h.mem x t) (x + p.size - 4) = p.tag := by
    rw [word_setWord_of_disjoint (by omega), hp.2]
  have hhead1 : word (setWord h.mem x t) (x + p.size) = (Block.mk s false).tag := by
    rw [word_setWord_of_disjoint (by omega), hb.1]
  have hnext1 : word (setWord h.mem x t) (x + p.size + s) = n.tag := by
    rw [word_setWord_of_disjoint (by omega), hn]
  have hfoot2 : word (setWord (setWord h.mem x t) (x + p.size + s + n.size - 4) t)
      (x + p.size - 4) = p.tag := by
    rw [word_setWord_of_disjoint (by omega), hfoot1]
  have hmem : setWord (setWord h.mem x t) (x + p.size + s + n.size - 4) t =
      writeTags h.mem x ⟨p.size + s + n.size, false⟩ := by
    rw [writeTags, ← ht]
    simp only [Nat.add_assoc]
  rw [coalesce_reads hp hb hn hlo hbrk hpsize hssize hnsize hpge hsge, hpa, hna, if_neg (by simp),
    if_neg (by simp), if_neg (by simp), joinBoth, PREV_BLKP_eq hfootin hp.2 hpsize, ok_bind,
    HDRP_add, GET_SIZE_eq hxin hp.1 hpsize, ok_bind, NEXT_BLKP_eq hain hb.1 hssize, ok_bind,
    FTRP_eq hnin hn hnsize, ok_bind, GET_SIZE_eq hendin hnfoot hnsize, ok_bind, ok_bind, HDRP_add,
    hsum, hpack, PUT_eq hxin, ok_bind,
    NEXT_BLKP_eq (h := { h with mem := setWord h.mem x t }) hain hhead1 hssize, ok_bind,
    FTRP_eq (h := { h with mem := setWord h.mem x t }) hnin hnext1 hnsize, ok_bind,
    PUT_eq (h := { h with mem := setWord h.mem x t }) hendin, ok_bind,
    PREV_BLKP_eq
      (h := { h with mem := setWord (setWord h.mem x t) (x + p.size + s + n.size - 4) t }) hfootin
      hfoot2 hpsize, ok_bind, hmem]
  exact fixRover_eq (h := { h with mem := writeTags h.mem x ⟨p.size + s + n.size, false⟩ }) hxin
    (writeTags_at _ _ (by simp only; omega) htag).1 hwhole

end Cases

end OsLabs.Malloc
