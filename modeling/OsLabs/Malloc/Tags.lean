import OsLabs.Lib.BoundaryTags
import OsLabs.Lib.Checked
import OsLabs.Malloc.Allocator

namespace OsLabs.Malloc

open ByteMemory BoundaryTags Checked

variable {c : Machine} {h : Heap} {a x p : ℕ} {b d : Block}

theorem and_not_seven {w : ℕ} (hw : w < 2 ^ 32) : w &&& (2 ^ 32 - 1 - 7) = w / 8 * 8 := by
  have hmask : 2 ^ 32 - 1 - 7 = (2 ^ 29 - 1) <<< 3 := rfl
  have hround : w / 8 * 8 = (w >>> 3) <<< 3 := by
    rw [Nat.shiftRight_eq_div_pow, Nat.shiftLeft_eq]
  rw [hmask, hround]
  refine Nat.eq_of_testBit_eq fun i => ?_
  rw [Nat.testBit_and, Nat.testBit_shiftLeft, Nat.testBit_shiftLeft, Nat.testBit_two_pow_sub_one,
    Nat.testBit_shiftRight]
  by_cases hi : 3 ≤ i
  · by_cases h32 : i < 32
    · simp [hi, Nat.add_sub_cancel' hi]
      omega
    · have hlt : w < 2 ^ i := hw.trans_le (Nat.pow_le_pow_right (by omega) (by omega))
      simp [Nat.add_sub_cancel' hi, Nat.testBit_lt_two_pow hlt]
  · simp [hi]

theorem PACK_eq {size : ℕ} (alloc : Bool) (hsize : size % 8 = 0) :
    PACK size alloc.toNat = (Block.mk size alloc).tag := by
  obtain ⟨k, rfl⟩ := Nat.dvd_of_mod_eq_zero hsize
  cases alloc with
  | false => simp [PACK, Block.tag]
  | true =>
      rw [PACK, Block.tag]
      exact (Nat.two_pow_add_eq_or_of_lt (i := 3) (b := 1) (by omega) k).symm

theorem GET_eq (hin : InHeap c h p 4) : GET c h p = .ok (word h.mem p) := if_pos hin

theorem PUT_eq {val : ℕ} (hin : InHeap c h p 4) :
    PUT c h p val = .ok { h with mem := setWord h.mem p val } := if_pos hin

theorem GET_SIZE_eq (hin : InHeap c h p 4) (hw : word h.mem p = b.tag) (hsize : b.size % 8 = 0) :
    GET_SIZE c h p = .ok b.size := by
  have hlt := word_lt h.mem p
  rw [GET_SIZE, GET_eq hin, ok_bind, pure_eq_ok, and_not_seven hlt, hw, Block.tag]
  cases b.allocated <;> simp <;> omega

theorem GET_ALLOC_eq (hin : InHeap c h p 4) (hw : word h.mem p = b.tag) (hsize : b.size % 8 = 0) :
    GET_ALLOC c h p = .ok b.allocated.toNat := by
  rw [GET_ALLOC, GET_eq hin, ok_bind, pure_eq_ok, Nat.and_one_is_mod, hw, Block.tag]
  cases b.allocated <;> simp <;> omega

@[simp] theorem HDRP_add (a : ℕ) : HDRP (a + 4) = a := Nat.add_sub_cancel a 4

theorem FTRP_eq (hin : InHeap c h a 4) (hw : word h.mem a = b.tag) (hsize : b.size % 8 = 0) :
    FTRP c h (a + 4) = .ok (a + b.size - 4) := by
  rw [FTRP, HDRP_add, GET_SIZE_eq hin hw hsize, ok_bind, pure_eq_ok, DSIZE]
  congr 1
  omega

theorem NEXT_BLKP_eq (hin : InHeap c h a 4) (hw : word h.mem a = b.tag) (hsize : b.size % 8 = 0) :
    NEXT_BLKP c h (a + 4) = .ok (a + b.size + 4) := by
  rw [NEXT_BLKP, WSIZE, Nat.add_sub_cancel, GET_SIZE_eq hin hw hsize, ok_bind, pure_eq_ok]
  congr 1
  omega

/-- From a block to the one before it, by the last word of that. -/
theorem PREV_BLKP_eq (hin : InHeap c h (x + b.size - 4) 4)
    (hb : word h.mem (x + b.size - 4) = b.tag)
    (hsize : b.size % 8 = 0) : PREV_BLKP c h (x + b.size + 4) = .ok (x + 4) := by
  have heq : x + b.size + 4 - DSIZE = x + b.size - 4 := by
    rw [DSIZE]
    omega
  rw [PREV_BLKP, heq, GET_SIZE_eq hin hb hsize, ok_bind, pure_eq_ok]
  congr 1
  omega

/-- The two words that mark a block. -/
theorem putTags_bind {β : Type} (hlo : c.mem_heap ≤ a) (hbrk : a + b.size ≤ h.mem_brk)
    (hge : 8 ≤ b.size) (hsize : b.size % 8 = 0) (htag : b.tag < 2 ^ 32)
    (k : Heap → Except Fault β) :
    (do
      let h ← PUT c h a (PACK b.size b.allocated.toNat)
      let h ← PUT c h (← FTRP c h (a + 4)) (PACK b.size b.allocated.toNat)
      k h) = k { h with mem := writeTags h.mem a b } := by
  have hword : word (setWord h.mem a b.tag) a = b.tag :=
    (word_setWord _ _ _).trans (Nat.mod_eq_of_lt htag)
  have hpack : PACK b.size b.allocated.toNat = b.tag := PACK_eq b.allocated hsize
  have hhead : InHeap c h a 4 := ⟨hlo, by omega⟩
  have hfoot : InHeap c h (a + b.size - 4) 4 := ⟨by omega, by omega⟩
  rw [hpack, PUT_eq hhead, ok_bind,
    FTRP_eq (h := { h with mem := setWord h.mem a b.tag }) hhead hword hsize, ok_bind,
    PUT_eq (h := { h with mem := setWord h.mem a b.tag }) hfoot, ok_bind]
  rfl

theorem putTags_eq (hlo : c.mem_heap ≤ a) (hbrk : a + b.size ≤ h.mem_brk)
    (hge : 8 ≤ b.size) (hsize : b.size % 8 = 0) (htag : b.tag < 2 ^ 32) :
    (do
      let h ← PUT c h a (PACK b.size b.allocated.toNat)
      PUT c h (← FTRP c h (a + 4)) (PACK b.size b.allocated.toNat)) =
        .ok { h with mem := writeTags h.mem a b } := by
  have hbind := @putTags_bind c h a b Heap hlo hbrk hge hsize htag .ok
  have hok (x : Except Fault Heap) : (x >>= .ok) = x := by cases x <;> rfl
  simpa only [hok] using hbind

end OsLabs.Malloc
