import OsLabs.Lib.ByteMemory

/-!
# The memory system

`memlib.c`, and the macros of `mm.c` that read and write words of the heap. An address
is the number of its byte; `size_t` has 64 bits, a word of the heap 32.
-/

namespace OsLabs.Malloc

open ByteMemory

inductive Fault
  /-- A read or a write outside the heap. -/
  | outside (p : ℕ)
  /-- `memcpy` of two ranges that overlap. -/
  | overlap
  /-- The fuel of a loop is used up. -/
  | running
deriving DecidableEq, Repr

/-- 100 MB -/
def MAX_HEAP : ℕ := 100 * 2 ^ 20

/-- What a run of the allocator is given. -/
structure Machine where
  /-- What `Malloc(MAX_HEAP)` returned. -/
  mem_heap : ℕ
  /-- `NEXT_FIT` is defined. -/
  next_fit : Bool
  /-- The calls of `mem_sbrk` that fail even where there is room. -/
  refused : ℕ → Bool
  heap_aligned : mem_heap % 8 = 0
  heap_pos : 0 < mem_heap
  heap_fits : mem_heap + MAX_HEAP < 2 ^ 63

structure Heap where
  mem : Memory
  mem_brk : ℕ
  /-- The calls of `mem_sbrk` so far. -/
  sbrks : ℕ
  heap_listp : ℕ
  rover : ℕ

def NULL : ℕ := 0

/-- `(void *)-1` -/
def FAILED : ℕ := 2 ^ 64 - 1

/-- The heap before the first call. -/
def mem_init (c : Machine) (m : Memory) : Heap where
  mem := m
  mem_brk := c.mem_heap
  sbrks := 0
  heap_listp := NULL
  rover := NULL

/-- A number in a `size_t`. -/
def size_t (n : ℕ) : ℕ := n % 2 ^ 64

/-- A `size_t` passed as an `int`. -/
def toInt (n : ℕ) : ℤ := Int.bmod n (2 ^ 32)

def mem_sbrk (c : Machine) (h : Heap) (incr : ℤ) : ℕ × Heap :=
  if incr < 0 ∨ h.mem_brk + incr > c.mem_heap + MAX_HEAP ∨ c.refused h.sbrks then
    (FAILED, { h with sbrks := h.sbrks + 1 })
  else
    (h.mem_brk, { h with mem_brk := (h.mem_brk + incr).toNat, sbrks := h.sbrks + 1 })

def WSIZE : ℕ := 4

def DSIZE : ℕ := 8

def CHUNKSIZE : ℕ := 2 ^ 12

def PACK (size alloc : ℕ) : ℕ := size ||| alloc

/-- The heap is what lies below `mem_brk`. -/
def InHeap (c : Machine) (h : Heap) (p n : ℕ) : Prop := c.mem_heap ≤ p ∧ p + n ≤ h.mem_brk

instance (c : Machine) (h : Heap) (p n : ℕ) : Decidable (InHeap c h p n) :=
  inferInstanceAs (Decidable (_ ∧ _))

def GET (c : Machine) (h : Heap) (p : ℕ) : Except Fault ℕ :=
  if InHeap c h p 4 then .ok (word h.mem p) else .error (.outside p)

def PUT (c : Machine) (h : Heap) (p val : ℕ) : Except Fault Heap :=
  if InHeap c h p 4 then .ok { h with mem := setWord h.mem p val } else .error (.outside p)

/-- `GET(p) & ~0x7` -/
def GET_SIZE (c : Machine) (h : Heap) (p : ℕ) : Except Fault ℕ := do
  return (← GET c h p) &&& (2 ^ 32 - 1 - 7)

def GET_ALLOC (c : Machine) (h : Heap) (p : ℕ) : Except Fault ℕ := do
  return (← GET c h p) &&& 1

/-- `ℕ` subtracts to `0`, which is outside the heap, as what C subtracts to is. -/
def HDRP (bp : ℕ) : ℕ := bp - WSIZE

def FTRP (c : Machine) (h : Heap) (bp : ℕ) : Except Fault ℕ := do
  return bp + (← GET_SIZE c h (HDRP bp)) - DSIZE

def NEXT_BLKP (c : Machine) (h : Heap) (bp : ℕ) : Except Fault ℕ := do
  return bp + (← GET_SIZE c h (bp - WSIZE))

def PREV_BLKP (c : Machine) (h : Heap) (bp : ℕ) : Except Fault ℕ := do
  return bp - (← GET_SIZE c h (bp - DSIZE))

def memcpy (c : Machine) (h : Heap) (dst src n : ℕ) : Except Fault Heap :=
  if ¬ InHeap c h src n then .error (.outside src)
  else if ¬ InHeap c h dst n then .error (.outside dst)
  else if src < dst + n ∧ dst < src + n then .error .overlap
  else .ok { h with mem := copy h.mem dst src n }

end OsLabs.Malloc
