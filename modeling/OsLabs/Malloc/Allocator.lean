import OsLabs.Malloc.Memlib

/-!
# The allocator

`mm.c`: an implicit list of blocks with boundary tags.
-/

namespace OsLabs.Malloc

variable (c : Machine)

/-- The end of `coalesce`, where the rover is kept out of a block. -/
def fixRover (h : Heap) (bp : ℕ) : Except Fault (ℕ × Heap) :=
  if c.next_fit ∧ h.rover > bp then do
    if h.rover < (← NEXT_BLKP c h bp) then return (bp, { h with rover := bp })
    else return (bp, h)
  else return (bp, h)

/-- Case 2 of `coalesce` -/
def joinNext (h : Heap) (bp size : ℕ) : Except Fault (ℕ × Heap) := do
  let size := size_t (size + (← GET_SIZE c h (HDRP (← NEXT_BLKP c h bp))))
  let h ← PUT c h (HDRP bp) (PACK size 0)
  let h ← PUT c h (← FTRP c h bp) (PACK size 0)
  fixRover c h bp

/-- Case 3 -/
def joinPrev (h : Heap) (bp size : ℕ) : Except Fault (ℕ × Heap) := do
  let size := size_t (size + (← GET_SIZE c h (HDRP (← PREV_BLKP c h bp))))
  let h ← PUT c h (← FTRP c h bp) (PACK size 0)
  let h ← PUT c h (HDRP (← PREV_BLKP c h bp)) (PACK size 0)
  fixRover c h (← PREV_BLKP c h bp)

/-- Case 4 -/
def joinBoth (h : Heap) (bp size : ℕ) : Except Fault (ℕ × Heap) := do
  -- the sum of two `unsigned int`
  let both := ((← GET_SIZE c h (HDRP (← PREV_BLKP c h bp))) +
    (← GET_SIZE c h (← FTRP c h (← NEXT_BLKP c h bp)))) % 2 ^ 32
  let size := size_t (size + both)
  let h ← PUT c h (HDRP (← PREV_BLKP c h bp)) (PACK size 0)
  let h ← PUT c h (← FTRP c h (← NEXT_BLKP c h bp)) (PACK size 0)
  fixRover c h (← PREV_BLKP c h bp)

def coalesce (h : Heap) (bp : ℕ) : Except Fault (ℕ × Heap) := do
  let prev_alloc ← GET_ALLOC c h (← FTRP c h (← PREV_BLKP c h bp))
  let next_alloc ← GET_ALLOC c h (HDRP (← NEXT_BLKP c h bp))
  let size ← GET_SIZE c h (HDRP bp)
  if prev_alloc ≠ 0 ∧ next_alloc ≠ 0 then return (bp, h)
  else if prev_alloc ≠ 0 ∧ next_alloc = 0 then joinNext c h bp size
  else if prev_alloc = 0 ∧ next_alloc ≠ 0 then joinPrev c h bp size
  else joinBoth c h bp size

/-- `extend_heap` from the result of `mem_sbrk` on. -/
def extendAt (size : ℕ) : ℕ × Heap → Except Fault (ℕ × Heap)
  | (bp, h) =>
    if bp = FAILED then .ok (NULL, h)
    else do
      let h ← PUT c h (HDRP bp) (PACK size 0)
      let h ← PUT c h (← FTRP c h bp) (PACK size 0)
      let h ← PUT c h (HDRP (← NEXT_BLKP c h bp)) (PACK 0 1)
      coalesce c h bp

/-- An even number of words, in bytes. -/
def evenSize (words : ℕ) : ℕ :=
  if words % 2 = 1 then size_t ((words + 1) * WSIZE) else size_t (words * WSIZE)

def extend_heap (h : Heap) (words : ℕ) : Except Fault (ℕ × Heap) :=
  extendAt c (evenSize words) (mem_sbrk c h (toInt (evenSize words)))

/-- `mm_init` from the result of `mem_sbrk` on. -/
def initAt : ℕ × Heap → Except Fault (ℤ × Heap)
  | (p, h) =>
    if p = FAILED then .ok (-1, { h with heap_listp := p })
    else do
      let h ← PUT c h p 0
      let h ← PUT c h (p + 1 * WSIZE) (PACK DSIZE 1)
      let h ← PUT c h (p + 2 * WSIZE) (PACK DSIZE 1)
      let h ← PUT c h (p + 3 * WSIZE) (PACK 0 1)
      let p := p + 2 * WSIZE
      let (bp, h) ← extend_heap c
        { h with heap_listp := p, rover := if c.next_fit then p else h.rover } (CHUNKSIZE / WSIZE)
      return (if bp = NULL then -1 else 0, h)

def mm_init (h : Heap) : Except Fault (ℤ × Heap) := initAt c (mem_sbrk c h (4 * WSIZE : ℕ))

/-- A loop of `find_fit`: the first fit, or where the loop stops. -/
def searchFrom (h : Heap) (asize : ℕ) (more : ℕ → Except Fault Bool) :
    ℕ → ℕ → Except Fault (ℕ × Bool)
  | 0, _ => .error .running
  | fuel + 1, bp => do
      if ← more bp then do
        let alloc ← GET_ALLOC c h (HDRP bp)
        let size ← GET_SIZE c h (HDRP bp)
        if alloc = 0 ∧ asize ≤ size then return (bp, true)
        else searchFrom h asize more fuel (← NEXT_BLKP c h bp)
      else return (bp, false)

/-- `GET_SIZE(HDRP(bp)) > 0` -/
def notLast (h : Heap) (bp : ℕ) : Except Fault Bool := do
  return 0 < (← GET_SIZE c h (HDRP bp))

def firstFit (h : Heap) (asize : ℕ) : Except Fault ℕ := do
  let (bp, found) ← searchFrom c h asize (notLast c h) h.mem_brk h.heap_listp
  return if found then bp else NULL

def nextFit (h : Heap) (asize : ℕ) : Except Fault (ℕ × Heap) := do
  let oldrover := h.rover
  let (rover, found) ← searchFrom c h asize (notLast c h) h.mem_brk oldrover
  if found then return (rover, { h with rover := rover })
  else do
    let (rover, found) ←
      searchFrom c h asize (fun bp => .ok (bp < oldrover)) h.mem_brk h.heap_listp
    return (if found then rover else NULL, { h with rover := rover })

def find_fit (h : Heap) (asize : ℕ) : Except Fault (ℕ × Heap) :=
  if c.next_fit then nextFit c h asize
  else do
    let bp ← firstFit c h asize
    return (bp, h)

def place (h : Heap) (bp asize : ℕ) : Except Fault Heap := do
  let csize ← GET_SIZE c h (HDRP bp)
  -- `csize - asize`
  let rest := size_t (csize + 2 ^ 64 - asize)
  if rest ≥ 2 * DSIZE then do
    let h ← PUT c h (HDRP bp) (PACK asize 1)
    let h ← PUT c h (← FTRP c h bp) (PACK asize 1)
    let bp ← NEXT_BLKP c h bp
    let h ← PUT c h (HDRP bp) (PACK rest 0)
    PUT c h (← FTRP c h bp) (PACK rest 0)
  else do
    let h ← PUT c h (HDRP bp) (PACK csize 1)
    PUT c h (← FTRP c h bp) (PACK csize 1)

/-- `if (heap_listp == 0) mm_init();` -/
def lazyInit (h : Heap) : Except Fault Heap :=
  if h.heap_listp = 0 then do
    let (_, h) ← mm_init c h
    return h
  else return h

def adjusted (size : ℕ) : ℕ :=
  if size ≤ DSIZE then 2 * DSIZE
  else size_t (DSIZE * (size_t (size + DSIZE + (DSIZE - 1)) / DSIZE))

/-- `mm_malloc` where no block fits. -/
def growAndPlace (h : Heap) (asize : ℕ) : Except Fault (ℕ × Heap) := do
  let extendsize := max asize CHUNKSIZE
  let (bp, h) ← extend_heap c h (extendsize / WSIZE)
  if bp = NULL then return (NULL, h)
  else do
    let h ← place c h bp asize
    return (bp, h)

/-- `mm_malloc` from the search on. -/
def allocate (h : Heap) (asize : ℕ) : Except Fault (ℕ × Heap) := do
  let (bp, h) ← find_fit c h asize
  if bp ≠ NULL then do
    let h ← place c h bp asize
    return (bp, h)
  else growAndPlace c h asize

def mm_malloc (h : Heap) (size : ℕ) : Except Fault (ℕ × Heap) := do
  let h ← lazyInit c h
  if size = 0 then return (NULL, h)
  else allocate c h (adjusted size)

def mm_free (h : Heap) (bp : ℕ) : Except Fault Heap :=
  if bp = NULL then return h
  else do
    let size ← GET_SIZE c h (HDRP bp)
    let h ← lazyInit c h
    let h ← PUT c h (HDRP bp) (PACK size 0)
    let h ← PUT c h (← FTRP c h bp) (PACK size 0)
    let (_, h) ← coalesce c h bp
    return h

def mm_realloc (h : Heap) (ptr size : ℕ) : Except Fault (ℕ × Heap) :=
  if size = 0 then do
    let h ← mm_free c h ptr
    return (NULL, h)
  else if ptr = NULL then mm_malloc c h size
  else do
    let (newptr, h) ← mm_malloc c h size
    if newptr = NULL then return (NULL, h)
    else do
      let oldsize ← GET_SIZE c h (HDRP ptr)
      let oldsize := if size < oldsize then size else oldsize
      let h ← memcpy c h newptr ptr oldsize
      let h ← mm_free c h ptr
      return (newptr, h)

end OsLabs.Malloc
