import Mathlib

/-!
# The free-list allocator of `malloc.py`

`none` as the result of a call stands for an exception: the assertion of
`addToMap`, the `abort` of `malloc`, or an index out of range.
-/

namespace OsLabs.FreeSpace

inductive Policy
  | first
  | best
  | worst
  deriving DecidableEq, Repr

inductive Order
  | addrsort
  | sizesortUp
  | sizesortDown
  | insertFront
  | insertBack
  deriving DecidableEq, Repr

structure Config where
  size : ℕ
  start : ℤ
  headerSize : ℕ
  policy : Policy
  returnPolicy : Order
  coalesce : Bool
  align : ℤ
  align_ok : align = -1 ∨ 0 < align

theorem unaligned_ok : (-1 : ℤ) = -1 ∨ (0 : ℤ) < -1 := .inl rfl

/-- An entry of `freelist`, and of `sizemap`, is an address with a size. -/
abbrev Entry := ℤ × ℤ

structure State where
  freelist : List Entry
  sizemap : List Entry
  deriving DecidableEq, Repr

def Config.init (c : Config) : State := ⟨[(c.start, (c.size : ℤ))], []⟩

def addToMap (sizemap : List Entry) (addr size : ℤ) : Option (List Entry) :=
  if (sizemap.lookup addr).isSome then none else some (sizemap ++ [(addr, size)])

/-! ## `malloc` -/

def roundedSize (c : Config) (size : ℤ) : ℤ :=
  if c.align ≠ -1 then
    let left := size % c.align
    size + if left ≠ 0 then c.align - left else 0
  else size

/-- The variables of the search; `best` is `bestIdx` with `bestAddr`, and
`none` before the first hit, where `bestIdx` is `-1`. -/
structure Search where
  best : Option (ℕ × ℤ)
  bestSize : ℤ
  count : ℕ
  deriving DecidableEq, Repr

def Config.searchInit (c : Config) : Search where
  best := none
  bestSize := match c.policy with
    | .best => c.size + 1
    | .worst | .first => -1
  count := 0

def Config.takes (c : Config) (size bestSize esize : ℤ) : Bool :=
  decide (esize ≥ size) && match c.policy with
    | .best => decide (esize < bestSize)
    | .worst => decide (esize > bestSize)
    | .first => true

/-- The `for` loop of `malloc` from index `i` on. -/
def searchFrom (c : Config) (size : ℤ) : List Entry → ℕ → Search → Search
  | [], _, b => b
  | (eaddr, esize) :: rest, i, b =>
      let count := b.count + 1
      if c.takes size b.bestSize esize then
        if c.policy = .first then ⟨some (i, eaddr), esize, count⟩
        else searchFrom c size rest (i + 1) ⟨some (i, eaddr), esize, count⟩
      else searchFrom c size rest (i + 1) { b with count }

def requestSize (c : Config) (size : ℤ) : ℤ := roundedSize c size + c.headerSize

def malloc (c : Config) (s : State) (request : ℤ) : Option (State × ℤ × ℕ) :=
  let size := requestSize c request
  let b := searchFrom c size s.freelist 0 c.searchInit
  match b.best with
  | some (bestIdx, bestAddr) =>
      if b.bestSize > size then do
        let sizemap ← addToMap s.sizemap bestAddr size
        some (⟨s.freelist.set bestIdx (bestAddr + size, b.bestSize - size), sizemap⟩,
          bestAddr, b.count)
      else if b.bestSize = size then do
        let sizemap ← addToMap s.sizemap bestAddr size
        some (⟨s.freelist.eraseIdx bestIdx, sizemap⟩, bestAddr, b.count)
      else none
  | none => some (s, -1, b.count)

/-! ## `free` -/

/-- `sorted` is stable, also with `reverse=True`. -/
def Config.insert (c : Config) (freelist : List Entry) (e : Entry) : List Entry :=
  match c.returnPolicy with
  | .insertBack => freelist ++ [e]
  | .insertFront => e :: freelist
  | .addrsort => (freelist ++ [e]).insertionSort fun a b => a.1 ≤ b.1
  | .sizesortUp => (freelist ++ [e]).insertionSort fun a b => a.2 ≤ b.2
  | .sizesortDown => (freelist ++ [e]).insertionSort fun a b => b.2 ≤ a.2

/-- The coalescing pass, with `curr` the extent that grows. -/
def coalesceFrom : Entry → List Entry → List Entry
  | curr, [] => [curr]
  | curr, (eaddr, esize) :: rest =>
      if eaddr = curr.1 + curr.2 then coalesceFrom (curr.1, curr.2 + esize) rest
      else curr :: coalesceFrom (eaddr, esize) rest

def coalescePass : List Entry → Option (List Entry)
  | [] => none
  | curr :: rest => some (coalesceFrom curr rest)

def free (c : Config) (s : State) (addr : ℤ) : Option (State × ℤ) :=
  match s.sizemap.lookup addr with
  | none => some (s, -1)
  | some size => do
      let freelist := c.insert s.freelist (addr, size)
      let freelist ← if c.coalesce then coalescePass freelist else some freelist
      some (⟨freelist, s.sizemap.eraseP fun e => e.1 == addr⟩, 0)

/-! ## Runs -/

inductive Op
  | malloc (size : ℤ)
  | free (addr : ℤ)
  deriving DecidableEq, Repr

def step (c : Config) (s : State) : Op → Option State
  | .malloc size => (malloc c s size).map Prod.fst
  | .free addr => (free c s addr).map Prod.fst

/-- Every request asks for at least one byte. -/
def positiveRequest (_ : State) : Op → Prop
  | .malloc size => 1 ≤ size
  | .free _ => True

instance (s : State) (op : Op) : Decidable (positiveRequest s op) := by
  cases op <;> unfold positiveRequest <;> infer_instance

end OsLabs.FreeSpace
