import OsLabs.Lib.BoundedStack
import OsLabs.Lib.ByteMemory
import OsLabs.Lib.CNumber

/-!
# The persistent stack

`pstack.c`: the file `ps.img` is mapped to memory, and each invocation works on the stack in it.
-/

namespace OsLabs.Pstack

open OsLabs.ByteMemory OsLabs.CNumber

inductive Fault
  | assertion
  /-- An access outside the mapped file. -/
  | outside
deriving DecidableEq, Repr

/-- A file is shorter than an `off_t` can say. -/
structure BackingFile where
  size : ℕ
  size_lt : size < 2 ^ 63
  bytes : Memory

/-- `sizeof(pstack_t)` -/
def headerSize : ℕ := 8

/-- `sizeof(int)` -/
def intSize : ℕ := 4

/-- `p->n` -/
def n (m : Memory) : ℕ := word m 0 + 2 ^ 32 * word m 4

def setN (m : Memory) (v : ℕ) : Memory := setWord (setWord m 0 v) 4 (v / 2 ^ 32)

/-- Where `p->stack[i]` is. The product is exact, as an index that is out of the array is not
brought back into it. -/
def element (i : ℕ) : ℕ := headerSize + i * intSize

/-- The `int` at `p->stack[i]`. -/
def value (m : Memory) (i : ℕ) : ℤ := (word m (element i) : ℤ).bmod (2 ^ 32)

def setValue (m : Memory) (i : ℕ) (x : ℤ) : Memory := setWord m (element i) (x % 2 ^ 32).toNat

def load (size : ℕ) (m : Memory) (i : ℕ) : Except Fault ℤ :=
  if element i + intSize ≤ size then .ok (value m i) else .error .outside

def store (size : ℕ) (m : Memory) (i : ℕ) (x : ℤ) : Except Fault Memory :=
  if element i + intSize ≤ size then .ok (setValue m i x) else .error .outside

/-- `sizeof(pstack_t) + (1 + p->n) * sizeof(int) <= file_size`, on numbers of 64 bits. -/
def NotFull (size count : ℕ) : Prop := (headerSize + (1 + count) * intSize) % 2 ^ 64 ≤ size

instance (size count : ℕ) : Decidable (NotFull size count) := inferInstanceAs (Decidable (_ ≤ _))

/-- One turn of the loop over the arguments, with the lines it prints. -/
def perform (size : ℕ) (m : Memory) (arg : String) : Except Fault (Memory × List ℤ) :=
  if arg = "pop" then
    if 0 < n m then do
      let m := setN m (n m - 1)
      let value ← load size m (n m)
      return (m, [value])
    else return (m, [])
  else if NotFull size (n m) then do
    let i := n m
    let m ← store size (setN m ((i + 1) % 2 ^ 64)) i (atoi arg.toList)
    return (m, [])
  else return (m, [])

/-- `file_size >= sizeof(pstack_t) && file_size % sizeof(int) == 0` -/
def BackingFile.Asserted (file : BackingFile) : Prop :=
  headerSize ≤ file.size ∧ file.size % intSize = 0

instance (file : BackingFile) : Decidable file.Asserted := inferInstanceAs (Decidable (_ ∧ _))

/-- The arguments are those after the name of the program. -/
def main (file : BackingFile) (args : List String) : Except Fault (BackingFile × List ℤ) :=
  if file.Asserted then do
    let last ← BoundedStack.printed (perform file.size) file.bytes args
    return ({ file with bytes := last.1 }, last.2)
  else .error .assertion

end OsLabs.Pstack
