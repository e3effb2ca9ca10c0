import OsLabs.Lib.CNumber
import OsLabs.Lib.Checked

/-!
# Base and bounds

`relocation.c`. The arithmetic on `long long` and `double` is exact.
-/

namespace OsLabs.Relocation

open OsLabs.CNumber

/-- Why `main` returns before the trace. -/
inductive Stop
  | help
  | unknownOption (arg : String)
  /-- `must specify a non-zero physical memory size` -/
  | noPhysicalMemory
  /-- `must specify a non-zero address-space size` -/
  | noAddressSpace
  /-- `physical memory size must be GREATER than address space size` -/
  | memoryTooSmall
  /-- `address space does not fit into physical memory` -/
  | doesNotFit
  /-- No more draws: the loop that looks for a base is still looking. -/
  | undecided
deriving DecidableEq, Repr

/-! ## Options -/

def maxStrLen : ℕ := 256

structure Options where
  seed : ℤ := 0
  asizeStr : List Char := "1k".toList
  psizeStr : List Char := "16k".toList
  numAddrs : ℤ := 5
  baseStr : List Char := "-1".toList
  limitStr : List Char := "-1".toList
  solve : Bool := false
deriving DecidableEq, Repr

/-- `strncpy` into an array of zeros -/
def copyStr (arg : String) : List Char := arg.toList.take (maxStrLen - 1)

/-- The options that take a value. -/
def Options.set (o : Options) (arg value : String) : Option Options :=
  if arg = "-s" then some { o with seed := atoi value.toList }
  else if arg = "-a" then some { o with asizeStr := copyStr value }
  else if arg = "-p" then some { o with psizeStr := copyStr value }
  else if arg = "-n" then some { o with numAddrs := atoi value.toList }
  else if arg = "-b" then some { o with baseStr := copyStr value }
  else if arg = "-l" then some { o with limitStr := copyStr value }
  else none

/-- `argv` from its second member on. -/
def parseArgs : Options → List String → Except Stop Options
  | o, [] => .ok o
  | o, arg :: rest =>
      if arg = "-h" ∨ arg = "--help" then .error .help
      else if arg = "-c" ∨ arg = "--compute" then parseArgs { o with solve := true } rest
      else
        match rest with
        | [] => .error (.unknownOption arg)
        | value :: rest =>
            match o.set arg value with
            | none => .error (.unknownOption arg)
            | some o => parseArgs o rest

def convert (size : List Char) : ℤ :=
  if size.length = 0 then 0
  else
    let (value, endptr) := strtoll size
    match endptr with
    | [] => value
    | unit :: _ =>
        match unit.toLower with
        | 'k' => value * 1024
        | 'm' => value * 1024 * 1024
        | 'g' => value * 1024 * 1024 * 1024
        | _ => value

/-! ## Random numbers -/

/-- `RAND_MAX` -/
def randMax : ℕ := 0x7fffffff

def myRand (seed : BitVec 32) : BitVec 32 := (seed * 1103515245 + 12345) &&& 0x7fffffff

/-- What `my_rand` returns. -/
structure Draw where
  value : ℕ
  le_randMax : value ≤ randMax

theorem myRand_le (seed : BitVec 32) : (myRand seed).toNat ≤ randMax := by
  rw [myRand, BitVec.toNat_and]
  exact Nat.and_le_right

def Draw.ofSeed (seed : BitVec 32) : Draw := ⟨(myRand seed).toNat, myRand_le seed⟩

/-- `(double)my_rand(&rand_seed) / RAND_MAX` -/
def Draw.r (draw : Draw) : ℚ := draw.value / randMax

/-- The draws for the limit, those of the loop for the base, and those for the addresses. -/
structure Draws where
  limit : Draw
  base : List Draw
  addr : ℕ → Draw

def drawsFrom (seed : ℤ) (i : ℕ) : Draw := .ofSeed (myRand^[i] (BitVec.ofInt 32 seed))

/-- The draws with a seed, of which the loop for the base takes `turns` at most. -/
def Draws.ofSeed (seed : ℤ) (turns : ℕ) : Draws :=
  ⟨drawsFrom seed 0, (List.range turns).map (drawsFrom (seed + 1)), drawsFrom (seed + 2)⟩

/-! ## Address translation -/

/-- `(long long)x` -/
def toLongLong (x : ℚ) : ℤ := if 0 ≤ x then ⌊x⌋ else ⌈x⌉

def drawLimit (asize : ℤ) (draw : Draw) : ℤ := toLongLong (asize / 4 + asize / 4 * draw.r)

/-- `(long long)(size * r)` -/
def scale (size : ℤ) (draw : Draw) : ℤ := toLongLong (size * draw.r)

/-- `do ... while ((base + limit) >= psize)` -/
def drawBase (psize limit : ℤ) : List Draw → Except Stop ℤ
  | [] => .error .undecided
  | draw :: rest =>
      let base := scale psize draw
      if base + limit ≥ psize then drawBase psize limit rest else .ok base

/-- `if (base == -1)` -/
def placeBase (psize limit base : ℤ) (draws : List Draw) : Except Stop ℤ :=
  if base = -1 then drawBase psize limit draws else .ok base

inductive Answer
  /-- `PA or segmentation violation?` -/
  | hidden
  | segmentationViolation
  | valid (paddr : ℤ)
deriving DecidableEq, Repr

def translate (solve : Bool) (base limit vaddr : ℤ) : Answer :=
  if ¬ solve then .hidden
  else if vaddr ≥ limit then .segmentationViolation
  else .valid (vaddr + base)

structure Trace where
  base : ℤ
  limit : ℤ
  addresses : List (ℤ × Answer)
deriving DecidableEq, Repr

/-- The loop over the addresses. -/
def virtualAddressTrace (o : Options) (asize base limit : ℤ) (addr : ℕ → Draw) :
    List (ℤ × Answer) :=
  (List.range o.numAddrs.toNat).map fun i =>
    let vaddr := scale asize (addr i)
    (vaddr, translate o.solve base limit vaddr)

def simulate (o : Options) (draws : Draws) : Except Stop Trace :=
  let asize := convert o.asizeStr
  let psize := convert o.psizeStr
  if psize ≤ 1 then .error .noPhysicalMemory
  else if asize = 0 then .error .noAddressSpace
  else if psize ≤ asize then .error .memoryTooSmall
  else do
    let limit := convert o.limitStr
    let base := convert o.baseStr
    let limit := if limit = -1 then drawLimit asize draws.limit else limit
    let base ← placeBase psize limit base draws.base
    if base + limit > psize then .error .doesNotFit
    else return ⟨base, limit, virtualAddressTrace o asize base limit draws.addr⟩

def main (argv : List String) (turns : ℕ) : Except Stop Trace := do
  let o ← parseArgs {} argv
  simulate o (.ofSeed o.seed turns)

end OsLabs.Relocation
