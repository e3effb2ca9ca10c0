import Mathlib

/-!
# Segmentation

`segmentation.py`: an address space of two segments. The first grows upward from
its base, the second downward. Sizes and registers are the integers that
`convert` reads from the options; a register of `-1` is drawn.
-/

namespace OsLabs.Segmentation

/-- Why the simulator stops before it translates. -/
inductive Stop
  /-- `abort_if` prints the message and exits. -/
  | abort (message : String)
  /-- `OverflowError`: an integer too large for a float. -/
  | overflowError
  /-- No more draws: a loop that looks for a base is still looking. -/
  | undecided
deriving DecidableEq, Repr

def abort_if (condition : Prop) [Decidable condition] (message : String) : Except Stop Unit :=
  if condition then .error (.abort message) else .ok ()

/-- The double nearest to an integer: 53 bits, ties to even. -/
def roundFloat (n : ℤ) : ℤ :=
  let ulp := 2 ^ (n.natAbs.size - 53)
  let q := n.natAbs / ulp
  let r := n.natAbs % ulp
  n.sign * ((if ulp < 2 * r ∨ ulp = 2 * r ∧ q % 2 = 1 then q + 1 else q) * ulp : ℕ)

def toFloat (n : ℤ) : Except Stop ℤ :=
  if 2 ^ 1024 ≤ (roundFloat n).natAbs then .error .overflowError else .ok (roundFloat n)

structure Args where
  asize : ℤ
  psize : ℤ
  len0 : ℤ
  len1 : ℤ
  base0 : ℤ
  base1 : ℤ
deriving DecidableEq, Repr

/-- What the expressions that draw evaluate to. -/
structure Draws where
  len0 : ℤ
  len1 : ℤ
  base0 : List ℤ
  base1 : List ℤ

/-- `base1` is the lower address of its segment, not what the user passes in. -/
structure Registers where
  len0 : ℤ
  len1 : ℤ
  base0 : ℤ
  base1 : ℤ
deriving DecidableEq, Repr

/-- `while done == 0` -/
def drawBase (good : ℤ → Bool) (draws : List ℤ) : Except Stop ℤ :=
  match draws.find? good with
  | some base => .ok base
  | none => .error .undecided

def setup (args : Args) (draws : Draws) : Except Stop Registers := do
  let asize := args.asize
  let psize := args.psize
  abort_if (psize ≤ 4) "must specify a bigger physical memory size"
  abort_if (asize = 0) "must specify a non-zero address-space size"
  abort_if (psize ≤ asize) "physical memory size > address space size (for this simulation)"
  let len0 := if args.len0 = -1 then draws.len0 else args.len0
  let len1 := if args.len1 = -1 then draws.len1 else args.len1
  abort_if ((args.base0 = -1 ∨ args.base1 = -1) ∧ psize ≤ 2 * asize)
    ("physical memory must be 2x GREATER than address space size " ++
      "(if randomly generating base registers)")
  let base0 ←
    if args.base0 = -1 then drawBase (fun base0 => base0 + len0 < psize) draws.base0
    else .ok args.base0
  let base1 ←
    if args.base1 = -1 then
      drawBase (fun base1 => base1 + len1 < psize ∧ (base1 > base0 + len0 ∨ base1 + len1 < base0))
        draws.base1
    else .ok (args.base1 - len1)
  abort_if (psize < base0 + len0 - 1) "seg0 is not in physical memory"
  abort_if (psize < base1) "seg1 is not in physical memory"
  -- `asize/2.0`, doubled
  let float ← toFloat asize
  abort_if (2 * len0 > float) "length0 register is too large for this address space"
  abort_if (2 * len1 > float) "length1 register is too large for this address space"
  abort_if (len0 + base0 > base1 ∧ base1 > base0) "segments overlap in physical memory"
  return ⟨len0, len1, base0, base1⟩

inductive Segment
  | seg0
  | seg1
deriving DecidableEq, Repr

inductive Translation
  | valid (segment : Segment) (paddr : ℤ)
  | violation (segment : Segment)
  /-- `virtual address %d cannot be generated in an address space of size %d` -/
  | outside
deriving DecidableEq, Repr

/-- What is printed for a virtual address. `asize / 2` is a float, as in `setup`. -/
def translate (asize : ℤ) (regs : Registers) (vaddr : ℤ) : Translation :=
  if vaddr < 0 ∨ vaddr ≥ asize then .outside
  else if 2 * vaddr ≥ roundFloat asize then
    let nbase1 := regs.base1 + regs.len1
    let paddr := nbase1 + (vaddr - asize)
    if paddr < regs.base1 then .violation .seg1 else .valid .seg1 paddr
  else if vaddr ≥ regs.len0 then .violation .seg0
  else .valid .seg0 (vaddr + regs.base0)

end OsLabs.Segmentation
