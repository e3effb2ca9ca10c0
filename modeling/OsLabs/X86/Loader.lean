import OsLabs.Lib.PyText
import OsLabs.X86.Machine

/-!
# The loader of the x86 simulator

`load` of `x86.py`, with two passes over the lines of a program. `none` stands for every way to
give up: a failed assertion, an exception or `exit`.
-/

namespace OsLabs.X86.Loader

open OsLabs.PyText

/-- The text that the loader leaves in the memory: a call, where that of `mdump` has its
argument as it is written. -/
inductive Stored
  | call (instruction : Instr)
  | mdump (arg : Text)
deriving DecidableEq, Repr

/-! ## Arguments -/

def regnames : List (Text × Reg) :=
  [("zero".toList, .zero), ("ax".toList, .ax), ("bx".toList, .bx), ("cx".toList, .cx),
    ("dx".toList, .dx), ("ex".toList, .ex), ("fx".toList, .fx), ("sp".toList, .sp),
    ("bp".toList, .bp)]

def registerTranslate (r : Text) : Option Reg := regnames.lookup r

/-- Without a name, the register is `zero`. -/
def getregname (r : Text) : Option Text :=
  match strip r with
  | [] => some "zero".toList
  | c :: _ => if c = '%' then (r.splitOn '%')[1]?.map strip else none

/-- An argument with its type. -/
inductive Arg
  | immediate (value : ℤ)
  | register (reg : Reg)
  | label (targ : Text)
  | memory (value : ℤ) (reg1 reg2 : Reg) (scale : ℤ)
deriving DecidableEq, Repr

def breakMark : Text := ['_', '_', 'B', 'R', 'E', 'A', 'K', '_', '_']

variable (u : Unicode) (vars labels : Text → Option ℤ)

/-- `neg * int(text)`, where `value` has to be digits. -/
def number (neg : ℤ) (value text : Text) : Option ℤ :=
  if isdigit u value then (int u text).map (neg * ·) else none

def immediate : Text → Option Arg
  | [] => none
  | '-' :: value => (number u (-1) value value).map .immediate
  | value => (number u 1 value value).map .immediate

def register (r : Text) : Option Reg := (getregname r).bind registerTranslate

/-- What stands between the parentheses. -/
def fields (value : ℤ) : List Text → Option Arg
  | [r] => do return .memory value (← register r) .zero 1
  | [r1, r2] => do return .memory value (← register r1) (← register r2) 1
  | [r1, r2, s] => do return .memory value (← register r1) (← register r2) (← int u s)
  | _ => none

/-- The most general case, behind the sign. -/
def general (neg : ℤ) (tmp : Text) : Option Arg :=
  match tmp.splitOn '(' with
  | [_] => do return .memory (neg * (← int u tmp)) .zero .zero 1
  | [s0, s1] => do
      let value ← if tmp.head? = some '(' then some 0 else number u neg (strip s0) s0
      fields u value (splitText breakMark 0 (s1.takeWhile (· ≠ ')')))
  | _ => none

/-- `arg.replace(',', ' ').replace(' \t', '')` -/
def despace (arg : Text) : Text := remove [' ', '\t'] (replaceChar ',' ' ' arg)

def getarg (arg : Text) : Option Arg :=
  match despace arg with
  | [] => none
  | c :: cs =>
      if c = '$' then immediate u (cs.takeWhile (· ≠ '$'))
      else if c = '%' then (registerTranslate (cs.takeWhile (· ≠ '%'))).map .register
      else if c = '.' then some (.label (c :: cs))
      else if u.isalpha c && !u.isdigit c then do
        return .memory (← vars (c :: cs)) .zero .zero 1
      else if c = '-' then general u (-1) cs
      else if u.isdigit c || c = '(' then general u 1 (c :: cs)
      else none

/-- The commas in parentheses are marked; `inparen` tells whether one is open. -/
def removecommas : Bool → Text → Option Text
  | inparen, [] => if inparen then none else some []
  | inparen, c :: cs =>
      if c = '(' then
        if inparen then none else (removecommas true cs).map (c :: ·)
      else if c = ')' then
        if inparen then (removecommas false cs).map (c :: ·) else none
      else if inparen && c = ',' then (removecommas inparen cs).map (breakMark ++ ·)
      else (removecommas inparen cs).map (c :: ·)

/-! ## Instructions -/

inductive Opcode
  | mov | lea | neg | pop | push | call | ret | mul | add | sub | fetchadd | xchg | test
  | j | jne | je | jlt | jlte | jgt | jgte | nop | halt | yield | rdump | mdump
deriving DecidableEq, Repr

def opcodes : List (Text × Opcode) :=
  [("mov".toList, .mov), ("lea".toList, .lea), ("neg".toList, .neg), ("pop".toList, .pop),
    ("push".toList, .push), ("call".toList, .call), ("ret".toList, .ret), ("mul".toList, .mul),
    ("add".toList, .add), ("sub".toList, .sub), ("fetchadd".toList, .fetchadd),
    ("xchg".toList, .xchg), ("test".toList, .test), ("j".toList, .j), ("jne".toList, .jne),
    ("je".toList, .je), ("jlt".toList, .jlt), ("jlte".toList, .jlte), ("jgt".toList, .jgt),
    ("jgte".toList, .jgte), ("nop".toList, .nop), ("halt".toList, .halt),
    ("yield".toList, .yield), ("rdump".toList, .rdump), ("mdump".toList, .mdump)]

/-- The argument of an instruction with one. -/
def oneArg (args : List Text) : Option Arg := do getarg u vars (strip (← args.head?))

/-- Two arguments that are split at the first comma. -/
def twoArgs (args : List Text) : Option (Arg × Arg) := do
  match splitOnce ',' (← args.head?) with
  | [arg1, arg2] => return (← getarg u vars (strip arg1), ← getarg u vars (strip arg2))
  | _ => none

/-- The arguments of `mov`, whose commas in parentheses are no separators. -/
def movArgs (args : List Text) : Option (Arg × Arg) := do
  match (← removecommas false (← args.head?)).splitOn ',' with
  | [arg1, arg2] => return (← getarg u vars (strip arg1), ← getarg u vars (strip arg2))
  | _ => none

def mov : Arg → Arg → Option Instr
  | .immediate src, .register dst => some (.moveIToR src dst)
  | .memory value reg1 reg2 scale, .register dst => some (.moveMToR value reg1 reg2 scale dst)
  | .register src, .memory value reg1 reg2 scale => some (.moveRToM src value reg1 reg2 scale)
  | .register src, .register dst => some (.moveRToR src dst)
  | .immediate src, .memory value reg1 reg2 scale => some (.moveIToM src value reg1 reg2 scale)
  | _, _ => none

def lea : Arg → Arg → Option Instr
  | .memory value reg1 reg2 scale, .register dst => some (.leaMToR value reg1 reg2 scale dst)
  | _, _ => none

def neg : Arg → Option Instr
  | .register dst => some (.negR dst)
  | _ => none

def popR : Arg → Option Instr
  | .register dst => some (.popR dst)
  | _ => none

def push : Arg → Option Instr
  | .register src => some (.pushR src)
  | .memory value reg1 reg2 scale => some (.pushM value reg1 reg2 scale)
  | _ => none

/-- `mul`, `add` and `sub`. -/
def arith (iToR : ℤ → Reg → Instr) (rToR : Reg → Reg → Instr) : Arg → Arg → Option Instr
  | .immediate src, .register dst => some (iToR src dst)
  | .register src, .register dst => some (rToR src dst)
  | _, _ => none

/-- `fetchadd` and `xchg`, which leave out the scale. -/
def lock (instr : Reg → ℤ → Reg → Reg → Instr) : Arg → Arg → Option Instr
  | .register src, .memory value reg1 reg2 _ => some (instr src value reg1 reg2)
  | _, _ => none

def test : Arg → Arg → Option Instr
  | .immediate src, .register dst => some (.testIR src dst)
  | .register src, .register dst => some (.testRR src dst)
  | .register src, .immediate dst => some (.testRI src dst)
  | _, _ => none

/-- `call` and the jumps. -/
def toLabel (instr : ℤ → Instr) : Arg → Option Instr
  | .label targ => (labels targ).map instr
  | _ => none

def instruction (args : List Text) : Opcode → Option Instr
  | .mov => do let (src, dst) ← movArgs u vars args; mov src dst
  | .lea => do let (src, dst) ← twoArgs u vars args; lea src dst
  | .neg => do neg (← oneArg u vars args)
  | .pop => if args = [] then some .pop else do popR (← oneArg u vars args)
  | .push => do push (← oneArg u vars args)
  | .call => do toLabel labels .call (← oneArg u vars args)
  | .ret => if args = [] then some .ret else none
  | .mul => do let (src, dst) ← twoArgs u vars args; arith .mulIToR .mulRToR src dst
  | .add => do let (src, dst) ← twoArgs u vars args; arith .addIToR .addRToR src dst
  | .sub => do let (src, dst) ← twoArgs u vars args; arith .subIToR .subRToR src dst
  | .fetchadd => do let (src, dst) ← twoArgs u vars args; lock .fetchadd src dst
  | .xchg => do let (src, dst) ← twoArgs u vars args; lock .atomicExchange src dst
  | .test => do let (src, dst) ← twoArgs u vars args; test src dst
  | .j => do toLabel labels .jump (← oneArg u vars args)
  | .jne => do toLabel labels .jumpNotequal (← oneArg u vars args)
  | .je => do toLabel labels .jumpEqual (← oneArg u vars args)
  | .jlt => do toLabel labels .jumpLessthan (← oneArg u vars args)
  | .jlte => do toLabel labels .jumpLessthanorequal (← oneArg u vars args)
  | .jgt => do toLabel labels .jumpGreaterthan (← oneArg u vars args)
  | .jgte => do toLabel labels .jumpGreaterthanorequal (← oneArg u vars args)
  | .nop => some .nop
  | .halt => some .halt
  | .yield => some .iyield
  | .rdump => some .rdump
  | .mdump => none

/-- The opcode loop for one line. -/
def assemble (cline : Text) : Option Stored :=
  match splitWord cline with
  | [] => none
  | opcode :: args => do
      match ← opcodes.lookup opcode with
      | .mdump => return .mdump (← args.head?)
      | opcode => return .call (← instruction u vars labels args opcode)

/-! ## The passes -/

/-- The line without its comment, of which there is at most one. -/
def uncomment (line : Text) : Option Text :=
  match (rstrip line).splitOn '#' with
  | [cline] => some cline
  | [cline, _] => some cline
  | _ => none

structure Tables where
  pc : ℤ
  data : ℤ
  vars : Text → Option ℤ
  labels : Text → Option ℤ

def dotVar : Text := ".var".toList

/-- `.var name`, or `.var name mul` -/
def declaration : List Text → Option (Text × ℤ)
  | [name] => some (name, 1)
  | [name, mul] => (int u mul).map (name, ·)
  | _ => none

def declare (bpc : ℤ) (s : Tables) (args : List Text) : Option Tables := do
  let (name, mul) ← declaration u args
  if s.vars dotVar ≠ none then none
  else
    let data := s.data + 4 * mul
    if data < bpc then
      some { s with vars := Function.update s.vars name (some s.data), data }
    else none

/-- The first pass only looks at labels and variables. -/
def firstPass (bpc : ℤ) (s : Tables) (line : Text) : Option Tables := do
  match split (← uncomment line) with
  | [] => some s
  | word :: words =>
      if word = dotVar then declare u bpc s words
      else if word.head? = some '.' then
        if words = [] then some { s with labels := Function.update s.labels word (some s.pc) }
        else none
      else some { s with pc := s.pc + 1 }

structure Image where
  pc : ℤ
  memory : ℤ → Option Stored
  pmemory : ℤ → Option Text

def Image.store (s : Image) (stored : Stored) (cline : Text) : Image where
  pc := s.pc + 1
  memory := Function.update s.memory s.pc (some stored)
  pmemory := Function.update s.pmemory s.pc (some (strip cline))

def secondPass (s : Image) (line : Text) : Option Image := do
  let cline ← uncomment line
  if split cline = [] ∨ cline.head? = some '.' then some s
  else return s.store (← assemble u vars labels cline) cline

/-- The tables of the first pass, and what the second one leaves in the memory. -/
def load (infile : List Text) (loadaddr : ℤ) : Option (Tables × Image) := do
  let tables ← infile.foldlM (firstPass u loadaddr) ⟨loadaddr, 100, fun _ => none, fun _ => none⟩
  let image ← infile.foldlM (secondPass u tables.vars tables.labels)
    ⟨loadaddr, fun _ => none, fun _ => none⟩
  return (tables, image)

end OsLabs.X86.Loader
