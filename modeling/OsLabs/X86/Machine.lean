import Mathlib
import OsLabs.Lib.SharedMemory

/-!
# The instructions of the x86 simulator

`x86.py`. The loader leaves in the memory, for each instruction, the text of a call
that is evaluated when the instruction is executed. A program may read such a text
like any other value; the text of `mdump` is taken with a number for its argument.
-/

namespace OsLabs.X86

open OsLabs.SharedMemory

inductive PyError
  | keyError
  | typeError
  | syntaxError
  /-- Not an error: `next` looks for a thread and does not end. -/
  | loops
deriving DecidableEq, Repr

inductive Cond
  | gt | gte | lt | lte | eq | neq
deriving DecidableEq, Repr

inductive Reg
  | zero | ax | bx | cx | dx | ex | fx | sp | bp
deriving DecidableEq, Repr

def condlist : List Cond := [.gte, .gt, .lte, .lt, .neq, .eq]

def regnums : List Reg := [.zero, .ax, .bx, .cx, .dx, .ex, .fx, .sp, .bp]

def Reg.num : Reg → ℕ
  | .zero => 0
  | .ax => 1
  | .bx => 2
  | .cx => 3
  | .dx => 4
  | .ex => 5
  | .fx => 6
  | .sp => 7
  | .bp => 8

/-- The calls that the loader makes of the instructions. -/
inductive Instr
  | moveIToR (src : ℤ) (dst : Reg)
  | moveIToM (src value : ℤ) (reg1 reg2 : Reg) (scale : ℤ)
  | moveMToR (value : ℤ) (reg1 reg2 : Reg) (scale : ℤ) (dst : Reg)
  | moveRToM (src : Reg) (value : ℤ) (reg1 reg2 : Reg) (scale : ℤ)
  | moveRToR (src dst : Reg)
  | leaMToR (value : ℤ) (reg1 reg2 : Reg) (scale : ℤ) (dst : Reg)
  | addIToR (src : ℤ) (dst : Reg)
  | addRToR (src dst : Reg)
  | mulIToR (src : ℤ) (dst : Reg)
  | mulRToR (src dst : Reg)
  | subIToR (src : ℤ) (dst : Reg)
  | subRToR (src dst : Reg)
  | negR (src : Reg)
  | atomicExchange (src : Reg) (value : ℤ) (reg1 reg2 : Reg)
  | fetchadd (src : Reg) (value : ℤ) (reg1 reg2 : Reg)
  | testIR (src : ℤ) (dst : Reg)
  | testRI (src : Reg) (dst : ℤ)
  | testRR (src dst : Reg)
  | jump (targ : ℤ)
  | jumpNotequal (targ : ℤ)
  | jumpEqual (targ : ℤ)
  | jumpLessthan (targ : ℤ)
  | jumpLessthanorequal (targ : ℤ)
  | jumpGreaterthan (targ : ℤ)
  | jumpGreaterthanorequal (targ : ℤ)
  | call (targ : ℤ)
  | ret
  | pushR (reg : Reg)
  | pushM (value : ℤ) (reg1 reg2 : Reg) (scale : ℤ)
  | pop
  | popR (dst : Reg)
  | nop
  | halt
  | iyield
  | rdump
  | mdump (index : ℤ)
deriving DecidableEq, Repr

/-- The text of a call, as `load` formats it. -/
def Instr.text : Instr → String
  | .moveIToR src dst => s!"self.move_i_to_r({src}, {dst.num})"
  | .moveIToM src value reg1 reg2 scale =>
      s!"self.move_i_to_m({src}, {value}, {reg1.num}, {reg2.num}, {scale})"
  | .moveMToR value reg1 reg2 scale dst =>
      s!"self.move_m_to_r({value}, {reg1.num}, {reg2.num}, {scale}, {dst.num})"
  | .moveRToM src value reg1 reg2 scale =>
      s!"self.move_r_to_m({src.num}, {value}, {reg1.num}, {reg2.num}, {scale})"
  | .moveRToR src dst => s!"self.move_r_to_r({src.num}, {dst.num})"
  | .leaMToR value reg1 reg2 scale dst =>
      s!"self.lea_m_to_r({value}, {reg1.num}, {reg2.num}, {scale}, {dst.num})"
  | .addIToR src dst => s!"self.add_i_to_r({src}, {dst.num})"
  | .addRToR src dst => s!"self.add_r_to_r({src.num}, {dst.num})"
  | .mulIToR src dst => s!"self.mul_i_to_r({src}, {dst.num})"
  | .mulRToR src dst => s!"self.mul_r_to_r({src.num}, {dst.num})"
  | .subIToR src dst => s!"self.sub_i_to_r({src}, {dst.num})"
  | .subRToR src dst => s!"self.sub_r_to_r({src.num}, {dst.num})"
  | .negR src => s!"self.neg_r({src.num})"
  | .atomicExchange src value reg1 reg2 =>
      s!"self.atomic_exchange({src.num}, {value}, {reg1.num}, {reg2.num})"
  | .fetchadd src value reg1 reg2 =>
      s!"self.fetchadd({src.num}, {value}, {reg1.num}, {reg2.num})"
  | .testIR src dst => s!"self.test_i_r({src}, {dst.num})"
  | .testRI src dst => s!"self.test_r_i({src.num}, {dst})"
  | .testRR src dst => s!"self.test_r_r({src.num}, {dst.num})"
  | .jump targ => s!"self.jump({targ})"
  | .jumpNotequal targ => s!"self.jump_notequal({targ})"
  | .jumpEqual targ => s!"self.jump_equal({targ})"
  | .jumpLessthan targ => s!"self.jump_lessthan({targ})"
  | .jumpLessthanorequal targ => s!"self.jump_lessthanorequal({targ})"
  | .jumpGreaterthan targ => s!"self.jump_greaterthan({targ})"
  | .jumpGreaterthanorequal targ => s!"self.jump_greaterthanorequal({targ})"
  | .call targ => s!"self.call({targ})"
  | .ret => "self.ret()"
  | .pushR reg => s!"self.push_r({reg.num})"
  | .pushM value reg1 reg2 scale =>
      s!"self.push_m({value},{reg1.num},{reg2.num},{scale})"
  | .pop => "self.pop()"
  | .popR dst => s!"self.pop_r({dst.num})"
  | .nop => "self.nop()"
  | .halt => "self.halt()"
  | .iyield => "self.iyield()"
  | .rdump => "self.rdump()"
  | .mdump index => s!"self.mdump({index})"

/-! ## Values -/

/-- A number, or a string. What a program can make of strings are the texts of
instructions, one after the other. -/
inductive Value
  | int (n : ℤ)
  | str (code : List Instr)
deriving DecidableEq, Repr

namespace Value

def text (code : List Instr) : String := String.join (code.map Instr.text)

def add : Value → Value → Except PyError Value
  | int a, int b => .ok (int (a + b))
  | str a, str b => .ok (str (a ++ b))
  | _, _ => .error .typeError

def sub : Value → Value → Except PyError Value
  | int a, int b => .ok (int (a - b))
  | _, _ => .error .typeError

/-- A string times a number is the string that many times. -/
def mul : Value → Value → Except PyError Value
  | int a, int b => .ok (int (a * b))
  | int n, str code | str code, int n => .ok (str (List.replicate n.toNat code).flatten)
  | str _, str _ => .error .typeError

def neg : Value → Except PyError Value
  | int a => .ok (int (-a))
  | str _ => .error .typeError

def lt : Value → Value → Except PyError Bool
  | int a, int b => .ok (a < b)
  | str a, str b => .ok (text a < text b)
  | _, _ => .error .typeError

def le : Value → Value → Except PyError Bool
  | int a, int b => .ok (a ≤ b)
  | str a, str b => .ok (!decide (text b < text a))
  | _, _ => .error .typeError

def beq : Value → Value → Bool
  | int a, int b => a = b
  | str a, str b => text a = text b
  | _, _ => false

end Value

/-! ## The CPU -/

structure Cpu where
  PC : Value
  registers : Reg → Value
  conditions : Cond → Bool

/-- What an instruction does, with its accesses to the memory. -/
abbrev Exec := StateT Cpu (Access Value Value PyError)

/-- What an instruction returns to `run`; `none` for Python's `None`. -/
abbrev Rc := Option ℤ

def lift {α : Type} (x : Except PyError α) : Exec α := fun cpu =>
  match x with
  | .ok a => .ret (a, cpu)
  | .error e => .fail e

def getMemory (addr : Value) : Exec Value := fun cpu =>
  .read addr fun value =>
    match value with
    | some value => .ret (value, cpu)
    | none => .fail .keyError

def setMemory (addr value : Value) : Exec Unit := fun cpu => .write addr value (.ret ((), cpu))

def getReg (reg : Reg) : Exec Value := do return (← get).registers reg

def setReg (reg : Reg) (value : Value) : Exec Unit :=
  modify fun cpu => { cpu with registers := Function.update cpu.registers reg value }

def getCond (cond : Cond) : Exec Bool := do return (← get).conditions cond

def setCond (cond : Cond) (value : Bool) : Exec Unit :=
  modify fun cpu => { cpu with conditions := Function.update cpu.conditions cond value }

def getPC : Exec Value := do return (← get).PC

def setPC (pc : Value) : Exec Unit := modify fun cpu => { cpu with PC := pc }

/-! ## Instructions -/

def halt : Exec Rc := return some (-1)

def iyield : Exec Rc := return some (-2)

def nop : Exec Rc := return some 0

def rdump : Exec Rc := return none

def mdump (index : ℤ) : Exec Rc := do
  let _ ← getMemory (.int index)
  return none

def moveIToR (src : ℤ) (dst : Reg) : Exec Rc := do
  setReg dst (.int src)
  return some 0

/-- `value + self.registers[reg1] + (scale * self.registers[reg2])` -/
def address (value : ℤ) (reg1 reg2 : Reg) (scale : ℤ) : Exec Value := do
  let sum ← lift ((Value.int value).add (← getReg reg1))
  let scaled ← lift ((Value.int scale).mul (← getReg reg2))
  lift (sum.add scaled)

def moveIToM (src value : ℤ) (reg1 reg2 : Reg) (scale : ℤ) : Exec Rc := do
  let tmp ← address value reg1 reg2 scale
  setMemory tmp (.int src)
  return some 0

def moveMToR (value : ℤ) (reg1 reg2 : Reg) (scale : ℤ) (dst : Reg) : Exec Rc := do
  let tmp ← address value reg1 reg2 scale
  setReg dst (← getMemory tmp)
  return none

def moveRToM (src : Reg) (value : ℤ) (reg1 reg2 : Reg) (scale : ℤ) : Exec Rc := do
  let tmp ← address value reg1 reg2 scale
  setMemory tmp (← getReg src)
  return some 0

def moveRToR (src dst : Reg) : Exec Rc := do
  setReg dst (← getReg src)
  return some 0

def leaMToR (value : ℤ) (reg1 reg2 : Reg) (scale : ℤ) (dst : Reg) : Exec Rc := do
  let tmp ← address value reg1 reg2 scale
  setReg dst tmp
  return none

/-- `self.registers[dst] = op(self.registers[dst], src)` -/
def assign (op : Value → Value → Except PyError Value) (dst : Reg) (src : Value) : Exec Unit := do
  setReg dst (← lift (op (← getReg dst) src))

theorem assign_eq (op : Value → Value → Except PyError Value) (dst : Reg) (src : Value)
    (cpu : Cpu) : assign op dst src cpu = match op (cpu.registers dst) src with
      | .ok value => .ret ((), { cpu with registers := Function.update cpu.registers dst value })
      | .error e => .fail e := by
  have hreads : assign op dst src cpu =
      (lift (op (cpu.registers dst) src) >>= setReg dst) cpu := rfl
  rw [hreads]
  cases op (cpu.registers dst) src with
  | ok value => rfl
  | error e => rfl

def addIToR (src : ℤ) (dst : Reg) : Exec Rc := do
  assign Value.add dst (.int src)
  return some 0

def addRToR (src dst : Reg) : Exec Rc := do
  assign Value.add dst (← getReg src)
  return some 0

def mulIToR (src : ℤ) (dst : Reg) : Exec Rc := do
  assign Value.mul dst (.int src)
  return some 0

def mulRToR (src dst : Reg) : Exec Rc := do
  assign Value.mul dst (← getReg src)
  return some 0

def subIToR (src : ℤ) (dst : Reg) : Exec Rc := do
  assign Value.sub dst (.int src)
  return some 0

def subRToR (src dst : Reg) : Exec Rc := do
  assign Value.sub dst (← getReg src)
  return some 0

def negR (src : Reg) : Exec Rc := do
  setReg src (← lift (← getReg src).neg)
  return none

/-- `value + self.registers[reg1] + self.registers[reg2]` -/
def lockAddress (value : ℤ) (reg1 reg2 : Reg) : Exec Value := do
  let sum ← lift ((Value.int value).add (← getReg reg1))
  lift (sum.add (← getReg reg2))

def atomicExchange (src : Reg) (value : ℤ) (reg1 reg2 : Reg) : Exec Rc := do
  let tmp ← lockAddress value reg1 reg2
  let old ← getMemory tmp
  setMemory tmp (← getReg src)
  setReg src old
  return some 0

def fetchadd (src : Reg) (value : ℤ) (reg1 reg2 : Reg) : Exec Rc := do
  let tmp ← lockAddress value reg1 reg2
  let old ← getMemory tmp
  setMemory tmp (← lift ((← getMemory tmp).add (← getReg src)))
  setReg src old
  return none

def initConditionCodes : Exec Unit := condlist.forM fun c => setCond c false

def testAll (src dst : Value) : Exec Rc := do
  initConditionCodes
  if ← lift (src.lt dst) then setCond .gt true
  if ← lift (src.le dst) then setCond .gte true
  if ← lift (dst.lt src) then setCond .lt true
  if ← lift (dst.le src) then setCond .lte true
  if dst.beq src then setCond .eq true
  if !dst.beq src then setCond .neq true
  return some 0

def testIR (src : ℤ) (dst : Reg) : Exec Rc := do
  initConditionCodes
  testAll (.int src) (← getReg dst)

def testRI (src : Reg) (dst : ℤ) : Exec Rc := do
  initConditionCodes
  testAll (← getReg src) (.int dst)

def testRR (src dst : Reg) : Exec Rc := do
  initConditionCodes
  testAll (← getReg src) (← getReg dst)

def jump (targ : ℤ) : Exec Rc := do
  setPC (.int targ)
  return some 0

def jumpIf (cond : Cond) (targ : ℤ) : Exec Rc := do
  if ← getCond cond then setPC (.int targ)
  return some 0

def jumpNotequal (targ : ℤ) : Exec Rc := jumpIf .neq targ

def jumpEqual (targ : ℤ) : Exec Rc := jumpIf .eq targ

def jumpLessthan (targ : ℤ) : Exec Rc := jumpIf .lt targ

def jumpLessthanorequal (targ : ℤ) : Exec Rc := jumpIf .lte targ

def jumpGreaterthan (targ : ℤ) : Exec Rc := jumpIf .gt targ

def jumpGreaterthanorequal (targ : ℤ) : Exec Rc := jumpIf .gte targ

def call (targ : ℤ) : Exec Rc := do
  assign Value.sub .sp (.int 4)
  setMemory (← getReg .sp) (← getPC)
  setPC (.int targ)
  return none

def ret : Exec Rc := do
  setPC (← getMemory (← getReg .sp))
  assign Value.add .sp (.int 4)
  return none

def pushR (reg : Reg) : Exec Rc := do
  assign Value.sub .sp (.int 4)
  setMemory (← getReg .sp) (← getReg reg)
  return some 0

def pushM (value : ℤ) (reg1 reg2 : Reg) (scale : ℤ) : Exec Rc := do
  assign Value.sub .sp (.int 4)
  let tmp ← address value reg1 reg2 scale
  setMemory (← getReg .sp) tmp
  return some 0

def pop : Exec Rc := do
  assign Value.add .sp (.int 4)
  return none

def popR (dst : Reg) : Exec Rc := do
  setReg dst (← getMemory (← getReg .sp))
  assign Value.add .sp (.int 4)
  return none

/-- The call that a text stands for. -/
def Instr.eval : Instr → Exec Rc
  | .moveIToR src dst => X86.moveIToR src dst
  | .moveIToM src value reg1 reg2 scale => X86.moveIToM src value reg1 reg2 scale
  | .moveMToR value reg1 reg2 scale dst => X86.moveMToR value reg1 reg2 scale dst
  | .moveRToM src value reg1 reg2 scale => X86.moveRToM src value reg1 reg2 scale
  | .moveRToR src dst => X86.moveRToR src dst
  | .leaMToR value reg1 reg2 scale dst => X86.leaMToR value reg1 reg2 scale dst
  | .addIToR src dst => X86.addIToR src dst
  | .addRToR src dst => X86.addRToR src dst
  | .mulIToR src dst => X86.mulIToR src dst
  | .mulRToR src dst => X86.mulRToR src dst
  | .subIToR src dst => X86.subIToR src dst
  | .subRToR src dst => X86.subRToR src dst
  | .negR src => X86.negR src
  | .atomicExchange src value reg1 reg2 => X86.atomicExchange src value reg1 reg2
  | .fetchadd src value reg1 reg2 => X86.fetchadd src value reg1 reg2
  | .testIR src dst => X86.testIR src dst
  | .testRI src dst => X86.testRI src dst
  | .testRR src dst => X86.testRR src dst
  | .jump targ => X86.jump targ
  | .jumpNotequal targ => X86.jumpNotequal targ
  | .jumpEqual targ => X86.jumpEqual targ
  | .jumpLessthan targ => X86.jumpLessthan targ
  | .jumpLessthanorequal targ => X86.jumpLessthanorequal targ
  | .jumpGreaterthan targ => X86.jumpGreaterthan targ
  | .jumpGreaterthanorequal targ => X86.jumpGreaterthanorequal targ
  | .call targ => X86.call targ
  | .ret => X86.ret
  | .pushR reg => X86.pushR reg
  | .pushM value reg1 reg2 scale => X86.pushM value reg1 reg2 scale
  | .pop => X86.pop
  | .popR dst => X86.popR dst
  | .nop => X86.nop
  | .halt => X86.halt
  | .iyield => X86.iyield
  | .rdump => X86.rdump
  | .mdump index => X86.mdump index

end OsLabs.X86
