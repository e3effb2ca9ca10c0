import Mathlib
import OsLabs.X86.Machine
import OsLabs.Lib.Checked

/-!
# Processes and the main loop of the x86 simulator

A step is one turn of the loop of `run`, and takes what `random.random()` would give
for the next interrupt. What is printed is left out; `trace` records instead what each
thread has executed.
-/

namespace OsLabs.X86

open OsLabs.SharedMemory OsLabs.Checked

abbrev Memory := Value → Option Value

/-- An instruction that was executed, the CPU after it and its accesses. -/
structure Entry where
  pc : Value
  instruction : Instr
  cpu : Cpu
  accesses : List (Event Value Value)

/-! ## Processes -/

structure Process where
  pc : Value
  regs : Reg → Value
  cc : Cond → Bool
  done : Bool

/-- The registers that `reginit` names, and the stack. -/
def Process.new (loadaddr : ℤ) (stackbottom : ℤ) (reginit : List (Reg × ℤ)) : Process where
  pc := .int loadaddr
  regs := Function.update
    (reginit.foldl (fun regs r => Function.update regs r.1 (.int r.2)) fun _ => .int 0)
    .sp (.int stackbottom)
  cc := fun _ => false
  done := false

def Process.save (p : Process) (cpu : Cpu) : Process where
  pc := cpu.PC
  cc := condlist.foldl (fun cc c => Function.update cc c (cpu.conditions c)) p.cc
  regs := regnums.foldl (fun regs r => Function.update regs r (cpu.registers r)) p.regs
  done := p.done

def Process.restore (p : Process) (cpu : Cpu) : Cpu where
  PC := p.pc
  conditions := condlist.foldl (fun cc c => Function.update cc c (p.cc c)) cpu.conditions
  registers := regnums.foldl (fun regs r => Function.update regs r (p.regs r)) cpu.registers

/-! ## The process list -/

/-- The list `plist` holds `getnum` processes. -/
structure Proclist where
  plist : ℕ → Process
  getnum : ℕ
  active : ℕ
  manual : Bool
  procsched : List ℕ
  curr : ℕ

namespace Proclist

/-- `procsched[curr]` -/
def current (procs : Proclist) : ℕ := procs.procsched.getD procs.curr 0

def getcurr (procs : Proclist) : Process := procs.plist procs.current

def setcurr (procs : Proclist) (p : Process) : Proclist :=
  { procs with plist := Function.update procs.plist procs.current p }

def done (procs : Proclist) : Proclist :=
  { procs.setcurr { procs.getcurr with done := true } with active := procs.active - 1 }

def numdone (procs : Proclist) : ℕ := procs.getnum - procs.active

def save (procs : Proclist) (cpu : Cpu) : Proclist := procs.setcurr (procs.getcurr.save cpu)

/-- The loop of `next`. When it has been around `procsched` it has not found a thread,
and never will. -/
def nextFrom (procs : Proclist) : ℕ → ℕ → Except PyError ℕ
  | 0, _ => .error .loops
  | fuel + 1, curr =>
      let curr := if curr + 1 = procs.procsched.length then 0 else curr + 1
      if (procs.plist (procs.procsched.getD curr 0)).done = false then .ok curr
      else nextFrom procs fuel curr

def next (procs : Proclist) : Except PyError Proclist := do
  let curr ← procs.nextFrom procs.procsched.length procs.curr
  return { procs with curr }

/-- `none` for a bad schedule; without threads there is none to restore. -/
def finalize (procs : Proclist) (procsched : Option (List ℕ)) : Option Proclist :=
  match procsched with
  | none =>
      if procs.getnum = 0 then none
      else some { procs with procsched := List.range procs.getnum, curr := 0 }
  | some procsched =>
      if (∀ p ∈ procsched, p < procs.getnum) ∧ procsched.dedup.length = procs.active ∧
          procsched ≠ [] then
        some { procs with manual := true, procsched, curr := 0 }
      else none

end Proclist

/-! ## The main loop -/

/-- The options of a run, and the program. -/
structure Options where
  program : List Instr
  loadaddr : ℤ
  memsize : ℕ
  intfreq : ℕ
  intrand : Bool
  intfreq_pos : 0 < intfreq

structure State where
  cpu : Cpu
  memory : Memory
  procs : Proclist
  interrupt : ℤ
  icount : ℕ
  trace : ℕ → List Entry

/-- The keys of `pmemory`. -/
def Options.isCode (o : Options) : Value → Bool
  | .int addr => o.loadaddr ≤ addr && addr < o.loadaddr + o.program.length
  | .str _ => false

/-- The instructions from an address on. -/
def load : List Instr → ℤ → Memory → Memory
  | [], _, memory => memory
  | instruction :: program, pc, memory =>
      load program (pc + 1) (Function.update memory (.int pc) (some (.str [instruction])))

def initMemory (memsize : ℕ) : Memory
  | .int addr => if 0 ≤ addr ∧ addr < memsize * 1024 then some (.int 0) else none
  | .str _ => none

def setint (o : Options) (manual : Bool) (draw : ℕ) : ℤ :=
  if manual then 1
  else if o.intrand = false then o.intfreq
  else draw % o.intfreq + 1

/-- Fetch, decode and execute. Only where the program is, there is text to print. -/
def execute (o : Options) (cpu : Cpu) (memory : Memory) : Except PyError (Rc × Memory × Entry) :=
  match memory cpu.PC with
  | none => .error .keyError
  | some (.int _) => .error .typeError
  | some (.str [instruction]) => do
      let pc ← cpu.PC.add (.int 1)
      let ((rc, cpu'), memory', accesses) ← run (instruction.eval { cpu with PC := pc }) memory
      if o.isCode cpu.PC then return (rc, memory', ⟨cpu.PC, instruction, cpu', accesses⟩)
      else throw .keyError
  | some (.str _) => .error .syntaxError

def State.restore (s : State) : State := { s with cpu := s.procs.getcurr.restore s.cpu }

/-- `procs.next()` and `procs.restore()` -/
def State.switch (s : State) : Except PyError State := do
  let procs ← s.procs.next
  return { s with procs }.restore

/-- The interrupt processing. -/
def State.countdown (o : Options) (draw : ℕ) (rc : Rc) (s : State) : Except PyError State :=
  let s := { s with interrupt := s.interrupt - 1 }
  if s.interrupt = 0 ∨ rc = some (-2) then
    { s with
      interrupt := setint o s.procs.manual draw
      procs := s.procs.save s.cpu }.switch
  else .ok s

/-- All threads are done, and `run` has returned. -/
def State.done (s : State) : Bool := s.procs.numdone = s.procs.getnum

def step (o : Options) (s : State) (draw : ℕ) : Except PyError State := do
  let (rc, memory, entry) ← execute o s.cpu s.memory
  let current := s.procs.current
  let s := { s with
    cpu := entry.cpu
    memory
    icount := s.icount + 1
    trace := Function.update s.trace current (s.trace current ++ [entry]) }
  if rc = some (-1) then do
    let s := { s with procs := s.procs.done }
    if s.done then return s
    else (← s.switch).countdown o draw rc
  else s.countdown o draw rc

/-! ## The start -/

/-- The state before the loop. -/
def startWith (o : Options) (procs : Proclist) (draw : ℕ) : State :=
  State.restore {
    cpu := ⟨.int 0, fun _ => .int 0, fun _ => false⟩
    memory := load o.program o.loadaddr (initMemory o.memsize)
    procs
    interrupt := setint o procs.manual draw
    icount := 0
    trace := fun _ => [] }

/-- The arguments of a thread: its own, or those for all threads. -/
def threadArg (argv : List (List (Reg × ℤ))) (t : ℕ) : List (Reg × ℤ) :=
  if 1 < argv.length then argv.getD t [] else argv.getD 0 []

/-- The thread as it is added to the list. -/
def thread (o : Options) (argv : List (List (Reg × ℤ))) (t : ℕ) : Process :=
  Process.new o.loadaddr (o.memsize * 1000 - 1000 * t) (threadArg argv t)

def start (o : Options) (numthreads : ℕ) (argv : List (List (Reg × ℤ)))
    (procsched : Option (List ℕ)) (draw : ℕ) : Option State :=
  if argv.length = numthreads ∨ argv.length = 1 then
    (Proclist.finalize ⟨thread o argv, numthreads, numthreads, false, [], 0⟩ procsched).map
      fun procs => startWith o procs draw
  else none

/-- The thread alone. -/
def startAlone (o : Options) (argv : List (List (Reg × ℤ))) (t draw : ℕ) : State :=
  startWith o ⟨fun _ => thread o argv t, 1, 1, false, [0], 0⟩ draw

end OsLabs.X86
