import Mathlib
import OsLabs.Lib.Loop

/-!
# The process simulator `process-run.py`

`none` as the result of a transition stands for a failed assertion.
-/

namespace OsLabs.ProcessRun

open OsLabs.Loop

inductive SwitchBehavior
  | schedSwitchOnIo
  | schedSwitchOnEnd
  deriving DecidableEq, Repr

inductive IoDoneBehavior
  | ioRunLater
  | ioRunImmediate
  deriving DecidableEq, Repr

inductive ProcState
  | running
  | ready
  | done
  | wait
  deriving DecidableEq, Repr

inductive Instruction
  | compute
  | io
  | ioDone
  | programmedIo
  deriving DecidableEq, Repr

structure Proc where
  code : List Instruction
  state : ProcState
  deriving DecidableEq, Repr

/-- `ioDelay` is what `run` adds to the clock to get the time an I/O finishes. -/
structure Config where
  processSwitchBehavior : SwitchBehavior
  ioDoneBehavior : IoDoneBehavior
  ioDelay : ℕ
  deriving DecidableEq, Repr

/-- The simulator of `cpu-intro`, where an I/O takes `io_length + 1` ticks. -/
def cpuIntro (processSwitchBehavior : SwitchBehavior) (ioDoneBehavior : IoDoneBehavior)
    (ioLength : ℕ) : Config :=
  ⟨processSwitchBehavior, ioDoneBehavior, ioLength + 1⟩

/-- The simulator of `file-devices`. -/
def fileDevices (processSwitchBehavior : SwitchBehavior) (ioDoneBehavior : IoDoneBehavior)
    (ioLength : ℕ) : Config :=
  ⟨processSwitchBehavior, ioDoneBehavior, ioLength⟩

/-- The scheduler over `num` processes; `executed` records the instructions each
process has executed. -/
structure State where
  num : ℕ
  procInfo : ℕ → Proc
  currProc : ℕ
  ioFinishTimes : ℕ → List ℕ
  clockTick : ℕ
  cpuBusy : ℕ
  ioBusy : ℕ
  executed : ℕ → List Instruction

/-! ## Transitions -/

def State.setState (s : State) (pid : ℕ) (state : ProcState) : State :=
  { s with procInfo := Function.update s.procInfo pid { s.procInfo pid with state } }

/-- The `move_to_*` methods. -/
def moveTo (state : ProcState) (s : State) (expected : ProcState) (pid : ℕ) : Option State :=
  if (s.procInfo pid).state = expected then some (s.setState pid state) else none

def moveToReady (s : State) (expected : ProcState) (pid : ℕ) : Option State :=
  moveTo .ready s expected pid

def moveToWait (s : State) (expected : ProcState) : Option State :=
  moveTo .wait s expected s.currProc

def moveToRunning (s : State) (expected : ProcState) : Option State :=
  moveTo .running s expected s.currProc

def moveToDone (s : State) (expected : ProcState) : Option State :=
  moveTo .done s expected s.currProc

/-- `next_proc` with a process. -/
def nextProcPid (s : State) (pid : ℕ) : Option State :=
  moveToRunning { s with currProc := pid } .ready

/-- `next_proc` without one: the search starts behind the current process. -/
def nextProc (s : State) : Option State :=
  let pids := List.range' (s.currProc + 1) (s.num - (s.currProc + 1)) ++
    List.range (s.currProc + 1)
  match pids.find? fun pid => (s.procInfo pid).state = .ready with
  | some pid => nextProcPid s pid
  | none => some s

def getNumActive (s : State) : ℕ :=
  (List.range s.num).countP fun pid => (s.procInfo pid).state ≠ .done

def getNumRunnable (s : State) : ℕ :=
  (List.range s.num).countP fun pid =>
    (s.procInfo pid).state = .ready ∨ (s.procInfo pid).state = .running

def getIosInFlight (s : State) (currentTime : ℕ) : ℕ :=
  ((List.range s.num).map fun pid => (s.ioFinishTimes pid).countP (currentTime < ·)).sum

def checkIfDone (s : State) : Option State :=
  if (s.procInfo s.currProc).code.length = 0 ∧ (s.procInfo s.currProc).state = .running then do
    let s ← moveToDone s .running
    nextProc s
  else some s

/-! ## One tick of `run` -/

/-- Where a process goes whose I/O has finished. -/
def resume (c : Config) (s : State) (pid : ℕ) : Option State :=
  match c.ioDoneBehavior with
  | .ioRunImmediate => do
      let s ← (if s.currProc ≠ pid ∧ (s.procInfo s.currProc).state = .running then
        moveToReady s .running s.currProc else some s : Option State)
      nextProcPid s pid
  | .ioRunLater => do
      let s ← (if c.processSwitchBehavior = .schedSwitchOnEnd ∧ getNumRunnable s > 1 then
        nextProcPid s pid else some s : Option State)
      if getNumRunnable s = 1 then nextProcPid s pid else some s

/-- What `run` does with a process whose I/O finishes now. -/
def ioFinished (c : Config) (s : State) (pid : ℕ) : Option State := do
  let s ← moveToReady s .wait pid
  let s ← resume c s pid
  checkIfDone s

/-- The loop that checks for I/O finish. -/
def ioCheck (c : Config) : List ℕ → State → Option State
  | [], s => some s
  | pid :: pids, s =>
      if (s.ioFinishTimes pid).contains s.clockTick then (ioFinished c s pid).bind (ioCheck c pids)
      else ioCheck c pids s

/-- The current process executes an instruction if it is running and has one. -/
def execute (s : State) : Option Instruction × State :=
  let proc := s.procInfo s.currProc
  match proc.state, proc.code with
  | .running, instruction :: code => (some instruction,
      { s with
        procInfo := Function.update s.procInfo s.currProc { proc with code }
        cpuBusy := s.cpuBusy + 1
        executed := Function.update s.executed s.currProc
          (s.executed s.currProc ++ [instruction]) })
  | _, _ => (none, s)

def countIo (s : State) : State :=
  if getIosInFlight s s.clockTick > 0 then { s with ioBusy := s.ioBusy + 1 } else s

/-- An I/O instruction blocks the process and sets the time it is done. -/
def startIo (c : Config) (s : State) : Option State := do
  let s ← moveToWait s .running
  let s := { s with
    ioFinishTimes := Function.update s.ioFinishTimes s.currProc
      (s.ioFinishTimes s.currProc ++ [s.clockTick + c.ioDelay]) }
  if c.processSwitchBehavior = .schedSwitchOnIo then nextProc s else some s

/-- The state when the tick is printed: I/Os are checked, nothing has run yet. -/
def beginTick (c : Config) (s : State) : Option State :=
  ioCheck c (List.range s.num) { s with clockTick := s.clockTick + 1 }

def tick (c : Config) (s : State) : Option State := do
  let s ← beginTick c s
  let (instruction, s) := execute s
  let s := countIo s
  let s ← (if instruction = some .io then startIo c s else some s : Option State)
  checkIfDone s

/-! ## Programs and the run -/

/-- A part of a program description: computing for `num` ticks, or an I/O. -/
inductive Line
  | c (num : ℕ)
  | i
  deriving DecidableEq, Repr

/-- An I/O is followed by one instruction that handles its completion. -/
def Line.code : Line → List Instruction
  | .c num => List.replicate num .compute
  | .i => [.io, .ioDone]

def loadProgram (program : List Line) : List Instruction := program.flatMap Line.code

/-- The code of process `pid`. -/
def codeOf (programs : List (List Line)) (pid : ℕ) : List Instruction :=
  loadProgram (programs.getD pid [])

def load (programs : List (List Line)) : State where
  num := programs.length
  procInfo := fun pid => ⟨codeOf programs pid, .ready⟩
  currProc := 0
  ioFinishTimes := fun _ => []
  clockTick := 0
  cpuBusy := 0
  ioBusy := 0
  executed := fun _ => []

/-- The state before the first tick; without processes `run` returns at once. -/
def start (programs : List (List Line)) : State :=
  if programs = [] then load programs else (load programs).setState 0 .running

def finished (s : State) : Bool := getNumActive s = 0

/-- The `while` loop of `run`. -/
def runLoop (c : Config) : ℕ → State → Option State := loop (tick c) finished

end OsLabs.ProcessRun
