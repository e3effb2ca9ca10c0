import Mathlib
import OsLabs.Lib.Transition
import OsLabs.Lib.CNumber
import OsLabs.Tsh.JobTable

/-!
# The shell and its children

The functions `eval`, `do_bgfg`, `waitfg` and `sigchld_handler` of `tsh.c` as
one transition system. The shell executes one statement per step; between any
two steps children may exit, be killed or stop, and a pending `SIGCHLD` may be
delivered wherever it is not blocked. One run of the handler is one step.
-/

namespace OsLabs.Tsh

open OsLabs.CNumber

/-! ## Children as the kernel keeps them -/

inductive ChildStatus
  | running
  | stopped
  | exited
  | signaled
deriving DecidableEq, Repr

/-- `reported` says that `waitpid` has returned the current stop; `ownGroup`
that the child has executed `setpgid(0, 0)`. -/
structure Child where
  pid : ℤ
  status : ChildStatus
  reported : Bool
  ownGroup : Bool
deriving DecidableEq, Repr

/-- Will `waitpid(-1, &status, WNOHANG | WUNTRACED)` return this child? -/
def Child.reportable (c : Child) : Bool :=
  match c.status with
  | .running => false
  | .stopped => !c.reported
  | .exited => true
  | .signaled => true

/-- What a child can do by itself. -/
inductive ChildEvent
  | exit
  | signal
  | stop
  | setpgid
deriving DecidableEq, Repr

def ChildEvent.apply (c : Child) : ChildEvent → Option Child
  | .exit => if c.status = .running then some { c with status := .exited } else none
  | .signal =>
      if c.status = .running ∨ c.status = .stopped then some { c with status := .signaled }
      else none
  | .stop =>
      if c.status = .running then some { c with status := .stopped, reported := false } else none
  | .setpgid => if c.status = .running then some { c with ownGroup := true } else none

/-- The effect of `SIGCONT`; a stop that was not reported yet is forgotten. -/
def Child.continue (c : Child) : Child :=
  if c.status = .stopped then { c with status := .running } else c

/-- Does `kill(-pid, ...)` reach this child? `kill(0, ...)` goes to the process
group of the shell. -/
def Child.inGroup (c : Child) (pid : ℤ) : Bool :=
  if pid = 0 then !c.ownGroup else c.ownGroup && c.pid = pid

/-! ## The shell -/

/-- The next statement of the shell. -/
inductive Pc
  | ready
  | evalStart (bg : Bool) (cmdline : String)
  | evalFork (bg : Bool) (cmdline : String)
  | evalAddjob (bg : Bool) (cmdline : String) (pid : ℤ)
  | evalRestore (bg : Bool) (pid : ℤ)
  | bgfgLookup (argv : List String)
  | bgfgKill (fg : Bool) (job : Fin MAXJOBS)
  | bgfgSetState (fg : Bool) (job : Fin MAXJOBS)
  | bgfgWait (job : Fin MAXJOBS)
  | waitTest (pid : ℤ)
  | waitSuspend (pid : ℤ)
  | suspended (pid : ℤ)
  | exited
deriving DecidableEq, Repr

/-- `blocked` says whether `SIGCHLD` is in the signal mask, `prev` whether it is
in the mask that `eval` saved. -/
structure Shell where
  table : JobTable
  pc : Pc
  blocked : Bool
  prev : Bool
  pending : Bool
  children : List Child

/-- The shell inherits its signal mask. -/
def Shell.init (blocked : Bool) : Shell :=
  ⟨initjobs, .ready, blocked, false, false, []⟩

/-- The job `do_bgfg` finds for `argv[1]`; `none` stands for its error messages. -/
def bgfgJob (t : JobTable) (argv : List String) : Option (Fin MAXJOBS) :=
  match argv with
  | _ :: arg :: _ =>
      match arg.toList with
      | '%' :: rest => getjobjid t (atoi rest)
      | c :: rest => if c.isDigit then getjobpid t (atoi (c :: rest)) else none
      | [] => none
  | _ => none

/-- `parseline` has split the command line; `builtin_cmd` looks at `argv[0]`. -/
def evalCommand (argv : List String) (bg : Bool) (cmdline : String) : Pc :=
  match argv with
  | [] => .ready
  | cmd :: _ =>
      if cmd = "quit" then .exited
      else if cmd = "&" then .ready
      else if cmd = "jobs" then .ready
      else if cmd = "bg" ∨ cmd = "fg" then .bgfgLookup argv
      else .evalStart bg cmdline

/-- `kill(-pid, SIGCONT)`; a continued child raises `SIGCHLD`. -/
def Shell.sigcont (s : Shell) (pid : ℤ) : Shell :=
  { s with
    children := s.children.map fun c => if c.inGroup pid then c.continue else c
    pending := s.pending || s.children.any fun c => c.inGroup pid && c.status = .stopped }

/-- The statements that need no input. -/
def shellStep (s : Shell) : Option Shell :=
  match s.pc with
  | .evalStart bg cmdline =>
      some { s with prev := s.blocked, blocked := true, pc := .evalFork bg cmdline }
  | .evalAddjob bg cmdline pid =>
      some { s with
        table := (addjob s.table pid (if bg then .bg else .fg) cmdline).1
        pc := .evalRestore bg pid }
  | .evalRestore bg pid =>
      some { s with blocked := s.prev, pc := if bg then .ready else .waitTest pid }
  | .bgfgLookup argv =>
      match bgfgJob s.table argv with
      | none => some { s with pc := .ready }
      | some job => some { s with pc := .bgfgKill (argv.head? = some "fg") job }
  | .bgfgKill fg job =>
      some { s.sigcont (s.table.jobs job).pid with pc := .bgfgSetState fg job }
  | .bgfgSetState fg job =>
      let entry := s.table.jobs job
      some { s with
        table := s.table.set job { entry with state := if fg then .fg else .bg }
        pc := if fg then .bgfgWait job else .ready }
  | .bgfgWait job => some { s with pc := .waitTest (s.table.jobs job).pid }
  | .waitTest pid =>
      some { s with pc := if fgpid s.table = pid then .waitSuspend pid else .ready }
  | .waitSuspend pid => some { s with pc := .suspended pid }
  | _ => none

/-- `fork` returns a pid that no child has, or `-1`. -/
def forkStep (s : Shell) (result : ℤ) : Option Shell :=
  match s.pc with
  | .evalFork bg cmdline =>
      if result = -1 then some { s with pc := .evalAddjob bg cmdline (-1) }
      else if 1 ≤ result ∧ ∀ c ∈ s.children, c.pid ≠ result then
        some { s with
          children := ⟨result, .running, false, false⟩ :: s.children
          pc := .evalAddjob bg cmdline result }
      else none
  | _ => none

/-! ## The handler -/

/-- The body of the handler's loop for the child `waitpid` has returned. -/
def handleChild (s : Shell) (c : Child) : Shell :=
  if c.status = .stopped then
    { s with
      children := s.children.map fun c' =>
        if c'.pid = c.pid then { c' with reported := true } else c'
      table := markStopped s.table c.pid }
  else
    { s with
      children := s.children.filter fun c' => c'.pid ≠ c.pid
      table := (deletejob s.table c.pid).1 }

/-- The loop of `sigchld_handler`. `order` lists the children in the order in
which `waitpid` returns them; the loop ends when no child is left to report. -/
def handlerLoop (s : Shell) : List ℤ → Option Shell
  | [] => if s.children.all fun c => !c.reportable then some s else none
  | pid :: rest =>
      match s.children.find? fun c => c.pid = pid && c.reportable with
      | none => none
      | some c => handlerLoop (handleChild s c) rest

/-- Where the shell continues after a signal handler has returned. -/
def Pc.resume : Pc → Pc
  | .suspended pid => .waitTest pid
  | pc => pc

/-- `sigsuspend` waits with an empty mask. -/
def Shell.accepts (s : Shell) : Bool :=
  !s.blocked || match s.pc with
    | .suspended _ => true
    | _ => false

def handlerStep (s : Shell) (order : List ℤ) : Option Shell :=
  if s.pending && s.accepts then
    (handlerLoop { s with pending := false } order).map fun s => { s with pc := s.pc.resume }
  else none

/-! ## All steps -/

/-- The steps of the shell, its children and its signals. `otherSignal` is the
return of `sigint_handler` or `sigtstp_handler`, which change no job. -/
inductive Act
  | command (argv : List String) (bg : Bool) (cmdline : String)
  | fork (result : ℤ)
  | shell
  | sigchld (order : List ℤ)
  | otherSignal
  | child (pid : ℤ) (event : ChildEvent)
deriving DecidableEq, Repr

/-- An event of the child with this pid; all but `setpgid` raise `SIGCHLD`. -/
def childStep (s : Shell) (pid : ℤ) (event : ChildEvent) : Option Shell :=
  match s.children.find? fun c => c.pid = pid with
  | none => none
  | some c =>
      (event.apply c).map fun c' =>
        { s with
          children := s.children.map fun d => if d.pid = pid then c' else d
          pending := s.pending || event ≠ .setpgid }

def step (s : Shell) : Act → Option Shell
  | .command argv bg cmdline =>
      if s.pc = .ready then some { s with pc := evalCommand argv bg cmdline } else none
  | .fork result => forkStep s result
  | .shell => shellStep s
  | .sigchld order => handlerStep s order
  | .otherSignal => if s.pc = .exited then none else some { s with pc := s.pc.resume }
  | .child pid event => childStep s pid event

end OsLabs.Tsh
