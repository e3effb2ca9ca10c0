import OsLabs.Generator.Actions
import OsLabs.Lib.Brackets

/-!
# The runnable code

`CodeGeneratorRunnable` of `generator.py`, and what the C program that it writes
does: which process executes a line, and how many children it has not waited for.
-/

namespace OsLabs.Generator

open OsLabs.Brackets

/-- What is written at once. The helper functions in front of `main` are fixed
and left out. -/
inductive Write
  | main
  | tab
  | beginThread (thread : Text)
  | fork (thread child : Text)
  | ifFork
  | sleep (time : Text)
  | endThread (thread : Text)
  | close
  | record (thread : Text)
  | wait (thread : Text)
  | fini
  deriving DecidableEq

def Write.text : Write → Text
  | .main => "int main(int argc, char *argv[]) \x7b\n    int rc;\n    ".toList ++
      "t_start = Time_GetSeconds();\n".toList
  | .tab => "    ".toList
  | .beginThread thread => "Begin(\"".toList ++ thread ++ "\");\n".toList
  | .fork thread child =>
      "Fork(\"".toList ++ thread ++ "\", \"".toList ++ child ++ "\");\n".toList
  | .ifFork => "if ((rc = fork_or_die()) == 0) \x7b\n".toList
  | .sleep time => "sleep(".toList ++ time ++ ");\n".toList
  | .endThread thread => "End(\"".toList ++ thread ++ "\");\n".toList
  | .close => "\x7d\n".toList
  | .record thread => "Record(rc, \"".toList ++ thread ++ "\");\n".toList
  | .wait thread => "Wait(\"".toList ++ thread ++ "\");\n".toList
  | .fini => "    return 0;\n\x7d\n\n".toList

inductive Failure
  | keyError
  | indexError
  | assertionError
  | exits
  deriving DecidableEq

/-- `parent_list` has the innermost parent first. -/
structure CodeGenerator where
  out : List Write
  tab_level : ℕ
  curr_thread : Text
  parent_list : List Text
  waiting_for : Text → Option (List Text)

namespace CodeGenerator

/-- `self.fd.write` of these, after `self.tab()`. -/
def line (g : CodeGenerator) (write : Write) : CodeGenerator :=
  { g with out := g.out ++ (List.replicate g.tab_level .tab ++ [write]) }

def add_thread (g : CodeGenerator) (thread_id : Text) : CodeGenerator :=
  { g.line (.beginThread thread_id) with
    waiting_for := Function.update g.waiting_for thread_id (some [])
    curr_thread := thread_id }

def add_fork (g : CodeGenerator) (child_thread : Text) : Except Failure CodeGenerator :=
  match g.waiting_for g.curr_thread with
  | none => .error .keyError
  | some children =>
      let written := (g.line (.fork g.curr_thread child_thread)).line .ifFork
      .ok { written with
        parent_list := g.curr_thread :: g.parent_list
        waiting_for :=
          Function.update g.waiting_for g.curr_thread (some (children ++ [child_thread]))
        tab_level := g.tab_level + 1 }

def add_sleep (g : CodeGenerator) (sleep_time : Text) : CodeGenerator :=
  g.line (.sleep sleep_time)

def add_exit (g : CodeGenerator) : Except Failure CodeGenerator :=
  match g.waiting_for g.curr_thread with
  | none => .error .keyError
  | some children =>
      if children.length > 0 then .error .exits
      else
        let ended := g.line (.endThread g.curr_thread)
        let closed := { ended with tab_level := g.tab_level - 1 }.line .close
        let recorded := closed.line (.record g.curr_thread)
        match g.parent_list with
        | [] => .error .indexError
        | parent :: parents =>
            .ok { recorded with curr_thread := parent, parent_list := parents }

def add_wait (g : CodeGenerator) : Except Failure CodeGenerator :=
  match g.waiting_for g.curr_thread with
  | none => .error .keyError
  | some [] => .error .indexError
  | some (_ :: children) =>
      .ok { g.line (.wait g.curr_thread) with
        waiting_for := Function.update g.waiting_for g.curr_thread (some children) }

/-- The body of the loop of `generate`. -/
def perform (g : CodeGenerator) (action : Text) : Except Failure CodeGenerator :=
  let tmp := action.splitOn ' '
  if tmp.head? = some "fork".toList then
    match tmp with
    | [_, thread_id, sleep_time] => do
        let g ← g.add_fork thread_id
        return (g.add_sleep sleep_time).add_thread thread_id
    | _ => .error .assertionError
  else if tmp.head? = some exitText then
    if tmp.length = 1 then g.add_exit else .error .assertionError
  else if tmp.head? = some waitText then
    if tmp.length = 1 then g.add_wait else .error .assertionError
  else .error .exits

def start : CodeGenerator :=
  add_thread
    { out := [.main], tab_level := 1, curr_thread := [], parent_list := []
      waiting_for := fun _ => none } ['a']

/-- What is written for a list of actions. -/
def generate (actions : List Text) : Except Failure (List Write) := do
  let g ← actions.foldlM perform start
  return g.out ++ [.fini]

end CodeGenerator

/-! ## The program that is written -/

/-- The processes that a line of the program is nested in, innermost first, each with its
number of children not waited for. A process of a fork ends before the brace that closes its
block, so its parent alone goes on behind it. -/
def executeWrite : List ℕ → Write → Option (List ℕ)
  | n :: ns, .ifFork => some (0 :: (n + 1) :: ns)
  | (n + 1) :: ns, .wait _ => some (n :: ns)
  | _ :: n :: ns, .close => some (n :: ns)
  | _, .ifFork => none
  | _, .wait _ => none
  | _, .close => none
  | ns, _ => some ns

/-- `none` when a wait is executed by a process without a child to wait for. -/
def execute (ns : List ℕ) (program : List Write) : Option (List ℕ) :=
  program.foldlM executeWrite ns

/-- The code generator writes a whole program for these actions, its braces balance, and each
wait has a child to wait for. -/
def Complete (actions : List Text) : Prop :=
  ∃ program, CodeGenerator.generate actions = .ok program ∧
    Balanced '\x7b' '\x7d' (program.flatMap Write.text) ∧ ∃ ns, execute [0] program = some ns

end OsLabs.Generator
