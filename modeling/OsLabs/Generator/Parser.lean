import OsLabs.Generator.Actions
import OsLabs.Lib.PyText

/-!
# The parser

`Parser.parse` of `generator.py`: from the text of a program to a list of actions.
-/

namespace OsLabs.Generator

open OsLabs.PyText (isspace split)

/-! ## Spaces around commas -/

/-- What `\s*,\s*` matches at the start of a text. -/
def matchComma (text : Text) : Option Text :=
  match text.dropWhile isspace with
  | ',' :: rest => some (text.takeWhile isspace ++ ',' :: rest.takeWhile isspace)
  | _ => none

/-- The first match in a text that starts at index `start`, with the index where it ends. -/
def search : Text → ℕ → Option (Text × ℕ)
  | [], _ => none
  | c :: cs, start =>
      match matchComma (c :: cs) with
      | some group => some (group, start + group.length)
      | none => search cs (start + 1)

/-- `text.replace(old, new, 1)` -/
def replaceFirst (old new : Text) : Text → Text
  | [] => if old = [] then new else []
  | c :: cs =>
      if old.isPrefixOf (c :: cs) then new ++ (c :: cs).drop old.length
      else c :: replaceFirst old new cs

/-- The loop over the matches; `pos` is where the next search starts. -/
def closeCommas : ℕ → Text → ℕ → Option Text
  | 0, _, _ => none
  | fuel + 1, program, pos =>
      match search (program.drop pos) pos with
      | none => some program
      | some (group, stop) => closeCommas fuel (replaceFirst group [','] program) stop

/-! ## Tokens -/

/-- `text.replace(c, new)` -/
def replaceAll (c : Char) (new text : Text) : Text :=
  text.flatMap fun d => if d = c then new else [d]

def lbrace : Text := ['\x7b']

def rbrace : Text := ['\x7d']

/-- `none` would be a loop over the commas that goes on. -/
def tokens (program : Text) : Option (List Text) := do
  let program ← closeCommas (program.length + 1) program 0
  let program := replaceAll '\x7b' (' ' :: lbrace ++ [' ']) program
  let program := replaceAll '\x7d' (' ' :: rbrace ++ [' ']) program
  return split program

/-! ## Commands -/

inductive Raised
  | keyError
  | indexError
  deriving DecidableEq

inductive Outcome
  | returns (action_list : List Text)
  | exits (printed : List String)
  | raises (error : Raised)
  deriving DecidableEq

structure ParseState where
  action_list : List Text
  brace_count : ℤ
  wait_count : ℕ → Option ℤ
  fork_level : ℕ

/-- `abort_if` when its condition holds. -/
def abort (orig_program : Text) (message : String) : Outcome :=
  .exits ["bad program: [" ++ String.ofList orig_program ++ "]", message]

def finalChecks (orig_program : Text) (s : ParseState) : Outcome :=
  match s.wait_count 0 with
  | none => .raises .keyError
  | some n =>
      if n ≠ 0 then abort orig_program "#waits does not match #forks"
      else if s.brace_count ≠ 0 then abort orig_program "unbalanced braces"
      else .returns s.action_list

/-- The tokens from `curr` on. -/
def parseTokens (orig_program : Text) : List Text → ParseState → Outcome
  | [], s => finalChecks orig_program s
  | token :: rest, s =>
      if token = [] then parseTokens orig_program rest s
      else if token = "fork".toList then
        match s.wait_count s.fork_level with
        | none => .raises .keyError
        | some n =>
            match rest with
            | [] => abort orig_program ("malformed program: fork needs process name,sleep " ++
                "length plus \x7bdescription\x7d of what the forked process should do")
            | args :: rest =>
                match args.splitOn ',' with
                | [name, time] =>
                    match rest with
                    | [] => .raises .indexError
                    | brace :: rest =>
                        if brace ≠ lbrace then
                          abort orig_program "must have \x7b\x7d following fork"
                        else
                          let wait_count :=
                            Function.update s.wait_count s.fork_level (some (n + 1))
                          parseTokens orig_program rest
                            { action_list := s.action_list ++ [forkText name time]
                              brace_count := s.brace_count + 1
                              wait_count := Function.update wait_count (s.fork_level + 1) (some 0)
                              fork_level := s.fork_level + 1 }
                | _ => abort orig_program "not enough args to fork (process name, sleep time)"
      else if token = rbrace then
        if s.fork_level = 0 then abort orig_program "extra close brace"
        else
          match s.wait_count s.fork_level with
          | none => .raises .keyError
          | some n =>
              if n ≠ 0 then abort orig_program "#waits does not match #forks"
              else parseTokens orig_program rest { s with
                action_list := s.action_list ++ [exitText]
                brace_count := s.brace_count - 1
                fork_level := s.fork_level - 1 }
      else if token = waitText then
        match s.wait_count s.fork_level with
        | none => .raises .keyError
        | some n => parseTokens orig_program rest { s with
            action_list := s.action_list ++ [waitText]
            wait_count := Function.update s.wait_count s.fork_level (some (n - 1)) }
      else abort orig_program ("unrecognized token " ++ String.ofList token)

theorem parseTokens_end (orig_program : Text) (s : ParseState) :
    parseTokens orig_program [] s = finalChecks orig_program s := by
  rw [parseTokens]

def ParseState.start : ParseState where
  action_list := []
  brace_count := 0
  wait_count := Function.update (fun _ => none) 0 (some 0)
  fork_level := 0

/-- `none` would be a parser that does not end. -/
def parse (program : Text) : Option Outcome :=
  (tokens program).map fun tokens => parseTokens program tokens .start

end OsLabs.Generator
