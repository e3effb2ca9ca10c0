import Mathlib

/-!
# Actions

The actions that `generator.py` makes its C programs from, and the random
generator of action lists.
-/

namespace OsLabs.Generator

abbrev Text := List Char

inductive Action
  | fork (name time : Text)
  | exit
  | wait
  deriving DecidableEq

/-- `'fork %s %s' % (name, time)` -/
def forkText (name time : Text) : Text :=
  "fork ".toList ++ name ++ ' ' :: time

def exitText : Text := "exit".toList

def waitText : Text := "wait".toList

def Action.text : Action → Text
  | .fork name time => forkText name time
  | .exit => exitText
  | .wait => waitText

/-! ## The random generator -/

/-- One turn of the loop of `generate`: what `random.random()` is compared to,
and the sleep time that is drawn after it for a fork. -/
inductive Draw
  | fork (sleep_time : ℕ)
  | wait
  | exit
  deriving DecidableEq

structure ProgramGenerator where
  actions : List Text
  fork_level : ℕ
  need_wait : ℕ → Option ℤ
  name_index : ℕ

/-- `string.ascii_lowercase + string.ascii_uppercase` -/
def names : Text := "abcdefghijklmnopqrstuvwxyzABCDEFGHIJKLMNOPQRSTUVWXYZ".toList

namespace ProgramGenerator

def start : ProgramGenerator where
  actions := []
  fork_level := 0
  need_wait := Function.update (fun _ => none) 0 (some 0)
  name_index := 1

/-- `none` is the exit for want of names. -/
def get_next_name (g : ProgramGenerator) : Option (Text × ProgramGenerator) :=
  if g.name_index = names.length then none
  else (names[g.name_index]?).map fun n => ([n], { g with name_index := g.name_index + 1 })

def add_fork_begin (g : ProgramGenerator) (sleep_time : ℕ) : Option ProgramGenerator := do
  let (name, g) ← g.get_next_name
  let needed ← g.need_wait g.fork_level
  let need_wait := Function.update g.need_wait g.fork_level (some (needed + 1))
  return { g with
    actions := g.actions ++ [forkText name (Nat.toDigits 10 sleep_time)]
    fork_level := g.fork_level + 1
    need_wait := Function.update need_wait (g.fork_level + 1) (some 0) }

def add_wait (g : ProgramGenerator) : Option ProgramGenerator := do
  let needed ← g.need_wait g.fork_level
  return { g with
    actions := g.actions ++ [waitText]
    need_wait := Function.update g.need_wait g.fork_level (some (needed - 1)) }

/-- Also gives what the source returns. -/
def clean_up (g : ProgramGenerator) : Option (ProgramGenerator × ℤ) := do
  let n ← g.need_wait g.fork_level
  let actions := g.actions ++ List.replicate n.toNat waitText
  let actions := if g.fork_level > 0 then actions ++ [exitText] else actions
  return ({ g with actions := actions }, n + 1)

/-- The body of the loop, with the number of actions so far. -/
def turn (g : ProgramGenerator) (n : ℤ) : Draw → Option (ProgramGenerator × ℤ)
  | .fork sleep_time => do
      let g ← g.add_fork_begin sleep_time
      return (g, n + 1)
  | .wait => do
      let needed ← g.need_wait g.fork_level
      if needed > 0 then
        let g ← g.add_wait
        return (g, n + 1)
      else return (g, n)
  | .exit =>
      if g.fork_level > 0 then do
        let (g, added) ← g.clean_up
        return ({ g with fork_level := g.fork_level - 1 }, n + added)
      else some (g, n)

/-- `while n < self.num_actions`; `none` also when the draws do not suffice. -/
def turns (num_actions : ℤ) : List Draw → ProgramGenerator → ℤ → Option ProgramGenerator
  | [], g, n => if n < num_actions then none else some g
  | draw :: draws, g, n =>
      if n < num_actions then do
        let (g, n) ← g.turn n draw
        turns num_actions draws g n
      else some g

/-- `while self.fork_level >= 0`, from level `level`. -/
def clean_up_all : ℕ → ProgramGenerator → Option ProgramGenerator
  | 0, g => do
      let (g, _) ← { g with fork_level := 0 }.clean_up
      return g
  | level + 1, g => do
      let (g, _) ← { g with fork_level := level + 1 }.clean_up
      clean_up_all level g

/-- The list that `generate` returns when these are its draws. -/
def generate (num_actions : ℤ) (draws : List Draw) : Option (List Text) := do
  let g ← turns num_actions draws start 0
  let g ← clean_up_all g.fork_level g
  return g.actions

end ProgramGenerator

end OsLabs.Generator
