import OsLabs.Lib.Checked

/-!
# Bounded stacks

A stack that holds a limited number of values. A push on a full stack and a pop of an empty one do
nothing. A program whose steps each do what some operations on such a stack do prints what the
pops of its run give.
-/

namespace OsLabs.BoundedStack

open OsLabs.Checked

variable {α β σ ε : Type}

inductive Op (α : Type)
  | push (x : α)
  | pop
deriving DecidableEq

/-- The top of the stack is the first of the list. -/
def Op.apply (capacity : ℕ) (stack : List α) : Op α → List α × List α
  | .push x => (if stack.length < capacity then x :: stack else stack, [])
  | .pop => (stack.tail, stack.head?.toList)

/-- The stack after some operations, and what the pops have given. -/
def run (capacity : ℕ) : List α → List (Op α) → List α × List α
  | stack, [] => (stack, [])
  | stack, op :: ops =>
      let next := op.apply capacity stack
      let last := run capacity next.1 ops
      (last.1, next.2 ++ last.2)

/-- One step of a program after another, and all they print. -/
def printed (step : σ → β → Except ε (σ × List α)) : σ → List β → Except ε (σ × List α)
  | s, [] => .ok (s, [])
  | s, b :: bs => do
      let next ← step s b
      let last ← printed step next.1 bs
      return (last.1, next.2 ++ last.2)

variable {capacity : ℕ} {stack : List α} {op : Op α}

theorem run_singleton : run capacity stack [op] = op.apply capacity stack := by
  simp only [run, List.append_nil]

theorem run_append (ops ops' : List (Op α)) : run capacity stack (ops ++ ops') =
    ((run capacity (run capacity stack ops).1 ops').1,
      (run capacity stack ops).2 ++ (run capacity (run capacity stack ops).1 ops').2) := by
  induction ops generalizing stack with
  | nil => rfl
  | cons op ops ih =>
      rw [List.cons_append, run, run, ih]
      simp only [List.append_assoc]

/-- The rule for programs: if each step does what its operations do, so does every run. -/
theorem printed_eq {step : σ → β → Except ε (σ × List α)} {ops : β → List (Op α)}
    {represents : σ → List α → Prop}
    (hstep : ∀ s stack b, represents s stack → ∃ s',
      step s b = .ok (s', (run capacity stack (ops b)).2) ∧
        represents s' (run capacity stack (ops b)).1)
    {s : σ} (h : represents s stack) (bs : List β) :
    ∃ s', printed step s bs = .ok (s', (run capacity stack (bs.flatMap ops)).2) ∧
      represents s' (run capacity stack (bs.flatMap ops)).1 := by
  induction bs generalizing s stack with
  | nil => exact ⟨s, rfl, h⟩
  | cons b bs ih =>
      rcases hstep s stack b h with ⟨s', hs', hnext⟩
      rcases ih hnext with ⟨last, hlast, hrest⟩
      refine ⟨last, ?_, ?_⟩
      · rw [printed, hs', ok_bind, hlast, ok_bind, List.flatMap_cons, run_append]
        rfl
      · rwa [List.flatMap_cons, run_append]

end OsLabs.BoundedStack
