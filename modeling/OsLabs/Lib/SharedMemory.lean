import Mathlib

/-!
# Computations over a memory

What a computation does depends on what it reads. In memories that agree where it
reads and writes it does the same.
-/

namespace OsLabs.SharedMemory

/-- The accesses of a computation to the memory, one after the other. A memory may
have nothing at an address. -/
inductive Access (A V ε α : Type)
  | ret (result : α)
  | fail (error : ε)
  | read (addr : A) (next : Option V → Access A V ε α)
  | write (addr : A) (value : V) (next : Access A V ε α)

variable {A V ε α β : Type}

def Access.bind : Access A V ε α → (α → Access A V ε β) → Access A V ε β
  | .ret result, f => f result
  | .fail error, _ => .fail error
  | .read addr next, f => .read addr fun value => (next value).bind f
  | .write addr value next, f => .write addr value (next.bind f)

instance : Monad (Access A V ε) where
  pure := .ret
  bind := .bind

/-- An access that took place. -/
inductive Event (A V : Type)
  | read (addr : A) (value : Option V)
  | write (addr : A) (value : V)

def Event.addr : Event A V → A
  | .read addr _ => addr
  | .write addr _ => addr

section Run

variable [DecidableEq A]

/-- The result, the memory afterwards and the accesses. -/
def run : Access A V ε α → (A → Option V) → Except ε (α × (A → Option V) × List (Event A V))
  | .ret result, memory => .ok (result, memory, [])
  | .fail error, _ => .error error
  | .read addr next, memory =>
      (run (next (memory addr)) memory).map fun (result, memory', events) =>
        (result, memory', .read addr (memory addr) :: events)
  | .write addr value next, memory =>
      (run next (Function.update memory addr (some value))).map fun (result, memory', events) =>
        (result, memory', .write addr value :: events)

/-- What the accesses make of a memory. -/
def replay : List (Event A V) → (A → Option V) → A → Option V
  | [], memory => memory
  | .read _ _ :: events, memory => replay events memory
  | .write addr value :: events, memory =>
      replay events (Function.update memory addr (some value))

theorem exists_of_map_eq_ok {x : Except ε α} {f : α → β} {b : β} (h : x.map f = .ok b) :
    ∃ a, x = .ok a ∧ f a = b := by
  cases x with
  | error e => cases h
  | ok a => exact ⟨a, rfl, Except.ok.inj h⟩

variable {c : Access A V ε α} {m m' n : A → Option V} {result : α}
  {events : List (Event A V)} {x : A}

theorem replay_congr (h : m x = n x) : replay events m x = replay events n x := by
  induction events generalizing m n with
  | nil => exact h
  | cons event events ih =>
      cases event with
      | read addr value => exact ih h
      | write addr value =>
          refine ih ?_
          obtain rfl | hne := eq_or_ne x addr
          · rw [Function.update_self, Function.update_self]
          · rw [Function.update_of_ne hne, Function.update_of_ne hne, h]

/-- Only what is written changes. -/
theorem replay_of_not_written (h : ∀ value, Event.write x value ∉ events) (m : A → Option V) :
    replay events m x = m x := by
  induction events generalizing m with
  | nil => rfl
  | cons event events ih =>
      have hrest := ih fun value hmem => h value (List.mem_cons_of_mem _ hmem)
      cases event with
      | read addr value => exact hrest m
      | write addr value =>
          have hne : x ≠ addr := by
            rintro rfl
            exact h value List.mem_cons_self
          rw [replay, hrest, Function.update_of_ne hne]

theorem run_memory (h : run c m = .ok (result, m', events)) : m' = replay events m := by
  induction c generalizing m events with
  | ret r =>
      obtain ⟨-, rfl, rfl⟩ : r = result ∧ m = m' ∧ [] = events := by simpa [run] using h
      rfl
  | fail error => cases h
  | read addr next ih =>
      obtain ⟨⟨r, m₁, es⟩, hrun, heq⟩ := exists_of_map_eq_ok h
      obtain ⟨rfl, rfl, rfl⟩ : r = result ∧ m₁ = m' ∧ _ = events := by simpa using heq
      exact (ih _ hrun :)
  | write addr value next ih =>
      obtain ⟨⟨r, m₁, es⟩, hrun, heq⟩ := exists_of_map_eq_ok h
      obtain ⟨rfl, rfl, rfl⟩ : r = result ∧ m₁ = m' ∧ _ = events := by simpa using heq
      exact (ih hrun :)

/-- In a memory that agrees where the accesses are, the computation does the same. -/
theorem run_congr (h : run c m = .ok (result, m', events))
    (hagree : ∀ event ∈ events, m event.addr = n event.addr) :
    run c n = .ok (result, replay events n, events) := by
  induction c generalizing m n events with
  | ret r =>
      obtain ⟨rfl, -, rfl⟩ : r = result ∧ m = m' ∧ [] = events := by simpa [run] using h
      rfl
  | fail error => cases h
  | read addr next ih =>
      obtain ⟨⟨r, m₁, es⟩, hrun, heq⟩ := exists_of_map_eq_ok h
      obtain ⟨rfl, rfl, rfl⟩ : r = result ∧ m₁ = m' ∧ _ = events := by simpa using heq
      have hvalue : m addr = n addr := hagree _ List.mem_cons_self
      have hrest := ih _ hrun fun event hevent => hagree event (List.mem_cons_of_mem _ hevent)
      rw [hvalue] at hrest
      rw [run, hrest, ← hvalue]
      rfl
  | write addr value next ih =>
      obtain ⟨⟨r, m₁, es⟩, hrun, heq⟩ := exists_of_map_eq_ok h
      obtain ⟨rfl, rfl, rfl⟩ : r = result ∧ m₁ = m' ∧ _ = events := by simpa using heq
      have hrest := ih (n := Function.update n addr (some value)) hrun fun event hevent => by
        obtain heq | hne := eq_or_ne event.addr addr
        · rw [heq, Function.update_self, Function.update_self]
        · rw [Function.update_of_ne hne, Function.update_of_ne hne]
          exact hagree event (List.mem_cons_of_mem _ hevent)
      rw [run, hrest]
      rfl

end Run

end OsLabs.SharedMemory
