import Mathlib

/-!
# The page replacement simulator

The loop of `paging-policy.py` over the references. The numbers `random` draws
are given as a sequence; an exception is `none`.
-/

namespace OsLabs.PagingPolicy

inductive Policy
  | fifo
  | lru
  | mru
  | rand
  | clock
  | opt
  | unopt
deriving DecidableEq, Repr

structure Config where
  policy : Policy
  cachesize : ℕ
  clockbits : ℤ

structure State where
  count : ℕ
  memory : List ℤ
  hits : ℕ
  miss : ℕ
  ref : ℤ → Option ℤ
  addrIndex : ℕ
  draws : ℕ

def State.init : State := ⟨0, [], 0, 0, fun _ => none, 0, 0⟩

/-- `memory.pop(idx)`; negative indices count from the end. -/
def pop (memory : List ℤ) (idx : ℤ) : Option (ℤ × List ℤ) :=
  let i := if idx < 0 then memory.length + idx else idx
  if i < 0 then none
  else (memory[i.toNat]?).map fun victim => (victim, memory.eraseIdx i.toNat)

/-- The loop over the references to come, from `futureIdx` on. -/
def whenReferencedFrom (addrCount : ℕ) (page : ℤ) : List ℤ → ℕ → ℕ
  | [], _ => addrCount
  | futurePage :: future, futureIdx =>
      if page = futurePage then futureIdx
      else whenReferencedFrom addrCount page future (futureIdx + 1)

def whenReferenced (addrList : List ℤ) (addrIndex : ℕ) (page : ℤ) : ℕ :=
  whenReferencedFrom addrList.length page (addrList.drop (addrIndex + 1)) (addrIndex + 1)

/-- The loop over `range(0, m)`: the best value so far and its index. -/
def search (memory : List ℤ) (referenced : ℤ → ℕ) (better : ℤ → ℤ → Bool) (start : ℤ) :
    ℕ → Option (ℤ × ℤ)
  | 0 => some (start, -1)
  | pageIndex + 1 => do
      let (best, replaceIdx) ← search memory referenced better start pageIndex
      let page ← memory[pageIndex]?
      if better (referenced page) best then return (referenced page, pageIndex)
      else return (best, replaceIdx)

/-- `OPT` takes the last page with the greatest value. -/
def optSearch (memory : List ℤ) (referenced : ℤ → ℕ) (count : ℕ) : Option (ℤ × ℤ) :=
  search memory referenced (fun whenReferenced maxReplace => whenReferenced ≥ maxReplace) (-1) count

/-- `UNOPT` takes the first page with the least value. -/
def unoptSearch (addrCount : ℕ) (memory : List ℤ) (referenced : ℤ → ℕ) (count : ℕ) :
    Option (ℤ × ℤ) :=
  search memory referenced (fun whenReferenced minReplace => whenReferenced < minReplace)
    (addrCount + 1) count

/-- The loop of `CLOCK`, for so many picks. -/
def clockVictim (random : ℕ → ℕ) (memory : List ℤ) (count : ℕ) :
    ℕ → (ℤ → Option ℤ) → ℕ → Option (ℤ × (ℤ → Option ℤ) × ℕ)
  | 0, _, _ => none
  | picks + 1, ref, draws => do
      let page ← memory[random draws % count]?
      let bits ← ref page
      if bits ≥ 1 then
        clockVictim random memory count picks (Function.update ref page (some (bits - 1)))
          (draws + 1)
      else return (page, ref, draws + 1)

/-- Every pick that meets no victim takes one from a reference count. -/
def clockPicks (memory : List ℤ) (ref : ℤ → Option ℤ) : ℕ :=
  (memory.map fun page => ((ref page).getD 0).toNat).sum + 1

structure Eviction where
  victim : ℤ
  memory : List ℤ
  ref : ℤ → Option ℤ
  draws : ℕ

def popAt (s : State) (idx : ℤ) : Option Eviction :=
  (pop s.memory idx).map fun (victim, memory) => ⟨victim, memory, s.ref, s.draws⟩

def evict (c : Config) (random : ℕ → ℕ) (addrList : List ℤ) (s : State) : Option Eviction :=
  match c.policy with
  | .fifo => popAt s 0
  | .lru => popAt s 0
  | .mru => popAt s (s.count - 1)
  | .rand => (popAt s (random s.draws % s.count : ℕ)).map fun e => { e with draws := s.draws + 1 }
  | .clock => do
      let (victim, ref, draws) ←
        clockVictim random s.memory s.count (clockPicks s.memory s.ref) s.ref s.draws
      return ⟨victim, s.memory.erase victim, Function.update ref victim none, draws⟩
  | .opt => do
      let (_, replaceIdx) ← optSearch s.memory (whenReferenced addrList s.addrIndex) s.count
      popAt s replaceIdx
  | .unopt => do
      let (_, replaceIdx) ←
        unoptSearch addrList.length s.memory (whenReferenced addrList s.addrIndex) s.count
      popAt s replaceIdx

/-- The page is not in memory. -/
def replace (c : Config) (random : ℕ → ℕ) (addrList : List ℤ) (s : State) (n : ℤ) :
    Option State :=
  let s := { s with miss := s.miss + 1 }
  if s.count = c.cachesize then
    match evict c random addrList s with
    | none => none
    | some e =>
        let memory := e.memory ++ [n]
        if e.victim ≠ -1 ∧ e.victim ∈ memory then none
        else some { s with memory, ref := e.ref, draws := e.draws }
  else some { s with count := s.count + 1, memory := s.memory ++ [n] }

/-- The page is in memory. -/
def hit (c : Config) (s : State) (n : ℤ) : State :=
  { s with
    hits := s.hits + 1
    memory :=
      if c.policy = .lru ∨ c.policy = .mru then s.memory.erase n ++ [n] else s.memory }

def touch (c : Config) (ref : ℤ → Option ℤ) (n : ℤ) : ℤ → Option ℤ :=
  match ref n with
  | none => Function.update ref n (some 1)
  | some bits =>
      Function.update ref n (some (if bits + 1 > c.clockbits then c.clockbits else bits + 1))

/-- One round of the main loop. -/
def access (c : Config) (random : ℕ → ℕ) (addrList : List ℤ) (s : State) (n : ℤ) :
    Option State :=
  (if s.memory.contains n then some (hit c s n) else replace c random addrList s n).map fun s =>
    { s with ref := touch c s.ref n, addrIndex := s.addrIndex + 1 }

def loop (c : Config) (random : ℕ → ℕ) (addrList : List ℤ) : State → List ℤ → Option State
  | s, [] => some s
  | s, n :: rest => (access c random addrList s n).bind fun s => loop c random addrList s rest

def simulate (c : Config) (random : ℕ → ℕ) (addrList : List ℤ) : Option State :=
  loop c random addrList State.init addrList

end OsLabs.PagingPolicy
