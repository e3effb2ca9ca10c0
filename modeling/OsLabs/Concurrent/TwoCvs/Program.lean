import Mathlib
import OsLabs.Lib.Transition
import OsLabs.Lib.Threads
import OsLabs.Lib.Ring

/-!
# The bounded buffer with two condition variables

`main-two-cvs-while.c` with `main-common.c`: producers, consumers and the main
thread, which creates them, fills in an `END_OF_STREAM` for each consumer when
the producers have finished, and joins the consumers.
-/

namespace OsLabs.Concurrent.TwoCvs

open OsLabs.Transition OsLabs.Threads OsLabs.Ring

def EMPTY : ℤ := -2

def END_OF_STREAM : ℤ := -1

/-- The body of the loops that fill the buffer, in `producer` and in `main`. -/
inductive FillLoc
  | lock
  | test
  /-- In `Cond_wait(&empty, &m)`. -/
  | asleep
  /-- Woken, to lock the mutex again. -/
  | woken
  | fill
  | signal
  | unlock
deriving DecidableEq, Repr

inductive MainLoc
  | createProducer (i : ℕ)
  | createConsumer (i : ℕ)
  | joinProducer (i : ℕ)
  | next (i : ℕ)
  | body (i : ℕ) (loc : FillLoc)
  | joinConsumer (i : ℕ)
  | done
deriving DecidableEq, Repr

inductive ProducerLoc
  | unborn
  | next (i : ℕ)
  | body (i : ℕ) (loc : FillLoc)
  | finished
deriving DecidableEq, Repr

inductive ConsumerLoc
  | unborn
  | next (tmp : ℤ)
  | lock
  | test
  /-- In `Cond_wait(&fill, &m)`. -/
  | asleep
  | woken
  | get
  | signal (tmp : ℤ)
  | unlock (tmp : ℤ)
  | finished
deriving DecidableEq, Repr

/-- The buffer and its mutex. `exited` is set when `ensure` fails; `filled` has the
values in the order of `do_fill`, `taken` who got what in the order of `do_get`. -/
structure Shared (consumers : ℕ) where
  buffer : ℕ → ℤ
  use_ptr : ℕ
  fill_ptr : ℕ
  num_full : ℤ
  locked : Bool
  exited : Bool
  filled : List ℤ
  taken : List (Fin consumers × ℤ)

structure State (producers consumers : ℕ) where
  shared : Shared consumers
  main : MainLoc
  producer : Fin producers → ProducerLoc
  consumer : Fin consumers → ConsumerLoc

inductive Thread (producers consumers : ℕ)
  | main
  | producer (i : Fin producers)
  | consumer (i : Fin consumers)
deriving DecidableEq, Repr

/-- A thread steps, signals a sleeper, or wakes without a signal. -/
inductive Act (producers consumers : ℕ)
  | run (t : Thread producers consumers)
  | signal (t u : Thread producers consumers)
  | wake (t : Thread producers consumers)
deriving DecidableEq, Repr

variable {producers consumers : ℕ}

def initial : State producers consumers :=
  ⟨⟨fun _ => EMPTY, 0, 0, 0, false, false, [], []⟩, .createProducer 0, fun _ => .unborn,
    fun _ => .unborn⟩

def do_fill (max : ℕ) (m : Shared consumers) (value : ℤ) : Shared consumers :=
  if m.buffer m.fill_ptr = EMPTY then
    { m with
      buffer := Function.update m.buffer m.fill_ptr value
      fill_ptr := (m.fill_ptr + 1) % max
      num_full := m.num_full + 1
      filled := m.filled ++ [value] }
  else { m with exited := true }

/-- The consumer `i` gets the value that is returned. -/
def do_get (max : ℕ) (m : Shared consumers) (i : Fin consumers) : Shared consumers × ℤ :=
  if m.buffer m.use_ptr ≠ EMPTY then
    ({ m with
      buffer := Function.update m.buffer m.use_ptr EMPTY
      use_ptr := (m.use_ptr + 1) % max
      num_full := m.num_full - 1
      taken := m.taken ++ [(i, m.buffer m.use_ptr)] }, m.buffer m.use_ptr)
  else ({ m with exited := true }, m.buffer m.use_ptr)

def Shared.lock (m : Shared consumers) : Option (Shared consumers) :=
  if m.locked then none else some { m with locked := true }

def Shared.unlock (m : Shared consumers) : Shared consumers := { m with locked := false }

/-- A step of the body, and where it leads: `none` at its end. The signal of
`fill` is this step when no consumer sleeps. -/
def stepBody (max : ℕ) (m : Shared consumers) (value : ℤ) (sleepers : Bool) :
    FillLoc → Option (Shared consumers × Option FillLoc)
  | .lock | .woken => m.lock.map fun m => (m, some .test)
  | .test =>
      some (if m.num_full = max then (m.unlock, some .asleep) else (m, some .fill))
  | .asleep => none
  | .fill => some (do_fill max m value, some .signal)
  | .signal => if sleepers then none else some (m, some .unlock)
  | .unlock => some (m.unlock, none)

def State.consumerSleeps (s : State producers consumers) : Bool :=
  decide (∃ i, s.consumer i = .asleep)

/-- Where the body leads. -/
def MainLoc.after (i : ℕ) : Option FillLoc → MainLoc
  | some loc => .body i loc
  | none => .next (i + 1)

def ProducerLoc.after (i : ℕ) : Option FillLoc → ProducerLoc
  | some loc => .body i loc
  | none => .next (i + 1)

def MainLoc.place : MainLoc → Option FillLoc
  | .body _ loc => some loc
  | _ => none

def ProducerLoc.place : ProducerLoc → Option FillLoc
  | .body _ loc => some loc
  | _ => none

/-- The threads that fill: the main thread and the producers. -/
def State.place (s : State producers consumers) : Option (Fin producers) → Option FillLoc
  | none => s.main.place
  | some i => (s.producer i).place

def State.fillerSleeps (s : State producers consumers) : Bool :=
  decide (∃ i, s.place i = some .asleep)

def stepMain (max : ℕ) (s : State producers consumers) : Option (State producers consumers) :=
  match s.main with
  | .createProducer i =>
      some (if h : i < producers then
        { s with
          producer := Function.update s.producer ⟨i, h⟩ (.next 0)
          main := .createProducer (i + 1) }
      else { s with main := .createConsumer 0 })
  | .createConsumer i =>
      some (if h : i < consumers then
        { s with
          consumer := Function.update s.consumer ⟨i, h⟩ (.next 0)
          main := .createConsumer (i + 1) }
      else { s with main := .joinProducer 0 })
  | .joinProducer i =>
      if h : i < producers then
        if s.producer ⟨i, h⟩ = .finished then some { s with main := .joinProducer (i + 1) }
        else none
      else some { s with main := .next 0 }
  | .next i =>
      some { s with main := if i < consumers then .body i .lock else .joinConsumer 0 }
  | .body i loc =>
      (stepBody max s.shared END_OF_STREAM s.consumerSleeps loc).map fun (shared, loc') =>
        { s with shared, main := .after i loc' }
  | .joinConsumer i =>
      if h : i < consumers then
        if s.consumer ⟨i, h⟩ = .finished then some { s with main := .joinConsumer (i + 1) }
        else none
      else some { s with main := .done }
  | .done => none

/-- The producer with the thread id `id`. -/
def stepProducer (max loops : ℕ) (s : State producers consumers) (id : Fin producers) :
    Option (State producers consumers) :=
  match s.producer id with
  | .unborn => none
  | .next i =>
      some { s with
        producer := Function.update s.producer id (if i < loops then .body i .lock else .finished) }
  | .body i loc =>
      (stepBody max s.shared (id * loops + i : ℕ) s.consumerSleeps loc).map fun (shared, loc') =>
        { s with shared, producer := Function.update s.producer id (.after i loc') }
  | .finished => none

def State.goto (s : State producers consumers) (shared : Shared consumers) (i : Fin consumers)
    (loc : ConsumerLoc) : State producers consumers :=
  { s with shared, consumer := Function.update s.consumer i loc }

def stepConsumer (max : ℕ) (s : State producers consumers) (i : Fin consumers) :
    Option (State producers consumers) :=
  match s.consumer i with
  | .unborn => none
  | .next tmp => some (s.goto s.shared i (if tmp ≠ END_OF_STREAM then .lock else .finished))
  | .lock | .woken => s.shared.lock.map fun shared => s.goto shared i .test
  | .test =>
      some (if s.shared.num_full = 0 then s.goto s.shared.unlock i .asleep
        else s.goto s.shared i .get)
  | .asleep => none
  | .get =>
      some (s.goto (do_get max s.shared i).1 i (.signal (do_get max s.shared i).2))
  | .signal tmp => if s.fillerSleeps then none else some (s.goto s.shared i (.unlock tmp))
  | .unlock tmp => some (s.goto s.shared.unlock i (.next tmp))
  | .finished => none

/-- Puts a sleeper to where it locks the mutex again. -/
def State.wake (s : State producers consumers) :
    Thread producers consumers → Option (State producers consumers)
  | .main =>
      match s.main with
      | .body i .asleep => some { s with main := .body i .woken }
      | _ => none
  | .producer id =>
      match s.producer id with
      | .body i .asleep =>
          some { s with producer := Function.update s.producer id (.body i .woken) }
      | _ => none
  | .consumer i =>
      match s.consumer i with
      | .asleep => some (s.goto s.shared i .woken)
      | _ => none

/-- The step of a thread that signals, once it has woken somebody. -/
def State.signalled (s : State producers consumers) :
    Thread producers consumers → Thread producers consumers → Option (State producers consumers)
  | .main, .consumer _ =>
      match s.main with
      | .body i .signal => some { s with main := .body i .unlock }
      | _ => none
  | .producer id, .consumer _ =>
      match s.producer id with
      | .body i .signal =>
          some { s with producer := Function.update s.producer id (.body i .unlock) }
      | _ => none
  | .consumer i, .main | .consumer i, .producer _ =>
      match s.consumer i with
      | .signal tmp => some (s.goto s.shared i (.unlock tmp))
      | _ => none
  | _, _ => none

/-- When `ensure` fails, the process exits. -/
def step (max loops : ℕ) (s : State producers consumers) (x : Act producers consumers) :
    Option (State producers consumers) :=
  if s.shared.exited then none
  else match x with
    | .run .main => stepMain max s
    | .run (.producer i) => stepProducer max loops s i
    | .run (.consumer i) => stepConsumer max s i
    | .signal t u => (s.wake u).bind fun s' => s'.signalled t u
    | .wake t => s.wake t

def State.finished (s : State producers consumers) : Thread producers consumers → Prop
  | .main => s.main = .done
  | .producer i => s.producer i = .finished
  | .consumer i => s.consumer i = .finished

/-- What the consumer `i` has got. -/
def State.output (s : State producers consumers) (i : Fin consumers) : List ℤ :=
  (s.shared.taken.filter fun p => p.1 = i).map Prod.snd

end OsLabs.Concurrent.TwoCvs
