import Mathlib
import OsLabs.Lib.Transition
import OsLabs.Lib.Threads
import OsLabs.Lib.Ring

/-!
# The bounded buffer with semaphores

`producer_consumer_works.c`: one producer, any number of consumers, and the
main thread that creates and joins them. The producer hands out as many `-1` as
there are consumers, and a consumer leaves with the first that it gets.
-/

namespace OsLabs.Concurrent.ProducerConsumer

open OsLabs.Transition OsLabs.Threads OsLabs.Ring

inductive MainLoc
  | createProducer
  | createConsumer (i : ℕ)
  | joinProducer
  | joinConsumer (i : ℕ)
  | done
deriving DecidableEq, Repr

/-- The first loop of the producer fills the buffer with `i`, the second, where
`ending` holds, with `-1`. -/
inductive ProducerLoc
  | unborn
  | test (ending : Bool) (i : ℕ)
  | waitEmpty (ending : Bool) (i : ℕ)
  | waitMutex (ending : Bool) (i : ℕ)
  | fillStore (ending : Bool) (i : ℕ)
  | fillAdvance (ending : Bool) (i : ℕ)
  | postMutex (ending : Bool) (i : ℕ)
  | postFull (ending : Bool) (i : ℕ)
  | finished
deriving DecidableEq, Repr

inductive ConsumerLoc
  | unborn
  | test (tmp : ℤ)
  | waitFull
  | waitMutex
  | getLoad
  | getAdvance (tmp : ℤ)
  | postMutex (tmp : ℤ)
  | postEmpty (tmp : ℤ)
  | finished
deriving DecidableEq, Repr

inductive Thread (consumers : ℕ)
  | main
  | producer
  | consumer (i : Fin consumers)
deriving DecidableEq, Repr

/-- `stored` tells the slots that are filled and not yet read, `filled` the
values in the order of `do_fill`, `taken` who got what in the order of `do_get`. -/
structure State (consumers : ℕ) where
  buffer : ℕ → ℤ
  use : ℕ
  fill : ℕ
  empty : ℕ
  full : ℕ
  mutex : ℕ
  main : MainLoc
  producer : ProducerLoc
  consumer : Fin consumers → ConsumerLoc
  stored : ℕ → Bool
  filled : List ℤ
  taken : List (Fin consumers × ℤ)

variable {consumers : ℕ}

/-- The state in which `main` has set up the buffer and the semaphores. -/
def initial (max : ℕ) : State consumers :=
  ⟨fun _ => 0, 0, 0, max, 0, 1, .createProducer, .unborn, fun _ => .unborn, fun _ => false, [], []⟩

/-- `fill++` or `use++`, with the test that follows. Nobody else reads them in between. -/
def advance (max index : ℕ) : ℕ := if index + 1 = max then 0 else index + 1

/-- The argument of `do_fill`. -/
def value (ending : Bool) (i : ℕ) : ℤ := if ending then -1 else i

/-- `main` creates the threads and joins them in the same order. -/
def stepMain (s : State consumers) : Option (State consumers) :=
  match s.main with
  | .createProducer => some { s with producer := .test false 0, main := .createConsumer 0 }
  | .createConsumer i =>
      if h : i < consumers then
        some { s with
          consumer := Function.update s.consumer ⟨i, h⟩ (.test 0)
          main := .createConsumer (i + 1) }
      else some { s with main := .joinProducer }
  | .joinProducer =>
      if s.producer = .finished then some { s with main := .joinConsumer 0 } else none
  | .joinConsumer i =>
      if h : i < consumers then
        if s.consumer ⟨i, h⟩ = .finished then some { s with main := .joinConsumer (i + 1) }
        else none
      else some { s with main := .done }
  | .done => none

def stepProducer (max loops : ℕ) (s : State consumers) : Option (State consumers) :=
  match s.producer with
  | .unborn => none
  | .test false i =>
      some { s with producer := if i < loops then .waitEmpty false i else .test true 0 }
  | .test true i =>
      some { s with producer := if i < consumers then .waitEmpty true i else .finished }
  | .waitEmpty ending i =>
      (semWait s.empty).map fun empty => { s with empty, producer := .waitMutex ending i }
  | .waitMutex ending i =>
      (semWait s.mutex).map fun mutex => { s with mutex, producer := .fillStore ending i }
  | .fillStore ending i =>
      some { s with
        buffer := Function.update s.buffer s.fill (value ending i)
        stored := Function.update s.stored s.fill true
        filled := s.filled ++ [value ending i]
        producer := .fillAdvance ending i }
  | .fillAdvance ending i =>
      some { s with fill := advance max s.fill, producer := .postMutex ending i }
  | .postMutex ending i =>
      some { s with mutex := semPost s.mutex, producer := .postFull ending i }
  | .postFull ending i =>
      some { s with full := semPost s.full, producer := .test ending (i + 1) }
  | .finished => none

def State.goto (s : State consumers) (i : Fin consumers) (loc : ConsumerLoc) : State consumers :=
  { s with consumer := Function.update s.consumer i loc }

def stepConsumer (max : ℕ) (s : State consumers) (i : Fin consumers) : Option (State consumers) :=
  match s.consumer i with
  | .unborn => none
  | .test tmp => some (s.goto i (if tmp ≠ -1 then .waitFull else .finished))
  | .waitFull => (semWait s.full).map fun full => { s with full }.goto i .waitMutex
  | .waitMutex => (semWait s.mutex).map fun mutex => { s with mutex }.goto i .getLoad
  | .getLoad =>
      some ({ s with
        stored := Function.update s.stored s.use false
        taken := s.taken ++ [(i, s.buffer s.use)] }.goto i (.getAdvance (s.buffer s.use)))
  | .getAdvance tmp => some ({ s with use := advance max s.use }.goto i (.postMutex tmp))
  | .postMutex tmp => some ({ s with mutex := semPost s.mutex }.goto i (.postEmpty tmp))
  | .postEmpty tmp => some ({ s with empty := semPost s.empty }.goto i (.test tmp))
  | .finished => none

def step (max loops : ℕ) (s : State consumers) : Thread consumers → Option (State consumers)
  | .main => stepMain s
  | .producer => stepProducer max loops s
  | .consumer i => stepConsumer max s i

def State.finished (s : State consumers) : Thread consumers → Prop
  | .main => s.main = .done
  | .producer => s.producer = .finished
  | .consumer i => s.consumer i = .finished

/-- What the consumer `i` has got. -/
def State.output (s : State consumers) (i : Fin consumers) : List ℤ :=
  (s.taken.filter fun p => p.1 = i).map Prod.snd

/-! ## Who is where -/

@[simp] def ProducerLoc.holds : ProducerLoc → ℕ
  | .fillStore _ _ | .fillAdvance _ _ | .postMutex _ _ => 1
  | _ => 0

/-- A slot is claimed, but not filled yet. -/
@[simp] def ProducerLoc.claimed : ProducerLoc → ℕ
  | .waitMutex _ _ | .fillStore _ _ => 1
  | _ => 0

/-- The slot is filled, but not announced yet. -/
@[simp] def ProducerLoc.announcing : ProducerLoc → ℕ
  | .fillAdvance _ _ | .postMutex _ _ | .postFull _ _ => 1
  | _ => 0

@[simp] def ProducerLoc.advancing : ProducerLoc → ℕ
  | .fillAdvance _ _ => 1
  | _ => 0

@[simp] def ConsumerLoc.holds : ConsumerLoc → ℕ
  | .getLoad | .getAdvance _ | .postMutex _ => 1
  | _ => 0

/-- A value is claimed, but not read yet. -/
@[simp] def ConsumerLoc.taking : ConsumerLoc → ℕ
  | .waitMutex | .getLoad => 1
  | _ => 0

/-- The value is read, but its slot is not announced yet. -/
@[simp] def ConsumerLoc.freeing : ConsumerLoc → ℕ
  | .getAdvance _ | .postMutex _ | .postEmpty _ => 1
  | _ => 0

@[simp] def ConsumerLoc.advancing : ConsumerLoc → ℕ
  | .getAdvance _ => 1
  | _ => 0

/-- The consumer has got its `-1`. -/
@[simp] def ConsumerLoc.ended : ConsumerLoc → ℕ
  | .test tmp | .getAdvance tmp | .postMutex tmp | .postEmpty tmp => if tmp = -1 then 1 else 0
  | .finished => 1
  | _ => 0

/-- What the producer has filled in before its step `i`. -/
def produced (loops : ℕ) (ending : Bool) (i : ℕ) : List ℤ :=
  if ending then (List.range loops).map Nat.cast ++ List.replicate i (-1)
  else (List.range i).map Nat.cast

/-- `filled` is what the producer's place tells, and its step is one of its loop. -/
def Produced (loops consumers : ℕ) (filled : List ℤ) : ProducerLoc → Prop
  | .unborn => filled = []
  | .test ending i => filled = produced loops ending i ∧ i ≤ if ending then consumers else loops
  | .waitEmpty ending i | .waitMutex ending i | .fillStore ending i =>
      filled = produced loops ending i ∧ i < if ending then consumers else loops
  | .fillAdvance ending i | .postMutex ending i | .postFull ending i =>
      filled = produced loops ending (i + 1) ∧ i < if ending then consumers else loops
  | .finished => filled = produced loops true consumers

/-- Whom `main` has created and joined. -/
def Started (main : MainLoc) (producer : ProducerLoc) (consumer : Fin consumers → ConsumerLoc) :
    Prop :=
  match main with
  | .createProducer => producer = .unborn ∧ ∀ i, consumer i = .unborn
  | .createConsumer k => producer ≠ .unborn ∧ ∀ i, consumer i = .unborn ↔ k ≤ i
  | .joinProducer => producer ≠ .unborn ∧ ∀ i, consumer i ≠ .unborn
  | .joinConsumer k => producer = .finished ∧
      ∀ i, consumer i ≠ .unborn ∧ (i.val < k → consumer i = .finished)
  | .done => producer = .finished ∧ ∀ i, consumer i = .finished

/-- What the slot `x` holds. -/
def State.cells (s : State consumers) (x : ℕ) : Option ℤ :=
  if s.stored x then some (s.buffer x) else none

structure Inv (max loops : ℕ) (s : State consumers) : Prop where
  mutex : s.mutex + s.producer.holds + total s.consumer ConsumerLoc.holds = 1
  empty : s.empty + s.producer.claimed + s.filled.length + total s.consumer ConsumerLoc.freeing =
    max + s.taken.length
  full : s.full + total s.consumer ConsumerLoc.taking + s.taken.length + s.producer.announcing =
    s.filled.length
  fill : s.fill < max ∧ (s.fill + s.producer.advancing) % max = s.filled.length % max
  use : s.use < max ∧
    (s.use + total s.consumer ConsumerLoc.advancing) % max = s.taken.length % max
  fifo : Holds max 0 s.cells s.filled (s.taken.map Prod.snd)
  produced : Produced loops consumers s.filled s.producer
  output : ∀ i, StreamOk (-1) (s.output i) (s.consumer i).ended
  ended : total s.consumer ConsumerLoc.ended = (s.taken.map Prod.snd).count (-1)
  started : Started s.main s.producer s.consumer

variable {max loops : ℕ} {s s' : State consumers} {i j : Fin consumers} {a b : ConsumerLoc}

/-- What moves when a consumer goes from `a` to `b`. -/
theorem update_totals {pc : Fin consumers → ConsumerLoc} (hpc : pc i = a) (b : ConsumerLoc) :
    (total (Function.update pc i b) ConsumerLoc.holds + a.holds =
        total pc ConsumerLoc.holds + b.holds ∧
      total (Function.update pc i b) ConsumerLoc.taking + a.taking =
        total pc ConsumerLoc.taking + b.taking) ∧
    total (Function.update pc i b) ConsumerLoc.freeing + a.freeing =
      total pc ConsumerLoc.freeing + b.freeing ∧
    total (Function.update pc i b) ConsumerLoc.advancing + a.advancing =
      total pc ConsumerLoc.advancing + b.advancing ∧
    total (Function.update pc i b) ConsumerLoc.ended + a.ended =
      total pc ConsumerLoc.ended + b.ended := by
  have hmoved := fun w : ConsumerLoc → ℕ => hpc ▸ total_update pc w i b
  exact ⟨⟨hmoved _, hmoved _⟩, hmoved _, hmoved _, hmoved _⟩

theorem inv_init (hmax : 0 < max) : Inv max loops (initial max : State consumers) := by
  have hzero (w : ConsumerLoc → ℕ) (hw : w .unborn = 0) :
      total (fun _ : Fin consumers => ConsumerLoc.unborn) w = 0 := total_const hw
  constructor <;> simp [initial, hzero ConsumerLoc.holds rfl, hzero ConsumerLoc.taking rfl,
    hzero ConsumerLoc.freeing rfl, hzero ConsumerLoc.advancing rfl, hzero ConsumerLoc.ended rfl,
    hmax, Produced, StreamOk, State.output, Started]
  exact Holds.init hmax fun _ _ => rfl

/-- The step of a thread that `main` has created changes nothing for `main`. -/
theorem Started.producer {main : MainLoc} {p p' : ProducerLoc}
    {consumer : Fin consumers → ConsumerLoc} (h : Started main p consumer) (hborn : p ≠ .unborn)
    (hrunning : p ≠ .finished) (hp' : p' ≠ .unborn) : Started main p' consumer := by
  cases main with
  | createProducer => exact absurd h.1 hborn
  | createConsumer k => exact ⟨hp', h.2⟩
  | joinProducer => exact ⟨hp', h.2⟩
  | joinConsumer k => exact absurd h.1 hrunning
  | done => exact absurd h.1 hrunning

theorem Started.consumer {main : MainLoc} {p : ProducerLoc}
    {consumer : Fin consumers → ConsumerLoc} (h : Started main p consumer)
    (hborn : consumer i ≠ .unborn) (hrunning : consumer i ≠ .finished) (hb : b ≠ .unborn) :
    Started main p (Function.update consumer i b) := by
  cases main with
  | createProducer => exact absurd (h.2 i) hborn
  | createConsumer k =>
      refine ⟨h.1, fun j => ?_⟩
      obtain rfl | hji := eq_or_ne j i
      · rw [Function.update_self]
        exact ⟨fun hunborn => absurd hunborn hb, fun hk => absurd ((h.2 j).mpr hk) hborn⟩
      · rw [Function.update_of_ne hji]
        exact h.2 j
  | joinProducer =>
      refine ⟨h.1, fun j => ?_⟩
      obtain rfl | hji := eq_or_ne j i
      · rwa [Function.update_self]
      · rw [Function.update_of_ne hji]
        exact h.2 j
  | joinConsumer k =>
      refine ⟨h.1, fun j => ?_⟩
      obtain rfl | hji := eq_or_ne j i
      · rw [Function.update_self]
        exact ⟨hb, fun hk => absurd ((h.2 j).2 hk) hrunning⟩
      · rw [Function.update_of_ne hji]
        exact h.2 j
  | done => exact absurd (h.2 i) hrunning

/-- The steps of a consumer that read no slot. -/
theorem Inv.moveConsumer (h : Inv max loops s) (hpc : s.consumer i = a) {empty full mutex : ℕ}
    {main : MainLoc} (hstarted : Started main s.producer (Function.update s.consumer i b))
    (hadvancing : b.advancing = a.advancing) (hended : b.ended = a.ended)
    (hempty : empty + b.freeing = s.empty + a.freeing)
    (hfull : full + b.taking = s.full + a.taking)
    (hmutex : mutex + b.holds = s.mutex + a.holds) :
    Inv max loops ({ s with empty, full, mutex, main }.goto i b) := by
  have hmoved := update_totals hpc b
  have hsame : total (Function.update s.consumer i b) ConsumerLoc.advancing =
      total s.consumer ConsumerLoc.advancing := by omega
  have := h.mutex
  have := h.empty
  have := h.full
  have := h.ended
  constructor
  case fill => exact h.fill
  case use => simpa only [State.goto, hsame] using h.use
  case fifo => exact h.fifo
  case produced => exact h.produced
  case started => exact hstarted
  case output =>
    intro j
    obtain rfl | hji := eq_or_ne j i
    · simpa only [State.goto, State.output, Function.update_self, hended, ← hpc] using h.output j
    · simpa only [State.goto, State.output, Function.update_of_ne hji] using h.output j
  all_goals simp only [State.goto]; omega

/-- The steps of the producer that fill no slot. -/
theorem Inv.moveProducer (h : Inv max loops s) {p p' : ProducerLoc} (hpc : s.producer = p)
    {empty full mutex : ℕ} {main : MainLoc} (hstarted : Started main p' s.consumer)
    (hproduced : Produced loops consumers s.filled p')
    (hadvancing : p'.advancing = p.advancing)
    (hempty : empty + p'.claimed = s.empty + p.claimed)
    (hfull : full + p'.announcing = s.full + p.announcing)
    (hmutex : mutex + p'.holds = s.mutex + p.holds) :
    Inv max loops { s with empty, full, mutex, main, producer := p' } := by
  subst hpc
  have := h.mutex
  have := h.empty
  have := h.full
  constructor
  case fill => simpa only [hadvancing] using h.fill
  case use => exact h.use
  case fifo => exact h.fifo
  case produced => exact hproduced
  case started => exact hstarted
  case output => exact h.output
  case ended => exact h.ended
  all_goals dsimp only; omega

theorem advance_lt {index : ℕ} (h : index < max) : advance max index < max := by
  unfold advance
  split <;> omega

theorem advance_mod (max index : ℕ) : advance max index % max = (index + 1) % max := by
  unfold advance
  split
  · next heq => rw [heq, Nat.mod_self, Nat.zero_mod]
  · rfl

theorem Inv.stepMain (h : Inv max loops s) (hstep : stepMain s = some s') : Inv max loops s' := by
  unfold ProducerConsumer.stepMain at hstep
  have hstarted := h.started
  cases hmain : s.main with
  | createProducer =>
      simp only [hmain] at hstep hstarted
      obtain rfl := Option.some.inj hstep
      have hfilled : s.filled = [] := by
        have hproduced := h.produced
        rwa [hstarted.1] at hproduced
      have hnext : Started (.createConsumer 0) (.test false 0) s.consumer :=
        ⟨by simp, fun i => by simp [hstarted.2 i]⟩
      exact h.moveProducer hstarted.1 hnext ⟨hfilled, Nat.zero_le _⟩ rfl rfl rfl rfl
  | createConsumer k =>
      simp only [hmain] at hstep hstarted
      split at hstep
      · next hk =>
          obtain rfl := Option.some.inj hstep
          have hpc : s.consumer ⟨k, hk⟩ = .unborn := (hstarted.2 ⟨k, hk⟩).mpr le_rfl
          have hnext : Started (.createConsumer (k + 1)) s.producer
              (Function.update s.consumer ⟨k, hk⟩ (.test 0)) := by
            refine ⟨hstarted.1, fun j => ?_⟩
            obtain rfl | hj := eq_or_ne j ⟨k, hk⟩
            · simp
            · rw [Function.update_of_ne hj, hstarted.2 j]
              have : j.val ≠ k := fun heq => hj (Fin.ext heq)
              omega
          exact h.moveConsumer hpc hnext rfl (by simp) rfl rfl rfl
      · next hk =>
          obtain rfl := Option.some.inj hstep
          refine h.moveProducer rfl ⟨hstarted.1, fun j hj => ?_⟩ h.produced rfl rfl rfl rfl
          have := (hstarted.2 j).mp hj
          omega
  | joinProducer =>
      simp only [hmain] at hstep hstarted
      split at hstep
      · next hfinished =>
          obtain rfl := Option.some.inj hstep
          exact h.moveProducer rfl ⟨hfinished, fun j => ⟨hstarted.2 j, fun hj => by omega⟩⟩
            h.produced rfl rfl rfl rfl
      · cases hstep
  | joinConsumer k =>
      simp only [hmain] at hstep hstarted
      split at hstep
      · next hk =>
          split at hstep
          · next hfinished =>
              obtain rfl := Option.some.inj hstep
              refine h.moveProducer rfl ⟨hstarted.1, fun j => ⟨(hstarted.2 j).1, fun hj => ?_⟩⟩
                h.produced rfl rfl rfl rfl
              obtain hlt | heq := Nat.lt_succ_iff_lt_or_eq.mp hj
              · exact (hstarted.2 j).2 hlt
              · rwa [show j = ⟨k, hk⟩ from Fin.ext heq]
          · cases hstep
      · next hk =>
          obtain rfl := Option.some.inj hstep
          exact h.moveProducer rfl ⟨hstarted.1, fun j => (hstarted.2 j).2 (by omega)⟩
            h.produced rfl rfl rfl rfl
  | done =>
      simp only [hmain] at hstep
      cases hstep

theorem produced_succ (loops : ℕ) (ending : Bool) (i : ℕ) :
    produced loops ending i ++ [value ending i] = produced loops ending (i + 1) := by
  cases ending with
  | false => simp [produced, value, List.range_succ]
  | true => simp [produced, value, List.replicate_succ']

/-- The producer stores at the next place of the ring, which is empty. -/
theorem Inv.at_store (h : Inv max loops s) {ending : Bool} {i : ℕ}
    (hpc : s.producer = .fillStore ending i) :
    s.fill = (0 + s.filled.length) % max ∧ s.cells s.fill = none ∧
      s.filled.length < (s.taken.map Prod.snd).length + max := by
  have hfill := h.fill
  have hempty := h.empty
  rw [hpc] at hfill hempty
  dsimp at hfill hempty
  have hplace : s.fill = (0 + s.filled.length) % max := by
    rw [Nat.zero_add, ← hfill.2, Nat.mod_eq_of_lt hfill.1]
  have hroom : s.filled.length < (s.taken.map Prod.snd).length + max := by
    rw [List.length_map]
    omega
  exact ⟨hplace, hplace ▸ h.fifo.next_empty hroom, hroom⟩

theorem Inv.fillStore (h : Inv max loops s) {ending : Bool} {i : ℕ}
    (hpc : s.producer = .fillStore ending i) :
    Inv max loops { s with
      buffer := Function.update s.buffer s.fill (value ending i)
      stored := Function.update s.stored s.fill true
      filled := s.filled ++ [value ending i]
      producer := .fillAdvance ending i } := by
  obtain ⟨hplace, -, hroom⟩ := h.at_store hpc
  obtain ⟨hmutex, hempty, hfull, hfill, huse, hfifo, hproduced, houtput, hended, hstarted⟩ := h
  rw [hpc] at hmutex hempty hfull hproduced hstarted
  dsimp at hmutex hempty hfull
  have hlength : (s.filled ++ [value ending i]).length = s.filled.length + 1 :=
    List.length_append
  constructor
  case fill =>
    refine ⟨hfill.1, ?_⟩
    rw [hlength, hplace, Nat.zero_add]
    exact Nat.mod_add_mod ..
  case use => exact huse
  case fifo =>
    refine hfifo.fill hroom ?_ fun x _ hx => ?_
    · simp only [State.cells, ← hplace, Function.update_self, if_true]
    · rw [← hplace] at hx
      simp only [State.cells, Function.update_of_ne hx]
  case produced => exact ⟨by rw [hproduced.1, produced_succ], hproduced.2⟩
  case started => exact hstarted.producer (by simp) (by simp) (by simp)
  case output => exact houtput
  case ended => exact hended
  all_goals dsimp only [ProducerLoc.holds, ProducerLoc.claimed, ProducerLoc.announcing]; omega

theorem Inv.fillAdvance (h : Inv max loops s) {ending : Bool} {i : ℕ}
    (hpc : s.producer = .fillAdvance ending i) :
    Inv max loops { s with fill := advance max s.fill, producer := .postMutex ending i } := by
  obtain ⟨hmutex, hempty, hfull, hfill, huse, hfifo, hproduced, houtput, hended, hstarted⟩ := h
  rw [hpc] at hmutex hempty hfull hfill hproduced hstarted
  simp only [ProducerLoc.holds, ProducerLoc.claimed, ProducerLoc.announcing,
    ProducerLoc.advancing, add_zero] at hmutex hempty hfull hfill
  constructor
  case fill => exact ⟨advance_lt hfill.1, (advance_mod max s.fill).trans hfill.2⟩
  case use => exact huse
  case fifo => exact hfifo
  case produced => exact hproduced
  case started => exact hstarted.producer (by simp) (by simp) (by simp)
  case output => exact houtput
  case ended => exact hended
  all_goals dsimp only [ProducerLoc.holds, ProducerLoc.claimed, ProducerLoc.announcing]; omega

theorem Inv.stepProducer (h : Inv max loops s) (hstep : stepProducer max loops s = some s') :
    Inv max loops s' := by
  unfold ProducerConsumer.stepProducer at hstep
  have hproduced := h.produced
  have hstarted {p p' : ProducerLoc} (hpc : s.producer = p) (hborn : p ≠ .unborn)
      (hrunning : p ≠ .finished) (hp' : p' ≠ .unborn) : Started s.main p' s.consumer :=
    h.started.producer (hpc ▸ hborn) (hpc ▸ hrunning) hp'
  cases hpc : s.producer with
  | unborn =>
      simp only [hpc] at hstep
      cases hstep
  | test ending i =>
      simp only [hpc] at hstep hproduced
      cases ending with
      | false =>
          obtain rfl := Option.some.inj hstep
          split
          · next hi =>
              exact h.moveProducer hpc (hstarted hpc (by simp) (by simp) (by simp))
                ⟨hproduced.1, hi⟩ rfl rfl rfl rfl
          · next hi =>
              have hall : i = loops := Nat.le_antisymm hproduced.2 (Nat.le_of_not_lt hi)
              have hnext : s.filled = ProducerConsumer.produced loops true 0 := by
                rw [hproduced.1, hall]
                exact (List.append_nil _).symm
              exact h.moveProducer hpc (hstarted hpc (by simp) (by simp) (by simp))
                ⟨hnext, Nat.zero_le _⟩ rfl rfl rfl rfl
      | true =>
          obtain rfl := Option.some.inj hstep
          split
          · next hi =>
              exact h.moveProducer hpc (hstarted hpc (by simp) (by simp) (by simp))
                ⟨hproduced.1, hi⟩ rfl rfl rfl rfl
          · next hi =>
              have hall : i = consumers := Nat.le_antisymm hproduced.2 (Nat.le_of_not_lt hi)
              exact h.moveProducer hpc (hstarted hpc (by simp) (by simp) (by simp))
                (hall ▸ hproduced.1) rfl rfl rfl rfl
  | waitEmpty ending i =>
      simp only [hpc, Option.map_eq_some_iff, semWait_eq_some] at hstep
      obtain ⟨empty, hempty, rfl⟩ := hstep
      rw [hpc] at hproduced
      exact h.moveProducer hpc (hstarted hpc (by simp) (by simp) (by simp)) hproduced rfl
        (by simp [hempty]) rfl rfl
  | waitMutex ending i =>
      simp only [hpc, Option.map_eq_some_iff, semWait_eq_some] at hstep
      obtain ⟨mutex, hmutex, rfl⟩ := hstep
      rw [hpc] at hproduced
      exact h.moveProducer hpc (hstarted hpc (by simp) (by simp) (by simp)) hproduced rfl
        rfl rfl (by simp [hmutex])
  | fillStore ending i =>
      simp only [hpc] at hstep
      obtain rfl := Option.some.inj hstep
      exact h.fillStore hpc
  | fillAdvance ending i =>
      simp only [hpc] at hstep
      obtain rfl := Option.some.inj hstep
      exact h.fillAdvance hpc
  | postMutex ending i =>
      simp only [hpc] at hstep hproduced
      obtain rfl := Option.some.inj hstep
      exact h.moveProducer hpc (hstarted hpc (by simp) (by simp) (by simp)) hproduced
        rfl rfl rfl rfl
  | postFull ending i =>
      simp only [hpc] at hstep hproduced
      obtain rfl := Option.some.inj hstep
      exact h.moveProducer hpc (hstarted hpc (by simp) (by simp) (by simp)) hproduced
        rfl rfl rfl rfl
  | finished =>
      simp only [hpc] at hstep
      cases hstep

/-- The mutex keeps the other consumers away from `use`. -/
theorem Inv.advancing_eq (h : Inv max loops s) (hpc : s.consumer i = a) (ha : 0 < a.holds) :
    total s.consumer ConsumerLoc.advancing = a.advancing := by
  have hmutex := h.mutex
  have hone : total s.consumer ConsumerLoc.holds ≤ 1 := by omega
  rw [← hpc] at ha ⊢
  exact total_eq_of_alone (fun x => by cases x <;> simp) hone ha

/-- A consumer reads the oldest value. -/
theorem Inv.at_load (h : Inv max loops s) (hpc : s.consumer i = .getLoad) :
    s.use = (0 + (s.taken.map Prod.snd).length) % max ∧ s.cells s.use = some (s.buffer s.use) ∧
      (s.taken.map Prod.snd).length < s.filled.length := by
  have huse := h.use
  have htaking := le_total s.consumer ConsumerLoc.taking i
  rw [hpc] at htaking
  rw [h.advancing_eq hpc (by simp)] at huse
  dsimp at huse htaking
  have hplace : s.use = (0 + (s.taken.map Prod.snd).length) % max := by
    rw [Nat.zero_add, List.length_map, ← huse.2, Nat.mod_eq_of_lt huse.1]
  have hnonempty : (s.taken.map Prod.snd).length < s.filled.length := by
    have hfull := h.full
    rw [List.length_map]
    omega
  refine ⟨hplace, ?_, hnonempty⟩
  obtain ⟨v, hv, -⟩ := h.fifo.next_full hnonempty
  rw [← hplace] at hv
  unfold State.cells at hv ⊢
  split at hv
  · next hstored => rw [if_pos hstored]
  · cases hv

theorem Inv.getLoad (h : Inv max loops s) (hpc : s.consumer i = .getLoad) :
    Inv max loops ({ s with
      stored := Function.update s.stored s.use false
      taken := s.taken ++ [(i, s.buffer s.use)] }.goto i (.getAdvance (s.buffer s.use))) := by
  obtain ⟨hplace, hcell, hnonempty⟩ := h.at_load hpc
  have hadvancing := h.advancing_eq hpc (by simp)
  obtain ⟨hmutex, hempty, hfull, hfill, huse, hfifo, hproduced, houtput, hended, hstarted⟩ := h
  generalize s.buffer s.use = v at hcell ⊢
  have hmoved := update_totals hpc (.getAdvance v)
  have htaking := le_total s.consumer ConsumerLoc.taking i
  rw [hpc] at htaking
  dsimp at hmoved htaking hadvancing
  have hlength : (s.taken ++ [(i, v)]).length = s.taken.length + 1 := List.length_append
  have hvalues : (s.taken ++ [(i, v)]).map Prod.snd = s.taken.map Prod.snd ++ [v] :=
    List.map_append
  constructor
  case fill => exact hfill
  case use =>
    refine ⟨huse.1, ?_⟩
    have hlast : total (Function.update s.consumer i (.getAdvance v))
        ConsumerLoc.advancing = 1 := by omega
    simp only [State.goto, hlast, hlength]
    rw [hplace, Nat.zero_add, List.length_map]
    exact Nat.mod_add_mod ..
  case fifo =>
    simp only [State.goto, hvalues]
    refine hfifo.drain hnonempty (hplace ▸ hcell) ?_ fun x _ hx => ?_
    · simp only [State.cells, ← hplace, Function.update_self]
      rfl
    · rw [← hplace] at hx
      simp only [State.cells, Function.update_of_ne hx]
  case produced => exact hproduced
  case started => exact hstarted.consumer (by simp [hpc]) (by simp [hpc]) (by simp)
  case output =>
    intro j
    have hj := houtput j
    obtain rfl | hji := eq_or_ne i j
    · rw [hpc] at hj
      have := hj.append (v := v)
      simpa [State.goto, State.output] using this
    · simpa [State.goto, State.output, hji, Function.update_of_ne hji.symm] using hj
  case ended =>
    simp only [State.goto, hvalues, List.count_append, List.count_singleton, beq_iff_eq]
    omega
  all_goals simp only [State.goto]; omega

theorem Inv.getAdvance (h : Inv max loops s) {tmp : ℤ} (hpc : s.consumer i = .getAdvance tmp) :
    Inv max loops ({ s with use := advance max s.use }.goto i (.postMutex tmp)) := by
  have hadvancing := h.advancing_eq hpc (by simp)
  obtain ⟨hmutex, hempty, hfull, hfill, huse, hfifo, hproduced, houtput, hended, hstarted⟩ := h
  have hmoved := update_totals hpc (.postMutex tmp)
  dsimp at hmoved hadvancing
  constructor
  case fill => exact hfill
  case use =>
    have hlast : total (Function.update s.consumer i (.postMutex tmp))
        ConsumerLoc.advancing = 0 := by omega
    simp only [State.goto, hlast, add_zero]
    exact ⟨advance_lt huse.1, by rw [advance_mod, ← huse.2, hadvancing]⟩
  case fifo => exact hfifo
  case produced => exact hproduced
  case started => exact hstarted.consumer (by simp [hpc]) (by simp [hpc]) (by simp)
  case output =>
    intro j
    have hj := houtput j
    obtain rfl | hji := eq_or_ne j i
    · rw [hpc] at hj
      simpa [State.goto, State.output] using hj
    · simpa [State.goto, State.output, Function.update_of_ne hji] using hj
  all_goals simp only [State.goto]; omega

theorem Inv.stepConsumer (h : Inv max loops s) (hstep : stepConsumer max s i = some s') :
    Inv max loops s' := by
  unfold ProducerConsumer.stepConsumer at hstep
  have hstarted {a b : ConsumerLoc} (hpc : s.consumer i = a) (hborn : a ≠ .unborn)
      (hrunning : a ≠ .finished) (hb : b ≠ .unborn) :
      Started s.main s.producer (Function.update s.consumer i b) :=
    h.started.consumer (hpc ▸ hborn) (hpc ▸ hrunning) hb
  cases hpc : s.consumer i with
  | unborn =>
      simp only [hpc] at hstep
      cases hstep
  | test tmp =>
      simp only [hpc] at hstep
      obtain rfl := Option.some.inj hstep
      split
      · next htmp =>
          exact h.moveConsumer hpc (hstarted hpc (by simp) (by simp) (by simp)) rfl
            (by simp [htmp]) rfl rfl rfl
      · next htmp =>
          rw [not_not] at htmp
          exact h.moveConsumer hpc (hstarted hpc (by simp) (by simp) (by simp)) rfl
            (by simp [htmp]) rfl rfl rfl
  | waitFull =>
      simp only [hpc, Option.map_eq_some_iff, semWait_eq_some] at hstep
      obtain ⟨full, hfull, rfl⟩ := hstep
      exact h.moveConsumer hpc (hstarted hpc (by simp) (by simp) (by simp)) rfl rfl rfl
        (by simp [hfull]) rfl
  | waitMutex =>
      simp only [hpc, Option.map_eq_some_iff, semWait_eq_some] at hstep
      obtain ⟨mutex, hmutex, rfl⟩ := hstep
      exact h.moveConsumer hpc (hstarted hpc (by simp) (by simp) (by simp)) rfl rfl rfl rfl
        (by simp [hmutex])
  | getLoad =>
      simp only [hpc] at hstep
      obtain rfl := Option.some.inj hstep
      exact h.getLoad hpc
  | getAdvance tmp =>
      simp only [hpc] at hstep
      obtain rfl := Option.some.inj hstep
      exact h.getAdvance hpc
  | postMutex tmp =>
      simp only [hpc] at hstep
      obtain rfl := Option.some.inj hstep
      exact h.moveConsumer hpc (hstarted hpc (by simp) (by simp) (by simp)) rfl rfl rfl rfl rfl
  | postEmpty tmp =>
      simp only [hpc] at hstep
      obtain rfl := Option.some.inj hstep
      exact h.moveConsumer hpc (hstarted hpc (by simp) (by simp) (by simp)) rfl rfl rfl rfl rfl
  | finished =>
      simp only [hpc] at hstep
      cases hstep

theorem Inv.step (h : Inv max loops s) {t : Thread consumers}
    (hstep : step max loops s t = some s') : Inv max loops s' := by
  cases t with
  | main => exact h.stepMain hstep
  | producer => exact h.stepProducer hstep
  | consumer i => exact h.stepConsumer hstep

/-! ## No deadlock -/

theorem stepMain_none (h : stepMain s = none) :
    s.main = .done ∨ s.main = .joinProducer ∧ s.producer ≠ .finished ∨
      ∃ k, ∃ hk : k < consumers, s.main = .joinConsumer k ∧ s.consumer ⟨k, hk⟩ ≠ .finished := by
  unfold stepMain at h
  cases hmain : s.main with
  | createProducer => simp [hmain] at h
  | createConsumer k =>
      simp only [hmain] at h
      split at h <;> cases h
  | joinProducer =>
      simp only [hmain] at h
      split at h
      · cases h
      · next hp => exact Or.inr (Or.inl ⟨rfl, hp⟩)
  | joinConsumer k =>
      simp only [hmain] at h
      split at h
      · next hk =>
          split at h
          · cases h
          · next hc => exact Or.inr (Or.inr ⟨k, hk, rfl, hc⟩)
      · cases h
  | done => exact Or.inl rfl

theorem stepProducer_none (h : stepProducer max loops s = none) :
    s.producer = .unborn ∨ s.producer = .finished ∨
      (∃ ending i, s.producer = .waitEmpty ending i) ∧ s.empty = 0 ∨
      (∃ ending i, s.producer = .waitMutex ending i) ∧ s.mutex = 0 := by
  unfold stepProducer at h
  cases hpc : s.producer with
  | unborn => exact Or.inl rfl
  | finished => exact Or.inr (Or.inl rfl)
  | waitEmpty ending i =>
      simp only [hpc, Option.map_eq_none_iff, semWait_eq_none] at h
      exact Or.inr (Or.inr (Or.inl ⟨⟨ending, i, rfl⟩, h⟩))
  | waitMutex ending i =>
      simp only [hpc, Option.map_eq_none_iff, semWait_eq_none] at h
      exact Or.inr (Or.inr (Or.inr ⟨⟨ending, i, rfl⟩, h⟩))
  | test ending i =>
      simp only [hpc] at h
      cases ending <;> cases h
  | _ =>
      simp only [hpc] at h
      cases h

theorem stepConsumer_none (h : stepConsumer max s i = none) :
    s.consumer i = .unborn ∨ s.consumer i = .finished ∨ s.consumer i = .waitFull ∧ s.full = 0 ∨
      s.consumer i = .waitMutex ∧ s.mutex = 0 := by
  unfold stepConsumer at h
  cases hpc : s.consumer i with
  | unborn => exact Or.inl rfl
  | finished => exact Or.inr (Or.inl rfl)
  | waitFull =>
      simp only [hpc, Option.map_eq_none_iff, semWait_eq_none] at h
      exact Or.inr (Or.inr (Or.inl ⟨rfl, h⟩))
  | waitMutex =>
      simp only [hpc, Option.map_eq_none_iff, semWait_eq_none] at h
      exact Or.inr (Or.inr (Or.inr ⟨rfl, h⟩))
  | _ =>
      simp only [hpc] at h
      cases h

theorem step_finished {t : Thread consumers} (h : s.finished t) : step max loops s t = none := by
  cases t with
  | main => simp only [step, stepMain, show s.main = .done from h]
  | producer => simp only [step, stepProducer, show s.producer = .finished from h]
  | consumer i => simp only [step, stepConsumer, show s.consumer i = .finished from h]

/-- Nobody waits for the mutex when all are blocked, as its holder is not. -/
theorem mutex_free (h : Inv max loops s) (hblocked : ∀ t, step max loops s t = none) :
    0 < s.mutex := by
  by_contra hzero
  have hmutex := h.mutex
  have hproducer : s.producer.holds = 0 := by
    obtain hp | hp | ⟨⟨ending, i, hp⟩, -⟩ | ⟨⟨ending, i, hp⟩, -⟩ :=
      stepProducer_none (hblocked .producer) <;> rw [hp] <;> rfl
  have hconsumer : total s.consumer ConsumerLoc.holds = 0 := total_eq_zero_iff.mpr fun i => by
    obtain hc | hc | ⟨hc, -⟩ | ⟨hc, -⟩ := stepConsumer_none (hblocked (.consumer i)) <;>
      rw [hc] <;> rfl
  omega

theorem count_produced (loops : ℕ) (ending : Bool) (i : ℕ) :
    (produced loops ending i).count (-1) = if ending then i else 0 := by
  have hnone (n : ℕ) : ((List.range n).map (Nat.cast : ℕ → ℤ)).count (-1) = 0 := by
    rw [List.count_eq_zero]
    intro hmem
    obtain ⟨k, -, hk⟩ := List.mem_map.mp hmem
    omega
  cases ending <;> simp [produced, hnone]

theorem ended_le (x : ConsumerLoc) : x.ended ≤ 1 := by
  cases x <;> simp only [ConsumerLoc.ended] <;> first | omega | (split <;> omega)

/-- The threads that `main` joins have been created. -/
theorem Started.born {main : MainLoc} {p : ProducerLoc} {consumer : Fin consumers → ConsumerLoc}
    (h : Started main p consumer) (hmain : main = .joinProducer ∨ ∃ k, main = .joinConsumer k) :
    p ≠ .unborn ∧ ∀ i, consumer i ≠ .unborn := by
  obtain rfl | ⟨k, rfl⟩ := hmain
  · exact h
  · exact ⟨by simp [h.1], fun i => (h.2 i).1⟩

/-- A blocked consumer has left or waits for a value. -/
theorem consumer_blocked (h : Inv max loops s) (hblocked : ∀ t, step max loops s t = none)
    (hborn : ∀ i, s.consumer i ≠ .unborn) (i : Fin consumers) :
    s.consumer i = .finished ∨ s.consumer i = .waitFull ∧ s.full = 0 := by
  have hfree := mutex_free h hblocked
  obtain hc | hc | hc | ⟨-, hzero⟩ := stepConsumer_none (hblocked (.consumer i))
  · exact absurd hc (hborn i)
  · exact Or.inl hc
  · exact Or.inr hc
  · omega

/-- If the producer has left, the values that are still to come suffice. -/
theorem consumers_finished (h : Inv max loops s) (hblocked : ∀ t, step max loops s t = none)
    (hproducer : s.producer = .finished) (hborn : ∀ i, s.consumer i ≠ .unborn)
    (i : Fin consumers) : s.consumer i = .finished := by
  have hwaits := consumer_blocked h hblocked hborn
  obtain hc | ⟨hc, hzero⟩ := hwaits i
  · exact hc
  have hproduced := h.produced
  have hfull := h.full
  rw [hproducer] at hproduced hfull
  have htaking : total s.consumer ConsumerLoc.taking = 0 := total_eq_zero_iff.mpr fun j => by
    obtain hj | ⟨hj, -⟩ := hwaits j <;> rw [hj] <;> rfl
  -- everything has been taken, so all consumers have got their `-1`
  have hall : s.taken.map Prod.snd = s.filled := by
    apply h.fifo.order.eq_of_length
    rw [List.length_map]
    dsimp at hfull
    omega
  have hended : total s.consumer ConsumerLoc.ended = Fintype.card (Fin consumers) := by
    rw [h.ended, hall, show s.filled = _ from hproduced, count_produced, Fintype.card_fin]
    rfl
  have hone := (total_eq_card_iff ended_le).mp hended i
  rw [hc] at hone
  cases hone

/-- The producer does not wait for a consumer that has left. -/
theorem producer_finished (h : Inv max loops s) (hmax : 0 < max) (hconsumers : 0 < consumers)
    (hblocked : ∀ t, step max loops s t = none) (hproducer : s.producer ≠ .unborn)
    (hborn : ∀ i, s.consumer i ≠ .unborn) : s.producer = .finished := by
  have hwaits := consumer_blocked h hblocked hborn
  have hfree := mutex_free h hblocked
  obtain hp | hp | ⟨⟨ending, k, hp⟩, hzero⟩ | ⟨-, hzero⟩ := stepProducer_none (hblocked .producer)
  · exact absurd hp hproducer
  · exact hp
  · exfalso
    have hproduced := h.produced
    have hfull := h.full
    have hempty := h.empty
    rw [hp] at hproduced hfull hempty
    have htaking : total s.consumer ConsumerLoc.taking = 0 := total_eq_zero_iff.mpr fun j => by
      obtain hj | ⟨hj, -⟩ := hwaits j <;> rw [hj] <;> rfl
    have hfreeing : total s.consumer ConsumerLoc.freeing = 0 := total_eq_zero_iff.mpr fun j => by
      obtain hj | ⟨hj, -⟩ := hwaits j <;> rw [hj] <;> rfl
    dsimp at hfull hempty
    -- the buffer is full, so the consumers have left, each with a `-1`
    have hended : total s.consumer ConsumerLoc.ended = Fintype.card (Fin consumers) := by
      refine (total_eq_card_iff ended_le).mpr fun j => ?_
      obtain hj | ⟨-, hj⟩ := hwaits j
      · rw [hj]
        rfl
      · omega
    have hcount := h.fifo.order.sublist.count_le (-1)
    rw [← h.ended, hended, hproduced.1, count_produced, Fintype.card_fin] at hcount
    have hlt := hproduced.2
    cases ending <;> simp at hcount hlt <;> omega
  · omega

/-- If `main` waits for a thread, some thread can step. -/
theorem finished_of_blocked (h : Inv max loops s) (hmax : 0 < max) (hconsumers : 0 < consumers)
    (hblocked : ∀ t, step max loops s t = none) (t : Thread consumers) : s.finished t := by
  have hstarted := h.started
  have hmain : s.main = .done := by
    obtain hmain | ⟨hmain, hp⟩ | ⟨k, hk, hmain, hc⟩ := stepMain_none (hblocked .main)
    · exact hmain
    · obtain ⟨hproducer, hborn⟩ := hstarted.born (Or.inl hmain)
      exact absurd (producer_finished h hmax hconsumers hblocked hproducer hborn) hp
    · obtain ⟨hproducer, hborn⟩ := hstarted.born (Or.inr ⟨k, hmain⟩)
      have hfinished := producer_finished h hmax hconsumers hblocked hproducer hborn
      exact absurd (consumers_finished h hblocked hfinished hborn ⟨k, hk⟩) hc
  rw [hmain] at hstarted
  cases t with
  | main => exact hmain
  | producer => exact hstarted.1
  | consumer i => exact hstarted.2 i

/-! ## The buffer -/

theorem Produced.prefix_all {filled : List ℤ} {p : ProducerLoc}
    (h : Produced loops consumers filled p) : filled <+: produced loops true consumers := by
  have hprefix (ending : Bool) (i : ℕ) (hi : i ≤ if ending then consumers else loops) :
      produced loops ending i <+: produced loops true consumers := by
    cases ending with
    | false =>
        obtain ⟨m, rfl⟩ := Nat.exists_eq_add_of_le (show i ≤ loops from hi)
        simp only [produced, List.range_add, List.map_append, List.append_assoc]
        exact List.prefix_append _ _
    | true =>
        obtain ⟨m, rfl⟩ := Nat.exists_eq_add_of_le (show i ≤ consumers from hi)
        simp only [produced, List.replicate_add, if_true, ← List.append_assoc]
        exact List.prefix_append _ _
  cases p with
  | unborn =>
      rw [show filled = [] from h]
      exact List.nil_prefix
  | test ending i => exact h.1 ▸ hprefix ending i h.2
  | finished => exact (show filled = _ from h) ▸ List.prefix_rfl
  | waitEmpty ending i | waitMutex ending i | fillStore ending i =>
      exact h.1 ▸ hprefix ending i (Nat.le_of_lt h.2)
  | fillAdvance ending i | postMutex ending i | postFull ending i =>
      exact h.1 ▸ hprefix ending (i + 1) h.2

theorem producer_consumer_works (hmax : 1 ≤ max) (hconsumers : 1 ≤ consumers)
    (h : Reach (step max loops) anyStep (initial max : State consumers) s) :
    (s.use < max ∧ s.fill < max) ∧
    (∀ ending i, s.producer = .fillStore ending i → s.stored s.fill = false) ∧
    (∀ i, s.consumer i = .getLoad → s.stored s.use = true) ∧
    (s.taken.map Prod.snd <+: s.filled ∧ s.filled <+: produced loops true consumers) ∧
    (∀ i, -1 ∉ (s.output i).dropLast ∧
      (s.consumer i = .finished → (s.output i).getLast? = some (-1))) ∧
    ((∃ t, ¬ s.finished t) → ∃ t, ¬ s.finished t ∧ ∃ s', step max loops s t = some s') := by
  have hinv : Inv max loops s := h.invariant (inv_init hmax) fun _ _ _ hs _ => hs.step
  refine ⟨⟨hinv.use.1, hinv.fill.1⟩, fun ending i hpc => ?_, fun i hpc => ?_,
    ⟨hinv.fifo.order, hinv.produced.prefix_all⟩, fun i => ?_, fun hunfinished => ?_⟩
  · have hempty := (hinv.at_store hpc).2.1
    unfold State.cells at hempty
    cases hstored : s.stored s.fill with
    | false => rfl
    | true => simp [hstored] at hempty
  · have hfull := (hinv.at_load hpc).2.1
    unfold State.cells at hfull
    cases hstored : s.stored s.use with
    | false => simp [hstored] at hfull
    | true => rfl
  · obtain ⟨hdrop, hlast⟩ := (hinv.output i).last
    exact ⟨hdrop, fun hpc => hlast (by rw [hpc]; rfl)⟩
  · by_contra hnone
    obtain ⟨t, ht⟩ := hunfinished
    refine ht (finished_of_blocked hinv hmax hconsumers (fun t' => ?_) t)
    by_cases hfin : s.finished t'
    · exact step_finished hfin
    · exact Option.eq_none_iff_forall_ne_some.mpr fun s' hs => hnone ⟨t', hfin, s', hs⟩

/-- The consumer is about to read what the producer has filled in. -/
def fillThenGet : List (Thread 1) :=
  .main :: .main :: (List.replicate 7 .producer ++ List.replicate 3 (.consumer 0))

theorem producer_consumer_works_fillThenGet :
    ∃ s, run (step 1 1) (initial 1 : State 1) fillThenGet = some s ∧ s.consumer 0 = .getLoad ∧
      s.stored s.use = true ∧ ∃ t, ¬ s.finished t ∧ ∃ s', step 1 1 s t = some s' := by
  have hrun : ((run (step 1 1) (initial 1 : State 1) fillThenGet).map fun s => s.consumer 0) =
      some .getLoad := by decide +kernel
  obtain ⟨s, hs, hpc⟩ := Option.map_eq_some_iff.mp hrun
  have hworks := producer_consumer_works (le_refl 1) (le_refl 1)
    (reach_of_run_anyStep fillThenGet hs)
  have hunfinished : ¬ s.finished (.consumer 0) := by simp [State.finished, hpc]
  exact ⟨s, hs, hpc, hworks.2.2.1 0 hpc, hworks.2.2.2.2.2 ⟨_, hunfinished⟩⟩

end OsLabs.Concurrent.ProducerConsumer
