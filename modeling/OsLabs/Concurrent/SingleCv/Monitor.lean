import OsLabs.Concurrent.TwoCvs.Monitor

/-!
# The bounded buffer with one condition variable

`pc_single_cv.c`: one producer, which fills in an end mark for each consumer after the
values, and consumers that wait on the same condition as the producer. The bodies of the
loops go through the same places as with two conditions.
-/

namespace OsLabs.Concurrent.SingleCv

open OsLabs.Transition OsLabs.Threads
open OsLabs.Concurrent.TwoCvs (FillLoc ConsumerLoc fillHolds fillSleeping fillAwake filling
  fillSignalling get_totals getting_le)

/-- `end-of-production marker` -/
def marker : ℤ := -1

structure Shared where
  buffer : ℕ → ℤ
  use_ptr : ℕ
  fill_ptr : ℕ
  num_full : ℤ
  locked : Bool

/-- The second loop has the `marks`. -/
inductive ProducerLoc
  | unborn
  | next (marks : Bool) (i : ℕ)
  | body (marks : Bool) (i : ℕ) (loc : FillLoc)
  | finished
deriving DecidableEq, Repr

inductive MainLoc
  | createProducer
  | createConsumer (i : ℕ)
  | joinProducer
  | joinConsumer (i : ℕ)
  | done
deriving DecidableEq, Repr

structure State (consumers : ℕ) where
  shared : Shared
  main : MainLoc
  producer : ProducerLoc
  consumer : Fin consumers → ConsumerLoc

inductive Thread (consumers : ℕ)
  | main
  | producer
  | consumer (i : Fin consumers)
deriving DecidableEq, Repr

/-- A thread steps, signals a sleeper, or wakes without a signal. -/
inductive Act (consumers : ℕ)
  | run (t : Thread consumers)
  | signal (t u : Thread consumers)
  | wake (t : Thread consumers)
deriving DecidableEq, Repr

variable {consumers : ℕ}

def initial : State consumers :=
  ⟨⟨fun _ => 0, 0, 0, 0, false⟩, .createProducer, .unborn, fun _ => .unborn⟩

def do_fill (max : ℕ) (m : Shared) (value : ℤ) : Shared :=
  { m with
    buffer := Function.update m.buffer m.fill_ptr value
    fill_ptr := (m.fill_ptr + 1) % max
    num_full := m.num_full + 1 }

def do_get (max : ℕ) (m : Shared) : Shared × ℤ :=
  ({ m with use_ptr := (m.use_ptr + 1) % max, num_full := m.num_full - 1 }, m.buffer m.use_ptr)

def Shared.lock (m : Shared) : Option Shared :=
  if m.locked then none else some { m with locked := true }

def Shared.unlock (m : Shared) : Shared := { m with locked := false }

def State.consumerSleeps (s : State consumers) : Bool := decide (∃ i, s.consumer i = .asleep)

def ProducerLoc.asleep : ProducerLoc → Bool
  | .body _ _ .asleep => true
  | _ => false

/-- The step that signals is this one when nobody sleeps. -/
def stepBody (max : ℕ) (s : State consumers) (marks : Bool) (i : ℕ) :
    FillLoc → Option (State consumers)
  | .lock | .woken =>
      s.shared.lock.map fun shared => { s with shared, producer := .body marks i .test }
  | .test =>
      some (if s.shared.num_full = max then
        { s with shared := s.shared.unlock, producer := .body marks i .asleep }
      else { s with producer := .body marks i .fill })
  | .asleep => none
  | .fill =>
      some { s with
        shared := do_fill max s.shared (if marks then marker else i)
        producer := .body marks i .signal }
  | .signal => if s.consumerSleeps then none else some { s with producer := .body marks i .unlock }
  | .unlock => some { s with shared := s.shared.unlock, producer := .next marks (i + 1) }

def stepProducer (max loops : ℕ) (s : State consumers) : Option (State consumers) :=
  match s.producer with
  | .unborn => none
  | .next false i =>
      some { s with producer := if i < loops then .body false i .lock else .next true 0 }
  | .next true i =>
      some { s with producer := if i < consumers then .body true i .lock else .finished }
  | .body marks i loc => stepBody max s marks i loc
  | .finished => none

def State.goto (s : State consumers) (shared : Shared) (i : Fin consumers) (loc : ConsumerLoc) :
    State consumers :=
  { s with shared, consumer := Function.update s.consumer i loc }

def stepConsumer (max : ℕ) (s : State consumers) (i : Fin consumers) : Option (State consumers) :=
  match s.consumer i with
  | .unborn => none
  | .next tmp => some (s.goto s.shared i (if tmp ≠ marker then .lock else .finished))
  | .lock | .woken => s.shared.lock.map fun shared => s.goto shared i .test
  | .test =>
      some (if s.shared.num_full = 0 then s.goto s.shared.unlock i .asleep
        else s.goto s.shared i .get)
  | .asleep => none
  | .get => some (s.goto (do_get max s.shared).1 i (.signal (do_get max s.shared).2))
  | .signal tmp =>
      if s.producer.asleep || s.consumerSleeps then none
      else some (s.goto s.shared i (.unlock tmp))
  | .unlock tmp => some (s.goto s.shared.unlock i (.next tmp))
  | .finished => none

def stepMain (s : State consumers) : Option (State consumers) :=
  match s.main with
  | .createProducer => some { s with producer := .next false 0, main := .createConsumer 0 }
  | .createConsumer i =>
      some (if h : i < consumers then
        { s with
          consumer := Function.update s.consumer ⟨i, h⟩ (.next 0)
          main := .createConsumer (i + 1) }
      else { s with main := .joinProducer })
  | .joinProducer =>
      if s.producer = .finished then some { s with main := .joinConsumer 0 } else none
  | .joinConsumer i =>
      if h : i < consumers then
        if s.consumer ⟨i, h⟩ = .finished then some { s with main := .joinConsumer (i + 1) }
        else none
      else some { s with main := .done }
  | .done => none

/-- Puts a sleeper to where it locks the mutex again. -/
def State.wake (s : State consumers) : Thread consumers → Option (State consumers)
  | .main => none
  | .producer =>
      match s.producer with
      | .body marks i .asleep => some { s with producer := .body marks i .woken }
      | _ => none
  | .consumer i =>
      match s.consumer i with
      | .asleep => some (s.goto s.shared i .woken)
      | _ => none

/-- The step of a thread that signals, once it has woken somebody. -/
def State.signalled (s : State consumers) : Thread consumers → Option (State consumers)
  | .main => none
  | .producer =>
      match s.producer with
      | .body marks i .signal => some { s with producer := .body marks i .unlock }
      | _ => none
  | .consumer i =>
      match s.consumer i with
      | .signal tmp => some (s.goto s.shared i (.unlock tmp))
      | _ => none

def step (max loops : ℕ) (s : State consumers) : Act consumers → Option (State consumers)
  | .run .main => stepMain s
  | .run .producer => stepProducer max loops s
  | .run (.consumer i) => stepConsumer max s i
  | .signal t u => (s.wake u).bind fun s' => s'.signalled t
  | .wake t => s.wake t

/-- Nobody can step or signal. -/
def Stuck (max loops : ℕ) (s : State consumers) : Prop :=
  ∀ t, step max loops s (.run t) = none ∧ ∀ u, step max loops s (.signal t u) = none

/-- The program has stopped before its end, unless somebody wakes without a signal. -/
def Deadlocked (max loops : ℕ) (s : State consumers) : Prop :=
  s.main ≠ .done ∧ Stuck max loops s

/-! ## Sleepers and signals -/

/-- How many consumers sleep, have got their end mark, or are about to signal; whether the producer
sleeps, is awake in the loop around `Cond_wait` or past it, or is about to signal. -/
@[ext] structure Balance where
  asleep : ℕ
  ended : ℕ
  signalling : ℕ
  full : ℕ
  fillerAsleep : ℕ
  fillerAwake : ℕ
  fillerSignals : ℕ

/-- A value that has been filled in has woken a consumer, unless none slept. With so few consumers
the signals for the producer cannot all go astray, and somebody is on the way to every value. -/
structure Balanced (max consumers : ℕ) (b : Balance) : Prop where
  all : b.asleep + b.ended ≤ consumers
  one : b.fillerAsleep + b.fillerAwake + b.fillerSignals ≤ 1
  le : b.full ≤ max
  room : 0 < b.signalling → b.full < max
  spent : b.asleep = 0 ∨ b.asleep + b.full ≤ consumers + b.fillerSignals
  covered : 0 < b.fillerAsleep → b.asleep + 1 ≤ b.full + b.signalling
  answered : 0 < b.asleep → 0 < b.full → b.asleep + b.ended < consumers ∨ 0 < b.fillerSignals ∨
    0 < b.signalling ∨ 0 < b.fillerAwake ∧ b.full < max

/-- What a step does to the balance. -/
inductive Balance.Moves (max consumers : ℕ) (b : Balance) : Balance → Prop
  | keeps : b.Moves max consumers b
  | starts (haway : b.fillerAsleep + b.fillerAwake + b.fillerSignals = 0) :
      b.Moves max consumers { b with fillerAwake := 1 }
  | fillerSleeps (hawake : b.fillerAwake = 1) (hfull : b.full = max) (hnone : b.signalling = 0) :
      b.Moves max consumers { b with fillerAwake := 0, fillerAsleep := 1 }
  | fills (hawake : b.fillerAwake = 1) (hroom : b.full < max) (hnone : b.signalling = 0) :
      b.Moves max consumers { b with fillerAwake := 0, fillerSignals := 1, full := b.full + 1 }
  | fillerWakes (hsignals : b.fillerSignals = 1) (hasleep : 0 < b.asleep) :
      b.Moves max consumers { b with fillerSignals := 0, asleep := b.asleep - 1 }
  | fillerMisses (hsignals : b.fillerSignals = 1) (hasleep : b.asleep = 0) :
      b.Moves max consumers { b with fillerSignals := 0 }
  | sleeps (hempty : b.full = 0) (hnone : b.fillerSignals + b.signalling = 0)
      (hself : b.asleep + b.ended < consumers) :
      b.Moves max consumers { b with asleep := b.asleep + 1 }
  | gets (ends : ℕ) (hfull : 0 < b.full) (hnone : b.fillerSignals + b.signalling = 0)
      (hself : b.asleep + b.ended + ends ≤ consumers) :
      b.Moves max consumers
        { b with full := b.full - 1, signalling := 1, ended := b.ended + ends }
  | wakesConsumer (hasleep : 0 < b.asleep) (hone : b.signalling = 1) :
      b.Moves max consumers { b with signalling := 0, asleep := b.asleep - 1 }
  | wakesFiller (hasleep : b.fillerAsleep = 1) (hone : b.signalling = 1) :
      b.Moves max consumers { b with signalling := 0, fillerAsleep := 0, fillerAwake := 1 }
  | misses (hnobody : b.asleep + b.fillerAsleep = 0) (hone : b.signalling = 1) :
      b.Moves max consumers { b with signalling := 0 }
  | consumerStirs (hasleep : 0 < b.asleep) :
      b.Moves max consumers { b with asleep := b.asleep - 1 }
  | fillerStirs (hasleep : b.fillerAsleep = 1) :
      b.Moves max consumers { b with fillerAsleep := 0, fillerAwake := 1 }

variable {max loops : ℕ} {b b' : Balance}

theorem Balanced.moves (h : Balanced max consumers b) (hmax : 0 < max) (hfew : consumers < 2 * max)
    (hmoves : b.Moves max consumers b') : Balanced max consumers b' := by
  rcases h with ⟨hall, hone, hle, hroom, hspent, hcovered, hanswered⟩
  cases hmoves
  case keeps => exact ⟨hall, hone, hle, hroom, hspent, hcovered, hanswered⟩
  all_goals constructor <;> dsimp only <;> omega

/-! ## The values -/

def ProducerLoc.place : ProducerLoc → Option FillLoc
  | .body _ _ loc => some loc
  | _ => none

/-- The body has filled in its value. -/
def filledHere : FillLoc → ℕ
  | .signal | .unlock => 1
  | _ => 0

/-- How many values the producer has filled in. -/
def ProducerLoc.filled (loops consumers : ℕ) : ProducerLoc → ℕ
  | .unborn => 0
  | .next marks i => (if marks then loops else 0) + i
  | .body marks i loc => (if marks then loops else 0) + i + filledHere loc
  | .finished => loops + consumers

def ProducerLoc.InLoop (loops consumers : ℕ) : ProducerLoc → Prop
  | .next marks i => i ≤ if marks then consumers else loops
  | .body marks i _ => i < if marks then consumers else loops
  | _ => True

/-- The value that is filled in after `j` others. -/
def value (loops j : ℕ) : ℤ := if j < loops then j else marker

/-- The consumer has got its end mark. -/
def ended : ConsumerLoc → ℕ
  | .next tmp | .signal tmp | .unlock tmp => if tmp = marker then 1 else 0
  | .finished => 1
  | _ => 0

def balance (m : Shared) (p : ProducerLoc) (pc : Fin consumers → ConsumerLoc) : Balance where
  asleep := total pc ConsumerLoc.sleeping
  ended := total pc ended
  signalling := total pc ConsumerLoc.signalling
  full := m.num_full.toNat
  fillerAsleep := fillSleeping p.place
  fillerAwake := fillAwake p.place
  fillerSignals := fillSignalling p.place

/-- So many values have been `taken`. -/
structure Inv (max loops taken : ℕ) (m : Shared) (p : ProducerLoc)
    (pc : Fin consumers → ConsumerLoc) : Prop where
  mutex : m.locked.toNat = fillHolds p.place + total pc ConsumerLoc.holds
  count : m.num_full + taken = p.filled loops consumers
  nonneg : 0 ≤ m.num_full
  inLoop : p.InLoop loops consumers
  room : 0 < filling p.place → m.num_full < max
  available : 0 < total pc ConsumerLoc.getting → 0 < m.num_full
  fillPtr : m.fill_ptr = p.filled loops consumers % max
  usePtr : m.use_ptr = taken % max
  cells : ∀ j, taken ≤ j → j < p.filled loops consumers → m.buffer (j % max) = value loops j
  ends : total pc ended = taken - loops
  balanced : Balanced max consumers (balance m p pc)

/-- What has been created. -/
def MainLoc.Created (p : ProducerLoc) (pc : Fin consumers → ConsumerLoc) : MainLoc → Prop
  | .createProducer => p = .unborn ∧ ∀ i, pc i = .unborn
  | .createConsumer k => p ≠ .unborn ∧ ∀ i, pc i = .unborn ↔ k ≤ i
  | .joinProducer => p ≠ .unborn ∧ ∀ i, pc i ≠ .unborn
  | .joinConsumer _ => p = .finished ∧ ∀ i, pc i ≠ .unborn
  | .done => True

section Steps

variable {m m' : Shared} {p p' : ProducerLoc} {pc pc' : Fin consumers → ConsumerLoc}
  {main : MainLoc} {i : Fin consumers} {c d : ConsumerLoc} {taken : ℕ}

theorem MainLoc.Created.keeps (h : main.Created p pc) (hp : p' = .unborn ↔ p = .unborn)
    (hfinished : p = .finished → p' = .finished) (hpc : ∀ i, pc' i = .unborn ↔ pc i = .unborn) :
    main.Created p' pc' := by
  cases main with
  | createProducer => exact ⟨hp.mpr h.1, fun i => (hpc i).mpr (h.2 i)⟩
  | createConsumer k => exact ⟨fun hu => h.1 (hp.mp hu), fun i => (hpc i).trans (h.2 i)⟩
  | joinProducer => exact ⟨fun hu => h.1 (hp.mp hu), fun i hu => h.2 i ((hpc i).mp hu)⟩
  | joinConsumer k => exact ⟨hfinished h.1, fun i hu => h.2 i ((hpc i).mp hu)⟩
  | done => trivial

theorem update_unborn (hpc : pc i = c) (hcd : d = .unborn ↔ c = .unborn) (j : Fin consumers) :
    Function.update pc i d j = .unborn ↔ pc j = .unborn := by
  rw [Function.update_apply]
  split
  case isTrue hj => rw [hcd, hj, hpc]
  case isFalse => rfl

/-- What a move of a consumer changes. -/
theorem moved_totals (hpc : pc i = c) (d : ConsumerLoc) :
    total (Function.update pc i d) ConsumerLoc.holds + c.holds =
        total pc ConsumerLoc.holds + d.holds ∧
      total (Function.update pc i d) ConsumerLoc.sleeping + c.sleeping =
        total pc ConsumerLoc.sleeping + d.sleeping ∧
      total (Function.update pc i d) ConsumerLoc.getting + c.getting =
        total pc ConsumerLoc.getting + d.getting ∧
      total (Function.update pc i d) ConsumerLoc.signalling + c.signalling =
        total pc ConsumerLoc.signalling + d.signalling ∧
      total (Function.update pc i d) ended + ended c = total pc ended + ended d := by
  rcases get_totals hpc d with ⟨⟨hholds, hsleeping⟩, -, hgetting, hsignalling⟩
  exact ⟨hholds, hsleeping, hgetting, hsignalling, hpc ▸ total_update pc ended i d⟩

/-- A step that leaves the buffer as it is. -/
theorem Inv.moved (h : Inv max loops taken m p pc) (hmax : 0 < max) (hfew : consumers < 2 * max)
    (locked : Bool) (hfilled : p'.filled loops consumers = p.filled loops consumers)
    (hinLoop : p'.InLoop loops consumers)
    (hmutex : locked.toNat = fillHolds p'.place + total pc' ConsumerLoc.holds)
    (hroom : 0 < filling p'.place → m.num_full < max)
    (havailable : 0 < total pc' ConsumerLoc.getting → 0 < m.num_full)
    (hends : total pc' ended = total pc ended)
    (hmoves : (balance m p pc).Moves max consumers (balance m p' pc')) :
    Inv max loops taken { m with locked } p' pc' where
  mutex := hmutex
  count := hfilled ▸ h.count
  nonneg := h.nonneg
  inLoop := hinLoop
  room := hroom
  available := havailable
  fillPtr := hfilled ▸ h.fillPtr
  usePtr := h.usePtr
  cells := hfilled ▸ h.cells
  ends := hends.trans h.ends
  balanced := h.balanced.moves hmax hfew hmoves

/-- Who holds the mutex is alone. -/
theorem Inv.fill_alone (h : Inv max loops taken m p pc) (hp : 0 < fillHolds p.place) :
    m.locked = true ∧ fillHolds p.place = 1 ∧ total pc ConsumerLoc.holds = 0 ∧
      total pc ConsumerLoc.signalling = 0 := by
  have hmutex := h.mutex
  have hbool := Bool.toNat_le m.locked
  have hsignalling : total pc ConsumerLoc.signalling ≤ total pc ConsumerLoc.holds :=
    total_le_total fun x => by cases x <;> simp
  refine ⟨Bool.toNat_eq_one.mp ?_, ?_, ?_, ?_⟩ <;> omega

theorem Inv.get_alone (h : Inv max loops taken m p pc) (hpc : pc i = c) (hc : 0 < c.holds) :
    m.locked = true ∧ fillHolds p.place = 0 ∧ total pc ConsumerLoc.holds = 1 ∧
      total pc ConsumerLoc.signalling = c.signalling := by
  have hmutex := h.mutex
  have hbool := Bool.toNat_le m.locked
  have hle := le_total pc ConsumerLoc.holds i
  rw [hpc] at hle
  have hone : total pc ConsumerLoc.holds = 1 := by omega
  have hpart (x : ConsumerLoc) : x.signalling ≤ x.holds := by cases x <;> simp
  have hsignalling := total_eq_of_alone hpart hone.le (hpc ▸ hc)
  rw [hpc] at hsignalling
  exact ⟨Bool.toNat_eq_one.mp (by omega), by omega, hone, hsignalling⟩

/-- The mutex is free. -/
theorem Inv.nobody (h : Inv max loops taken m p pc) (hfree : m.locked = false) :
    fillHolds p.place = 0 ∧ total pc ConsumerLoc.holds = 0 ∧
      total pc ConsumerLoc.getting = 0 := by
  have hmutex := h.mutex
  have hgetting : total pc ConsumerLoc.getting ≤ total pc ConsumerLoc.holds :=
    total_le_total getting_le
  rw [hfree, Bool.toNat_false] at hmutex
  omega

theorem value_filled {marks : Bool} {k : ℕ}
    (hin : (ProducerLoc.body marks k .fill).InLoop loops consumers) :
    (if marks then marker else (k : ℤ)) =
      value loops ((ProducerLoc.body marks k .fill).filled loops consumers) := by
  cases marks with
  | true =>
      have hfilled : (ProducerLoc.body true k .fill).filled loops consumers = loops + k := rfl
      rw [hfilled, value, if_neg (Nat.not_lt.mpr (Nat.le_add_right loops k))]
      rfl
  | false =>
      have hfilled : (ProducerLoc.body false k .fill).filled loops consumers = k :=
        Nat.zero_add k
      have hlt : k < loops := hin
      rw [hfilled, value, if_pos hlt]
      rfl

theorem Inv.fills (h : Inv max loops taken m p pc) (hmax : 0 < max) (hfew : consumers < 2 * max)
    {marks : Bool} {k : ℕ} (hp : p = .body marks k .fill) :
    Inv max loops taken (do_fill max m (if marks then marker else k)) (.body marks k .signal)
      pc := by
  rw [hp] at h
  rcases h.fill_alone Nat.one_pos with ⟨hlocked, -, hholds, hsignalling⟩
  have hroom := h.room Nat.one_pos
  have hnonneg := h.nonneg
  have hcount := h.count
  have hin := h.inLoop
  set filled := ProducerLoc.filled loops consumers (.body marks k .fill) with hfilled
  have hnext : ProducerLoc.filled loops consumers (.body marks k .signal) = filled + 1 := rfl
  have hvalue : (if marks then marker else (k : ℤ)) = value loops filled := value_filled hin
  refine ⟨?_, ?_, ?_, hin, fun hnone => absurd hnone (lt_irrefl 0), ?_, ?_, h.usePtr, ?_, h.ends,
    ?_⟩
  · exact h.mutex
  · rw [hnext]
    change m.num_full + 1 + taken = _
    push_cast
    omega
  · change 0 ≤ m.num_full + 1
    omega
  · intro hgetting
    have hle : total pc ConsumerLoc.getting ≤ total pc ConsumerLoc.holds :=
      total_le_total getting_le
    omega
  · rw [hnext]
    change (m.fill_ptr + 1) % max = _
    rw [h.fillPtr, Nat.mod_add_mod]
  · intro j hj hlt
    rw [hnext] at hlt
    change Function.update m.buffer m.fill_ptr _ (j % max) = _
    rw [h.fillPtr, ← hfilled]
    rcases Nat.lt_succ_iff_lt_or_eq.mp hlt with hlt | rfl
    · have hne : j % max ≠ filled % max := by
        have hdiff : (0 + j) % max ≠ (0 + filled) % max := Ring.mod_ne hlt (by omega)
        rwa [Nat.zero_add, Nat.zero_add] at hdiff
      rw [Function.update_of_ne hne, h.cells j hj hlt]
    · rw [Function.update_self, hvalue]
  · have hmoves : (balance m (.body marks k .fill) pc).Moves max consumers
        (balance (do_fill max m (if marks then marker else k)) (.body marks k .signal)
          pc) := by
      have hbalance : balance (do_fill max m (if marks then marker else k))
          (.body marks k .signal) pc =
        { balance m (.body marks k .fill) pc with
          fillerAwake := 0, fillerSignals := 1, full := m.num_full.toNat + 1 } := by
        refine Balance.ext rfl rfl rfl ?_ rfl rfl rfl
        change (m.num_full + 1).toNat = m.num_full.toNat + 1
        omega
      rw [hbalance]
      exact .fills rfl (by change m.num_full.toNat < max; omega) hsignalling
    exact h.balanced.moves hmax hfew hmoves

/-- A consumer that neither sleeps nor has got its end mark leaves room for one that does. -/
theorem asleep_ended_lt (hpc : pc i = c) (hc : c.sleeping + ended c = 0) :
    total pc ConsumerLoc.sleeping + total pc ended < consumers := by
  have hle (x : ConsumerLoc) : x.sleeping + ended x ≤ 1 := by
    cases x <;> simp [ended] <;> split <;> decide
  have hall : total (Function.update pc i .finished) (fun x => x.sleeping + ended x) ≤
      consumers := by
    refine (Finset.sum_le_sum fun j _ => hle _).trans ?_
    simp
  have hsum (pc : Fin consumers → ConsumerLoc) : total pc (fun x => x.sleeping + ended x) =
      total pc ConsumerLoc.sleeping + total pc ended := Finset.sum_add_distrib
  have hmoved := total_update pc (fun x => x.sleeping + ended x) i .finished
  have hfinished : ConsumerLoc.finished.sleeping + ended .finished = 1 := rfl
  rw [hpc, hc, hsum pc, hfinished] at hmoved
  omega

theorem Inv.gets (h : Inv max loops taken m p pc) (hmax : 0 < max) (hfew : consumers < 2 * max)
    (hpc : pc i = .get) :
    Inv max loops (taken + 1) (do_get max m).1 p
      (Function.update pc i (.signal (do_get max m).2)) := by
  rcases h.get_alone hpc Nat.one_pos with ⟨hlocked, hfill, hholds, hsignalling⟩
  have hself : 0 < (pc i).holds := by
    rw [hpc]
    exact Nat.one_pos
  have hgetting := total_eq_of_alone getting_le hholds.le hself
  rw [hpc] at hgetting
  have havailable := h.available (hgetting ▸ Nat.one_pos)
  have hcount := h.count
  have htmp : (do_get max m).2 = value loops taken := by
    rw [do_get, h.usePtr, h.cells taken le_rfl (by omega)]
  have hends : ended (.signal (do_get max m).2) = if taken < loops then 0 else 1 := by
    rw [htmp, value, ended]
    split
    · exact if_neg (by rw [marker]; omega)
    · exact if_pos rfl
  rcases moved_totals hpc (.signal (do_get max m).2) with
    ⟨hholds', hsleeping', hgetting', hsignalling', hends'⟩
  have hroom := asleep_ended_lt hpc rfl
  rw [hends] at hends'
  have hzero : ended ConsumerLoc.get = 0 := rfl
  dsimp only [ConsumerLoc.holds, ConsumerLoc.sleeping, ConsumerLoc.getting,
    ConsumerLoc.signalling] at hholds' hsleeping' hgetting hgetting' hsignalling' hsignalling
  have hnofill : filling p.place ≤ fillHolds p.place ∧
      fillSignalling p.place ≤ fillHolds p.place := by
    cases p.place with
    | none => decide
    | some loc => cases loc <;> decide
  have hendsBefore := h.ends
  refine ⟨?_, ?_, ?_, h.inLoop, fun hfilling => ?_, fun hnone => ?_, h.fillPtr, ?_, ?_, ?_, ?_⟩
  · rw [hfill]
    change m.locked.toNat = _
    rw [hlocked, Bool.toNat_true]
    omega
  · change m.num_full - 1 + (taken + 1 : ℕ) = _
    push_cast
    omega
  · change 0 ≤ m.num_full - 1
    omega
  · omega
  · omega
  · change (m.use_ptr + 1) % max = _
    rw [h.usePtr, Nat.mod_add_mod]
  · exact fun j hj hlt => h.cells j (by omega) hlt
  · split at hends' <;> omega
  · have hbalance : balance (do_get max m).1 p (Function.update pc i (.signal (do_get max m).2)) =
        { balance m p pc with
          full := m.num_full.toNat - 1
          signalling := 1
          ended := total pc ended + if taken < loops then 0 else 1 } := by
      refine Balance.ext ?_ ?_ ?_ ?_ rfl rfl rfl
      · change total (Function.update pc i _) ConsumerLoc.sleeping = total pc ConsumerLoc.sleeping
        omega
      · change total (Function.update pc i _) ended =
          total pc ended + if taken < loops then 0 else 1
        omega
      · change total (Function.update pc i _) ConsumerLoc.signalling = 1
        omega
      · change (m.num_full - 1).toNat = m.num_full.toNat - 1
        omega
    refine h.balanced.moves hmax hfew ?_
    rw [hbalance]
    refine .gets _ ?_ ?_ ?_
    · change 0 < m.num_full.toNat
      omega
    · change fillSignalling p.place + total pc ConsumerLoc.signalling = 0
      omega
    · change total pc ConsumerLoc.sleeping + total pc ended + _ ≤ consumers
      split <;> omega

/-- When the producer moves and leaves the buffer as it is. -/
theorem Inv.fillMoves (h : Inv max loops taken m p pc) (hmax : 0 < max) (hfew : consumers < 2 * max)
    (locked : Bool) (hfilled : p'.filled loops consumers = p.filled loops consumers)
    (hinLoop : p'.InLoop loops consumers)
    (hmutex : locked.toNat = fillHolds p'.place + total pc ConsumerLoc.holds)
    (hroom : 0 < filling p'.place → m.num_full < max)
    (hmoves : (balance m p pc).Moves max consumers (balance m p' pc)) :
    Inv max loops taken { m with locked } p' pc :=
  h.moved hmax hfew locked hfilled hinLoop hmutex hroom h.available rfl hmoves

/-- When a consumer moves and leaves the buffer as it is. -/
theorem Inv.getMoves (h : Inv max loops taken m p pc) (hmax : 0 < max) (hfew : consumers < 2 * max)
    (hpc : pc i = c) (d : ConsumerLoc) (locked : Bool)
    (hmutex : locked.toNat + c.holds = m.locked.toNat + d.holds)
    (havailable : 0 < d.getting → 0 < m.num_full) (hends : ended d = ended c)
    (hmoves : (balance m p pc).Moves max consumers (balance m p (Function.update pc i d))) :
    Inv max loops taken { m with locked } p (Function.update pc i d) := by
  rcases moved_totals hpc d with ⟨hholds, -, hgetting, -, hends'⟩
  have hbefore := h.mutex
  refine h.moved hmax hfew locked rfl h.inLoop ?_ h.room (fun hpos => ?_) ?_ hmoves
  · omega
  · by_cases hnew : 0 < d.getting
    · exact havailable hnew
    · exact h.available (by omega)
  · omega

theorem body_lock {marks : Bool} {k : ℕ} {loc : FillLoc}
    (h : Inv max loops taken m (.body marks k loc) pc) (hmax : 0 < max)
    (hfew : consumers < 2 * max) (hloc : loc = .lock ∨ loc = .woken) (hfree : m.locked = false) :
    Inv max loops taken { m with locked := true } (.body marks k .test) pc := by
  rcases h.nobody hfree with ⟨-, hholds, -⟩
  have hmutex : true.toNat = fillHolds (ProducerLoc.body marks k .test).place +
      total pc ConsumerLoc.holds := by
    rw [hholds]
    rfl
  rcases hloc with rfl | rfl
  · exact h.fillMoves hmax hfew true rfl h.inLoop hmutex (fun hnone => absurd hnone (lt_irrefl 0))
      (.starts rfl)
  · exact h.fillMoves hmax hfew true rfl h.inLoop hmutex (fun hnone => absurd hnone (lt_irrefl 0))
      .keeps

theorem body_test {marks : Bool} {k : ℕ} (h : Inv max loops taken m (.body marks k .test) pc)
    (hmax : 0 < max) (hfew : consumers < 2 * max) :
    (m.num_full = max → Inv max loops taken m.unlock (.body marks k .asleep) pc) ∧
      (m.num_full ≠ max → Inv max loops taken m (.body marks k .fill) pc) := by
  rcases h.fill_alone Nat.one_pos with ⟨hlocked, -, hholds, hsignalling⟩
  have hle : m.num_full.toNat ≤ max := h.balanced.le
  refine ⟨fun hfull => ?_, fun hroom => ?_⟩
  · refine h.fillMoves hmax hfew false rfl h.inLoop ?_ (fun hnone => absurd hnone (lt_irrefl 0))
      (.fillerSleeps rfl ?_ hsignalling)
    · rw [hholds]
      rfl
    · change m.num_full.toNat = max
      omega
  · have hsame : m = { m with locked := true } := by
      rw [← hlocked]
    rw [hsame]
    refine h.fillMoves hmax hfew true rfl h.inLoop ?_ (fun _ => ?_) .keeps
    · rw [hholds]
      rfl
    · have hnonneg := h.nonneg
      omega

theorem body_unlock {marks : Bool} {k : ℕ} (h : Inv max loops taken m (.body marks k .unlock) pc)
    (hmax : 0 < max) (hfew : consumers < 2 * max) :
    Inv max loops taken m.unlock (.next marks (k + 1)) pc := by
  rcases h.fill_alone Nat.one_pos with ⟨hlocked, -, hholds, hsignalling⟩
  refine h.fillMoves hmax hfew false ?_ ?_ ?_ (fun hnone => absurd hnone (lt_irrefl 0)) .keeps
  · exact (Nat.add_assoc _ k 1).symm
  · exact Nat.succ_le_of_lt h.inLoop
  · rw [hholds]
    rfl

/-- The signal of the producer finds nobody, or wakes a consumer. -/
theorem body_signal {marks : Bool} {k : ℕ} (h : Inv max loops taken m (.body marks k .signal) pc)
    (hmax : 0 < max) (hfew : consumers < 2 * max) :
    ((∀ i, pc i ≠ .asleep) → Inv max loops taken m (.body marks k .unlock) pc) ∧
      ∀ i, pc i = .asleep →
        Inv max loops taken m (.body marks k .unlock) (Function.update pc i .woken) := by
  rcases h.fill_alone Nat.one_pos with ⟨hlocked, -, hholds, hsignalling⟩
  have hsame : m = { m with locked := true } := by
    rw [← hlocked]
  refine ⟨fun hnobody => ?_, fun i hpc => ?_⟩
  · have hnone : total pc ConsumerLoc.sleeping = 0 := by
      refine total_eq_zero_iff.mpr fun i => ?_
      cases hi : pc i with
      | asleep => exact absurd hi (hnobody i)
      | _ => rfl
    rw [hsame]
    refine h.fillMoves hmax hfew true rfl h.inLoop ?_ (fun hnone => absurd hnone (lt_irrefl 0))
      (.fillerMisses rfl hnone)
    rw [hholds]
    rfl
  · rcases moved_totals hpc .woken with ⟨hholds', hsleeping', hgetting', hsignalling', hends'⟩
    dsimp only [ConsumerLoc.holds, ConsumerLoc.sleeping, ConsumerLoc.getting,
      ConsumerLoc.signalling, ended] at hholds' hsleeping' hgetting' hsignalling' hends'
    rw [hsame]
    refine h.moved hmax hfew true rfl h.inLoop ?_ (fun hnone => absurd hnone (lt_irrefl 0))
      (fun hpos => h.available (by omega)) (by omega) ?_
    · rw [show total (Function.update pc i .woken) ConsumerLoc.holds = 0 by omega]
      rfl
    · have hbalance : balance m (.body marks k .unlock) (Function.update pc i .woken) =
          { balance m (.body marks k .signal) pc with
            fillerSignals := 0
            asleep := total pc ConsumerLoc.sleeping - 1 } := by
        refine Balance.ext ?_ ?_ ?_ rfl rfl rfl rfl
        · change total (Function.update pc i .woken) ConsumerLoc.sleeping =
            total pc ConsumerLoc.sleeping - 1
          omega
        · change total (Function.update pc i .woken) ended = total pc ended
          omega
        · change total (Function.update pc i .woken) ConsumerLoc.signalling =
            total pc ConsumerLoc.signalling
          omega
      rw [hbalance]
      refine .fillerWakes rfl ?_
      change 0 < total pc ConsumerLoc.sleeping
      omega

theorem balance_update (m : Shared) (p : ProducerLoc) (hpc : pc i = c) (d : ConsumerLoc)
    (asleep signalling : ℕ) (hends : ended d = ended c)
    (hasleep : total pc ConsumerLoc.sleeping + d.sleeping = asleep + c.sleeping)
    (hsignalling : total pc ConsumerLoc.signalling + d.signalling = signalling + c.signalling) :
    balance m p (Function.update pc i d) =
      { balance m p pc with asleep := asleep, signalling := signalling } := by
  rcases moved_totals hpc d with ⟨-, hsleeping', -, hsignalling', hends'⟩
  refine Balance.ext ?_ ?_ ?_ rfl rfl rfl rfl
  · change total (Function.update pc i d) ConsumerLoc.sleeping = asleep
    omega
  · change total (Function.update pc i d) ended = total pc ended
    omega
  · change total (Function.update pc i d) ConsumerLoc.signalling = signalling
    omega

/-- A move that neither wakes nor puts to sleep. -/
theorem Inv.getKeeps (h : Inv max loops taken m p pc) (hmax : 0 < max) (hfew : consumers < 2 * max)
    (hpc : pc i = c) (d : ConsumerLoc) (locked : Bool)
    (hmutex : locked.toNat + c.holds = m.locked.toNat + d.holds)
    (havailable : 0 < d.getting → 0 < m.num_full) (hends : ended d = ended c)
    (hsleeping : d.sleeping = c.sleeping) (hsignalling : d.signalling = c.signalling) :
    Inv max loops taken { m with locked } p (Function.update pc i d) := by
  refine h.getMoves hmax hfew hpc d locked hmutex havailable hends ?_
  rw [balance_update m p hpc d _ _ hends (by rw [hsleeping]) (by rw [hsignalling])]
  exact .keeps

theorem get_test (h : Inv max loops taken m p pc) (hmax : 0 < max) (hfew : consumers < 2 * max)
    (hpc : pc i = .test) :
    (m.num_full = 0 → Inv max loops taken m.unlock p (Function.update pc i .asleep)) ∧
      (m.num_full ≠ 0 → Inv max loops taken m p (Function.update pc i .get)) := by
  rcases h.get_alone hpc Nat.one_pos with ⟨hlocked, hfill, hholds, hsignalling⟩
  have hsame : m = { m with locked := true } := by
    rw [← hlocked]
  have hnonneg := h.nonneg
  refine ⟨fun hempty => ?_, fun hfull => ?_⟩
  · refine h.getMoves hmax hfew hpc .asleep false (by rw [hlocked]; rfl)
      (fun hnone => absurd hnone (lt_irrefl 0)) rfl ?_
    rw [balance_update m p hpc .asleep (total pc ConsumerLoc.sleeping + 1)
      (total pc ConsumerLoc.signalling) rfl rfl rfl]
    refine .sleeps ?_ ?_ (asleep_ended_lt hpc rfl)
    · change m.num_full.toNat = 0
      omega
    · have hle : fillSignalling p.place ≤ fillHolds p.place := by
        cases p.place with
        | none => decide
        | some loc => cases loc <;> decide
      change fillSignalling p.place + total pc ConsumerLoc.signalling = 0
      dsimp only [ConsumerLoc.signalling] at hsignalling
      omega
  · rw [hsame]
    exact h.getKeeps hmax hfew hpc .get true (by rw [hlocked]; rfl) (fun _ => by omega) rfl rfl rfl

/-- The signal of a consumer finds nobody, or wakes a consumer, or the producer. -/
theorem get_signal (h : Inv max loops taken m p pc) (hmax : 0 < max) (hfew : consumers < 2 * max)
    {tmp : ℤ} (hpc : pc i = .signal tmp) :
    ((p.asleep = false ∧ ∀ j, pc j ≠ .asleep) →
        Inv max loops taken m p (Function.update pc i (.unlock tmp))) ∧
      (∀ j, pc j = .asleep → Inv max loops taken m p
        (Function.update (Function.update pc j .woken) i (.unlock tmp))) ∧
      ∀ marks k, p = .body marks k .asleep → Inv max loops taken m (.body marks k .woken)
        (Function.update pc i (.unlock tmp)) := by
  rcases h.get_alone hpc Nat.one_pos with ⟨hlocked, hfill, hholds, hsignalling⟩
  have hsame : m = { m with locked := true } := by
    rw [← hlocked]
  have hone : total pc ConsumerLoc.signalling = 0 + 1 := hsignalling
  have hmutex : true.toNat + (ConsumerLoc.signal tmp).holds =
      m.locked.toNat + (ConsumerLoc.unlock tmp).holds := by
    rw [hlocked]
    rfl
  refine ⟨?_, fun j hj => ?_, ?_⟩
  · rintro ⟨hfiller, hnobody⟩
    have hnone : total pc ConsumerLoc.sleeping = 0 := by
      refine total_eq_zero_iff.mpr fun j => ?_
      cases hj : pc j with
      | asleep => exact absurd hj (hnobody j)
      | _ => rfl
    have hawake : fillSleeping p.place = 0 := by
      cases p with
      | body marks k loc =>
          cases loc with
          | asleep => cases hfiller
          | _ => rfl
      | _ => rfl
    rw [hsame]
    refine h.getMoves hmax hfew hpc (.unlock tmp) true hmutex
      (fun hnever => absurd hnever (lt_irrefl 0)) rfl ?_
    rw [balance_update m p hpc (.unlock tmp) (total pc ConsumerLoc.sleeping) 0 rfl rfl hone]
    refine .misses ?_ hone
    change total pc ConsumerLoc.sleeping + fillSleeping p.place = 0
    omega
  · have hne : i ≠ j := by
      rintro rfl
      rw [hpc] at hj
      cases hj
    have hpc' : Function.update pc j .woken i = .signal tmp := by
      rw [Function.update_of_ne hne, hpc]
    rcases moved_totals hj .woken with ⟨hholds₁, hsleeping₁, hgetting₁, hsignalling₁, hends₁⟩
    rcases moved_totals hpc' (.unlock tmp) with
      ⟨hholds₂, hsleeping₂, hgetting₂, hsignalling₂, hends₂⟩
    have hends : ended (ConsumerLoc.unlock tmp) = ended (.signal tmp) ∧
        ended ConsumerLoc.woken = 0 ∧ ended ConsumerLoc.asleep = 0 := ⟨rfl, rfl, rfl⟩
    dsimp only [ConsumerLoc.holds, ConsumerLoc.sleeping, ConsumerLoc.getting,
      ConsumerLoc.signalling] at *
    rw [hsame]
    refine h.moved hmax hfew true rfl h.inLoop ?_ h.room (fun hpos => h.available (by omega))
      (by omega) ?_
    · rw [hfill, Bool.toNat_true]
      omega
    · rw [balance_update m p hpc' (.unlock tmp) (total pc ConsumerLoc.sleeping - 1) 0 rfl
        (by dsimp only [ConsumerLoc.sleeping]; omega)
        (by dsimp only [ConsumerLoc.signalling]; omega),
        balance_update m p hj .woken (total pc ConsumerLoc.sleeping - 1)
          (total pc ConsumerLoc.signalling) rfl (by dsimp only [ConsumerLoc.sleeping]; omega) rfl]
      refine .wakesConsumer ?_ hone
      change 0 < total pc ConsumerLoc.sleeping
      omega
  · rintro marks k rfl
    rcases moved_totals hpc (.unlock tmp) with ⟨hholds', -, hgetting', -, hends'⟩
    dsimp only [ConsumerLoc.holds, ConsumerLoc.getting] at hholds' hgetting'
    rw [hsame]
    refine h.moved hmax hfew true rfl h.inLoop ?_ (fun hnever => absurd hnever (lt_irrefl 0))
      (fun hpos => h.available (by omega)) ?_ ?_
    · rw [show total (Function.update pc i (.unlock tmp)) ConsumerLoc.holds = 1 by omega]
      rfl
    · have hends : ended (ConsumerLoc.unlock tmp) = ended (.signal tmp) := rfl
      omega
    · rw [balance_update m _ hpc (.unlock tmp) (total pc ConsumerLoc.sleeping) 0 rfl rfl hone]
      exact .wakesFiller rfl hone

end Steps

/-! ## All steps -/

variable {s s' : State consumers} {x : Act consumers} {i : Fin consumers}

structure Good (max loops : ℕ) (s : State consumers) : Prop where
  inv : ∃ taken, Inv max loops taken s.shared s.producer s.consumer
  created : s.main.Created s.producer s.consumer

theorem good_initial : Good max loops (initial : State consumers) := by
  have hnone (weight : ConsumerLoc → ℕ) (hweight : weight .unborn = 0) :
      total (fun _ : Fin consumers => .unborn) weight = 0 := total_const hweight
  refine ⟨⟨0, ⟨?_, rfl, le_rfl, trivial, ?_, ?_, (Nat.zero_mod _).symm, (Nat.zero_mod _).symm,
    fun j _ hj => absurd hj (Nat.not_lt_zero j), ?_, ?_⟩⟩, rfl, fun _ => rfl⟩
  · exact (congrArg (0 + ·) (hnone ConsumerLoc.holds rfl)).symm
  · exact fun hfilling => absurd hfilling (lt_irrefl 0)
  · intro hgetting
    rw [initial, hnone ConsumerLoc.getting rfl] at hgetting
    exact absurd hgetting (lt_irrefl 0)
  · exact (hnone ended rfl).trans (Nat.zero_sub _).symm
  · have hbalance : balance (initial : State consumers).shared .unborn
        (fun _ : Fin consumers => .unborn) = ⟨0, 0, 0, 0, 0, 0, 0⟩ :=
      Balance.ext (hnone _ rfl) (hnone ended rfl) (hnone _ rfl) rfl rfl rfl rfl
    exact hbalance ▸ ⟨by simp, by simp, by simp, by simp, by simp, by simp, by simp⟩

/-- Only the producer has moved. -/
theorem Good.producer (h : Good max loops s) {m : Shared} {p : ProducerLoc}
    (hinv : ∀ taken, Inv max loops taken s.shared s.producer s.consumer →
      Inv max loops taken m p s.consumer)
    (hp : p = .unborn ↔ s.producer = .unborn) (hfinished : s.producer ≠ .finished) :
    Good max loops { s with shared := m, producer := p } := by
  rcases h.inv with ⟨taken, htaken⟩
  refine ⟨⟨taken, hinv taken htaken⟩, ?_⟩
  exact h.created.keeps hp (fun hend => absurd hend hfinished) fun _ => Iff.rfl

theorem Good.body (h : Good max loops s) (hmax : 0 < max) (hfew : consumers < 2 * max)
    {marks : Bool} {k : ℕ} {loc : FillLoc} (hp : s.producer = .body marks k loc)
    (hstep : stepBody max s marks k loc = some s') : Good max loops s' := by
  have hborn {p : ProducerLoc} (hne : p ≠ .unborn) : p = .unborn ↔ s.producer = .unborn := by
    rw [hp]
    exact iff_of_false hne ProducerLoc.noConfusion
  have hfinished : s.producer ≠ .finished := by
    rw [hp]
    exact ProducerLoc.noConfusion
  cases loc with
  | lock | woken =>
      rcases Option.map_eq_some_iff.mp hstep with ⟨m, hlock, rfl⟩
      rcases eq_of_lock hlock with ⟨rfl, hfree⟩
      refine h.producer (fun taken hinv => ?_) (hborn ProducerLoc.noConfusion) hfinished
      rw [hp] at hinv
      first
        | exact body_lock hinv hmax hfew (Or.inl rfl) hfree
        | exact body_lock hinv hmax hfew (Or.inr rfl) hfree
  | test =>
      rw [stepBody, Option.some.injEq] at hstep
      split at hstep
      · next hfull =>
          rw [← hstep]
          refine h.producer (fun taken hinv => ?_) (hborn ProducerLoc.noConfusion) hfinished
          rw [hp] at hinv
          exact (body_test hinv hmax hfew).1 hfull
      · next hroom =>
          rw [← hstep]
          refine h.producer (fun taken hinv => ?_) (hborn ProducerLoc.noConfusion) hfinished
          rw [hp] at hinv
          exact (body_test hinv hmax hfew).2 hroom
  | asleep => cases hstep
  | fill =>
      rw [stepBody, Option.some.injEq] at hstep
      rw [← hstep]
      exact h.producer (fun taken hinv => hinv.fills hmax hfew hp) (hborn ProducerLoc.noConfusion)
        hfinished
  | signal =>
      rw [stepBody] at hstep
      split at hstep
      · cases hstep
      · next hnobody =>
          rw [← Option.some.inj hstep]
          refine h.producer (fun taken hinv => ?_) (hborn ProducerLoc.noConfusion) hfinished
          rw [hp] at hinv
          exact (body_signal hinv hmax hfew).1 fun i hi => hnobody (decide_eq_true ⟨i, hi⟩)
  | unlock =>
      rw [stepBody, Option.some.injEq] at hstep
      rw [← hstep]
      refine h.producer (fun taken hinv => ?_) (hborn ProducerLoc.noConfusion) hfinished
      rw [hp] at hinv
      exact body_unlock hinv hmax hfew

theorem Good.stepProducer (h : Good max loops s) (hmax : 0 < max) (hfew : consumers < 2 * max)
    (hstep : stepProducer max loops s = some s') : Good max loops s' := by
  rw [SingleCv.stepProducer] at hstep
  cases hp : s.producer with
  | unborn => simp only [hp, reduceCtorEq] at hstep
  | finished => simp only [hp, reduceCtorEq] at hstep
  | body marks k loc =>
      simp only [hp] at hstep
      exact h.body hmax hfew hp hstep
  | next marks k =>
      have hmoves {p : ProducerLoc} (hborn : p ≠ .unborn)
          (hfilled : p.filled loops consumers =
            (ProducerLoc.next marks k).filled loops consumers)
          (hinLoop : p.InLoop loops consumers) (haway : p.place = none ∨ p.place = some .lock) :
          Good max loops { s with producer := p } := by
        have hweights : fillHolds p.place = 0 ∧ fillSleeping p.place = 0 ∧
            fillAwake p.place = 0 ∧ fillSignalling p.place = 0 ∧ filling p.place = 0 := by
          rcases haway with hplace | hplace <;> rw [hplace] <;> decide
        rcases hweights with ⟨hholds, hsleeping, hawake, hsignalling, hfilling⟩
        refine h.producer (fun taken hinv => ?_) ?_ ?_
        · rw [hp] at hinv
          have hmutex : s.shared.locked.toNat = 0 + total s.consumer ConsumerLoc.holds := hinv.mutex
          have hbalance : balance s.shared p s.consumer =
              balance s.shared (.next marks k) s.consumer :=
            Balance.ext rfl rfl rfl rfl hsleeping hawake hsignalling
          refine hinv.fillMoves hmax hfew s.shared.locked hfilled hinLoop (by rw [hholds, hmutex])
            (fun hpos => absurd hpos (by rw [hfilling]; exact lt_irrefl 0)) ?_
          rw [hbalance]
          exact .keeps
        · rw [hp]
          exact iff_of_false hborn ProducerLoc.noConfusion
        · rw [hp]
          exact ProducerLoc.noConfusion
      have hin : (ProducerLoc.next marks k).InLoop loops consumers := by
        rcases h.inv with ⟨taken, hinv⟩
        exact hp ▸ hinv.inLoop
      cases marks with
      | false =>
          simp only [hp, Option.some.injEq] at hstep
          rw [← hstep]
          split
          · next hlt => exact hmoves ProducerLoc.noConfusion rfl hlt (Or.inr rfl)
          · next hge =>
              have hall : loops = k := le_antisymm (not_lt.mp hge) hin
              refine hmoves ProducerLoc.noConfusion ?_ (Nat.zero_le _) (Or.inl rfl)
              rw [hall]
              exact Nat.add_comm k 0
      | true =>
          simp only [hp, Option.some.injEq] at hstep
          rw [← hstep]
          split
          · next hlt => exact hmoves ProducerLoc.noConfusion rfl hlt (Or.inr rfl)
          · next hge =>
              have hall : consumers = k := le_antisymm (not_lt.mp hge) hin
              exact hmoves ProducerLoc.noConfusion (congrArg (loops + ·) hall) trivial (Or.inl rfl)

/-- Only one consumer has moved. -/
theorem Good.consumer (h : Good max loops s) {m : Shared} {c d : ConsumerLoc}
    (hpc : s.consumer i = c) (hborn : d = .unborn ↔ c = .unborn)
    (hinv : ∀ taken, Inv max loops taken s.shared s.producer s.consumer →
      ∃ taken, Inv max loops taken m s.producer (Function.update s.consumer i d)) :
    Good max loops (s.goto m i d) := by
  rcases h.inv with ⟨taken, htaken⟩
  refine ⟨hinv taken htaken, ?_⟩
  exact h.created.keeps Iff.rfl id (update_unborn hpc hborn)

theorem Good.stepConsumer (h : Good max loops s) (hmax : 0 < max) (hfew : consumers < 2 * max)
    (hstep : stepConsumer max s i = some s') : Good max loops s' := by
  rw [SingleCv.stepConsumer] at hstep
  have hborn {c d : ConsumerLoc} (hc : c ≠ .unborn) (hd : d ≠ .unborn) :
      d = .unborn ↔ c = .unborn := iff_of_false hd hc
  cases hpc : s.consumer i with
  | unborn => simp only [hpc, reduceCtorEq] at hstep
  | asleep => simp only [hpc, reduceCtorEq] at hstep
  | finished => simp only [hpc, reduceCtorEq] at hstep
  | next tmp =>
      simp only [hpc, Option.some.injEq] at hstep
      rw [← hstep]
      split
      · next hgoes =>
          refine h.consumer hpc (hborn ConsumerLoc.noConfusion ConsumerLoc.noConfusion)
            fun taken hinv => ⟨taken, ?_⟩
          exact hinv.getKeeps hmax hfew hpc .lock s.shared.locked rfl
            (fun hnever => absurd hnever (lt_irrefl 0)) (if_neg hgoes).symm rfl rfl
      · next hends =>
          refine h.consumer hpc (hborn ConsumerLoc.noConfusion ConsumerLoc.noConfusion)
            fun taken hinv => ⟨taken, ?_⟩
          exact hinv.getKeeps hmax hfew hpc .finished s.shared.locked rfl
            (fun hnever => absurd hnever (lt_irrefl 0)) (if_pos (not_not.mp hends)).symm rfl rfl
  | lock | woken =>
      simp only [hpc, Option.map_eq_some_iff] at hstep
      rcases hstep with ⟨m, hlock, rfl⟩
      rcases eq_of_lock hlock with ⟨rfl, hfree⟩
      refine h.consumer hpc (hborn ConsumerLoc.noConfusion ConsumerLoc.noConfusion)
        fun taken hinv => ⟨taken, ?_⟩
      exact hinv.getKeeps hmax hfew hpc .test true (by rw [hfree]; rfl)
        (fun hnever => absurd hnever (lt_irrefl 0)) rfl rfl rfl
  | test =>
      simp only [hpc, Option.some.injEq] at hstep
      rw [← hstep]
      split
      · next hempty =>
          refine h.consumer hpc (hborn ConsumerLoc.noConfusion ConsumerLoc.noConfusion)
            fun taken hinv => ⟨taken, ?_⟩
          exact (get_test hinv hmax hfew hpc).1 hempty
      · next hfull =>
          refine h.consumer hpc (hborn ConsumerLoc.noConfusion ConsumerLoc.noConfusion)
            fun taken hinv => ⟨taken, ?_⟩
          exact (get_test hinv hmax hfew hpc).2 hfull
  | get =>
      simp only [hpc, Option.some.injEq] at hstep
      rw [← hstep]
      refine h.consumer hpc (hborn ConsumerLoc.noConfusion ConsumerLoc.noConfusion)
        fun taken hinv => ⟨taken + 1, ?_⟩
      exact hinv.gets hmax hfew hpc
  | signal tmp =>
      simp only [hpc, Option.ite_none_left_eq_some, Option.some.injEq] at hstep
      rcases hstep with ⟨hnobody, rfl⟩
      refine h.consumer hpc (hborn ConsumerLoc.noConfusion ConsumerLoc.noConfusion)
        fun taken hinv => ⟨taken, ?_⟩
      rw [Bool.not_eq_true, Bool.or_eq_false_iff] at hnobody
      exact (get_signal hinv hmax hfew hpc).1
        ⟨hnobody.1, fun j hj => of_decide_eq_false hnobody.2 ⟨j, hj⟩⟩
  | unlock tmp =>
      simp only [hpc, Option.some.injEq] at hstep
      rw [← hstep]
      refine h.consumer hpc (hborn ConsumerLoc.noConfusion ConsumerLoc.noConfusion)
        fun taken hinv => ⟨taken, ?_⟩
      have hlocked := (hinv.get_alone hpc Nat.one_pos).1
      exact hinv.getKeeps hmax hfew hpc (.next tmp) false (by rw [hlocked]; rfl)
        (fun hnever => absurd hnever (lt_irrefl 0)) rfl rfl rfl

theorem Good.stepMain (h : Good max loops s) (hmax : 0 < max) (hfew : consumers < 2 * max)
    (hstep : stepMain s = some s') : Good max loops s' := by
  rcases h.inv with ⟨taken, hinv⟩
  have hcreated := h.created
  rw [SingleCv.stepMain] at hstep
  cases hmain : s.main with
  | createProducer =>
      rw [hmain] at hcreated
      simp only [hmain, Option.some.injEq] at hstep
      rw [← hstep]
      refine ⟨⟨taken, ?_⟩, ProducerLoc.noConfusion, fun i => ?_⟩
      · rw [hcreated.1] at hinv
        exact hinv.fillMoves hmax hfew s.shared.locked rfl (Nat.zero_le _) hinv.mutex
          (fun hnever => absurd hnever (lt_irrefl 0)) .keeps
      · exact iff_of_true (hcreated.2 i) (Nat.zero_le _)
  | createConsumer k =>
      rw [hmain] at hcreated
      simp only [hmain, Option.some.injEq] at hstep
      rw [← hstep]
      split
      · next hk =>
          have hpc : s.consumer ⟨k, hk⟩ = .unborn := (hcreated.2 _).mpr le_rfl
          refine ⟨⟨taken, hinv.getKeeps hmax hfew hpc (.next 0) s.shared.locked rfl
            (fun hnever => absurd hnever (lt_irrefl 0)) rfl rfl rfl⟩, hcreated.1, fun i => ?_⟩
          change Function.update s.consumer ⟨k, hk⟩ (.next 0) i = .unborn ↔ k + 1 ≤ i
          rw [Function.update_apply]
          split
          · next hi => exact iff_of_false ConsumerLoc.noConfusion (by rw [hi]; exact (lt_irrefl k))
          · next hi =>
              have hne : (i : ℕ) ≠ k := fun heq => hi (Fin.ext heq)
              rw [hcreated.2]
              omega
      · next hall =>
          refine ⟨⟨taken, hinv⟩, hcreated.1, fun i hi => ?_⟩
          have hle := (hcreated.2 i).mp hi
          omega
  | joinProducer =>
      rw [hmain] at hcreated
      simp only [hmain, Option.ite_none_right_eq_some, Option.some.injEq] at hstep
      rw [← hstep.2]
      exact ⟨⟨taken, hinv⟩, hstep.1, hcreated.2⟩
  | joinConsumer k =>
      rw [hmain] at hcreated
      simp only [hmain] at hstep
      split at hstep
      · rw [Option.ite_none_right_eq_some, Option.some.injEq] at hstep
        rw [← hstep.2]
        exact ⟨⟨taken, hinv⟩, hcreated⟩
      · rw [← Option.some.inj hstep]
        exact ⟨⟨taken, hinv⟩, trivial⟩
  | done => simp only [hmain, reduceCtorEq] at hstep

theorem wake_cases {u : Thread consumers} (h : s.wake u = some s') :
    (∃ marks k, u = .producer ∧ s.producer = .body marks k .asleep ∧
      s' = { s with producer := .body marks k .woken }) ∨
    ∃ i, u = .consumer i ∧ s.consumer i = .asleep ∧ s' = s.goto s.shared i .woken := by
  cases u with
  | main => cases h
  | producer =>
      cases hp : s.producer with
      | body marks k loc =>
          cases loc with
          | asleep =>
              simp only [State.wake, hp, Option.some.injEq] at h
              exact Or.inl ⟨marks, k, rfl, rfl, h.symm⟩
          | _ => simp only [State.wake, hp, reduceCtorEq] at h
      | _ => simp only [State.wake, hp, reduceCtorEq] at h
  | consumer i =>
      cases hpc : s.consumer i with
      | asleep =>
          simp only [State.wake, hpc, Option.some.injEq] at h
          exact Or.inr ⟨i, rfl, hpc, h.symm⟩
      | _ => simp only [State.wake, hpc, reduceCtorEq] at h

theorem signalled_cases {u : Thread consumers} (h : s.signalled u = some s') :
    (∃ marks k, u = .producer ∧ s.producer = .body marks k .signal ∧
      s' = { s with producer := .body marks k .unlock }) ∨
    ∃ i tmp, u = .consumer i ∧ s.consumer i = .signal tmp ∧
      s' = s.goto s.shared i (.unlock tmp) := by
  cases u with
  | main => cases h
  | producer =>
      cases hp : s.producer with
      | body marks k loc =>
          cases loc with
          | signal =>
              simp only [State.signalled, hp, Option.some.injEq] at h
              exact Or.inl ⟨marks, k, rfl, rfl, h.symm⟩
          | _ => simp only [State.signalled, hp, reduceCtorEq] at h
      | _ => simp only [State.signalled, hp, reduceCtorEq] at h
  | consumer i =>
      cases hpc : s.consumer i with
      | signal tmp =>
          simp only [State.signalled, hpc, Option.some.injEq] at h
          exact Or.inr ⟨i, tmp, rfl, hpc, h.symm⟩
      | _ => simp only [State.signalled, hpc, reduceCtorEq] at h

theorem Good.wake (h : Good max loops s) (hmax : 0 < max) (hfew : consumers < 2 * max)
    {u : Thread consumers} (hstep : s.wake u = some s') : Good max loops s' := by
  rcases wake_cases hstep with ⟨marks, k, -, hp, rfl⟩ | ⟨i, -, hpc, rfl⟩
  · refine h.producer (fun taken hinv => ?_) ?_ ?_
    · rw [hp] at hinv
      exact hinv.fillMoves hmax hfew s.shared.locked rfl hinv.inLoop hinv.mutex
        (fun hnever => absurd hnever (lt_irrefl 0)) (.fillerStirs rfl)
    · rw [hp]
      exact iff_of_false ProducerLoc.noConfusion ProducerLoc.noConfusion
    · rw [hp]
      exact ProducerLoc.noConfusion
  · refine h.consumer hpc (iff_of_false ConsumerLoc.noConfusion ConsumerLoc.noConfusion)
      fun taken hinv => ⟨taken, ?_⟩
    refine hinv.getMoves hmax hfew hpc .woken s.shared.locked rfl
      (fun hnever => absurd hnever (lt_irrefl 0)) rfl ?_
    have hpos : 0 < total s.consumer ConsumerLoc.sleeping := by
      have hle := le_total s.consumer ConsumerLoc.sleeping i
      rw [hpc] at hle
      exact hle
    rw [balance_update s.shared s.producer hpc .woken (total s.consumer ConsumerLoc.sleeping - 1)
      (total s.consumer ConsumerLoc.signalling) rfl (by dsimp only [ConsumerLoc.sleeping]; omega)
      rfl]
    exact .consumerStirs hpos

theorem Good.signal (h : Good max loops s) (hmax : 0 < max) (hfew : consumers < 2 * max)
    {t u : Thread consumers} (hstep : ((s.wake u).bind fun s' => s'.signalled t) = some s') :
    Good max loops s' := by
  rcases Option.bind_eq_some_iff.mp hstep with ⟨s₁, hwake, hsignalled⟩
  rcases h.inv with ⟨taken, hinv⟩
  rcases wake_cases hwake with ⟨marks, k, rfl, hp, rfl⟩ | ⟨j, rfl, hj, rfl⟩
  · rcases signalled_cases hsignalled with ⟨marks', k', -, hp', -⟩ | ⟨i, tmp, -, hpc, rfl⟩
    · cases hp'
    · refine ⟨⟨taken, (get_signal hinv hmax hfew hpc).2.2 marks k hp⟩, ?_⟩
      refine h.created.keeps ?_ (fun hend => ?_) (update_unborn hpc
        (iff_of_false ConsumerLoc.noConfusion ConsumerLoc.noConfusion))
      · rw [hp]
        exact iff_of_false ProducerLoc.noConfusion ProducerLoc.noConfusion
      · rw [hp] at hend
        cases hend
  · rcases signalled_cases hsignalled with ⟨marks, k, -, hp, rfl⟩ | ⟨i, tmp, -, hpc, rfl⟩
    · have hp : s.producer = .body marks k .signal := hp
      rw [hp] at hinv
      refine ⟨⟨taken, (body_signal hinv hmax hfew).2 j hj⟩, ?_⟩
      refine h.created.keeps ?_ (fun hend => ?_) (update_unborn hj
        (iff_of_false ConsumerLoc.noConfusion ConsumerLoc.noConfusion))
      · rw [hp]
        exact iff_of_false ProducerLoc.noConfusion ProducerLoc.noConfusion
      · rw [hp] at hend
        cases hend
    · have hpc : Function.update s.consumer j .woken i = .signal tmp := hpc
      have hne : i ≠ j := by
        rintro rfl
        rw [Function.update_self] at hpc
        cases hpc
      have hpc' : s.consumer i = .signal tmp := by
        rwa [Function.update_of_ne hne] at hpc
      refine ⟨⟨taken, (get_signal hinv hmax hfew hpc').2.1 j hj⟩, ?_⟩
      have hwoken := h.created.keeps Iff.rfl id (update_unborn hj
        (d := .woken) (iff_of_false ConsumerLoc.noConfusion ConsumerLoc.noConfusion))
      exact hwoken.keeps Iff.rfl id (update_unborn hpc
        (iff_of_false ConsumerLoc.noConfusion ConsumerLoc.noConfusion))

theorem reach_good (hmax : 0 < max) (hfew : consumers < 2 * max)
    (h : Reach (step max loops) anyStep initial s) : Good max loops s := by
  refine h.invariant good_initial fun s x s' hs _ hstep => ?_
  cases x with
  | run t =>
      cases t with
      | main => exact hs.stepMain hmax hfew hstep
      | producer => exact hs.stepProducer hmax hfew hstep
      | consumer i => exact hs.stepConsumer hmax hfew hstep
  | signal t u => exact hs.signal hmax hfew hstep
  | wake t => exact hs.wake hmax hfew hstep

end OsLabs.Concurrent.SingleCv
