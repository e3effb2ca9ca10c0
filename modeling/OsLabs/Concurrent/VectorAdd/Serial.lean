import Mathlib
import OsLabs.Lib.Threads
import OsLabs.Lib.Transition

/-!
# Vectors that are added by many threads

What `vector_add` does to the vectors, apart from its locks. The calls take
effect in the order in which their loops end: until then, the destination has
the sums of the elements that the loop has passed, of vectors that no other
thread touches.
-/

namespace OsLabs.Concurrent.VectorAdd

open OsLabs.Threads OsLabs.Transition

def VECTOR_SIZE : ℕ := 100

/-- `v[dst]` is to be increased by `v[src]`. -/
structure Call where
  dst : ℕ
  src : ℕ
deriving DecidableEq, Repr

/-- The `values` of all vectors, by their place in the array. -/
abbrev Vectors := ℕ → ℕ → BitVec 32

/-- The body of the loop. -/
def addElement (v : Vectors) (call : Call) (i : ℕ) : Vectors :=
  Function.update v call.dst
    (Function.update (v call.dst) i (v call.dst i + v call.src i))

/-- The loop of `vector_add`, on its own. -/
def addVector (v : Vectors) (call : Call) : Vectors :=
  (List.range VECTOR_SIZE).foldl (fun v i => addElement v call i) v

/-- The calls one after the other. -/
def runSerially (v : Vectors) (calls : List Call) : Vectors := calls.foldl addVector v

/-- A call in its loop, before the element `i`. -/
structure Loop where
  call : Call
  i : ℕ
deriving DecidableEq, Repr

/-- The vectors, where the calls of `order` have taken effect, and what the
loops of the threads have done so far. -/
structure Serial {ι : Type*} (v : Vectors) (serial : Vectors) (loop : ι → Option Loop) :
    Prop where
  destination : ∀ t l, loop t = some l → ∀ j, v l.call.dst j =
    if j < l.i then serial l.call.dst j + serial l.call.src j else serial l.call.dst j
  elsewhere : ∀ x, (∀ t l, loop t = some l → l.call.dst ≠ x) → v x = serial x

/-- The call touches no vector that another thread changes, and changes none that
another thread touches. -/
def Alone {ι : Type*} (loop : ι → Option Loop) (t : ι) (call : Call) : Prop :=
  ∀ t' l, t' ≠ t → loop t' = some l →
    l.call.dst ≠ call.dst ∧ l.call.dst ≠ call.src ∧ l.call.src ≠ call.dst

variable {ι : Type*} {v serial : Vectors} {loop : ι → Option Loop} {t : ι} {call : Call} {i : ℕ}

theorem runSerially_concat (v : Vectors) (calls : List Call) (call : Call) :
    runSerially v (calls ++ [call]) = addVector (runSerially v calls) call := by
  simp only [runSerially, List.foldl_append, List.foldl_cons, List.foldl_nil]

/-- What `addVector` gives for each element. -/
theorem foldl_addElement (v : Vectors) (call : Call) (n : ℕ) :
    (List.range n).foldl (fun v i => addElement v call i) v =
      Function.update v call.dst fun j =>
        if j < n then v call.dst j + v call.src j else v call.dst j := by
  induction n with
  | zero => simp
  | succ n ih =>
      rw [List.range_succ, List.foldl_append, ih, List.foldl_cons, List.foldl_nil, addElement]
      -- the source is read at an element that the loop has not passed
      have hsrc : Function.update v call.dst (fun j => if j < n then v call.dst j + v call.src j
          else v call.dst j) call.src n = v call.src n := by
        obtain heq | hne := eq_or_ne call.src call.dst
        · simp [heq]
        · rw [Function.update_of_ne hne]
      rw [hsrc, Function.update_self, Function.update_idem]
      congr 1
      funext j
      obtain rfl | hj := eq_or_ne j n
      · simp
      · rw [Function.update_of_ne hj]
        simp only [show j < n + 1 ↔ j < n by omega]

/-- The source of a loop is as the calls before it have left it, but for the
elements of its own destination. -/
theorem Serial.source (h : Serial v serial loop) (hloop : loop t = some ⟨call, i⟩)
    (halone : Alone loop t call) : v call.src i = serial call.src i := by
  obtain heq | hne := eq_or_ne call.src call.dst
  · rw [heq]
    have := h.destination t _ hloop i
    simpa using this
  · refine congrFun (h.elsewhere call.src fun t' l hl => ?_) i
    obtain rfl | ht := eq_or_ne t' t
    · obtain rfl := Option.some.inj (hl.symm.trans hloop)
      exact hne.symm
    · exact (halone t' l ht hl).2.1

variable [DecidableEq ι]

theorem alone_update {x : Option Loop} :
    Alone (Function.update loop t x) t call ↔ Alone loop t call := by
  refine forall_congr' fun t' => forall_congr' fun l => forall_congr' fun ht => ?_
  rw [Function.update_of_ne ht]

theorem Serial.enter (h : Serial v serial loop) (hloop : loop t = none)
    (halone : Alone loop t call) :
    Serial v serial (Function.update loop t (some ⟨call, 0⟩)) := by
  refine ⟨fun t' l hl j => ?_, fun x hx => ?_⟩
  · obtain rfl | ht := eq_or_ne t' t
    · rw [Function.update_self] at hl
      obtain rfl := Option.some.inj hl
      rw [if_neg (Nat.not_lt_zero j)]
      refine congrFun (h.elsewhere call.dst fun t'' l' hl' => ?_) j
      obtain rfl | ht' := eq_or_ne t'' t'
      · rw [hloop] at hl'
        cases hl'
      · exact (halone t'' l' ht' hl').1
    · rw [Function.update_of_ne ht] at hl
      exact h.destination t' l hl j
  · refine h.elsewhere x fun t' l hl => ?_
    have ht : t' ≠ t := by
      rintro rfl
      rw [hloop] at hl
      cases hl
    exact hx t' l (by rwa [Function.update_of_ne ht])

theorem Serial.iterate (h : Serial v serial loop) (hloop : loop t = some ⟨call, i⟩)
    (halone : Alone loop t call) :
    Serial (addElement v call i) serial (Function.update loop t (some ⟨call, i + 1⟩)) := by
  have hsource := h.source hloop halone
  have hown := h.destination t _ hloop
  refine ⟨fun t' l hl j => ?_, fun x hx => ?_⟩
  · obtain rfl | ht := eq_or_ne t' t
    · rw [Function.update_self] at hl
      obtain rfl := Option.some.inj hl
      dsimp only at hown ⊢
      rw [addElement, Function.update_self]
      obtain rfl | hj := eq_or_ne j i
      · rw [Function.update_self, hown j, hsource, if_neg (Nat.lt_irrefl j),
          if_pos (Nat.lt_succ_self j)]
      · rw [Function.update_of_ne hj, hown j]
        simp only [show j < i + 1 ↔ j < i by omega]
    · rw [Function.update_of_ne ht] at hl
      rw [addElement, Function.update_of_ne (halone t' l ht hl).1]
      exact h.destination t' l hl j
  · have hne : x ≠ call.dst := (hx t ⟨call, i + 1⟩ (Function.update_self ..)).symm
    rw [addElement, Function.update_of_ne hne]
    refine h.elsewhere x fun t' l hl => ?_
    obtain rfl | ht := eq_or_ne t' t
    · obtain rfl := Option.some.inj (hl.symm.trans hloop)
      exact hne.symm
    · exact hx t' l (by rwa [Function.update_of_ne ht])

/-- The call takes effect. -/
theorem Serial.leave (h : Serial v serial loop) (hloop : loop t = some ⟨call, VECTOR_SIZE⟩)
    (halone : Alone loop t call) :
    Serial v (addVector serial call) (Function.update loop t none) := by
  have hown := h.destination t _ hloop
  rw [addVector, foldl_addElement]
  refine ⟨fun t' l hl j => ?_, fun x hx => ?_⟩
  · obtain rfl | ht := eq_or_ne t' t
    · rw [Function.update_self] at hl
      cases hl
    · rw [Function.update_of_ne ht] at hl
      obtain ⟨hdst, -, hsrc⟩ := halone t' l ht hl
      rw [Function.update_of_ne hdst, Function.update_of_ne hsrc]
      exact h.destination t' l hl j
  · obtain rfl | hne := eq_or_ne x call.dst
    · rw [Function.update_self]
      exact funext hown
    · rw [Function.update_of_ne hne]
      refine h.elsewhere x fun t' l hl => ?_
      obtain rfl | ht := eq_or_ne t' t
      · obtain rfl := Option.some.inj (hl.symm.trans hloop)
        exact hne.symm
      · exact hx t' l (by rwa [Function.update_of_ne ht])

/-! ## Threads -/

/-- The threads with their places `τ` and the mutexes `κ`. `order` has the calls
in the order in which they have taken effect. -/
structure State (ι κ τ : Type*) where
  v : Vectors
  holder : κ → Option ι
  pc : ι → τ
  todo : ι → List Call
  order : List (ι × Call)

variable {κ τ : Type*}

def State.goto (s : State ι κ τ) (t : ι) (loc : τ) : State ι κ τ :=
  { s with pc := Function.update s.pc t loc }

/-- `Pthread_mutex_lock`, which blocks while anybody holds the mutex. -/
def State.lock [DecidableEq κ] (s : State ι κ τ) (t : ι) (l : κ) (loc : τ) :
    Option (State ι κ τ) :=
  if s.holder l = none then
    some ({ s with holder := Function.update s.holder l (some t) }.goto t loc)
  else none

def State.unlock [DecidableEq κ] (s : State ι κ τ) (t : ι) (l : κ) (loc : τ) : State ι κ τ :=
  { s with holder := Function.update s.holder l none }.goto t loc

theorem State.lock_eq_some [DecidableEq κ] {s s' : State ι κ τ} {l : κ} {loc : τ}
    (h : s.lock t l loc = some s') : s.holder l = none ∧
      s' = { s with holder := Function.update s.holder l (some t) }.goto t loc := by
  unfold State.lock at h
  split at h
  · next hfree => exact ⟨hfree, (Option.some.inj h).symm⟩
  · cases h

theorem State.lock_eq_none [DecidableEq κ] {s : State ι κ τ} {l : κ} {loc : τ}
    (h : s.lock t l loc = none) : ∃ t', s.holder l = some t' := by
  unfold State.lock at h
  split at h
  · cases h
  · next hheld => exact Option.ne_none_iff_exists'.mp hheld

/-- The calls of each thread take effect in the order of its program; `pending`
are those that have not. -/
def InOrder (programs : ι → List Call) (order : List (ι × Call)) (pending : ι → List Call) :
    Prop :=
  ∀ t, ((order.filter fun p => p.1 = t).map Prod.snd) ++ pending t = programs t

variable {programs : ι → List Call} {order : List (ι × Call)} {pending pending' : ι → List Call}
  {holder : κ → Option ι} {pc : ι → τ} {holds : τ → κ → Prop}

theorem InOrder.stay (h : InOrder programs order pending) (hsame : ∀ t, pending' t = pending t) :
    InOrder programs order pending' := fun t => by rw [hsame, h t]

theorem InOrder.effect (h : InOrder programs order pending) (hown : pending t = call :: pending' t)
    (hother : ∀ t', t' ≠ t → pending' t' = pending t') :
    InOrder programs (order ++ [(t, call)]) pending' := by
  intro t'
  rw [← h t', List.filter_append, List.map_append]
  obtain rfl | ht := eq_or_ne t' t
  · simp [hown]
  · simp [hother t' ht, ht.symm]

/-- The vectors are as after the calls of all threads, one after the other. -/
def Serializable (v : Vectors) (programs : ι → List Call) (final : Vectors) : Prop :=
  ∃ order : List (ι × Call), (∀ t, (order.filter fun p => p.1 = t).map Prod.snd = programs t) ∧
    final = runSerially v (order.map Prod.snd)

/-- Some thread can step until all have finished, and then the calls have had a
serial order. -/
def Atomic (step : State ι κ τ → ι → Option (State ι κ τ)) (finished : State ι κ τ → ι → Prop)
    (v : Vectors) (programs : ι → List Call) (s : State ι κ τ) : Prop :=
  ((∃ t, ¬ finished s t) → ∃ t, ¬ finished s t ∧ ∃ s', step s t = some s') ∧
    ((∀ t, finished s t) → Serializable v programs s.v)

/-! ## What a locking guarantees -/

/-- The places of a thread, with the mutexes that it holds there, the loop that it is
in, its call that has not taken effect, and what else holds at the place. -/
structure Protocol (κ τ : Type*) where
  mutex : ℕ → κ
  holds : τ → κ → Prop
  current : τ → Option Loop
  pending : τ → List Call
  ok : τ → Prop
  holds_current : ∀ x l, current x = some l →
    holds x (mutex l.call.dst) ∧ holds x (mutex l.call.src)

structure Inv (P : Protocol κ τ) (v : Vectors) (programs : ι → List Call) (s : State ι κ τ) :
    Prop where
  owned : Owned s.holder s.pc P.holds
  ok : ∀ t, P.ok (s.pc t)
  serial : Serial s.v (runSerially v (s.order.map Prod.snd)) (P.current ∘ s.pc)
  inOrder : InOrder programs s.order fun t => P.pending (s.pc t) ++ s.todo t

variable {P : Protocol κ τ} {s s' : State ι κ τ} {a b : τ}

omit [DecidableEq ι] in
/-- Who holds the mutexes of both vectors is alone with them. -/
theorem alone_of_owned (howned : Owned holder pc P.holds)
    (ht : P.holds (pc t) (P.mutex call.dst) ∧ P.holds (pc t) (P.mutex call.src)) :
    Alone (P.current ∘ pc) t call := by
  intro t' l ht' hl
  obtain ⟨hdst, hsrc⟩ := P.holds_current _ l hl
  refine ⟨fun heq => ?_, fun heq => ?_, fun heq => ?_⟩
  · exact ht' (howned.eq (heq ▸ hdst) ht.1)
  · exact ht' (howned.eq (heq ▸ hdst) ht.2)
  · exact ht' (howned.eq (heq ▸ hsrc) ht.1)

theorem Inv.ok_update (h : Inv P v programs s) (hb : P.ok b) (t' : ι) :
    P.ok (Function.update s.pc t b t') := by
  obtain rfl | ht := eq_or_ne t' t
  · rwa [Function.update_self]
  · rw [Function.update_of_ne ht]
    exact h.ok t'

/-- A step outside of the loop, which leaves the pending calls of the thread. -/
theorem Inv.move {v₀ : Vectors} (h : Inv P v₀ programs s) (hpc : s.pc t = a)
    {holder : κ → Option ι} {todo : ι → List Call}
    (howned : Owned holder (Function.update s.pc t b) P.holds)
    (hb : P.ok b) (hcurrent : P.current b = P.current a)
    (hpending : P.pending b ++ todo t = P.pending a ++ s.todo t)
    (hother : ∀ t', t' ≠ t → todo t' = s.todo t') :
    Inv P v₀ programs ({ s with holder, todo }.goto t b) := by
  refine ⟨howned, h.ok_update hb, ?_, h.inOrder.stay fun t' => ?_⟩
  · have hsame : P.current ∘ Function.update s.pc t b = P.current ∘ s.pc := by
      rw [Function.comp_update, hcurrent, ← hpc]
      exact Function.update_eq_self ..
    simpa only [State.goto, hsame] using h.serial
  · obtain rfl | ht := eq_or_ne t' t
    · simp only [State.goto, Function.update_self, hpending, hpc]
    · simp only [State.goto, Function.update_of_ne ht, hother t' ht]

/-- The thread holds both mutexes, so it enters its loop. -/
theorem Inv.enter {v₀ : Vectors} (h : Inv P v₀ programs s) (hpc : s.pc t = a)
    {holder : κ → Option ι} (howned : Owned holder (Function.update s.pc t b) P.holds)
    (hb : P.ok b) (ha : P.current a = none) (hcurrent : P.current b = some ⟨call, 0⟩)
    (hpending : P.pending b = P.pending a) : Inv P v₀ programs ({ s with holder }.goto t b) := by
  have hloop : (P.current ∘ s.pc) t = none := by rw [Function.comp_apply, hpc, ha]
  have halone : Alone (P.current ∘ Function.update s.pc t b) t call := by
    refine alone_of_owned howned ?_
    rw [Function.update_self]
    exact P.holds_current b _ hcurrent
  rw [Function.comp_update] at halone
  refine ⟨howned, h.ok_update hb, ?_, h.inOrder.stay fun t' => ?_⟩
  · simp only [State.goto, Function.comp_update, hcurrent]
    exact h.serial.enter hloop (alone_update.mp halone)
  · obtain rfl | ht := eq_or_ne t' t
    · simp only [State.goto, Function.update_self, hpc, hpending]
    · simp only [State.goto, Function.update_of_ne ht]

theorem Inv.iterate {v₀ : Vectors} (h : Inv P v₀ programs s) (hpc : s.pc t = a)
    (ha : P.current a = some ⟨call, i⟩) (hcurrent : P.current b = some ⟨call, i + 1⟩)
    (hb : P.ok b) (hholds : ∀ l, P.holds b l ↔ P.holds a l) (hpending : P.pending b = P.pending a) :
    Inv P v₀ programs ({ s with v := addElement s.v call i }.goto t b) := by
  have hloop : (P.current ∘ s.pc) t = some ⟨call, i⟩ := by rw [Function.comp_apply, hpc, ha]
  have halone : Alone (P.current ∘ s.pc) t call :=
    alone_of_owned h.owned (P.holds_current _ _ hloop)
  refine ⟨h.owned.stay hpc hholds, h.ok_update hb, ?_, h.inOrder.stay fun t' => ?_⟩
  · simp only [State.goto, Function.comp_update, hcurrent]
    exact h.serial.iterate hloop halone
  · obtain rfl | ht := eq_or_ne t' t
    · simp only [State.goto, Function.update_self, hpc, hpending]
    · simp only [State.goto, Function.update_of_ne ht]

/-- At the end of its loop the call takes effect. -/
theorem Inv.leave {v₀ : Vectors} (h : Inv P v₀ programs s) (hpc : s.pc t = a)
    (ha : P.current a = some ⟨call, VECTOR_SIZE⟩) (hcurrent : P.current b = none)
    (hb : P.ok b) (hholds : ∀ l, P.holds b l ↔ P.holds a l)
    (hpending : P.pending a = call :: P.pending b) :
    Inv P v₀ programs ({ s with order := s.order ++ [(t, call)] }.goto t b) := by
  have hloop : (P.current ∘ s.pc) t = some ⟨call, VECTOR_SIZE⟩ := by
    rw [Function.comp_apply, hpc, ha]
  have halone : Alone (P.current ∘ s.pc) t call :=
    alone_of_owned h.owned (P.holds_current _ _ hloop)
  refine ⟨h.owned.stay hpc hholds, h.ok_update hb, ?_, h.inOrder.effect ?_ fun t' ht => ?_⟩
  · simp only [State.goto, Function.comp_update, List.map_append, List.map_cons, List.map_nil,
      runSerially_concat, hcurrent]
    exact h.serial.leave hloop halone
  · simp only [State.goto, Function.update_self, hpc, hpending, List.cons_append]
  · simp only [State.goto, Function.update_of_ne ht]

/-! ## Between the calls -/

/-- A thread at `x` holds no mutex and is in no call. -/
structure Protocol.Outside (P : Protocol κ τ) (x : τ) : Prop where
  holds : ∀ l, ¬ P.holds x l
  ok : P.ok x
  current : P.current x = none
  pending : P.pending x = []

def State.FinishedAt (x : τ) (s : State ι κ τ) (t : ι) : Prop := s.pc t = x ∧ s.todo t = []

variable {x : τ} {step : State ι κ τ → ι → Option (State ι κ τ)}

theorem Protocol.Outside.inv_init (hx : P.Outside x) (v : Vectors) (programs : ι → List Call) :
    Inv P v programs ⟨v, fun _ => none, fun _ => x, programs, []⟩ := by
  refine ⟨fun l t => ?_, fun _ => hx.ok, ⟨fun t l hl => ?_, fun _ _ => rfl⟩, fun t => ?_⟩
  · exact iff_of_false (Option.some_ne_none t).symm (hx.holds l)
  · rw [Function.comp_apply, hx.current] at hl
    cases hl
  · dsimp only
    rw [hx.pending]
    rfl

/-- When all have finished, the calls have had a serial order. -/
theorem Protocol.Outside.serializable {v₀ : Vectors} (hx : P.Outside x) (h : Inv P v₀ programs s)
    (hfinished : ∀ t, s.FinishedAt x t) : Serializable v₀ programs s.v := by
  refine ⟨s.order, fun t => ?_, funext fun y => h.serial.elsewhere y fun t l hl => ?_⟩
  · have hall := h.inOrder t
    dsimp only at hall
    rw [(hfinished t).1, (hfinished t).2, hx.pending] at hall
    exact (List.append_nil _).symm.trans hall
  · rw [Function.comp_apply, (hfinished t).1, hx.current] at hl
    cases hl

/-- Someone can go on, where those that cannot wait for mutexes whose holders rank above them. -/
theorem Protocol.Outside.progress [Fintype ι] {ρ : Type*} [LinearOrder ρ] {v₀ : Vectors}
    (hx : P.Outside x) (h : Inv P v₀ programs s) {waits : τ → Option κ} (rank : τ → ρ)
    (hnone : ∀ t, step s t = none → s.FinishedAt x t ∨
      ∃ l, waits (s.pc t) = some l ∧ ∃ t', s.holder l = some t')
    (hrank : ∀ t t' l, waits (s.pc t) = some l → s.holder l = some t' →
      rank (s.pc t) < rank (s.pc t'))
    (hunfinished : ∃ t, ¬ s.FinishedAt x t) :
    ∃ t, ¬ s.FinishedAt x t ∧ ∃ s', step s t = some s' := by
  refine exists_runnable (fun t => rank (s.pc t)) (fun t ht hblocked => ?_) hunfinished
  obtain hfinished | ⟨l, hwaits, t', hheld⟩ :=
    hnone t (Option.eq_none_iff_forall_ne_some.mpr fun s' hs => hblocked ⟨s', hs⟩)
  · exact absurd hfinished ht
  · refine ⟨t', fun hfinished => ?_, hrank t t' l hwaits hheld⟩
    have hholds : P.holds (s.pc t') l := (h.owned l t').mp hheld
    rw [hfinished.1] at hholds
    exact hx.holds l hholds

/-- Someone can go on, where each thread waits for a mutex above those that it holds. -/
theorem Protocol.Outside.progress_of_order [Fintype ι] {v₀ : Vectors} (hx : P.Outside x)
    (h : Inv P v₀ programs s) {waits : τ → Option κ} (rank : κ → ℕ)
    (hnone : ∀ t, step s t = none → s.FinishedAt x t ∨
      ∃ l, waits (s.pc t) = some l ∧ ∃ t', s.holder l = some t')
    (hrank : ∀ t l l', waits (s.pc t) = some l → P.holds (s.pc t) l' → rank l' < rank l)
    (hunfinished : ∃ t, ¬ s.FinishedAt x t) :
    ∃ t, ¬ s.FinishedAt x t ∧ ∃ s', step s t = some s' := by
  refine hx.progress h (fun y => ((waits y).elim ⊤ fun l => (rank l : ℕ) : WithTop ℕ)) hnone
    (fun t t' l hwaits hheld => ?_) hunfinished
  rw [hwaits]
  cases hwaits' : waits (s.pc t') with
  | none => exact WithTop.coe_lt_top _
  | some l' => exact WithTop.coe_lt_coe.mpr (hrank t' l' l hwaits' ((h.owned l t').mp hheld))

/-- Steps that keep the invariant, and of which there is one until all have finished. -/
theorem Protocol.Outside.atomic {v₀ : Vectors} (hx : P.Outside x)
    (hstep : ∀ s t s', Inv P v₀ programs s → step s t = some s' → Inv P v₀ programs s')
    (hprogress : ∀ s, Inv P v₀ programs s → (∃ t, ¬ s.FinishedAt x t) →
      ∃ t, ¬ s.FinishedAt x t ∧ ∃ s', step s t = some s')
    (h : Reach step anyStep ⟨v₀, fun _ => none, fun _ => x, programs, []⟩ s) :
    Atomic step (State.FinishedAt x) v₀ programs s := by
  have hinv : Inv P v₀ programs s :=
    h.invariant (hx.inv_init v₀ programs) fun s t s' hs _ => hstep s t s' hs
  exact ⟨hprogress s hinv, hx.serializable hinv⟩

end OsLabs.Concurrent.VectorAdd
