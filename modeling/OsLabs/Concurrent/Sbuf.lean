import Mathlib
import OsLabs.Lib.Transition
import OsLabs.Lib.Threads
import OsLabs.Lib.Ring
import OsLabs.Lib.CNumber

/-!
# The bounded buffer of the concurrent servers

`sbuf.c` under any number of threads. `front` and `rear` are never reduced, so
they wrap after `2 ^ 31 - 1` steps, and a remainder of a negative number is
negative in C.
-/

namespace OsLabs.Concurrent.Sbuf

open OsLabs.Transition OsLabs.Threads OsLabs.Ring OsLabs.CNumber

inductive Call
  | insert (item : ℤ)
  | remove
deriving DecidableEq, Repr

/-- What a thread does next. The index of a step is what `++` has returned. -/
inductive Loc
  | outside
  -- `sbuf_insert`
  | insertWaitSlots (item : ℤ)
  | insertWaitMutex (item : ℤ)
  | insertRear (item : ℤ)
  | insertStore (item index : ℤ)
  | insertPostMutex
  | insertPostItems
  -- `sbuf_remove`
  | removeWaitItems
  | removeWaitMutex
  | removeFront
  | removeLoad (index : ℤ)
  | removePostMutex (item : ℤ)
  | removePostSlots (item : ℤ)
deriving DecidableEq, Repr

/-- `stored` tells the places of `buf` that hold an item which has not been
removed; `inserted` and `removed` are the items so far. -/
structure State (ι : Type*) where
  buf : ℤ → ℤ
  front : ℤ
  rear : ℤ
  mutex : ℕ
  slots : ℕ
  items : ℕ
  pc : ι → Loc
  todo : ι → List Call
  stored : ℤ → Bool
  inserted : List ℤ
  removed : List ℤ

variable {ι : Type*} [DecidableEq ι]

def sbuf_init (n : ℕ) (programs : ι → List Call) : State ι :=
  ⟨fun _ => 0, 0, 0, 1, n, 0, fun _ => .outside, programs, fun _ => false, [], []⟩

def State.goto (s : State ι) (i : ι) (loc : Loc) : State ι :=
  { s with pc := Function.update s.pc i loc }

/-- The thread `i` steps, or is blocked or finished. -/
def step (n : ℕ) (s : State ι) (i : ι) : Option (State ι) :=
  match s.pc i with
  | .outside =>
      match s.todo i with
      | [] => none
      | .insert item :: todo =>
          some ({ s with todo := Function.update s.todo i todo }.goto i (.insertWaitSlots item))
      | .remove :: todo =>
          some ({ s with todo := Function.update s.todo i todo }.goto i .removeWaitItems)
  | .insertWaitSlots item =>
      (semWait s.slots).map fun slots => { s with slots }.goto i (.insertWaitMutex item)
  | .insertWaitMutex item =>
      (semWait s.mutex).map fun mutex => { s with mutex }.goto i (.insertRear item)
  | .insertRear item =>
      some ({ s with rear := int32 (s.rear + 1) }.goto i (.insertStore item (int32 (s.rear + 1))))
  | .insertStore item index =>
      some ({ s with
        buf := Function.update s.buf (index.tmod n) item
        stored := Function.update s.stored (index.tmod n) true
        inserted := s.inserted ++ [item] }.goto i .insertPostMutex)
  | .insertPostMutex => some ({ s with mutex := semPost s.mutex }.goto i .insertPostItems)
  | .insertPostItems => some ({ s with items := semPost s.items }.goto i .outside)
  | .removeWaitItems =>
      (semWait s.items).map fun items => { s with items }.goto i .removeWaitMutex
  | .removeWaitMutex =>
      (semWait s.mutex).map fun mutex => { s with mutex }.goto i .removeFront
  | .removeFront =>
      some ({ s with front := int32 (s.front + 1) }.goto i (.removeLoad (int32 (s.front + 1))))
  | .removeLoad index =>
      some ({ s with
        stored := Function.update s.stored (index.tmod n) false
        removed := s.removed ++ [s.buf (index.tmod n)] }.goto i
          (.removePostMutex (s.buf (index.tmod n))))
  | .removePostMutex item =>
      some ({ s with mutex := semPost s.mutex }.goto i (.removePostSlots item))
  | .removePostSlots _ => some ({ s with slots := semPost s.slots }.goto i .outside)

/-- The number that `++` is about to return, to take the remainder of. -/
def State.nextIndex (s : State ι) (i : ι) : Option ℤ :=
  match s.pc i with
  | .insertRear _ => some (int32 (s.rear + 1))
  | .removeFront => some (int32 (s.front + 1))
  | _ => none

/-- No remainder is taken of a negative number, unless there is none. -/
def NoWrap (n : ℕ) (s : State ι) (i : ι) : Prop :=
  ∀ index ∈ s.nextIndex i, 0 ≤ index ∨ (n : ℤ) ∣ index

instance (n : ℕ) (s : State ι) (i : ι) : Decidable (NoWrap n s i) :=
  inferInstanceAs (Decidable (∀ index ∈ s.nextIndex i, 0 ≤ index ∨ (n : ℤ) ∣ index))

/-! ## Indices -/

/-- The `k`-th index is at its place: no index has wrapped, or it makes no
difference to the remainder. -/
def Exact (n k : ℕ) : Prop := k < 2 ^ 31 ∨ n = 1 ∨ k = 2 ^ 31 ∧ n ∣ 2 ^ 31

theorem int32_succ (k : ℕ) : int32 (int32 k + 1) = int32 (k + 1 : ℕ) := by
  unfold int32
  rw [Int.bmod_add_bmod, Nat.cast_succ]

theorem int32_of_lt {k : ℕ} (h : k < 2 ^ 31) : int32 k = k := by
  unfold int32
  exact Int.bmod_eq_of_le (by omega) (by omega)

theorem int32_first_wrap : int32 (2 ^ 31 : ℕ) = -2 ^ 31 := by decide

theorem int32_second_wrap : int32 (2 ^ 31 + 1 : ℕ) = -(2147483647 : ℕ) := by decide

theorem Exact.succ {n k : ℕ} (h : Exact n k)
    (hguard : 0 ≤ int32 (int32 k + 1) ∨ (n : ℤ) ∣ int32 (int32 k + 1)) : Exact n (k + 1) := by
  rw [int32_succ] at hguard
  obtain hlt | hone | ⟨rfl, hdvd⟩ := h
  · by_cases hlast : k + 1 < 2 ^ 31
    · exact Or.inl hlast
    · have hk : k + 1 = 2 ^ 31 := by omega
      rw [hk, int32_first_wrap] at hguard
      refine Or.inr (Or.inr ⟨hk, ?_⟩)
      obtain hneg | hdvd := hguard
      · omega
      · exact_mod_cast (Int.dvd_neg.mp hdvd)
  · exact Or.inr (Or.inl hone)
  · rw [int32_second_wrap] at hguard
    refine Or.inr (Or.inl ?_)
    obtain hneg | hdvd' := hguard
    · omega
    · have hdvd'' : n ∣ 2147483647 := Int.natCast_dvd_natCast.mp (Int.dvd_neg.mp hdvd')
      exact Nat.dvd_one.mp (Nat.dvd_sub hdvd hdvd'')

theorem Exact.tmod {n k : ℕ} (h : Exact n k) : (int32 k).tmod n = (k % n : ℕ) := by
  obtain hlt | rfl | ⟨rfl, hdvd⟩ := h
  · rw [int32_of_lt hlt, Int.ofNat_tmod]
  · simp [Nat.mod_one]
  · rw [int32_first_wrap, Nat.mod_eq_zero_of_dvd hdvd]
    apply Int.tmod_eq_zero_of_dvd
    exact Int.dvd_neg.mpr (by exact_mod_cast hdvd)

/-! ## Who is where -/

@[simp] def Loc.holds : Loc → ℕ
  | .insertRear _ | .insertStore _ _ | .insertPostMutex => 1
  | .removeFront | .removeLoad _ | .removePostMutex _ => 1
  | _ => 0

/-- A slot is claimed, but the item is not stored yet. -/
@[simp] def Loc.claimed : Loc → ℕ
  | .insertWaitMutex _ | .insertRear _ | .insertStore _ _ => 1
  | _ => 0

/-- The item is stored, but not announced yet. -/
@[simp] def Loc.announcing : Loc → ℕ
  | .insertPostMutex | .insertPostItems => 1
  | _ => 0

/-- An item is claimed, but not removed yet. -/
@[simp] def Loc.taking : Loc → ℕ
  | .removeWaitMutex | .removeFront | .removeLoad _ => 1
  | _ => 0

/-- The item is removed, but its slot is not announced yet. -/
@[simp] def Loc.freeing : Loc → ℕ
  | .removePostMutex _ | .removePostSlots _ => 1
  | _ => 0

@[simp] def Loc.storing : Loc → ℕ
  | .insertStore _ _ => 1
  | _ => 0

@[simp] def Loc.loading : Loc → ℕ
  | .removeLoad _ => 1
  | _ => 0

variable [Fintype ι]

/-- What the place `x` of `buf` holds. -/
def State.cells (s : State ι) (x : ℕ) : Option ℤ := if s.stored x then some (s.buf x) else none

structure Inv (n : ℕ) (s : State ι) : Prop where
  mutex : s.mutex + total s.pc Loc.holds = 1
  slots : s.slots + total s.pc Loc.claimed + s.inserted.length + total s.pc Loc.freeing =
    n + s.removed.length
  items : s.items + total s.pc Loc.taking + s.removed.length + total s.pc Loc.announcing =
    s.inserted.length
  rear : s.rear = int32 (s.inserted.length + total s.pc Loc.storing : ℕ)
  front : s.front = int32 (s.removed.length + total s.pc Loc.loading : ℕ)
  rearExact : Exact n (s.inserted.length + total s.pc Loc.storing)
  frontExact : Exact n (s.removed.length + total s.pc Loc.loading)
  storeAt : ∀ i item index, s.pc i = .insertStore item index → index = s.rear
  loadAt : ∀ i index, s.pc i = .removeLoad index → index = s.front
  fifo : Holds n 1 s.cells s.inserted s.removed

variable {n : ℕ} {s s' : State ι} {i j : ι} {a b : Loc}

omit [Fintype ι] in
theorem State.goto_pc_self : (s.goto i b).pc i = b := Function.update_self ..

omit [Fintype ι] in
theorem State.goto_pc_of_ne (hji : j ≠ i) : (s.goto i b).pc j = s.pc j :=
  Function.update_of_ne hji ..

/-- What moves when a thread goes from `a` to `b`. -/
theorem update_totals {pc : ι → Loc} (hpc : pc i = a) (b : Loc) :
    (total (Function.update pc i b) Loc.holds + a.holds = total pc Loc.holds + b.holds ∧
      total (Function.update pc i b) Loc.claimed + a.claimed = total pc Loc.claimed + b.claimed ∧
      total (Function.update pc i b) Loc.announcing + a.announcing =
        total pc Loc.announcing + b.announcing) ∧
    total (Function.update pc i b) Loc.taking + a.taking = total pc Loc.taking + b.taking ∧
    total (Function.update pc i b) Loc.freeing + a.freeing = total pc Loc.freeing + b.freeing ∧
    total (Function.update pc i b) Loc.storing + a.storing = total pc Loc.storing + b.storing ∧
    total (Function.update pc i b) Loc.loading + a.loading = total pc Loc.loading + b.loading := by
  have hmoved := fun w : Loc → ℕ => hpc ▸ total_update pc w i b
  exact ⟨⟨hmoved _, hmoved _, hmoved _⟩, hmoved _, hmoved _, hmoved _, hmoved _⟩

omit [DecidableEq ι] in
theorem inv_init {programs : ι → List Call} (hn : 0 < n) : Inv n (sbuf_init n programs) := by
  have hzero (w : Loc → ℕ) (hw : w .outside = 0) : total (fun _ : ι => Loc.outside) w = 0 :=
    total_const hw
  have hexact : Exact n 0 := Or.inl (by decide)
  constructor <;> simp [sbuf_init, hzero Loc.holds rfl, hzero Loc.claimed rfl,
    hzero Loc.announcing rfl, hzero Loc.taking rfl, hzero Loc.freeing rfl, hzero Loc.storing rfl,
    hzero Loc.loading rfl, hexact, int32]
  exact Holds.init hn fun _ _ => rfl

/-- The thread that holds the mutex is the only one at an index. -/
theorem Inv.alone (h : Inv n s) (hpc : s.pc i = a) (ha : 0 < a.holds) :
    total s.pc Loc.holds = 1 ∧ total s.pc Loc.storing = a.storing ∧
      total s.pc Loc.loading = a.loading := by
  have hpos := le_total s.pc Loc.holds i
  have hmutex := h.mutex
  have hle : total s.pc Loc.holds ≤ 1 := by omega
  rw [← hpc] at ha ⊢
  exact ⟨by omega, total_eq_of_alone (fun x => by cases x <;> simp) hle ha,
    total_eq_of_alone (fun x => by cases x <;> simp) hle ha⟩

theorem Inv.storeAt_goto (h : Inv n s) (hb : b.storing = 0) (j : ι) (item index : ℤ)
    (hj : (s.goto i b).pc j = .insertStore item index) : index = s.rear := by
  obtain rfl | hji := eq_or_ne j i
  · rw [State.goto_pc_self] at hj
    simp [hj] at hb
  · exact h.storeAt j item index (State.goto_pc_of_ne hji ▸ hj)

theorem Inv.loadAt_goto (h : Inv n s) (hb : b.loading = 0) (j : ι) (index : ℤ)
    (hj : (s.goto i b).pc j = .removeLoad index) : index = s.front := by
  obtain rfl | hji := eq_or_ne j i
  · rw [State.goto_pc_self] at hj
    simp [hj] at hb
  · exact h.loadAt j index (State.goto_pc_of_ne hji ▸ hj)

/-- The steps that use no index only move the counts. -/
theorem Inv.move (h : Inv n s) (hpc : s.pc i = a) {mutex slots items : ℕ} {todo : ι → List Call}
    (ha : a.storing = 0 ∧ a.loading = 0) (hb : b.storing = 0 ∧ b.loading = 0)
    (hmutex : mutex + b.holds = s.mutex + a.holds)
    (hslots : slots + b.claimed + b.freeing = s.slots + a.claimed + a.freeing)
    (hitems : items + b.taking + b.announcing = s.items + a.taking + a.announcing) :
    Inv n ({ s with mutex := mutex, slots := slots, items := items, todo := todo }.goto i b) := by
  have hmoved := update_totals hpc b
  have hstoring : total (Function.update s.pc i b) Loc.storing = total s.pc Loc.storing := by omega
  have hloading : total (Function.update s.pc i b) Loc.loading = total s.pc Loc.loading := by omega
  have := h.mutex
  have := h.slots
  have := h.items
  constructor
  case rear => simpa only [State.goto, hstoring] using h.rear
  case front => simpa only [State.goto, hloading] using h.front
  case rearExact => simpa only [State.goto, hstoring] using h.rearExact
  case frontExact => simpa only [State.goto, hloading] using h.frontExact
  case fifo => exact h.fifo
  case storeAt => exact h.storeAt_goto hb.1
  case loadAt => exact h.loadAt_goto hb.2
  all_goals simp only [State.goto]; omega

/-- `++rear` -/
theorem Inv.advanceRear (h : Inv n s) {item index : ℤ} (hpc : s.pc i = .insertRear item)
    (hindex : int32 (s.rear + 1) = index) (hguard : 0 ≤ index ∨ (n : ℤ) ∣ index) :
    Inv n ({ s with rear := index }.goto i (.insertStore item index)) := by
  have hmoved := update_totals hpc (.insertStore item index)
  have halone := h.alone hpc (by simp)
  dsimp at hmoved halone
  have hrear := h.rear
  have hexact := h.rearExact
  rw [halone.2.1, add_zero] at hrear hexact
  rw [hrear] at hindex
  have hstoring : total (Function.update s.pc i (.insertStore item index)) Loc.storing = 1 := by
    omega
  have hloading : total (Function.update s.pc i (.insertStore item index)) Loc.loading =
      total s.pc Loc.loading := by omega
  have hmutex := h.mutex
  have hslots := h.slots
  have hitems := h.items
  constructor
  case rear =>
    simp only [State.goto, hstoring]
    rw [← int32_succ, hindex]
  case front => simpa only [State.goto, hloading] using h.front
  case rearExact =>
    simp only [State.goto, hstoring]
    exact hexact.succ (hindex.symm ▸ hguard)
  case frontExact => simpa only [State.goto, hloading] using h.frontExact
  case fifo => exact h.fifo
  case storeAt =>
    intro j item' index' hj
    obtain rfl | hji := eq_or_ne j i
    · exact (Loc.insertStore.inj (State.goto_pc_self.symm.trans hj)).2.symm
    · have hother := le_total s.pc Loc.storing j
      rw [(State.goto_pc_of_ne hji).symm.trans hj] at hother
      dsimp at hother
      omega
  case loadAt => exact h.loadAt_goto rfl
  all_goals simp only [State.goto]; omega

/-- `++front` -/
theorem Inv.advanceFront (h : Inv n s) {index : ℤ} (hpc : s.pc i = .removeFront)
    (hindex : int32 (s.front + 1) = index) (hguard : 0 ≤ index ∨ (n : ℤ) ∣ index) :
    Inv n ({ s with front := index }.goto i (.removeLoad index)) := by
  have hmoved := update_totals hpc (.removeLoad index)
  have halone := h.alone hpc (by simp)
  dsimp at hmoved halone
  have hfront := h.front
  have hexact := h.frontExact
  rw [halone.2.2, add_zero] at hfront hexact
  rw [hfront] at hindex
  have hstoring : total (Function.update s.pc i (.removeLoad index)) Loc.storing =
      total s.pc Loc.storing := by omega
  have hloading : total (Function.update s.pc i (.removeLoad index)) Loc.loading = 1 := by omega
  have hmutex := h.mutex
  have hslots := h.slots
  have hitems := h.items
  constructor
  case rear => simpa only [State.goto, hstoring] using h.rear
  case front =>
    simp only [State.goto, hloading]
    rw [← int32_succ, hindex]
  case rearExact => simpa only [State.goto, hstoring] using h.rearExact
  case frontExact =>
    simp only [State.goto, hloading]
    exact hexact.succ (hindex.symm ▸ hguard)
  case fifo => exact h.fifo
  case storeAt => exact h.storeAt_goto rfl
  case loadAt =>
    intro j index' hj
    obtain rfl | hji := eq_or_ne j i
    · exact (Loc.removeLoad.inj (State.goto_pc_self.symm.trans hj)).symm
    · have hother := le_total s.pc Loc.loading j
      rw [(State.goto_pc_of_ne hji).symm.trans hj] at hother
      dsimp at hother
      omega
  all_goals simp only [State.goto]; omega

/-- The place of an index is the next one of the ring, and it is empty. -/
theorem Inv.at_store (h : Inv n s) {item index : ℤ} (hpc : s.pc i = .insertStore item index) :
    index.tmod n = ((1 + s.inserted.length) % n : ℕ) ∧
      s.cells ((1 + s.inserted.length) % n) = none := by
  have halone := h.alone hpc (by simp)
  have hclaimed := le_total s.pc Loc.claimed i
  rw [hpc] at hclaimed
  dsimp at halone hclaimed
  have hslots := h.slots
  have hexact := h.rearExact
  rw [halone.2.1, Nat.add_comm] at hexact
  refine ⟨?_, h.fifo.next_empty (by omega)⟩
  rw [h.storeAt i item index hpc, h.rear, halone.2.1, Nat.add_comm, hexact.tmod]

theorem Inv.at_load (h : Inv n s) {index : ℤ} (hpc : s.pc i = .removeLoad index) :
    index.tmod n = ((1 + s.removed.length) % n : ℕ) ∧
      s.cells ((1 + s.removed.length) % n) = some (s.buf (index.tmod n)) ∧
      s.removed ++ [s.buf (index.tmod n)] <+: s.inserted := by
  have halone := h.alone hpc (by simp)
  have htaking := le_total s.pc Loc.taking i
  rw [hpc] at htaking
  dsimp at halone htaking
  have hitems := h.items
  have hexact := h.frontExact
  rw [halone.2.2, Nat.add_comm] at hexact
  have hindex : index.tmod n = ((1 + s.removed.length) % n : ℕ) := by
    rw [h.loadAt i index hpc, h.front, halone.2.2, Nat.add_comm, hexact.tmod]
  obtain ⟨v, hv, horder⟩ := h.fifo.next_full (by omega)
  have hbuf : s.buf (index.tmod n) = v := by
    rw [hindex]
    unfold State.cells at hv
    split at hv
    · exact Option.some.inj hv
    · cases hv
  rw [hbuf]
  exact ⟨hindex, hv, horder⟩

omit [DecidableEq ι] [Fintype ι] in
/-- Another place of `buf` is not touched. -/
theorem natCast_ne {x y : ℕ} (h : x ≠ y) : (x : ℤ) ≠ y := Nat.cast_injective.ne h

theorem Inv.store (h : Inv n s) {item index : ℤ} (hpc : s.pc i = .insertStore item index) :
    Inv n ({ s with
      buf := Function.update s.buf (index.tmod n) item
      stored := Function.update s.stored (index.tmod n) true
      inserted := s.inserted ++ [item] }.goto i .insertPostMutex) := by
  obtain ⟨hindex, hempty⟩ := h.at_store hpc
  have hmoved := update_totals hpc .insertPostMutex
  have halone := h.alone hpc (by simp)
  have hclaimed := le_total s.pc Loc.claimed i
  rw [hpc] at hclaimed
  dsimp at hmoved halone hclaimed
  have hlength : (s.inserted ++ [item]).length = s.inserted.length + 1 := List.length_append
  have hstored : (s.inserted ++ [item]).length +
      total (Function.update s.pc i .insertPostMutex) Loc.storing =
        s.inserted.length + total s.pc Loc.storing := by omega
  have hloading : total (Function.update s.pc i .insertPostMutex) Loc.loading =
      total s.pc Loc.loading := by omega
  have hmutex := h.mutex
  have hslots := h.slots
  have hitems := h.items
  constructor
  case rear => simpa only [State.goto, hstored] using h.rear
  case front => simpa only [State.goto, hloading] using h.front
  case rearExact => simpa only [State.goto, hstored] using h.rearExact
  case frontExact => simpa only [State.goto, hloading] using h.frontExact
  case storeAt => exact h.storeAt_goto rfl
  case loadAt => exact h.loadAt_goto rfl
  case fifo =>
    refine h.fifo.fill (by omega) ?_ fun x _ hx => ?_
    · simp only [State.goto, State.cells, hindex, Function.update_self, if_true]
    · simp only [State.goto, State.cells, hindex, Function.update_of_ne (natCast_ne hx)]
  all_goals simp only [State.goto]; omega

theorem Inv.load (h : Inv n s) {index : ℤ} (hpc : s.pc i = .removeLoad index) :
    Inv n ({ s with
      stored := Function.update s.stored (index.tmod n) false
      removed := s.removed ++ [s.buf (index.tmod n)] }.goto i
        (.removePostMutex (s.buf (index.tmod n)))) := by
  obtain ⟨hindex, hfull, horder⟩ := h.at_load hpc
  generalize s.buf (index.tmod n) = item at hfull horder ⊢
  have hmoved := update_totals hpc (.removePostMutex item)
  have halone := h.alone hpc (by simp)
  have htaking := le_total s.pc Loc.taking i
  rw [hpc] at htaking
  dsimp at hmoved halone htaking
  have hlength : (s.removed ++ [item]).length = s.removed.length + 1 := List.length_append
  have hloaded : (s.removed ++ [item]).length +
      total (Function.update s.pc i (.removePostMutex item)) Loc.loading =
        s.removed.length + total s.pc Loc.loading := by omega
  have hstoring : total (Function.update s.pc i (.removePostMutex item)) Loc.storing =
      total s.pc Loc.storing := by omega
  have hmutex := h.mutex
  have hslots := h.slots
  have hitems := h.items
  constructor
  case rear => simpa only [State.goto, hstoring] using h.rear
  case front => simpa only [State.goto, hloaded] using h.front
  case rearExact => simpa only [State.goto, hstoring] using h.rearExact
  case frontExact => simpa only [State.goto, hloaded] using h.frontExact
  case storeAt => exact h.storeAt_goto rfl
  case loadAt => exact h.loadAt_goto rfl
  case fifo =>
    refine h.fifo.drain (by omega) hfull ?_ fun x _ hx => ?_
    · simp only [State.goto, State.cells, hindex, Function.update_self]
      rfl
    · simp only [State.goto, State.cells, hindex, Function.update_of_ne (natCast_ne hx)]
  all_goals simp only [State.goto]; omega

theorem Inv.step (h : Inv n s) (hguard : NoWrap n s i) (hstep : step n s i = some s') :
    Inv n s' := by
  unfold Sbuf.step at hstep
  cases hpc : s.pc i with
  | outside =>
      simp only [hpc] at hstep
      cases htodo : s.todo i with
      | nil =>
          simp only [htodo] at hstep
          cases hstep
      | cons call todo =>
          simp only [htodo] at hstep
          cases call with
          | insert item =>
              obtain rfl := Option.some.inj hstep
              exact h.move hpc ⟨rfl, rfl⟩ ⟨rfl, rfl⟩ rfl rfl rfl
          | remove =>
              obtain rfl := Option.some.inj hstep
              exact h.move hpc ⟨rfl, rfl⟩ ⟨rfl, rfl⟩ rfl rfl rfl
  | insertWaitSlots item =>
      simp only [hpc, Option.map_eq_some_iff, semWait_eq_some] at hstep
      obtain ⟨slots, hslots, rfl⟩ := hstep
      exact h.move hpc ⟨rfl, rfl⟩ ⟨rfl, rfl⟩ rfl (by simp [hslots]) rfl
  | insertWaitMutex item =>
      simp only [hpc, Option.map_eq_some_iff, semWait_eq_some] at hstep
      obtain ⟨mutex, hmutex, rfl⟩ := hstep
      exact h.move hpc ⟨rfl, rfl⟩ ⟨rfl, rfl⟩ (by simp [hmutex]) rfl rfl
  | insertRear item =>
      simp only [hpc] at hstep
      obtain rfl := Option.some.inj hstep
      exact h.advanceRear hpc rfl (hguard _ (by simp [State.nextIndex, hpc]))
  | insertStore item index =>
      simp only [hpc] at hstep
      obtain rfl := Option.some.inj hstep
      exact h.store hpc
  | insertPostMutex =>
      simp only [hpc] at hstep
      obtain rfl := Option.some.inj hstep
      exact h.move hpc ⟨rfl, rfl⟩ ⟨rfl, rfl⟩ rfl rfl rfl
  | insertPostItems =>
      simp only [hpc] at hstep
      obtain rfl := Option.some.inj hstep
      exact h.move hpc ⟨rfl, rfl⟩ ⟨rfl, rfl⟩ rfl rfl rfl
  | removeWaitItems =>
      simp only [hpc, Option.map_eq_some_iff, semWait_eq_some] at hstep
      obtain ⟨items, hitems, rfl⟩ := hstep
      exact h.move hpc ⟨rfl, rfl⟩ ⟨rfl, rfl⟩ rfl rfl (by simp [hitems])
  | removeWaitMutex =>
      simp only [hpc, Option.map_eq_some_iff, semWait_eq_some] at hstep
      obtain ⟨mutex, hmutex, rfl⟩ := hstep
      exact h.move hpc ⟨rfl, rfl⟩ ⟨rfl, rfl⟩ (by simp [hmutex]) rfl rfl
  | removeFront =>
      simp only [hpc] at hstep
      obtain rfl := Option.some.inj hstep
      exact h.advanceFront hpc rfl (hguard _ (by simp [State.nextIndex, hpc]))
  | removeLoad index =>
      simp only [hpc] at hstep
      obtain rfl := Option.some.inj hstep
      exact h.load hpc
  | removePostMutex item =>
      simp only [hpc] at hstep
      obtain rfl := Option.some.inj hstep
      exact h.move hpc ⟨rfl, rfl⟩ ⟨rfl, rfl⟩ rfl rfl rfl
  | removePostSlots item =>
      simp only [hpc] at hstep
      obtain rfl := Option.some.inj hstep
      exact h.move hpc ⟨rfl, rfl⟩ ⟨rfl, rfl⟩ rfl rfl rfl

/-- As long as no remainder is taken of a negative number. -/
theorem sbuf_fifo {programs : ι → List Call} (hn : 1 ≤ n)
    (h : Reach (step n) (NoWrap n) (sbuf_init n programs) s) :
    (∀ i item index, s.pc i = .insertStore item index →
      0 ≤ index.tmod n ∧ index.tmod n < n ∧ s.stored (index.tmod n) = false) ∧
    (∀ i index, s.pc i = .removeLoad index →
      0 ≤ index.tmod n ∧ index.tmod n < n ∧ s.stored (index.tmod n) = true ∧
        s.removed ++ [s.buf (index.tmod n)] <+: s.inserted) ∧
    s.removed <+: s.inserted := by
  have hinv : Inv n s := h.invariant (inv_init hn) fun _ _ _ hs hguard => hs.step hguard
  have hrange (k : ℕ) : (0 : ℤ) ≤ (k % n : ℕ) ∧ ((k % n : ℕ) : ℤ) < n :=
    ⟨Int.natCast_nonneg _, Int.ofNat_lt.mpr (Nat.mod_lt k hn)⟩
  refine ⟨fun i item index hpc => ?_, fun i index hpc => ?_, hinv.fifo.order⟩
  · obtain ⟨hindex, hempty⟩ := hinv.at_store hpc
    unfold State.cells at hempty
    rw [← hindex] at hempty
    refine ⟨hindex ▸ (hrange _).1, hindex ▸ (hrange _).2, ?_⟩
    cases hstored : s.stored (index.tmod n) with
    | false => rfl
    | true => simp [hstored] at hempty
  · obtain ⟨hindex, hfull, horder⟩ := hinv.at_load hpc
    unfold State.cells at hfull
    rw [← hindex] at hfull
    refine ⟨hindex ▸ (hrange _).1, hindex ▸ (hrange _).2, ?_, horder⟩
    cases hstored : s.stored (index.tmod n) with
    | false => simp [hstored] at hfull
    | true => rfl

def producerAndConsumer : Fin 2 → List Call
  | 0 => [.insert 7]
  | 1 => [.remove]

/-- The item is stored, and the other thread is at its index. -/
def insertThenRemove : List (Fin 2) :=
  [true, false, false, false, false, false, false, false, true, true, true].map finTwoEquiv.symm

theorem sbuf_fifo_insertThenRemove :
    ∃ s, run (step 3) (sbuf_init 3 producerAndConsumer) insertThenRemove = some s ∧
      s.pc 1 = .removeLoad 1 ∧ s.stored 1 = true ∧ [s.buf 1] <+: s.inserted := by
  have hrun : ((run (step 3) (sbuf_init 3 producerAndConsumer) insertThenRemove).map fun s =>
      (s.pc 1, s.removed)) = some (.removeLoad 1, []) := by decide +kernel
  obtain ⟨s, hs, hstate⟩ := Option.map_eq_some_iff.mp hrun
  obtain ⟨hpc, hremoved⟩ := Prod.mk.inj hstate
  have hreach : Reach (step 3) (NoWrap 3) (sbuf_init 3 producerAndConsumer) s :=
    reach_of_run insertThenRemove (runMeets_of_check (by decide +kernel)) hs
  obtain ⟨-, -, hstored, horder⟩ := (sbuf_fifo (by decide) hreach).2.1 1 1 hpc
  rw [hremoved] at horder
  exact ⟨s, hs, hpc, hstored, horder⟩

/-! ## Where `rear` wraps -/

def rounds : ℕ → List Call
  | 0 => [.insert 0]
  | k + 1 => .insert 0 :: .remove :: rounds k

/-- A thread alone, with `m` of its rounds done and `k` ahead. -/
structure Quiet (m k : ℕ) (s : State Unit) : Prop where
  pc : s.pc () = .outside
  todo : s.todo () = rounds k
  front : s.front = int32 m
  rear : s.rear = int32 m
  mutex : s.mutex = 1
  slots : s.slots = 3
  items : s.items = 0

/-- The thread inserts an item. -/
theorem Quiet.insert {m k : ℕ} {s : State Unit} (h : Quiet m (k + 1) s) :
    ∃ t, Reach (step 3) anyStep s t ∧ t.pc () = .outside ∧ t.todo () = .remove :: rounds k ∧
      t.front = int32 m ∧ t.rear = int32 (m + 1 : ℕ) ∧ t.mutex = 1 ∧ t.slots = 2 ∧
        t.items = 1 := by
  obtain ⟨hpc, htodo, hfront, hrear, hmutex, hslots, hitems⟩ := h
  have hrun : ((run (step 3) s (List.replicate 7 ())).map fun t =>
      (t.pc (), t.todo (), t.front, t.rear, t.mutex, t.slots, t.items)) =
      some (.outside, .remove :: rounds k, int32 m, int32 (m + 1 : ℕ), 1, 2, 1) := by
    simp [List.replicate, run, step, State.goto, hpc, htodo, rounds, hfront, hrear, hmutex, hslots,
      hitems, semWait, semPost, int32_succ]
  obtain ⟨t, ht, hstate⟩ := Option.map_eq_some_iff.mp hrun
  simp only [Prod.mk.injEq] at hstate
  exact ⟨t, reach_of_run_anyStep _ ht, hstate⟩

theorem Quiet.round {m k : ℕ} {s : State Unit} (h : Quiet m (k + 1) s) :
    ∃ s', Reach (step 3) anyStep s s' ∧ Quiet (m + 1) k s' := by
  obtain ⟨t, hinsert, hpc, htodo, hfront, hrear, hmutex, hslots, hitems⟩ := h.insert
  -- the thread removes the item
  have hrun : ((run (step 3) t (List.replicate 7 ())).map fun s' =>
      (s'.pc (), s'.todo (), s'.front, s'.rear, s'.mutex, s'.slots, s'.items)) =
      some (.outside, rounds k, int32 (m + 1 : ℕ), int32 (m + 1 : ℕ), 1, 3, 0) := by
    simp [List.replicate, run, step, State.goto, hpc, htodo, hfront, hrear, hmutex, hslots,
      hitems, semWait, semPost, int32_succ]
  obtain ⟨s', hs, hstate⟩ := Option.map_eq_some_iff.mp hrun
  simp only [Prod.mk.injEq] at hstate
  obtain ⟨hpc', htodo', hfront', hrear', hmutex', hslots', hitems'⟩ := hstate
  exact ⟨s', hinsert.trans (reach_of_run_anyStep _ hs), hpc', htodo', hfront', hrear', hmutex',
    hslots', hitems'⟩

theorem Quiet.rounds {m k : ℕ} {s : State Unit} (h : Quiet m k s) :
    ∃ s', Reach (step 3) anyStep s s' ∧ Quiet (m + k) 0 s' := by
  induction k generalizing m s with
  | zero => exact ⟨s, Reach.refl, h⟩
  | succ k ih =>
      obtain ⟨t, hreach, hquiet⟩ := h.round
      obtain ⟨s', hrest, hdone⟩ := ih hquiet
      exact ⟨s', hreach.trans hrest, by rwa [Nat.add_right_comm] at hdone⟩

theorem Quiet.last {m : ℕ} {s : State Unit} (h : Quiet m 0 s) :
    ∃ s', Reach (step 3) anyStep s s' ∧ s'.pc () = .insertStore 0 (int32 (m + 1 : ℕ)) := by
  have hrun : ((run (step 3) s (List.replicate 4 ())).map fun s' => s'.pc ()) =
      some (.insertStore 0 (int32 (m + 1 : ℕ))) := by
    simp [List.replicate, run, step, State.goto, h.pc, h.todo, Sbuf.rounds, h.rear, h.mutex,
      h.slots, semWait, int32_succ]
  obtain ⟨s', hs, hpc⟩ := Option.map_eq_some_iff.mp hrun
  exact ⟨s', reach_of_run_anyStep _ hs, hpc⟩

theorem reach_rounds (k : ℕ) :
    ∃ s, Reach (step 3) anyStep (sbuf_init 3 fun _ : Unit => rounds k) s ∧
      s.pc () = .insertStore 0 (int32 (k + 1 : ℕ)) := by
  have hinit : Quiet 0 k (sbuf_init 3 fun _ => rounds k) := ⟨rfl, rfl, rfl, rfl, rfl, rfl, rfl⟩
  obtain ⟨t, hrounds, hquiet⟩ := hinit.rounds
  rw [Nat.zero_add] at hquiet
  obtain ⟨s, hlast, hpc⟩ := hquiet.last
  exact ⟨s, hrounds.trans hlast, hpc⟩

/-- The item number `2 ^ 31` goes to the place `-2` of a buffer of 3. -/
theorem index_negative :
    ∃ s, Reach (step 3) anyStep (sbuf_init 3 fun _ : Unit => rounds (2 ^ 31 - 1)) s ∧
      s.pc () = .insertStore 0 (-2 ^ 31) ∧ (-2 ^ 31 : ℤ).tmod 3 = -2 := by
  obtain ⟨s, hreach, hpc⟩ := reach_rounds (2 ^ 31 - 1)
  have hindex : int32 (2 ^ 31 - 1 + 1 : ℕ) = -2 ^ 31 := int32_first_wrap
  exact ⟨s, hreach, hindex ▸ hpc, by decide⟩

end OsLabs.Concurrent.Sbuf
