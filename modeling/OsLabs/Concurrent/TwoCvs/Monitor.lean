import OsLabs.Concurrent.TwoCvs.Program

/-!
# The monitor with two conditions

What holds of the buffer, its mutex and its two conditions after any steps. A
signal may wake a thread that finds nothing left; as long as anybody sleeps on a
condition, whatever it waits for has another thread on its way to it.
-/

namespace OsLabs.Concurrent.TwoCvs

open OsLabs.Transition OsLabs.Threads OsLabs.Ring

variable {producers consumers : ℕ}

@[simp] def fillHolds : Option FillLoc → ℕ
  | some .test | some .fill | some .signal | some .unlock => 1
  | _ => 0

@[simp] def fillSleeping : Option FillLoc → ℕ
  | some .asleep => 1
  | _ => 0

/-- Awake in the loop around `Cond_wait`, or past it. -/
@[simp] def fillAwake : Option FillLoc → ℕ
  | some .woken | some .test | some .fill => 1
  | _ => 0

@[simp] def filling : Option FillLoc → ℕ
  | some .fill => 1
  | _ => 0

@[simp] def fillSignalling : Option FillLoc → ℕ
  | some .signal => 1
  | _ => 0

@[simp] def ConsumerLoc.holds : ConsumerLoc → ℕ
  | .test | .get | .signal _ | .unlock _ => 1
  | _ => 0

@[simp] def ConsumerLoc.sleeping : ConsumerLoc → ℕ
  | .asleep => 1
  | _ => 0

@[simp] def ConsumerLoc.awake : ConsumerLoc → ℕ
  | .woken | .test | .get => 1
  | _ => 0

@[simp] def ConsumerLoc.getting : ConsumerLoc → ℕ
  | .get => 1
  | _ => 0

@[simp] def ConsumerLoc.signalling : ConsumerLoc → ℕ
  | .signal _ => 1
  | _ => 0

/-- What the slot `x` holds. -/
def Shared.cells (m : Shared consumers) (x : ℕ) : Option ℤ :=
  if m.buffer x = EMPTY then none else some (m.buffer x)

/-- As long as a thread sleeps on a condition, every slot, or value, that it could
take has a thread that is awake, or about to signal. -/
structure Monitor (max : ℕ) (m : Shared consumers) (place : Option (Fin producers) → Option FillLoc)
    (pc : Fin consumers → ConsumerLoc) : Prop where
  exited : m.exited = false
  mutex : m.locked.toNat = total place fillHolds + total pc ConsumerLoc.holds
  count : m.num_full = m.filled.length - m.taken.length
  room : 0 < total place filling → m.num_full < max
  available : 0 < total pc ConsumerLoc.getting → 0 < m.num_full
  fillPtr : m.fill_ptr = m.filled.length % max
  usePtr : m.use_ptr = m.taken.length % max
  fifo : Holds max 0 m.cells m.filled (m.taken.map Prod.snd)
  wakeFillers : 0 < total place fillSleeping →
    max - m.num_full ≤ total place fillAwake + total pc ConsumerLoc.signalling
  wakeConsumers : 0 < total pc ConsumerLoc.sleeping →
    m.num_full ≤ total pc ConsumerLoc.awake + total place fillSignalling

variable {max : ℕ} {m m' : Shared consumers} {place : Option (Fin producers) → Option FillLoc}
  {pc : Fin consumers → ConsumerLoc} {f : Option (Fin producers)} {i j : Fin consumers}
  {a b : Option FillLoc} {c d : ConsumerLoc}

/-- What moves when a thread that fills goes from `a` to `b`. -/
theorem fill_totals (hplace : place f = a) (b : Option FillLoc) :
    (total (Function.update place f b) fillHolds + fillHolds a =
        total place fillHolds + fillHolds b ∧
      total (Function.update place f b) fillSleeping + fillSleeping a =
        total place fillSleeping + fillSleeping b) ∧
    total (Function.update place f b) fillAwake + fillAwake a =
      total place fillAwake + fillAwake b ∧
    total (Function.update place f b) filling + filling a = total place filling + filling b ∧
    total (Function.update place f b) fillSignalling + fillSignalling a =
      total place fillSignalling + fillSignalling b := by
  have hmoved := fun w : Option FillLoc → ℕ => hplace ▸ total_update place w f b
  exact ⟨⟨hmoved _, hmoved _⟩, hmoved _, hmoved _, hmoved _⟩

theorem get_totals (hpc : pc i = c) (d : ConsumerLoc) :
    (total (Function.update pc i d) ConsumerLoc.holds + c.holds =
        total pc ConsumerLoc.holds + d.holds ∧
      total (Function.update pc i d) ConsumerLoc.sleeping + c.sleeping =
        total pc ConsumerLoc.sleeping + d.sleeping) ∧
    total (Function.update pc i d) ConsumerLoc.awake + c.awake =
      total pc ConsumerLoc.awake + d.awake ∧
    total (Function.update pc i d) ConsumerLoc.getting + c.getting =
      total pc ConsumerLoc.getting + d.getting ∧
    total (Function.update pc i d) ConsumerLoc.signalling + c.signalling =
      total pc ConsumerLoc.signalling + d.signalling := by
  have hmoved := fun w : ConsumerLoc → ℕ => hpc ▸ total_update pc w i d
  exact ⟨⟨hmoved _, hmoved _⟩, hmoved _, hmoved _, hmoved _⟩

theorem filling_le (x : Option FillLoc) : filling x ≤ fillHolds x := by
  obtain _ | x := x
  · rfl
  · cases x <;> decide

theorem getting_le (x : ConsumerLoc) : x.getting ≤ x.holds := by cases x <;> simp

/-- The thread that holds the mutex is the only one to use the buffer. -/
theorem Monitor.fill_alone (h : Monitor max m place pc) (hplace : place f = a)
    (ha : 0 < fillHolds a) : m.locked = true ∧ total place fillHolds = 1 ∧
      total pc ConsumerLoc.holds = 0 ∧ total place filling = filling a ∧
        total pc ConsumerLoc.getting = 0 := by
  have hpos := le_total place fillHolds f
  have hmutex := h.mutex
  have hbool := Bool.toNat_le m.locked
  have hgetting : total pc ConsumerLoc.getting ≤ total pc ConsumerLoc.holds :=
    total_le_total getting_le
  rw [← hplace] at ha ⊢
  refine ⟨?_, by omega, by omega, total_eq_of_alone filling_le (by omega) ha, by omega⟩
  exact Bool.toNat_eq_one.mp (by omega)

theorem Monitor.get_alone (h : Monitor max m place pc) (hpc : pc i = c) (hc : 0 < c.holds) :
    m.locked = true ∧ total pc ConsumerLoc.holds = 1 ∧ total place fillHolds = 0 ∧
      total pc ConsumerLoc.getting = c.getting ∧ total place filling = 0 := by
  have hpos := le_total pc ConsumerLoc.holds i
  have hmutex := h.mutex
  have hbool := Bool.toNat_le m.locked
  have hfilling : total place filling ≤ total place fillHolds := total_le_total filling_le
  rw [← hpc] at hc ⊢
  refine ⟨?_, by omega, by omega, total_eq_of_alone getting_le (by omega) hc, by omega⟩
  exact Bool.toNat_eq_one.mp (by omega)

/-- Outside of the body nothing counts. -/
theorem Monitor.away (h : Monitor max m place pc) (hplace : place f = a)
    (ha : a = none ∨ a = some .lock) (hb : b = none ∨ b = some .lock) :
    Monitor max m (Function.update place f b) pc := by
  have hmoved := fill_totals hplace b
  obtain ⟨hexited, hmutex, hcount, hroom, havailable, hfillPtr, husePtr, hfifo, hfillers,
    hconsumers⟩ := h
  obtain rfl | rfl := ha <;> obtain rfl | rfl := hb <;> dsimp at hmoved <;>
    exact ⟨hexited, by omega, hcount, by omega, havailable, hfillPtr, husePtr, hfifo, by omega,
      by omega⟩

theorem Monitor.getAway (h : Monitor max m place pc) (hpc : pc i = c)
    (hc : c.holds + c.sleeping + c.awake = 0) (hd : d.holds + d.sleeping + d.awake = 0) :
    Monitor max m place (Function.update pc i d) := by
  have hmoved := get_totals hpc d
  have hsignalling (x : ConsumerLoc) : x.getting + x.signalling ≤ x.holds := by cases x <;> simp
  have hc' := hsignalling c
  have hd' := hsignalling d
  obtain ⟨hexited, hmutex, hcount, hroom, havailable, hfillPtr, husePtr, hfifo, hfillers,
    hconsumers⟩ := h
  exact ⟨hexited, by omega, hcount, hroom, by omega, hfillPtr, husePtr, hfifo, by omega,
    by omega⟩

/-- There is room for one more value, at the next place of the ring. -/
theorem Monitor.next_empty (h : Monitor max m place pc) (hroom : m.num_full < max) :
    m.fill_ptr = (0 + m.filled.length) % max ∧ m.buffer m.fill_ptr = EMPTY ∧
      m.filled.length < (m.taken.map Prod.snd).length + max := by
  have hcount := h.count
  have hlt : m.filled.length < (m.taken.map Prod.snd).length + max := by
    rw [List.length_map]
    omega
  have hplace : m.fill_ptr = (0 + m.filled.length) % max := by
    rw [Nat.zero_add, h.fillPtr]
  refine ⟨hplace, ?_, hlt⟩
  have hnone := h.fifo.next_empty hlt
  rw [← hplace] at hnone
  by_contra hfull
  rw [Shared.cells, if_neg hfull] at hnone
  cases hnone

theorem Monitor.next_full (h : Monitor max m place pc) (havailable : 0 < m.num_full) :
    m.use_ptr = (0 + (m.taken.map Prod.snd).length) % max ∧ m.buffer m.use_ptr ≠ EMPTY ∧
      m.cells m.use_ptr = some (m.buffer m.use_ptr) ∧
      (m.taken.map Prod.snd).length < m.filled.length := by
  have hcount := h.count
  have hlt : (m.taken.map Prod.snd).length < m.filled.length := by
    rw [List.length_map]
    omega
  have hplace : m.use_ptr = (0 + (m.taken.map Prod.snd).length) % max := by
    rw [Nat.zero_add, List.length_map, h.usePtr]
  obtain ⟨v, hv, -⟩ := h.fifo.next_full hlt
  rw [← hplace, Shared.cells] at hv
  have hne : m.buffer m.use_ptr ≠ EMPTY := fun hempty => by simp [hempty] at hv
  exact ⟨hplace, hne, by rw [Shared.cells, if_neg hne], hlt⟩

theorem Monitor.do_fill (h : Monitor max m place pc) (hplace : place f = some .fill) {value : ℤ}
    (hvalue : value ≠ EMPTY) :
    Monitor max (do_fill max m value) (Function.update place f (some .signal)) pc ∧
      (do_fill max m value).filled = m.filled ++ [value] ∧
      (do_fill max m value).taken = m.taken := by
  have halone := h.fill_alone hplace (by decide)
  have hmoved := fill_totals hplace (some .signal)
  dsimp at halone hmoved
  obtain ⟨hptr, hempty, hlt⟩ := h.next_empty (h.room (by omega))
  obtain ⟨hexited, hmutex, hcount, hroom, havailable, hfillPtr, husePtr, hfifo, hfillers,
    hconsumers⟩ := h
  have hlength : (m.filled ++ [value]).length = m.filled.length + 1 := List.length_append
  rw [TwoCvs.do_fill, if_pos hempty]
  refine ⟨⟨hexited, ?_, ?_, ?_, ?_, ?_, husePtr, ?_, ?_, ?_⟩, rfl, rfl⟩
  case refine_5 =>
    rw [hlength, hfillPtr]
    exact Nat.mod_add_mod ..
  case refine_6 =>
    refine hfifo.fill hlt ?_ fun x _ hx => ?_
    · simp only [Shared.cells, ← hptr, Function.update_self, if_neg hvalue]
    · rw [← hptr] at hx
      simp only [Shared.cells, Function.update_of_ne hx]
  all_goals dsimp only; omega

theorem Monitor.do_get (h : Monitor max m place pc) (hpc : pc i = .get) :
    Monitor max (do_get max m i).1 place
        (Function.update pc i (.signal (do_get max m i).2)) ∧
      (do_get max m i).1.filled = m.filled ∧
      (do_get max m i).1.taken = m.taken ++ [(i, (do_get max m i).2)] := by
  have halone := h.get_alone hpc (by simp)
  dsimp at halone
  obtain ⟨hptr, hne, hcell, hlt⟩ := h.next_full (h.available (by omega))
  obtain ⟨hexited, hmutex, hcount, hroom, havailable, hfillPtr, husePtr, hfifo, hfillers,
    hconsumers⟩ := h
  rw [TwoCvs.do_get, if_pos hne]
  generalize m.buffer m.use_ptr = v at hcell ⊢
  have hmoved := get_totals hpc (.signal v)
  dsimp at hmoved
  have hlength : (m.taken ++ [(i, v)]).length = m.taken.length + 1 := List.length_append
  refine ⟨⟨hexited, ?_, ?_, ?_, ?_, hfillPtr, ?_, ?_, ?_, ?_⟩, rfl, rfl⟩
  case refine_5 =>
    rw [hlength, husePtr]
    exact Nat.mod_add_mod ..
  case refine_6 =>
    rw [List.map_append]
    refine hfifo.drain hlt (hptr ▸ hcell) ?_ fun x _ hx => ?_
    · simp only [Shared.cells, ← hptr, Function.update_self, if_true]
    · rw [← hptr] at hx
      simp only [Shared.cells, Function.update_of_ne hx]
  all_goals dsimp only; omega

theorem Monitor.lockToFill (h : Monitor max m place pc)
    (hplace : place f = some .lock ∨ place f = some .woken) (hlock : m.lock = some m') :
    Monitor max m' (Function.update place f (some .test)) pc := by
  obtain ⟨rfl, hfree⟩ := eq_of_lock hlock
  obtain ⟨hexited, hmutex, hcount, hroom, havailable, hfillPtr, husePtr, hfifo, hfillers,
    hconsumers⟩ := h
  rw [hfree, Bool.toNat_false] at hmutex
  obtain hplace | hplace := hplace <;>
    (have hmoved := fill_totals hplace (some .test); dsimp at hmoved) <;>
    exact ⟨hexited, by rw [Bool.toNat_true]; omega, hcount, by dsimp only; omega, havailable,
      hfillPtr, husePtr, hfifo, by dsimp only; omega, by dsimp only; omega⟩

theorem Monitor.getLock (h : Monitor max m place pc) (hpc : pc i = .lock ∨ pc i = .woken)
    (hlock : m.lock = some m') : Monitor max m' place (Function.update pc i .test) := by
  obtain ⟨rfl, hfree⟩ := eq_of_lock hlock
  obtain ⟨hexited, hmutex, hcount, hroom, havailable, hfillPtr, husePtr, hfifo, hfillers,
    hconsumers⟩ := h
  rw [hfree, Bool.toNat_false] at hmutex
  obtain hpc | hpc := hpc <;>
    (have hmoved := get_totals hpc .test; dsimp at hmoved) <;>
    exact ⟨hexited, by rw [Bool.toNat_true]; omega, hcount, hroom, by dsimp only; omega,
      hfillPtr, husePtr, hfifo, by dsimp only; omega, by dsimp only; omega⟩

/-- One step of the body of the loops that fill. -/
theorem Monitor.stepBody (h : Monitor max m place pc) {loc : FillLoc} (hplace : place f = some loc)
    {value : ℤ} (hvalue : value ≠ EMPTY) {sleepers : Bool}
    (hsleepers : sleepers = false → total pc ConsumerLoc.sleeping = 0)
    (hstep : stepBody max m value sleepers loc = some (m', b)) :
    Monitor max m' (Function.update place f b) pc ∧ m'.taken = m.taken ∧
      m'.filled = m.filled ++ if loc = .fill then [value] else [] := by
  have hsame : m.filled = m.filled ++ [] := (List.append_nil _).symm
  cases loc with
  | lock =>
      obtain ⟨m₁, hlock, heq⟩ := Option.map_eq_some_iff.mp hstep
      obtain ⟨rfl, rfl⟩ := Prod.mk.inj heq
      refine ⟨h.lockToFill (Or.inl hplace) hlock, ?_⟩
      obtain ⟨rfl, -⟩ := eq_of_lock hlock
      exact ⟨rfl, hsame⟩
  | woken =>
      obtain ⟨m₁, hlock, heq⟩ := Option.map_eq_some_iff.mp hstep
      obtain ⟨rfl, rfl⟩ := Prod.mk.inj heq
      refine ⟨h.lockToFill (Or.inr hplace) hlock, ?_⟩
      obtain ⟨rfl, -⟩ := eq_of_lock hlock
      exact ⟨rfl, hsame⟩
  | test =>
      have heq := Option.some.inj hstep
      have halone := h.fill_alone hplace (by decide)
      obtain ⟨hexited, hmutex, hcount, hroom, havailable, hfillPtr, husePtr, hfifo, hfillers,
        hconsumers⟩ := h
      split at heq
      · obtain ⟨rfl, rfl⟩ := Prod.mk.inj heq
        have hmoved := fill_totals hplace (some .asleep)
        dsimp at halone hmoved
        refine ⟨⟨hexited, ?_, hcount, ?_, havailable, hfillPtr, husePtr, hfifo, ?_, ?_⟩, rfl,
          hsame⟩ <;> simp only [Shared.unlock, Bool.toNat_false] <;> omega
      · obtain ⟨rfl, rfl⟩ := Prod.mk.inj heq
        have hmoved := fill_totals hplace (some .fill)
        have hlength := hfifo.room
        rw [List.length_map] at hlength
        dsimp at halone hmoved
        exact ⟨⟨hexited, by omega, hcount, by omega, havailable, hfillPtr, husePtr, hfifo,
          by omega, by omega⟩, rfl, hsame⟩
  | asleep => cases hstep
  | fill =>
      obtain ⟨rfl, rfl⟩ := Prod.mk.inj (Option.some.inj hstep)
      obtain ⟨hmonitor, hfilled, htaken⟩ := h.do_fill hplace hvalue
      exact ⟨hmonitor, htaken, hfilled⟩
  | signal =>
      cases sleepers with
      | true => cases hstep
      | false =>
          obtain ⟨rfl, rfl⟩ := Prod.mk.inj (Option.some.inj hstep)
          have hnobody := hsleepers rfl
          have halone := h.fill_alone hplace (by decide)
          have hmoved := fill_totals hplace (some .unlock)
          obtain ⟨hexited, hmutex, hcount, hroom, havailable, hfillPtr, husePtr, hfifo, hfillers,
            hconsumers⟩ := h
          dsimp at halone hmoved
          exact ⟨⟨hexited, by omega, hcount, by omega, havailable, hfillPtr, husePtr, hfifo,
            by omega, by omega⟩, rfl, hsame⟩
  | unlock =>
      obtain ⟨rfl, rfl⟩ := Prod.mk.inj (Option.some.inj hstep)
      have halone := h.fill_alone hplace (by decide)
      have hmoved := fill_totals hplace none
      obtain ⟨hexited, hmutex, hcount, hroom, havailable, hfillPtr, husePtr, hfifo, hfillers,
        hconsumers⟩ := h
      dsimp at halone hmoved
      refine ⟨⟨hexited, ?_, hcount, ?_, havailable, hfillPtr, husePtr, hfifo, ?_, ?_⟩, rfl,
        hsame⟩ <;> simp only [Shared.unlock, Bool.toNat_false] <;> omega

/-- A thread that sleeps wakes, with or without a signal. -/
theorem Monitor.wakeFiller (h : Monitor max m place pc) (hplace : place f = some .asleep) :
    Monitor max m (Function.update place f (some .woken)) pc := by
  have hmoved := fill_totals hplace (some .woken)
  obtain ⟨hexited, hmutex, hcount, hroom, havailable, hfillPtr, husePtr, hfifo, hfillers,
    hconsumers⟩ := h
  dsimp at hmoved
  exact ⟨hexited, by omega, hcount, by omega, havailable, hfillPtr, husePtr, hfifo, by omega,
    by omega⟩

theorem Monitor.wakeConsumer (h : Monitor max m place pc) (hpc : pc i = .asleep) :
    Monitor max m place (Function.update pc i .woken) := by
  have hmoved := get_totals hpc .woken
  obtain ⟨hexited, hmutex, hcount, hroom, havailable, hfillPtr, husePtr, hfifo, hfillers,
    hconsumers⟩ := h
  dsimp at hmoved
  exact ⟨hexited, by omega, hcount, hroom, by omega, hfillPtr, husePtr, hfifo, by omega,
    by omega⟩

/-- The signal moves a sleeper to the threads that are awake. -/
theorem Monitor.signalConsumer (h : Monitor max m place pc) (hplace : place f = some .signal)
    (hpc : pc i = .asleep) :
    Monitor max m (Function.update place f (some .unlock)) (Function.update pc i .woken) := by
  have hmoved := fill_totals hplace (some .unlock)
  have hwoken := get_totals hpc .woken
  obtain ⟨hexited, hmutex, hcount, hroom, havailable, hfillPtr, husePtr, hfifo, hfillers,
    hconsumers⟩ := h
  dsimp at hmoved hwoken
  exact ⟨hexited, by omega, hcount, by omega, by omega, hfillPtr, husePtr, hfifo, by omega,
    by omega⟩

theorem Monitor.signalFiller (h : Monitor max m place pc) {tmp : ℤ} (hpc : pc i = .signal tmp)
    (hplace : place f = some .asleep) :
    Monitor max m (Function.update place f (some .woken)) (Function.update pc i (.unlock tmp)) := by
  have hmoved := get_totals hpc (.unlock tmp)
  have hwoken := fill_totals hplace (some .woken)
  obtain ⟨hexited, hmutex, hcount, hroom, havailable, hfillPtr, husePtr, hfifo, hfillers,
    hconsumers⟩ := h
  dsimp at hmoved hwoken
  exact ⟨hexited, by omega, hcount, by omega, by omega, hfillPtr, husePtr, hfifo, by omega,
    by omega⟩

end OsLabs.Concurrent.TwoCvs
