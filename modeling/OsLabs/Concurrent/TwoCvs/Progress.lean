import OsLabs.Concurrent.TwoCvs.Stream

/-!
# Progress of the bounded buffer with two condition variables

When no thread can step or signal, all of them have finished.
-/

namespace OsLabs.Concurrent.TwoCvs

open OsLabs.Transition OsLabs.Threads OsLabs.Ring

variable {producers consumers : ℕ} {max loops : ℕ} {m m' : Shared consumers}
  {s s' : State producers consumers} {i : Fin consumers}
  {v : ℤ}

/-- The thread steps or signals a sleeper. -/
def CanStep (max loops : ℕ) (s : State producers consumers) (t : Thread producers consumers) :
    Prop :=
  (∃ s', step max loops s (.run t) = some s') ∨ ∃ u s', step max loops s (.signal t u) = some s'

/-- A body waits for the mutex or for a signal, unless it can signal itself. -/
theorem stepBody_none {loc : FillLoc} {sleepers : Bool}
    (h : stepBody max m v sleepers loc = none) :
    (loc = .lock ∨ loc = .woken) ∧ m.locked = true ∨ loc = .asleep ∨
      loc = .signal ∧ sleepers = true := by
  have hlocked (h : (m.lock.map fun m => (m, some FillLoc.test)) = none) : m.locked = true := by
    by_contra hfree
    simp [Shared.lock, hfree] at h
  cases loc with
  | lock => exact Or.inl ⟨Or.inl rfl, hlocked h⟩
  | woken => exact Or.inl ⟨Or.inr rfl, hlocked h⟩
  | asleep => exact Or.inr (Or.inl rfl)
  | signal =>
      cases sleepers with
      | true => exact Or.inr (Or.inr ⟨rfl, rfl⟩)
      | false => cases h
  | test | fill | unlock => cases h

theorem main_blocked (hexited : s.shared.exited = false) (h : ¬ CanStep max loops s .main) :
    s.main = .done ∨
      (∃ k, ∃ hk : k < producers, s.main = .joinProducer k ∧ s.producer ⟨k, hk⟩ ≠ .finished) ∨
      (∃ k, ∃ hk : k < consumers, s.main = .joinConsumer k ∧ s.consumer ⟨k, hk⟩ ≠ .finished) ∨
      ∃ k loc, s.main = .body k loc ∧
        ((loc = .lock ∨ loc = .woken) ∧ s.shared.locked = true ∨ loc = .asleep) := by
  have hnone : stepMain max s = none := by
    refine Option.eq_none_iff_forall_ne_some.mpr fun s' hs => h (Or.inl ⟨s', ?_⟩)
    simp only [step, hexited, Bool.false_eq_true, if_false, hs]
  unfold stepMain at hnone
  cases hmain : s.main with
  | done => exact Or.inl rfl
  | joinProducer k =>
      simp only [hmain] at hnone
      split at hnone
      · next hk =>
          split at hnone
          · cases hnone
          · next hp => exact Or.inr (Or.inl ⟨k, hk, rfl, hp⟩)
      · cases hnone
  | joinConsumer k =>
      simp only [hmain] at hnone
      split at hnone
      · next hk =>
          split at hnone
          · cases hnone
          · next hc => exact Or.inr (Or.inr (Or.inl ⟨k, hk, rfl, hc⟩))
      · cases hnone
  | body k loc =>
      simp only [hmain, Option.map_eq_none_iff] at hnone
      obtain hlock | hasleep | ⟨rfl, hsleeps⟩ := stepBody_none hnone
      · exact Or.inr (Or.inr (Or.inr ⟨k, loc, rfl, Or.inl hlock⟩))
      · exact Or.inr (Or.inr (Or.inr ⟨k, loc, rfl, Or.inr hasleep⟩))
      · obtain ⟨i, hi⟩ := of_decide_eq_true hsleeps
        refine absurd (Or.inr ⟨.consumer i, { s.goto s.shared i .woken with
          main := .body k .unlock }, ?_⟩) h
        simp only [step, hexited, Bool.false_eq_true, if_false, State.wake, hi, Option.bind_some,
          State.signalled, State.goto, hmain]
  | createProducer k | createConsumer k | next k =>
      simp only [hmain] at hnone
      cases hnone

theorem producer_blocked {p : Fin producers} (hexited : s.shared.exited = false)
    (h : ¬ CanStep max loops s (.producer p)) :
    s.producer p = .unborn ∨ s.producer p = .finished ∨ ∃ k loc, s.producer p = .body k loc ∧
      ((loc = .lock ∨ loc = .woken) ∧ s.shared.locked = true ∨ loc = .asleep) := by
  have hnone : stepProducer max loops s p = none := by
    refine Option.eq_none_iff_forall_ne_some.mpr fun s' hs => h (Or.inl ⟨s', ?_⟩)
    simp only [step, hexited, Bool.false_eq_true, if_false, hs]
  unfold stepProducer at hnone
  cases hpc : s.producer p with
  | unborn => exact Or.inl rfl
  | finished => exact Or.inr (Or.inl rfl)
  | next k =>
      simp only [hpc] at hnone
      cases hnone
  | body k loc =>
      simp only [hpc, Option.map_eq_none_iff] at hnone
      obtain hlock | hasleep | ⟨rfl, hsleeps⟩ := stepBody_none hnone
      · exact Or.inr (Or.inr ⟨k, loc, rfl, Or.inl hlock⟩)
      · exact Or.inr (Or.inr ⟨k, loc, rfl, Or.inr hasleep⟩)
      · obtain ⟨i, hi⟩ := of_decide_eq_true hsleeps
        refine absurd (Or.inr ⟨.consumer i, { s.goto s.shared i .woken with
          producer := Function.update s.producer p (.body k .unlock) }, ?_⟩) h
        simp only [step, hexited, Bool.false_eq_true, if_false, State.wake, hi, Option.bind_some,
          State.signalled, State.goto, hpc]

/-- A consumer that signals finds the sleeper that it can wake. -/
theorem exists_wake (h : s.fillerSleeps = true) :
    ∃ u s₁, s.wake u = some s₁ ∧ s₁.consumer = s.consumer ∧
      ∀ i, u ≠ Thread.consumer i := by
  obtain ⟨f, hf⟩ := of_decide_eq_true h
  cases f with
  | none =>
      cases hmain : s.main with
      | body k loc =>
          simp only [State.place, hmain, MainLoc.place, Option.some.injEq] at hf
          subst hf
          refine ⟨.main, { s with main := .body k .woken }, ?_, rfl, by simp⟩
          simp only [State.wake, hmain]
      | _ => simp [State.place, hmain, MainLoc.place] at hf
  | some p =>
      cases hpc : s.producer p with
      | body k loc =>
          simp only [State.place, hpc, ProducerLoc.place, Option.some.injEq] at hf
          subst hf
          refine ⟨.producer p,
            { s with producer := Function.update s.producer p (.body k .woken) }, ?_, rfl,
            by simp⟩
          simp only [State.wake, hpc]
      | _ => simp [State.place, hpc, ProducerLoc.place] at hf

theorem consumer_blocked (hexited : s.shared.exited = false)
    (h : ¬ CanStep max loops s (.consumer i)) :
    s.consumer i = .unborn ∨ s.consumer i = .finished ∨ s.consumer i = .asleep ∨
      (s.consumer i = .lock ∨ s.consumer i = .woken) ∧ s.shared.locked = true := by
  have hnone : stepConsumer max s i = none := by
    refine Option.eq_none_iff_forall_ne_some.mpr fun s' hs => h (Or.inl ⟨s', ?_⟩)
    simp only [step, hexited, Bool.false_eq_true, if_false, hs]
  have hlocked (h : (s.shared.lock.map fun shared => s.goto shared i .test) = none) :
      s.shared.locked = true := by
    by_contra hfree
    simp [Shared.lock, hfree] at h
  unfold stepConsumer at hnone
  cases hpc : s.consumer i with
  | unborn => exact Or.inl rfl
  | finished => exact Or.inr (Or.inl rfl)
  | asleep => exact Or.inr (Or.inr (Or.inl rfl))
  | lock =>
      simp only [hpc] at hnone
      exact Or.inr (Or.inr (Or.inr ⟨Or.inl rfl, hlocked hnone⟩))
  | woken =>
      simp only [hpc] at hnone
      exact Or.inr (Or.inr (Or.inr ⟨Or.inr rfl, hlocked hnone⟩))
  | signal tmp =>
      simp only [hpc] at hnone
      split at hnone
      · next hsleeps =>
          obtain ⟨u, s₁, hwake, hsame, hu⟩ := exists_wake hsleeps
          refine absurd (Or.inr ⟨u, s₁.goto s₁.shared i (.unlock tmp), ?_⟩) h
          have hpc₁ : s₁.consumer i = .signal tmp := by rw [hsame, hpc]
          simp only [step, hexited, Bool.false_eq_true, if_false, hwake, Option.bind_some]
          cases u with
          | consumer j => exact absurd rfl (hu j)
          | main => simp only [State.signalled, hpc₁]
          | producer p => simp only [State.signalled, hpc₁]
      · cases hnone
  | next tmp | test | get | unlock tmp =>
      simp only [hpc] at hnone
      cases hnone

theorem ended_le (x : ConsumerLoc) : x.ended ≤ 1 := by
  cases x <;> simp only [ConsumerLoc.ended] <;> first | omega | (split <;> omega)

/-- Where all threads are when nobody can step: whoever waits is asleep. -/
structure Blocked (s : State producers consumers) : Prop where
  main : s.main = .done ∨
    (∃ k, ∃ hk : k < producers, s.main = .joinProducer k ∧ s.producer ⟨k, hk⟩ ≠ .finished) ∨
    (∃ k, ∃ hk : k < consumers, s.main = .joinConsumer k ∧ s.consumer ⟨k, hk⟩ ≠ .finished) ∨
    ∃ k, s.main = .body k .asleep
  producer : ∀ p, s.producer p = .unborn ∨ s.producer p = .finished ∨
    ∃ k, s.producer p = .body k .asleep
  consumer : ∀ i, s.consumer i = .unborn ∨ s.consumer i = .finished ∨ s.consumer i = .asleep

/-- The mutex is free, as its holder could step. -/
theorem Inv.blocked (h : Inv max s) (hnone : ∀ t, ¬ s.finished t → ¬ CanStep max loops s t) :
    Blocked s := by
  have hexited := h.monitor.exited
  have hmain : s.main = .done ∨ _ :=
    (em _).elim Or.inl fun hfin => main_blocked hexited (hnone .main hfin)
  have hproducer (p : Fin producers) : s.producer p = .unborn ∨ s.producer p = .finished ∨ _ :=
    (em _).elim (fun hfin => Or.inr (Or.inl hfin)) fun hfin =>
      producer_blocked hexited (hnone (.producer p) hfin)
  have hconsumer (i : Fin consumers) : s.consumer i = .unborn ∨ s.consumer i = .finished ∨ _ :=
    (em _).elim (fun hfin => Or.inr (Or.inl hfin)) fun hfin =>
      consumer_blocked hexited (hnone (.consumer i) hfin)
  have hfree : s.shared.locked ≠ true := by
    intro hlocked
    have hmutex := h.monitor.mutex
    have hfillers : total s.place fillHolds = 0 := total_eq_zero_iff.mpr fun f => by
      cases f with
      | none =>
          obtain hm | ⟨k, hk, hm, -⟩ | ⟨k, hk, hm, -⟩ |
              ⟨k, loc, hm, ⟨hloc | hloc, -⟩ | hloc⟩ := hmain <;>
            simp [State.place, hm, MainLoc.place] <;> simp [hloc]
      | some p =>
          obtain hp | hp | ⟨k, loc, hp, ⟨hloc | hloc, -⟩ | hloc⟩ := hproducer p <;>
            simp [State.place, hp, ProducerLoc.place] <;> simp [hloc]
    have hconsumers : total s.consumer ConsumerLoc.holds = 0 := total_eq_zero_iff.mpr fun i => by
      obtain hc | hc | hc | ⟨hc | hc, -⟩ := hconsumer i <;> simp [hc]
    rw [hlocked, hfillers, hconsumers] at hmutex
    cases hmutex
  refine ⟨?_, fun p => ?_, fun i => ?_⟩
  · obtain hm | hm | hm | ⟨k, loc, hm, ⟨-, hlocked⟩ | rfl⟩ := hmain
    · exact Or.inl hm
    · exact Or.inr (Or.inl hm)
    · exact Or.inr (Or.inr (Or.inl hm))
    · exact absurd hlocked hfree
    · exact Or.inr (Or.inr (Or.inr ⟨k, hm⟩))
  · obtain hp | hp | ⟨k, loc, hp, ⟨-, hlocked⟩ | rfl⟩ := hproducer p
    · exact Or.inl hp
    · exact Or.inr (Or.inl hp)
    · exact absurd hlocked hfree
    · exact Or.inr (Or.inr ⟨k, hp⟩)
  · obtain hc | hc | hc | ⟨-, hlocked⟩ := hconsumer i
    · exact Or.inl hc
    · exact Or.inr (Or.inl hc)
    · exact Or.inr (Or.inr hc)
    · exact absurd hlocked hfree

/-- Nobody is about to signal or to take, so who sleeps has nothing to wake for. -/
theorem Inv.asleep (h : Inv max s) (hblocked : Blocked s) :
    ((∃ i, s.consumer i = .asleep) → s.shared.num_full ≤ 0) ∧
      ((∃ f, s.place f = some .asleep) → max ≤ s.shared.num_full) := by
  have hfillers : total s.place fillAwake = 0 ∧ total s.place fillSignalling = 0 := by
    have hzero (f : Option (Fin producers)) : s.place f = none ∨ s.place f = some .asleep := by
      cases f with
      | none =>
          obtain hm | ⟨k, hk, hm, -⟩ | ⟨k, hk, hm, -⟩ | ⟨k, hm⟩ := hblocked.main <;>
            simp [State.place, hm, MainLoc.place]
      | some p =>
          obtain hp | hp | ⟨k, hp⟩ := hblocked.producer p <;>
            simp [State.place, hp, ProducerLoc.place]
    refine ⟨total_eq_zero_iff.mpr fun f => ?_, total_eq_zero_iff.mpr fun f => ?_⟩ <;>
      obtain hf | hf := hzero f <;> rw [hf] <;> rfl
  have hconsumers : total s.consumer ConsumerLoc.awake = 0 ∧
      total s.consumer ConsumerLoc.signalling = 0 := by
    refine ⟨total_eq_zero_iff.mpr fun i => ?_, total_eq_zero_iff.mpr fun i => ?_⟩ <;>
      obtain hc | hc | hc := hblocked.consumer i <;> rw [hc] <;> rfl
  constructor
  · rintro ⟨i, hi⟩
    have hsleeps := le_total s.consumer ConsumerLoc.sleeping i
    rw [hi] at hsleeps
    have := h.monitor.wakeConsumers hsleeps
    omega
  · rintro ⟨f, hf⟩
    have hsleeps := le_total s.place fillSleeping f
    rw [hf] at hsleeps
    have := h.monitor.wakeFillers hsleeps
    omega

/-- A consumer that sleeps gets its `END_OF_STREAM`. -/
theorem Inv.consumers_finished (h : Inv max s) (hblocked : Blocked s) (hmax : 0 < max)
    (hborn : ∀ i, s.consumer i ≠ .unborn) (hproducers : ∀ p, s.producer p ≠ .unborn)
    (i : Fin consumers) : s.consumer i = .finished := by
  obtain hc | hc | hc := hblocked.consumer i
  · exact absurd hc (hborn i)
  · exact hc
  exfalso
  obtain ⟨hempty, hfull⟩ := h.asleep hblocked
  have hzero := hempty ⟨i, hc⟩
  have hnobody (f : Option (Fin producers)) : s.place f ≠ some .asleep := fun hf => by
    have := hfull ⟨f, hf⟩
    omega
  have hfinished (p : Fin producers) : s.producer p = .finished := by
    obtain hp | hp | ⟨k, hp⟩ := hblocked.producer p
    · exact absurd hp (hproducers p)
    · exact hp
    · exact absurd (by simp [State.place, hp, ProducerLoc.place]) (hnobody (some p))
  have hended : s.main.ended consumers = consumers := by
    obtain hm | ⟨k, hk, -, hp⟩ | ⟨k, hk, hm, -⟩ | ⟨k, hm⟩ := hblocked.main
    · rw [hm]
      rfl
    · exact absurd (hfinished _) hp
    · rw [hm]
      rfl
    · exact absurd (by simp [State.place, hm, MainLoc.place]) (hnobody none)
  -- everything has been taken, so each consumer has its end
  have hall : s.shared.taken.map Prod.snd = s.shared.filled := by
    apply h.monitor.fifo.order.eq_of_length_le
    have := h.monitor.count
    rw [List.length_map]
    omega
  have hcount := h.ended
  have hfilled := h.filled
  rw [hended] at hfilled
  rw [hall, hfilled.count] at hcount
  have hone := (total_eq_card_iff ended_le).mp (hcount.trans (Fintype.card_fin _).symm) i
  rw [hc] at hone
  cases hone

/-- The consumers have left with as many ends as there are. -/
theorem Inv.ended_of_finished (h : Inv max s) (hfinished : ∀ i, s.consumer i = .finished) :
    consumers ≤ s.main.ended consumers := by
  have hall : total s.consumer ConsumerLoc.ended = Fintype.card (Fin consumers) :=
    (total_eq_card_iff ended_le).mpr fun i => by rw [hfinished i]; rfl
  have hcount := h.monitor.fifo.order.sublist.count_le END_OF_STREAM
  rwa [← h.ended, hall, Fintype.card_fin, h.filled.count] at hcount

theorem Inv.finished_of_blocked (h : Inv max s) (hblocked : Blocked s) (hmax : 0 < max)
    (hconsumers : 0 < consumers) (t : Thread producers consumers) : s.finished t := by
  have hstarted := h.started
  have hmain : s.main = .done := by
    obtain hm | ⟨k, hk, hm, hp⟩ | ⟨k, hk, hm, hc⟩ | ⟨k, hm⟩ := hblocked.main
    · exact hm
    · rw [hm] at hstarted
      have hended := h.ended_of_finished
        (h.consumers_finished hblocked hmax hstarted.2 fun p => (hstarted.1 p).1)
      rw [hm] at hended
      exact absurd hended (Nat.not_le_of_lt hconsumers)
    · rw [hm] at hstarted
      have hall := h.consumers_finished hblocked hmax (fun i => (hstarted.2 i).1) fun p => by
        simp [hstarted.1 p]
      exact absurd (hall ⟨k, hk⟩) hc
    · rw [hm] at hstarted
      have hended := h.ended_of_finished
        (h.consumers_finished hblocked hmax hstarted.2.1 fun p => by simp [hstarted.1 p])
      rw [hm] at hended
      exact absurd hended (Nat.not_le_of_lt hstarted.2.2)
  rw [hmain] at hstarted
  cases t with
  | main => exact hmain
  | producer p => exact hstarted.1 p
  | consumer i => exact hstarted.2 i

end OsLabs.Concurrent.TwoCvs
