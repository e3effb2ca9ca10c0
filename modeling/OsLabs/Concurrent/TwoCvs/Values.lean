import OsLabs.Concurrent.TwoCvs.Progress

/-!
# The values that pass the buffer

Each producer fills in the values of its loop in their order, and what all of
them have filled in is what the consumers get.
-/

namespace OsLabs.Concurrent.TwoCvs

open OsLabs.Transition OsLabs.Threads OsLabs.Ring

variable {producers consumers : ℕ} {max loops : ℕ} {m m' : Shared consumers}
  {s s' : State producers consumers} {i : Fin consumers} {b : Option FillLoc} {filled : List ℤ}
  {v : ℤ}

/-- How many values the producer has filled in. -/
def ProducerLoc.progress (loops : ℕ) : ProducerLoc → ℕ
  | .unborn => 0
  | .next i => i
  | .body i .signal | .body i .unlock => i + 1
  | .body i _ => i
  | .finished => loops

/-- The loop of a producer ends at `loops`. -/
def ProducerLoc.Within (loops : ℕ) : ProducerLoc → Prop
  | .next i => i ≤ loops
  | .body i _ => i < loops
  | _ => True

/-- The value is one of `base + i` for the producer `p`. -/
def ofProducer (loops p : ℕ) (v : ℤ) : Bool :=
  decide (((p * loops : ℕ) : ℤ) ≤ v ∧ v < ((p + 1) * loops : ℕ))

/-- What each producer has filled in are the values of its loop, in their order. -/
structure Values (loops : ℕ) (filled : List ℤ) (producer : Fin producers → ProducerLoc) :
    Prop where
  within : ∀ p, (producer p).Within loops
  values : ∀ p : Fin producers, filled.filter (ofProducer loops p) =
    (List.range ((producer p).progress loops)).map fun i => ((p * loops + i : ℕ) : ℤ)

theorem ofProducer_value {p q k : ℕ} (hk : k < loops) :
    ofProducer loops q (p * loops + k : ℕ) = decide (q = p) := by
  unfold ofProducer
  refine decide_eq_decide.mpr ⟨fun ⟨hle, hlt⟩ => ?_, ?_⟩
  · by_contra hqp
    obtain hlt' | hlt' := Nat.lt_or_gt_of_ne hqp
    · have := Nat.mul_le_mul_right loops (show q + 1 ≤ p from hlt')
      omega
    · have := Nat.mul_le_mul_right loops (show p + 1 ≤ q from hlt')
      rw [Nat.succ_mul] at this
      omega
  · rintro rfl
    rw [Nat.succ_mul]
    omega

theorem ofProducer_endOfStream (loops p : ℕ) : ofProducer loops p END_OF_STREAM = false := by
  refine decide_eq_false fun hin => ?_
  have := Int.natCast_nonneg (p * loops)
  unfold END_OF_STREAM at hin
  omega

/-- A producer moves without filling. -/
theorem Values.move {producer : Fin producers → ProducerLoc} (h : Values loops filled producer)
    {p : Fin producers} {l : ProducerLoc} (hwithin : l.Within loops)
    (hprogress : l.progress loops = (producer p).progress loops) :
    Values loops filled (Function.update producer p l) := by
  refine ⟨fun q => ?_, fun q => ?_⟩ <;> obtain rfl | hq := eq_or_ne q p
  · rwa [Function.update_self]
  · rw [Function.update_of_ne hq]
    exact h.within q
  · rw [Function.update_self, hprogress]
    exact h.values q
  · rw [Function.update_of_ne hq]
    exact h.values q

theorem Values.endOfStream {producer : Fin producers → ProducerLoc}
    (h : Values loops filled producer) : Values loops (filled ++ [END_OF_STREAM]) producer := by
  refine ⟨h.within, fun p => ?_⟩
  rw [List.filter_append, h.values p, List.filter_singleton, ofProducer_endOfStream]
  exact List.append_nil _

theorem Values.fill {producer : Fin producers → ProducerLoc} (h : Values loops filled producer)
    {p : Fin producers} {k : ℕ} (hpc : producer p = .body k .fill) :
    Values loops (filled ++ [((p * loops + k : ℕ) : ℤ)])
      (Function.update producer p (.body k .signal)) := by
  have hk : k < loops := by
    have := h.within p
    rwa [hpc] at this
  refine ⟨fun q => ?_, fun q => ?_⟩
  · obtain rfl | hq := eq_or_ne q p
    · rw [Function.update_self]
      exact hk
    · rw [Function.update_of_ne hq]
      exact h.within q
  rw [List.filter_append, h.values q, List.filter_singleton, ofProducer_value hk]
  obtain rfl | hq := eq_or_ne q p
  · rw [Function.update_self, hpc]
    simp [ProducerLoc.progress, List.range_succ]
  · rw [Function.update_of_ne hq, decide_eq_false fun heq => hq (Fin.ext heq)]
    exact List.append_nil _

/-- Where a step of the body leads a producer. -/
theorem Values.stepBody {producer : Fin producers → ProducerLoc}
    (h : Values loops filled producer) {p : Fin producers} {k : ℕ} {loc : FillLoc}
    (hpc : producer p = .body k loc) {sleepers : Bool}
    (hstep : TwoCvs.stepBody max m v sleepers loc = some (m', b)) (hloc : loc ≠ .fill) :
    Values loops filled (Function.update producer p (.after k b)) := by
  have hk : k < loops := by
    have := h.within p
    rwa [hpc] at this
  cases loc with
  | lock | woken =>
      obtain ⟨m₁, -, heq⟩ := Option.map_eq_some_iff.mp hstep
      obtain ⟨rfl, rfl⟩ := Prod.mk.inj heq
      exact h.move hk (by rw [hpc]; rfl)
  | test =>
      have heq := Option.some.inj hstep
      split at heq <;>
        (obtain ⟨rfl, rfl⟩ := Prod.mk.inj heq; exact h.move hk (by rw [hpc]; rfl))
  | asleep => cases hstep
  | fill => exact absurd rfl hloc
  | signal =>
      cases sleepers with
      | true => cases hstep
      | false =>
          obtain ⟨rfl, rfl⟩ := Prod.mk.inj (Option.some.inj hstep)
          exact h.move hk (by rw [hpc]; rfl)
  | unlock =>
      obtain ⟨rfl, rfl⟩ := Prod.mk.inj (Option.some.inj hstep)
      exact h.move hk (by rw [hpc]; rfl)

theorem Values.stepMain (h : Values loops s.shared.filled s.producer) (hinv : Inv max s)
    (hstep : stepMain max s = some s') : Values loops s'.shared.filled s'.producer := by
  unfold TwoCvs.stepMain at hstep
  cases hmain : s.main with
  | createProducer k =>
      simp only [hmain] at hstep
      obtain rfl := Option.some.inj hstep
      split
      · next hk =>
          have hstarted := hinv.started
          rw [hmain] at hstarted
          refine h.move (Nat.zero_le _) ?_
          rw [(hstarted.1 ⟨k, hk⟩).mpr le_rfl]
          rfl
      · exact h
  | createConsumer k =>
      simp only [hmain] at hstep
      obtain rfl := Option.some.inj hstep
      split <;> exact h
  | joinProducer k | joinConsumer k =>
      simp only [hmain] at hstep
      split at hstep
      · split at hstep
        · obtain rfl := Option.some.inj hstep
          exact h
        · cases hstep
      · obtain rfl := Option.some.inj hstep
        exact h
  | next k =>
      simp only [hmain] at hstep
      obtain rfl := Option.some.inj hstep
      exact h
  | body k loc =>
      simp only [hmain, Option.map_eq_some_iff] at hstep
      obtain ⟨⟨shared, b⟩, hbody, rfl⟩ := hstep
      have hplace : s.place none = some loc := by simp [State.place, hmain, MainLoc.place]
      obtain ⟨-, -, hfilled⟩ :=
        hinv.monitor.stepBody hplace endOfStream_ne_empty sleeping_eq_zero hbody
      dsimp only
      rw [hfilled]
      split
      · exact h.endOfStream
      · rwa [List.append_nil]
  | done =>
      simp only [hmain] at hstep
      cases hstep

theorem Values.stepProducer {p : Fin producers} (h : Values loops s.shared.filled s.producer)
    (hinv : Inv max s) (hstep : stepProducer max loops s p = some s') :
    Values loops s'.shared.filled s'.producer := by
  unfold TwoCvs.stepProducer at hstep
  cases hpc : s.producer p with
  | unborn | finished =>
      simp only [hpc] at hstep
      cases hstep
  | next k =>
      simp only [hpc] at hstep
      obtain rfl := Option.some.inj hstep
      have hk := h.within p
      rw [hpc] at hk
      split
      · next hlt => exact h.move hlt (by rw [hpc]; rfl)
      · next hlt =>
          refine h.move trivial ?_
          rw [hpc]
          exact Nat.le_antisymm (Nat.le_of_not_lt hlt) hk
  | body k loc =>
      simp only [hpc, Option.map_eq_some_iff] at hstep
      obtain ⟨⟨shared, b⟩, hbody, rfl⟩ := hstep
      have hplace : s.place (some p) = some loc := by simp [State.place, hpc, ProducerLoc.place]
      have hvalue : ((p * loops + k : ℕ) : ℤ) ≠ EMPTY := by
        have := Int.natCast_nonneg (p * loops + k)
        unfold EMPTY
        omega
      obtain ⟨-, -, hfilled⟩ := hinv.monitor.stepBody hplace hvalue sleeping_eq_zero hbody
      by_cases hloc : loc = .fill
      · subst hloc
        obtain ⟨rfl, rfl⟩ := Prod.mk.inj (Option.some.inj hbody)
        dsimp only
        rw [hfilled]
        exact h.fill hpc
      · rw [if_neg hloc, List.append_nil] at hfilled
        dsimp only
        rw [hfilled]
        exact h.stepBody hpc hbody hloc

theorem Values.stepConsumer (h : Values loops s.shared.filled s.producer) (hinv : Inv max s)
    (hstep : stepConsumer max s i = some s') : Values loops s'.shared.filled s'.producer := by
  unfold TwoCvs.stepConsumer at hstep
  cases hpc : s.consumer i with
  | unborn | asleep | finished =>
      simp only [hpc] at hstep
      cases hstep
  | lock | woken =>
      simp only [hpc, Option.map_eq_some_iff] at hstep
      obtain ⟨shared, hlock, rfl⟩ := hstep
      obtain ⟨rfl, -⟩ := eq_of_lock hlock
      exact h
  | test =>
      simp only [hpc] at hstep
      obtain rfl := Option.some.inj hstep
      split <;> exact h
  | get =>
      simp only [hpc] at hstep
      obtain rfl := Option.some.inj hstep
      have hfilled := (hinv.monitor.do_get hpc).2.1
      simpa only [State.goto, hfilled] using h
  | signal tmp =>
      simp only [hpc] at hstep
      split at hstep
      · cases hstep
      · obtain rfl := Option.some.inj hstep
        exact h
  | next tmp | unlock tmp =>
      simp only [hpc] at hstep
      obtain rfl := Option.some.inj hstep
      exact h

theorem Values.wake (h : Values loops s.shared.filled s.producer) {u : Thread producers consumers}
    (hwake : s.wake u = some s') : Values loops s'.shared.filled s'.producer := by
  cases u with
  | main =>
      obtain ⟨k, -, rfl⟩ := wake_main hwake
      exact h
  | producer p =>
      obtain ⟨k, hpc, rfl⟩ := wake_producer hwake
      have hk := h.within p
      rw [hpc] at hk
      exact h.move hk (by rw [hpc]; rfl)
  | consumer i =>
      obtain ⟨-, rfl⟩ := wake_consumer hwake
      exact h

theorem Values.signalled (h : Values loops s.shared.filled s.producer)
    {t u : Thread producers consumers} (hsignal : s.signalled t u = some s') :
    Values loops s'.shared.filled s'.producer := by
  unfold State.signalled at hsignal
  split at hsignal
  · split at hsignal
    · obtain rfl := Option.some.inj hsignal
      exact h
    · cases hsignal
  · next p i =>
      split at hsignal
      · next k hpc =>
          obtain rfl := Option.some.inj hsignal
          have hk := h.within p
          rw [hpc] at hk
          exact h.move hk (by rw [hpc]; rfl)
      · cases hsignal
  · split at hsignal
    · obtain rfl := Option.some.inj hsignal
      exact h
    · cases hsignal
  · split at hsignal
    · obtain rfl := Option.some.inj hsignal
      exact h
    · cases hsignal
  · cases hsignal

theorem Values.step (h : Values loops s.shared.filled s.producer) (hinv : Inv max s)
    {x : Act producers consumers} (hstep : step max loops s x = some s') :
    Values loops s'.shared.filled s'.producer := by
  unfold TwoCvs.step at hstep
  split at hstep
  · cases hstep
  · cases x with
    | run t =>
        cases t with
        | main => exact h.stepMain hinv hstep
        | producer p => exact h.stepProducer hinv hstep
        | consumer i => exact h.stepConsumer hinv hstep
    | signal t u =>
        obtain ⟨s₁, hwake, hsignal⟩ := Option.bind_eq_some_iff.mp hstep
        exact (h.wake hwake).signalled hsignal
    | wake t => exact h.wake hstep

end OsLabs.Concurrent.TwoCvs
