import OsLabs.Concurrent.TwoCvs.Monitor

/-!
# From the start to the end of the stream

Whom `main` has created and joined, how many ends of the stream it has filled
in, and that every consumer leaves with one of them.
-/

namespace OsLabs.Concurrent.TwoCvs

open OsLabs.Transition OsLabs.Threads OsLabs.Ring

variable {producers consumers : ℕ}

/-- How many `END_OF_STREAM` the main thread has filled in. -/
def MainLoc.ended (consumers : ℕ) : MainLoc → ℕ
  | .next i => i
  | .body i .signal | .body i .unlock => i + 1
  | .body i _ => i
  | .joinConsumer _ | .done => consumers
  | _ => 0

/-- The consumer has got its `END_OF_STREAM`. -/
@[simp] def ConsumerLoc.ended : ConsumerLoc → ℕ
  | .next tmp | .signal tmp | .unlock tmp => if tmp = END_OF_STREAM then 1 else 0
  | .finished => 1
  | _ => 0

/-- The values of the producers, and `n` ends after them. -/
def Filled (filled : List ℤ) (n : ℕ) : Prop :=
  ∃ values, filled = values ++ List.replicate n END_OF_STREAM ∧ END_OF_STREAM ∉ values

/-- Whom `main` has created and joined. -/
def Started (main : MainLoc) (producer : Fin producers → ProducerLoc)
    (consumer : Fin consumers → ConsumerLoc) : Prop :=
  match main with
  | .createProducer k => (∀ i, producer i = .unborn ↔ k ≤ i) ∧ ∀ i, consumer i = .unborn
  | .createConsumer k => (∀ i, producer i ≠ .unborn) ∧ ∀ i, consumer i = .unborn ↔ k ≤ i
  | .joinProducer k => (∀ i, producer i ≠ .unborn ∧ (i.val < k → producer i = .finished)) ∧
      ∀ i, consumer i ≠ .unborn
  | .next k => (∀ i, producer i = .finished) ∧ (∀ i, consumer i ≠ .unborn) ∧ k ≤ consumers
  | .body k _ => (∀ i, producer i = .finished) ∧ (∀ i, consumer i ≠ .unborn) ∧ k < consumers
  | .joinConsumer k => (∀ i, producer i = .finished) ∧
      ∀ i, consumer i ≠ .unborn ∧ (i.val < k → consumer i = .finished)
  | .done => (∀ i, producer i = .finished) ∧ ∀ i, consumer i = .finished

structure Inv (max : ℕ) (s : State producers consumers) : Prop where
  monitor : Monitor max s.shared s.place s.consumer
  started : Started s.main s.producer s.consumer
  filled : Filled s.shared.filled (s.main.ended consumers)
  output : ∀ i, StreamOk END_OF_STREAM (s.output i) (s.consumer i).ended
  ended : total s.consumer ConsumerLoc.ended =
    (s.shared.taken.map Prod.snd).count END_OF_STREAM

variable {max : ℕ} {m m' : Shared consumers} {s s' : State producers consumers}
  {i : Fin consumers} {c d : ConsumerLoc} {filled taken : List ℤ} {n : ℕ} {v : ℤ}

theorem Filled.value (h : Filled filled 0) (hv : v ≠ END_OF_STREAM) : Filled (filled ++ [v]) 0 := by
  obtain ⟨values, rfl, hnone⟩ := h
  exact ⟨values ++ [v], by simp, by simp [hnone, hv.symm]⟩

theorem Filled.endOfStream (h : Filled filled n) : Filled (filled ++ [END_OF_STREAM]) (n + 1) := by
  obtain ⟨values, rfl, hnone⟩ := h
  exact ⟨values, by rw [List.replicate_succ', List.append_assoc], hnone⟩

theorem Filled.count (h : Filled filled n) : filled.count END_OF_STREAM = n := by
  obtain ⟨values, rfl, hnone⟩ := h
  rw [List.count_append, List.count_eq_zero_of_not_mem hnone, List.count_replicate_self, zero_add]

theorem Started.producer {main : MainLoc} {producer : Fin producers → ProducerLoc}
    {consumer : Fin consumers → ConsumerLoc} {p : Fin producers} {l : ProducerLoc}
    (h : Started main producer consumer) (hborn : producer p ≠ .unborn)
    (hrunning : producer p ≠ .finished) (hl : l ≠ .unborn) :
    Started main (Function.update producer p l) consumer ∧ main.ended consumers = 0 := by
  have hupdate (P : Fin producers → ProducerLoc → Prop) (hp : P p l) (hall : ∀ i, P i (producer i))
      (i : Fin producers) : P i (Function.update producer p l i) := by
    obtain rfl | hi := eq_or_ne i p
    · rwa [Function.update_self]
    · rw [Function.update_of_ne hi]
      exact hall i
  cases main with
  | createProducer k =>
      refine ⟨⟨hupdate (fun i x => x = .unborn ↔ k ≤ i.val) ?_ h.1, h.2⟩, rfl⟩
      exact ⟨fun hl' => absurd hl' hl, fun hk => absurd ((h.1 p).mpr hk) hborn⟩
  | createConsumer k => exact ⟨⟨hupdate (fun _ x => x ≠ .unborn) hl h.1, h.2⟩, rfl⟩
  | joinProducer k =>
      refine ⟨⟨hupdate (fun i x => x ≠ .unborn ∧ (i.val < k → x = .finished)) ?_ h.1, h.2⟩, rfl⟩
      exact ⟨hl, fun hk => absurd ((h.1 p).2 hk) hrunning⟩
  | next k => exact absurd (h.1 p) hrunning
  | body k loc => exact absurd (h.1 p) hrunning
  | joinConsumer k => exact absurd (h.1 p) hrunning
  | done => exact absurd (h.1 p) hrunning

theorem Started.consumer {main : MainLoc} {producer : Fin producers → ProducerLoc}
    {consumer : Fin consumers → ConsumerLoc} (h : Started main producer consumer)
    (hborn : consumer i ≠ .unborn) (hrunning : consumer i ≠ .finished) (hd : d ≠ .unborn) :
    Started main producer (Function.update consumer i d) := by
  have hupdate (P : Fin consumers → ConsumerLoc → Prop) (hi : P i d) (hall : ∀ j, P j (consumer j))
      (j : Fin consumers) : P j (Function.update consumer i d j) := by
    obtain rfl | hj := eq_or_ne j i
    · rwa [Function.update_self]
    · rw [Function.update_of_ne hj]
      exact hall j
  cases main with
  | createProducer k => exact absurd (h.2 i) hborn
  | createConsumer k =>
      refine ⟨h.1, hupdate (fun j x => x = .unborn ↔ k ≤ j.val) ?_ h.2⟩
      exact ⟨fun hd' => absurd hd' hd, fun hk => absurd ((h.2 i).mpr hk) hborn⟩
  | joinProducer k => exact ⟨h.1, hupdate (fun _ x => x ≠ .unborn) hd h.2⟩
  | next k => exact ⟨h.1, hupdate (fun _ x => x ≠ .unborn) hd h.2.1, h.2.2⟩
  | body k loc => exact ⟨h.1, hupdate (fun _ x => x ≠ .unborn) hd h.2.1, h.2.2⟩
  | joinConsumer k =>
      refine ⟨h.1, hupdate (fun j x => x ≠ .unborn ∧ (j.val < k → x = .finished)) ?_ h.2⟩
      exact ⟨hd, fun hk => absurd ((h.2 i).2 hk) hrunning⟩
  | done => exact absurd (h.2 i) hrunning

theorem place_main (s : State producers consumers) (shared : Shared consumers) (l : MainLoc) :
    State.place { s with shared, main := l } = Function.update s.place none l.place := by
  funext f
  cases f <;> rfl

theorem place_producer (s : State producers consumers) (shared : Shared consumers)
    (p : Fin producers) (l : ProducerLoc) :
    State.place { s with shared, producer := Function.update s.producer p l } =
      Function.update s.place (some p) l.place := by
  funext f
  cases f with
  | none => rfl
  | some q =>
      obtain rfl | hq := eq_or_ne q p
      · simp [State.place]
      · have hne : some q ≠ some p := fun heq => hq (Option.some.inj heq)
        simp [State.place, Function.update_of_ne hq, Function.update_of_ne hne]

theorem inv_init (hmax : 0 < max) : Inv max (initial : State producers consumers) := by
  have hplace : (initial : State producers consumers).place = fun _ => none := by
    funext f
    cases f <;> rfl
  have hnone (w : Option FillLoc → ℕ) (hw : w none = 0) :
      total (fun _ : Option (Fin producers) => (none : Option FillLoc)) w = 0 := total_const hw
  have hunborn (w : ConsumerLoc → ℕ) (hw : w .unborn = 0) :
      total (fun _ : Fin consumers => ConsumerLoc.unborn) w = 0 := total_const hw
  refine ⟨?_, ⟨fun i => by simp [initial], fun i => rfl⟩, ⟨[], rfl, by simp⟩, fun i => ?_, ?_⟩
  · rw [hplace]
    constructor <;> simp [initial, hnone fillHolds rfl, hnone filling rfl, hnone fillSleeping rfl,
      hunborn ConsumerLoc.holds rfl, hunborn ConsumerLoc.getting rfl,
      hunborn ConsumerLoc.sleeping rfl]
    exact Holds.init hmax fun _ _ => rfl
  · simp [initial, State.output, StreamOk]
  · simp [initial, hunborn ConsumerLoc.ended rfl]

theorem endOfStream_ne_empty : END_OF_STREAM ≠ EMPTY := by decide

/-- A step of `main` that only changes its place. -/
theorem Inv.main (h : Inv max s) {l : MainLoc} {shared : Shared consumers}
    (hmonitor : Monitor max shared (Function.update s.place none l.place) s.consumer)
    (hstarted : Started l s.producer s.consumer)
    (hfilled : Filled shared.filled (l.ended consumers))
    (htaken : shared.taken = s.shared.taken) : Inv max { s with shared, main := l } := by
  refine ⟨by rwa [place_main], hstarted, hfilled, fun i => ?_, ?_⟩
  · simpa only [State.output, htaken] using h.output i
  · simpa only [htaken] using h.ended

theorem Inv.producer (h : Inv max s) {p : Fin producers} {l : ProducerLoc}
    {shared : Shared consumers}
    (hmonitor : Monitor max shared (Function.update s.place (some p) l.place) s.consumer)
    (hstarted : Started s.main (Function.update s.producer p l) s.consumer)
    (hfilled : Filled shared.filled (s.main.ended consumers))
    (htaken : shared.taken = s.shared.taken) :
    Inv max { s with shared, producer := Function.update s.producer p l } := by
  refine ⟨by rwa [place_producer], hstarted, hfilled, fun i => ?_, ?_⟩
  · simpa only [State.output, htaken] using h.output i
  · simpa only [htaken] using h.ended

/-- A step of a consumer, except `do_get`. -/
theorem Inv.consumer (h : Inv max s) (hpc : s.consumer i = c) {shared : Shared consumers}
    (hmonitor : Monitor max shared s.place (Function.update s.consumer i d))
    (hborn : c ≠ .unborn ∧ c ≠ .finished ∧ d ≠ .unborn) (hended : d.ended = c.ended)
    (hfilled : shared.filled = s.shared.filled) (htaken : shared.taken = s.shared.taken) :
    Inv max (s.goto shared i d) := by
  refine ⟨hmonitor, h.started.consumer (hpc ▸ hborn.1) (hpc ▸ hborn.2.1) hborn.2.2,
    hfilled ▸ h.filled, fun j => ?_, ?_⟩
  · have hj := h.output j
    obtain rfl | hji := eq_or_ne j i
    · simpa only [State.goto, State.output, htaken, Function.update_self, hended, ← hpc] using hj
    · simpa only [State.goto, State.output, htaken, Function.update_of_ne hji] using hj
  · have hmoved := hpc ▸ total_update s.consumer ConsumerLoc.ended i d
    have hall := h.ended
    simp only [State.goto, htaken]
    omega

theorem Inv.do_get (h : Inv max s) (hpc : s.consumer i = .get) :
    Inv max (s.goto (do_get max s.shared i).1 i (.signal (do_get max s.shared i).2)) := by
  obtain ⟨hmonitor, hfilled, htaken⟩ := h.monitor.do_get hpc
  generalize TwoCvs.do_get max s.shared i = got at *
  refine ⟨hmonitor, h.started.consumer (by simp [hpc]) (by simp [hpc]) (by simp),
    by simpa only [State.goto, hfilled] using h.filled, fun j => ?_, ?_⟩
  · have hj := h.output j
    obtain rfl | hji := eq_or_ne i j
    · rw [hpc] at hj
      simpa [State.goto, State.output, htaken] using hj.append (v := got.2)
    · simpa [State.goto, State.output, htaken, hji, Function.update_of_ne hji.symm] using hj
  · have hmoved := hpc ▸ total_update s.consumer ConsumerLoc.ended i (.signal got.2)
    have hall := h.ended
    simp only [ConsumerLoc.ended] at hmoved
    simp only [State.goto, htaken, List.map_append, List.count_append, List.map_cons,
      List.map_nil, List.count_singleton, beq_iff_eq]
    omega

theorem sleeping_eq_zero (h : s.consumerSleeps = false) :
    total s.consumer ConsumerLoc.sleeping = 0 := total_eq_zero_iff.mpr fun i => by
  have hi : s.consumer i ≠ .asleep := fun hi => (of_decide_eq_false h) ⟨i, hi⟩
  cases hpc : s.consumer i <;> simp_all

theorem fillSleeping_eq_zero (h : s.fillerSleeps = false) :
    total s.place fillSleeping = 0 := total_eq_zero_iff.mpr fun f => by
  have hf : s.place f ≠ some .asleep := fun hf => (of_decide_eq_false h) ⟨f, hf⟩
  cases hplace : s.place f with
  | none => rfl
  | some loc => cases loc <;> simp_all

/-- The main thread goes to a place outside of the body. -/
theorem Inv.mainAway (h : Inv max s) {l : MainLoc} (hmain : s.main.place = none)
    (hl : l.place = none ∨ l.place = some .lock) (hstarted : Started l s.producer s.consumer)
    (hended : l.ended consumers = s.main.ended consumers) : Inv max { s with main := l } :=
  h.main (h.monitor.away (show s.place none = none from hmain) (Or.inl rfl) hl) hstarted
    (hended ▸ h.filled) rfl

/-- Where a step of the body leads, and what has been filled in by then. -/
theorem ended_stepBody {loc : FillLoc} {b : Option FillLoc} {value : ℤ} {sleepers : Bool} {i : ℕ}
    (hstep : stepBody max m value sleepers loc = some (m', b)) :
    (MainLoc.after i b).ended consumers =
      (MainLoc.body i loc).ended consumers + if loc = .fill then 1 else 0 := by
  cases loc with
  | lock | woken =>
      obtain ⟨m₁, -, heq⟩ := Option.map_eq_some_iff.mp hstep
      obtain ⟨rfl, rfl⟩ := Prod.mk.inj heq
      rfl
  | test =>
      have heq := Option.some.inj hstep
      split at heq <;> (obtain ⟨rfl, rfl⟩ := Prod.mk.inj heq; rfl)
  | asleep => cases hstep
  | fill =>
      obtain ⟨rfl, rfl⟩ := Prod.mk.inj (Option.some.inj hstep)
      rfl
  | signal =>
      cases sleepers with
      | true => cases hstep
      | false =>
          obtain ⟨rfl, rfl⟩ := Prod.mk.inj (Option.some.inj hstep)
          rfl
  | unlock =>
      obtain ⟨rfl, rfl⟩ := Prod.mk.inj (Option.some.inj hstep)
      rfl

theorem Inv.stepMain (h : Inv max s) (hstep : stepMain max s = some s') : Inv max s' := by
  unfold TwoCvs.stepMain at hstep
  have hstarted := h.started
  cases hmain : s.main with
  | createProducer k =>
      simp only [hmain] at hstep hstarted
      obtain rfl := Option.some.inj hstep
      have hplace : s.main.place = none := by rw [hmain]; rfl
      have hended : (0 : ℕ) = s.main.ended consumers := by rw [hmain]; rfl
      split
      · next hk =>
          have hnew : s.producer ⟨k, hk⟩ = .unborn := (hstarted.1 _).mpr le_rfl
          have hproducers (i : Fin producers) :
              Function.update s.producer ⟨k, hk⟩ (.next 0) i = .unborn ↔ k + 1 ≤ i := by
            obtain rfl | hi := eq_or_ne i ⟨k, hk⟩
            · simp
            · rw [Function.update_of_ne hi, hstarted.1 i]
              have : i.val ≠ k := fun heq => hi (Fin.ext heq)
              omega
          have hplace' : s.place (some ⟨k, hk⟩) = none := by
            simp [State.place, hnew, ProducerLoc.place]
          have hborn : Monitor max s.shared (Function.update s.place (some ⟨k, hk⟩)
              (ProducerLoc.next 0).place) s.consumer :=
            h.monitor.away hplace' (Or.inl rfl) (Or.inl rfl)
          rw [← place_producer s s.shared] at hborn
          have hfilled : Filled s.shared.filled 0 := by
            rw [hended]
            exact h.filled
          refine ⟨?_, ⟨hproducers, hstarted.2⟩, hfilled, h.output, h.ended⟩
          have hmonitor := hborn.away (b := (MainLoc.createProducer (k + 1)).place)
            (show State.place _ none = none from hplace) (Or.inl rfl) (Or.inl rfl)
          rwa [← place_main _ s.shared] at hmonitor
      · next hk =>
          refine h.mainAway hplace (Or.inl rfl) ⟨fun i hi => ?_, fun i => ?_⟩ hended
          · have := (hstarted.1 i).mp hi
            omega
          · simp [hstarted.2 i]
  | createConsumer k =>
      simp only [hmain] at hstep hstarted
      obtain rfl := Option.some.inj hstep
      have hplace : s.main.place = none := by rw [hmain]; rfl
      have hended : (0 : ℕ) = s.main.ended consumers := by rw [hmain]; rfl
      split
      · next hk =>
          have hnew : s.consumer ⟨k, hk⟩ = .unborn := (hstarted.2 _).mpr le_rfl
          have hconsumers (i : Fin consumers) :
              Function.update s.consumer ⟨k, hk⟩ (.next 0) i = .unborn ↔ k + 1 ≤ i := by
            obtain rfl | hi := eq_or_ne i ⟨k, hk⟩
            · simp
            · rw [Function.update_of_ne hi, hstarted.2 i]
              have : i.val ≠ k := fun heq => hi (Fin.ext heq)
              omega
          have hborn : Monitor max s.shared s.place
              (Function.update s.consumer ⟨k, hk⟩ (.next 0)) := h.monitor.getAway hnew rfl rfl
          have hmonitor := hborn.away (f := none) (b := none) hplace (Or.inl rfl) (Or.inl rfl)
          have hfilled : Filled s.shared.filled 0 := by
            rw [hended]
            exact h.filled
          refine ⟨?_, ⟨hstarted.1, hconsumers⟩, hfilled, fun i => ?_, ?_⟩
          · exact (place_main s s.shared (.createConsumer (k + 1))).symm ▸ hmonitor
          · have hi := h.output i
            obtain rfl | hne := eq_or_ne i ⟨k, hk⟩
            · rw [hnew] at hi
              simpa [State.output, END_OF_STREAM] using hi
            · simpa only [State.output, Function.update_of_ne hne] using hi
          · have hmoved := hnew ▸ total_update s.consumer ConsumerLoc.ended ⟨k, hk⟩ (.next 0)
            simpa [END_OF_STREAM, h.ended] using hmoved
      · next hk =>
          refine h.mainAway hplace (Or.inl rfl)
            ⟨fun i => ⟨hstarted.1 i, fun hi => by omega⟩, fun i hi => ?_⟩ hended
          have := (hstarted.2 i).mp hi
          omega
  | joinProducer k =>
      simp only [hmain] at hstep hstarted
      have hplace : s.main.place = none := by rw [hmain]; rfl
      have hended : (0 : ℕ) = s.main.ended consumers := by rw [hmain]; rfl
      split at hstep
      · next hk =>
          split at hstep
          · next hfinished =>
              obtain rfl := Option.some.inj hstep
              refine h.mainAway hplace (Or.inl rfl)
                ⟨fun i => ⟨(hstarted.1 i).1, fun hi => ?_⟩, hstarted.2⟩ hended
              obtain hlt | heq := Nat.lt_succ_iff_lt_or_eq.mp hi
              · exact (hstarted.1 i).2 hlt
              · rwa [show i = ⟨k, hk⟩ from Fin.ext heq]
          · cases hstep
      · next hk =>
          obtain rfl := Option.some.inj hstep
          exact h.mainAway hplace (Or.inl rfl)
            ⟨fun i => (hstarted.1 i).2 (by omega), hstarted.2, Nat.zero_le _⟩ hended
  | next k =>
      simp only [hmain] at hstep hstarted
      obtain rfl := Option.some.inj hstep
      have hplace : s.main.place = none := by rw [hmain]; rfl
      split
      · next hk =>
          refine h.mainAway hplace (Or.inr rfl) ⟨hstarted.1, hstarted.2.1, hk⟩ ?_
          rw [hmain]
          rfl
      · next hk =>
          refine h.mainAway hplace (Or.inl rfl)
            ⟨hstarted.1, fun i => ⟨hstarted.2.1 i, fun hi => by omega⟩⟩ ?_
          rw [hmain]
          exact Nat.le_antisymm (Nat.le_of_not_lt hk) hstarted.2.2
  | body k loc =>
      simp only [hmain, Option.map_eq_some_iff] at hstep hstarted
      obtain ⟨⟨shared, b⟩, hbody, rfl⟩ := hstep
      have hplace : s.place none = some loc := by simp [State.place, hmain, MainLoc.place]
      obtain ⟨hmonitor, htaken, hfilled⟩ :=
        h.monitor.stepBody hplace endOfStream_ne_empty sleeping_eq_zero hbody
      have hended := ended_stepBody (i := k) hbody
      have hfilled' := h.filled
      rw [hmain] at hfilled'
      refine h.main ?_ ?_ ?_ htaken
      · cases b <;> exact hmonitor
      · cases b <;> exact ⟨hstarted.1, hstarted.2.1, by have := hstarted.2.2; omega⟩
      · dsimp only at hended ⊢
        rw [hended, hfilled]
        split
        · exact hfilled'.endOfStream
        · rwa [List.append_nil]
  | joinConsumer k =>
      simp only [hmain] at hstep hstarted
      have hplace : s.main.place = none := by rw [hmain]; rfl
      have hended : consumers = s.main.ended consumers := by rw [hmain]; rfl
      split at hstep
      · next hk =>
          split at hstep
          · next hfinished =>
              obtain rfl := Option.some.inj hstep
              refine h.mainAway hplace (Or.inl rfl)
                ⟨hstarted.1, fun i => ⟨(hstarted.2 i).1, fun hi => ?_⟩⟩ hended
              obtain hlt | heq := Nat.lt_succ_iff_lt_or_eq.mp hi
              · exact (hstarted.2 i).2 hlt
              · rwa [show i = ⟨k, hk⟩ from Fin.ext heq]
          · cases hstep
      · next hk =>
          obtain rfl := Option.some.inj hstep
          exact h.mainAway hplace (Or.inl rfl)
            ⟨hstarted.1, fun i => (hstarted.2 i).2 (by omega)⟩ hended
  | done =>
      simp only [hmain] at hstep
      cases hstep

theorem Inv.stepProducer {loops : ℕ} {p : Fin producers} (h : Inv max s)
    (hstep : stepProducer max loops s p = some s') : Inv max s' := by
  unfold TwoCvs.stepProducer at hstep
  cases hpc : s.producer p with
  | unborn =>
      simp only [hpc] at hstep
      cases hstep
  | next i =>
      simp only [hpc] at hstep
      obtain rfl := Option.some.inj hstep
      have hplace : s.place (some p) = none := by simp [State.place, hpc, ProducerLoc.place]
      have hstarted {l : ProducerLoc} (hl : l ≠ .unborn) :=
        h.started.producer (p := p) (by simp [hpc]) (by simp [hpc]) hl
      split
      · exact h.producer (h.monitor.away hplace (Or.inl rfl) (Or.inr rfl))
          (hstarted (by simp)).1 h.filled rfl
      · exact h.producer (h.monitor.away hplace (Or.inl rfl) (Or.inl rfl))
          (hstarted (by simp)).1 h.filled rfl
  | body i loc =>
      simp only [hpc, Option.map_eq_some_iff] at hstep
      obtain ⟨⟨shared, b⟩, hbody, rfl⟩ := hstep
      have hplace : s.place (some p) = some loc := by simp [State.place, hpc, ProducerLoc.place]
      have hvalue : ((p * loops + i : ℕ) : ℤ) ≠ EMPTY ∧
          ((p * loops + i : ℕ) : ℤ) ≠ END_OF_STREAM := by
        have := Int.natCast_nonneg (p * loops + i)
        simp only [EMPTY, END_OF_STREAM]
        omega
      obtain ⟨hmonitor, htaken, hfilled⟩ :=
        h.monitor.stepBody hplace hvalue.1 sleeping_eq_zero hbody
      have hl : ProducerLoc.after i b ≠ .unborn := by cases b <;> simp [ProducerLoc.after]
      obtain ⟨hstarted, hnone⟩ :=
        h.started.producer (p := p) (by simp [hpc]) (by simp [hpc]) hl
      have hfilled' := h.filled
      rw [hnone] at hfilled'
      refine h.producer ?_ hstarted ?_ htaken
      · cases b <;> exact hmonitor
      · dsimp only
        rw [hnone, hfilled]
        split
        · exact hfilled'.value hvalue.2
        · rwa [List.append_nil]
  | finished =>
      simp only [hpc] at hstep
      cases hstep

theorem Inv.stepConsumer (h : Inv max s) (hstep : stepConsumer max s i = some s') :
    Inv max s' := by
  unfold TwoCvs.stepConsumer at hstep
  have hmonitor := h.monitor
  cases hpc : s.consumer i with
  | unborn =>
      simp only [hpc] at hstep
      cases hstep
  | next tmp =>
      simp only [hpc] at hstep
      obtain rfl := Option.some.inj hstep
      split
      · next htmp =>
          exact h.consumer hpc (hmonitor.getAway hpc rfl rfl) (by simp) (by simp [htmp]) rfl rfl
      · next htmp =>
          rw [not_not] at htmp
          exact h.consumer hpc (hmonitor.getAway hpc rfl rfl) (by simp) (by simp [htmp]) rfl rfl
  | lock =>
      simp only [hpc, Option.map_eq_some_iff] at hstep
      obtain ⟨shared, hlock, rfl⟩ := hstep
      have hlocked := hmonitor.getLock (Or.inl hpc) hlock
      obtain ⟨rfl, -⟩ := eq_of_lock hlock
      exact h.consumer hpc hlocked (by simp) rfl rfl rfl
  | woken =>
      simp only [hpc, Option.map_eq_some_iff] at hstep
      obtain ⟨shared, hlock, rfl⟩ := hstep
      have hlocked := hmonitor.getLock (Or.inr hpc) hlock
      obtain ⟨rfl, -⟩ := eq_of_lock hlock
      exact h.consumer hpc hlocked (by simp) rfl rfl rfl
  | test =>
      simp only [hpc] at hstep
      obtain rfl := Option.some.inj hstep
      have halone := hmonitor.get_alone hpc (by simp)
      obtain ⟨hexited, hmutex, hcount, hroom, havailable, hfillPtr, husePtr, hfifo, hfillers,
        hconsumers⟩ := hmonitor
      split
      · have hmoved := get_totals hpc .asleep
        dsimp at halone hmoved
        refine h.consumer hpc ⟨hexited, ?_, hcount, hroom, ?_, hfillPtr, husePtr, hfifo, ?_, ?_⟩
          (by simp) rfl rfl rfl <;> simp only [Shared.unlock, Bool.toNat_false] <;> omega
      · have hmoved := get_totals hpc .get
        have horder := hfifo.order.length_le
        rw [List.length_map] at horder
        dsimp at halone hmoved
        exact h.consumer hpc ⟨hexited, by omega, hcount, hroom, by omega, hfillPtr, husePtr, hfifo,
          by omega, by omega⟩ (by simp) rfl rfl rfl
  | asleep =>
      simp only [hpc] at hstep
      cases hstep
  | get =>
      simp only [hpc] at hstep
      obtain rfl := Option.some.inj hstep
      exact h.do_get hpc
  | signal tmp =>
      simp only [hpc] at hstep
      split at hstep
      · cases hstep
      · next hsleeps =>
          obtain rfl := Option.some.inj hstep
          have hnobody := fillSleeping_eq_zero (Bool.eq_false_iff.mpr hsleeps)
          have halone := hmonitor.get_alone hpc (by simp)
          have hmoved := get_totals hpc (.unlock tmp)
          obtain ⟨hexited, hmutex, hcount, hroom, havailable, hfillPtr, husePtr, hfifo, hfillers,
            hconsumers⟩ := hmonitor
          dsimp at halone hmoved
          exact h.consumer hpc ⟨hexited, by omega, hcount, hroom, by omega, hfillPtr, husePtr,
            hfifo, by omega, by omega⟩ (by simp) rfl rfl rfl
  | unlock tmp =>
      simp only [hpc] at hstep
      obtain rfl := Option.some.inj hstep
      have halone := hmonitor.get_alone hpc (by simp)
      have hmoved := get_totals hpc (.next tmp)
      obtain ⟨hexited, hmutex, hcount, hroom, havailable, hfillPtr, husePtr, hfifo, hfillers,
        hconsumers⟩ := hmonitor
      dsimp at halone hmoved
      refine h.consumer hpc ⟨hexited, ?_, hcount, hroom, ?_, hfillPtr, husePtr, hfifo, ?_, ?_⟩
        (by simp) rfl rfl rfl <;> simp only [Shared.unlock, Bool.toNat_false] <;> omega
  | finished =>
      simp only [hpc] at hstep
      cases hstep

theorem wake_main (h : s.wake .main = some s') :
    ∃ k, s.main = .body k .asleep ∧ s' = { s with main := .body k .woken } := by
  dsimp only [State.wake] at h
  split at h
  · next k hmain => exact ⟨k, hmain, (Option.some.inj h).symm⟩
  · cases h

theorem wake_producer {p : Fin producers} (h : s.wake (.producer p) = some s') :
    ∃ k, s.producer p = .body k .asleep ∧
      s' = { s with producer := Function.update s.producer p (.body k .woken) } := by
  dsimp only [State.wake] at h
  split at h
  · next k hpc => exact ⟨k, hpc, (Option.some.inj h).symm⟩
  · cases h

theorem wake_consumer (h : s.wake (.consumer i) = some s') :
    s.consumer i = .asleep ∧ s' = s.goto s.shared i .woken := by
  dsimp only [State.wake] at h
  split at h
  · next hpc => exact ⟨hpc, (Option.some.inj h).symm⟩
  · cases h

/-- The place of a thread in the body changes, but nothing is filled in. -/
theorem Inv.mainInBody (h : Inv max s) {k : ℕ} {loc loc' : FillLoc} (hmain : s.main = .body k loc)
    (hmonitor : Monitor max s.shared (Function.update s.place none (some loc')) s.consumer)
    (hended : (MainLoc.body k loc').ended consumers = (MainLoc.body k loc).ended consumers) :
    Inv max { s with main := .body k loc' } := by
  have hstarted := h.started
  have hfilled := h.filled
  rw [hmain] at hstarted hfilled
  exact h.main hmonitor hstarted (hended ▸ hfilled) rfl

theorem Inv.producerInBody (h : Inv max s) {p : Fin producers} {k : ℕ} {loc loc' : FillLoc}
    (hpc : s.producer p = .body k loc)
    (hmonitor : Monitor max s.shared (Function.update s.place (some p) (some loc')) s.consumer) :
    Inv max { s with producer := Function.update s.producer p (.body k loc') } :=
  h.producer hmonitor (h.started.producer (by simp [hpc]) (by simp [hpc]) (by simp)).1 h.filled rfl

theorem Inv.wake (h : Inv max s) {u : Thread producers consumers} (hwake : s.wake u = some s') :
    Inv max s' := by
  cases u with
  | main =>
      obtain ⟨k, hmain, rfl⟩ := wake_main hwake
      have hplace : s.place none = some .asleep := by simp [State.place, hmain, MainLoc.place]
      exact h.mainInBody hmain (h.monitor.wakeFiller hplace) rfl
  | producer p =>
      obtain ⟨k, hpc, rfl⟩ := wake_producer hwake
      have hplace : s.place (some p) = some .asleep := by
        simp [State.place, hpc, ProducerLoc.place]
      exact h.producerInBody hpc (h.monitor.wakeFiller hplace)
  | consumer i =>
      obtain ⟨hpc, rfl⟩ := wake_consumer hwake
      exact h.consumer hpc (h.monitor.wakeConsumer hpc) (by simp) rfl rfl rfl

theorem Inv.signal (h : Inv max s) {s₁ : State producers consumers}
    {t u : Thread producers consumers} (hwake : s.wake u = some s₁)
    (hsignal : s₁.signalled t u = some s') : Inv max s' := by
  have h₁ := h.wake hwake
  cases u with
  | consumer i =>
      obtain ⟨hpc, rfl⟩ := wake_consumer hwake
      cases t with
      | main =>
          dsimp only [State.signalled] at hsignal
          split at hsignal
          · next k hmain =>
              obtain rfl := Option.some.inj hsignal
              have hplace : s.place none = some .signal := by
                simp [State.place, show s.main = _ from hmain, MainLoc.place]
              exact h₁.mainInBody hmain (h.monitor.signalConsumer hplace hpc) rfl
          · cases hsignal
      | producer p =>
          dsimp only [State.signalled] at hsignal
          split at hsignal
          · next k hp =>
              obtain rfl := Option.some.inj hsignal
              have hplace : s.place (some p) = some .signal := by
                simp [State.place, show s.producer p = _ from hp, ProducerLoc.place]
              exact h₁.producerInBody hp (h.monitor.signalConsumer hplace hpc)
          · cases hsignal
      | consumer j => cases hsignal
  | main =>
      obtain ⟨k, hmain, rfl⟩ := wake_main hwake
      have hplace : s.place none = some .asleep := by simp [State.place, hmain, MainLoc.place]
      cases t with
      | consumer i =>
          dsimp only [State.signalled] at hsignal
          split at hsignal
          · next tmp hpc =>
              obtain rfl := Option.some.inj hsignal
              refine h₁.consumer hpc ?_ (by simp) rfl rfl rfl
              rw [place_main s s.shared]
              exact h.monitor.signalFiller hpc hplace
          · cases hsignal
      | main => cases hsignal
      | producer p => cases hsignal
  | producer p =>
      obtain ⟨k, hp, rfl⟩ := wake_producer hwake
      have hplace : s.place (some p) = some .asleep := by
        simp [State.place, hp, ProducerLoc.place]
      cases t with
      | consumer i =>
          dsimp only [State.signalled] at hsignal
          split at hsignal
          · next tmp hpc =>
              obtain rfl := Option.some.inj hsignal
              refine h₁.consumer hpc ?_ (by simp) rfl rfl rfl
              rw [place_producer s s.shared]
              exact h.monitor.signalFiller hpc hplace
          · cases hsignal
      | main => cases hsignal
      | producer q => cases hsignal

theorem Inv.step {loops : ℕ} (h : Inv max s) {x : Act producers consumers}
    (hstep : step max loops s x = some s') : Inv max s' := by
  unfold TwoCvs.step at hstep
  split at hstep
  · cases hstep
  · cases x with
    | run t =>
        cases t with
        | main => exact h.stepMain hstep
        | producer p => exact h.stepProducer hstep
        | consumer i => exact h.stepConsumer hstep
    | signal t u =>
        obtain ⟨s₁, hwake, hsignal⟩ := Option.bind_eq_some_iff.mp hstep
        exact h.signal hwake hsignal
    | wake t => exact h.wake hstep

end OsLabs.Concurrent.TwoCvs
