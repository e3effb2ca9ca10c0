import OsLabs.Concurrent.SingleCv.Monitor

/-!
# Deadlocks with one condition variable

The program can stop forever as soon as it has twice as many consumers as places in
the buffer, and only then.
-/

namespace OsLabs.Concurrent.SingleCv

open OsLabs.Transition OsLabs.Threads
open OsLabs.Concurrent.TwoCvs (FillLoc ConsumerLoc fillHolds fillSleeping fillAwake filling
  fillSignalling)

variable {consumers : ℕ} {max loops : ℕ} {s s' : State consumers} {i : Fin consumers}

/-! ## Few consumers -/

theorem lock_none {α : Type} {m : Shared} {f : Shared → α} (h : m.lock.map f = none) :
    m.locked = true := by
  rw [Option.map_eq_none_iff, Shared.lock] at h
  split at h
  · assumption
  · cases h

theorem Stuck.producer (h : Stuck max loops s) : s.producer = .unborn ∨ s.producer = .finished ∨
    ∃ marks k loc, s.producer = .body marks k loc ∧
      ((loc = .lock ∨ loc = .woken) ∧ s.shared.locked = true ∨ loc = .asleep) := by
  have hnone : stepProducer max loops s = none := (h .producer).1
  rw [stepProducer] at hnone
  cases hp : s.producer with
  | unborn => exact Or.inl rfl
  | finished => exact Or.inr (Or.inl rfl)
  | next marks k =>
      cases marks with
      | false => simp only [hp, reduceCtorEq] at hnone
      | true => simp only [hp, reduceCtorEq] at hnone
  | body marks k loc =>
      simp only [hp] at hnone
      refine Or.inr (Or.inr ⟨marks, k, loc, rfl, ?_⟩)
      cases loc with
      | lock => exact Or.inl ⟨Or.inl rfl, lock_none hnone⟩
      | woken => exact Or.inl ⟨Or.inr rfl, lock_none hnone⟩
      | asleep => exact Or.inr rfl
      | signal =>
          rw [stepBody] at hnone
          split at hnone
          · next hsleeps =>
              rcases of_decide_eq_true hsleeps with ⟨i, hi⟩
              have hsignal : ((s.wake (.consumer i)).bind fun s' => s'.signalled .producer) =
                  none := (h .producer).2 (.consumer i)
              simp only [State.wake, hi, Option.bind_some, State.signalled, State.goto, hp,
                reduceCtorEq] at hsignal
          · cases hnone
      | test | fill | unlock =>
          rw [stepBody] at hnone
          cases hnone

variable (max loops) in
/-- A consumer that signals can wake somebody whenever somebody sleeps. -/
theorem exists_signal {tmp : ℤ} (hpc : s.consumer i = .signal tmp)
    (hsleeps : (s.producer.asleep || s.consumerSleeps) = true) :
    ∃ u s', step max loops s (.signal (.consumer i) u) = some s' := by
  rcases (Bool.or_eq_true_iff ..).mp hsleeps with hasleep | hasleep
  · cases hp : s.producer with
    | body marks k loc =>
        rw [hp] at hasleep
        cases loc with
        | asleep =>
            refine ⟨.producer, { s with producer := .body marks k .woken }.goto s.shared i
              (.unlock tmp), ?_⟩
            simp only [step, State.wake, hp, Option.bind_some, State.signalled, hpc]
        | _ => cases hasleep
    | _ =>
        rw [hp] at hasleep
        cases hasleep
  · rcases of_decide_eq_true hasleep with ⟨j, hj⟩
    have hne : i ≠ j := by
      rintro rfl
      rw [hpc] at hj
      cases hj
    have hpc' : (s.goto s.shared j .woken).consumer i = .signal tmp :=
      (Function.update_of_ne hne ..).trans hpc
    refine ⟨.consumer j, (s.goto s.shared j .woken).goto s.shared i (.unlock tmp), ?_⟩
    simp only [step, State.wake, hj, Option.bind_some, State.signalled, hpc']
    rfl

theorem Stuck.consumer (h : Stuck max loops s) (i : Fin consumers) : s.consumer i = .unborn ∨
    s.consumer i = .finished ∨ s.consumer i = .asleep ∨
      (s.consumer i = .lock ∨ s.consumer i = .woken) ∧ s.shared.locked = true := by
  have hnone : stepConsumer max s i = none := (h (.consumer i)).1
  rw [stepConsumer] at hnone
  cases hpc : s.consumer i with
  | unborn => exact Or.inl rfl
  | finished => exact Or.inr (Or.inl rfl)
  | asleep => exact Or.inr (Or.inr (Or.inl rfl))
  | lock =>
      simp only [hpc] at hnone
      exact Or.inr (Or.inr (Or.inr ⟨Or.inl rfl, lock_none hnone⟩))
  | woken =>
      simp only [hpc] at hnone
      exact Or.inr (Or.inr (Or.inr ⟨Or.inr rfl, lock_none hnone⟩))
  | signal tmp =>
      simp only [hpc] at hnone
      split at hnone
      · next hsleeps =>
          rcases exists_signal max loops hpc hsleeps with ⟨u, s', hsignal⟩
          rw [(h (.consumer i)).2 u] at hsignal
          cases hsignal
      · cases hnone
  | next tmp | test | get | unlock tmp =>
      simp only [hpc, reduceCtorEq] at hnone

/-- Where all threads are: whoever waits is asleep, as the holder of the mutex could step. -/
theorem Good.asleep (h : Good max loops s) (hstuck : Stuck max loops s) :
    (s.producer = .unborn ∨ s.producer = .finished ∨
      ∃ marks k, s.producer = .body marks k .asleep) ∧
    ∀ i, s.consumer i = .unborn ∨ s.consumer i = .finished ∨ s.consumer i = .asleep := by
  rcases h.inv with ⟨taken, hinv⟩
  have hfree : s.shared.locked ≠ true := by
    intro hlocked
    have hmutex := hinv.mutex
    have hproducer : fillHolds s.producer.place = 0 := by
      rcases hstuck.producer with hp | hp | ⟨marks, k, loc, hp, ⟨hloc, -⟩ | hloc⟩
      · rw [hp]
        rfl
      · rw [hp]
        rfl
      · rcases hloc with rfl | rfl <;> rw [hp] <;> rfl
      · rw [hp, hloc]
        rfl
    have hconsumers : total s.consumer ConsumerLoc.holds = 0 := by
      refine total_eq_zero_iff.mpr fun i => ?_
      rcases hstuck.consumer i with hpc | hpc | hpc | ⟨hpc | hpc, -⟩ <;> rw [hpc] <;> rfl
    rw [hlocked, hproducer, hconsumers] at hmutex
    cases hmutex
  refine ⟨?_, fun i => ?_⟩
  · rcases hstuck.producer with hp | hp | ⟨marks, k, loc, hp, ⟨-, hlocked⟩ | rfl⟩
    · exact Or.inl hp
    · exact Or.inr (Or.inl hp)
    · exact absurd hlocked hfree
    · exact Or.inr (Or.inr ⟨marks, k, hp⟩)
  · rcases hstuck.consumer i with hpc | hpc | hpc | ⟨-, hlocked⟩
    · exact Or.inl hpc
    · exact Or.inr (Or.inl hpc)
    · exact Or.inr (Or.inr hpc)
    · exact absurd hlocked hfree

/-- When all consumers sleep or have got their end mark. -/
theorem asleep_add_ended (hconsumer : ∀ i, s.consumer i = .finished ∨ s.consumer i = .asleep) :
    total s.consumer ConsumerLoc.sleeping + total s.consumer ended = consumers := by
  have hone (i : Fin consumers) : (s.consumer i).sleeping + ended (s.consumer i) = 1 := by
    rcases hconsumer i with hpc | hpc
    · rw [hpc]
      rfl
    · rw [hpc]
      rfl
  have hsum : total s.consumer ConsumerLoc.sleeping + total s.consumer ended =
      ∑ i, ((s.consumer i).sleeping + ended (s.consumer i)) := Finset.sum_add_distrib.symm
  rw [hsum, Finset.sum_congr rfl fun i _ => hone i]
  simp

theorem main_stuck (h : Stuck max loops s) (hmain : s.main ≠ .done) :
    (s.main = .joinProducer ∧ s.producer ≠ .finished) ∨
      ∃ k, ∃ hk : k < consumers, s.main = .joinConsumer k ∧ s.consumer ⟨k, hk⟩ ≠ .finished := by
  have hnone : stepMain s = none := (h .main).1
  rw [stepMain] at hnone
  cases heq : s.main with
  | createProducer => simp only [heq, reduceCtorEq] at hnone
  | createConsumer k => simp only [heq, reduceCtorEq] at hnone
  | joinProducer =>
      simp only [heq, ite_eq_right_iff, reduceCtorEq, imp_false] at hnone
      exact Or.inl ⟨rfl, hnone⟩
  | joinConsumer k =>
      simp only [heq] at hnone
      split at hnone
      · next hk =>
          rw [ite_eq_right_iff] at hnone
          exact Or.inr ⟨k, hk, rfl, fun hfinished => Option.some_ne_none _ (hnone hfinished)⟩
      · cases hnone
  | done => exact absurd heq hmain

theorem Good.not_stuck (h : Good max loops s) (hmain : s.main ≠ .done)
    (hconsumers : 0 < consumers) : ¬ Stuck max loops s := by
  intro hstuck
  rcases h.inv with ⟨taken, hinv⟩
  rcases h.asleep hstuck with ⟨hproducer, hconsumer⟩
  have hcreated := h.created
  have hborn : s.producer ≠ .unborn ∧ ∀ i, s.consumer i ≠ .unborn := by
    rcases main_stuck hstuck hmain with ⟨heq, -⟩ | ⟨k, hk, heq, -⟩
    · rw [heq] at hcreated
      exact hcreated
    · rw [heq] at hcreated
      exact ⟨by rw [hcreated.1]; exact ProducerLoc.noConfusion, hcreated.2⟩
  have hall := asleep_add_ended fun i => (hconsumer i).resolve_left (hborn.2 i)
  have hsignalling : total s.consumer ConsumerLoc.signalling = 0 := by
    refine total_eq_zero_iff.mpr fun i => ?_
    rcases hconsumer i with hpc | hpc | hpc <;> rw [hpc] <;> rfl
  have hcount := hinv.count
  have hnonneg := hinv.nonneg
  have hends := hinv.ends
  have hbalanced := hinv.balanced
  rcases hproducer with hp | hp | ⟨marks, k, hp⟩
  · exact hborn.1 hp
  · -- every mark has been filled in, and somebody has not got one
    have hanswered := hbalanced.answered
    have hasleep : 0 < total s.consumer ConsumerLoc.sleeping := by
      rcases main_stuck hstuck hmain with ⟨-, hne⟩ | ⟨k, hk, -, hne⟩
      · exact absurd hp hne
      · have hpc := ((hconsumer ⟨k, hk⟩).resolve_left (hborn.2 _)).resolve_left hne
        have hle := le_total s.consumer ConsumerLoc.sleeping ⟨k, hk⟩
        rw [hpc] at hle
        exact hle
    rw [hp] at hcount hanswered
    change 0 < total s.consumer ConsumerLoc.sleeping → 0 < s.shared.num_full.toNat →
      total s.consumer ConsumerLoc.sleeping + total s.consumer ended < consumers ∨ 0 < 0 ∨
        0 < total s.consumer ConsumerLoc.signalling ∨ 0 < 0 ∧ _ at hanswered
    change s.shared.num_full + taken = (loops + consumers : ℕ) at hcount
    omega
  · have hanswered := hbalanced.answered
    have hcovered := hbalanced.covered
    have hin := hinv.inLoop
    rw [hp] at hcount hanswered hcovered hin
    change 0 < total s.consumer ConsumerLoc.sleeping → 0 < s.shared.num_full.toNat →
      total s.consumer ConsumerLoc.sleeping + total s.consumer ended < consumers ∨ 0 < 0 ∨
        0 < total s.consumer ConsumerLoc.signalling ∨ 0 < 0 ∧ _ at hanswered
    change 0 < 1 → total s.consumer ConsumerLoc.sleeping + 1 ≤
      s.shared.num_full.toNat + total s.consumer ConsumerLoc.signalling at hcovered
    -- the producer is not at the end
    have hfilled : (ProducerLoc.body marks k .asleep).filled loops consumers <
        loops + consumers := by
      cases marks with
      | false =>
          change 0 + k + 0 < loops + consumers
          have hlt : k < loops := hin
          omega
      | true =>
          change loops + k + 0 < loops + consumers
          have hlt : k < consumers := hin
          omega
    omega

/-! ## Many consumers -/

abbrev Leads (max loops : ℕ) (s s' : State consumers) : Prop :=
  Reach (step max loops) anyStep s s'

theorem Leads.one (x : Act consumers) (hstep : step max loops s x = some s') :
    Leads max loops s s' :=
  Reach.refl.tail x trivial hstep

theorem goto_goto {m m' : Shared} {c d : ConsumerLoc} :
    (s.goto m i c).goto m' i d = s.goto m' i d :=
  congrArg (State.mk m' s.main s.producer) (Function.update_idem ..)

theorem goto_self : s.goto s.shared i (s.consumer i) = s :=
  congrArg (State.mk s.shared s.main s.producer) (Function.update_eq_self ..)

/-- A consumer locks the mutex, finds nothing and sleeps. -/
theorem consumer_sleeps (hfree : s.shared.locked = false) (hempty : s.shared.num_full = 0)
    (hpc : s.consumer i = .lock ∨ s.consumer i = .woken) :
    Leads max loops s (s.goto s.shared i .asleep) := by
  have hlock : s.shared.lock = some { s.shared with locked := true } :=
    if_neg (ne_true_of_eq_false hfree)
  have hlocks : Leads max loops s (s.goto { s.shared with locked := true } i .test) := by
    refine .one (.run (.consumer i)) ?_
    rcases hpc with hpc | hpc <;> simp only [step, stepConsumer, hpc, hlock, Option.map_some]
  have hsame : { s.shared with locked := false } = s.shared := by
    rw [← hfree]
  refine hlocks.trans (Leads.one (.run (.consumer i)) ?_)
  have htest : (s.goto { s.shared with locked := true } i .test).consumer i = .test :=
    Function.update_self ..
  simp only [step, stepConsumer, htest]
  refine congrArg some ((if_pos hempty).trans ?_)
  refine goto_goto.trans ?_
  exact congrArg (s.goto · i .asleep) hsame

/-- Where a consumer comes to rest when the buffer is empty. -/
def rest : ConsumerLoc → ConsumerLoc
  | .next tmp => if tmp ≠ marker then .asleep else .finished
  | .finished => .finished
  | _ => .asleep

/-- Not in the middle of the body. -/
def Ready : ConsumerLoc → Prop
  | .next _ | .woken | .asleep | .finished => True
  | _ => False

theorem rests (hfree : s.shared.locked = false) (hempty : s.shared.num_full = 0)
    (hready : Ready (s.consumer i)) :
    Leads max loops s (s.goto s.shared i (rest (s.consumer i))) := by
  cases hpc : s.consumer i with
  | next tmp =>
      have hstarts : Leads max loops s
          (s.goto s.shared i (if tmp ≠ marker then .lock else .finished)) := by
        refine .one (.run (.consumer i)) ?_
        simp only [step, stepConsumer, hpc]
      by_cases hgoes : tmp ≠ marker
      · rw [if_pos hgoes] at hstarts
        rw [rest, if_pos hgoes]
        have hlocks : (s.goto s.shared i .lock).consumer i = .lock := Function.update_self ..
        have hsleeps : Leads max loops (s.goto s.shared i .lock)
            ((s.goto s.shared i .lock).goto s.shared i .asleep) :=
          consumer_sleeps hfree hempty (Or.inl hlocks)
        rw [goto_goto] at hsleeps
        exact hstarts.trans hsleeps
      · rw [if_neg hgoes] at hstarts
        rwa [rest, if_neg hgoes]
  | woken => exact consumer_sleeps hfree hempty (Or.inr hpc)
  | asleep =>
      have hsame : s.goto s.shared i .asleep = s := hpc ▸ goto_self
      change Leads max loops s (s.goto s.shared i .asleep)
      rw [hsame]
      exact .refl
  | finished =>
      have hsame : s.goto s.shared i .finished = s := hpc ▸ goto_self
      change Leads max loops s (s.goto s.shared i .finished)
      rw [hsame]
      exact .refl
  | _ =>
      rw [hpc] at hready
      exact hready.elim

theorem rest_all (hfree : s.shared.locked = false) (hempty : s.shared.num_full = 0)
    (hready : ∀ i, Ready (s.consumer i)) :
    Leads max loops s { s with consumer := fun i => rest (s.consumer i) } := by
  have hsome (n : ℕ) (hn : n ≤ consumers) : Leads max loops s { s with
      consumer := fun i => if i < n then rest (s.consumer i) else s.consumer i } := by
    induction n with
    | zero =>
        have hsame : (fun i : Fin consumers =>
            if (i : ℕ) < 0 then rest (s.consumer i) else s.consumer i) = s.consumer :=
          funext fun i => if_neg (Nat.not_lt_zero i)
        rw [hsame]
        exact .refl
    | succ n ih =>
        refine (ih (by omega)).trans ?_
        set s₁ : State consumers := { s with
          consumer := fun i => if i < n then rest (s.consumer i) else s.consumer i } with hs₁
        have hself : s₁.consumer ⟨n, hn⟩ = s.consumer ⟨n, hn⟩ := if_neg (lt_irrefl n)
        have hrests : Leads max loops s₁ (s₁.goto s₁.shared ⟨n, hn⟩ (rest (s₁.consumer ⟨n, hn⟩))) :=
          rests hfree hempty (hself ▸ hready _)
        have hnext : s₁.goto s₁.shared ⟨n, hn⟩ (rest (s₁.consumer ⟨n, hn⟩)) = { s with
            consumer := fun i => if i < n + 1 then rest (s.consumer i) else s.consumer i } := by
          refine congrArg (State.mk s.shared s.main s.producer) (funext fun i => ?_)
          rw [Function.update_apply, hself]
          by_cases hi : i = ⟨n, hn⟩
          · rw [if_pos hi, hi, if_pos (Nat.lt_succ_self n)]
          · have hne : (i : ℕ) ≠ n := fun heq => hi (Fin.ext heq)
            rw [if_neg hi]
            by_cases hlt : (i : ℕ) < n
            · rw [if_pos (by omega)]
              exact if_pos hlt
            · rw [if_neg (by omega)]
              exact if_neg hlt
        exact hnext ▸ hrests
  have hall := hsome consumers le_rfl
  have hsame : (fun i : Fin consumers =>
      if (i : ℕ) < consumers then rest (s.consumer i) else s.consumer i) =
        fun i => rest (s.consumer i) := funext fun i => if_pos i.isLt
  rwa [hsame] at hall

/-! ## A deadlock -/

variable (max loops consumers) in
theorem exists_created : ∃ s : State consumers, Leads max loops initial s ∧
    s.main = .joinProducer ∧ s.shared = (initial : State consumers).shared ∧
    s.producer = .next false 0 ∧ ∀ i, s.consumer i = .next 0 := by
  have hsome (n : ℕ) (hn : n ≤ consumers) : ∃ s : State consumers, Leads max loops initial s ∧
      s.main = .createConsumer n ∧ s.shared = (initial : State consumers).shared ∧
      s.producer = .next false 0 ∧ ∀ i : Fin consumers, (i : ℕ) < n → s.consumer i = .next 0 := by
    induction n with
    | zero =>
        exact ⟨_, Leads.one (.run .main) rfl, rfl, rfl, rfl,
          fun i hi => absurd hi (Nat.not_lt_zero i)⟩
    | succ n ih =>
        rcases ih (by omega) with ⟨s, hs, hmain, hshared, hp, hpc⟩
        refine ⟨{ s with
          consumer := Function.update s.consumer ⟨n, hn⟩ (.next 0)
          main := .createConsumer (n + 1) }, hs.trans (Leads.one (.run .main) ?_), rfl, hshared,
            hp, fun i hi => ?_⟩
        · simp only [step, stepMain, hmain, dif_pos (show n < consumers from hn)]
        · change Function.update s.consumer ⟨n, hn⟩ (.next 0) i = _
          rw [Function.update_apply]
          split
          case isTrue => rfl
          case isFalse hne =>
            have hother : (i : ℕ) ≠ n := fun heq => hne (Fin.ext heq)
            exact hpc i (by omega)
  rcases hsome consumers le_rfl with ⟨s, hs, hmain, hshared, hp, hpc⟩
  refine ⟨{ s with main := .joinProducer }, hs.trans (Leads.one (.run .main) ?_), rfl, hshared, hp,
    fun i => hpc i i.isLt⟩
  simp only [step, stepMain, hmain, dif_neg (lt_irrefl consumers)]

/-- The producer after `n` values. -/
def lockAt (loops n : ℕ) : ProducerLoc :=
  if n < loops then .body false n .lock else .body true (n - loops) .lock

/-- The producer goes on to the next value. -/
theorem goes_on {n : ℕ} (hn : n < loops + consumers) {marks : Bool} {k : ℕ}
    (hp : s.producer = .next marks k)
    (hk : marks = false ∧ k = n ∧ n ≤ loops ∨ marks = true ∧ k + loops = n) :
    Leads max loops s { s with producer := lockAt loops n } := by
  rcases hk with ⟨rfl, rfl, hle⟩ | ⟨rfl, rfl⟩
  · by_cases hlt : k < loops
    · refine Leads.one (.run .producer) ?_
      simp only [step, stepProducer, hp, lockAt, if_pos hlt]
    · have hends : Leads max loops s { s with producer := .next true 0 } := by
        refine Leads.one (.run .producer) ?_
        simp only [step, stepProducer, hp, if_neg hlt]
      refine hends.trans (Leads.one (.run .producer) ?_)
      have hfirst : k - loops = 0 := by omega
      simp only [step, stepProducer, lockAt, if_neg hlt, hfirst]
      rw [if_pos (by omega)]
  · refine Leads.one (.run .producer) ?_
    have hge : ¬ k + loops < loops := by omega
    simp only [step, stepProducer, hp, lockAt, if_neg hge, Nat.add_sub_cancel]
    rw [if_pos (by omega)]

/-- The producer fills in a value, and wakes a consumer. -/
theorem exists_filled {marks : Bool} {k : ℕ} (hp : s.producer = .body marks k .lock)
    (hfree : s.shared.locked = false) (hroom : s.shared.num_full ≠ max)
    (hpc : s.consumer i = .asleep) :
    ∃ s', Leads max loops s s' ∧ s'.main = s.main ∧ s'.shared.locked = false ∧
      s'.shared.num_full = s.shared.num_full + 1 ∧ s'.producer = .next marks (k + 1) ∧
      s'.consumer = Function.update s.consumer i .woken := by
  have hlock : s.shared.lock = some { s.shared with locked := true } :=
    if_neg (ne_true_of_eq_false hfree)
  let filled : Shared := do_fill max { s.shared with locked := true } (if marks then marker else k)
  refine ⟨⟨filled.unlock, s.main, .next marks (k + 1), Function.update s.consumer i .woken⟩,
    reach_of_run_anyStep [.run .producer, .run .producer, .run .producer,
      .signal .producer (.consumer i), .run .producer] ?_, rfl, rfl, rfl, rfl, rfl⟩
  simp only [run_cons, run_nil, step, stepProducer, hp, stepBody, hlock, Option.map_some,
    Option.bind_some, if_neg hroom, State.wake, hpc, State.signalled, State.goto]
  rfl

variable (max loops) in
/-- A consumer that has been woken gets a value, and wakes another one. -/
theorem exists_got {j : Fin consumers} (hpc : s.consumer i = .woken) (hj : s.consumer j = .asleep)
    (hfree : s.shared.locked = false) (hfull : s.shared.num_full ≠ 0) :
    ∃ s' tmp, Leads max loops s s' ∧ s'.main = s.main ∧ s'.shared.locked = false ∧
      s'.shared.num_full = s.shared.num_full - 1 ∧ s'.producer = s.producer ∧
      s'.consumer = Function.update (Function.update s.consumer j .woken) i (.next tmp) := by
  have hlock : s.shared.lock = some { s.shared with locked := true } :=
    if_neg (ne_true_of_eq_false hfree)
  have hne : j ≠ i := by
    rintro rfl
    rw [hpc] at hj
    cases hj
  let locked : Shared := { s.shared with locked := true }
  let got : Shared × ℤ := do_get max locked
  have hself (m : Shared) (c : ConsumerLoc) : (s.goto m i c).consumer i = c :=
    Function.update_self ..
  have hlocks : Leads max loops s (s.goto locked i .test) := by
    refine Leads.one (.run (.consumer i)) ?_
    simp only [step, stepConsumer, hpc, hlock, Option.map_some]
    rfl
  have htests : Leads max loops (s.goto locked i .test) (s.goto locked i .get) := by
    refine Leads.one (.run (.consumer i)) ?_
    simp only [step, stepConsumer, hself]
    exact congrArg some ((if_neg hfull).trans goto_goto)
  have hgets : Leads max loops (s.goto locked i .get) (s.goto got.1 i (.signal got.2)) := by
    refine Leads.one (.run (.consumer i)) ?_
    simp only [step, stepConsumer, hself]
    exact congrArg some goto_goto
  let woken : State consumers := (s.goto got.1 i (.signal got.2)).goto got.1 j .woken
  have hwoken : woken.consumer i = .signal got.2 :=
    (Function.update_of_ne hne.symm ..).trans (hself ..)
  have hsignals : Leads max loops (s.goto got.1 i (.signal got.2))
      (woken.goto got.1 i (.unlock got.2)) := by
    refine Leads.one (.signal (.consumer i) (.consumer j)) ?_
    have hasleep : (s.goto got.1 i (.signal got.2)).consumer j = .asleep :=
      (Function.update_of_ne hne ..).trans hj
    have hwakes : (s.goto got.1 i (.signal got.2)).wake (.consumer j) = some woken := by
      simp only [State.wake, hasleep]
      rfl
    simp only [step, hwakes, Option.bind_some, State.signalled, hwoken]
    rfl
  have hunlocks : Leads max loops (woken.goto got.1 i (.unlock got.2))
      (woken.goto got.1.unlock i (.next got.2)) := by
    refine Leads.one (.run (.consumer i)) ?_
    have hunlock : (woken.goto got.1 i (.unlock got.2)).consumer i = .unlock got.2 :=
      Function.update_self ..
    simp only [step, stepConsumer, hunlock]
    exact congrArg some goto_goto
  refine ⟨_, got.2, hlocks.trans (htests.trans (hgets.trans (hsignals.trans hunlocks))), rfl, rfl,
    rfl, rfl, ?_⟩
  change Function.update (Function.update (Function.update s.consumer i _) j .woken) i _ = _
  rw [Function.update_comm hne.symm, Function.update_idem]

variable (loops) in
/-- The consumers have all gone to sleep, and the producer has woken as many as it has values
filled in. -/
theorem exists_full (hmany : 2 * max ≤ consumers) (n : ℕ) (hn : n ≤ max) (hmax : 0 < max) :
    ∃ s : State consumers, Leads max loops initial s ∧ s.main = .joinProducer ∧
      s.shared.locked = false ∧ s.shared.num_full = n ∧ s.producer = lockAt loops n ∧
      ∀ i : Fin consumers, s.consumer i = if (i : ℕ) < n then .woken else .asleep := by
  induction n with
  | zero =>
      rcases exists_created consumers max loops with
        ⟨s, hs, hmain, hshared, hp, hpc⟩
      have hfree : s.shared.locked = false := by rw [hshared]; rfl
      have hempty : s.shared.num_full = 0 := by rw [hshared]; rfl
      have hrests : Leads max loops s { s with consumer := fun i => rest (s.consumer i) } :=
        rest_all hfree hempty fun i => by rw [hpc i]; trivial
      have hstarts : Leads max loops { s with consumer := fun i => rest (s.consumer i) }
          { s with consumer := fun i => rest (s.consumer i), producer := lockAt loops 0 } :=
        goes_on (by omega) hp (Or.inl ⟨rfl, rfl, Nat.zero_le _⟩)
      refine ⟨_, hs.trans (hrests.trans hstarts), hmain, hfree, hempty, rfl, fun i => ?_⟩
      change rest (s.consumer i) = _
      rw [hpc i]
      rfl
  | succ n ih =>
      rcases ih (by omega) with ⟨s, hs, hmain, hfree, hfull, hp, hpc⟩
      have hroom : s.shared.num_full ≠ max := by omega
      have hasleep : s.consumer ⟨n, by omega⟩ = .asleep := (hpc _).trans (if_neg (lt_irrefl n))
      have hfills {marks : Bool} {k : ℕ} (hlock : s.producer = .body marks k .lock)
          (hk : marks = false ∧ k + 1 = n + 1 ∧ n + 1 ≤ loops ∨
            marks = true ∧ k + 1 + loops = n + 1) :
          ∃ s : State consumers, Leads max loops initial s ∧ s.main = .joinProducer ∧
            s.shared.locked = false ∧ s.shared.num_full = (n + 1 : ℕ) ∧
            s.producer = lockAt loops (n + 1) ∧
            ∀ i : Fin consumers, s.consumer i = if (i : ℕ) < n + 1 then .woken else .asleep := by
        rcases exists_filled hlock hfree hroom hasleep with
          ⟨s', hs', hmain', hfree', hfull', hp', hpc'⟩
        refine ⟨_, hs.trans (hs'.trans (goes_on (by omega) hp' hk)), hmain'.trans hmain, hfree', ?_,
          rfl, fun i => ?_⟩
        · rw [hfull', hfull]
          rfl
        · change s'.consumer i = _
          rw [hpc', Function.update_apply]
          by_cases hi : i = ⟨n, by omega⟩
          · rw [if_pos hi, hi, if_pos (Nat.lt_succ_self n)]
          · have hne : (i : ℕ) ≠ n := fun heq => hi (Fin.ext heq)
            rw [if_neg hi, hpc i]
            by_cases hlt : (i : ℕ) < n
            · rw [if_pos hlt, if_pos (by omega)]
            · rw [if_neg hlt, if_neg (by omega)]
      by_cases hlt : n < loops
      · rw [lockAt, if_pos hlt] at hp
        exact hfills hp (Or.inl ⟨rfl, rfl, hlt⟩)
      · rw [lockAt, if_neg hlt] at hp
        exact hfills hp (Or.inr ⟨rfl, by omega⟩)

variable (loops) in
/-- The producer sleeps as well. -/
theorem exists_producer_asleep (hmany : 2 * max ≤ consumers) (hmax : 0 < max) :
    ∃ s : State consumers, Leads max loops initial s ∧ s.main = .joinProducer ∧
      s.shared.locked = false ∧ s.shared.num_full = max ∧ s.producer.asleep = true ∧
      ∀ i : Fin consumers, s.consumer i = if (i : ℕ) < max then .woken else .asleep := by
  rcases exists_full loops hmany max le_rfl hmax with
    ⟨s, hs, hmain, hfree, hfull, hp, hpc⟩
  have hlock : s.shared.lock = some { s.shared with locked := true } :=
    if_neg (ne_true_of_eq_false hfree)
  have hsleeps {marks : Bool} {k : ℕ} (hp : s.producer = .body marks k .lock) :
      Leads max loops s { s with
        shared := { s.shared with locked := false }
        producer := .body marks k .asleep } := by
    refine reach_of_run_anyStep [.run .producer, .run .producer] ?_
    simp only [run_cons, run_nil, step, stepProducer, hp, stepBody, hlock, Option.map_some,
      Option.bind_some, if_pos hfull]
    rfl
  rw [lockAt] at hp
  split at hp
  · exact ⟨_, hs.trans (hsleeps hp), hmain, rfl, hfull, rfl, hpc⟩
  · exact ⟨_, hs.trans (hsleeps hp), hmain, rfl, hfull, rfl, hpc⟩

variable (loops) in
/-- Each consumer that has been woken gets a value, and wakes a consumer instead of the producer. -/
theorem exists_taken (hmany : 2 * max ≤ consumers) (hmax : 0 < max) (n : ℕ) (hn : n ≤ max) :
    ∃ s : State consumers, Leads max loops initial s ∧ s.main = .joinProducer ∧
      s.shared.locked = false ∧ s.shared.num_full = max - n ∧ s.producer.asleep = true ∧
      ∀ i : Fin consumers, if (i : ℕ) < n then ∃ tmp, s.consumer i = .next tmp
        else s.consumer i = if (i : ℕ) < max + n then .woken else .asleep := by
  induction n with
  | zero =>
      rcases exists_producer_asleep loops hmany hmax with
        ⟨s, hs, hmain, hfree, hfull, hp, hpc⟩
      refine ⟨s, hs, hmain, hfree, hfull.trans (sub_zero _).symm, hp, fun i => ?_⟩
      rw [if_neg (Nat.not_lt_zero _)]
      exact hpc i
  | succ n ih =>
      rcases ih (by omega) with ⟨s, hs, hmain, hfree, hfull, hp, hpc⟩
      have hwoken : s.consumer ⟨n, by omega⟩ = .woken := by
        have hself := hpc ⟨n, by omega⟩
        rwa [if_neg (lt_irrefl n), if_pos (by dsimp only; omega)] at hself
      have hasleep : s.consumer ⟨max + n, by omega⟩ = .asleep := by
        have hself := hpc ⟨max + n, by omega⟩
        rwa [if_neg (by dsimp only; omega), if_neg (lt_irrefl (max + n))] at hself
      rcases exists_got max loops hwoken hasleep hfree (by omega) with
        ⟨s', tmp, hs', hmain', hfree', hfull', hp', hpc'⟩
      refine ⟨s', hs.trans hs', hmain'.trans hmain, hfree', ?_, by rw [hp', hp], fun i => ?_⟩
      · rw [hfull', hfull]
        push_cast
        ring
      · have hbefore := hpc i
        rw [hpc', Function.update_apply, Function.update_apply]
        by_cases hself : i = ⟨n, by omega⟩
        · rw [if_pos hself, hself, if_pos (Nat.lt_succ_self n)]
          exact ⟨tmp, rfl⟩
        · have hne : (i : ℕ) ≠ n := fun heq => hself (Fin.ext heq)
          rw [if_neg hself]
          by_cases hother : i = ⟨max + n, by omega⟩
          · rw [if_pos hother, hother, if_neg (by dsimp only; omega), if_pos (by dsimp only; omega)]
          · have hne' : (i : ℕ) ≠ max + n := fun heq => hother (Fin.ext heq)
            rw [if_neg hother]
            by_cases hlt : (i : ℕ) < n
            · rw [if_pos hlt] at hbefore
              rwa [if_pos (by omega)]
            · rw [if_neg hlt] at hbefore
              rw [if_neg (by omega), hbefore]
              by_cases hlt' : (i : ℕ) < max + n
              · rw [if_pos hlt', if_pos (by omega)]
              · rw [if_neg hlt', if_neg (by omega)]

/-- A producer and consumers that all sleep, or have finished. -/
theorem stuck_of_asleep (hmain : s.main = .joinProducer) (hp : s.producer.asleep = true)
    (hpc : ∀ i, s.consumer i = .asleep ∨ s.consumer i = .finished) : Stuck max loops s := by
  have hproducer : ∃ marks k, s.producer = .body marks k .asleep := by
    cases heq : s.producer with
    | body marks k loc =>
        rw [heq] at hp
        cases loc with
        | asleep => exact ⟨marks, k, rfl⟩
        | _ => cases hp
    | _ =>
        rw [heq] at hp
        cases hp
  rcases hproducer with ⟨marks, k, heq⟩
  intro t
  have hsignals (u : Thread consumers) : step max loops s (.signal t u) = none := by
    refine Option.eq_none_iff_forall_ne_some.mpr fun s' hsignal => ?_
    rcases Option.bind_eq_some_iff.mp hsignal with ⟨s₁, hwake, hsignalled⟩
    rcases wake_cases hwake with ⟨marks', k', -, -, rfl⟩ | ⟨j, -, -, rfl⟩
    · rcases signalled_cases hsignalled with ⟨_, _, -, hnone, -⟩ | ⟨i, tmp, -, hnone, -⟩
      · cases hnone
      · rcases hpc i with hi | hi
        · exact absurd (hi.symm.trans hnone) ConsumerLoc.noConfusion
        · exact absurd (hi.symm.trans hnone) ConsumerLoc.noConfusion
    · rcases signalled_cases hsignalled with ⟨_, _, -, hnone, -⟩ | ⟨i, tmp, -, hnone, -⟩
      · exact absurd (heq.symm.trans hnone) (by simp)
      · have hnone : Function.update s.consumer j .woken i = .signal tmp := hnone
        rw [Function.update_apply] at hnone
        split at hnone
        · cases hnone
        · rcases hpc i with hi | hi
          · exact absurd (hi.symm.trans hnone) ConsumerLoc.noConfusion
          · exact absurd (hi.symm.trans hnone) ConsumerLoc.noConfusion
  refine ⟨?_, hsignals⟩
  cases t with
  | main =>
      simp only [step, stepMain, hmain, heq]
      exact if_neg ProducerLoc.noConfusion
  | producer => simp only [step, stepProducer, heq, stepBody]
  | consumer i =>
      rcases hpc i with hi | hi
      · simp only [step, stepConsumer, hi]
      · simp only [step, stepConsumer, hi]

/-- The program can stop forever if and only if there are at least twice as many consumers as
places in the buffer. -/
theorem single_cv_deadlock_iff (max loops consumers : ℕ) (hmax : 0 < max)
    (hconsumers : 0 < consumers) :
    (∃ s : State consumers, Reach (step max loops) anyStep initial s ∧ Deadlocked max loops s) ↔
      2 * max ≤ consumers := by
  constructor
  · rintro ⟨s, hs, hmain, hstuck⟩
    by_contra hfew
    exact (reach_good hmax (not_le.mp hfew) hs).not_stuck hmain hconsumers hstuck
  · intro hmany
    rcases exists_taken loops hmany hmax max le_rfl with
      ⟨s, hs, hmain, hfree, hempty, hp, hpc⟩
    rw [sub_self] at hempty
    have hready (i : Fin consumers) : Ready (s.consumer i) := by
      have hi := hpc i
      split at hi
      · rcases hi with ⟨tmp, hi⟩
        rw [hi]
        trivial
      · rw [hi]
        split <;> trivial
    refine ⟨_, hs.trans (rest_all hfree hempty hready), ?_, ?_⟩
    · rw [hmain]
      exact MainLoc.noConfusion
    · refine stuck_of_asleep hmain hp fun i => ?_
      change rest (s.consumer i) = _ ∨ rest (s.consumer i) = _
      cases s.consumer i with
      | next tmp =>
          rw [rest]
          split
          · exact Or.inl rfl
          · exact Or.inr rfl
      | finished => exact Or.inr rfl
      | _ => exact Or.inl rfl

/-- Two consumers are enough for a buffer with one place. -/
theorem single_cv_deadlock_iff_one : (∃ s : State 2,
    Reach (step 1 0) anyStep initial s ∧ Deadlocked 1 0 s) ∧
      ¬ ∃ s : State 1, Reach (step 1 0) anyStep initial s ∧ Deadlocked 1 0 s := by
  rw [single_cv_deadlock_iff 1 0 2 (by decide) (by decide),
    single_cv_deadlock_iff 1 0 1 (by decide) (by decide)]
  decide

end OsLabs.Concurrent.SingleCv
