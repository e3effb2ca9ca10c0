import OsLabs.X86.LoopingRace

/-!
# Races

What the threads of the looping race leave in the counter. The interrupts decide
whether it is what they have added.
-/

namespace OsLabs.X86

open OsLabs.SharedMemory OsLabs.Checked OsLabs.LostUpdate

variable {o : Options} {cpu : Cpu} {m m' : Memory} {b : ℤ} {n i : ℕ} {t : Counter ℕ}

/-! ## The threads -/

/-- What the counter has to do with the state of the simulator. -/
structure Racing (o : Options) (bx : ℕ → ℤ) (k : ℕ) (s : State) (t : Counter ℕ) : Prop where
  inv : Inv k o.memory s
  counter : CounterAt o s.memory t.value
  thread : ∀ i < k, s.isdone i = false →
    At o (bx i) (s.trace i).length (s.context i) (t.loaded i)
  finished : ∀ i < k, s.isdone i = true →
    (s.trace i).length = 6 * loops (bx i) + 1 ∧ t.loaded i = none
  outside : ∀ i, k ≤ i → t.loaded i = none ∧ t.stores i = 0
  stores : ∀ i < k, t.stores i = ((s.trace i).length + 3) / 6
  count : t.count = ∑ i ∈ Finset.range k, t.stores i
  bounded : Bounded t

variable {bx : ℕ → ℤ} {k : ℕ} {s s' : State} {t' : Counter ℕ}

theorem sum_update_one {f g : ℕ → ℕ} {x : ℕ} (hi : i < k) (hself : g i = f i + x)
    (hother : ∀ j, j ≠ i → g j = f j) :
    ∑ j ∈ Finset.range k, g j = ∑ j ∈ Finset.range k, f j + x := by
  have hg (j : ℕ) : g j = f j + if j = i then x else 0 := by
    split
    case isTrue hj => rw [hj, hself]
    case isFalse hj => rw [hother j hj, Nat.add_zero]
  simp only [hg, Finset.sum_add_distrib, Finset.sum_ite_eq', Finset.mem_range, if_pos hi]

/-- A step of the thread that runs. -/
structure Raced (o : Options) (bx : ℕ → ℤ) (k : ℕ) (s : State) (t : Counter ℕ) (draw : ℕ) (rc : Rc)
    (entry : Entry) (s' : State) (t' : Counter ℕ) : Prop where
  running : s.isdone s.procs.current = false
  execute : execute o s.cpu s.memory = .ok (rc, s'.memory, entry)
  step : X86.step o s draw = .ok s'
  stepped : Stepped s rc s'.memory entry s'
  racing : Racing o bx k s' t'
  moves : t.Moves s.procs.current t'
  yields : rc ≠ some (-2)
  halts : rc = some (-1) ↔ (s.trace s.procs.current).length = 6 * loops (bx s.procs.current)

theorem Racing.step (h : Racing o bx k s t) (ho : RunsRace o) (hdone : s.done = false)
    (draw : ℕ) : ∃ rc entry s' t', Raced o bx k s t draw rc entry s' t' := by
  have hrunning := h.inv.running hdone
  have hcurrent : s.procs.current < k := h.inv.getnum ▸ h.inv.scheduled.current_lt
  have hat := h.thread _ hcurrent hrunning
  rw [State.context, if_pos rfl] at hat
  rcases hat.executes ho h.counter with ⟨rc, m', entry, t', hexecute, hexec⟩
  rcases (step_stepped h.inv.scheduled hrunning hexecute draw).exists_ok (fun _ => id) with
    ⟨s', hstep, hs'⟩
  have hmemory := hs'.memory
  rw [← hmemory] at hexecute hs'
  refine ⟨rc, entry, s', t', hrunning, hexecute, hstep, hs', ?_, hexec.moves, hexec.yields,
    hexec.halts⟩
  · have hself : (s'.trace s.procs.current).length = (s.trace s.procs.current).length + 1 := by
      rw [hs'.trace, Function.update_self, List.length_append, List.length_singleton]
    have hother {j : ℕ} (hj : j ≠ s.procs.current) : s'.trace j = s.trace j := by
      rw [hs'.trace, Function.update_of_ne hj]
    refine ⟨(h.inv.step hdone hstep).1, hmemory ▸ hexec.counter, fun j hj hisdone => ?_,
      fun j hj hisdone => ?_, fun j hj => ?_, fun j hj => ?_, ?_, h.bounded.moves hexec.moves⟩
    · have hcontext := hs'.context j hisdone
      rw [hs'.isdone] at hisdone
      by_cases hjc : j = s.procs.current
      · rw [hjc] at hcontext hisdone ⊢
        rw [if_pos rfl] at hcontext
        have hgoes : rc ≠ some (-1) := by
          rintro rfl
          rw [if_pos ⟨rfl, rfl⟩] at hisdone
          cases hisdone
        rw [hcontext, hself]
        exact hexec.next (lt_of_le_of_ne hat.le fun heq => hgoes (hexec.halts.mpr heq))
      · rw [if_neg hjc] at hcontext
        rw [if_neg fun hc => hjc hc.1] at hisdone
        rw [hcontext, hother hjc, (hexec.moves.other hjc).1]
        exact h.thread j hj hisdone
    · rw [hs'.isdone] at hisdone
      by_cases hjc : j = s.procs.current
      · have hhalts : rc = some (-1) := by
          by_contra hgoes
          rw [if_neg fun hc => hgoes hc.2, hjc, hrunning] at hisdone
          cases hisdone
        have hend := hexec.halts.mp hhalts
        rw [hjc, hself, hend]
        exact ⟨rfl, hexec.left hend⟩
      · rw [if_neg fun hc => hjc hc.1] at hisdone
        rw [hother hjc, (hexec.moves.other hjc).1]
        exact h.finished j hj hisdone
    · have hjc : j ≠ s.procs.current := by omega
      rw [(hexec.moves.other hjc).1, (hexec.moves.other hjc).2]
      exact h.outside j hj
    · by_cases hjc : j = s.procs.current
      · rw [hjc, hself, hexec.stores, h.stores _ hcurrent]
        split <;> omega
      · rw [hother hjc, (hexec.moves.other hjc).2]
        exact h.stores j hj
    · rw [hexec.count, h.count]
      exact (sum_update_one hcurrent hexec.stores fun j hj => (hexec.moves.other hj).2).symm

/-! ## Whole runs -/

/-- How many instructions have been executed. -/
def steps (k : ℕ) (s : State) : ℕ := ∑ i ∈ Finset.range k, (s.trace i).length

/-- How many instructions there are to execute. -/
def total (bx : ℕ → ℤ) (k : ℕ) : ℕ := ∑ i ∈ Finset.range k, (6 * loops (bx i) + 1)

theorem Inv.isdone_of_done {m₀ : Memory} (h : Inv k m₀ s) (hdone : s.done = true) (hi : i < k) :
    s.isdone i = true := by
  have hlt := h.scheduled.current_lt
  have hall : s.procs.getnum - s.procs.active = s.procs.getnum := of_decide_eq_true hdone
  have hactive : s.procs.active = 0 := by omega
  have hnone := h.scheduled.active.symm.trans hactive
  rw [Finset.card_eq_zero, Finset.filter_eq_empty_iff] at hnone
  exact (Bool.not_eq_false _).mp (hnone (Finset.mem_range.mpr (h.getnum ▸ hi)))

theorem Racing.length_le (h : Racing o bx k s t) (hi : i < k) :
    (s.trace i).length ≤ 6 * loops (bx i) + 1 := by
  cases hisdone : s.isdone i with
  | false => exact (h.thread i hi hisdone).le.trans (Nat.le_succ _)
  | true => exact (h.finished i hi hisdone).1.le

theorem Racing.done_iff (h : Racing o bx k s t) : s.done = true ↔ steps k s = total bx k := by
  constructor
  · intro hdone
    refine Finset.sum_congr rfl fun i hi => ?_
    have hlt := Finset.mem_range.mp hi
    exact (h.finished i hlt (h.inv.isdone_of_done hdone hlt)).1
  · intro hsteps
    by_contra hnot
    have hdone := eq_false_of_ne_true hnot
    have hcurrent : s.procs.current < k := h.inv.getnum ▸ h.inv.scheduled.current_lt
    refine absurd hsteps (ne_of_lt (Finset.sum_lt_sum (fun i hi => ?_)
      ⟨s.procs.current, Finset.mem_range.mpr hcurrent, ?_⟩))
    · exact h.length_le (Finset.mem_range.mp hi)
    · exact Nat.lt_succ_of_le (h.thread _ hcurrent (h.inv.running hdone)).le

/-- What the counter has in the end. -/
theorem Racing.count_of_done (h : Racing o bx k s t) (hdone : s.done = true) :
    t.count = ∑ i ∈ Finset.range k, loops (bx i) ∧ (∀ i < k, t.stores i = loops (bx i)) ∧
      ∀ i, t.loaded i = none := by
  have hstores (i : ℕ) (hi : i < k) : t.stores i = loops (bx i) := by
    rw [h.stores i hi, (h.finished i hi (h.inv.isdone_of_done hdone hi)).1]
    omega
  refine ⟨h.count.trans (Finset.sum_congr rfl fun i hi => hstores i (Finset.mem_range.mp hi)),
    hstores, fun i => ?_⟩
  rcases lt_or_ge i k with hi | hi
  · exact (h.finished i hi (h.inv.isdone_of_done hdone hi)).2
  · exact (h.outside i hi).1

variable {s₀ : State} {t₀ : Counter ℕ} {draws : ℕ → ℕ} {τ : ℕ}

/-- No instruction fails, and what the steps keep holds all along. -/
theorem Racing.follow {P : State → Counter ℕ → Prop} (h : Racing o bx k s₀ t₀)
    (ho : RunsRace o) (hP : P s₀ t₀)
    (hkeeps : ∀ s t draw rc entry s' t', Racing o bx k s t → P s t →
      Raced o bx k s t draw rc entry s' t' → P s' t') (draws : ℕ → ℕ) (τ : ℕ) :
    ∃ s t, Checked.follow (X86.step o) State.done draws s₀ τ = .ok s ∧ Racing o bx k s t ∧
      P s t := by
  induction τ with
  | zero => exact ⟨s₀, t₀, rfl, h, hP⟩
  | succ τ ih =>
      rcases ih with ⟨s, t, hrun, hracing, hs⟩
      rw [follow_succ hrun]
      cases hdone : s.done with
      | true => exact ⟨s, t, rfl, hracing, hs⟩
      | false =>
          rcases hracing.step ho hdone (draws τ) with ⟨rc, entry, s', t', hraced⟩
          exact ⟨s', t', hraced.step, hraced.racing, hkeeps _ _ _ _ _ _ _ hracing hs hraced⟩

theorem Raced.steps_eq {draw : ℕ} {rc : Rc} {entry : Entry}
    (h : Raced o bx k s t draw rc entry s' t')
    (hcurrent : s.procs.current < k) : steps k s' = steps k s + 1 := by
  refine sum_update_one hcurrent ?_ fun j hj => ?_
  · rw [h.stepped.trace, Function.update_self, List.length_append, List.length_singleton]
  · rw [h.stepped.trace, Function.update_of_ne hj]

theorem Racing.steps_follow (h : Racing o bx k s₀ t₀) (ho : RunsRace o) (hsteps : steps k s₀ = 0)
    (hrun : Checked.follow (X86.step o) State.done draws s₀ τ = .ok s) :
    steps k s = min τ (total bx k) := by
  induction τ generalizing s with
  | zero => rw [← Except.ok.inj hrun, hsteps, Nat.zero_min]
  | succ τ ih =>
      rcases h.follow (P := fun _ _ => True) ho trivial (fun _ _ _ _ _ _ _ _ _ _ => trivial) draws τ
        with ⟨s₁, t₁, hrun₁, hracing, -⟩
      have hsteps₁ := ih hrun₁
      rw [follow_succ hrun₁] at hrun
      cases hdone : s₁.done with
      | true =>
          rw [hdone, if_pos rfl] at hrun
          have hall := hracing.done_iff.mp hdone
          rw [← Except.ok.inj hrun]
          omega
      | false =>
          have hleft : steps k s₁ ≠ total bx k := by
            intro hall
            rw [hracing.done_iff.mpr hall] at hdone
            cases hdone
          rcases hracing.step ho hdone (draws τ) with ⟨rc, entry, s', t', hraced⟩
          rw [hdone, if_neg Bool.false_ne_true, hraced.step] at hrun
          rw [← Except.ok.inj hrun,
            hraced.steps_eq (hracing.inv.getnum ▸ hracing.inv.scheduled.current_lt)]
          omega

/-! ## The start -/

/-- What a thread has in `bx` at the start. -/
def startBx (argv : List (List (Reg × ℤ))) (t : ℕ) : ℤ :=
  (threadArg argv t).foldl (fun b r => if r.1 = .bx then r.2 else b) 0

theorem foldl_bx (reginit : List (Reg × ℤ)) {regs : Reg → Value} {b : ℤ} (hb : regs .bx = .int b) :
    reginit.foldl (fun regs r => Function.update regs r.1 (.int r.2)) regs .bx =
      .int (reginit.foldl (fun b r => if r.1 = .bx then r.2 else b) b) := by
  induction reginit generalizing regs b with
  | nil => exact hb
  | cons r reginit ih =>
      refine ih ?_
      dsimp only
      rw [Function.update_apply]
      by_cases hr : r.1 = .bx
      · rw [if_pos hr.symm, if_pos hr]
      · rw [if_neg (Ne.symm hr), if_neg hr, hb]

theorem foldl_zero {reginit : List (Reg × ℤ)} (hinit : ∀ r ∈ reginit, r.1 ≠ .zero)
    {regs : Reg → Value} (hzero : regs .zero = .int 0) :
    reginit.foldl (fun regs r => Function.update regs r.1 (.int r.2)) regs .zero = .int 0 := by
  induction reginit generalizing regs with
  | nil => exact hzero
  | cons r reginit ih =>
      refine ih (fun r hr => hinit r (List.mem_cons_of_mem _ hr)) ?_
      dsimp only
      rw [Function.update_of_ne (hinit r List.mem_cons_self).symm, hzero]

theorem loops_pos (b : ℤ) : 0 < loops b := Nat.lt_of_lt_of_le Nat.one_pos (le_max_left _ _)

/-- The register `zero` is left as it is. -/
def KeepsZero (argv : List (List (Reg × ℤ))) : Prop :=
  ∀ i, ∀ r ∈ threadArg argv i, r.1 ≠ .zero

theorem at_start {argv : List (List (Reg × ℤ))} (hzero : KeepsZero argv) (i : ℕ) :
    At o (startBx argv i) 0 (thread o argv i).context none := by
  refine ⟨Nat.zero_le _, ?_, ?_, ?_, fun h => absurd h (by decide), fun h => absurd h (by decide),
    fun h => absurd h (by decide), fun _ _ => rfl⟩
  · rw [if_pos (Nat.mul_pos (by decide) (loops_pos _))]
    exact congrArg Value.int (add_zero o.loadaddr).symm
  · exact foldl_zero (hzero i) rfl
  · refine (foldl_bx (threadArg argv i) rfl).trans ?_
    exact congrArg Value.int (sub_zero _).symm

theorem racing_start {numthreads : ℕ} {argv : List (List (Reg × ℤ))} {procsched : Option (List ℕ)}
    {draw : ℕ} (ho : RunsRace o) (hzero : KeepsZero argv)
    (hstart : start o numthreads argv procsched draw = some s₀) :
    Racing o (startBx argv) numthreads s₀ Counter.zero ∧ steps numthreads s₀ = 0 := by
  rw [start] at hstart
  split at hstart
  case isFalse => cases hstart
  case isTrue =>
    rcases Option.map_eq_some_iff.mp hstart with ⟨procs, hfinalize, rfl⟩
    rcases scheduled_of_finalize (fun _ => rfl) rfl hfinalize with ⟨hscheduled, hplist, hgetnum⟩
    have hdone (i : ℕ) : (procs.plist i).done = false := by
      rw [hplist]
      rfl
    have hinv := inv_startWith (o := o) hscheduled hdone draw
    rw [hgetnum] at hinv
    refine ⟨⟨hinv, ⟨ho.counter, fun _ _ => rfl⟩, fun i _ _ => ?_,
      fun i _ hi => absurd ((hdone i).symm.trans hi) (by decide), fun _ _ => ⟨rfl, rfl⟩,
      fun i _ => ?_, Finset.sum_const_zero.symm, bounded_zero⟩, Finset.sum_const_zero⟩
    · rw [startWith_context, hplist]
      exact at_start hzero i
    · exact (Nat.div_eq_of_lt (show 0 + 3 < 6 by decide)).symm

/-- Whichever schedule and interrupts there are, the threads execute all that they have to, and
then have lost what they may have lost, but not everything. -/
theorem looping_race_bounds (ho : RunsRace o) (numthreads : ℕ) (argv : List (List (Reg × ℤ)))
    (hzero : KeepsZero argv) (procsched : Option (List ℕ)) (draw : ℕ) (s₀ : State)
    (hstart : start o numthreads argv procsched draw = some s₀) (draws : ℕ → ℕ) (τ : ℕ) :
    ∃ s, Checked.follow (X86.step o) State.done draws s₀ τ = .ok s ∧
      (s.done = true ↔ total (startBx argv) numthreads ≤ τ) ∧
      (s.done = true → ∃ v : ℕ, s.memory counterAddress = some (.int v) ∧ 1 ≤ v ∧
        v ≤ ∑ i ∈ Finset.range numthreads, loops (startBx argv i) ∧
        ((∀ i < numthreads, loops (startBx argv i) ≠ 1) → 2 ≤ v)) := by
  rcases racing_start ho hzero hstart with ⟨hracing₀, hsteps₀⟩
  rcases hracing₀.follow (P := fun _ _ => True) ho trivial (fun _ _ _ _ _ _ _ _ _ _ => trivial)
    draws τ with ⟨s, t, hrun, hracing, -⟩
  have hsteps := hracing₀.steps_follow ho hsteps₀ hrun
  refine ⟨s, hrun, ?_, fun hdone => ?_⟩
  · rw [hracing.done_iff]
    omega
  · rcases hracing.count_of_done hdone with ⟨hcount, hstores, -⟩
    have hcurrent : s.procs.current < numthreads :=
      hracing.inv.getnum ▸ hracing.inv.scheduled.current_lt
    have hpos : 0 < t.count :=
      hracing.bounded.count_pos s.procs.current (by rw [hstores _ hcurrent]; exact loops_pos _)
    refine ⟨t.value, hracing.counter.value, hracing.bounded.value_pos hpos, ?_, fun htwice => ?_⟩
    · rw [← hcount]
      exact hracing.bounded.value_le
    · refine hracing.bounded.two_le hpos fun i => ?_
      rcases lt_or_ge i numthreads with hi | hi
      · rw [hstores i hi]
        exact htwice i hi
      · rw [(hracing.outside i hi).2]
        exact Nat.zero_ne_one

/-- The program with the options that are the defaults. -/
def raceOptions : Options where
  program := loopingRace 1000
  loadaddr := 1000
  memsize := 128
  intfreq := 50
  intrand := false
  intfreq_pos := by decide

theorem runsRace_raceOptions : RunsRace raceOptions := ⟨rfl, Or.inr (by decide), by decide⟩

theorem keepsZero_bx (b c : ℤ) : KeepsZero [[(.bx, b)], [(.bx, c)]] := by
  intro i r hr
  have hreg : r.1 = .bx := by
    have hcases : i = 0 ∨ i = 1 ∨ 2 ≤ i := by omega
    rcases hcases with rfl | rfl | hi
    · exact congrArg Prod.fst (List.mem_singleton.mp hr)
    · exact congrArg Prod.fst (List.mem_singleton.mp hr)
    · have hnone : threadArg [[(.bx, b)], [(.bx, c)]] i = [] := List.getD_eq_default _ _ hi
      rw [hnone] at hr
      cases hr
  rw [hreg]
  decide

/-- The threads go around three times and once. -/
theorem looping_race_bounds_three : ∃ s₀ s,
    start raceOptions 2 [[(.bx, 3)], [(.bx, 1)]] none 0 = some s₀ ∧
      Checked.follow (X86.step raceOptions) State.done (fun _ => 0) s₀ 26 = .ok s ∧
      s.done = true ∧ ∃ v : ℕ, s.memory counterAddress = some (.int v) ∧ 1 ≤ v ∧ v ≤ 4 := by
  rcases show ∃ s₀, start raceOptions 2 [[(.bx, 3)], [(.bx, 1)]] none 0 = some s₀ from ⟨_, rfl⟩
    with ⟨s₀, hstart⟩
  rcases looping_race_bounds runsRace_raceOptions 2 [[(.bx, 3)], [(.bx, 1)]] (keepsZero_bx 3 1)
    none 0 s₀ hstart (fun _ => 0) 26 with ⟨s, hrun, hends, hvalue⟩
  have hdone := hends.mpr (by decide)
  rcases hvalue hdone with ⟨v, hv, hone, hle, -⟩
  exact ⟨s₀, s, hstart, hrun, hdone, v, hv, hone, hle⟩

/-! ## Two threads, and an interrupt after every so many instructions -/

/-- There have been `q` switches, and `r` instructions since the last one. -/
structure Lockstep (o : Options) (q r : ℕ) (s : State) : Prop where
  lt : r < o.intfreq
  interrupt : s.interrupt = o.intfreq - r
  curr : s.procs.curr = q % 2
  procsched : s.procs.procsched = [0, 1]
  manual : s.procs.manual = false
  current : (s.trace (q % 2)).length = q / 2 * o.intfreq + r
  other : (s.trace ((q + 1) % 2)).length = (q + 1) / 2 * o.intfreq
  running : ∀ i < 2, s.isdone i = false

variable {q r : ℕ}

theorem getD_pair (hq : q < 2) : [0, 1].getD q 0 = q := by
  have hcases : q = 0 ∨ q = 1 := by omega
  rcases hcases with rfl | rfl
  · rfl
  · rfl

theorem Lockstep.current_eq (h : Lockstep o q r s) : s.procs.current = q % 2 := by
  rw [Proclist.current, h.procsched, h.curr, getD_pair (Nat.mod_lt q (by decide))]

/-- With two threads that are not done the next one is the other one. -/
theorem next_other {procs : Proclist} (hprocsched : procs.procsched = [0, 1])
    (hcurr : procs.curr = q % 2) (hrunning : ∀ i < 2, (procs.plist i).done = false) :
    procs.next = .ok { procs with curr := (q + 1) % 2 } := by
  have hlt : (q + 1) % 2 < 2 := Nat.mod_lt _ (by decide)
  have hnext : (if procs.curr + 1 = procs.procsched.length then 0 else procs.curr + 1) =
      (q + 1) % 2 := by
    rw [hcurr, hprocsched, List.length_cons, List.length_singleton]
    split <;> omega
  have hfound : procs.nextFrom procs.procsched.length procs.curr = .ok ((q + 1) % 2) := by
    have hlength : procs.procsched.length = 1 + 1 := by rw [hprocsched]; rfl
    rw [hlength, Proclist.nextFrom, hlength, ← hlength, hnext, hprocsched, getD_pair hlt,
      if_pos (hrunning _ hlt)]
  rw [Proclist.next, hfound]
  rfl

theorem exists_switched (hswitch : s.switch = .ok s') (hprocsched : s.procs.procsched = [0, 1])
    (hcurr : s.procs.curr = q % 2) (hrunning : ∀ i < 2, (s.procs.plist i).done = false) :
    s'.procs.curr = (q + 1) % 2 ∧ s'.procs.procsched = [0, 1] ∧
      s'.procs.manual = s.procs.manual ∧ s'.interrupt = s.interrupt := by
  rw [State.switch, next_other hprocsched hcurr hrunning] at hswitch
  rw [← Except.ok.inj hswitch]
  exact ⟨rfl, hprocsched, rfl, rfl⟩

theorem countdown_goes {draw : ℕ} {rc : Rc} (hyields : rc ≠ some (-2)) (hmore : s.interrupt ≠ 1) :
    s.countdown o draw rc = .ok { s with interrupt := s.interrupt - 1 } := by
  rw [State.countdown]
  exact if_neg (not_or.mpr ⟨fun heq => hmore (by dsimp only at heq; omega), hyields⟩)

theorem countdown_switches {draw : ℕ} {rc : Rc} (hlast : s.interrupt = 1) :
    s.countdown o draw rc =
      ({ s with
        interrupt := setint o s.procs.manual draw
        procs := s.procs.save s.cpu } : State).switch := by
  rw [State.countdown]
  refine if_pos (Or.inl ?_)
  rw [hlast]
  rfl

theorem step_countdown {draw : ℕ} {rc : Rc} {entry : Entry}
    (hexecute : execute o s.cpu s.memory = .ok (rc, m', entry)) (hgoes : rc ≠ some (-1)) :
    X86.step o s draw = (s.executed m' entry).countdown o draw rc := by
  rw [X86.step, hexecute]
  exact if_neg hgoes

theorem div_two_add (q : ℕ) : (q + 1 + 1) / 2 = q / 2 + 1 := by omega

theorem mod_two_add (q : ℕ) : (q + 1 + 1) % 2 = q % 2 := by omega

theorem Lockstep.step (h : Lockstep o q r s) (hfixed : o.intrand = false) {draw : ℕ} {rc : Rc}
    {entry : Entry} (hraced : Raced o bx 2 s t draw rc entry s' t') (hgoes : rc ≠ some (-1)) :
    Lockstep o q (r + 1) s' ∨ Lockstep o (q + 1) 0 s' := by
  have hcurrent := h.current_eq
  have hself : (s'.trace (q % 2)).length = q / 2 * o.intfreq + (r + 1) := by
    rw [hraced.stepped.trace, hcurrent, Function.update_self, List.length_append, h.current]
    rfl
  have hother : (s'.trace ((q + 1) % 2)).length = (q + 1) / 2 * o.intfreq := by
    rw [hraced.stepped.trace, hcurrent, Function.update_of_ne (by omega), h.other]
  have hrunning (i : ℕ) (hi : i < 2) : s'.isdone i = false := by
    rw [hraced.stepped.isdone, if_neg fun hc => hgoes hc.2]
    exact h.running i hi
  have hstep := hraced.step
  rw [step_countdown hraced.execute hgoes] at hstep
  have hlt := h.lt
  by_cases hmore : r + 1 < o.intfreq
  · refine Or.inl ?_
    have hinterrupt : (s.executed s'.memory entry).interrupt ≠ 1 := by
      rw [show (s.executed s'.memory entry).interrupt = s.interrupt from rfl, h.interrupt]
      omega
    rw [countdown_goes hraced.yields hinterrupt] at hstep
    refine ⟨hmore, ?_, ?_, ?_, ?_, hself, hother, hrunning⟩
    · rw [← Except.ok.inj hstep]
      refine (congrArg (· - 1) h.interrupt).trans ?_
      push_cast
      ring
    · rw [← Except.ok.inj hstep]
      exact h.curr
    · rw [← Except.ok.inj hstep]
      exact h.procsched
    · rw [← Except.ok.inj hstep]
      exact h.manual
  · refine Or.inr ?_
    have hlast : (s.executed s'.memory entry).interrupt = 1 := by
      rw [show (s.executed s'.memory entry).interrupt = s.interrupt from rfl, h.interrupt]
      omega
    have hsaved (i : ℕ) (hi : i < 2) : ((s.procs.save entry.cpu).plist i).done = false := by
      have hkeeps : ((s.procs.save entry.cpu).plist i).done = (s.procs.plist i).done := by
        change (Function.update s.procs.plist s.procs.current _ i).done = _
        by_cases hi : i = s.procs.current
        · rw [hi, Function.update_self]
          rfl
        · rw [Function.update_of_ne hi]
      exact hkeeps.trans (h.running i hi)
    rw [countdown_switches hlast] at hstep
    rcases exists_switched hstep h.procsched h.curr hsaved with
      ⟨hcurr, hprocsched, hmanual, hinterrupt⟩
    refine ⟨o.intfreq_pos, ?_, hcurr, hprocsched, hmanual.trans h.manual, ?_, ?_, hrunning⟩
    · refine hinterrupt.trans ((congrArg (setint o · draw) h.manual).trans ?_)
      rw [setint, if_neg Bool.false_ne_true, if_pos hfixed, Nat.cast_zero, sub_zero]
    · rw [hother, add_zero]
    · rw [mod_two_add, hself, div_two_add, Nat.add_mul, one_mul]
      omega

/-- A thread that has halted is not in step. -/
theorem Raced.goes {draw : ℕ} {rc : Rc} {entry : Entry} (h : Raced o bx k s t draw rc entry s' t')
    (hcurrent : s'.isdone s.procs.current = false) : rc ≠ some (-1) := by
  rintro rfl
  rw [h.stepped.isdone, if_pos ⟨rfl, rfl⟩] at hcurrent
  cases hcurrent

/-- In step, or alone. -/
def InStep (o : Options) (s : State) : Prop :=
  (∀ i < 2, s.isdone i = false) → ∃ q r, Lockstep o q r s

theorem InStep.step (h : InStep o s) (hracing : Racing o bx 2 s t) (hfixed : o.intrand = false)
    {draw : ℕ} {rc : Rc} {entry : Entry} (hraced : Raced o bx 2 s t draw rc entry s' t') :
    InStep o s' := by
  intro hrunning
  have hcurrent : s.procs.current < 2 := hracing.inv.getnum ▸ hracing.inv.scheduled.current_lt
  have hgoes := hraced.goes (hrunning _ hcurrent)
  have hprior (i : ℕ) (hi : i < 2) : s.isdone i = false := by
    have hlater := hrunning i hi
    rwa [hraced.stepped.isdone, if_neg fun hc => hgoes hc.2] at hlater
  rcases h hprior with ⟨q, r, hlock⟩
  rcases hlock.step hfixed hraced hgoes with hnext | hnext
  · exact ⟨q, r + 1, hnext⟩
  · exact ⟨q + 1, 0, hnext⟩

/-- A thread that is interrupted after three instructions, or six, has stored what it loaded. -/
theorem InStep.alone (h : InStep o s) (hracing : Racing o bx 2 s t) (hthree : 3 ∣ o.intfreq)
    (hcurrent : s.isdone s.procs.current = false) {j : ℕ} (hj : j ≠ s.procs.current) :
    t.loaded j = none := by
  rcases lt_or_ge j 2 with hlt | hge
  swap
  · exact (hracing.outside j hge).1
  cases hisdone : s.isdone j with
  | true => exact (hracing.finished j hlt hisdone).2
  | false =>
      have hclt : s.procs.current < 2 := hracing.inv.getnum ▸ hracing.inv.scheduled.current_lt
      have hrunning (i : ℕ) (hi : i < 2) : s.isdone i = false := by
        have hcases : i = j ∨ i = s.procs.current := by omega
        rcases hcases with rfl | rfl
        · exact hisdone
        · exact hcurrent
      rcases h hrunning with ⟨q, r, hlock⟩
      have hother : (q + 1) % 2 = j := by
        have hcurr := hlock.current_eq
        omega
      have hlength : 3 ∣ (s.trace j).length := by
        rw [← hother, hlock.other]
        exact Dvd.dvd.mul_left hthree _
      exact (hracing.thread j hlt hisdone).elsewhere (by omega) (by omega)

theorem Lockstep.steps_eq (h : Lockstep o q r s) : steps 2 s = q * o.intfreq + r := by
  have hsum : (s.trace 0).length + (s.trace 1).length =
      (s.trace (q % 2)).length + (s.trace ((q + 1) % 2)).length := by
    rcases Nat.mod_two_eq_zero_or_one q with hq | hq
    · rw [hq, show (q + 1) % 2 = 1 by omega]
    · rw [hq, show (q + 1) % 2 = 0 by omega, Nat.add_comm]
  have hhalves : q / 2 + (q + 1) / 2 = q := by omega
  rw [steps, Finset.sum_range_succ, Finset.sum_range_one, hsum, h.current, h.other]
  conv_rhs => rw [← hhalves, Nat.add_mul]
  omega

/-- Some number of turns after which a thread has loaded, but not stored. -/
theorem exists_turns {k : ℕ} (hthree : ¬ 3 ∣ k) :
    ∃ turns, 0 < turns ∧ turns ≤ 4 ∧ (turns * k % 6 = 1 ∨ turns * k % 6 = 2) := by
  have hcases : (k % 6 = 1 ∨ k % 6 = 2) ∨ k % 6 = 4 ∨ k % 6 = 5 := by omega
  rcases hcases with hk | hk | hk
  · exact ⟨1, by omega, by omega, by omega⟩
  · exact ⟨2, by omega, by omega, by omega⟩
  · exact ⟨4, by omega, by omega, by omega⟩

theorem At.loaded_ne_none {loaded : Option ℕ} (h : At o b n cpu loaded)
    (hn : n % 6 = 1 ∨ n % 6 = 2) : loaded ≠ none := by
  rcases hn with hn | hn
  · rcases h.afterLoad hn with ⟨w, rfl, -⟩
    exact Option.some_ne_none w
  · rcases h.afterAdd hn with ⟨w, rfl, -⟩
    exact Option.some_ne_none w

/-- After as many turns both threads have loaded, and one of them will lose what the other adds. -/
theorem Lockstep.lossy {turns : ℕ} (h : Lockstep o q r s) (hracing : Racing o bx 2 s t)
    (hsteps : steps 2 s = 2 * turns * o.intfreq)
    (hturns : turns * o.intfreq % 6 = 1 ∨ turns * o.intfreq % 6 = 2) : Lossy t := by
  have hr : q * o.intfreq + r = 2 * turns * o.intfreq := h.steps_eq.symm.trans hsteps
  have hq : q = 2 * turns := by
    have hdiv := congrArg (· / o.intfreq) hr
    rwa [Nat.mul_comm q, Nat.mul_add_div o.intfreq_pos, Nat.div_eq_of_lt h.lt, Nat.add_zero,
      Nat.mul_div_cancel _ o.intfreq_pos] at hdiv
  have hzero : r = 0 := by
    rw [hq] at hr
    omega
  have hlength (i : ℕ) (hi : i < 2) : (s.trace i).length = turns * o.intfreq := by
    have hcases : i = q % 2 ∨ i = (q + 1) % 2 := by omega
    rcases hcases with rfl | rfl
    · rw [h.current, hzero, hq, Nat.mul_div_cancel_left _ (by decide), Nat.add_zero]
    · rw [h.other, show (q + 1) / 2 = turns by omega]
  have hloaded (i : ℕ) (hi : i < 2) : t.loaded i ≠ none :=
    (hracing.thread i hi (h.running i hi)).loaded_ne_none (by rwa [hlength i hi])
  exact Or.inl ⟨0, 1, Nat.zero_ne_one, hloaded 0 (by decide), hloaded 1 (by decide)⟩

/-- The run is in step for the first turns, and then something is lost. -/
structure Loses (o : Options) (turns : ℕ) (s : State) (t : Counter ℕ) : Prop where
  locked : steps 2 s ≤ 8 * o.intfreq → ∃ q r, Lockstep o q r s
  lossy : 2 * turns * o.intfreq ≤ steps 2 s → Lossy t

theorem Loses.step {turns : ℕ} (h : Loses o turns s t) (hracing : Racing o bx 2 s t)
    (hfixed : o.intrand = false) (hfour : turns ≤ 4)
    (hturns : turns * o.intfreq % 6 = 1 ∨ turns * o.intfreq % 6 = 2)
    (hlong : ∀ i < 2, o.intfreq ≤ loops (bx i)) {draw : ℕ} {rc : Rc} {entry : Entry}
    (hraced : Raced o bx 2 s t draw rc entry s' t') : Loses o turns s' t' := by
  have hcurrent : s.procs.current < 2 := hracing.inv.getnum ▸ hracing.inv.scheduled.current_lt
  have hsteps := hraced.steps_eq hcurrent
  have hlocked (hfew : steps 2 s' ≤ 8 * o.intfreq) : ∃ q r, Lockstep o q r s' := by
    rcases h.locked (by omega) with ⟨q, r, hlock⟩
    have hgoes : rc ≠ some (-1) := by
      rw [Ne, hraced.halts, hlock.current_eq, hlock.current]
      have heq := hlock.steps_eq
      have hq : q < 8 := by
        by_contra hge
        have hmany := Nat.mul_le_mul_right o.intfreq (not_lt.mp hge)
        omega
      have hless : q / 2 * o.intfreq ≤ 3 * o.intfreq := Nat.mul_le_mul_right _ (by omega)
      have hlt := hlock.lt
      have hleast := hlong (q % 2) (Nat.mod_lt q (by decide))
      omega
    rcases hlock.step hfixed hraced hgoes with hnext | hnext
    · exact ⟨q, r + 1, hnext⟩
    · exact ⟨q + 1, 0, hnext⟩
  refine ⟨hlocked, fun henough => ?_⟩
  by_cases hbefore : 2 * turns * o.intfreq ≤ steps 2 s
  · exact (h.lossy hbefore).moves hracing.bounded hraced.moves
  · have hnow : steps 2 s' = 2 * turns * o.intfreq := by omega
    have hfew : 2 * turns * o.intfreq ≤ 8 * o.intfreq := Nat.mul_le_mul_right _ (by omega)
    rcases hlocked (hnow ▸ hfew) with ⟨q, r, hlock⟩
    exact hlock.lossy hraced.racing hnow hturns

theorem total_two (bx : ℕ → ℤ) : total bx 2 = 6 * loops (bx 0) + 1 + (6 * loops (bx 1) + 1) := by
  rw [total, Finset.sum_range_succ, Finset.sum_range_one]

theorem lockstep_start (hfixed : o.intrand = false) {argv : List (List (Reg × ℤ))} {draw : ℕ}
    (hstart : start o 2 argv none draw = some s₀) : Lockstep o 0 0 s₀ := by
  rw [start] at hstart
  split at hstart
  case isFalse => cases hstart
  case isTrue =>
    have hinterrupt : setint o false draw = o.intfreq := by
      rw [setint, if_neg Bool.false_ne_true, if_pos hfixed]
    rw [← Option.some.inj hstart]
    exact ⟨o.intfreq_pos, hinterrupt.trans (sub_zero _).symm, rfl, rfl, rfl,
      (Nat.zero_mul _).symm, (Nat.zero_mul _).symm, fun _ _ => rfl⟩

/-- Without random interrupts two threads never lose anything if and only if the interrupts come
after a multiple of three instructions. -/
theorem looping_race_exact_iff (ho : RunsRace o) (hfixed : o.intrand = false) :
    (∀ (argv : List (List (Reg × ℤ))) (draw : ℕ) (s₀ : State) (draws : ℕ → ℕ) (τ : ℕ) (s : State),
      KeepsZero argv → start o 2 argv none draw = some s₀ →
      Checked.follow (X86.step o) State.done draws s₀ τ = .ok s → s.done = true →
      s.memory counterAddress =
        some (.int (loops (startBx argv 0) + loops (startBx argv 1) : ℕ))) ↔
    3 ∣ o.intfreq := by
  constructor
  · intro hexact
    by_contra hthree
    rcases exists_turns hthree with ⟨turns, hpos, hfour, hturns⟩
    let argv : List (List (Reg × ℤ)) := [[(.bx, o.intfreq)]]
    have hzero : KeepsZero argv := by
      intro i r hr
      rw [List.mem_singleton.mp hr]
      change Reg.bx ≠ Reg.zero
      decide
    have hlong (i : ℕ) (_ : i < 2) : o.intfreq ≤ loops (startBx argv i) := le_max_right 1 _
    rcases show ∃ s₀, start o 2 argv none 0 = some s₀ from ⟨_, rfl⟩ with ⟨s₀, hstart⟩
    rcases racing_start ho hzero hstart with ⟨hracing₀, hsteps₀⟩
    have hloses₀ : Loses o turns s₀ Counter.zero :=
      ⟨fun _ => ⟨0, 0, lockstep_start hfixed hstart⟩, fun hnone => by
        have hturn := Nat.mul_pos (Nat.mul_pos Nat.two_pos hpos) o.intfreq_pos
        omega⟩
    rcases hracing₀.follow (P := Loses o turns) ho hloses₀
      (fun _ _ _ _ _ _ _ hracing hloses hraced =>
        hloses.step hracing hfixed hfour hturns hlong hraced)
      (fun _ => 0) (total (startBx argv) 2) with ⟨s, t, hrun, hracing, hloses⟩
    have hsteps := hracing₀.steps_follow ho hsteps₀ hrun
    rw [Nat.min_self] at hsteps
    have hdone := hracing.done_iff.mpr hsteps
    rcases hracing.count_of_done hdone with ⟨hcount, -, hnone⟩
    have hlong₀ := hlong 0 (by decide)
    have hlong₁ := hlong 1 (by decide)
    have henough : 2 * turns * o.intfreq ≤ 8 * o.intfreq := Nat.mul_le_mul_right _ (by omega)
    have htotal := total_two (startBx argv)
    have hlost := (hloses.lossy (by omega)).value_lt hnone
    have hvalue := hracing.counter.value.symm.trans
      (hexact argv 0 s₀ (fun _ => 0) _ s hzero hstart hrun hdone)
    have heq : t.value = loops (startBx argv 0) + loops (startBx argv 1) :=
      Int.ofNat.inj (Value.int.inj (Option.some.inj hvalue))
    rw [hcount, Finset.sum_range_succ, Finset.sum_range_one] at hlost
    omega
  · intro hthree argv draw s₀ draws τ s hzero hstart hrun hdone
    rcases racing_start ho hzero hstart with ⟨hracing₀, -⟩
    rcases hracing₀.follow (P := fun s t => Exact t ∧ InStep o s) ho
      ⟨exact_zero, fun _ => ⟨0, 0, lockstep_start hfixed hstart⟩⟩
      (fun _ _ _ _ _ _ _ hracing hs hraced =>
        ⟨hs.1.moves hraced.moves fun _ => hs.2.alone hracing hthree hraced.running,
          hs.2.step hracing hfixed hraced⟩) draws τ with ⟨s', t, hrun', hracing, hexact, -⟩
    rw [hrun] at hrun'
    obtain rfl := Except.ok.inj hrun'
    rw [hracing.counter.value, hexact.value, (hracing.count_of_done hdone).1,
      Finset.sum_range_succ, Finset.sum_range_one]

theorem looping_race_exact_iff_default : ¬ ∀ (argv : List (List (Reg × ℤ))) (draw : ℕ) (s₀ : State)
    (draws : ℕ → ℕ) (τ : ℕ) (s : State), KeepsZero argv →
      start raceOptions 2 argv none draw = some s₀ →
      Checked.follow (X86.step raceOptions) State.done draws s₀ τ = .ok s → s.done = true →
      s.memory counterAddress =
        some (.int (loops (startBx argv 0) + loops (startBx argv 1) : ℕ)) := by
  rw [looping_race_exact_iff runsRace_raceOptions rfl]
  decide

end OsLabs.X86
