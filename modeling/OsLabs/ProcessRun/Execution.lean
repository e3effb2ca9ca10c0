import Mathlib
import OsLabs.Lib.Transition
import OsLabs.ProcessRun.Completion

/-!
# Runs of the process simulator

A tick of `run` keeps the scheduler's invariant and either decreases the work
that is left or brings the I/Os in flight nearer. So the run ends, with every
program executed.
-/

namespace OsLabs.ProcessRun

open OsLabs.Loop OsLabs.Transition

variable {c : Config} {program : ℕ → List Instruction} {now : ℕ → ℕ} {s : State}

/-! ## Executing an instruction -/

/-- Scheduling depends on the states of the processes only. -/
theorem Placed.congr {s' : State} (h : Placed c now s) (hnum : s'.num = s.num)
    (hcurr : s'.currProc = s.currProc) (htimes : s'.ioFinishTimes = s.ioFinishTimes)
    (hstate : ∀ pid, (s'.procInfo pid).state = (s.procInfo pid).state) : Placed c now s' where
  currLt := by rw [hnum, hcurr]; exact h.currLt
  running := by simp only [hnum, hcurr, hstate]; exact h.running
  inFlight := by simp only [hnum, htimes, hstate]; exact h.inFlight
  onEnd := by simp only [hnum, hcurr, hstate]; exact h.onEnd

/-- The state after the current process has executed `instruction`. -/
def executeInstruction (s : State) (instruction : Instruction) (code : List Instruction) : State :=
  { s with
    procInfo := Function.update s.procInfo s.currProc { s.procInfo s.currProc with code }
    cpuBusy := s.cpuBusy + 1
    executed := Function.update s.executed s.currProc (s.executed s.currProc ++ [instruction]) }

theorem execute_cases (s : State) :
    (∃ instruction code, Busy s ∧ (s.procInfo s.currProc).code = instruction :: code ∧
      execute s = (some instruction, executeInstruction s instruction code)) ∨
    (Busy s → (s.procInfo s.currProc).code = []) ∧ execute s = (none, s) := by
  rw [execute]
  split
  · next instruction code hrun hcode =>
      exact Or.inl ⟨instruction, code, hrun, hcode, by rw [executeInstruction]⟩
  · next hnot =>
      refine Or.inr ⟨fun hrun => ?_, rfl⟩
      cases hcode : (s.procInfo s.currProc).code with
      | nil => rfl
      | cons instruction code => exact absurd hcode (hnot instruction code hrun)

theorem executeInstruction_state (instruction : Instruction) (code : List Instruction) (pid : ℕ) :
    ((executeInstruction s instruction code).procInfo pid).state = (s.procInfo pid).state := by
  rcases eq_or_ne pid s.currProc with rfl | hne
  · simp only [executeInstruction, Function.update_self]
  · simp only [executeInstruction, Function.update_of_ne hne]

theorem Accounted.executeInstruction {instruction : Instruction} {code : List Instruction}
    (h : Accounted program s) (hcurr : s.currProc < s.num) (hbusy : Busy s)
    (hcode : (s.procInfo s.currProc).code = instruction :: code) :
    Accounted program (executeInstruction s instruction code) where
  executed := by
    intro pid
    rcases eq_or_ne pid s.currProc with rfl | hne
    · simp only [ProcessRun.executeInstruction, Function.update_self]
      rw [h.executed, hcode, List.append_assoc, List.singleton_append]
    · simp only [ProcessRun.executeInstruction, Function.update_of_ne hne]
      exact h.executed pid
  cpuBusy := by
    have hmem := Finset.mem_range.mpr hcurr
    have hbefore := Finset.add_sum_erase _ (fun pid => (s.executed pid).length) hmem
    have hafter := Finset.add_sum_erase _ (fun pid =>
      ((ProcessRun.executeInstruction s instruction code).executed pid).length) hmem
    have hothers : ∀ pid ∈ (Finset.range s.num).erase s.currProc,
        ((ProcessRun.executeInstruction s instruction code).executed pid).length =
          (s.executed pid).length := fun pid hpid =>
      congrArg List.length (Function.update_of_ne (Finset.ne_of_mem_erase hpid) ..)
    have hcurrent : ((ProcessRun.executeInstruction s instruction code).executed
        s.currProc).length = (s.executed s.currProc).length + 1 := by
      simp [ProcessRun.executeInstruction]
    rw [Finset.sum_congr rfl hothers, hcurrent] at hafter
    refine Eq.trans ?_ hafter
    have hbusy := h.cpuBusy
    simp only [ProcessRun.executeInstruction]
    omega
  done := by
    intro pid hdone
    rw [executeInstruction_state] at hdone
    rcases eq_or_ne pid s.currProc with rfl | hne
    · rw [hbusy] at hdone
      cases hdone
    · simp only [ProcessRun.executeInstruction, Function.update_of_ne hne]
      exact h.done pid hdone

theorem work_executeInstruction_lt {instruction : Instruction} {code : List Instruction}
    (hcurr : s.currProc < s.num) (hcode : (s.procInfo s.currProc).code = instruction :: code) :
    work (executeInstruction s instruction code) < work s := by
  have hlt : ((executeInstruction s instruction code).procInfo s.currProc).remaining <
      (s.procInfo s.currProc).remaining := by
    simp only [executeInstruction, Function.update_self, Proc.remaining, hcode, List.length_cons]
    omega
  refine work_lt rfl (fun pid => ?_) hcurr hlt
  rcases eq_or_ne pid s.currProc with rfl | hne
  · exact hlt.le
  · simp only [executeInstruction, Function.update_of_ne hne]
    exact le_rfl

theorem Scheduled.executeInstruction {instruction : Instruction} {code : List Instruction}
    (h : Scheduled c program now s) (hbusy : Busy s)
    (hcode : (s.procInfo s.currProc).code = instruction :: code) :
    Scheduled c program now (executeInstruction s instruction code) where
  toPlaced := h.toPlaced.congr rfl rfl rfl (executeInstruction_state instruction code)
  toAccounted := h.toAccounted.executeInstruction h.currLt hbusy hcode
  dispatched := Or.inl ((executeInstruction_state instruction code s.currProc).trans hbusy)

/-! ## Starting an I/O -/

/-- The state after an I/O has been started. -/
def waitIo (c : Config) (s : State) : State :=
  { s.setState s.currProc .wait with
    ioFinishTimes := Function.update s.ioFinishTimes s.currProc
      (s.ioFinishTimes s.currProc ++ [s.clockTick + c.ioDelay]) }

theorem placed_waitIo (hdelay : 0 < c.ioDelay) (h : Placed c (fun _ => s.clockTick) s)
    (hbusy : Busy s) : Placed c (fun _ => s.clockTick) (waitIo c s) where
  currLt := h.currLt
  running := by
    intro p hp hst
    rcases setState_state hst with ⟨-, hst⟩ | ⟨-, hst⟩
    · cases hst
    · exact h.running p hp hst
  inFlight := by
    intro p hp
    have hfly := h.inFlight p hp
    rcases eq_or_ne p s.currProc with rfl | hne
    · rw [if_neg (by rw [hbusy]; nofun)] at hfly
      simp [waitIo, hfly, hdelay]
    · simp only [waitIo, Function.update_of_ne hne, setState_of_ne _ hne]
      exact hfly
  onEnd := by
    intro hc p hp hst
    rcases setState_state hst with ⟨hp, -⟩ | ⟨-, hst⟩
    · exact hp
    · exact h.onEnd hc p hp hst

theorem startIo_spec (hdelay : 0 < c.ioDelay)
    (h : Scheduled c program (fun _ => s.clockTick) s) (hbusy : Busy s) :
    ∃ s', startIo c s = some s' ∧ Scheduled c program (fun _ => s.clockTick) s' ∧
      s'.num = s.num ∧ s'.clockTick = s.clockTick ∧ work s' ≤ work s := by
  have hplaced := placed_waitIo hdelay h.toPlaced hbusy
  have hset : Accounted program (s.setState s.currProc .wait) := h.toAccounted.setState nofun
  have hacc : Accounted program (waitIo c s) := ⟨hset.executed, hset.cpuBusy, hset.done⟩
  have hwork : work (waitIo c s) ≤ work s :=
    work_le rfl (setState_remaining (by rw [hbusy]; nofun))
  have hwait : ((waitIo c s).procInfo s.currProc).state = .wait :=
    congrArg Proc.state (setState_self ..)
  cases hc : c.processSwitchBehavior with
  | schedSwitchOnIo =>
      have hfree : ∀ p < (waitIo c s).num, ((waitIo c s).procInfo p).state ≠ .running := by
        intro p hp hst
        rcases setState_state hst with ⟨-, hst⟩ | ⟨hne, hst⟩
        · cases hst
        · exact hne (h.running p hp hst)
      obtain ⟨s', hs', hsched, hframe⟩ :=
        nextProc_spec hplaced hacc hfree (by rw [hc]; nofun)
      exact ⟨s', Option.bind_eq_some_iff.mpr ⟨_, if_pos hbusy, (if_pos hc).trans hs'⟩, hsched,
        hframe.num, hframe.clockTick, hframe.work_le.trans hwork⟩
  | schedSwitchOnEnd =>
      exact ⟨waitIo c s, Option.bind_eq_some_iff.mpr ⟨_, if_pos hbusy, if_neg (by rw [hc]; nofun)⟩,
        { hplaced, hacc with dispatched := Or.inr (Or.inr ⟨hc, hwait⟩) }, rfl, rfl, hwork⟩

/-! ## A tick -/

theorem beginTick_spec (h : Scheduled c program (fun _ => s.clockTick) s) :
    ∃ s', beginTick c s = some s' ∧ Scheduled c program (fun _ => s'.clockTick) s' ∧
      Frame { s with clockTick := s.clockTick + 1 } s' ∧
      (s' = { s with clockTick := s.clockTick + 1 } ∨ Busy s' ∨ work s' < work s) := by
  have hstart : Scheduled c program (pendingNow s.clockTick (List.range s.num))
      { s with clockTick := s.clockTick + 1 } := by
    have hnext : Scheduled c program (fun _ => s.clockTick)
        { s with clockTick := s.clockTick + 1 } :=
      ⟨⟨h.currLt, h.running, h.inFlight, h.onEnd⟩, ⟨h.executed, h.cpuBusy, h.done⟩, h.dispatched⟩
    refine hnext.now_congr fun p hp => ?_
    rw [pendingNow, if_pos (List.mem_range.mpr hp)]
  obtain ⟨s', hs', hsched, hframe, hprogress⟩ := ioCheck_spec
    (s := { s with clockTick := s.clockTick + 1 }) (List.range s.num) List.nodup_range
    (fun p hp => List.mem_range.mp hp) rfl hstart
  refine ⟨s', hs', ?_, hframe, hprogress⟩
  rw [hframe.clockTick]
  exact hsched

theorem countIo_cases (s : State) : ∃ ioBusy, countIo s = { s with ioBusy } := by
  rw [countIo]
  split
  · exact ⟨_, rfl⟩
  · exact ⟨s.ioBusy, rfl⟩

theorem Scheduled.countIo (h : Scheduled c program now s) :
    Scheduled c program now (countIo s) := by
  obtain ⟨ioBusy, heq⟩ := countIo_cases s
  rw [heq]
  exact ⟨⟨h.currLt, h.running, h.inFlight, h.onEnd⟩, ⟨h.executed, h.cpuBusy, h.done⟩,
    h.dispatched⟩

/-- The ticks to go for the I/Os in flight. -/
def ticksInFlight (s : State) : ℕ :=
  ∑ pid ∈ Finset.range s.num, ((s.ioFinishTimes pid).map (· - s.clockTick)).sum

theorem ticksInFlight_lt {s' : State} (hnum : s'.num = s.num)
    (htimes : s'.ioFinishTimes = s.ioFinishTimes) (hclock : s'.clockTick = s.clockTick + 1)
    {pid : ℕ} (hpid : pid < s.num) (hfly : 0 < (s.ioFinishTimes pid).countP (s.clockTick < ·)) :
    ticksInFlight s' < ticksInFlight s := by
  have hle (f : ℕ) : f - (s.clockTick + 1) ≤ f - s.clockTick := by omega
  obtain ⟨f, hf, hlt⟩ := List.countP_pos_iff.mp hfly
  have hlt := of_decide_eq_true hlt
  rw [ticksInFlight, ticksInFlight, hnum, htimes, hclock]
  exact Finset.sum_lt_sum (fun p _ => List.sum_le_sum fun f _ => hle f)
    ⟨pid, Finset.mem_range.mpr hpid,
      List.sum_lt_sum _ _ (fun f _ => hle f) ⟨f, hf, by omega⟩⟩

theorem exists_waiting (h : Scheduled c program now s) (hbusy : ¬ Busy s)
    (hactive : finished s = false) : ∃ pid < s.num, (s.procInfo pid).state = .wait := by
  have hpos : 0 < getNumActive s := Nat.pos_of_ne_zero (of_decide_eq_false hactive)
  obtain ⟨pid, hmem, hnd⟩ := List.countP_pos_iff.mp hpos
  have hpid := List.mem_range.mp hmem
  cases hst : (s.procInfo pid).state with
  | wait => exact ⟨pid, hpid, hst⟩
  | done => simp [hst] at hnd
  | running =>
      rw [h.running pid hpid hst] at hst
      exact absurd hst hbusy
  | ready =>
      rcases h.dispatched with hrun | hnone | ⟨-, hwait⟩
      · exact absurd hrun hbusy
      · exact absurd hst (hnone pid hpid)
      · exact ⟨s.currProc, h.currLt, hwait⟩

/-- What decreases at every tick. -/
def remaining (s : State) : ℕ ×ₗ ℕ := toLex (work s, ticksInFlight s)

theorem remaining_lt_of_work {s' : State} (h : work s' < work s) : remaining s' < remaining s :=
  Prod.Lex.lt_iff.mpr (Or.inl h)

/-- The end of a tick, after `instruction` has been executed or nothing has. -/
theorem endTick_spec (instruction : Option Instruction)
    (hdelay : instruction = some .io → 0 < c.ioDelay) (h : Scheduled c program (fun _ => s.clockTick) s)
    (hbusy : instruction ≠ none → Busy s) :
    ∃ s', ((if instruction = some .io then startIo c (countIo s) else some (countIo s)).bind
        checkIfDone) = some s' ∧
      Scheduled c program (fun _ => s'.clockTick) s' ∧ s'.num = s.num ∧ work s' ≤ work s ∧
      (instruction = none → s' = countIo s ∧ (Busy s → (s.procInfo s.currProc).code ≠ []) ∨
        work s' < work s) := by
  have hcounted := h.countIo
  obtain ⟨ioBusy, hcount⟩ := countIo_cases s
  rw [hcount] at hcounted ⊢
  rcases eq_or_ne instruction (some .io) with rfl | hne
  · obtain ⟨t, ht, hsched, hnum, hclock, hwork⟩ :=
      startIo_spec (s := { s with ioBusy }) (hdelay rfl) hcounted (hbusy nofun)
    obtain ⟨s', hs', hsched', hframe, -⟩ := checkIfDone_spec hsched
    refine ⟨s', ?_, ?_, hframe.num.trans hnum, hframe.work_le.trans hwork, nofun⟩
    · rw [if_pos rfl, ht]
      exact hs'
    · rw [hframe.clockTick, hclock]
      exact hsched'
  · obtain ⟨s', hs', hsched, hframe, hprogress⟩ := checkIfDone_spec hcounted
    refine ⟨s', ?_, ?_, hframe.num, hframe.work_le, fun _ => hprogress⟩
    · rw [if_neg hne]
      exact hs'
    · rw [hframe.clockTick]
      exact hsched

/-- An I/O takes time, if there is any. -/
def Timed (c : Config) (program : ℕ → List Instruction) (num : ℕ) : Prop :=
  0 < c.ioDelay ∨ ∀ pid < num, Instruction.io ∉ program pid

theorem tick_spec (htimed : Timed c program s.num)
    (h : Scheduled c program (fun _ => s.clockTick) s) (hactive : finished s = false) :
    ∃ s', tick c s = some s' ∧ Scheduled c program (fun _ => s'.clockTick) s' ∧
      s'.num = s.num ∧ remaining s' < remaining s := by
  obtain ⟨t, ht, hsched, hframe, hprogress⟩ := beginTick_spec h
  rcases execute_cases t with ⟨instruction, code, hbusy, hcode, heq⟩ | ⟨hidle, heq⟩
  · -- an instruction is executed, so less work is left
    have hdelay : some instruction = some Instruction.io → 0 < c.ioDelay := by
      intro hio
      obtain rfl := Option.some.inj hio
      refine htimed.resolve_right fun hnone => hnone t.currProc (hframe.num ▸ hsched.currLt) ?_
      rw [hsched.executed, hcode]
      exact List.mem_append_right _ List.mem_cons_self
    obtain ⟨s', hs', hsched', hnum, hwork, -⟩ := endTick_spec (some instruction) hdelay
      (hsched.executeInstruction hbusy hcode) fun _ =>
        (executeInstruction_state instruction code t.currProc).trans hbusy
    refine ⟨s', Option.bind_eq_some_iff.mpr ⟨t, ht, ?_⟩, hsched', hnum.trans hframe.num,
      remaining_lt_of_work ?_⟩
    · rw [heq]
      exact hs'
    · exact hwork.trans_lt
        ((work_executeInstruction_lt hsched.currLt hcode).trans_le hframe.work_le)
  · obtain ⟨s', hs', hsched', hnum, -, hend⟩ := endTick_spec none nofun hsched nofun
    refine ⟨s', Option.bind_eq_some_iff.mpr ⟨t, ht, ?_⟩, hsched', hnum.trans hframe.num, ?_⟩
    · rw [heq]
      exact hs'
    · rcases hend rfl with ⟨rfl, hcode⟩ | hless
      · have hbusy : ¬ Busy t := fun hbusy => hcode hbusy (hidle hbusy)
        obtain ⟨ioBusy, hcount⟩ := countIo_cases t
        rcases hprogress with rfl | hbusy' | hless
        · -- nothing runs and no I/O has finished, so an I/O in flight comes nearer
          obtain ⟨pid, hpid, hwait⟩ := exists_waiting h hbusy hactive
          have hfly := h.inFlight pid hpid
          rw [if_pos hwait] at hfly
          rw [hcount]
          exact Prod.Lex.lt_iff.mpr (Or.inr ⟨rfl,
            ticksInFlight_lt rfl rfl rfl hpid (hfly.symm ▸ Nat.one_pos)⟩)
        · exact absurd hbusy' hbusy
        · rw [hcount]
          exact remaining_lt_of_work hless
      · exact remaining_lt_of_work (hless.trans_le hframe.work_le)

/-! ## The run -/

/-- Before the first tick every process is ready, with all of its program to execute. -/
structure Loaded (program : ℕ → List Instruction) (s : State) : Prop where
  currProc : s.currProc = 0
  ready : ∀ pid, (s.procInfo pid).state = .ready
  code : ∀ pid, (s.procInfo pid).code = program pid
  executed : ∀ pid, s.executed pid = []
  ioFinishTimes : ∀ pid, s.ioFinishTimes pid = []
  cpuBusy : s.cpuBusy = 0

theorem Loaded.scheduled (h : Loaded program s) (hnum : 0 < s.num) :
    Scheduled c program (fun _ => (s.setState 0 .running).clockTick) (s.setState 0 .running) := by
  have hload : Accounted program s :=
    { executed := fun pid => by rw [h.executed, h.code, List.nil_append]
      cpuBusy := by
        rw [h.cpuBusy]
        exact (Finset.sum_eq_zero fun pid _ => by rw [h.executed, List.length_nil]).symm
      done := by
        intro pid hdone
        rw [h.ready] at hdone
        cases hdone }
  have hset : Accounted program (s.setState 0 .running) := hload.setState nofun
  exact
    { hset with
      currLt := h.currProc.symm ▸ hnum
      running := by
        intro p hp hst
        rcases setState_state hst with ⟨hp, -⟩ | ⟨-, hst⟩
        · exact hp.trans h.currProc.symm
        · rw [h.ready] at hst
          cases hst
      inFlight := by
        intro p _
        refine Eq.trans ?_ (if_neg fun hst => ?_).symm
        · exact congrArg (List.countP _) (h.ioFinishTimes p)
        · rcases setState_state hst with ⟨-, hst⟩ | ⟨-, hst⟩
          · cases hst
          · rw [h.ready] at hst
            cases hst
      onEnd := by
        intro _ p hp hst
        rcases setState_state hst with ⟨-, hst⟩ | ⟨-, hst⟩
        · cases hst
        · rw [h.ready] at hst
          cases hst
      dispatched := Or.inl (by
        show ((s.setState 0 .running).procInfo s.currProc).state = .running
        rw [h.currProc, setState_self]) }

/-- An iteration of the loop of `run`. -/
def step (c : Config) (s : State) (_ : Unit) : Option State := tick c s

def active (s : State) (_ : Unit) : Prop := getNumActive s > 0

def OneRunning (s : State) : Prop :=
  ∀ pid < s.num, (s.procInfo pid).state = .running → pid = s.currProc

theorem finished_of_active (h : getNumActive s > 0) : finished s = false :=
  decide_eq_false h.ne'

theorem reach_scheduled {s₀ : State} (htimed : Timed c program s₀.num)
    (h₀ : Scheduled c program (fun _ => s₀.clockTick) s₀) (h : Reach (step c) active s₀ s) :
    Scheduled c program (fun _ => s.clockTick) s ∧ s.num = s₀.num := by
  refine h.invariant (I := fun s => Scheduled c program (fun _ => s.clockTick) s ∧
    s.num = s₀.num) ⟨h₀, rfl⟩ fun s _ s' hs hactive hstep => ?_
  obtain ⟨t, ht, hsched, hnum, -⟩ := tick_spec (hs.2 ▸ htimed) hs.1 (finished_of_active hactive)
  obtain rfl : t = s' := Option.some.inj (ht.symm.trans hstep)
  exact ⟨hsched, hnum.trans hs.2⟩

theorem runLoop_ends {s₀ : State} (htimed : Timed c program s₀.num)
    (h₀ : Scheduled c program (fun _ => s₀.clockTick) s₀) :
    ∃ fuel s, runLoop c fuel s₀ = some s ∧
      (Scheduled c program (fun _ => s.clockTick) s ∧ s.num = s₀.num) ∧ finished s = true := by
  refine loop_ends remaining (fun s hs hactive => ?_) ⟨h₀, rfl⟩
  obtain ⟨s', hs', hsched, hnum, hlt⟩ := tick_spec (hs.2 ▸ htimed) hs.1 hactive
  exact ⟨s', hs', ⟨hsched, hnum.trans hs.2⟩, hlt⟩

theorem done_of_finished (h : finished s = true) {pid : ℕ} (hpid : pid < s.num) :
    (s.procInfo pid).state = .done := by
  have hzero := List.countP_eq_zero.mp (of_decide_eq_true h) pid (List.mem_range.mpr hpid)
  simpa using hzero

theorem Scheduled.executed_all (h : Scheduled c program now s) (hfin : finished s = true)
    {pid : ℕ} (hpid : pid < s.num) :
    (s.procInfo pid).state = .done ∧ s.executed pid = program pid := by
  have hst := done_of_finished hfin hpid
  have hcode := h.executed pid
  rw [h.done pid hst, List.append_nil] at hcode
  exact ⟨hst, hcode.symm⟩

theorem loaded_load (programs : List (List Line)) : Loaded (codeOf programs) (load programs) :=
  ⟨rfl, fun _ => rfl, fun _ => rfl, fun _ => rfl, fun _ => rfl, rfl⟩

theorem scheduled_start (programs : List (List Line)) (hne : programs ≠ []) :
    Scheduled c (codeOf programs) (fun _ => (start programs).clockTick) (start programs) ∧
      (start programs).num = programs.length := by
  rw [start, if_neg hne]
  exact ⟨(loaded_load programs).scheduled (List.length_pos_of_ne_nil hne), rfl⟩

/-- At every tick at most one process runs, the current one, no assertion
fails, and the run ends after every program has been executed once, in order. -/
theorem run_correct (processSwitchBehavior : SwitchBehavior) (ioDoneBehavior : IoDoneBehavior)
    (ioLength : ℕ) (programs : List (List Line)) :
    (∀ s, Reach (step (cpuIntro processSwitchBehavior ioDoneBehavior ioLength)) active
        (start programs) s →
      OneRunning s ∧ (∀ pid < programs.length, s.executed pid <+: codeOf programs pid) ∧
      s.cpuBusy = ∑ pid ∈ Finset.range programs.length, (s.executed pid).length ∧
      (getNumActive s > 0 → ∃ t s',
        beginTick (cpuIntro processSwitchBehavior ioDoneBehavior ioLength) s = some t ∧
        OneRunning t ∧
        tick (cpuIntro processSwitchBehavior ioDoneBehavior ioLength) s = some s' ∧
        OneRunning s')) ∧
    ∃ fuel s,
      runLoop (cpuIntro processSwitchBehavior ioDoneBehavior ioLength) fuel (start programs) =
        some s ∧
      (∀ pid < programs.length, (s.procInfo pid).state = .done ∧
        s.executed pid = codeOf programs pid) ∧
      s.cpuBusy = ∑ pid ∈ Finset.range programs.length, (codeOf programs pid).length := by
  have htimed (num : ℕ) : Timed (cpuIntro processSwitchBehavior ioDoneBehavior ioLength)
      (codeOf programs) num := Or.inl (Nat.succ_pos ioLength)
  rcases eq_or_ne programs [] with rfl | hne
  · -- `run` returns at once
    refine ⟨fun s hreach => ?_, 0, load [], rfl, fun pid hpid => by simp at hpid, rfl⟩
    have hs : s = load [] := hreach.invariant (I := fun s => s = load []) rfl
      fun s _ _ hs hactive _ => absurd hactive (by rw [hs]; exact lt_irrefl 0)
    subst hs
    exact ⟨fun pid hpid => absurd hpid (Nat.not_lt_zero pid), fun pid hpid => by simp at hpid, rfl,
      fun hactive => absurd hactive (lt_irrefl 0)⟩
  · obtain ⟨h₀, hnum₀⟩ := scheduled_start
      (c := cpuIntro processSwitchBehavior ioDoneBehavior ioLength) programs hne
    constructor
    · intro s hreach
      obtain ⟨hs, hnum⟩ := reach_scheduled (htimed _) h₀ hreach
      rw [hnum₀] at hnum
      refine ⟨hs.running, fun pid _ => ⟨_, (hs.executed pid).symm⟩, ?_, fun hactive => ?_⟩
      · rw [← hnum]
        exact hs.cpuBusy
      · obtain ⟨t, ht, hsched, -⟩ := beginTick_spec hs
        obtain ⟨s', hs', hsched', -⟩ := tick_spec (htimed _) hs (finished_of_active hactive)
        exact ⟨t, s', ht, hsched.running, hs', hsched'.running⟩
    · obtain ⟨fuel, s, hrun, ⟨hs, hnum⟩, hfin⟩ := runLoop_ends (htimed _) h₀
      rw [hnum₀] at hnum
      have hdone (pid : ℕ) (hpid : pid < programs.length) :
          (s.procInfo pid).state = .done ∧ s.executed pid = codeOf programs pid :=
        hs.executed_all hfin (hnum ▸ hpid)
      refine ⟨fuel, s, hrun, hdone, ?_⟩
      rw [hs.cpuBusy, hnum]
      exact Finset.sum_congr rfl fun pid hpid =>
        congrArg List.length (hdone pid (Finset.mem_range.mp hpid)).2

end OsLabs.ProcessRun
