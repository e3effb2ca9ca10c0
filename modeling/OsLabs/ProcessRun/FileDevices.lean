import Mathlib
import OsLabs.ProcessRun.Execution

/-!
# The process simulator of `file-devices`

It starts an I/O that takes `io_length` ticks where the one of `cpu-intro` adds one. The
completions of a tick are looked for before an instruction is executed, so an I/O of no
length is never seen to complete.
-/

namespace OsLabs.ProcessRun.FileDevices

open OsLabs.Loop OsLabs.Transition

/-- A part of a program: computing for `num` ticks, an I/O, or an I/O that the CPU does. -/
inductive Line
  | c (num : ℕ)
  | i
  | p
  deriving DecidableEq, Repr

def Line.code (ioLength : ℕ) : Line → List Instruction
  | .c num => List.replicate num .compute
  | .i => [.io]
  | .p => List.replicate ioLength .programmedIo

def loadProgram (ioLength : ℕ) (program : List Line) : List Instruction :=
  program.flatMap (Line.code ioLength)

/-- The code of process `pid`. -/
def codeOf (ioLength : ℕ) (programs : List (List Line)) (pid : ℕ) : List Instruction :=
  loadProgram ioLength (programs.getD pid [])

def load (ioLength : ℕ) (programs : List (List Line)) : State where
  num := programs.length
  procInfo := fun pid => ⟨codeOf ioLength programs pid, .ready⟩
  currProc := 0
  ioFinishTimes := fun _ => []
  clockTick := 0
  cpuBusy := 0
  ioBusy := 0
  executed := fun _ => []

/-- The state before the first tick; without processes `run` returns at once. -/
def start (ioLength : ℕ) (programs : List (List Line)) : State :=
  if programs = [] then load ioLength programs
  else (load ioLength programs).setState 0 .running

variable {c : Config} {s s' : State} {ioLength pid : ℕ} {programs : List (List Line)}

theorem scheduled_start (ioLength : ℕ) (hne : programs ≠ []) :
    Scheduled c (codeOf ioLength programs) (fun _ => (start ioLength programs).clockTick)
        (start ioLength programs) ∧
      (start ioLength programs).num = programs.length := by
  have hloaded : Loaded (codeOf ioLength programs) (load ioLength programs) :=
    ⟨rfl, fun _ => rfl, fun _ => rfl, fun _ => rfl, fun _ => rfl, rfl⟩
  rw [start, if_neg hne]
  exact ⟨hloaded.scheduled (List.length_pos_of_ne_nil hne), rfl⟩

theorem io_mem_codeOf_iff (hpid : pid < programs.length) :
    Instruction.io ∈ codeOf ioLength programs pid ↔ Line.i ∈ programs[pid] := by
  rw [codeOf, loadProgram, List.getD_eq_getElem _ _ hpid, List.mem_flatMap]
  constructor
  · rintro ⟨line, hline, hio⟩
    cases line with
    | i => exact hline
    | c num => simp [Line.code, List.mem_replicate] at hio
    | p => simp [Line.code, List.mem_replicate] at hio
  · intro hline
    exact ⟨.i, hline, List.mem_singleton_self _⟩

/-! ## I/Os of no length -/

/-- A move that leaves the processes that wait where they are. -/
structure Leaves (s s' : State) : Prop where
  clockTick : s'.clockTick = s.clockTick
  ioFinishTimes : s'.ioFinishTimes = s.ioFinishTimes
  executed : s'.executed = s.executed
  wait : ∀ pid, (s.procInfo pid).state = .wait → (s'.procInfo pid).state = .wait

theorem Leaves.refl (s : State) : Leaves s s := ⟨rfl, rfl, rfl, fun _ h => h⟩

theorem Leaves.trans {t : State} (h : Leaves s t) (h' : Leaves t s') : Leaves s s' :=
  ⟨h'.clockTick.trans h.clockTick, h'.ioFinishTimes.trans h.ioFinishTimes,
    h'.executed.trans h.executed, fun pid hwait => h'.wait pid (h.wait pid hwait)⟩

theorem leaves_setState {st : ProcState} (h : (s.procInfo pid).state ≠ .wait) :
    Leaves s (s.setState pid st) := by
  refine ⟨rfl, rfl, rfl, fun p hwait => ?_⟩
  have hne : p ≠ pid := by
    rintro rfl
    exact h hwait
  rwa [setState_of_ne st hne]

theorem leaves_nextProc (h : nextProc s = some s') : Leaves s s' := by
  rw [nextProc] at h
  split at h
  case h_1 pid hfind =>
    have hready : (s.procInfo pid).state = .ready := by simpa using List.find?_some hfind
    rw [nextProcPid_eq hready] at h
    obtain rfl := Option.some.inj h
    have hleaves : Leaves { s with currProc := pid } (dispatch s pid) :=
      leaves_setState (by simp [hready])
    exact ⟨hleaves.clockTick, hleaves.ioFinishTimes, hleaves.executed, hleaves.wait⟩
  case h_2 =>
    obtain rfl := Option.some.inj h
    exact Leaves.refl s

theorem leaves_checkIfDone (h : checkIfDone s = some s') : Leaves s s' := by
  rw [checkIfDone] at h
  split at h
  case isTrue hdone =>
    obtain ⟨-, hrun⟩ := hdone
    obtain ⟨t, ht, hnext⟩ := Option.bind_eq_some_iff.mp h
    rw [moveToDone, moveTo, if_pos hrun] at ht
    obtain rfl := Option.some.inj ht
    exact (leaves_setState (by simp [hrun])).trans (leaves_nextProc hnext)
  case isFalse =>
    obtain rfl := Option.some.inj h
    exact Leaves.refl s

/-- No completion is to come, and who has executed an I/O waits. -/
structure Stuck (s : State) : Prop where
  past : ∀ pid, ∀ time ∈ s.ioFinishTimes pid, time ≤ s.clockTick
  waits : ∀ pid, Instruction.io ∈ s.executed pid → (s.procInfo pid).state = .wait

theorem Stuck.leaves (h : Stuck s) (hleaves : Leaves s s') : Stuck s' where
  past := by
    rw [hleaves.ioFinishTimes, hleaves.clockTick]
    exact h.past
  waits := by
    intro pid hio
    rw [hleaves.executed] at hio
    exact hleaves.wait pid (h.waits pid hio)

theorem ioCheck_eq (h : ∀ pid, s.clockTick ∉ s.ioFinishTimes pid) (pids : List ℕ) :
    ioCheck c pids s = some s := by
  induction pids with
  | nil => rfl
  | cons pid pids ih =>
      rw [ioCheck, if_neg fun hmem => h pid (List.contains_iff_mem.mp hmem)]
      exact ih

theorem Stuck.beginTick (h : Stuck s) :
    beginTick c s = some { s with clockTick := s.clockTick + 1 } := by
  refine ioCheck_eq (s := { s with clockTick := s.clockTick + 1 }) (fun pid hmem => ?_) _
  have hle := h.past pid _ hmem
  dsimp only at hle
  omega

theorem Stuck.startIo (hdelay : c.ioDelay = 0)
    (hpast : ∀ pid, ∀ time ∈ s.ioFinishTimes pid, time ≤ s.clockTick)
    (hothers : ∀ pid ≠ s.currProc, Instruction.io ∈ s.executed pid →
      (s.procInfo pid).state = .wait) (hstart : startIo c s = some s') : Stuck s' := by
  obtain ⟨t, ht, hnext⟩ := Option.bind_eq_some_iff.mp hstart
  rw [moveToWait, moveTo] at ht
  split at ht
  case isFalse => cases ht
  case isTrue =>
    obtain rfl := Option.some.inj ht
    have hwaiting : Stuck (waitIo c s) := by
      constructor
      · intro pid time htime
        rcases eq_or_ne pid s.currProc with rfl | hne
        · simp only [waitIo, Function.update_self, List.mem_append, List.mem_singleton,
            hdelay, Nat.add_zero] at htime
          rcases htime with htime | rfl
          · exact hpast _ time htime
          · exact le_rfl
        · simp only [waitIo, Function.update_of_ne hne] at htime
          exact hpast pid time htime
      · intro pid hio
        rcases eq_or_ne pid s.currProc with rfl | hne
        · exact congrArg Proc.state (setState_self ..)
        · exact (congrArg Proc.state (setState_of_ne _ hne)).trans (hothers pid hne hio)
    dsimp only at hnext
    split at hnext
    case isTrue => exact hwaiting.leaves (leaves_nextProc hnext)
    case isFalse =>
      obtain rfl := Option.some.inj hnext
      exact hwaiting

theorem leaves_countIo (s : State) : Leaves s (countIo s) := by
  obtain ⟨ioBusy, heq⟩ := countIo_cases s
  rw [heq]
  exact ⟨rfl, rfl, rfl, fun _ h => h⟩

theorem Stuck.executeInstruction {instruction : Instruction} {code : List Instruction}
    (h : Stuck s) (hne : instruction ≠ .io) :
    Stuck (executeInstruction s instruction code) where
  past := h.past
  waits := by
    intro pid hio
    rw [executeInstruction_state]
    rcases eq_or_ne pid s.currProc with rfl | hother
    · simp only [ProcessRun.executeInstruction, Function.update_self, List.mem_append,
        List.mem_singleton] at hio
      exact h.waits _ (hio.resolve_right hne.symm)
    · simp only [ProcessRun.executeInstruction, Function.update_of_ne hother] at hio
      exact h.waits pid hio

/-- Without an I/O that takes time, a process that starts one waits for ever. -/
theorem Stuck.tick (hdelay : c.ioDelay = 0) (h : Stuck s) (htick : tick c s = some s') :
    Stuck s' := by
  obtain ⟨t, ht, hrest⟩ := Option.bind_eq_some_iff.mp htick
  rw [h.beginTick] at ht
  obtain rfl := Option.some.inj ht
  have hnext : Stuck { s with clockTick := s.clockTick + 1 } :=
    ⟨fun pid time htime => (h.past pid time htime).trans (Nat.le_succ _), h.waits⟩
  generalize { s with clockTick := s.clockTick + 1 } = t at hnext hrest
  rcases execute_cases t with ⟨instruction, code, -, -, heq⟩ | ⟨-, heq⟩
  · rw [heq] at hrest
    obtain ⟨u, hu, hdone⟩ := Option.bind_eq_some_iff.mp hrest
    refine Stuck.leaves ?_ (leaves_checkIfDone hdone)
    have hcount := leaves_countIo (ProcessRun.executeInstruction t instruction code)
    rcases eq_or_ne instruction .io with rfl | hne
    · rw [if_pos rfl] at hu
      refine Stuck.startIo hdelay ?_ ?_ hu
      · rw [hcount.ioFinishTimes, hcount.clockTick]
        exact hnext.past
      · intro pid hother hio
        obtain ⟨ioBusy, hcountIo⟩ := countIo_cases (ProcessRun.executeInstruction t .io code)
        rw [hcountIo] at hother hio ⊢
        have hother : pid ≠ t.currProc := hother
        simp only [ProcessRun.executeInstruction, Function.update_of_ne hother] at hio
        exact (executeInstruction_state .io code pid).trans (hnext.waits pid hio)
    · rw [if_neg fun heq => hne (Option.some.inj heq)] at hu
      obtain rfl := Option.some.inj hu
      exact (hnext.executeInstruction hne).leaves hcount
  · rw [heq] at hrest
    exact (hnext.leaves (leaves_countIo t)).leaves (leaves_checkIfDone hrest)

/-! ## The run -/

theorem reach_of_runLoop {s₀ : State} {fuel : ℕ} (h : runLoop c fuel s₀ = some s) :
    Reach (step c) active s₀ s := by
  induction fuel generalizing s₀ with
  | zero =>
      rw [runLoop, loop] at h
      split at h
      case isTrue =>
        obtain rfl := Option.some.inj h
        exact Reach.refl
      case isFalse => cases h
  | succ fuel ih =>
      rw [runLoop, loop] at h
      split at h
      case isTrue =>
        obtain rfl := Option.some.inj h
        exact Reach.refl
      case isFalse hactive =>
        obtain ⟨t, ht, hrest⟩ := Option.bind_eq_some_iff.mp h
        refine Reach.trans (Reach.refl.tail () ?_ ht) (ih hrest)
        exact Nat.pos_of_ne_zero fun hzero => hactive (decide_eq_true hzero)

theorem stuck_start (ioLength : ℕ) (programs : List (List Line)) :
    Stuck (start ioLength programs) := by
  have hload : Stuck (load ioLength programs) := by
    constructor
    · intro pid time htime
      cases htime
    · intro pid hio
      cases hio
  rw [start]
  split
  case isTrue => exact hload
  case isFalse => exact hload.leaves (leaves_setState nofun)

/-- No assertion fails, and the loop ends with every program executed once, in order. -/
def RunsAll (c : Config) (ioLength : ℕ) (programs : List (List Line)) : Prop :=
  (∀ s, Reach (step c) active (start ioLength programs) s → getNumActive s > 0 →
    ∃ s', tick c s = some s') ∧
  ∃ fuel s, runLoop c fuel (start ioLength programs) = some s ∧
    ∀ pid < programs.length, (s.procInfo pid).state = .done ∧
      s.executed pid = codeOf ioLength programs pid

theorem runsAll_of_timed (htimed : Timed c (codeOf ioLength programs) programs.length) :
    RunsAll c ioLength programs := by
  rcases eq_or_ne programs [] with rfl | hne
  · -- `run` returns at once
    refine ⟨fun s hreach hactive => ?_, 0, load ioLength [], rfl, fun pid hpid => ?_⟩
    · have hs : s = load ioLength [] := hreach.invariant (I := fun s => s = load ioLength []) rfl
        fun s _ _ hs hactive _ => absurd hactive (by rw [hs]; exact lt_irrefl 0)
      rw [hs] at hactive
      exact absurd hactive (lt_irrefl 0)
    · exact absurd hpid (Nat.not_lt_zero pid)
  · obtain ⟨h₀, hnum₀⟩ := scheduled_start (c := c) ioLength hne
    rw [← hnum₀] at htimed
    constructor
    · intro s hreach hactive
      obtain ⟨hs, hnum⟩ := reach_scheduled htimed h₀ hreach
      rw [← hnum] at htimed
      obtain ⟨s', hs', -⟩ := tick_spec htimed hs (finished_of_active hactive)
      exact ⟨s', hs'⟩
    · obtain ⟨fuel, s, hrun, ⟨hs, hnum⟩, hfin⟩ := runLoop_ends htimed h₀
      rw [hnum₀] at hnum
      exact ⟨fuel, s, hrun, fun pid hpid => hs.executed_all hfin (hnum ▸ hpid)⟩

theorem not_runsAll_of_io (hdelay : c.ioDelay = 0) (hpid : pid < programs.length)
    (hline : Line.i ∈ programs[pid]) : ¬ RunsAll c ioLength programs := by
  rintro ⟨-, fuel, s, hrun, hdone⟩
  have hstuck : Stuck s := (reach_of_runLoop hrun).invariant (stuck_start ioLength programs)
    fun t _ t' ht _ hstep => ht.tick hdelay hstep
  obtain ⟨hstate, hexecuted⟩ := hdone pid hpid
  have hio : Instruction.io ∈ s.executed pid := by
    rw [hexecuted]
    exact (io_mem_codeOf_iff hpid).mpr hline
  rw [hstuck.waits pid hio] at hstate
  cases hstate

/-- The simulator runs its programs to the end when an I/O takes a tick at least, or when no
program has one. -/
theorem runsAll_iff (processSwitchBehavior : SwitchBehavior) (ioDoneBehavior : IoDoneBehavior)
    (ioLength : ℕ) (programs : List (List Line)) :
    RunsAll (fileDevices processSwitchBehavior ioDoneBehavior ioLength) ioLength programs ↔
      0 < ioLength ∨ ∀ program ∈ programs, Line.i ∉ program := by
  constructor
  · intro hall
    rcases Nat.eq_zero_or_pos ioLength with rfl | hlength
    · refine Or.inr fun program hprogram hline => ?_
      obtain ⟨pid, hpid, rfl⟩ := List.getElem_of_mem hprogram
      exact not_runsAll_of_io rfl hpid hline hall
    · exact Or.inl hlength
  · rintro (hlength | hprograms)
    · exact runsAll_of_timed (Or.inl hlength)
    · refine runsAll_of_timed (Or.inr fun pid hpid hio => ?_)
      exact hprograms _ (List.getElem_mem hpid) ((io_mem_codeOf_iff hpid).mp hio)

/-- A program with one I/O of no length never ends. -/
theorem not_runsAll : ¬ RunsAll (fileDevices .schedSwitchOnIo .ioRunLater 0) 0 [[.i]] :=
  not_runsAll_of_io rfl (Nat.one_pos : 0 < [[Line.i]].length) (List.mem_singleton_self Line.i)

end OsLabs.ProcessRun.FileDevices
