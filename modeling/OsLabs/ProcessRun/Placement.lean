import Mathlib
import OsLabs.ProcessRun.Scheduler

/-!
# Where the processes are

What the scheduling moves of `process-run.py` keep: the running process is the
current one, and a process is blocked exactly while its I/O is in flight.
-/

namespace OsLabs.ProcessRun

/-- A process is blocked as long as an I/O of it is in flight. During the loop
over the completions of a tick, `now` is the new time for the processes already
looked at and the time before for the others. -/
structure Placed (c : Config) (now : ℕ → ℕ) (s : State) : Prop where
  currLt : s.currProc < s.num
  running : ∀ pid < s.num, (s.procInfo pid).state = .running → pid = s.currProc
  inFlight : ∀ pid < s.num, (s.ioFinishTimes pid).countP (now pid < ·) =
    if (s.procInfo pid).state = .wait then 1 else 0
  onEnd : c.processSwitchBehavior = .schedSwitchOnEnd →
    ∀ pid < s.num, (s.procInfo pid).state = .wait → pid = s.currProc

def Busy (s : State) : Prop := (s.procInfo s.currProc).state = .running

/-- The CPU idles only if nothing is ready, or while the current process keeps
it during an I/O. -/
def Dispatched (c : Config) (s : State) : Prop :=
  Busy s ∨ (∀ pid < s.num, (s.procInfo pid).state ≠ .ready) ∨
    c.processSwitchBehavior = .schedSwitchOnEnd ∧ (s.procInfo s.currProc).state = .wait

/-- Every process has executed a prefix of its program. -/
structure Accounted (program : ℕ → List Instruction) (s : State) : Prop where
  executed : ∀ pid, program pid = s.executed pid ++ (s.procInfo pid).code
  cpuBusy : s.cpuBusy = ∑ pid ∈ Finset.range s.num, (s.executed pid).length
  done : ∀ pid, (s.procInfo pid).state = .done → (s.procInfo pid).code = []

structure Scheduled (c : Config) (program : ℕ → List Instruction) (now : ℕ → ℕ) (s : State) : Prop
    extends Placed c now s, Accounted program s where
  dispatched : Dispatched c s

/-! ## The work that is left -/

/-- The instructions left, and one more for being moved to done. -/
def Proc.remaining (p : Proc) : ℕ := p.code.length + if p.state = .done then 0 else 1

def work (s : State) : ℕ := ∑ pid ∈ Finset.range s.num, (s.procInfo pid).remaining

theorem work_le {s s' : State} (hnum : s'.num = s.num)
    (h : ∀ pid, (s'.procInfo pid).remaining ≤ (s.procInfo pid).remaining) : work s' ≤ work s := by
  rw [work, hnum]
  exact Finset.sum_le_sum fun pid _ => h pid

theorem work_lt {s s' : State} (hnum : s'.num = s.num)
    (h : ∀ pid, (s'.procInfo pid).remaining ≤ (s.procInfo pid).remaining)
    {pid : ℕ} (hpid : pid < s.num)
    (hlt : (s'.procInfo pid).remaining < (s.procInfo pid).remaining) : work s' < work s := by
  rw [work, hnum]
  exact Finset.sum_lt_sum (fun p _ => h p) ⟨pid, Finset.mem_range.mpr hpid, hlt⟩

/-- What every scheduling move keeps. -/
structure Frame (s s' : State) : Prop where
  num : s'.num = s.num
  clockTick : s'.clockTick = s.clockTick
  ioFinishTimes : s'.ioFinishTimes = s.ioFinishTimes
  work_le : work s' ≤ work s

theorem Frame.refl (s : State) : Frame s s := ⟨rfl, rfl, rfl, le_rfl⟩

theorem Frame.trans {s t u : State} (h : Frame s t) (h' : Frame t u) : Frame s u :=
  ⟨h'.num.trans h.num, h'.clockTick.trans h.clockTick, h'.ioFinishTimes.trans h.ioFinishTimes,
    h'.work_le.trans h.work_le⟩

/-! ## Setting a state -/

@[simp] theorem setState_self (s : State) (pid : ℕ) (st : ProcState) :
    (s.setState pid st).procInfo pid = { s.procInfo pid with state := st } :=
  Function.update_self ..

theorem setState_of_ne {s : State} {pid p : ℕ} (st : ProcState) (h : p ≠ pid) :
    (s.setState pid st).procInfo p = s.procInfo p :=
  Function.update_of_ne h ..

@[simp] theorem setState_code (s : State) (pid p : ℕ) (st : ProcState) :
    ((s.setState pid st).procInfo p).code = (s.procInfo p).code := by
  rcases eq_or_ne p pid with rfl | h
  · rw [setState_self]
  · rw [setState_of_ne st h]

theorem setState_state {s : State} {pid p : ℕ} {st st' : ProcState}
    (h : ((s.setState pid st).procInfo p).state = st') :
    p = pid ∧ st = st' ∨ p ≠ pid ∧ (s.procInfo p).state = st' := by
  rcases eq_or_ne p pid with rfl | hp
  · exact Or.inl ⟨rfl, by simpa using h⟩
  · exact Or.inr ⟨hp, by rwa [setState_of_ne st hp] at h⟩

theorem setState_remaining {s : State} {pid : ℕ} {st : ProcState}
    (h : (s.procInfo pid).state ≠ .done) (p : ℕ) :
    ((s.setState pid st).procInfo p).remaining ≤ (s.procInfo p).remaining := by
  rcases eq_or_ne p pid with rfl | hp
  · rw [setState_self, Proc.remaining, Proc.remaining, if_neg h]
    exact Nat.add_le_add_left (by split <;> simp) _
  · rw [setState_of_ne st hp]

theorem Frame.setState {s : State} {pid : ℕ} {st : ProcState}
    (h : (s.procInfo pid).state ≠ .done) : Frame s (s.setState pid st) :=
  ⟨rfl, rfl, rfl, ProcessRun.work_le rfl (setState_remaining h)⟩

theorem Accounted.setState {program : ℕ → List Instruction} {s : State}
    (h : Accounted program s) {pid : ℕ} {st : ProcState}
    (hdone : st = .done → (s.procInfo pid).code = []) : Accounted program (s.setState pid st) where
  executed := fun p => by rw [setState_code]; exact h.executed p
  cpuBusy := h.cpuBusy
  done := by
    intro p hp
    rw [setState_code]
    rcases setState_state hp with ⟨rfl, hst⟩ | ⟨-, hst⟩
    · exact hdone hst
    · exact h.done p hst

/-! ## Dispatching -/

/-- The state in which `next_proc` leaves the scheduler. -/
def dispatch (s : State) (pid : ℕ) : State := State.setState { s with currProc := pid } pid .running

theorem nextProcPid_eq {s : State} {pid : ℕ} (h : (s.procInfo pid).state = .ready) :
    nextProcPid s pid = some (dispatch s pid) :=
  if_pos h

theorem busy_dispatch (s : State) (pid : ℕ) : Busy (dispatch s pid) :=
  congrArg Proc.state (setState_self ..)

theorem Frame.dispatch {s : State} {pid : ℕ} (h : (s.procInfo pid).state = .ready) :
    Frame s (dispatch s pid) :=
  ⟨rfl, rfl, rfl, ProcessRun.work_le rfl
    (setState_remaining (s := { s with currProc := pid }) (by simp [h]))⟩

theorem Accounted.dispatch {program : ℕ → List Instruction} {s : State}
    (h : Accounted program s) (pid : ℕ) : Accounted program (dispatch s pid) :=
  Accounted.setState (s := { s with currProc := pid }) ⟨h.executed, h.cpuBusy, h.done⟩ nofun

/-- Setting a state keeps the I/Os in flight if the process is blocked neither
before nor after. -/
theorem inFlight_setState {now : ℕ → ℕ} {s : State} {pid : ℕ} (st : ProcState)
    (h : ∀ p < s.num, (s.ioFinishTimes p).countP (now p < ·) =
      if (s.procInfo p).state = .wait then 1 else 0)
    (hold : (s.procInfo pid).state ≠ .wait) (hnew : st ≠ .wait) :
    ∀ p < s.num, (s.ioFinishTimes p).countP (now p < ·) =
      if ((s.setState pid st).procInfo p).state = .wait then 1 else 0 := by
  intro p hp
  rw [h p hp]
  rcases eq_or_ne p pid with rfl | hne
  · rw [setState_self, if_neg hold, if_neg hnew]
  · rw [setState_of_ne st hne]

/-- A ready process may be dispatched when the CPU is free and, with switches
only at the end, no process waits for it. -/
theorem scheduled_dispatch {c : Config} {program : ℕ → List Instruction} {now : ℕ → ℕ} {s : State}
    {pid : ℕ} (hpid : pid < s.num) (hready : (s.procInfo pid).state = .ready)
    (hfree : ∀ p < s.num, (s.procInfo p).state ≠ .running)
    (hend : c.processSwitchBehavior = .schedSwitchOnEnd →
      ∀ p < s.num, (s.procInfo p).state ≠ .wait)
    (hfly : ∀ p < s.num, (s.ioFinishTimes p).countP (now p < ·) =
      if (s.procInfo p).state = .wait then 1 else 0)
    (ha : Accounted program s) : Scheduled c program now (dispatch s pid) where
  currLt := hpid
  running := by
    intro p hp hrun
    rcases setState_state hrun with ⟨rfl, -⟩ | ⟨-, hrun⟩
    · rfl
    · exact absurd hrun (hfree p hp)
  inFlight := inFlight_setState (s := { s with currProc := pid }) .running hfly
    (by simp [hready]) nofun
  onEnd := by
    intro hc p hp hwait
    rcases setState_state hwait with ⟨rfl, -⟩ | ⟨-, hwait⟩
    · rfl
    · exact absurd hwait (hend hc p hp)
  toAccounted := ha.dispatch pid
  dispatched := Or.inl (busy_dispatch s pid)

/-- `next_proc` dispatches a ready process, or finds none. -/
theorem nextProc_cases {s : State} (hcurr : s.currProc < s.num) :
    (∃ pid < s.num, (s.procInfo pid).state = .ready ∧ nextProc s = some (dispatch s pid)) ∨
      (∀ pid < s.num, (s.procInfo pid).state ≠ .ready) ∧ nextProc s = some s := by
  rw [nextProc]
  split
  · next pid hfind =>
      have hready : (s.procInfo pid).state = .ready := by simpa using List.find?_some hfind
      have hmem := List.mem_of_find?_eq_some hfind
      rw [List.mem_append, List.mem_range'_1, List.mem_range] at hmem
      exact Or.inl ⟨pid, by omega, hready, nextProcPid_eq hready⟩
  · next hfind =>
      refine Or.inr ⟨fun pid hpid => ?_, rfl⟩
      have hmem : pid ∈ List.range' (s.currProc + 1) (s.num - (s.currProc + 1)) ++
          List.range (s.currProc + 1) := by
        rw [List.mem_append, List.mem_range'_1, List.mem_range]
        omega
      simpa using List.find?_eq_none.mp hfind pid hmem

/-- After the CPU has become free, `next_proc` gives it to a ready process. -/
theorem nextProc_spec {c : Config} {program : ℕ → List Instruction} {now : ℕ → ℕ} {s : State}
    (hp : Placed c now s) (ha : Accounted program s)
    (hfree : ∀ p < s.num, (s.procInfo p).state ≠ .running)
    (hend : c.processSwitchBehavior = .schedSwitchOnEnd →
      ∀ p < s.num, (s.procInfo p).state ≠ .wait) :
    ∃ s', nextProc s = some s' ∧ Scheduled c program now s' ∧ Frame s s' := by
  rcases nextProc_cases hp.currLt with ⟨pid, hpid, hready, heq⟩ | ⟨hnone, heq⟩
  · exact ⟨dispatch s pid, heq, scheduled_dispatch hpid hready hfree hend hp.inFlight ha,
      Frame.dispatch hready⟩
  · exact ⟨s, heq, { hp, ha with dispatched := Or.inr (Or.inl hnone) }, Frame.refl s⟩

/-! ## Finishing a process -/

theorem checkIfDone_spec {c : Config} {program : ℕ → List Instruction} {now : ℕ → ℕ} {s : State}
    (h : Scheduled c program now s) :
    ∃ s', checkIfDone s = some s' ∧ Scheduled c program now s' ∧ Frame s s' ∧
      (s' = s ∧ (Busy s → (s.procInfo s.currProc).code ≠ []) ∨ work s' < work s) := by
  rw [checkIfDone]
  split
  · next hdone =>
      obtain ⟨hlen, hrun⟩ := hdone
      have hcode := List.length_eq_zero_iff.mp hlen
      have hnd : (s.procInfo s.currProc).state ≠ .done := by simp [hrun]
      have hlt : work (s.setState s.currProc .done) < work s := by
        refine work_lt rfl (setState_remaining hnd) h.currLt ?_
        rw [setState_self, Proc.remaining, Proc.remaining, if_pos rfl, if_neg hnd]
        exact Nat.lt_succ_self _
      have hp : Placed c now (s.setState s.currProc .done) :=
        { currLt := h.currLt
          running := by
            intro p hp hst
            rcases setState_state hst with ⟨rfl, -⟩ | ⟨-, hst⟩
            · rfl
            · exact h.running p hp hst
          inFlight := inFlight_setState .done h.inFlight (by simp [hrun]) nofun
          onEnd := by
            intro hc p hp hst
            rcases setState_state hst with ⟨rfl, -⟩ | ⟨-, hst⟩
            · rfl
            · exact h.onEnd hc p hp hst }
      have hfree : ∀ p < s.num, ((s.setState s.currProc .done).procInfo p).state ≠ .running := by
        intro p hp' hst
        rcases setState_state hst with ⟨-, hst⟩ | ⟨hne, hst⟩
        · simp at hst
        · exact hne (h.running p hp' hst)
      have hend : c.processSwitchBehavior = .schedSwitchOnEnd →
          ∀ p < s.num, ((s.setState s.currProc .done).procInfo p).state ≠ .wait := by
        intro hc p hp' hst
        rcases setState_state hst with ⟨-, hst⟩ | ⟨hne, hst⟩
        · simp at hst
        · exact hne (h.onEnd hc p hp' hst)
      obtain ⟨s', hs', hsched, hframe⟩ :=
        nextProc_spec hp (h.toAccounted.setState fun _ => hcode) hfree hend
      refine ⟨s', ?_, hsched, (Frame.setState hnd).trans hframe,
        Or.inr (hframe.work_le.trans_lt hlt)⟩
      rw [moveToDone, moveTo, if_pos hrun]
      exact hs'
  · next hdone =>
      refine ⟨s, rfl, h, Frame.refl s, Or.inl ⟨rfl, fun hbusy hcode => hdone ⟨?_, hbusy⟩⟩⟩
      rw [hcode, List.length_nil]

end OsLabs.ProcessRun
