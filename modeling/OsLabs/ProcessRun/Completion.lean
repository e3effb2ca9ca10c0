import Mathlib
import OsLabs.ProcessRun.Placement

/-!
# I/O completions

The processes whose I/O finishes at a tick are taken up one after another, each
in the state the ones before it have left.
-/

namespace OsLabs.ProcessRun

variable {c : Config} {program : ℕ → List Instruction} {now : ℕ → ℕ} {s : State}

/-! ## The number of runnable processes -/

def Proc.Runnable (p : Proc) : Prop := p.state = .ready ∨ p.state = .running

theorem getNumRunnable_pos {pid : ℕ} (hpid : pid < s.num) (h : (s.procInfo pid).Runnable) :
    0 < getNumRunnable s :=
  List.countP_pos_iff.mpr ⟨pid, List.mem_range.mpr hpid, decide_eq_true h⟩

theorem getNumRunnable_two {pid pid' : ℕ} (hne : pid ≠ pid') (hpid : pid < s.num)
    (hpid' : pid' < s.num) (h : (s.procInfo pid).Runnable) (h' : (s.procInfo pid').Runnable) :
    1 < getNumRunnable s := by
  have hsub : [pid, pid'].Subperm ((List.range s.num).filter fun pid =>
      (s.procInfo pid).state = .ready ∨ (s.procInfo pid).state = .running) := by
    refine List.Nodup.subperm (by simpa using hne) fun p hp => ?_
    rcases List.mem_pair.mp hp with rfl | rfl
    · exact List.mem_filter.mpr ⟨List.mem_range.mpr hpid, decide_eq_true h⟩
    · exact List.mem_filter.mpr ⟨List.mem_range.mpr hpid', decide_eq_true h'⟩
  rw [getNumRunnable, List.countP_eq_length_filter]
  exact hsub.length_le

theorem getNumRunnable_le_one {pid : ℕ}
    (h : ∀ p < s.num, (s.procInfo p).Runnable → p = pid) : getNumRunnable s ≤ 1 := by
  have hsub : ((List.range s.num).filter fun pid =>
      (s.procInfo pid).state = .ready ∨ (s.procInfo pid).state = .running).Subperm [pid] := by
    refine List.Nodup.subperm (List.nodup_range.filter _) fun p hp => ?_
    obtain ⟨hmem, hrun⟩ := List.mem_filter.mp hp
    exact List.mem_singleton.mpr
      (h p (List.mem_range.mp hmem) (by simpa [Proc.Runnable] using hrun))
  rw [getNumRunnable, List.countP_eq_length_filter]
  exact hsub.length_le

theorem getNumRunnable_dispatch {pid : ℕ} (h : (s.procInfo pid).state = .ready) :
    getNumRunnable (dispatch s pid) = getNumRunnable s := by
  refine List.countP_congr fun p _ => ?_
  rcases eq_or_ne p pid with rfl | hp
  · simp [dispatch, h]
  · rw [dispatch, setState_of_ne _ hp]

/-! ## Resuming a process -/

theorem ready_of_setState {pid p : ℕ}
    (h : ((s.setState pid .ready).procInfo p).state = .ready) :
    p = pid ∨ (s.procInfo p).state = .ready := by
  rcases setState_state h with ⟨rfl, -⟩ | ⟨-, h⟩
  · exact Or.inl rfl
  · exact Or.inr h

theorem free_of_not_busy (h : Placed c now s) (hbusy : ¬ Busy s) :
    ∀ p < s.num, (s.procInfo p).state ≠ .running := by
  intro p hp hrun
  rw [h.running p hp hrun] at hrun
  exact hbusy hrun

/-- A free CPU is given to the process that has become ready. -/
theorem resume_free {pid : ℕ} (h : Scheduled c program now s) (hpid : pid < s.num)
    (hbusy : ¬ Busy s) : resume c (s.setState pid .ready) pid =
      some (dispatch (s.setState pid .ready) pid) := by
  have hready : ((s.setState pid .ready).procInfo pid).state = .ready := by rw [setState_self]
  rw [resume]
  cases c.ioDoneBehavior with
  | ioRunImmediate =>
      have hnot : ¬ ((s.setState pid .ready).currProc ≠ pid ∧
          ((s.setState pid .ready).procInfo (s.setState pid .ready).currProc).state =
            .running) := fun ⟨hne, hrun⟩ => hbusy (by rwa [setState_of_ne _ hne] at hrun)
      dsimp only
      rw [if_neg hnot]
      exact nextProcPid_eq hready
  | ioRunLater =>
      dsimp only
      rcases Nat.lt_or_ge 1 (getNumRunnable (s.setState pid .ready)) with hmany | hone
      · have hend : c.processSwitchBehavior = .schedSwitchOnEnd := by
          rcases h.dispatched with hrun | hnone | ⟨hend, -⟩
          · exact absurd hrun hbusy
          · have honly : ∀ p < s.num, ((s.setState pid .ready).procInfo p).Runnable → p = pid := by
              rintro p hp (hrun | hrun)
              · exact (ready_of_setState hrun).resolve_right (hnone p hp)
              · rcases setState_state hrun with ⟨heq, -⟩ | ⟨-, hrun⟩
                · exact heq
                · exact absurd hrun (free_of_not_busy h.toPlaced hbusy p hp)
            exact absurd hmany (getNumRunnable_le_one honly).not_gt
          · exact hend
        rw [if_pos ⟨hend, hmany⟩, nextProcPid_eq hready]
        refine if_neg ?_
        rw [getNumRunnable_dispatch hready]
        exact hmany.ne'
      · have hpos := getNumRunnable_pos (s := s.setState pid .ready) hpid (Or.inl hready)
        rw [if_neg fun hc => absurd hc.2 hone.not_gt]
        exact (if_pos (hone.antisymm hpos)).trans (nextProcPid_eq hready)

/-- While another process runs, the process that has become ready takes its
place or lets it go on. -/
theorem resume_busy {pid : ℕ} (h : Scheduled c program now s) (hpid : pid < s.num)
    (hwait : (s.procInfo pid).state = .wait) (hbusy : Busy s) :
    resume c (s.setState pid .ready) pid =
      some (dispatch ((s.setState pid .ready).setState s.currProc .ready) pid) ∨
    resume c (s.setState pid .ready) pid = some (s.setState pid .ready) := by
  have hready : ((s.setState pid .ready).procInfo pid).state = .ready := by rw [setState_self]
  have hcurr : s.currProc ≠ pid := fun heq => by
    rw [Busy, heq, hwait] at hbusy
    cases hbusy
  have hrun : ((s.setState pid .ready).procInfo s.currProc).state = .running := by
    rw [setState_of_ne _ hcurr]
    exact hbusy
  rw [resume]
  cases c.ioDoneBehavior with
  | ioRunImmediate =>
      have hready' : (((s.setState pid .ready).setState s.currProc .ready).procInfo pid).state =
          .ready := by rw [setState_of_ne _ hcurr.symm, hready]
      exact Or.inl (Option.bind_eq_some_iff.mpr
        ⟨_, (if_pos ⟨hcurr, hrun⟩).trans (if_pos hrun), nextProcPid_eq hready'⟩)
  | ioRunLater =>
      have htwo : 1 < getNumRunnable (s.setState pid .ready) :=
        getNumRunnable_two hcurr h.currLt hpid (Or.inr hrun) (Or.inl hready)
      -- with switches only at the end no process waits beside a running one
      have hsw : c.processSwitchBehavior ≠ .schedSwitchOnEnd := fun hend =>
        hcurr (h.onEnd hend pid hpid hwait).symm
      dsimp only
      rw [if_neg fun hc => hsw hc.1]
      exact Or.inr (if_neg htwo.ne')

/-- `now` after the completion of `pid` has been looked at. -/
def Completes (s : State) (pid : ℕ) (now now' : ℕ → ℕ) : Prop :=
  ∀ p < s.num, (s.ioFinishTimes p).countP (now' p < ·) =
    if p = pid then 0 else (s.ioFinishTimes p).countP (now p < ·)

theorem Completes.inFlight {now' : ℕ → ℕ} {pid : ℕ} (hnow : Completes s pid now now')
    (h : Placed c now s) : ∀ p < s.num, (s.ioFinishTimes p).countP (now' p < ·) =
      if ((s.setState pid .ready).procInfo p).state = .wait then 1 else 0 := by
  intro p hp
  rw [hnow p hp]
  rcases eq_or_ne p pid with rfl | hne
  · rw [if_pos rfl, setState_self, if_neg nofun]
  · rw [if_neg hne, setState_of_ne _ hne, h.inFlight p hp]

theorem resume_spec {now' : ℕ → ℕ} {pid : ℕ} (h : Scheduled c program now s)
    (hpid : pid < s.num) (hwait : (s.procInfo pid).state = .wait)
    (hnow : Completes s pid now now') :
    ∃ s', resume c (s.setState pid .ready) pid = some s' ∧ Scheduled c program now' s' ∧
      Frame s s' ∧ Busy s' := by
  have hfly := hnow.inFlight h.toPlaced
  have hready : ((s.setState pid .ready).procInfo pid).state = .ready := by rw [setState_self]
  have hframe : Frame s (s.setState pid .ready) := Frame.setState (by simp [hwait])
  have hacc : Accounted program (s.setState pid .ready) := h.toAccounted.setState nofun
  have hend : c.processSwitchBehavior = .schedSwitchOnEnd →
      ∀ p < s.num, ((s.setState pid .ready).procInfo p).state ≠ .wait := by
    intro hc p hp hst
    rcases setState_state hst with ⟨-, hst⟩ | ⟨hne, hst⟩
    · cases hst
    · exact hne ((h.onEnd hc p hp hst).trans (h.onEnd hc pid hpid hwait).symm)
  have hrunning : ∀ p < s.num, ((s.setState pid .ready).procInfo p).state = .running →
      p = s.currProc := by
    intro p hp hst
    rcases setState_state hst with ⟨-, hst⟩ | ⟨-, hst⟩
    · cases hst
    · exact h.running p hp hst
  by_cases hbusy : Busy s
  · have hcurr : s.currProc ≠ pid := fun heq => by
      rw [Busy, heq, hwait] at hbusy
      cases hbusy
    have hrun : ((s.setState pid .ready).procInfo s.currProc).state = .running := by
      rw [setState_of_ne _ hcurr]
      exact hbusy
    rcases resume_busy h hpid hwait hbusy with heq | heq
    · -- the running process makes way
      have hready' : (((s.setState pid .ready).setState s.currProc .ready).procInfo pid).state =
          .ready := by rw [setState_of_ne _ hcurr.symm, hready]
      have hfree' : ∀ p < s.num,
          (((s.setState pid .ready).setState s.currProc .ready).procInfo p).state ≠ .running := by
        intro p hp hst
        rcases setState_state hst with ⟨-, hst⟩ | ⟨hne, hst⟩
        · cases hst
        · exact hne (hrunning p hp hst)
      have hend' : c.processSwitchBehavior = .schedSwitchOnEnd → ∀ p < s.num,
          (((s.setState pid .ready).setState s.currProc .ready).procInfo p).state ≠ .wait := by
        intro hc p hp hst
        rcases setState_state hst with ⟨-, hst⟩ | ⟨-, hst⟩
        · cases hst
        · exact hend hc p hp hst
      have hnot (st : ProcState) (hst : st ≠ .running) :
          ((s.setState pid .ready).procInfo s.currProc).state ≠ st := by
        rw [hrun]
        exact hst.symm
      have hfly' := inFlight_setState (s := s.setState pid .ready) .ready hfly
        (hnot .wait nofun) nofun
      exact ⟨_, heq, scheduled_dispatch hpid hready' hfree' hend' hfly' (hacc.setState nofun),
        (hframe.trans (Frame.setState (hnot .done nofun))).trans (Frame.dispatch hready'),
        busy_dispatch _ pid⟩
    · exact ⟨_, heq, { hacc with
        currLt := h.currLt
        running := hrunning
        inFlight := hfly
        onEnd := fun hc p hp hst => absurd hst (hend hc p hp)
        dispatched := Or.inl hrun }, hframe, hrun⟩
  · have hfree : ∀ p < s.num, ((s.setState pid .ready).procInfo p).state ≠ .running := by
      intro p hp hst
      rw [hrunning p hp hst] at hst
      rcases setState_state hst with ⟨-, hst⟩ | ⟨-, hst⟩
      · cases hst
      · exact hbusy hst
    exact ⟨_, resume_free h hpid hbusy, scheduled_dispatch hpid hready hfree hend hfly hacc,
      hframe.trans (Frame.dispatch hready), busy_dispatch _ pid⟩

theorem ioFinished_spec {now' : ℕ → ℕ} {pid : ℕ} (h : Scheduled c program now s)
    (hpid : pid < s.num) (hwait : (s.procInfo pid).state = .wait)
    (hnow : Completes s pid now now') :
    ∃ s', ioFinished c s pid = some s' ∧ Scheduled c program now' s' ∧ Frame s s' ∧
      (Busy s' ∨ work s' < work s) := by
  obtain ⟨t, hresume, ht, hst, hbusy⟩ := resume_spec h hpid hwait hnow
  obtain ⟨s', hdone, hs', hts', hprogress⟩ := checkIfDone_spec ht
  refine ⟨s', ?_, hs', hst.trans hts', ?_⟩
  · exact Option.bind_eq_some_iff.mpr
      ⟨_, if_pos hwait, Option.bind_eq_some_iff.mpr ⟨t, hresume, hdone⟩⟩
  · rcases hprogress with ⟨rfl, -⟩ | hlt
    · exact Or.inl hbusy
    · exact Or.inr (hlt.trans_le hst.work_le)

/-! ## The loop over the processes -/

theorem countP_lt_succ (t : ℕ) (l : List ℕ) :
    l.countP (t < ·) = l.countP (t + 1 < ·) + l.count (t + 1) := by
  induction l with
  | nil => rfl
  | cons f l ih =>
      rw [List.countP_cons, List.countP_cons, List.count_cons, ih]
      rcases lt_trichotomy f (t + 1) with hlt | rfl | hgt
      · simp [hlt.ne, hlt.not_gt, Nat.lt_succ_iff.mp hlt |>.not_gt]
      · simp
        omega
      · simp [hgt, hgt.ne', (Nat.lt_succ_self t).trans hgt]
        omega

/-- The times up to which the completions have been looked at: those of `pids`
are still to come. -/
def pendingNow (t : ℕ) (pids : List ℕ) (pid : ℕ) : ℕ := if pid ∈ pids then t else t + 1

theorem Scheduled.now_congr {now' : ℕ → ℕ} (h : Scheduled c program now s)
    (heq : ∀ p < s.num, (s.ioFinishTimes p).countP (now' p < ·) =
      (s.ioFinishTimes p).countP (now p < ·)) : Scheduled c program now' s :=
  { h with inFlight := fun p hp => (heq p hp).trans (h.inFlight p hp) }

theorem ioCheck_spec {t : ℕ} (pids : List ℕ) (hnodup : pids.Nodup) (hlt : ∀ p ∈ pids, p < s.num)
    (hclock : s.clockTick = t + 1) (h : Scheduled c program (pendingNow t pids) s) :
    ∃ s', ioCheck c pids s = some s' ∧ Scheduled c program (fun _ => t + 1) s' ∧ Frame s s' ∧
      (s' = s ∨ Busy s' ∨ work s' < work s) := by
  induction pids generalizing s with
  | nil => exact ⟨s, rfl, h, Frame.refl s, Or.inl rfl⟩
  | cons pid pids ih =>
      obtain ⟨hnotin, hnodup⟩ := List.nodup_cons.mp hnodup
      have hpid := hlt pid (List.mem_cons_self ..)
      have hothers (p : ℕ) (hne : p ≠ pid) :
          pendingNow t pids p = pendingNow t (pid :: pids) p := by
        simp only [pendingNow, List.mem_cons, hne, false_or]
      have hbefore : pendingNow t (pid :: pids) pid = t := if_pos (List.mem_cons_self ..)
      have hafter : pendingNow t pids pid = t + 1 := if_neg hnotin
      have hcount := countP_lt_succ t (s.ioFinishTimes pid)
      have hfly := h.inFlight pid hpid
      rw [hbefore] at hfly
      rw [ioCheck, hclock]
      split
      · next hdue =>
          have hpos : 0 < (s.ioFinishTimes pid).count (t + 1) :=
            List.count_pos_iff.mpr (List.contains_iff_mem.mp hdue)
          have hwait : (s.procInfo pid).state = .wait := by
            by_contra hnot
            rw [if_neg hnot] at hfly
            omega
          rw [if_pos hwait] at hfly
          have hnow : Completes s pid (pendingNow t (pid :: pids)) (pendingNow t pids) := by
            intro p hp
            rcases eq_or_ne p pid with rfl | hne
            · rw [if_pos rfl, hafter]
              omega
            · rw [if_neg hne, hothers p hne]
          obtain ⟨u, hu, hsched, hframe, hprogress⟩ := ioFinished_spec h hpid hwait hnow
          obtain ⟨s', hs', hsched', hframe', hprogress'⟩ := ih hnodup
            (fun p hp => hframe.num ▸ hlt p (List.mem_cons_of_mem _ hp))
            (hframe.clockTick.trans hclock) hsched
          refine ⟨s', Option.bind_eq_some_iff.mpr ⟨u, hu, hs'⟩, hsched', hframe.trans hframe',
            Or.inr ?_⟩
          rcases hprogress' with rfl | hbusy | hless
          · exact hprogress
          · exact Or.inl hbusy
          · exact Or.inr (hless.trans_le hframe.work_le)
      · next hdue =>
          have hzero : (s.ioFinishTimes pid).count (t + 1) = 0 :=
            List.count_eq_zero.mpr fun hmem => hdue (List.contains_iff_mem.mpr hmem)
          refine ih hnodup (fun p hp => hlt p (List.mem_cons_of_mem _ hp)) hclock
            (h.now_congr fun p _ => ?_)
          rcases eq_or_ne p pid with rfl | hne
          · rw [hafter, hbefore, hcount, hzero]
            rfl
          · rw [hothers p hne]

end OsLabs.ProcessRun
