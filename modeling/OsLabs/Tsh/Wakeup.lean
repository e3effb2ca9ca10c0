import Mathlib
import OsLabs.Lib.Transition
import OsLabs.Tsh.JobTable
import OsLabs.Tsh.Shell
import OsLabs.Tsh.Handler
import OsLabs.Tsh.Consistency

/-!
# The wait for the foreground job

`waitfg` tests `fgpid` and then suspends. The test stays valid as long as no
news of the process is delivered in between.
-/

namespace OsLabs.Tsh

open OsLabs.Transition

/-- The shell sleeps although the process it waits for is not the foreground job
and no signal is on its way. -/
def LostWakeup (s : Shell) : Prop :=
  ∃ pid, s.pc = .suspended pid ∧ fgpid s.table ≠ pid ∧ s.pending = false

/-- Between the test of `waitfg(pid)` and its `sigsuspend` there is no news of
`pid` that a delivery of `SIGCHLD` could bring. -/
def noNews (s : Shell) : Bool :=
  match s.pc with
  | .waitSuspend pid => s.children.all fun c => c.pid = pid → c.reportable = false
  | _ => true

def TestStays (s : Shell) : Act → Prop
  | .sigchld _ => noNews s = true
  | _ => True

/-- The process whose foreground test the shell relies on. -/
def Pc.tested : Pc → Option ℤ
  | .waitSuspend pid => some pid
  | .suspended pid => some pid
  | _ => none

structure Waiting (s : Shell) : Prop where
  positive : ∀ c ∈ s.children, 1 ≤ c.pid
  tested : ∀ pid, s.pc.tested = some pid → fgpid s.table = pid

variable {s s' : Shell}

theorem handleChild_positive (h : ∀ c ∈ s.children, 1 ≤ c.pid) (c : Child) :
    ∀ d ∈ (handleChild s c).children, 1 ≤ d.pid := by
  intro d hd
  obtain ⟨d', hd', hpid, _⟩ := mem_handleChild_status hd
  exact hpid ▸ h d' hd'

/-- A delivery without news of the foreground process leaves it in the foreground. -/
theorem handlerLoop_fgpid {order : List ℤ} (hpos : ∀ c ∈ s.children, 1 ≤ c.pid)
    (hquiet : ∀ c ∈ s.children, c.pid = fgpid s.table → c.reportable = false)
    (h : handlerLoop s order = some s') : fgpid s'.table = fgpid s.table := by
  have hkeep : (∀ c ∈ s'.children, 1 ≤ c.pid) ∧
      (∀ c ∈ s'.children, c.pid = fgpid s.table → c.reportable = false) ∧
      fgpid s'.table = fgpid s.table := by
    refine handlerLoop_invariant (I := fun t => (∀ c ∈ t.children, 1 ≤ c.pid) ∧
      (∀ c ∈ t.children, c.pid = fgpid s.table → c.reportable = false) ∧
      fgpid t.table = fgpid s.table) ?_ h ⟨hpos, hquiet, rfl⟩
    rintro t c ⟨hpos, hquiet, hfg⟩ hc hrep
    have hne : c.pid ≠ fgpid s.table := by
      intro heq
      rw [hquiet c hc heq] at hrep
      cases hrep
    refine ⟨handleChild_positive hpos c, ?_, ?_⟩
    · intro d hd hdp
      exact hquiet d (mem_handleChild hd (by rw [hdp]; exact hne.symm)) hdp
    · rw [(handleChild_touched (hpos c hc)).fgpid_eq (by rw [hfg]; exact hne.symm), hfg]
  exact hkeep.2.2

theorem Waiting.handler (h : Waiting s) {order : List ℤ}
    (hguard : TestStays s (.sigchld order)) (hstep : handlerStep s order = some s') :
    Waiting s' := by
  obtain ⟨_, _, t, hloop, rfl⟩ := handlerStep_cases hstep
  have hpc : t.pc = s.pc := by
    refine handlerLoop_invariant (I := fun t => t.pc = s.pc) ?_ hloop rfl
    intro t c ht _ _
    rw [handleChild_pc, ht]
  have hpos : ∀ c ∈ t.children, 1 ≤ c.pid := by
    refine handlerLoop_invariant (I := fun t => ∀ c ∈ t.children, 1 ≤ c.pid) ?_ hloop h.positive
    intro t c ht _ _
    exact handleChild_positive ht c
  refine ⟨hpos, fun pid htested => ?_⟩
  rw [hpc] at htested
  cases heq : s.pc <;> simp only [heq, Pc.resume, Pc.tested, reduceCtorEq,
    Option.some.injEq] at htested
  subst htested
  have hfg := h.tested _ (by rw [heq]; rfl)
  have hquiet : noNews s = true := hguard
  simp only [noNews, heq, List.all_eq_true, decide_eq_true_eq] at hquiet
  rw [← hfg] at hquiet
  exact (handlerLoop_fgpid (s := { s with pending := false }) h.positive hquiet
    hloop).trans hfg

theorem Waiting.shell (h : Waiting s) (hstep : shellStep s = some s') : Waiting s' := by
  cases heq : s.pc <;> simp only [shellStep, heq, reduceCtorEq, Option.some.injEq] at hstep
  case evalRestore bg pid =>
    subst hstep
    refine ⟨h.positive, fun q hq => ?_⟩
    cases bg <;> cases hq
  case bgfgLookup argv =>
    cases hjob : bgfgJob s.table argv <;> rw [hjob] at hstep <;>
      obtain rfl := Option.some.inj hstep <;>
      exact ⟨h.positive, fun _ hq => by cases hq⟩
  case bgfgKill fg job =>
    subst hstep
    refine ⟨fun c' hc' => ?_, fun _ hq => by cases hq⟩
    obtain ⟨c, hc, rfl⟩ := List.mem_map.mp hc'
    have := h.positive c hc
    unfold Child.continue
    split_ifs <;> exact this
  case bgfgSetState fg job =>
    subst hstep
    refine ⟨h.positive, fun q hq => ?_⟩
    cases fg <;> cases hq
  case waitTest pid =>
    subst hstep
    refine ⟨h.positive, fun q hq => ?_⟩
    by_cases hfg : fgpid s.table = pid
    · simp only [hfg, if_true, Pc.tested, Option.some.injEq] at hq
      exact hfg.trans hq
    · simp only [hfg, if_false, Pc.tested, reduceCtorEq] at hq
  case waitSuspend pid =>
    subst hstep
    exact ⟨h.positive, fun q hq => h.tested q (by rw [heq]; exact hq)⟩
  all_goals
    subst hstep
    exact ⟨h.positive, fun _ hq => by cases hq⟩

theorem Waiting.fork (h : Waiting s) {result : ℤ} (hstep : forkStep s result = some s') :
    Waiting s' := by
  unfold forkStep at hstep
  split at hstep
  · split_ifs at hstep with hfail hfresh
    · obtain rfl := Option.some.inj hstep
      exact ⟨h.positive, fun _ hq => by cases hq⟩
    · obtain rfl := Option.some.inj hstep
      refine ⟨fun c hc => ?_, fun _ hq => by cases hq⟩
      obtain rfl | hc := List.mem_cons.mp hc
      · exact hfresh.1
      · exact h.positive c hc
  · cases hstep

theorem Waiting.child (h : Waiting s) {pid : ℤ} {event : ChildEvent}
    (hstep : childStep s pid event = some s') : Waiting s' := by
  obtain ⟨c, hc, c', _, hevent, rfl⟩ := childStep_cases hstep
  refine ⟨fun d' hd' => ?_, h.tested⟩
  obtain ⟨d, hd, rfl⟩ := List.mem_map.mp hd'
  split
  · rw [(ChildEvent.apply_spec hevent).1]
    exact h.positive c hc
  · exact h.positive d hd

theorem evalCommand_tested (argv : List String) (bg : Bool) (cmdline : String) :
    (evalCommand argv bg cmdline).tested = none := by
  unfold evalCommand
  split
  · rfl
  · split_ifs <;> rfl

theorem Waiting.step (h : Waiting s) {a : Act} (hguard : TestStays s a)
    (hstep : step s a = some s') : Waiting s' := by
  cases a with
  | command argv bg cmdline =>
      obtain ⟨_, hnext⟩ := Option.ite_none_right_eq_some.mp hstep
      obtain rfl := Option.some.inj hnext
      refine ⟨h.positive, fun q hq => ?_⟩
      rw [evalCommand_tested] at hq
      cases hq
  | fork result => exact h.fork hstep
  | shell => exact h.shell hstep
  | sigchld order => exact h.handler hguard hstep
  | otherSignal =>
      obtain ⟨_, hnext⟩ := Option.ite_none_left_eq_some.mp hstep
      obtain rfl := Option.some.inj hnext
      refine ⟨h.positive, fun q hq => ?_⟩
      cases heq : s.pc <;> simp only [heq, Pc.resume, Pc.tested, reduceCtorEq,
        Option.some.injEq] at hq
      exact h.tested q (by rw [heq]; exact congrArg some hq)
  | child pid event => exact h.child hstep

/-- As long as no news of `pid` is delivered between the test and the
`sigsuspend`, the shell sleeps only while its job is in the foreground. -/
theorem no_lost_wakeup (blocked : Bool) (h : Reach step TestStays (Shell.init blocked) s) :
    ¬ LostWakeup s := by
  have hwait : Waiting s := by
    refine h.invariant ⟨fun c hc => ?_, fun _ hq => ?_⟩ fun _ _ _ h => h.step
    · cases hc
    · cases hq
  rintro ⟨pid, hpc, hne, _⟩
  exact hne (hwait.tested pid (by rw [hpc]; rfl))

instance (s : Shell) : ∀ a, Decidable (TestStays s a)
  | .command _ _ _ => inferInstanceAs (Decidable True)
  | .fork _ => inferInstanceAs (Decidable True)
  | .shell => inferInstanceAs (Decidable True)
  | .sigchld _ => inferInstanceAs (Decidable (noNews s = true))
  | .otherSignal => inferInstanceAs (Decidable True)
  | .child _ _ => inferInstanceAs (Decidable True)

theorem no_lost_wakeup_stopTwice :
    ∃ s, run step (Shell.init false) (stopTwice.take 18) = some s ∧ s.pc = .suspended 7 ∧
      ¬ LostWakeup s := by
  have hrun : ((run step (Shell.init false) (stopTwice.take 18)).map Shell.pc) =
      some (.suspended 7) := by decide +kernel
  obtain ⟨s, hs, hpc⟩ := Option.map_eq_some_iff.mp hrun
  have hmeets : RunMeets step TestStays (Shell.init false) (stopTwice.take 18) :=
    runMeets_of_check (by decide +kernel)
  exact ⟨s, hs, hpc, no_lost_wakeup false (reach_of_run _ hmeets hs)⟩

/-- The job exits, and the handler runs, between the test and the `sigsuspend`. -/
def exitBeforeSuspend : List Act :=
  [.command ["true"] false "true", .shell, .fork 7, .shell, .shell, .shell,
    .child 7 .exit, .sigchld [7], .shell]

theorem wakeup_lost : ¬ ∀ s, Reach step anyStep (Shell.init false) s → ¬ LostWakeup s := by
  intro hall
  have hrun : ((run step (Shell.init false) exitBeforeSuspend).map fun s =>
      (s.pc, fgpid s.table, s.pending)) = some (.suspended 7, 0, false) := by decide +kernel
  obtain ⟨s, hs, hstate⟩ := Option.map_eq_some_iff.mp hrun
  simp only [Prod.mk.injEq] at hstate
  obtain ⟨hpc, hfg, hpending⟩ := hstate
  exact hall s (reach_of_run_anyStep exitBeforeSuspend hs)
    ⟨7, hpc, by simp [hfg], hpending⟩

end OsLabs.Tsh
