import Mathlib
import OsLabs.Lib.Transition
import OsLabs.Tsh.JobTable
import OsLabs.Tsh.Shell
import OsLabs.Tsh.Handler
import OsLabs.Tsh.Consistency

/-!
# What `eval` leaves behind

`eval` returns when the child it waits for is no longer running, and with every
child in the table, as long as a child is only started when a slot is free.
-/

namespace OsLabs.Tsh

open OsLabs.Transition

/-! ## The child that was started -/

/-- The shell, with the child that the last command has started in the foreground. -/
structure Evaluating where
  shell : Shell
  started : Option ℤ

def Pc.foreground : Pc → Bool
  | .evalFork bg _ => !bg
  | _ => false

def Evaluating.step (s : Evaluating) (a : Act) : Option Evaluating :=
  (Tsh.step s.shell a).map fun shell =>
    ⟨shell, match a with
      | .command _ _ _ => none
      | .fork result =>
          if s.shell.pc.foreground = true ∧ result ≠ -1 then some result else none
      | _ => s.started⟩

def Evaluating.init (blocked : Bool) : Evaluating := ⟨Shell.init blocked, none⟩

/-- After `eval`: the foreground child has terminated or stopped, and every child that
is not reaped is in the table. -/
def Evaluated (s : Evaluating) : Prop :=
  s.shell.pc = .ready →
    (∀ pid, s.started = some pid → ∀ c ∈ s.shell.children, c.pid = pid → c.status ≠ .running) ∧
      ∀ c ∈ s.shell.children, ∃ i, (s.shell.table.jobs i).pid = c.pid

/-- A child is only started while the table has a free slot. -/
def SlotFree (s : Evaluating) : Act → Prop
  | .fork result => result ≠ -1 → ∃ i, (s.shell.table.jobs i).pid = 0
  | _ => True

/-! ## The table lists the children -/

/-- The process `eval` is about to add. -/
def Pc.starting : Pc → Option ℤ
  | .evalAddjob _ _ pid => some pid
  | _ => none

/-- Each slot in use is of a child, and each child has a slot, except one. -/
structure Registered (t : JobTable) (children : List Child) (except : Option ℤ) : Prop where
  positive : ∀ c ∈ children, 1 ≤ c.pid
  unique : ∀ c ∈ children, ∀ d ∈ children, c.pid = d.pid → c = d
  live : ∀ i, (t.jobs i).pid ≠ 0 → ∃ c ∈ children, c.pid = (t.jobs i).pid
  distinct : ∀ i j, (t.jobs i).pid ≠ 0 → (t.jobs i).pid = (t.jobs j).pid → i = j
  listed : ∀ c ∈ children, except ≠ some c.pid → ∃ i, (t.jobs i).pid = c.pid

/-- The process is not running any more, or it is in the foreground. -/
def Awaited (t : JobTable) (children : List Child) (pid : ℤ) : Prop :=
  (∀ c ∈ children, c.pid = pid → c.status ≠ .running) ∨
    ∃ i, (t.jobs i).pid = pid ∧ (t.jobs i).state = .fg

section Registered

variable {t t' : JobTable} {children : List Child} {except : Option ℤ} {pid : ℤ}

theorem Registered.distinct_pid (h : Registered t children except) (hpid : 1 ≤ pid)
    (i j : Fin MAXJOBS) (hi : (t.jobs i).pid = pid) (hj : (t.jobs j).pid = pid) : i = j :=
  h.distinct i j (by omega) (hi.trans hj.symm)

/-- No process comes or goes. -/
theorem Registered.update (h : Registered t children except) (f : Child → Child)
    (hpid : ∀ c ∈ children, (f c).pid = c.pid)
    (hslot : ∀ i, (t'.jobs i).pid = (t.jobs i).pid) :
    Registered t' (children.map f) except := by
  constructor
  · intro c' hc'
    obtain ⟨c, hc, rfl⟩ := List.mem_map.mp hc'
    exact hpid c hc ▸ h.positive c hc
  · intro c' hc' d' hd' heq
    obtain ⟨c, hc, rfl⟩ := List.mem_map.mp hc'
    obtain ⟨d, hd, rfl⟩ := List.mem_map.mp hd'
    rw [hpid c hc, hpid d hd] at heq
    rw [h.unique c hc d hd heq]
  · intro i hi
    rw [hslot] at hi ⊢
    obtain ⟨c, hc, hci⟩ := h.live i hi
    exact ⟨f c, List.mem_map_of_mem hc, (hpid c hc).trans hci⟩
  · intro i j hi hij
    rw [hslot] at hi
    rw [hslot, hslot] at hij
    exact h.distinct i j hi hij
  · intro c' hc' hne
    obtain ⟨c, hc, rfl⟩ := List.mem_map.mp hc'
    rw [hpid c hc] at hne ⊢
    obtain ⟨i, hi⟩ := h.listed c hc hne
    exact ⟨i, (hslot i).trans hi⟩

theorem Registered.congr (h : Registered t children except)
    (hslot : ∀ i, (t'.jobs i).pid = (t.jobs i).pid) : Registered t' children except := by
  have hsame := h.update id (fun _ _ => rfl) hslot
  rwa [List.map_id] at hsame

theorem Registered.reap (h : Registered t children except) (hpid : 1 ≤ pid) :
    Registered (deletejob t pid).1 (children.filter fun c => c.pid ≠ pid) except := by
  have hjobs := deletejob_jobs hpid (h.distinct_pid hpid)
  have hkept (i : Fin MAXJOBS) (hi : ((deletejob t pid).1.jobs i).pid ≠ 0) :
      (t.jobs i).pid ≠ pid ∧ (deletejob t pid).1.jobs i = t.jobs i := by
    rw [hjobs] at hi ⊢
    split at hi
    · exact absurd rfl hi
    · next hne => exact ⟨hne, if_neg hne⟩
  constructor
  · exact fun c hc => h.positive c (List.mem_of_mem_filter hc)
  · exact fun c hc d hd =>
      h.unique c (List.mem_of_mem_filter hc) d (List.mem_of_mem_filter hd)
  · intro i hi
    obtain ⟨hne, heq⟩ := hkept i hi
    rw [heq] at hi ⊢
    obtain ⟨c, hc, hci⟩ := h.live i hi
    exact ⟨c, List.mem_filter.mpr ⟨hc, by simpa [hci] using hne⟩, hci⟩
  · intro i j hi hij
    obtain ⟨-, heqi⟩ := hkept i hi
    obtain ⟨-, heqj⟩ := hkept j (hij ▸ hi)
    rw [heqi] at hi
    rw [heqi, heqj] at hij
    exact h.distinct i j hi hij
  · intro c hc hne
    obtain ⟨hc, hcp⟩ := List.mem_filter.mp hc
    obtain ⟨i, hi⟩ := h.listed c hc hne
    refine ⟨i, ?_⟩
    rw [hjobs, if_neg (by rw [hi]; simpa using hcp), hi]

theorem Registered.fork (h : Registered t children none) {c : Child} (hpid : 1 ≤ c.pid)
    (hfresh : ∀ d ∈ children, d.pid ≠ c.pid) : Registered t (c :: children) (some c.pid) := by
  constructor
  · intro d hd
    obtain rfl | hd := List.mem_cons.mp hd
    · exact hpid
    · exact h.positive d hd
  · intro d hd e he heq
    obtain rfl | hd' := List.mem_cons.mp hd
    · obtain rfl | he' := List.mem_cons.mp he
      · rfl
      · exact absurd heq.symm (hfresh e he')
    · obtain rfl | he' := List.mem_cons.mp he
      · exact absurd heq (hfresh d hd')
      · exact h.unique d hd' e he' heq
  · intro i hi
    obtain ⟨d, hd, hdi⟩ := h.live i hi
    exact ⟨d, List.mem_cons_of_mem _ hd, hdi⟩
  · exact h.distinct
  · intro d hd hne
    obtain rfl | hd := List.mem_cons.mp hd
    · exact absurd rfl hne
    · exact h.listed d hd nofun

theorem Registered.occupy (h : Registered t children (some pid)) {i : Fin MAXJOBS} {job : Job}
    (hfree : (t.jobs i).pid = 0) (hjobs : t'.jobs = Function.update t.jobs i job)
    (hjob : job.pid = pid) (hchild : ∃ c ∈ children, c.pid = pid)
    (hslot : ∀ j, (t.jobs j).pid ≠ pid) : Registered t' children none := by
  have hself : (t'.jobs i).pid = pid := by rw [hjobs, Function.update_self, hjob]
  have hother (j : Fin MAXJOBS) (hj : j ≠ i) : t'.jobs j = t.jobs j := by
    rw [hjobs, Function.update_of_ne hj]
  refine ⟨h.positive, h.unique, fun j hj => ?_, fun j k hj hjk => ?_, fun c hc _ => ?_⟩
  · obtain rfl | hne := eq_or_ne j i
    · rwa [hself]
    · rw [hother j hne] at hj ⊢
      exact h.live j hj
  · by_cases hne : j = i <;> by_cases hne' : k = i
    · rw [hne, hne']
    · rw [hne, hself, hother k hne'] at hjk
      exact absurd hjk.symm (hslot k)
    · rw [hne', hself, hother j hne] at hjk
      exact absurd hjk (hslot j)
    · rw [hother j hne] at hj
      rw [hother j hne, hother k hne'] at hjk
      exact h.distinct j k hj hjk
  · obtain heq | hne := eq_or_ne c.pid pid
    · exact ⟨i, hself.trans heq.symm⟩
    · obtain ⟨j, hj⟩ := h.listed c hc fun heq => hne (Option.some.inj heq).symm
      have hpos := h.positive c hc
      refine ⟨j, ?_⟩
      rwa [hother j fun hji => by rw [hji, hfree] at hj; omega]

/-- What a delivery of `SIGCHLD` does to a slot it does not clear. -/
theorem handled_job {s : Shell} {c : Child} (hpid : 1 ≤ c.pid) {i : Fin MAXJOBS}
    (hne : (s.table.jobs i).pid ≠ c.pid) :
    (handleChild s c).table.jobs i = s.table.jobs i := by
  cases handleChild_touched (s := s) hpid with
  | same _ jobs => rw [jobs]
  | changed j job held jobs _ =>
      rw [jobs, Function.update_of_ne]
      rintro rfl
      exact hne held

theorem handled_fg {s : Shell} {c : Child} (hpid : 1 ≤ c.pid) {i : Fin MAXJOBS}
    (hfg : ((handleChild s c).table.jobs i).state = .fg) :
    (handleChild s c).table.jobs i = s.table.jobs i := by
  cases handleChild_touched (s := s) hpid with
  | same _ jobs => rw [jobs]
  | changed j job held jobs notFg =>
      rw [jobs] at hfg ⊢
      obtain rfl | hne := eq_or_ne i j
      · rw [Function.update_self] at hfg
        exact absurd hfg notFg
      · rw [Function.update_of_ne hne]

theorem Registered.handleChild {s : Shell} {c : Child}
    (h : Registered s.table s.children except) (hc : c ∈ s.children) :
    Registered (handleChild s c).table (handleChild s c).children except := by
  have hpid := h.positive c hc
  rw [Tsh.handleChild]
  split
  · refine h.update _ (fun d _ => ?_) fun i => ?_
    · split <;> rfl
    · dsimp only
      rw [markStopped_jobs hpid (h.distinct_pid hpid)]
      split <;> rfl
  · exact h.reap hpid

theorem Awaited.handleChild {s : Shell} {c : Child} (h : Awaited s.table s.children pid)
    (hreg : Registered s.table s.children except) (hc : c ∈ s.children)
    (hrep : c.reportable = true) :
    Awaited (handleChild s c).table (handleChild s c).children pid := by
  have hpid := hreg.positive c hc
  obtain hdead | ⟨i, hi, hfg⟩ := h
  · refine Or.inl fun d hd hdp => ?_
    obtain ⟨d', hd', hpid', hstatus⟩ := mem_handleChild_status hd
    exact hstatus ▸ hdead d' hd' (hpid'.trans hdp)
  · by_cases heq : c.pid = pid
    · -- it is this process that the handler has news of
      refine Or.inl fun d hd hdp => ?_
      obtain ⟨d', hd', hpid', hstatus⟩ := mem_handleChild_status hd
      obtain rfl := hreg.unique d' hd' c hc (by rw [hpid', hdp, heq])
      rw [← hstatus]
      intro hrunning
      rw [Child.reportable, hrunning] at hrep
      cases hrep
    · have hjob : (Tsh.handleChild s c).table.jobs i = s.table.jobs i :=
        handled_job hpid (by rw [hi]; exact fun h => heq h.symm)
      exact Or.inr ⟨i, by rw [hjob, hi], by rw [hjob, hfg]⟩

end Registered

/-! ## The invariant -/

/-- What the statements between `fork` and `addjob` rely on. -/
def PcHeld (s : Shell) : Pc → Prop
  | .evalFork _ _ => s.blocked = true
  | .evalAddjob _ _ pid => s.blocked = true ∧ (1 ≤ pid → (∃ c ∈ s.children, c.pid = pid) ∧
      (∀ i, (s.table.jobs i).pid ≠ pid) ∧ ∃ i, (s.table.jobs i).pid = 0)
  | _ => True

/-- The statements of `do_bgfg`. -/
def Pc.inBgfg : Pc → Bool
  | .bgfgLookup _ => true
  | .bgfgKill _ _ => true
  | .bgfgSetState _ _ => true
  | .bgfgWait _ => true
  | _ => false

structure Held (s : Evaluating) : Prop where
  registered : Registered s.shell.table s.shell.children s.shell.pc.starting
  foreground : ∀ i, (s.shell.table.jobs i).state = .fg → s.shell.pc.waitsFor s.shell.table i
  pc : PcHeld s.shell s.shell.pc
  awaited : ∀ pid, s.started = some pid →
    (∃ cmdline, s.shell.pc = .evalAddjob false cmdline pid) ∨
      Awaited s.shell.table s.shell.children pid
  bgfg : s.shell.pc.inBgfg = true → s.started = none

variable {s s' : Evaluating}

theorem Held.evaluated (h : Held s) : Evaluated s := by
  intro hready
  refine ⟨fun pid hstarted => ?_, fun c hc => ?_⟩
  · obtain ⟨cmdline, hpc⟩ | hdead | ⟨i, -, hfg⟩ := h.awaited pid hstarted
    · rw [hready] at hpc
      cases hpc
    · exact hdead
    · have hwaits := h.foreground i hfg
      rw [hready] at hwaits
      exact hwaits.elim
  · refine h.registered.listed c hc ?_
    rw [hready]
    nofun

theorem Held.init (blocked : Bool) : Held (Evaluating.init blocked) where
  registered := ⟨nofun, nofun, fun _ hi => absurd rfl hi, fun _ _ hi => absurd rfl hi, nofun⟩
  foreground := nofun
  pc := trivial
  awaited := nofun
  bgfg := nofun

/-! ## Steps -/

theorem Held.command (h : Held s) (hready : s.shell.pc = .ready) (argv : List String) (bg : Bool)
    (cmdline : String) :
    Held ⟨{ s.shell with pc := evalCommand argv bg cmdline }, none⟩ := by
  obtain ⟨hreg, hfg, -, -, -⟩ := h
  rw [hready] at hreg hfg
  have hpc : (evalCommand argv bg cmdline).starting = none ∧
      PcHeld { s.shell with pc := evalCommand argv bg cmdline } (evalCommand argv bg cmdline) := by
    unfold evalCommand
    split
    · exact ⟨rfl, trivial⟩
    · split_ifs <;> exact ⟨rfl, trivial⟩
  exact ⟨hpc.1.symm ▸ hreg, fun i hi => (hfg i hi).elim, hpc.2, nofun, fun _ => rfl⟩

theorem Held.fork (h : Held s) {result : ℤ} {shell : Shell}
    (hfree : result ≠ -1 → ∃ i, (s.shell.table.jobs i).pid = 0)
    (hstep : forkStep s.shell result = some shell) :
    Held ⟨shell, if s.shell.pc.foreground = true ∧ result ≠ -1 then some result else none⟩ := by
  obtain ⟨hreg, hfg, hpc, -, -⟩ := h
  unfold forkStep at hstep
  split at hstep
  · next bg cmdline heq =>
      rw [heq] at hreg hfg hpc ⊢
      have hblocked : s.shell.blocked = true := hpc
      split_ifs at hstep with hfail hfresh
      · obtain rfl := Option.some.inj hstep
        rw [if_neg fun hc => hc.2 hfail]
        refine ⟨⟨hreg.positive, hreg.unique, hreg.live, hreg.distinct, fun c hc _ => ?_⟩,
          fun i hi => (hfg i hi).elim, ⟨hblocked, fun hpos => ?_⟩, nofun, nofun⟩
        · exact hreg.listed c hc nofun
        · omega
      · obtain rfl := Option.some.inj hstep
        refine ⟨hreg.fork (c := ⟨result, .running, false, false⟩) hfresh.1 hfresh.2,
          fun i hi => (hfg i hi).elim, ⟨hblocked, fun _ => ⟨⟨_, List.mem_cons_self, rfl⟩,
            fun i hi => ?_, hfree hfail⟩⟩, fun pid hpid => ?_, nofun⟩
        · obtain ⟨c, hc, hci⟩ := hreg.live i (by rw [hi]; omega)
          exact hfresh.2 c hc (hci.trans hi)
        · split_ifs at hpid with hcond
          obtain rfl := Option.some.inj hpid
          have hbg : bg = false := by simpa [Pc.foreground] using hcond.1
          exact Or.inl ⟨cmdline, by rw [hbg]⟩
  · cases hstep

theorem addjob_of_free {t : JobTable} {pid : ℤ} (hpid : 1 ≤ pid)
    (hfree : ∃ i, (t.jobs i).pid = 0) (state : JobState) (cmdline : String) :
    ∃ i, (t.jobs i).pid = 0 ∧ (addjob t pid state cmdline).1.jobs =
      Function.update t.jobs i ⟨pid, t.nextjid, state, cmdline⟩ := by
  unfold addjob
  rw [if_neg (by omega)]
  cases hfirst : firstSlot t fun job => job.pid = 0 with
  | none =>
      obtain ⟨i, hi⟩ := hfree
      have hnone := firstSlot_none hfirst i
      simp [hi] at hnone
  | some i => exact ⟨i, by simpa using firstSlot_some hfirst, rfl⟩

theorem Held.addjob (h : Held s) {bg : Bool} {cmdline : String} {pid : ℤ}
    (heq : s.shell.pc = .evalAddjob bg cmdline pid) :
    Held ⟨{ s.shell with
      table := (addjob s.shell.table pid (if bg then .bg else .fg) cmdline).1
      pc := .evalRestore bg pid }, s.started⟩ := by
  obtain ⟨hreg, hfg, hpc, hawaited, -⟩ := h
  rw [heq] at hreg hfg hpc
  by_cases hpid : 1 ≤ pid
  · obtain ⟨hchild, hslot, hfree⟩ := hpc.2 hpid
    obtain ⟨i, hi, hjobs⟩ := addjob_of_free hpid hfree (if bg then .bg else .fg) cmdline
    refine ⟨hreg.occupy hi hjobs rfl hchild hslot, fun j hj => ?_, trivial,
      fun q hq => Or.inr ?_, nofun⟩
    · dsimp only at hj ⊢
      rw [hjobs] at hj
      obtain rfl | hne := eq_or_ne j i
      · rw [Function.update_self] at hj
        cases bg
        · exact ⟨rfl, by rw [hjobs, Function.update_self]⟩
        · cases hj
      · rw [Function.update_of_ne hne] at hj
        exact (hfg j hj).elim
    · obtain ⟨cmdline', hstart⟩ | hdead | ⟨j, -, hj⟩ := hawaited q hq
      · rw [heq] at hstart
        cases hstart
        refine Or.inr ⟨i, ?_, ?_⟩ <;> dsimp only <;> rw [hjobs, Function.update_self]
        rfl
      · exact Or.inl hdead
      · exact (hfg j hj).elim
  · have hsame : Tsh.addjob s.shell.table pid (if bg then .bg else .fg) cmdline =
        (s.shell.table, 0) := if_pos (by omega)
    rw [hsame]
    refine ⟨⟨hreg.positive, hreg.unique, hreg.live, hreg.distinct, fun c hc _ => ?_⟩,
      fun j hj => (hfg j hj).elim, trivial, fun q hq => Or.inr ?_, nofun⟩
    · have hpos := hreg.positive c hc
      exact hreg.listed c hc fun hc => hpid (by rw [Option.some.inj hc]; exact hpos)
    · obtain ⟨cmdline', hstart⟩ | hdead | ⟨j, -, hj⟩ := hawaited q hq
      · -- `fork` failed, nothing was started
        rw [heq] at hstart
        cases hstart
        exact Or.inl fun c hc hcp => absurd (hcp ▸ hreg.positive c hc) hpid
      · exact Or.inl hdead
      · exact (hfg j hj).elim

theorem Child.continue_pid (c : Child) : c.continue.pid = c.pid := by
  unfold Child.continue
  split <;> rfl

theorem nothing_started {P : ℤ → Prop} (pid : ℤ) (h : (none : Option ℤ) = some pid) : P pid := by
  cases h

theorem not_inBgfg {P : Prop} (h : false = true) : P := by cases h

theorem Held.shell (h : Held s) {shell : Shell} (hstep : shellStep s.shell = some shell) :
    Held ⟨shell, s.started⟩ := by
  have hwhole := h
  obtain ⟨hreg, hfg, hpc, hawaited, hbgfg⟩ := h
  have hlater (hnot : ∀ cmdline pid, s.shell.pc ≠ .evalAddjob false cmdline pid) (pid : ℤ)
      (hpid : s.started = some pid) : Awaited s.shell.table s.shell.children pid :=
    (hawaited pid hpid).resolve_left fun hstart => hstart.elim fun cmdline => hnot cmdline pid
  cases heq : s.shell.pc <;> simp only [shellStep, heq, reduceCtorEq, Option.some.injEq] at hstep
  case evalAddjob bg cmdline pid => exact hstep ▸ hwhole.addjob heq
  all_goals
    rw [heq] at hreg hfg hpc hbgfg
    simp only [heq, reduceCtorEq, ne_eq, not_false_eq_true, implies_true, forall_const] at hlater
  case evalStart bg cmdline =>
    exact hstep ▸ ⟨hreg, hfg, rfl, fun pid hpid => Or.inr (hlater pid hpid), not_inBgfg⟩
  case evalRestore bg pid =>
    subst hstep
    cases bg
    · exact ⟨hreg, fun i hi => (hfg i hi).2, trivial, fun pid hpid => Or.inr (hlater pid hpid),
        not_inBgfg⟩
    · refine ⟨hreg, fun i hi => absurd (hfg i hi).1 (by simp), trivial,
        fun pid hpid => Or.inr (hlater pid hpid), not_inBgfg⟩
  case bgfgLookup argv =>
    have hnone := hbgfg rfl
    cases hjob : bgfgJob s.shell.table argv <;> rw [hjob] at hstep <;>
      obtain rfl := Option.some.inj hstep <;> rw [hnone]
    · exact ⟨hreg, hfg, trivial, nothing_started, not_inBgfg⟩
    · exact ⟨hreg, hfg, trivial, nothing_started, fun _ => rfl⟩
  case bgfgKill fg job =>
    have hnone := hbgfg rfl
    subst hstep
    rw [hnone]
    refine ⟨hreg.update _ (fun c _ => ?_) fun _ => rfl, hfg, trivial, nothing_started, fun _ => rfl⟩
    split
    · exact c.continue_pid
    · rfl
  case bgfgSetState fg job =>
    have hnone := hbgfg rfl
    subst hstep
    rw [hnone]
    have hjob (j : Fin MAXJOBS) (hj : j ≠ job) (state : JobState) :
        (s.shell.table.set job { s.shell.table.jobs job with state }).jobs j =
          s.shell.table.jobs j := set_of_ne hj _
    refine ⟨?_, fun j hj => ?_, by cases fg <;> exact trivial, nothing_started, fun _ => rfl⟩
    · have hreg' : Registered (s.shell.table.set job
          { s.shell.table.jobs job with state := if fg then .fg else .bg }) s.shell.children none :=
        hreg.congr fun j => by
          obtain rfl | hne := eq_or_ne j job
          · rw [set_self]
          · rw [hjob j hne]
      cases fg <;> exact hreg'
    · obtain rfl | hne := eq_or_ne j job
      · cases fg
        · rw [set_self] at hj
          cases hj
        · rfl
      · rw [hjob j hne] at hj
        exact (hfg j hj).elim
  case bgfgWait job =>
    have hnone := hbgfg rfl
    subst hstep
    rw [hnone]
    exact ⟨hreg, fun i hi => congrArg (fun j => (s.shell.table.jobs j).pid) (hfg i hi).symm,
      trivial, nothing_started, not_inBgfg⟩
  case waitTest pid =>
    subst hstep
    by_cases htest : fgpid s.shell.table = pid
    · rw [if_pos htest]
      exact ⟨hreg, hfg, trivial, fun q hq => Or.inr (hlater q hq), not_inBgfg⟩
    · rw [if_neg htest]
      refine ⟨hreg, fun j hj => ?_, trivial, fun q hq => Or.inr (hlater q hq), not_inBgfg⟩
      obtain ⟨k, hk, hfgpid⟩ := fgpid_of_fg hj
      exact absurd (hfgpid.trans (hfg k hk)) htest
  case waitSuspend pid =>
    exact hstep ▸ ⟨hreg, hfg, trivial, fun pid hpid => Or.inr (hlater pid hpid), not_inBgfg⟩

theorem Held.resume (h : Held s) : Held ⟨{ s.shell with pc := s.shell.pc.resume }, s.started⟩ := by
  obtain ⟨hreg, hfg, hpc, hawaited, hbgfg⟩ := h
  cases heq : s.shell.pc <;> rw [heq] at hreg hfg hpc hawaited hbgfg
  case suspended pid =>
    refine ⟨hreg, hfg, trivial, fun q hq => Or.inr ?_, nofun⟩
    exact (hawaited q hq).resolve_left (by rintro ⟨_, hstart⟩; cases hstart)
  all_goals exact ⟨hreg, hfg, hpc, hawaited, hbgfg⟩

theorem Held.handler (h : Held s) {order : List ℤ} {shell : Shell}
    (hstep : handlerStep s.shell order = some shell) : Held ⟨shell, s.started⟩ := by
  obtain ⟨hreg, hfg, hpc, hawaited, hbgfg⟩ := h
  obtain ⟨-, haccepts, t, hloop, rfl⟩ := handlerStep_cases hstep
  -- the handler does not run between `fork` and `addjob`
  have hopen : PcHeld t s.shell.pc ∧ ∀ bg cmdline pid, s.shell.pc ≠ .evalAddjob bg cmdline pid := by
    cases heq : s.shell.pc <;> rw [heq] at hpc <;>
      simp only [Shell.accepts, heq, Bool.or_false, Bool.not_eq_true'] at haccepts
    case evalFork bg cmdline =>
      have hblocked : s.shell.blocked = true := hpc
      rw [hblocked] at haccepts
      cases haccepts
    case evalAddjob bg cmdline pid =>
      rw [hpc.1] at haccepts
      cases haccepts
    all_goals exact ⟨trivial, fun bg cmdline pid hpc => by cases hpc⟩
  have hlater (pid : ℤ) (hpid : s.started = some pid) :
      Awaited s.shell.table s.shell.children pid :=
    (hawaited pid hpid).resolve_left fun hstart => hstart.elim fun cmdline => hopen.2 _ cmdline pid
  have hkeep : t.pc = s.shell.pc ∧ Registered t.table t.children s.shell.pc.starting ∧
      (∀ i, (t.table.jobs i).state = .fg → s.shell.pc.waitsFor t.table i) ∧
      ∀ pid, s.started = some pid → Awaited t.table t.children pid := by
    refine handlerLoop_invariant (I := fun t => t.pc = s.shell.pc ∧
      Registered t.table t.children s.shell.pc.starting ∧
      (∀ i, (t.table.jobs i).state = .fg → s.shell.pc.waitsFor t.table i) ∧
      ∀ pid, s.started = some pid → Awaited t.table t.children pid) ?_ hloop
      ⟨rfl, hreg, hfg, hlater⟩
    rintro t c ⟨hsame, hreg, hfg, hlater⟩ hc hrep
    refine ⟨(handleChild_pc c).trans hsame, hreg.handleChild hc, fun i hi => ?_,
      fun pid hpid => (hlater pid hpid).handleChild hreg hc hrep⟩
    have hjob := handled_fg (hreg.positive c hc) hi
    rw [hjob] at hi
    exact waitsFor_congr _ (by rw [hjob]) (hfg i hi)
  obtain ⟨hsame, hreg, hfg, hlater⟩ := hkeep
  have hheld : Held ⟨t, s.started⟩ := by
    refine ⟨?_, ?_, ?_, fun pid hpid => Or.inr (hlater pid hpid), ?_⟩ <;> dsimp only <;> rw [hsame]
    · exact hreg
    · exact hfg
    · exact hopen.1
    · exact hbgfg
  exact hheld.resume

theorem Held.child (h : Held s) {pid : ℤ} {event : ChildEvent} {shell : Shell}
    (hstep : childStep s.shell pid event = some shell) : Held ⟨shell, s.started⟩ := by
  obtain ⟨hreg, hfg, hpc, hawaited, hbgfg⟩ := h
  obtain ⟨c, hc, c', hcpid, hevent, rfl⟩ := childStep_cases hstep
  obtain ⟨hsame, hrunning, -⟩ := ChildEvent.apply_spec hevent
  have hpid (d : Child) : (if d.pid = pid then c' else d).pid = d.pid := by
    split
    · next heq => rw [hsame, hcpid, heq]
    · rfl
  refine ⟨hreg.update _ (fun d _ => hpid d) fun _ => rfl, hfg, ?_, fun q hq => ?_, hbgfg⟩
  · cases heq : s.shell.pc <;> rw [heq] at hpc
    case evalFork => exact hpc
    case evalAddjob bg cmdline q =>
      refine ⟨hpc.1, fun hpos => ?_⟩
      obtain ⟨⟨d, hd, hdq⟩, hrest⟩ := hpc.2 hpos
      exact ⟨⟨_, List.mem_map_of_mem hd, (hpid d).trans hdq⟩, hrest⟩
    all_goals trivial
  · refine (hawaited q hq).imp_right fun h => h.imp_left fun hdead d' hd' hdq => ?_
    obtain ⟨d, hd, rfl⟩ := List.mem_map.mp hd'
    rw [hpid] at hdq
    have hnot := hdead d hd hdq
    split
    · next heq =>
        obtain rfl := hreg.unique d hd c hc (heq.trans hcpid.symm)
        exact fun hrun => hnot (hrunning hrun)
    · exact hnot

theorem Held.step (h : Held s) {a : Act} (hguard : SlotFree s a) (hstep : s.step a = some s') :
    Held s' := by
  obtain ⟨shell, hshell, rfl⟩ := Option.map_eq_some_iff.mp hstep
  cases a with
  | command argv bg cmdline =>
      obtain ⟨heq, hnext⟩ := Option.ite_none_right_eq_some.mp hshell
      exact Option.some.inj hnext ▸ h.command heq argv bg cmdline
  | fork result => exact h.fork hguard hshell
  | shell => exact h.shell hshell
  | sigchld order => exact h.handler hshell
  | otherSignal =>
      obtain ⟨_, hnext⟩ := Option.ite_none_left_eq_some.mp hshell
      exact Option.some.inj hnext ▸ h.resume
  | child pid event => exact h.child hshell

/-- As long as a child is only started when the table has a free slot, `eval` waits
for its foreground child and leaves every child in the table. -/
theorem eval_waits (blocked : Bool)
    (h : Reach Evaluating.step SlotFree (Evaluating.init blocked) s) : Evaluated s :=
  (h.invariant (Held.init blocked) fun _ _ _ h => h.step).evaluated

instance (s : Evaluating) : ∀ a, Decidable (SlotFree s a)
  | .command _ _ _ => inferInstanceAs (Decidable True)
  | .fork result => inferInstanceAs (Decidable (result ≠ -1 → ∃ i, (s.shell.table.jobs i).pid = 0))
  | .shell => inferInstanceAs (Decidable True)
  | .sigchld _ => inferInstanceAs (Decidable True)
  | .otherSignal => inferInstanceAs (Decidable True)
  | .child _ _ => inferInstanceAs (Decidable True)

/-- The foreground job of `stopTwice`, up to its first stop. -/
theorem eval_waits_stopTwice :
    ∃ s, run Evaluating.step (Evaluating.init false) (stopTwice.take 11) = some s ∧
      s.shell.pc = .ready ∧ s.started = some 7 ∧ Evaluated s := by
  have hrun : ((run Evaluating.step (Evaluating.init false) (stopTwice.take 11)).map fun s =>
      (s.shell.pc, s.started)) = some (.ready, some 7) := by decide +kernel
  obtain ⟨s, hs, hstate⟩ := Option.map_eq_some_iff.mp hrun
  obtain ⟨hpc, hstarted⟩ := Prod.mk.inj hstate
  have hmeets : RunMeets Evaluating.step SlotFree (Evaluating.init false) (stopTwice.take 11) :=
    runMeets_of_check (by decide +kernel)
  exact ⟨s, hs, hpc, hstarted, eval_waits false (reach_of_run _ hmeets hs)⟩

/-- Sixteen background jobs, and one more command in the foreground. -/
def seventeenJobs : List Act :=
  ((List.range 16).map fun k =>
    [.command ["sleep"] true "sleep &", .shell, .fork (k + 1), .shell, .shell]).flatten ++
      [.command ["sleep"] false "sleep", .shell, .fork 17, .shell, .shell, .shell]

/-- With a full table `eval` returns at once, and the child is not in the table. -/
theorem eval_returns_early : ¬ ∀ s, Reach Evaluating.step anyStep (Evaluating.init false) s →
    Evaluated s := by
  intro hall
  have hrun : ((run Evaluating.step (Evaluating.init false) seventeenJobs).map fun s =>
      (s.shell.pc, s.started, s.shell.children.any fun c => c.pid = 17 ∧ c.status = .running)) =
        some (.ready, some 17, true) := by decide +kernel
  obtain ⟨s, hs, hstate⟩ := Option.map_eq_some_iff.mp hrun
  simp only [Prod.mk.injEq, List.any_eq_true, decide_eq_true_eq] at hstate
  obtain ⟨hpc, hstarted, c, hc, hpid, hrunning⟩ := hstate
  exact (hall s (reach_of_run_anyStep seventeenJobs hs) hpc).1 17 hstarted c hc hpid hrunning

end OsLabs.Tsh
