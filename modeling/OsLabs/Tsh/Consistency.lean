import Mathlib
import OsLabs.Lib.Transition
import OsLabs.Tsh.JobTable
import OsLabs.Tsh.Handler

/-!
# The job table against the children

The slots of the table describe living children, and the slot `do_bgfg` is
about to write is the only one that may be behind.
-/

namespace OsLabs.Tsh

open OsLabs.Transition

/-- The slot whose state `do_bgfg` writes next, after its `SIGCONT`. -/
def Pc.writing : Pc → Option (Fin MAXJOBS)
  | .bgfgSetState _ i => some i
  | _ => none

/-- The table against the children, while `writing` may still be marked `ST`
although its child has been continued. -/
structure Matches (t : JobTable) (children : List Child) (writing : Option (Fin MAXJOBS)) :
    Prop where
  positive : ∀ c ∈ children, 1 ≤ c.pid
  unique : ∀ c ∈ children, ∀ d ∈ children, c.pid = d.pid → c = d
  empty : ∀ i, (t.jobs i).pid = 0 → (t.jobs i).jid = 0 ∧ (t.jobs i).state = .undef
  live : ∀ i, (t.jobs i).pid ≠ 0 → ∃ c ∈ children, c.pid = (t.jobs i).pid
  distinct : ∀ i j, (t.jobs i).pid ≠ 0 → (t.jobs i).pid = (t.jobs j).pid → i = j
  stopped : ∀ i, ∀ c ∈ children, c.pid = (t.jobs i).pid → (t.jobs i).state = .st →
    c.status = .running → writing = some i
  notStopped : ∀ i, ∀ c ∈ children, c.pid = (t.jobs i).pid → (t.jobs i).state ≠ .st →
    ¬ c.seenStopped

/-- Slot `i` may be in the foreground because the shell is about to wait for it. -/
def Pc.waitsFor (t : JobTable) (i : Fin MAXJOBS) : Pc → Prop
  | .evalRestore bg pid => bg = false ∧ (t.jobs i).pid = pid
  | .bgfgWait job => job = i
  | .waitTest pid => (t.jobs i).pid = pid
  | .waitSuspend pid => (t.jobs i).pid = pid
  | .suspended pid => (t.jobs i).pid = pid
  | _ => False

/-- What each statement relies on. -/
def PcSound (s : Shell) : Pc → Prop
  | .evalFork _ _ => s.blocked = true
  | .evalAddjob _ _ pid => s.blocked = true ∧ (pid = -1 ∨ 1 ≤ pid ∧
      (∃ c ∈ s.children, c.pid = pid) ∧ (∀ c ∈ s.children, c.pid = pid → ¬ c.seenStopped) ∧
      ∀ i, (s.table.jobs i).pid ≠ pid)
  | .bgfgKill _ job => (s.table.jobs job).pid ≠ 0
  | .bgfgSetState _ job => (s.table.jobs job).pid ≠ 0 ∧
      ∀ c ∈ s.children, c.pid = (s.table.jobs job).pid → ¬ c.seenStopped
  | _ => True

structure Consistent (s : Shell) : Prop where
  agrees : Matches s.table s.children s.pc.writing
  foreground : ∀ i, (s.table.jobs i).state = .fg → s.pc.waitsFor s.table i
  pc : PcSound s s.pc

/-! ## The table and the children -/

section Matches

variable {t t' : JobTable} {children : List Child} {w w' : Option (Fin MAXJOBS)}

/-- The children and the states of the slots change; no process comes or goes. -/
theorem Matches.update (h : Matches t children w) (f : Child → Child)
    (hpid : ∀ c ∈ children, (f c).pid = c.pid)
    (hslot : ∀ i, (t'.jobs i).pid = (t.jobs i).pid)
    (hempty : ∀ i, (t.jobs i).pid = 0 → t'.jobs i = t.jobs i)
    (hstopped : ∀ i, ∀ c ∈ children, c.pid = (t.jobs i).pid → (t'.jobs i).state = .st →
      (f c).status = .running → w' = some i)
    (hnot : ∀ i, ∀ c ∈ children, c.pid = (t.jobs i).pid → (t'.jobs i).state ≠ .st →
      ¬ (f c).seenStopped) :
    Matches t' (children.map f) w' where
  positive := by
    intro c' hc'
    obtain ⟨c, hc, rfl⟩ := List.mem_map.mp hc'
    rw [hpid c hc]
    exact h.positive c hc
  unique := by
    intro c' hc' d' hd' heq
    obtain ⟨c, hc, rfl⟩ := List.mem_map.mp hc'
    obtain ⟨d, hd, rfl⟩ := List.mem_map.mp hd'
    rw [hpid c hc, hpid d hd] at heq
    rw [h.unique c hc d hd heq]
  empty := by
    intro i hi
    rw [hslot] at hi
    rw [hempty i hi]
    exact h.empty i hi
  live := by
    intro i hi
    rw [hslot] at hi ⊢
    obtain ⟨c, hc, hci⟩ := h.live i hi
    exact ⟨f c, List.mem_map_of_mem hc, (hpid c hc).trans hci⟩
  distinct := by
    intro i j hi hij
    rw [hslot] at hi
    rw [hslot, hslot] at hij
    exact h.distinct i j hi hij
  stopped := by
    intro i c' hc' hci hst hrun
    obtain ⟨c, hc, rfl⟩ := List.mem_map.mp hc'
    rw [hpid c hc, hslot] at hci
    exact hstopped i c hc hci hst hrun
  notStopped := by
    intro i c' hc' hci hst
    obtain ⟨c, hc, rfl⟩ := List.mem_map.mp hc'
    rw [hpid c hc, hslot] at hci
    exact hnot i c hc hci hst

theorem Matches.state_of_pid_zero (h : Matches t children w) {i : Fin MAXJOBS}
    (hst : (t.jobs i).state ≠ .undef) : (t.jobs i).pid ≠ 0 :=
  fun hi => hst (h.empty i hi).2

/-- A new child has no slot yet. -/
theorem Matches.fork (h : Matches t children w) {pid : ℤ} (hpid : 1 ≤ pid)
    (hfresh : ∀ c ∈ children, c.pid ≠ pid) :
    Matches t (⟨pid, .running, false, false⟩ :: children) w ∧ ∀ i, (t.jobs i).pid ≠ pid := by
  have hslot : ∀ i, (t.jobs i).pid ≠ pid := by
    intro i hi
    obtain ⟨c, hc, hci⟩ := h.live i (by omega)
    exact hfresh c hc (hci.trans hi)
  refine ⟨⟨?_, ?_, h.empty, ?_, h.distinct, ?_, ?_⟩, hslot⟩
  · intro c hc
    obtain rfl | hc := List.mem_cons.mp hc
    · exact hpid
    · exact h.positive c hc
  · intro c hc d hd heq
    obtain rfl | hc := List.mem_cons.mp hc
    · obtain rfl | hd := List.mem_cons.mp hd
      · rfl
      · exact absurd heq.symm (hfresh d hd)
    · obtain rfl | hd := List.mem_cons.mp hd
      · exact absurd heq (hfresh c hc)
      · exact h.unique c hc d hd heq
  · intro i hi
    obtain ⟨c, hc, hci⟩ := h.live i hi
    exact ⟨c, List.mem_cons_of_mem _ hc, hci⟩
  · intro i c hc hci
    obtain rfl | hc := List.mem_cons.mp hc
    · exact absurd hci.symm (hslot i)
    · exact h.stopped i c hc hci
  · intro i c hc hci
    obtain rfl | hc := List.mem_cons.mp hc
    · exact absurd hci.symm (hslot i)
    · exact h.notStopped i c hc hci

/-- A child gets its slot. -/
theorem Matches.occupy (h : Matches t children w) {i : Fin MAXJOBS} {job : Job}
    (hjobs : t'.jobs = Function.update t.jobs i job) (hpid : 1 ≤ job.pid)
    (hchild : ∃ c ∈ children, c.pid = job.pid)
    (hslot : ∀ j, (t.jobs j).pid ≠ job.pid) (hstate : job.state ≠ .st)
    (hseen : ∀ c ∈ children, c.pid = job.pid → ¬ c.seenStopped) : Matches t' children w := by
  have hself : t'.jobs i = job := by simp [hjobs]
  have hother : ∀ j, j ≠ i → t'.jobs j = t.jobs j := by
    intro j hj
    simp [hjobs, hj]
  refine ⟨h.positive, h.unique, ?_, ?_, ?_, ?_, ?_⟩
  · intro j hj
    by_cases hji : j = i
    · rw [hji, hself] at hj
      omega
    · rw [hother j hji] at hj ⊢
      exact h.empty j hj
  · intro j hj
    by_cases hji : j = i
    · rw [hji, hself]
      exact hchild
    · rw [hother j hji] at hj ⊢
      exact h.live j hj
  · intro j k hj hjk
    by_cases hji : j = i
    · by_cases hki : k = i
      · rw [hji, hki]
      · rw [hji, hself, hother k hki] at hjk
        exact absurd hjk.symm (hslot k)
    · by_cases hki : k = i
      · rw [hki, hself, hother j hji] at hjk
        exact absurd hjk (hslot j)
      · rw [hother j hji] at hj
        rw [hother j hji, hother k hki] at hjk
        exact h.distinct j k hj hjk
  · intro j c hc hcj hst
    by_cases hji : j = i
    · rw [hji, hself] at hst
      exact absurd hst hstate
    · rw [hother j hji] at hcj hst
      exact h.stopped j c hc hcj hst
  · intro j c hc hcj hst
    by_cases hji : j = i
    · rw [hji, hself] at hcj
      exact hseen c hc hcj
    · rw [hother j hji] at hcj hst
      exact h.notStopped j c hc hcj hst

/-- A child is reaped and its slot, if it has one, is cleared. -/
theorem Matches.reap (h : Matches t children w) {pid : ℤ}
    (hclear : ∀ i, t'.jobs i = if (t.jobs i).pid = pid then clearjob else t.jobs i) :
    Matches t' (children.filter fun c => c.pid ≠ pid) w := by
  have hmem : ∀ c ∈ children.filter (fun c => c.pid ≠ pid), c ∈ children ∧ c.pid ≠ pid := by
    intro c hc
    simpa using hc
  have hlive : ∀ i, (t'.jobs i).pid ≠ 0 → t'.jobs i = t.jobs i ∧ (t.jobs i).pid ≠ pid := by
    intro i hi
    rw [hclear] at hi ⊢
    split at hi
    · exact absurd rfl hi
    · rename_i hne
      exact ⟨if_neg hne, hne⟩
  refine ⟨?_, ?_, ?_, ?_, ?_, ?_, ?_⟩
  · exact fun c hc => h.positive c (hmem c hc).1
  · exact fun c hc d hd => h.unique c (hmem c hc).1 d (hmem d hd).1
  · intro i hi
    rw [hclear] at hi ⊢
    split at hi
    · rename_i heq
      rw [if_pos heq]
      exact ⟨rfl, rfl⟩
    · rename_i hne
      rw [if_neg hne]
      exact h.empty i hi
  · intro i hi
    obtain ⟨hsame, hne⟩ := hlive i hi
    rw [hsame] at hi ⊢
    obtain ⟨c, hc, hci⟩ := h.live i hi
    exact ⟨c, List.mem_filter.mpr ⟨hc, by simpa [hci] using hne⟩, hci⟩
  · intro i j hi hij
    obtain ⟨hsame, hne⟩ := hlive i hi
    obtain ⟨hsame', _⟩ := hlive j (hij ▸ hi)
    rw [hsame] at hi
    rw [hsame, hsame'] at hij
    exact h.distinct i j hi hij
  · intro i c hc hci hst
    obtain ⟨hc, _⟩ := hmem c hc
    have hi : (t'.jobs i).pid ≠ 0 := by
      have := h.positive c hc
      omega
    rw [(hlive i hi).1] at hci hst
    exact h.stopped i c hc hci hst
  · intro i c hc hci hst
    obtain ⟨hc, _⟩ := hmem c hc
    have hi : (t'.jobs i).pid ≠ 0 := by
      have := h.positive c hc
      omega
    rw [(hlive i hi).1] at hci hst
    exact h.notStopped i c hc hci hst

theorem Matches.distinct_pid (h : Matches t children w) {pid : ℤ} (hpid : 1 ≤ pid)
    (i j : Fin MAXJOBS) (hi : (t.jobs i).pid = pid) (hj : (t.jobs j).pid = pid) : i = j :=
  h.distinct i j (by omega) (hi.trans hj.symm)

end Matches

/-! ## The handler -/

/-- What a delivery of `SIGCHLD` must not find while `do_bgfg` holds its
pointer: a dead process before the `SIGCONT`, any news of it after. -/
def undisturbed (s : Shell) : Bool :=
  match s.pc with
  | .bgfgKill _ job =>
      s.children.all fun c => c.pid = (s.table.jobs job).pid →
        c.status = .running ∨ c.status = .stopped
  | .bgfgSetState _ job =>
      s.children.all fun c => c.pid = (s.table.jobs job).pid → c.reportable = false
  | _ => true

variable {s s' : Shell}

/-- The handler does not run between `fork` and `addjob`. -/
theorem Consistent.accepting (h : Consistent s) (hacc : s.accepts = true) :
    (∀ bg cmdline, s.pc ≠ .evalFork bg cmdline) ∧
      ∀ bg cmdline pid, s.pc ≠ .evalAddjob bg cmdline pid := by
  have hpc := h.pc
  constructor
  · intro bg cmdline heq
    rw [heq] at hpc
    have hblocked : s.blocked = true := hpc
    simp [Shell.accepts, heq, hblocked] at hacc
  · intro bg cmdline pid heq
    rw [heq] at hpc
    have hblocked : s.blocked = true := hpc.1
    simp [Shell.accepts, heq, hblocked] at hacc

theorem Matches.markStopped (h : Matches s.table s.children s.pc.writing) {c : Child}
    (hc : c ∈ s.children) (hstop : c.status = .stopped) :
    Matches (markStopped s.table c.pid)
      (s.children.map fun d => if d.pid = c.pid then { d with reported := true } else d)
      s.pc.writing := by
  have hpid := h.positive c hc
  have hjobs := markStopped_jobs hpid (h.distinct_pid hpid)
  apply h.update
  · intro d _
    split <;> rfl
  · intro i
    rw [hjobs]
    split <;> rfl
  · intro i hi
    rw [hjobs, if_neg (by omega)]
  · intro i d hd hdi hst hrun
    by_cases hdc : d.pid = c.pid
    · rw [if_pos hdc] at hrun
      rw [h.unique d hd c hc hdc] at hrun
      rw [hstop] at hrun
      cases hrun
    · rw [if_neg hdc] at hrun
      rw [hjobs, if_neg (by rwa [← hdi])] at hst
      exact h.stopped i d hd hdi hst hrun
  · intro i d hd hdi hst
    by_cases hdc : d.pid = c.pid
    · rw [hjobs, if_pos (hdi.symm.trans hdc)] at hst
      exact absurd rfl hst
    · rw [if_neg hdc]
      rw [hjobs, if_neg (by rwa [← hdi])] at hst
      exact h.notStopped i d hd hdi hst

theorem Matches.deletejob (h : Matches s.table s.children s.pc.writing) {c : Child}
    (hc : c ∈ s.children) :
    Matches (deletejob s.table c.pid).1 (s.children.filter fun d => d.pid ≠ c.pid)
      s.pc.writing :=
  h.reap (deletejob_jobs (h.positive c hc) (h.distinct_pid (h.positive c hc)))

theorem Matches.handleChild (h : Matches s.table s.children s.pc.writing) {c : Child}
    (hc : c ∈ s.children) :
    Matches (handleChild s c).table (handleChild s c).children s.pc.writing := by
  unfold Tsh.handleChild
  split
  · rename_i hstop
    exact h.markStopped hc hstop
  · exact h.deletejob hc

/-- A slot of another process is not touched. -/
theorem handleChild_other (h : Matches s.table s.children s.pc.writing) {c : Child}
    (hc : c ∈ s.children) {i : Fin MAXJOBS} (hne : (s.table.jobs i).pid ≠ c.pid) :
    (handleChild s c).table.jobs i = s.table.jobs i := by
  have hpid := h.positive c hc
  unfold handleChild
  split
  · exact (markStopped_jobs hpid (h.distinct_pid hpid) i).trans (if_neg hne)
  · exact (deletejob_jobs hpid (h.distinct_pid hpid) i).trans (if_neg hne)

/-- The slot of the process itself is not in the foreground any more. -/
theorem handleChild_self (h : Matches s.table s.children s.pc.writing) {c : Child}
    (hc : c ∈ s.children) {i : Fin MAXJOBS} (heq : (s.table.jobs i).pid = c.pid) :
    ((handleChild s c).table.jobs i).state ≠ .fg := by
  have hpid := h.positive c hc
  unfold handleChild
  split
  · have := markStopped_jobs hpid (h.distinct_pid hpid) i
    rw [if_pos heq] at this
    simp [this]
  · have := deletejob_jobs hpid (h.distinct_pid hpid) i
    rw [if_pos heq] at this
    simp [this, clearjob]

theorem handleChild_stopped_pid (h : Matches s.table s.children s.pc.writing) {c : Child}
    (hc : c ∈ s.children) (hstop : c.status = .stopped) (i : Fin MAXJOBS) :
    ((handleChild s c).table.jobs i).pid = (s.table.jobs i).pid := by
  have hpid := h.positive c hc
  unfold handleChild
  rw [if_pos hstop]
  have := markStopped_jobs hpid (h.distinct_pid hpid) i
  split at this <;> simp [this]

theorem waitsFor_congr {t t' : JobTable} {i : Fin MAXJOBS} (pc : Pc)
    (hpid : (t'.jobs i).pid = (t.jobs i).pid) (h : pc.waitsFor t i) : pc.waitsFor t' i := by
  cases pc <;> simp_all [Pc.waitsFor]

/-- What one iteration of the handler keeps. -/
structure Handling (s : Shell) : Prop where
  consistent : Consistent s
  quiet : undisturbed s = true
  accepting : s.accepts = true

/-- The handler keeps the slot `do_bgfg` points to: a process that stops before
the `SIGCONT` keeps its slot, and there is no news of it after. -/
theorem handleChild_pointer (h : Matches s.table s.children s.pc.writing) {c : Child}
    (hund : undisturbed s = true) (hc : c ∈ s.children) (hrep : c.reportable = true) :
    (∀ fg job, s.pc = .bgfgKill fg job →
      ((handleChild s c).table.jobs job).pid = (s.table.jobs job).pid) ∧
    ∀ fg job, s.pc = .bgfgSetState fg job → (s.table.jobs job).pid ≠ c.pid := by
  constructor
  · intro fg job hpc
    by_cases heq : c.pid = (s.table.jobs job).pid
    · simp only [undisturbed, hpc, List.all_eq_true, decide_eq_true_eq] at hund
      apply handleChild_stopped_pid h hc
      obtain hrun | hstop := hund c hc heq
      · simp [Child.reportable, hrun] at hrep
      · exact hstop
    · rw [handleChild_other h hc (Ne.symm heq)]
  · intro fg job hpc heq
    simp only [undisturbed, hpc, List.all_eq_true, decide_eq_true_eq] at hund
    rw [hund c hc heq.symm] at hrep
    cases hrep

theorem Handling.handleChild (h : Handling s) {c : Child} (hc : c ∈ s.children)
    (hrep : c.reportable = true) : Handling (handleChild s c) := by
  obtain ⟨⟨hmatch, hfg, hpc⟩, hund, hacc⟩ := h
  have haccepting := Consistent.accepting ⟨hmatch, hfg, hpc⟩ hacc
  have hpointer := handleChild_pointer hmatch hund hc hrep
  refine ⟨⟨?_, ?_, ?_⟩, ?_, ?_⟩
  · rw [handleChild_pc]
    exact hmatch.handleChild hc
  · intro i hi
    rw [handleChild_pc]
    have hne : (s.table.jobs i).pid ≠ c.pid :=
      fun heq => handleChild_self hmatch hc heq hi
    have hsame := handleChild_other hmatch hc hne
    rw [hsame] at hi
    exact waitsFor_congr s.pc (by rw [hsame]) (hfg i hi)
  · rw [handleChild_pc]
    cases heq : s.pc with
    | evalFork bg cmdline => exact absurd heq (haccepting.1 bg cmdline)
    | evalAddjob bg cmdline pid => exact absurd heq (haccepting.2 bg cmdline pid)
    | bgfgKill fg job =>
        rw [heq] at hpc
        have hlive : (s.table.jobs job).pid ≠ 0 := hpc
        show ((Tsh.handleChild s c).table.jobs job).pid ≠ 0
        rwa [hpointer.1 fg job heq]
    | bgfgSetState fg job =>
        rw [heq] at hpc
        obtain ⟨hlive, hseen⟩ := hpc
        have hne := hpointer.2 fg job heq
        show _ ∧ _
        rw [handleChild_other hmatch hc hne]
        refine ⟨hlive, fun d hd hdj => ?_⟩
        have hdc : d.pid ≠ c.pid := by rwa [hdj]
        exact hseen d (mem_handleChild hd hdc) hdj
    | _ => trivial
  · unfold undisturbed at hund ⊢
    rw [handleChild_pc]
    cases heq : s.pc with
    | bgfgKill fg job =>
        simp only [heq, List.all_eq_true, decide_eq_true_eq] at hund ⊢
        rw [hpointer.1 fg job heq]
        intro d hd hdj
        obtain ⟨d', hd', hpid, hstatus⟩ := mem_handleChild_status hd
        rw [← hstatus]
        exact hund d' hd' (hpid.trans hdj)
    | bgfgSetState fg job =>
        have hne := hpointer.2 fg job heq
        simp only [heq, List.all_eq_true, decide_eq_true_eq] at hund ⊢
        rw [handleChild_other hmatch hc hne]
        intro d hd hdj
        exact hund d (mem_handleChild hd (by rwa [hdj])) hdj
    | _ => rfl
  · unfold Shell.accepts at hacc ⊢
    rwa [handleChild_pc, handleChild_blocked]

/-! ## Every step -/

theorem Consistent.handler (h : Consistent s) {order : List ℤ} (hund : undisturbed s = true)
    (hstep : handlerStep s order = some s') : Consistent s' := by
  obtain ⟨_, hacc, t, hloop, rfl⟩ := handlerStep_cases hstep
  have hstart : Handling { s with pending := false } :=
    ⟨⟨h.agrees, h.foreground, h.pc⟩, hund, hacc⟩
  have hend : Handling t :=
    handlerLoop_invariant (fun _ _ hs hc hrep => hs.handleChild hc hrep) hloop hstart
  obtain ⟨⟨hmatch, hfg, hpc⟩, _, _⟩ := hend
  cases heq : t.pc <;> rw [heq] at hmatch hfg hpc
  case suspended pid => exact ⟨hmatch, hfg, trivial⟩
  all_goals exact ⟨hmatch, hfg, hpc⟩

theorem Consistent.child (h : Consistent s) {pid : ℤ} {event : ChildEvent}
    (hstep : childStep s pid event = some s') : Consistent s' := by
  obtain ⟨c, hc, c', hcpid, hevent, rfl⟩ := childStep_cases hstep
  obtain ⟨hpid, hrunning, hseen⟩ := ChildEvent.apply_spec hevent
  obtain ⟨hmatch, hfg, hpc⟩ := h
  have hmap : ∀ d ∈ s.children, (if d.pid = pid then c' else d).pid = d.pid := by
    intro d _
    split
    · rename_i hd
      rw [hpid, hcpid, hd]
    · rfl
  have hnot : ∀ q, (∀ d ∈ s.children, d.pid = q → ¬ d.seenStopped) →
      ∀ d ∈ s.children.map (fun d => if d.pid = pid then c' else d),
        d.pid = q → ¬ d.seenStopped := by
    intro q hq d hd hdq
    obtain ⟨d', hd', rfl⟩ := List.mem_map.mp hd
    rw [hmap d' hd'] at hdq
    split
    · exact hseen
    · exact hq d' hd' hdq
  refine ⟨?_, hfg, ?_⟩
  · apply hmatch.update _ hmap (fun _ => rfl) (fun _ _ => rfl)
    · intro i d hd hdi hst hrun
      split at hrun
      · rename_i hdp
        obtain rfl := hmatch.unique d hd c hc (hdp.trans hcpid.symm)
        exact hmatch.stopped i d hd hdi hst (hrunning hrun)
      · exact hmatch.stopped i d hd hdi hst hrun
    · intro i d hd hdi hst
      split
      · exact hseen
      · exact hmatch.notStopped i d hd hdi hst
  · cases heq : s.pc with
    | evalAddjob bg cmdline q =>
        rw [heq] at hpc
        obtain ⟨hblocked, hq⟩ := hpc
        refine ⟨hblocked, hq.imp_right fun hq => ?_⟩
        obtain ⟨hpos, ⟨d, hd, hdq⟩, hqseen, hslot⟩ := hq
        exact ⟨hpos, ⟨_, List.mem_map_of_mem hd, (hmap d hd).trans hdq⟩, hnot q hqseen, hslot⟩
    | bgfgSetState fg job =>
        rw [heq] at hpc
        exact ⟨hpc.1, hnot _ hpc.2⟩
    | _ =>
        rw [heq] at hpc
        exact hpc

theorem Consistent.fork (h : Consistent s) {result : ℤ} (hstep : forkStep s result = some s') :
    Consistent s' := by
  obtain ⟨hmatch, hfg, hpc⟩ := h
  unfold forkStep at hstep
  split at hstep
  · rename_i bg cmdline heq
    rw [heq] at hmatch hfg hpc
    split at hstep
    · obtain rfl := Option.some.inj hstep
      exact ⟨hmatch, hfg, hpc, Or.inl rfl⟩
    · split at hstep
      · rename_i hresult
        obtain rfl := Option.some.inj hstep
        obtain ⟨hmatch', hslot⟩ := hmatch.fork hresult.1 hresult.2
        refine ⟨hmatch', hfg, hpc, Or.inr ⟨hresult.1, ⟨_, List.mem_cons_self, rfl⟩, ?_, hslot⟩⟩
        intro c hc hcr
        obtain rfl | hc := List.mem_cons.mp hc
        · simp [Child.seenStopped]
        · exact absurd hcr (hresult.2 c hc)
      · cases hstep
  · cases hstep

/-- The `SIGCONT` reaches the process: a stopped child has left the process group
of the shell. -/
def reachesGroup (s : Shell) : Bool :=
  match s.pc with
  | .bgfgKill _ job =>
      s.children.all fun c => c.pid = (s.table.jobs job).pid → c.status = .stopped →
        c.ownGroup = true
  | _ => true

theorem Consistent.addjob (h : Consistent s) {bg : Bool} {cmdline : String} {pid : ℤ}
    (heq : s.pc = .evalAddjob bg cmdline pid) :
    Consistent { s with
      table := (addjob s.table pid (if bg then .bg else .fg) cmdline).1
      pc := .evalRestore bg pid } := by
  obtain ⟨hmatch, hfg, hpc⟩ := h
  rw [heq] at hmatch hfg hpc
  obtain hsame | ⟨hpos, i, hjobs⟩ :=
    addjob_cases s.table pid (if bg then .bg else .fg) cmdline
  · rw [hsame]
    exact ⟨hmatch, fun j hj => (hfg j hj).elim, trivial⟩
  · obtain hpid | ⟨_, hchild, hseen, hslot⟩ := hpc.2
    · omega
    · refine ⟨?_, ?_, trivial⟩
      · apply hmatch.occupy hjobs hpos hchild hslot _ hseen
        split <;> simp
      · intro j hj
        by_cases hji : j = i
        · subst hji
          rw [hjobs, Function.update_self] at hj
          have hpid := congrArg Job.pid ((congrFun hjobs j).trans (Function.update_self ..))
          cases bg
          · exact ⟨rfl, hpid⟩
          · cases hj
        · rw [hjobs, Function.update_of_ne hji] at hj
          exact (hfg j hj).elim

theorem Child.not_seenStopped_continue (c : Child) : ¬ c.continue.seenStopped := by
  unfold Child.continue Child.seenStopped
  split
  · simp
  · exact fun h => absurd h.1 ‹_›

theorem Consistent.kill (h : Consistent s) {fg : Bool} {job : Fin MAXJOBS}
    (heq : s.pc = .bgfgKill fg job) (hgroup : reachesGroup s = true) :
    Consistent { s.sigcont (s.table.jobs job).pid with pc := .bgfgSetState fg job } := by
  obtain ⟨hmatch, hfg, hpc⟩ := h
  simp only [reachesGroup, heq, List.all_eq_true, decide_eq_true_eq] at hgroup
  rw [heq] at hmatch hfg hpc
  have hlive : (s.table.jobs job).pid ≠ 0 := hpc
  have hpid : ∀ c ∈ s.children,
      (if c.inGroup (s.table.jobs job).pid then c.continue else c).pid = c.pid := by
    intro c _
    unfold Child.continue
    split
    · split <;> rfl
    · rfl
  refine ⟨?_, fun i hi => (hfg i hi).elim, hlive, ?_⟩
  · apply hmatch.update _ hpid (fun _ => rfl) (fun _ _ => rfl)
    · intro i c hc hci hst hrun
      split at hrun
      · rename_i hin
        have hcj : c.pid = (s.table.jobs job).pid := by
          simp only [Child.inGroup, hlive, if_false, Bool.and_eq_true, decide_eq_true_eq] at hin
          exact hin.2
        exact congrArg some (hmatch.distinct job i hlive (hcj.symm.trans hci))
      · exact absurd (hmatch.stopped i c hc hci hst hrun) (by simp [Pc.writing])
    · intro i c hc hci hst
      split
      · exact c.not_seenStopped_continue
      · exact hmatch.notStopped i c hc hci hst
  · intro c' hc' hcj
    obtain ⟨c, hc, rfl⟩ := List.mem_map.mp hc'
    replace hcj : c.pid = (s.table.jobs job).pid := (hpid c hc).symm.trans hcj
    split
    · exact c.not_seenStopped_continue
    · rename_i hin
      rintro ⟨hstop, _⟩
      have hown := hgroup c hc hcj hstop
      simp [Child.inGroup, hlive, hown, hcj] at hin

theorem Consistent.setState (h : Consistent s) {fg : Bool} {job : Fin MAXJOBS}
    (heq : s.pc = .bgfgSetState fg job) :
    Consistent { s with
      table := s.table.set job { s.table.jobs job with state := if fg then .fg else .bg }
      pc := if fg then .bgfgWait job else .ready } := by
  obtain ⟨hmatch, hfg, hpc⟩ := h
  rw [heq] at hmatch hfg hpc
  obtain ⟨hlive, hseen⟩ := hpc
  have hwriting : (if fg then Pc.bgfgWait job else .ready).writing = none := by
    cases fg <;> rfl
  refine ⟨?_, ?_, ?_⟩
  · rw [hwriting, ← List.map_id s.children]
    apply hmatch.update id (fun _ _ => rfl)
    · intro i
      by_cases hij : i = job
      · simp [hij]
      · simp [set_of_ne hij]
    · intro i hi
      have hij : i ≠ job := by
        rintro rfl
        exact hlive hi
      simp [set_of_ne hij]
    · intro i c hc hci hst hrun
      by_cases hij : i = job
      · rw [hij] at hst
        cases fg <;> simp at hst
      · rw [set_of_ne hij] at hst
        have := hmatch.stopped i c hc hci hst hrun
        exact absurd (Option.some.inj this).symm hij
    · intro i c hc hci hst
      by_cases hij : i = job
      · exact hseen c hc (hij ▸ hci)
      · rw [set_of_ne hij] at hst
        exact hmatch.notStopped i c hc hci hst
  · intro i hi
    by_cases hij : i = job
    · rw [hij] at hi ⊢
      cases fg
      · simp at hi
      · rfl
    · rw [set_of_ne hij] at hi
      exact (hfg i hi).elim
  · cases fg <;> trivial

theorem bgfgJob_live (hmatch : Matches s.table s.children s.pc.writing) {argv : List String}
    {job : Fin MAXJOBS} (h : bgfgJob s.table argv = some job) :
    (s.table.jobs job).pid ≠ 0 := by
  have hjid : ∀ jid, getjobjid s.table jid = some job → (s.table.jobs job).pid ≠ 0 := by
    intro jid hget hzero
    obtain ⟨hpos, hjid⟩ := getjobjid_some hget
    have := (hmatch.empty job hzero).1
    omega
  have hpid : ∀ pid, getjobpid s.table pid = some job → (s.table.jobs job).pid ≠ 0 := by
    intro pid hget
    obtain ⟨hpos, hpid⟩ := getjobpid_some hget
    omega
  unfold bgfgJob at h
  split at h
  · split at h
    · exact hjid _ h
    · split at h
      · exact hpid _ h
      · cases h
    · cases h
  · cases h

/-- When `waitfg` returns there is no foreground job. -/
theorem Consistent.waitTest (h : Consistent s) {pid : ℤ} (heq : s.pc = .waitTest pid) :
    Consistent { s with pc := if fgpid s.table = pid then .waitSuspend pid else .ready } := by
  obtain ⟨hmatch, hfg, hpc⟩ := h
  rw [heq] at hmatch hfg
  split
  · exact ⟨hmatch, hfg, trivial⟩
  · rename_i hne
    refine ⟨hmatch, fun i hi => ?_, trivial⟩
    obtain ⟨j, hj, hpid⟩ := fgpid_of_fg hi
    exact absurd (hpid.trans (hfg j hj)) hne

theorem Consistent.shell (h : Consistent s) (hgroup : reachesGroup s = true)
    (hstep : shellStep s = some s') : Consistent s' := by
  cases heq : s.pc <;> simp only [shellStep, heq, reduceCtorEq, Option.some.injEq] at hstep
  case evalStart bg cmdline =>
    obtain ⟨hmatch, hfg, _⟩ := h
    rw [heq] at hmatch hfg
    exact hstep ▸ ⟨hmatch, hfg, rfl⟩
  case evalAddjob bg cmdline pid => exact hstep ▸ h.addjob heq
  case evalRestore bg pid =>
    obtain ⟨hmatch, hfg, _⟩ := h
    rw [heq] at hmatch hfg
    subst hstep
    cases bg
    · exact ⟨hmatch, fun i hi => (hfg i hi).2, trivial⟩
    · exact ⟨hmatch, fun i hi => absurd (hfg i hi).1 (by simp), trivial⟩
  case bgfgLookup argv =>
    obtain ⟨hmatch, hfg, _⟩ := h
    cases hjob : bgfgJob s.table argv with
    | none =>
        rw [hjob] at hstep
        rw [heq] at hmatch hfg
        obtain rfl := Option.some.inj hstep
        exact ⟨hmatch, hfg, trivial⟩
    | some job =>
        have hlive := bgfgJob_live hmatch hjob
        rw [hjob] at hstep
        rw [heq] at hmatch hfg
        obtain rfl := Option.some.inj hstep
        exact ⟨hmatch, hfg, hlive⟩
  case bgfgKill fg job => exact hstep ▸ h.kill heq hgroup
  case bgfgSetState fg job => exact hstep ▸ h.setState heq
  case bgfgWait job =>
    obtain ⟨hmatch, hfg, _⟩ := h
    rw [heq] at hmatch hfg
    subst hstep
    exact ⟨hmatch, fun i hi => congrArg (fun j => (s.table.jobs j).pid) (hfg i hi).symm, trivial⟩
  case waitTest pid => exact hstep ▸ h.waitTest heq
  case waitSuspend pid =>
    obtain ⟨hmatch, hfg, _⟩ := h
    rw [heq] at hmatch hfg
    exact hstep ▸ ⟨hmatch, hfg, trivial⟩

/-! ## Runs -/

/-- Left out are the deliveries of `SIGCHLD` that overtake `do_bgfg`, and a
`SIGCONT` that misses the process. -/
def BgfgUndisturbed (s : Shell) : Act → Prop
  | .sigchld _ => undisturbed s = true
  | .shell => reachesGroup s = true
  | _ => True

theorem Consistent.init (blocked : Bool) : Consistent (Shell.init blocked) where
  agrees :=
    { positive := fun c hc => by cases hc
      unique := fun c hc => by cases hc
      empty := fun _ _ => ⟨rfl, rfl⟩
      live := fun _ hi => absurd rfl hi
      distinct := fun _ _ hi => absurd rfl hi
      stopped := fun _ c hc => by cases hc
      notStopped := fun _ c hc => by cases hc }
  foreground := fun _ hi => by cases hi
  pc := trivial

theorem Consistent.command (h : Consistent s) (heq : s.pc = .ready) (argv : List String)
    (bg : Bool) (cmdline : String) :
    Consistent { s with pc := evalCommand argv bg cmdline } := by
  obtain ⟨hmatch, hfg, _⟩ := h
  rw [heq] at hmatch hfg
  have hstart : (evalCommand argv bg cmdline).writing = none ∧
      PcSound { s with pc := evalCommand argv bg cmdline } (evalCommand argv bg cmdline) := by
    unfold evalCommand
    split
    · exact ⟨rfl, trivial⟩
    · split_ifs <;> exact ⟨rfl, trivial⟩
  exact ⟨by rw [hstart.1]; exact hmatch, fun i hi => (hfg i hi).elim, hstart.2⟩

theorem Consistent.resume (h : Consistent s) : Consistent { s with pc := s.pc.resume } := by
  obtain ⟨hmatch, hfg, hpc⟩ := h
  cases heq : s.pc <;> rw [heq] at hmatch hfg hpc
  case suspended pid => exact ⟨hmatch, hfg, trivial⟩
  all_goals exact ⟨hmatch, hfg, hpc⟩

theorem Consistent.step (h : Consistent s) {a : Act} (hguard : BgfgUndisturbed s a)
    (hstep : step s a = some s') : Consistent s' := by
  cases a with
  | command argv bg cmdline =>
      obtain ⟨heq, hnext⟩ := Option.ite_none_right_eq_some.mp hstep
      exact Option.some.inj hnext ▸ h.command heq argv bg cmdline
  | fork result => exact h.fork hstep
  | shell => exact h.shell hguard hstep
  | sigchld order => exact h.handler hguard hstep
  | otherSignal =>
      obtain ⟨_, hnext⟩ := Option.ite_none_left_eq_some.mp hstep
      exact Option.some.inj hnext ▸ h.resume
  | child pid event => exact h.child hstep

/-- What the job table says about the children. -/
structure TableSound (s : Shell) : Prop where
  empty : ∀ i, (s.table.jobs i).pid = 0 →
    (s.table.jobs i).jid = 0 ∧ (s.table.jobs i).state = .undef
  oneForeground : ∀ i j, (s.table.jobs i).state = .fg → (s.table.jobs j).state = .fg → i = j
  stopped_iff : s.pc.writing = none → (∀ c ∈ s.children, c.reportable = false) →
    ∀ i, (s.table.jobs i).pid ≠ 0 → ((s.table.jobs i).state = .st ↔
      ∃ c ∈ s.children, c.pid = (s.table.jobs i).pid ∧ c.status = .stopped)
  marked : ∀ job, s.pc.writing = some job → (s.table.jobs job).pid ≠ 0 ∧
    ∃ c ∈ s.children, c.pid = (s.table.jobs job).pid ∧ ¬ c.seenStopped

theorem Consistent.tableSound (h : Consistent s) : TableSound s := by
  obtain ⟨hmatch, hfg, hpc⟩ := h
  refine ⟨hmatch.empty, ?_, ?_, ?_⟩
  · intro i j hi hj
    have hlive : (s.table.jobs i).pid ≠ 0 := hmatch.state_of_pid_zero (by simp [hi])
    have hwaiti := hfg i hi
    have hwaitj := hfg j hj
    cases heq : s.pc <;> rw [heq] at hwaiti hwaitj
    case evalRestore bg pid => exact hmatch.distinct i j hlive (hwaiti.2.trans hwaitj.2.symm)
    case bgfgWait job => exact hwaiti.symm.trans hwaitj
    case waitTest pid => exact hmatch.distinct i j hlive (hwaiti.trans hwaitj.symm)
    case waitSuspend pid => exact hmatch.distinct i j hlive (hwaiti.trans hwaitj.symm)
    case suspended pid => exact hmatch.distinct i j hlive (hwaiti.trans hwaitj.symm)
    all_goals exact hwaiti.elim
  · intro hwriting hdrained i hi
    rw [hwriting] at hmatch
    constructor
    · intro hst
      obtain ⟨c, hc, hci⟩ := hmatch.live i hi
      refine ⟨c, hc, hci, ?_⟩
      have hrep := hdrained c hc
      have hrun := hmatch.stopped i c hc hci hst
      cases hstatus : c.status <;> simp_all [Child.reportable]
    · rintro ⟨c, hc, hci, hstop⟩
      have hrep := hdrained c hc
      by_contra hst
      exact hmatch.notStopped i c hc hci hst ⟨hstop, by simpa [Child.reportable, hstop] using hrep⟩
  · intro job hwriting
    cases heq : s.pc <;> rw [heq] at hwriting hpc <;> simp only [Pc.writing, reduceCtorEq,
      Option.some.injEq] at hwriting
    subst hwriting
    obtain ⟨c, hc, hci⟩ := hmatch.live _ hpc.1
    exact ⟨hpc.1, c, hc, hci, hpc.2 c hc hci⟩

/-- As long as no delivery of `SIGCHLD` overtakes `do_bgfg`, the job table agrees
with the children. -/
theorem table_sound (blocked : Bool)
    (h : Reach step BgfgUndisturbed (Shell.init blocked) s) : TableSound s :=
  (h.invariant (Consistent.init blocked) fun _ _ _ h => h.step).tableSound

instance (s : Shell) : ∀ a, Decidable (BgfgUndisturbed s a)
  | .command _ _ _ => inferInstanceAs (Decidable True)
  | .fork _ => inferInstanceAs (Decidable True)
  | .shell => inferInstanceAs (Decidable (reachesGroup s = true))
  | .sigchld _ => inferInstanceAs (Decidable (undisturbed s = true))
  | .otherSignal => inferInstanceAs (Decidable True)
  | .child _ _ => inferInstanceAs (Decidable True)

/-- A foreground job is stopped, resumed by `fg` and stopped again. -/
def stopTwice : List Act :=
  [.command ["sleep"] false "sleep", .shell, .fork 7, .shell, .shell, .shell, .shell,
    .child 7 .setpgid, .child 7 .stop, .sigchld [7], .shell,
    .command ["fg", "%1"] false "fg %1", .shell, .shell, .shell, .shell, .shell, .shell,
    .child 7 .stop, .sigchld [7], .shell]

theorem table_sound_stopTwice :
    ∃ s, run step (Shell.init false) stopTwice = some s ∧ (s.table.jobs 0).state = .st ∧
      TableSound s := by
  have hrun : ((run step (Shell.init false) stopTwice).map fun s => (s.table.jobs 0).state) =
      some .st := by decide +kernel
  obtain ⟨s, hs, hst⟩ := Option.map_eq_some_iff.mp hrun
  have hmeets : RunMeets step BgfgUndisturbed (Shell.init false) stopTwice :=
    runMeets_of_check (by decide +kernel)
  exact ⟨s, hs, hst, table_sound false (reach_of_run stopTwice hmeets hs)⟩

/-- A background job is resumed and dies; its slot is cleared before `do_bgfg`
writes the state. -/
def bgOvertaken : List Act :=
  [.command ["sleep"] true "sleep &", .shell, .fork 7, .shell, .shell,
    .command ["bg", "%1"] false "bg %1", .shell, .shell, .child 7 .exit, .sigchld [7], .shell]

theorem table_unsound :
    ¬ ∀ s, Reach step anyStep (Shell.init false) s → TableSound s := by
  intro hall
  have hrun : ((run step (Shell.init false) bgOvertaken).map fun s =>
      ((s.table.jobs 0).pid, (s.table.jobs 0).state)) = some (0, .bg) := by decide +kernel
  obtain ⟨s, hs, hslot⟩ := Option.map_eq_some_iff.mp hrun
  obtain ⟨hpid, hstate⟩ := Prod.mk.inj hslot
  have hundef := ((hall s (reach_of_run_anyStep bgOvertaken hs)).empty 0 hpid).2
  rw [hstate] at hundef
  cases hundef

end OsLabs.Tsh
