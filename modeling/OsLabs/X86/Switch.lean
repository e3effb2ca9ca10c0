import OsLabs.X86.Processes

/-!
# What a switch keeps

Saving and restoring a thread loses none of its registers and conditions. `next`
finds a thread that is not done whenever there is one.
-/

namespace OsLabs.X86

open OsLabs.SharedMemory OsLabs.Checked

variable {o : Options} {procs : Proclist} {s s' : State} {i : ℕ}

/-! ## Saving and restoring -/

theorem foldl_update_apply {α β : Type*} [DecidableEq α] (keys : List α) (f g : α → β) (x : α) :
    keys.foldl (fun h key => Function.update h key (g key)) f x = if x ∈ keys then g x else f x := by
  induction keys generalizing f with
  | nil => rfl
  | cons key keys ih =>
      rw [List.foldl_cons, ih]
      by_cases hmem : x ∈ keys
      · rw [if_pos hmem, if_pos (List.mem_cons_of_mem _ hmem)]
      · rw [if_neg hmem]
        obtain rfl | hne := eq_or_ne x key
        · rw [Function.update_self, if_pos List.mem_cons_self]
        · rw [Function.update_of_ne hne, if_neg (by simp [hne, hmem])]

theorem foldl_update_all {α β : Type*} [DecidableEq α] {keys : List α} (hkeys : ∀ x, x ∈ keys)
    (f g : α → β) : keys.foldl (fun h key => Function.update h key (g key)) f = g :=
  funext fun x => (foldl_update_apply keys f g x).trans (if_pos (hkeys x))

theorem mem_condlist (c : Cond) : c ∈ condlist := by cases c <;> decide

theorem mem_regnums (r : Reg) : r ∈ regnums := by cases r <;> decide

/-- What a process has saved. -/
def Process.context (p : Process) : Cpu := ⟨p.pc, p.regs, p.cc⟩

theorem save_context (p : Process) (cpu : Cpu) : (p.save cpu).context = cpu := by
  rw [Process.save, Process.context, foldl_update_all mem_condlist, foldl_update_all mem_regnums]

theorem restore_eq (p : Process) (cpu : Cpu) : p.restore cpu = p.context := by
  rw [Process.restore, Process.context, foldl_update_all mem_condlist,
    foldl_update_all mem_regnums]

/-! ## The next thread -/

/-- The schedule is that of the threads, and `active` counts those that are not done. -/
structure Scheduled (procs : Proclist) : Prop where
  curr_lt : procs.curr < procs.procsched.length
  lt : ∀ p ∈ procs.procsched, p < procs.getnum
  mem : ∀ p < procs.getnum, p ∈ procs.procsched
  active : procs.active = ((Finset.range procs.getnum).filter fun p => (procs.plist p).done = false).card

theorem getD_mem {l : List ℕ} {k : ℕ} (h : k < l.length) : l.getD k 0 ∈ l := by
  rw [List.getD_eq_getElem _ _ h]
  exact List.getElem_mem h

theorem Scheduled.current_lt (h : Scheduled procs) : procs.current < procs.getnum :=
  h.lt _ (getD_mem h.curr_lt)

theorem nextFrom_eq {fuel curr k : ℕ} (hcurr : curr < procs.procsched.length) (hk : k < fuel)
    (hdone : (procs.plist (procs.procsched.getD ((curr + k + 1) % procs.procsched.length) 0)).done =
      false) : ∃ next, procs.nextFrom fuel curr = .ok next ∧ next < procs.procsched.length ∧
        (procs.plist (procs.procsched.getD next 0)).done = false := by
  induction fuel generalizing curr k with
  | zero => exact absurd hk (Nat.not_lt_zero k)
  | succ fuel ih =>
      have hnext : (if curr + 1 = procs.procsched.length then 0 else curr + 1) =
          (curr + 1) % procs.procsched.length := by
        split
        · next heq => rw [heq, Nat.mod_self]
        · next hne => exact (Nat.mod_eq_of_lt (by omega)).symm
      have hlt := Nat.mod_lt (curr + 1) (Nat.zero_lt_of_lt hcurr)
      rw [Proclist.nextFrom, hnext]
      split
      · next hfound => exact ⟨_, rfl, hlt, hfound⟩
      · next hskip =>
          cases k with
          | zero => exact absurd hdone hskip
          | succ k =>
              refine ih hlt (Nat.lt_of_succ_lt_succ hk) (k := k) ?_
              rwa [Nat.add_assoc, Nat.mod_add_mod, show curr + 1 + (k + 1) = curr + (k + 1) + 1 by omega]

/-- `next` changes nothing but the current thread. -/
theorem Scheduled.next (h : Scheduled procs) (hleft : ∃ p < procs.getnum, (procs.plist p).done = false) :
    ∃ curr, procs.next = .ok { procs with curr } ∧ Scheduled { procs with curr } ∧
      ({ procs with curr } : Proclist).getcurr.done = false := by
  obtain ⟨p, hp, hdone⟩ := hleft
  obtain ⟨k, hk, rfl⟩ := List.mem_iff_getElem.mp (h.mem p hp)
  -- how far `k` is ahead
  have hlength := Nat.zero_lt_of_lt hk
  have hcurr := h.curr_lt
  have hahead : (procs.curr + (k + procs.procsched.length - procs.curr - 1) % procs.procsched.length + 1) %
      procs.procsched.length = k := by
    rw [Nat.add_assoc, Nat.add_comm (_ % _) 1, ← Nat.add_assoc, Nat.add_mod_mod,
      show procs.curr + 1 + (k + procs.procsched.length - procs.curr - 1) =
        k + procs.procsched.length by omega, Nat.add_mod_right, Nat.mod_eq_of_lt hk]
  have hnotdone : (procs.plist (procs.procsched.getD ((procs.curr +
      (k + procs.procsched.length - procs.curr - 1) % procs.procsched.length + 1) %
        procs.procsched.length) 0)).done = false := by
    rw [hahead, List.getD_eq_getElem _ _ hk]
    exact hdone
  obtain ⟨curr, hnext, hlt, hfound⟩ := nextFrom_eq hcurr (Nat.mod_lt _ hlength) hnotdone
  refine ⟨curr, ?_, ⟨hlt, h.lt, h.mem, h.active⟩, hfound⟩
  rw [Proclist.next, hnext]
  rfl

/-! ## Contexts -/

/-- The registers and conditions of a thread: in the CPU, or saved. -/
def State.context (s : State) (i : ℕ) : Cpu :=
  if i = s.procs.current then s.cpu else (s.procs.plist i).context

def State.isdone (s : State) (i : ℕ) : Bool := (s.procs.plist i).done

/-- Another thread may be running; the threads themselves are as before. -/
structure Kept (s s' : State) : Prop where
  scheduled : Scheduled s'.procs
  running : s'.isdone s'.procs.current = false
  getnum : s'.procs.getnum = s.procs.getnum
  memory : s'.memory = s.memory
  trace : s'.trace = s.trace
  isdone : ∀ i, s'.isdone i = s.isdone i
  context : ∀ i, s.isdone i = false → s'.context i = s.context i

theorem Kept.trans {s₁ : State} (h : Kept s s₁) (h' : Kept s₁ s') : Kept s s' where
  scheduled := h'.scheduled
  running := h'.running
  getnum := h'.getnum.trans h.getnum
  memory := h'.memory.trans h.memory
  trace := h'.trace.trans h.trace
  isdone i := (h'.isdone i).trans (h.isdone i)
  context i hi := (h'.context i ((h.isdone i).trans hi)).trans (h.context i hi)

/-- The state has its threads' contexts in the list, for all that are not done. -/
theorem switch_kept (h : Scheduled s.procs) (hleft : ∃ p < s.procs.getnum, s.isdone p = false)
    (hsaved : ∀ i, s.isdone i = false → (s.procs.plist i).context = s.context i) :
    Safe (fun _ => False) s.switch (Kept s) := by
  obtain ⟨curr, hnext, hscheduled, hrunning⟩ := h.next hleft
  rw [State.switch, hnext]
  refine Safe.ok ⟨hscheduled, hrunning, rfl, rfl, rfl, fun _ => rfl, fun i hi => ?_⟩
  rw [← hsaved i hi, State.context]
  split
  · next heq =>
      change Process.restore _ s.cpu = _
      rw [restore_eq, heq]
      rfl
  · rfl

theorem Scheduled.setcurr (h : Scheduled procs) {p : Process} (hdone : p.done = procs.getcurr.done) :
    Scheduled (procs.setcurr p) where
  curr_lt := h.curr_lt
  lt := h.lt
  mem := h.mem
  active := by
    refine h.active.trans (congrArg Finset.card (Finset.filter_congr fun i _ => ?_))
    change _ ↔ (Function.update procs.plist procs.current p i).done = false
    obtain rfl | hne := eq_or_ne i procs.current
    · rw [Function.update_self, hdone]
      rfl
    · rw [Function.update_of_ne hne]

theorem countdown_kept (h : Scheduled s.procs) (hrunning : s.isdone s.procs.current = false)
    (draw : ℕ) (rc : Rc) : Safe (fun _ => False) (s.countdown o draw rc) (Kept s) := by
  rw [State.countdown]
  split
  · -- saving the current thread
    set saved : State := { s with
      interrupt := setint o s.procs.manual draw
      procs := s.procs.save s.cpu } with hsaved
    have hcurrent : saved.procs.current = s.procs.current := rfl
    have hplist (i : ℕ) : (saved.procs.plist i).context = s.context i ∧
        saved.isdone i = s.isdone i := by
      rw [State.context]
      obtain rfl | hne := eq_or_ne i s.procs.current
      · rw [if_pos rfl, State.isdone, State.isdone]
        change (Function.update s.procs.plist s.procs.current _ s.procs.current).context = _ ∧
          (Function.update s.procs.plist s.procs.current _ s.procs.current).done = _
        rw [Function.update_self]
        exact ⟨save_context _ _, rfl⟩
      · rw [if_neg hne, State.isdone, State.isdone]
        change (Function.update s.procs.plist s.procs.current _ i).context = _ ∧
          (Function.update s.procs.plist s.procs.current _ i).done = _
        rw [Function.update_of_ne hne]
        exact ⟨rfl, rfl⟩
    have hscheduled : Scheduled saved.procs := h.setcurr rfl
    have hcontext (i : ℕ) : saved.context i = s.context i := by
      rw [State.context, hcurrent]
      split
      · next heq => rw [State.context, if_pos heq]
      · exact (hplist i).1
    refine (switch_kept hscheduled ⟨_, h.current_lt, ?_⟩ fun i _ => ?_).mono fun s' hs' =>
      ⟨hs'.scheduled, hs'.running, hs'.getnum, hs'.memory, hs'.trace,
        fun i => (hs'.isdone i).trans (hplist i).2, fun i hi => ?_⟩
    · rw [(hplist _).2]
      exact hrunning
    · rw [(hplist i).1, hcontext]
    · rw [hs'.context i ((hplist i).2.trans hi), hcontext]
  · exact Safe.ok ⟨h, hrunning, rfl, rfl, rfl, fun _ => rfl, fun _ _ => rfl⟩

/-! ## A step -/

/-- The current thread has executed an instruction, and nothing else has happened to
the threads. -/
structure Stepped (s : State) (rc : Rc) (memory : Memory) (entry : Entry) (s' : State) : Prop where
  scheduled : Scheduled s'.procs
  running : s'.done = false → s'.isdone s'.procs.current = false
  getnum : s'.procs.getnum = s.procs.getnum
  memory : s'.memory = memory
  trace : s'.trace = Function.update s.trace s.procs.current (s.trace s.procs.current ++ [entry])
  isdone : ∀ i, s'.isdone i = if i = s.procs.current ∧ rc = some (-1) then true else s.isdone i
  context : ∀ i, s'.isdone i = false →
    s'.context i = if i = s.procs.current then entry.cpu else s.context i

/-- The current thread is done. -/
theorem Scheduled.done (h : Scheduled procs) (hrunning : procs.getcurr.done = false) :
    Scheduled procs.done where
  curr_lt := h.curr_lt
  lt := h.lt
  mem := h.mem
  active := by
    have hcurrent : procs.current ∈
        (Finset.range procs.getnum).filter fun p => (procs.plist p).done = false :=
      Finset.mem_filter.mpr ⟨Finset.mem_range.mpr h.current_lt, hrunning⟩
    have herase : ((Finset.range procs.getnum).filter fun p => (procs.done.plist p).done = false) =
        ((Finset.range procs.getnum).filter fun p => (procs.plist p).done = false).erase
          procs.current := by
      ext p
      rw [Finset.mem_erase, Finset.mem_filter, Finset.mem_filter]
      change _ ∧ (Function.update procs.plist procs.current _ p).done = false ↔ _
      obtain rfl | hne := eq_or_ne p procs.current
      · simp
      · simp [hne]
    change procs.active - 1 = _
    rw [show procs.done.getnum = procs.getnum from rfl, herase, Finset.card_erase_of_mem hcurrent,
      ← h.active]

theorem Scheduled.exists_left (h : Scheduled procs) (hdone : procs.numdone ≠ procs.getnum) :
    ∃ p < procs.getnum, (procs.plist p).done = false := by
  by_contra hnone
  push Not at hnone
  have hempty : ((Finset.range procs.getnum).filter fun p => (procs.plist p).done = false) = ∅ :=
    Finset.filter_eq_empty_iff.mpr fun p hp => hnone p (Finset.mem_range.mp hp)
  have := h.active
  rw [hempty, Finset.card_empty] at this
  rw [Proclist.numdone, this] at hdone
  exact hdone (Nat.sub_zero _)

section Executed

variable {rc : Rc} {memory : Memory} {entry : Entry}

/-- The state after `execute`. -/
def State.executed (s : State) (memory : Memory) (entry : Entry) : State :=
  { s with
    cpu := entry.cpu
    memory
    icount := s.icount + 1
    trace := Function.update s.trace s.procs.current (s.trace s.procs.current ++ [entry]) }

theorem executed_context (i : ℕ) : (s.executed memory entry).context i =
    if i = s.procs.current then entry.cpu else s.context i := by
  rw [State.context, State.context]
  change (if i = s.procs.current then entry.cpu else (s.procs.plist i).context) = _
  split
  · rfl
  · rfl

theorem halted_isdone (i : ℕ) :
    ({ s.executed memory entry with procs := s.procs.done } : State).isdone i =
      if i = s.procs.current then true else s.isdone i := by
  change (Function.update s.procs.plist s.procs.current _ i).done = _
  split
  · next heq => rw [heq, Function.update_self]
  · next hne =>
      rw [Function.update_of_ne hne]
      rfl

/-- What the halted thread had in the CPU is lost, but no other thread's. -/
theorem done_context {i : ℕ} (hne : i ≠ s.procs.current) :
    (s.procs.done.plist i).context = s.context i := by
  change (Function.update s.procs.plist s.procs.current _ i).context = _
  rw [Function.update_of_ne hne, State.context, if_neg hne]

theorem halted_context {i : ℕ} (hne : i ≠ s.procs.current) :
    ({ s.executed memory entry with procs := s.procs.done } : State).context i = s.context i := by
  rw [State.context, if_neg (show i ≠ s.procs.done.current from hne)]
  exact done_context hne

theorem step_stepped (h : Scheduled s.procs) (hrunning : s.isdone s.procs.current = false)
    (hexecute : execute o s.cpu s.memory = .ok (rc, memory, entry)) (draw : ℕ) :
    Safe (fun _ => False) (step o s draw) (Stepped s rc memory entry) := by
  rw [step, hexecute]
  refine Safe.ok_bind ?_
  change Safe _ (if rc = some (-1) then
      if ({ s.executed memory entry with procs := s.procs.done } : State).done then
        pure { s.executed memory entry with procs := s.procs.done }
      else ({ s.executed memory entry with procs := s.procs.done } : State).switch >>= fun s =>
        s.countdown o draw rc
    else (s.executed memory entry).countdown o draw rc) _
  set halted : State := { s.executed memory entry with procs := s.procs.done } with hhalted
  split
  · next hhalt =>
      have hscheduled : Scheduled halted.procs := h.done hrunning
      have hisdone (i : ℕ) : (if i = s.procs.current ∧ rc = some (-1) then true else s.isdone i) =
          halted.isdone i := by
        rw [halted_isdone]
        simp [hhalt]
      have hne {i : ℕ} (hi : halted.isdone i = false) : i ≠ s.procs.current := by
        rintro rfl
        rw [halted_isdone, if_pos rfl] at hi
        cases hi
      split
      · next hdone =>
          refine Safe.ok ⟨hscheduled, fun hnot => ?_, rfl, rfl, rfl, fun i => (hisdone i).symm,
            fun i hi => ?_⟩
          · rw [hdone] at hnot
            cases hnot
          · rw [if_neg (hne hi)]
            exact halted_context (hne hi)
      · next hdone =>
          have hleft := hscheduled.exists_left (by simpa [State.done] using hdone)
          refine (switch_kept hscheduled hleft fun i hi => ?_).bind fun s₁ hs₁ =>
            (countdown_kept hs₁.scheduled hs₁.running draw rc).mono fun s' hs' => ?_
          · rw [halted_context (hne hi)]
            exact done_context (hne hi)
          · have hkept := hs₁.trans hs'
            refine ⟨hkept.scheduled, fun _ => hkept.running, hkept.getnum, hkept.memory, hkept.trace,
              fun i => (hkept.isdone i).trans (hisdone i).symm, fun i hi => ?_⟩
            have hi' := (hkept.isdone i).symm.trans hi
            rw [hkept.context i hi', if_neg (hne hi')]
            exact halted_context (hne hi')
  · next hgoes =>
      refine (countdown_kept (s := s.executed memory entry) h hrunning draw rc).mono
        fun s' hkept => ⟨hkept.scheduled, fun _ => hkept.running, hkept.getnum, hkept.memory,
          hkept.trace, fun i => ?_, fun i hi => ?_⟩
      · rw [hkept.isdone, if_neg fun hhalt => hgoes hhalt.2]
        rfl
      · rw [hkept.context i ((hkept.isdone i).symm.trans hi), executed_context]

end Executed

end OsLabs.X86
