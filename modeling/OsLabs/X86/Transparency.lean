import OsLabs.X86.Switch

/-!
# Threads do not notice each other

As long as no thread accesses the data of another one and none writes to the program,
each thread executes what it would execute alone, and finds the same values there.
-/

namespace OsLabs.X86

open OsLabs.SharedMemory OsLabs.Checked

variable {o : Options} {s s' a : State} {i n : ℕ} {m₀ : Memory} {argv : List (List (Reg × ℤ))}

/-! ## Accesses -/

def accessed (trace : List Entry) : List Value :=
  trace.flatMap fun entry => entry.accesses.map Event.addr

def writtenAt : Event Value Value → Option Value
  | .read _ _ => none
  | .write addr _ => some addr

def written (trace : List Entry) : List Value :=
  trace.flatMap fun entry => entry.accesses.filterMap writtenAt

theorem accessed_append (trace : List Entry) (entry : Entry) :
    accessed (trace ++ [entry]) = accessed trace ++ entry.accesses.map Event.addr := by
  simp [accessed]

theorem written_append (trace : List Entry) (entry : Entry) :
    written (trace ++ [entry]) = written trace ++ entry.accesses.filterMap writtenAt := by
  simp [written]

theorem not_written {entry : Entry} {x : Value} (h : x ∉ entry.accesses.filterMap writtenAt)
    (value : Value) : Event.write x value ∉ entry.accesses :=
  fun hmem => h (List.mem_filterMap.mpr ⟨_, hmem, rfl⟩)

theorem not_written_of_not_accessed {entry : Entry} {x : Value}
    (h : x ∉ entry.accesses.map Event.addr) (value : Value) :
    Event.write x value ∉ entry.accesses := fun hmem => h (List.mem_map.mpr ⟨_, hmem, rfl⟩)

/-! ## An instruction -/

section Execute

variable {cpu : Cpu} {m m' n : Memory} {rc : Rc} {entry : Entry}

/-- What has happened when an instruction succeeds. -/
theorem exists_of_execute (h : execute o cpu m = .ok (rc, m', entry)) :
    ∃ pc, m cpu.PC = some (.str [entry.instruction]) ∧ cpu.PC.add (.int 1) = .ok pc ∧
      run (entry.instruction.eval { cpu with PC := pc }) m =
        .ok ((rc, entry.cpu), m', entry.accesses) ∧
      o.isCode cpu.PC = true ∧ entry.pc = cpu.PC := by
  rw [execute] at h
  split at h
  · cases h
  · cases h
  · next instruction hfetch =>
      cases hpc : cpu.PC.add (.int 1) with
      | error e => simp [hpc, bind, Except.bind] at h
      | ok pc =>
          cases hrun : run (instruction.eval { cpu with PC := pc }) m with
          | error e => simp [hpc, hrun, bind, Except.bind] at h
          | ok r =>
              obtain ⟨⟨rc', cpu'⟩, memory, accesses⟩ := r
              cases hcode : o.isCode cpu.PC with
              | false => simp [hpc, hrun, hcode, bind, Except.bind, throw, throwThe, MonadExceptOf.throw] at h
              | true =>
                  simp only [hpc, hrun, hcode, bind, Except.bind, if_true, pure, Except.pure,
                    Except.ok.injEq, Prod.mk.injEq] at h
                  obtain ⟨rfl, rfl, rfl⟩ := h
                  exact ⟨pc, hfetch, rfl, hrun, rfl, rfl⟩
  · cases h

/-- The same instruction does the same in a memory that agrees where it is and where
its accesses are. -/
theorem execute_congr (h : execute o cpu m = .ok (rc, m', entry)) (hcode : m cpu.PC = n cpu.PC)
    (hagree : ∀ event ∈ entry.accesses, m event.addr = n event.addr) :
    execute o cpu n = .ok (rc, replay entry.accesses n, entry) := by
  obtain ⟨pc, hfetch, hpc, hrun, hisCode, hentry⟩ := exists_of_execute h
  have hsame := run_congr hrun hagree
  rw [execute, ← hcode, hfetch]
  simp only [hpc, hsame, hisCode, bind, Except.bind, if_true, pure, Except.pure]
  rw [← hentry]

end Execute

/-! ## Runs -/

/-- What holds in a run of `n` threads from the memory `m₀`. -/
structure Inv (n : ℕ) (m₀ : Memory) (s : State) : Prop where
  scheduled : Scheduled s.procs
  running : s.done = false → s.isdone s.procs.current = false
  getnum : s.procs.getnum = n
  memory : ∀ x, (∀ i, x ∉ written (s.trace i)) → s.memory x = m₀ x
  trace : ∀ i, n ≤ i → s.trace i = []

theorem exists_of_step {draw : ℕ} (h : step o s draw = .ok s') :
    ∃ rc memory entry, execute o s.cpu s.memory = .ok (rc, memory, entry) := by
  rw [step] at h
  cases hexecute : execute o s.cpu s.memory with
  | error e => simp [hexecute, bind, Except.bind] at h
  | ok r => exact ⟨r.1, r.2.1, r.2.2, rfl⟩

/-- A step of a run: an instruction, and what becomes of the threads. -/
theorem Inv.step (h : Inv n m₀ s) (hdone : s.done = false) {draw : ℕ} (hstep : step o s draw = .ok s') :
    Inv n m₀ s' ∧ ∃ rc entry, execute o s.cpu s.memory = .ok (rc, replay entry.accesses s.memory, entry) ∧
      Stepped s rc (replay entry.accesses s.memory) entry s' := by
  obtain ⟨rc, memory, entry, hexecute⟩ := exists_of_step hstep
  obtain ⟨pc, -, -, hrun, -, -⟩ := exists_of_execute hexecute
  obtain rfl := run_memory hrun
  have hs' := (step_stepped h.scheduled (h.running hdone) hexecute draw).of_eq_ok hstep
  refine ⟨⟨hs'.scheduled, hs'.running, hs'.getnum.trans h.getnum, fun x hx => ?_, fun i hi => ?_⟩,
    rc, entry, hexecute, hs'⟩
  · have hcurrent := hx s.procs.current
    rw [hs'.trace, Function.update_self, written_append, List.mem_append, not_or] at hcurrent
    rw [hs'.memory, replay_of_not_written (not_written hcurrent.2)]
    refine h.memory x fun i => ?_
    obtain rfl | hne := eq_or_ne i s.procs.current
    · exact hcurrent.1
    · have := hx i
      rwa [hs'.trace, Function.update_of_ne hne] at this
  · have hne : i ≠ s.procs.current := by
      have := h.scheduled.current_lt
      rw [h.getnum] at this
      omega
    rw [hs'.trace, Function.update_of_ne hne]
    exact h.trace i hi

/-! ## The start -/

/-- The memory that the program is loaded into. -/
def Options.memory (o : Options) : Memory := load o.program o.loadaddr (initMemory o.memsize)

theorem startWith_context (procs : Proclist) (draw i : ℕ) :
    (startWith o procs draw).context i = (procs.plist i).context := by
  rw [State.context]
  split
  · next heq =>
      change Process.restore _ _ = _
      rw [restore_eq, heq]
      rfl
  · rfl

theorem inv_startWith {procs : Proclist} (h : Scheduled procs)
    (hdone : ∀ i, (procs.plist i).done = false) (draw : ℕ) :
    Inv procs.getnum o.memory (startWith o procs draw) :=
  ⟨h, fun _ => hdone _, rfl, fun _ _ => rfl, fun _ _ => rfl⟩

theorem scheduled_of_finalize {procs procs' : Proclist} {procsched : Option (List ℕ)}
    (hdone : ∀ i, (procs.plist i).done = false) (hactive : procs.active = procs.getnum)
    (h : procs.finalize procsched = some procs') :
    Scheduled procs' ∧ procs'.plist = procs.plist ∧ procs'.getnum = procs.getnum := by
  have hcard : procs.active =
      ((Finset.range procs.getnum).filter fun p => (procs.plist p).done = false).card := by
    rw [Finset.filter_true_of_mem fun p _ => hdone p, Finset.card_range, hactive]
  cases procsched with
  | none =>
      simp only [Proclist.finalize] at h
      split at h
      · cases h
      · next hnum =>
          obtain rfl := Option.some.inj h
          exact ⟨⟨by simpa using Nat.pos_of_ne_zero hnum, by simp, by simp, hcard⟩, rfl, rfl⟩
  | some procsched =>
      simp only [Proclist.finalize] at h
      split at h
      · next hcheck =>
          obtain ⟨hlt, hall, hne⟩ := hcheck
          obtain rfl := Option.some.inj h
          refine ⟨⟨List.length_pos_iff.mpr hne, hlt, fun p hp => ?_, hcard⟩, rfl, rfl⟩
          -- as many different threads as there are
          have hsubset : procsched.toFinset ⊆ Finset.range procs.getnum := fun p hp =>
            Finset.mem_range.mpr (hlt p (List.mem_toFinset.mp hp))
          have heq := Finset.eq_of_subset_of_card_le hsubset (by
            rw [Finset.card_range, List.card_toFinset, hall, hactive])
          rw [← List.mem_toFinset, heq]
          exact Finset.mem_range.mpr hp
      · cases h

/-! ## A thread among others, and alone -/

/-- The thread has done what it does alone, and finds the memory as it would alone
except where others have been. -/
structure Matched (s : State) (i : ℕ) (m₀ : Memory) (a : State) : Prop where
  inv : Inv 1 m₀ a
  trace : a.trace 0 = s.trace i
  isdone : a.isdone 0 = s.isdone i
  context : s.isdone i = false → a.context 0 = s.context i
  memory : ∀ x, (∀ j, j ≠ i → x ∉ accessed (s.trace j)) → s.memory x = a.memory x

theorem Inv.current_eq_zero (h : Inv 1 m₀ a) : a.procs.current = 0 := by
  have := h.scheduled.current_lt
  rw [h.getnum] at this
  omega

theorem Inv.done_iff (h : Inv 1 m₀ a) : a.done = a.isdone 0 := by
  cases hdone : a.done with
  | false =>
      have hrunning := h.running hdone
      rw [h.current_eq_zero] at hrunning
      exact hrunning.symm
  | true =>
      by_contra hne
      have hzero : (a.procs.plist 0).done = false := by
        simpa [State.isdone] using hne
      have hactive := h.scheduled.active
      rw [h.getnum, Finset.range_one, Finset.filter_singleton, if_pos hzero,
        Finset.card_singleton] at hactive
      simp [State.done, Proclist.numdone, h.getnum, hactive] at hdone

/-- A step of another thread is not noticed. -/
theorem Matched.other {rc : Rc} {entry : Entry} (h : Matched s i m₀ a)
    (hne : i ≠ s.procs.current)
    (hs' : Stepped s rc (replay entry.accesses s.memory) entry s') : Matched s' i m₀ a where
  inv := h.inv
  trace := by rw [hs'.trace, Function.update_of_ne hne, h.trace]
  isdone := by rw [hs'.isdone, if_neg fun hc => hne hc.1, h.isdone]
  context hi := by
    rw [hs'.context i hi, if_neg hne]
    rw [hs'.isdone, if_neg fun hc => hne hc.1] at hi
    exact h.context hi
  memory x hx := by
    have hcurrent := hx _ hne.symm
    rw [hs'.trace, Function.update_self, accessed_append, List.mem_append, not_or] at hcurrent
    rw [hs'.memory, replay_of_not_written (not_written_of_not_accessed hcurrent.2)]
    refine h.memory x fun j hj => ?_
    obtain rfl | hne' := eq_or_ne j s.procs.current
    · exact hcurrent.1
    · have := hx j hj
      rwa [hs'.trace, Function.update_of_ne hne'] at this

/-- A step of the thread itself is the step that it would take alone. -/
theorem Matched.self {rc : Rc} {entry : Entry} (h : Matched s s.procs.current m₀ a)
    (hinv : Inv n m₀ s) (hdone : s.done = false)
    (hexecute : execute o s.cpu s.memory = .ok (rc, replay entry.accesses s.memory, entry))
    (hs' : Stepped s rc (replay entry.accesses s.memory) entry s')
    (hdisjoint : ∀ j, j ≠ s.procs.current → ∀ x ∈ accessed (s'.trace s.procs.current),
      x ∉ accessed (s'.trace j))
    (hcode : ∀ j, ∀ x ∈ written (s.trace j), o.isCode x = false) (draw : ℕ) :
    ∃ a', step o a draw = .ok a' ∧ Matched s' s.procs.current m₀ a' := by
  have hrunning := hinv.running hdone
  have hcpu : a.cpu = s.cpu := by
    have hcontext := h.context hrunning
    rw [State.context, State.context, if_pos h.inv.current_eq_zero.symm, if_pos rfl] at hcontext
    exact hcontext
  have hothers (j : ℕ) (hj : j ≠ s.procs.current) : s'.trace j = s.trace j := by
    rw [hs'.trace, Function.update_of_ne hj]
  have hself : s'.trace s.procs.current = s.trace s.procs.current ++ [entry] := by
    rw [hs'.trace, Function.update_self]
  -- the program is as it was loaded
  have hfetch : s.memory s.cpu.PC = a.memory s.cpu.PC := by
    obtain ⟨-, -, -, -, hisCode, -⟩ := exists_of_execute hexecute
    have hunwritten (j : ℕ) : s.cpu.PC ∉ written (s.trace j) := fun hmem => by
      rw [hcode j _ hmem] at hisCode
      cases hisCode
    rw [hinv.memory _ hunwritten, h.inv.memory _ fun j => ?_]
    cases j with
    | zero =>
        rw [h.trace]
        exact hunwritten _
    | succ j =>
        rw [h.inv.trace (j + 1) (by omega)]
        exact List.not_mem_nil
  have hagree (event : Event Value Value) (hevent : event ∈ entry.accesses) :
      s.memory event.addr = a.memory event.addr := by
    refine h.memory _ fun j hj => ?_
    rw [← hothers j hj]
    refine hdisjoint j hj _ ?_
    rw [hself, accessed_append]
    exact List.mem_append_right _ (List.mem_map_of_mem hevent)
  have halone := execute_congr hexecute hfetch hagree
  rw [← hcpu] at halone
  have hzero : a.isdone a.procs.current = false := by
    rw [h.inv.current_eq_zero, h.isdone]
    exact hrunning
  have hsafe := step_stepped h.inv.scheduled hzero halone draw
  cases hstep : step o a draw with
  | error e => exact (hsafe.of_eq_error hstep).elim
  | ok a' =>
      have ha' := hsafe.of_eq_ok hstep
      have hdone' : a.done = false := by
        rw [h.inv.done_iff, h.isdone]
        exact hrunning
      have hisdone : a'.isdone 0 = s'.isdone s.procs.current := by
        rw [ha'.isdone, hs'.isdone, h.inv.current_eq_zero, h.isdone]
        simp
      refine ⟨a', rfl, (h.inv.step hdone' hstep).1, ?_, hisdone, fun hi => ?_, fun x hx => ?_⟩
      · rw [ha'.trace, h.inv.current_eq_zero, Function.update_self, h.trace, hself]
      · rw [hs'.context _ hi, if_pos rfl, ha'.context 0 (hisdone.trans hi), h.inv.current_eq_zero,
          if_pos rfl]
      · rw [hs'.memory, ha'.memory]
        refine replay_congr (h.memory x fun j hj => ?_)
        rw [← hothers j hj]
        exact hx j hj

/-! ## Whole runs -/

variable {s₀ : State} {draws : ℕ → ℕ} {t : ℕ}

theorem follow_inv (h : Inv n m₀ s₀) (hrun : follow (X86.step o) State.done draws s₀ t = .ok s) :
    Inv n m₀ s := by
  induction t generalizing s with
  | zero =>
      obtain rfl := Except.ok.inj hrun
      exact h
  | succ t ih =>
      obtain ⟨s₁, hprior, ⟨-, rfl⟩ | ⟨hdone, hstep⟩⟩ := exists_of_follow_succ hrun
      · exact ih hprior
      · exact ((ih hprior).step hdone hstep).1

/-- The threads access different data, and do not write to the program. -/
structure Isolated (o : Options) (n : ℕ) (s : State) : Prop where
  disjoint : ∀ i < n, ∀ j < n, i ≠ j → ∀ x ∈ accessed (s.trace i), x ∉ accessed (s.trace j)
  code : ∀ i < n, ∀ x ∈ written (s.trace i), o.isCode x = false

instance (n : ℕ) (s : State) : Decidable (∀ i < n, ∀ j < n, i ≠ j →
    ∀ x ∈ accessed (s.trace i), x ∉ accessed (s.trace j)) :=
  Nat.decidableBallLT n fun i _ => ∀ j < n, i ≠ j →
    ∀ x ∈ accessed (s.trace i), x ∉ accessed (s.trace j)

instance (o : Options) (n : ℕ) (s : State) : Decidable (Isolated o n s) :=
  decidable_of_iff ((∀ i < n, ∀ j < n, i ≠ j →
      ∀ x ∈ accessed (s.trace i), x ∉ accessed (s.trace j)) ∧
        ∀ i < n, ∀ x ∈ written (s.trace i), o.isCode x = false)
    ⟨fun h => ⟨h.1, h.2⟩, fun h => ⟨h.disjoint, h.code⟩⟩

/-- What a thread has accessed stays so. -/
theorem Stepped.trace_append {rc : Rc} {memory : Memory} {entry : Entry}
    (h : Stepped s rc memory entry s') (i : ℕ) : ∃ entries, s'.trace i = s.trace i ++ entries := by
  rw [h.trace]
  obtain rfl | hne := eq_or_ne i s.procs.current
  · exact ⟨[entry], Function.update_self ..⟩
  · exact ⟨[], by rw [Function.update_of_ne hne, List.append_nil]⟩

theorem Isolated.prior (h : Isolated o n s')
    (htrace : ∀ i, ∃ entries, s'.trace i = s.trace i ++ entries) : Isolated o n s := by
  have haccessed {i : ℕ} {x : Value} (hx : x ∈ accessed (s.trace i)) : x ∈ accessed (s'.trace i) := by
    obtain ⟨entries, heq⟩ := htrace i
    rw [heq, accessed, List.flatMap_append]
    exact List.mem_append_left _ hx
  refine ⟨fun i hi j hj hne x hx hx' => h.disjoint i hi j hj hne x (haccessed hx) (haccessed hx'),
    fun i hi x hx => h.code i hi x ?_⟩
  obtain ⟨entries, heq⟩ := htrace i
  rw [heq, written, List.flatMap_append]
  exact List.mem_append_left _ hx

/-- In any run of isolated threads each thread is matched by a run of its own. -/
theorem exists_matched (h : Inv n o.memory s₀) (hstart : ∀ i < n, s₀.trace i = [] ∧
      s₀.isdone i = false ∧ s₀.context i = (thread o argv i).context)
    (hmemory : s₀.memory = o.memory)
    (hrun : follow (X86.step o) State.done draws s₀ t = .ok s) (hisolated : Isolated o n s)
    (hi : i < n) (draw : ℕ) (draws' : ℕ → ℕ) :
    ∃ a, follow (X86.step o) State.done draws' (startAlone o argv i draw) (s.trace i).length = .ok a ∧
      Matched s i o.memory a := by
  induction t generalizing s with
  | zero =>
      obtain rfl := Except.ok.inj hrun
      obtain ⟨htrace, hisdone, hcontext⟩ := hstart i hi
      refine ⟨startAlone o argv i draw, ?_, ?_, ?_, ?_, ?_, ?_⟩
      · rw [htrace]
        rfl
      · have hscheduled : Scheduled ⟨fun _ => thread o argv i, 1, 1, false, [0], 0⟩ :=
          ⟨Nat.one_pos, by simp, by simp, rfl⟩
        exact inv_startWith hscheduled (fun _ => rfl) draw
      · exact htrace.symm
      · exact hisdone.symm
      · intro _
        rw [hcontext]
        exact startWith_context _ draw 0
      · intro x _
        rw [hmemory]
        rfl
  | succ t ih =>
      obtain ⟨s₁, hprior, ⟨-, rfl⟩ | ⟨hdone, hstep⟩⟩ := exists_of_follow_succ hrun
      · exact ih hprior hisolated
      · have h₁ := follow_inv h hprior
        obtain ⟨h', rc, entry, hexecute, hs⟩ := h₁.step hdone hstep
        have hisolated₁ := hisolated.prior hs.trace_append
        obtain ⟨a, ha, hmatched⟩ := ih hprior hisolated₁
        obtain rfl | hne := eq_or_ne i s₁.procs.current
        · have hdisjoint (j : ℕ) (hj : j ≠ s₁.procs.current) (x : Value)
              (hx : x ∈ accessed (s.trace s₁.procs.current)) : x ∉ accessed (s.trace j) := by
            rcases Nat.lt_or_ge j n with hlt | hge
            · exact hisolated.disjoint _ hi j hlt hj.symm x hx
            · rw [h'.trace j hge]
              exact List.not_mem_nil
          have hcode (j : ℕ) (x : Value) (hx : x ∈ written (s₁.trace j)) : o.isCode x = false := by
            rcases Nat.lt_or_ge j n with hlt | hge
            · exact hisolated₁.code j hlt x hx
            · rw [h₁.trace j hge] at hx
              exact absurd hx List.not_mem_nil
          obtain ⟨a', hstep', hmatched'⟩ := hmatched.self h₁ hdone hexecute hs hdisjoint hcode
            (draws' (s₁.trace s₁.procs.current).length)
          refine ⟨a', ?_, hmatched'⟩
          have hdone' : a.done = false := by
            rw [hmatched.inv.done_iff, hmatched.isdone]
            exact h₁.running hdone
          rw [hs.trace, Function.update_self, List.length_append, List.length_singleton,
            follow_succ ha, hdone', if_neg Bool.false_ne_true]
          exact hstep'
        · refine ⟨a, ?_, hmatched.other hne hs⟩
          rw [hs.trace, Function.update_of_ne hne]
          exact ha

/-- A thread that is done stays done. -/
theorem isdone_of_le (h : Inv n m₀ s₀) {t' : ℕ} (hle : t' ≤ t)
    (hrun' : follow (X86.step o) State.done draws s₀ t' = .ok s')
    (hrun : follow (X86.step o) State.done draws s₀ t = .ok s) (hdone : s'.isdone i = true) :
    s.isdone i = true := by
  induction t, hle using Nat.le_induction generalizing s with
  | base =>
      rw [hrun] at hrun'
      rwa [Except.ok.inj hrun']
  | succ t _ ih =>
      obtain ⟨s₁, hprior, ⟨-, rfl⟩ | ⟨hgoes, hstep⟩⟩ := exists_of_follow_succ hrun
      · exact ih hprior
      · obtain ⟨-, rc, entry, -, hs⟩ := (follow_inv h hprior).step hgoes hstep
        rw [hs.isdone, ih hprior, ite_self]

/-- Switches between threads are not noticed by them: what each thread has executed,
with the registers, conditions and accesses, is what it executes alone in as many
steps, whichever schedule and interrupts there are. A thread that is done is never the
current one again. -/
theorem context_switch_transparent (o : Options) (numthreads : ℕ) (argv : List (List (Reg × ℤ)))
    (procsched : Option (List ℕ)) (draw : ℕ) (s₀ : State)
    (hstart : start o numthreads argv procsched draw = some s₀) (draws : ℕ → ℕ) (t : ℕ) (s : State)
    (hrun : follow (step o) State.done draws s₀ t = .ok s) :
    (Isolated o numthreads s → ∀ i < numthreads, ∀ (draw' : ℕ) (draws' : ℕ → ℕ), ∃ a,
      follow (step o) State.done draws' (startAlone o argv i draw') (s.trace i).length = .ok a ∧
        a.trace 0 = s.trace i ∧ a.done = s.isdone i) ∧
    ∀ t' ≤ t, ∀ s', follow (step o) State.done draws s₀ t' = .ok s' → ∀ i, s'.isdone i = true →
      s.done = false → s.procs.current ≠ i := by
  rw [start] at hstart
  split at hstart
  · obtain ⟨procs, hfinalize, rfl⟩ := Option.map_eq_some_iff.mp hstart
    obtain ⟨hscheduled, hplist, hgetnum⟩ := scheduled_of_finalize (fun _ => rfl) rfl hfinalize
    have hdone (i : ℕ) : (procs.plist i).done = false := by
      rw [hplist]
      rfl
    have hinv : Inv numthreads o.memory (startWith o procs draw) := by
      have hinv := inv_startWith (o := o) hscheduled hdone draw
      rwa [hgetnum] at hinv
    refine ⟨fun hisolated i hi draw' draws' => ?_, fun t' hle s' hrun' i hi hnot hcurrent => ?_⟩
    · obtain ⟨a, ha, hmatched⟩ := exists_matched hinv
        (fun i _ => ⟨rfl, hdone i, by rw [startWith_context, hplist]⟩) rfl hrun hisolated hi draw'
        draws'
      exact ⟨a, ha, hmatched.trace, hmatched.inv.done_iff.trans hmatched.isdone⟩
    · have hlater := isdone_of_le hinv hle hrun' hrun hi
      have hrunning := (follow_inv hinv hrun).running hnot
      rw [hcurrent, hlater] at hrunning
      cases hrunning
  · cases hstart

/-- Each thread writes where its `ax` points, and reads it again. -/
def writeAndRead : Options where
  program := [.moveIToM 5 0 .ax .zero 1, .moveMToR 0 .ax .zero 1 .bx, .halt]
  loadaddr := 1000
  memsize := 4
  intfreq := 1
  intrand := false
  intfreq_pos := Nat.one_pos

theorem context_switch_transparent_two : ∃ s₀ s,
    start writeAndRead 2 [[(.ax, 2000)], [(.ax, 3000)]] none 0 = some s₀ ∧
    follow (step writeAndRead) State.done (fun _ => 0) s₀ 4 = .ok s ∧
    (s.trace 0).length = 2 ∧ (s.trace 1).length = 2 ∧
    ∀ i < 2, ∀ (draw' : ℕ) (draws' : ℕ → ℕ), ∃ a,
      follow (step writeAndRead) State.done draws'
        (startAlone writeAndRead [[(.ax, 2000)], [(.ax, 3000)]] i draw') (s.trace i).length = .ok a ∧
      a.trace 0 = s.trace i ∧ a.done = s.isdone i := by
  have hcheck : ((start writeAndRead 2 [[(.ax, 2000)], [(.ax, 3000)]] none 0).any fun s₀ =>
      (follow (step writeAndRead) State.done (fun _ => 0) s₀ 4).toOption.any fun s =>
        (s.trace 0).length = 2 ∧ (s.trace 1).length = 2 ∧ Isolated writeAndRead 2 s) = true := by
    decide +kernel
  obtain ⟨s₀, hstart, hrun⟩ := (Option.any_eq_true _ _).mp hcheck
  obtain ⟨s, hs, hfinal⟩ := (Option.any_eq_true _ _).mp hrun
  obtain ⟨hzero, hone, hisolated⟩ := of_decide_eq_true hfinal
  have hfollow : follow (step writeAndRead) State.done (fun _ => 0) s₀ 4 = .ok s := by
    cases hend : follow (step writeAndRead) State.done (fun _ => 0) s₀ 4 with
    | error e =>
        rw [hend] at hs
        cases hs
    | ok s' =>
        rw [hend] at hs
        rw [Option.some.inj hs]
  exact ⟨s₀, s, hstart, hfollow, hzero, hone, (context_switch_transparent writeAndRead 2
    [[(.ax, 2000)], [(.ax, 3000)]] none 0 s₀ hstart (fun _ => 0) 4 s hfollow).1 hisolated⟩

end OsLabs.X86
