import OsLabs.Lib.LostUpdate
import OsLabs.X86.Addresses
import OsLabs.X86.Labels
import OsLabs.X86.Transparency

/-!
# A program with a race

The loop of the `README` that adds to a counter in the memory without a lock, run
by the simulator.
-/

namespace OsLabs.X86

open OsLabs.SharedMemory OsLabs.Checked OsLabs.LostUpdate OsLabs.PyText

/-- The address of the counter. -/
def counterAddress : Value := .int 2000

def loopingRace (loadaddr : ℤ) : List Instr :=
  [.moveMToR 2000 .zero .zero 1 .ax, .addIToR 1 .ax, .moveRToM .ax 2000 .zero .zero 1,
    .subIToR 1 .bx, .testIR 0 .bx, .jumpGreaterthan loadaddr, .halt]

/-- The lines of the program. -/
def loopingRaceLines : List Text :=
  [".main".toList, ".top".toList, "# critical section".toList,
    "mov 2000, %ax       # get the value at the address".toList,
    "add $1, %ax         # increment it".toList, "mov %ax, 2000       # store it back".toList,
    "".toList, "# see if we're still looping".toList, "sub  $1, %bx".toList,
    "test $0, %bx".toList, "jgt .top".toList, "".toList, "halt".toList]

example : (Loader.load .ascii loopingRaceLines 1000).map (fun loaded =>
    (List.range 8).map fun k => loaded.2.memory (1000 + k)) =
      some ((loopingRace 1000).map (fun instruction => some (.call instruction)) ++ [none]) := by
  decide +kernel

variable {o : Options} {cpu : Cpu} {m m' : Memory} {b p : ℤ} {n : ℕ}

/-! ## Its instructions -/

theorem execute_eq {instruction : Instr} {rc : Rc} {cpu' : Cpu}
    {accesses : List (Event Value Value)}
    (hpc : cpu.PC = .int p) (hfetch : m (.int p) = some (.str [instruction]))
    (hcode : o.isCode (.int p) = true)
    (hrun : run (instruction.eval { cpu with PC := .int (p + 1) }) m =
      .ok ((rc, cpu'), m', accesses)) :
    execute o cpu m = .ok (rc, m', ⟨.int p, instruction, cpu', accesses⟩) := by
  have hnext : cpu.PC.add (.int 1) = .ok (.int (p + 1)) := by
    rw [hpc]
    rfl
  rw [execute, hpc, hfetch]
  simp only [← hpc, hnext, ok_bind]
  rw [hrun]
  simp only [ok_bind, hpc, hcode, if_true, pure_eq_ok]

/-! The program counter points to the next instruction already. -/

variable (pc : Value)

theorem address_counter (hzero : cpu.registers .zero = .int 0) :
    address 2000 .zero .zero 1 { cpu with PC := pc } =
      .ret (counterAddress, { cpu with PC := pc }) := by
  rw [address_eq, effective, hzero]
  rfl

theorem run_load (hzero : cpu.registers .zero = .int 0) {v : Value}
    (hv : m counterAddress = some v) :
    run ((Instr.moveMToR 2000 .zero .zero 1 .ax).eval { cpu with PC := pc }) m =
      .ok ((none, { cpu with PC := pc, registers := Function.update cpu.registers .ax v }), m,
        [.read counterAddress (some v)]) := by
  have hreads : ∃ next, (Instr.moveMToR 2000 .zero .zero 1 .ax).eval { cpu with PC := pc } =
      Access.read counterAddress next ∧ next (some v) =
        .ret (none, { cpu with PC := pc, registers := Function.update cpu.registers .ax v }) := by
    rw [Instr.eval_eq rfl, address_counter pc hzero]
    exact ⟨_, rfl, rfl⟩
  rcases hreads with ⟨next, heval, hnext⟩
  rw [heval, run, hv, hnext]
  rfl

theorem run_store (hzero : cpu.registers .zero = .int 0) :
    run ((Instr.moveRToM .ax 2000 .zero .zero 1).eval { cpu with PC := pc }) m =
      .ok ((some 0, { cpu with PC := pc }),
        Function.update m counterAddress (some (cpu.registers .ax)),
        [.write counterAddress (cpu.registers .ax)]) := by
  rw [Instr.eval_eq rfl, address_counter pc hzero]
  rfl

theorem run_add {x : ℤ} (hax : cpu.registers .ax = .int x) :
    run ((Instr.addIToR 1 .ax).eval { cpu with PC := pc }) m =
      .ok ((some 0,
        { cpu with PC := pc, registers := Function.update cpu.registers .ax (.int (x + 1)) }), m,
        []) := by
  have hreads : (Instr.addIToR 1 .ax).eval { cpu with PC := pc } =
      (assign Value.add .ax (.int 1) { cpu with PC := pc }).bind fun r => .ret (some 0, r.2) := rfl
  rw [hreads, assign_eq, hax]
  rfl

theorem run_sub {x : ℤ} (hbx : cpu.registers .bx = .int x) :
    run ((Instr.subIToR 1 .bx).eval { cpu with PC := pc }) m =
      .ok ((some 0,
        { cpu with PC := pc, registers := Function.update cpu.registers .bx (.int (x - 1)) }), m,
        []) := by
  have hreads : (Instr.subIToR 1 .bx).eval { cpu with PC := pc } =
      (assign Value.sub .bx (.int 1) { cpu with PC := pc }).bind fun r => .ret (some 0, r.2) := rfl
  rw [hreads, assign_eq, hbx]
  rfl

theorem run_test {x : ℤ} (hbx : cpu.registers .bx = .int x) :
    ∃ conditions, run ((Instr.testIR 0 .bx).eval { cpu with PC := pc }) m =
      .ok ((some 0, { cpu with PC := pc, conditions }), m, []) ∧
        conditions .gt = decide (0 < x) := by
  have hreads : (Instr.testIR 0 .bx).eval { cpu with PC := pc } =
      (testAll (.int 0) (cpu.registers .bx) : Exec Rc) { cpu with
        PC := pc
        conditions := condlist.foldl (fun c k => Function.update c k false) cpu.conditions } :=
    rfl
  have htests {gt gte lt lte eq : Bool} (hgt : decide (0 < x) = gt) (hgte : decide (0 ≤ x) = gte)
      (hlt : decide (x < 0) = lt) (hlte : decide (x ≤ 0) = lte) (heq : decide (x = 0) = eq) :
      (Value.int 0).lt (.int x) = .ok gt ∧ (Value.int 0).le (.int x) = .ok gte ∧
        (Value.int x).lt (.int 0) = .ok lt ∧ (Value.int x).le (.int 0) = .ok lte ∧
        (Value.int x).beq (.int 0) = eq :=
    ⟨congrArg _ hgt, congrArg _ hgte, congrArg _ hlt, congrArg _ hlte, heq⟩
  rw [hreads, hbx]
  unfold testAll
  rcases lt_trichotomy 0 x with hlt | rfl | hgt
  · rcases htests (decide_eq_true hlt) (decide_eq_true hlt.le) (decide_eq_false hlt.not_gt)
      (decide_eq_false hlt.not_ge) (decide_eq_false hlt.ne') with ⟨h₁, h₂, h₃, h₄, h₅⟩
    rw [h₁, h₂, h₃, h₄, h₅, decide_eq_true hlt]
    exact ⟨_, rfl, rfl⟩
  · exact ⟨_, rfl, rfl⟩
  · rcases htests (decide_eq_false hgt.not_gt) (decide_eq_false hgt.not_ge) (decide_eq_true hgt)
      (decide_eq_true hgt.le) (decide_eq_false hgt.ne) with ⟨h₁, h₂, h₃, h₄, h₅⟩
    rw [h₁, h₂, h₃, h₄, h₅, decide_eq_false hgt.not_gt]
    exact ⟨_, rfl, rfl⟩

theorem run_jgt (targ : ℤ) :
    run ((Instr.jumpGreaterthan targ).eval { cpu with PC := pc }) m =
      .ok ((some 0, { cpu with PC := if cpu.conditions .gt then .int targ else pc }), m, []) := by
  have hjumps : (Instr.jumpGreaterthan targ).eval { cpu with PC := pc } =
      jumpIf .gt targ { cpu with PC := pc } := rfl
  rw [hjumps, Loader.jumpIf_eq]
  rfl

/-! ## The program in the memory -/

theorem load_below {program : List Instr} {pc x : ℤ} (hx : x < pc) :
    load program pc m (.int x) = m (.int x) := by
  induction program generalizing pc m with
  | nil => rfl
  | cons instruction program ih =>
      rw [load, ih (by omega), Function.update_of_ne]
      intro heq
      cases heq
      exact lt_irrefl x hx

theorem load_above {program : List Instr} {pc x : ℤ} (hx : pc + program.length ≤ x) :
    load program pc m (.int x) = m (.int x) := by
  induction program generalizing pc m with
  | nil => rfl
  | cons instruction program ih =>
      rw [List.length_cons] at hx
      rw [load, ih (by omega), Function.update_of_ne]
      intro heq
      cases heq
      omega

theorem load_code {program : List Instr} {pc : ℤ} {k : ℕ} {instruction : Instr}
    (hk : program[k]? = some instruction) :
    load program pc m (.int (pc + k)) = some (.str [instruction]) := by
  induction program generalizing pc m k with
  | nil => cases hk
  | cons first program ih =>
      cases k with
      | zero =>
          rw [load, load_below (by omega)]
          cases hk
          rw [Nat.cast_zero, add_zero, Function.update_self]
      | succ k =>
          rw [load, show pc + (k + 1 : ℕ) = pc + 1 + k by push_cast; ring]
          exact ih hk

/-- The program is loaded, and does not lie over the counter. -/
structure RunsRace (o : Options) : Prop where
  program : o.program = loopingRace o.loadaddr
  apart : 2000 < o.loadaddr ∨ o.loadaddr + 7 ≤ 2000
  inMemory : 2000 < o.memsize * 1024

theorem RunsRace.counter (h : RunsRace o) : o.memory counterAddress = some (.int 0) := by
  have hmemory : initMemory o.memsize counterAddress = some (.int 0) :=
    if_pos ⟨by decide, by have := h.inMemory; omega⟩
  rw [Options.memory, h.program, ← hmemory]
  rcases h.apart with hbelow | habove
  · exact load_below hbelow
  · exact load_above habove

theorem RunsRace.code (h : RunsRace o) {k : ℕ} {instruction : Instr}
    (hk : (loopingRace o.loadaddr)[k]? = some instruction) :
    o.memory (.int (o.loadaddr + k)) = some (.str [instruction]) ∧
      o.isCode (.int (o.loadaddr + k)) = true ∧ Value.int (o.loadaddr + k) ≠ counterAddress := by
  have hlt : k < 7 := (List.getElem?_eq_some_iff.mp hk).1
  have hapart := h.apart
  refine ⟨?_, ?_, ?_⟩
  · rw [Options.memory, h.program]
    exact load_code hk
  · have hlength : o.program.length = 7 := by
      rw [h.program]
      rfl
    simp only [Options.isCode, hlength, Bool.and_eq_true, decide_eq_true_eq]
    omega
  · intro heq
    have hat : o.loadaddr + k = 2000 := Value.int.inj heq
    omega

/-! ## A thread -/

/-- How often a thread that starts with `b` in `bx` goes around. -/
def loops (b : ℤ) : ℕ := max 1 b.toNat

/-- Where a thread is that has executed `n` instructions, and what it has loaded. -/
structure At (o : Options) (b : ℤ) (n : ℕ) (cpu : Cpu) (loaded : Option ℕ) : Prop where
  le : n ≤ 6 * loops b
  pc : cpu.PC = .int (o.loadaddr + if n < 6 * loops b then (n % 6 : ℕ) else 6)
  zero : cpu.registers .zero = .int 0
  bx : cpu.registers .bx = .int (b - ((n + 2) / 6 : ℕ))
  afterLoad : n % 6 = 1 → ∃ w : ℕ, loaded = some w ∧ cpu.registers .ax = .int w
  afterAdd : n % 6 = 2 → ∃ w : ℕ, loaded = some w ∧ cpu.registers .ax = .int (w + 1 : ℕ)
  afterTest : n % 6 = 5 → cpu.conditions .gt = decide (0 < b - ((n + 2) / 6 : ℕ))
  elsewhere : n % 6 ≠ 1 → n % 6 ≠ 2 → loaded = none

/-- The memory is the program's, and the counter. -/
structure CounterAt (o : Options) (m : Memory) (v : ℕ) : Prop where
  value : m counterAddress = some (.int v)
  same : ∀ x, x ≠ counterAddress → m x = o.memory x

/-- What the execution of an instruction by the thread `i` leads to. -/
structure Executed (o : Options) (b : ℤ) (n i : ℕ) (t : Counter ℕ) (rc : Rc) (m' : Memory)
    (cpu' : Cpu) (t' : Counter ℕ) : Prop where
  moves : t.Moves i t'
  counter : CounterAt o m' t'.value
  stores : t'.stores i = t.stores i + if n % 6 = 2 then 1 else 0
  count : t'.count = t.count + if n % 6 = 2 then 1 else 0
  halts : rc = some (-1) ↔ n = 6 * loops b
  yields : rc ≠ some (-2)
  next : n < 6 * loops b → At o b (n + 1) cpu' (t'.loaded i)
  left : n = 6 * loops b → t'.loaded i = none

variable {t : Counter ℕ} {i : ℕ}

/-- The instruction is executed, with what follows from it. -/
def Executes (o : Options) (b : ℤ) (n i : ℕ) (t : Counter ℕ) (cpu : Cpu) (m : Memory) : Prop :=
  ∃ rc m' entry t', execute o cpu m = .ok (rc, m', entry) ∧
    Executed o b n i t rc m' entry.cpu t'

theorem At.fetch {loaded : Option ℕ} (h : At o b n cpu loaded) (ho : RunsRace o) {v : ℕ}
    (hm : CounterAt o m v) (hlt : n < 6 * loops b) {k : ℕ} (hk : n % 6 = k) {instruction : Instr}
    (hinstruction : (loopingRace o.loadaddr)[k]? = some instruction) {rc : Rc} {cpu' : Cpu}
    {accesses : List (Event Value Value)}
    (hrun : run (instruction.eval { cpu with PC := .int (o.loadaddr + k + 1) }) m =
      .ok ((rc, cpu'), m', accesses)) :
    ∃ entry, execute o cpu m = .ok (rc, m', entry) ∧ entry.cpu = cpu' := by
  have hpc := h.pc
  rw [if_pos hlt, hk] at hpc
  rcases ho.code hinstruction with ⟨hcode, hisCode, hne⟩
  exact ⟨_, execute_eq hpc ((hm.same _ hne).trans hcode) hisCode hrun, rfl⟩

theorem next_place (hlt : n < 6 * loops b) (hplace : n % 6 ≠ 5) (loadaddr : ℤ) :
    loadaddr + (if n + 1 < 6 * loops b then ((n + 1) % 6 : ℕ) else 6) =
      loadaddr + (n % 6 : ℕ) + 1 := by
  rw [if_pos (by omega), show (n + 1) % 6 = n % 6 + 1 by omega]
  push_cast
  ring

theorem At.executes_load (h : At o b n cpu (t.loaded i)) (ho : RunsRace o)
    (hm : CounterAt o m t.value) (hlt : n < 6 * loops b) (hplace : n % 6 = 0) :
    Executes o b n i t cpu m := by
  rcases h.fetch ho hm hlt hplace rfl (run_load _ h.zero hm.value) with ⟨entry, hexecute, hcpu⟩
  have hnone := h.elsewhere (by omega) (by omega)
  refine ⟨_, _, entry, t.load i, hexecute, .loads hnone, hm, ?_, ?_, ?_, ?_, fun _ => ?_,
    fun hend => absurd hend hlt.ne⟩
  · rw [if_neg (by omega)]
    rfl
  · rw [if_neg (by omega)]
    rfl
  · exact iff_of_false (by decide) (by omega)
  · decide
  · rw [hcpu]
    refine ⟨hlt, ?_, h.zero, ?_, fun _ => ⟨t.value, ?_, rfl⟩, ?_, ?_, ?_⟩
    · rw [next_place hlt (by omega), hplace]
    · rw [show (n + 1 + 2) / 6 = (n + 2) / 6 by omega]
      exact h.bx
    · rw [load_loaded, if_pos rfl]
    · intro hadd
      omega
    · intro htest
      omega
    · intro hload
      omega

theorem At.executes_store (h : At o b n cpu (t.loaded i)) (ho : RunsRace o)
    (hm : CounterAt o m t.value) (hlt : n < 6 * loops b) (hplace : n % 6 = 2) :
    Executes o b n i t cpu m := by
  rcases h.afterAdd hplace with ⟨w, hw, hax⟩
  rcases h.fetch ho hm hlt hplace rfl (run_store _ h.zero) with ⟨entry, hexecute, hcpu⟩
  refine ⟨_, _, entry, t.store i w, hexecute, .stores w hw, ⟨?_, fun x hx => ?_⟩, ?_, ?_, ?_, ?_,
    fun _ => ?_, fun hend => absurd hend hlt.ne⟩
  · rw [Function.update_self, hax]
    rfl
  · rw [Function.update_of_ne hx]
    exact hm.same x hx
  · rw [store_stores, if_pos rfl, if_pos hplace]
  · rw [if_pos hplace]
    rfl
  · exact iff_of_false (by decide) (by omega)
  · decide
  · rw [hcpu]
    refine ⟨hlt, ?_, h.zero, ?_, ?_, ?_, ?_, fun _ _ => ?_⟩
    · rw [next_place hlt (by omega), hplace]
    · rw [show (n + 1 + 2) / 6 = (n + 2) / 6 by omega]
      exact h.bx
    · intro hload
      omega
    · intro hadd
      omega
    · intro htest
      omega
    · rw [store_loaded, if_pos rfl]

/-- Where the counter is not accessed. -/
theorem Executes.quiet {cpu' : Cpu} {entry : Entry} (hm : CounterAt o m t.value)
    (hexecute : execute o cpu m = .ok (some 0, m, entry)) (hcpu : entry.cpu = cpu')
    (hplace : n % 6 ≠ 2) (hend : n ≠ 6 * loops b) (hnext : At o b (n + 1) cpu' (t.loaded i)) :
    Executes o b n i t cpu m := by
  refine ⟨_, _, entry, t, hexecute, .keeps, hm, ?_, ?_, ?_, ?_, fun _ => hcpu ▸ hnext,
    fun h => absurd h hend⟩
  · rw [if_neg hplace, Nat.add_zero]
  · rw [if_neg hplace, Nat.add_zero]
  · exact iff_of_false (by decide) hend
  · decide

theorem At.executes_add (h : At o b n cpu (t.loaded i)) (ho : RunsRace o)
    (hm : CounterAt o m t.value) (hlt : n < 6 * loops b) (hplace : n % 6 = 1) :
    Executes o b n i t cpu m := by
  rcases h.afterLoad hplace with ⟨w, hw, hax⟩
  rcases h.fetch ho hm hlt hplace rfl (run_add _ hax) with ⟨entry, hexecute, hcpu⟩
  refine Executes.quiet hm hexecute hcpu (by omega) (by omega)
    ⟨hlt, ?_, h.zero, ?_, ?_, fun _ => ⟨w, hw, rfl⟩, ?_, ?_⟩
  · rw [next_place hlt (by omega), hplace]
  · rw [show (n + 1 + 2) / 6 = (n + 2) / 6 by omega]
    exact h.bx
  · intro hload
    omega
  · intro htest
    omega
  · intro _ hadd
    omega

theorem At.executes_sub (h : At o b n cpu (t.loaded i)) (ho : RunsRace o)
    (hm : CounterAt o m t.value) (hlt : n < 6 * loops b) (hplace : n % 6 = 3) :
    Executes o b n i t cpu m := by
  rcases h.fetch ho hm hlt hplace rfl (run_sub _ h.bx) with ⟨entry, hexecute, hcpu⟩
  have hnone := h.elsewhere (by omega) (by omega)
  refine Executes.quiet hm hexecute hcpu (by omega) (by omega)
    ⟨hlt, ?_, h.zero, ?_, ?_, ?_, ?_, fun _ _ => hnone⟩
  · rw [next_place hlt (by omega), hplace]
  · dsimp only
    rw [show (n + 1 + 2) / 6 = (n + 2) / 6 + 1 by omega, Function.update_self]
    push_cast
    ring_nf
  · intro hload
    omega
  · intro hadd
    omega
  · intro htest
    omega

theorem At.executes_test (h : At o b n cpu (t.loaded i)) (ho : RunsRace o)
    (hm : CounterAt o m t.value) (hlt : n < 6 * loops b) (hplace : n % 6 = 4) :
    Executes o b n i t cpu m := by
  rcases run_test (m := m) (.int (o.loadaddr + (4 : ℕ) + 1)) h.bx with ⟨conditions, hrun, hgt⟩
  rcases h.fetch ho hm hlt hplace rfl hrun with ⟨entry, hexecute, hcpu⟩
  have hnone := h.elsewhere (by omega) (by omega)
  have hsubs : (n + 1 + 2) / 6 = (n + 2) / 6 := by omega
  refine Executes.quiet hm hexecute hcpu (by omega) (by omega)
    ⟨hlt, ?_, h.zero, ?_, ?_, ?_, fun _ => ?_, fun _ _ => hnone⟩
  · rw [next_place hlt (by omega), hplace]
  · rw [hsubs]
    exact h.bx
  · intro hload
    omega
  · intro hadd
    omega
  · rw [hsubs]
    exact hgt

/-- The jump is taken until the thread has gone around often enough. -/
theorem jgt_taken (hplace : n % 6 = 5) :
    0 < b - ((n + 2) / 6 : ℕ) ↔ n + 1 < 6 * loops b := by
  have hsubs : (n + 2) / 6 = n / 6 + 1 := by omega
  rw [hsubs, loops]
  omega

theorem At.executes_jgt (h : At o b n cpu (t.loaded i)) (ho : RunsRace o)
    (hm : CounterAt o m t.value) (hlt : n < 6 * loops b) (hplace : n % 6 = 5) :
    Executes o b n i t cpu m := by
  rcases h.fetch ho hm hlt hplace rfl (run_jgt _ o.loadaddr) with ⟨entry, hexecute, hcpu⟩
  have hnone := h.elsewhere (by omega) (by omega)
  have hsubs : (n + 1 + 2) / 6 = (n + 2) / 6 := by omega
  refine Executes.quiet hm hexecute hcpu (by omega) (by omega)
    ⟨hlt, ?_, h.zero, ?_, ?_, ?_, ?_, fun _ _ => hnone⟩
  · have htaken := jgt_taken (b := b) hplace
    dsimp only
    rw [h.afterTest hplace]
    by_cases hagain : n + 1 < 6 * loops b
    · rw [if_pos (decide_eq_true (htaken.mpr hagain)), if_pos hagain,
        show (n + 1) % 6 = 0 by omega, Nat.cast_zero, add_zero]
    · rw [if_neg (by rw [decide_eq_true_eq]; exact fun hpos => hagain (htaken.mp hpos)),
        if_neg hagain]
      congr 1
      push_cast
      ring
  · rw [hsubs]
    exact h.bx
  · intro hload
    omega
  · intro hadd
    omega
  · intro htest
    omega

theorem At.executes_halt (h : At o b n cpu (t.loaded i)) (ho : RunsRace o)
    (hm : CounterAt o m t.value) (hend : n = 6 * loops b) : Executes o b n i t cpu m := by
  have hpc : cpu.PC = .int (o.loadaddr + (6 : ℕ)) := by
    rw [h.pc, if_neg (by omega)]
  rcases ho.code (k := 6) rfl with ⟨hcode, hisCode, hne⟩
  refine ⟨_, _, _, t, execute_eq hpc ((hm.same _ hne).trans hcode) hisCode rfl, .keeps, hm, ?_, ?_,
    ?_, ?_, fun hlt => absurd hlt (by omega), fun _ => h.elsewhere (by omega) (by omega)⟩
  · rw [if_neg (by omega), Nat.add_zero]
  · rw [if_neg (by omega), Nat.add_zero]
  · exact iff_of_true rfl hend
  · decide

theorem At.executes (h : At o b n cpu (t.loaded i)) (ho : RunsRace o)
    (hm : CounterAt o m t.value) : Executes o b n i t cpu m := by
  by_cases hend : n = 6 * loops b
  · exact h.executes_halt ho hm hend
  · have hlt : n < 6 * loops b := lt_of_le_of_ne h.le hend
    have hplaces : n % 6 = 0 ∨ n % 6 = 1 ∨ n % 6 = 2 ∨ n % 6 = 3 ∨ n % 6 = 4 ∨ n % 6 = 5 := by omega
    rcases hplaces with hplace | hplace | hplace | hplace | hplace | hplace
    · exact h.executes_load ho hm hlt hplace
    · exact h.executes_add ho hm hlt hplace
    · exact h.executes_store ho hm hlt hplace
    · exact h.executes_sub ho hm hlt hplace
    · exact h.executes_test ho hm hlt hplace
    · exact h.executes_jgt ho hm hlt hplace

end OsLabs.X86
