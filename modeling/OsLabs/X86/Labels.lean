import OsLabs.X86.Loader
import OsLabs.X86.Processes

/-!
# Labels

Both passes of the loader count the same lines, so a label has the address of the instruction
that follows it.
-/

namespace OsLabs.X86.Loader

open OsLabs.PyText OsLabs.SharedMemory

variable {u : Unicode} {vars labels : Text → Option ℤ} {loadaddr bpc addr : ℤ}
  {s s' : Tables} {t t' final : Image} {line cline label : Text} {lines infile : List Text}

/-! ## The first pass -/

/-- What the first pass makes of a line it accepts. -/
inductive FirstStep (u : Unicode) (bpc : ℤ) (s : Tables) (cline : Text) : Tables → Prop
  | blank (hsplit : split cline = []) : FirstStep u bpc s cline s
  | declares {words : List Text} {s' : Tables} (hsplit : split cline = dotVar :: words)
      (hdeclare : declare u bpc s words = some s') : FirstStep u bpc s cline s'
  | defines {label : Text} (hsplit : split cline = [label]) (hvar : label ≠ dotVar)
      (hdot : label.head? = some '.') :
      FirstStep u bpc s cline { s with labels := Function.update s.labels label (some s.pc) }
  | counts {word : Text} {words : List Text} (hsplit : split cline = word :: words)
      (hdot : word.head? ≠ some '.') : FirstStep u bpc s cline { s with pc := s.pc + 1 }

theorem firstPass_cases (h : firstPass u bpc s line = some s') :
    ∃ cline, uncomment line = some cline ∧ FirstStep u bpc s cline s' := by
  unfold firstPass at h
  obtain ⟨cline, hcline, hrest⟩ := Option.bind_eq_some_iff.mp h
  refine ⟨cline, hcline, ?_⟩
  split at hrest
  case h_1 hsplit =>
    obtain rfl := Option.some.inj hrest
    exact .blank hsplit
  case h_2 word words hsplit =>
    split at hrest
    case isTrue hvar => exact .declares (hvar ▸ hsplit) hrest
    case isFalse hvar =>
      split at hrest
      case isTrue hdot =>
        split at hrest
        case isTrue hwords =>
          obtain rfl := Option.some.inj hrest
          exact .defines (hwords ▸ hsplit) hvar hdot
        case isFalse => cases hrest
      case isFalse hdot =>
        obtain rfl := Option.some.inj hrest
        exact .counts hsplit hdot

/-- A declaration leaves the address and the labels as they are. -/
theorem declare_keeps {args : List Text} (h : declare u bpc s args = some s') :
    s'.pc = s.pc ∧ s'.labels = s.labels := by
  unfold declare at h
  obtain ⟨⟨name, mul⟩, -, hrest⟩ := Option.bind_eq_some_iff.mp h
  dsimp only at hrest
  split at hrest
  case isTrue => cases hrest
  case isFalse =>
    split at hrest
    case isTrue =>
      obtain rfl := Option.some.inj hrest
      exact ⟨rfl, rfl⟩
    case isFalse => cases hrest

/-- The label that a line defines for the first pass. -/
def definedLabel (line : Text) : Option Text :=
  (uncomment line).bind fun cline =>
    (split cline).head?.filter fun word => word ≠ dotVar ∧ word.head? = some '.'

theorem firstPass_of_defined (h : firstPass u bpc s line = some s')
    (hdefined : definedLabel line = some label) :
    s' = { s with labels := Function.update s.labels label (some s.pc) } := by
  obtain ⟨cline, hcline, hstep⟩ := firstPass_cases h
  unfold definedLabel at hdefined
  rw [hcline, Option.bind_some, Option.filter_eq_some_iff] at hdefined
  obtain ⟨hhead, hlabel⟩ := hdefined
  simp only [Bool.decide_and, Bool.and_eq_true, decide_eq_true_eq] at hlabel
  cases hstep with
  | blank hsplit =>
      rw [hsplit] at hhead
      cases hhead
  | declares hsplit =>
      rw [hsplit] at hhead
      exact absurd (Option.some.inj hhead).symm hlabel.1
  | defines hsplit =>
      rw [hsplit] at hhead
      obtain rfl := Option.some.inj hhead
      rfl
  | counts hsplit hdot =>
      rw [hsplit] at hhead
      obtain rfl := Option.some.inj hhead
      exact absurd hlabel.2 hdot

theorem firstPass_of_undefined (h : firstPass u bpc s line = some s')
    (hundefined : definedLabel line = none) : s'.labels = s.labels := by
  obtain ⟨cline, hcline, hstep⟩ := firstPass_cases h
  cases hstep with
  | blank => rfl
  | declares _ hdeclare => exact (declare_keeps hdeclare).2
  | defines hsplit hvar hdot =>
      unfold definedLabel at hundefined
      rw [hcline, Option.bind_some, hsplit, List.head?_cons,
        Option.filter_some_pos (by simpa using ⟨hvar, hdot⟩)] at hundefined
      cases hundefined
  | counts => rfl

/-! ## The second pass -/

/-- What the second pass makes of a line it accepts. -/
inductive SecondStep (u : Unicode) (vars labels : Text → Option ℤ) (t : Image) (cline : Text) :
    Image → Prop
  | skips (hskip : split cline = [] ∨ cline.head? = some '.') : SecondStep u vars labels t cline t
  | stores {stored : Stored} (hblank : split cline ≠ []) (hdot : cline.head? ≠ some '.')
      (hstored : assemble u vars labels cline = some stored) :
      SecondStep u vars labels t cline (t.store stored cline)

theorem secondPass_cases (h : secondPass u vars labels t line = some t') :
    ∃ cline, uncomment line = some cline ∧ SecondStep u vars labels t cline t' := by
  unfold secondPass at h
  obtain ⟨cline, hcline, hrest⟩ := Option.bind_eq_some_iff.mp h
  refine ⟨cline, hcline, ?_⟩
  split at hrest
  case isTrue hskip =>
    obtain rfl := Option.some.inj hrest
    exact .skips hskip
  case isFalse hskip =>
    obtain ⟨stored, hstored, hrest⟩ := Option.bind_eq_some_iff.mp hrest
    obtain rfl := Option.some.inj hrest
    exact .stores (fun hblank => hskip (.inl hblank)) (fun hdot => hskip (.inr hdot)) hstored

/-- No opcode starts like a label. -/
theorem head?_of_lookup {opcode : Text} {op : Opcode} (h : opcodes.lookup opcode = some op) :
    opcode.head? ≠ some '.' := by
  obtain ⟨before, after, hopcodes, -⟩ := List.lookup_eq_some_iff.mp h
  have hmem : (opcode, op) ∈ opcodes := hopcodes ▸ List.mem_append_right _ List.mem_cons_self
  have hall : ∀ entry ∈ opcodes, entry.1.head? ≠ some '.' := by decide
  exact hall _ hmem

theorem assemble_cases {stored : Stored} (h : assemble u vars labels cline = some stored) :
    ∃ opcode args op, splitWord cline = opcode :: args ∧ opcodes.lookup opcode = some op ∧
      (op = .mdump ∧ args.head?.map .mdump = some stored ∨
        op ≠ .mdump ∧ (instruction u vars labels args op).map .call = some stored) := by
  unfold assemble at h
  split at h
  case h_1 => cases h
  case h_2 opcode args hsplit =>
    obtain ⟨op, hlookup, hrest⟩ := Option.bind_eq_some_iff.mp h
    refine ⟨opcode, args, op, hsplit, hlookup, ?_⟩
    split at hrest
    case h_1 =>
      obtain ⟨arg, harg, hrest⟩ := Option.bind_eq_some_iff.mp hrest
      exact .inl ⟨rfl, by rw [harg]; exact hrest⟩
    case h_2 hop =>
      obtain ⟨instr, hinstr, hrest⟩ := Option.bind_eq_some_iff.mp hrest
      exact .inr ⟨hop, by rw [hinstr]; exact hrest⟩

/-! ## Both passes on a line -/

/-- A line with an instruction has no first word like that of a label. -/
theorem head?_of_assemble {stored : Stored} (h : assemble u vars labels cline = some stored) :
    ∀ word ∈ (split cline).head?, word.head? ≠ some '.' := by
  obtain ⟨opcode, args, op, hsplit, hlookup, -⟩ := assemble_cases h
  rw [← splitWord_head?, hsplit]
  rintro word ⟨⟩
  exact head?_of_lookup hlookup

/-- A line that starts like a label has such a first word. -/
theorem head?_of_dot {word : Text} {words : List Text} (hsplit : split cline = word :: words)
    (hdot : cline.head? = some '.') : word.head? = some '.' := by
  cases cline with
  | nil => cases hdot
  | cons c cs =>
      obtain rfl : c = '.' := Option.some.inj hdot
      obtain ⟨rest, words', hsplit'⟩ := head?_split (c := '.') (by decide) cs
      obtain ⟨rfl, -⟩ := List.cons.inj (hsplit'.symm.trans hsplit)
      rfl

/-- The passes count the same lines. -/
theorem pc_agrees (hfirst : firstPass u bpc s line = some s')
    (hsecond : secondPass u vars labels t line = some t') (hpc : s.pc = t.pc) : s'.pc = t'.pc := by
  obtain ⟨cline, hcline, hstep⟩ := firstPass_cases hfirst
  obtain ⟨cline', hcline', hstep'⟩ := secondPass_cases hsecond
  obtain rfl := Option.some.inj (hcline.symm.trans hcline')
  cases hstep' with
  | skips hskip =>
      cases hstep with
      | blank => exact hpc
      | declares hsplit hdeclare => exact (declare_keeps hdeclare).1.trans hpc
      | defines => exact hpc
      | counts hsplit hdot =>
          rw [hsplit] at hskip
          exact absurd (head?_of_dot hsplit (hskip.resolve_left (List.cons_ne_nil _ _))) hdot
  | stores hblank hdot hstored =>
      have hword := head?_of_assemble hstored
      cases hstep with
      | blank hsplit => exact absurd hsplit hblank
      | declares hsplit =>
          rw [hsplit] at hword
          exact absurd rfl (hword dotVar rfl)
      | defines hsplit hvar hlabel =>
          rw [hsplit] at hword
          exact absurd hlabel (hword _ rfl)
      | counts => exact congrArg (· + 1) hpc

/-! ## Both passes on the lines of a file -/

theorem foldlM_pc_agrees (hfirst : lines.foldlM (firstPass u bpc) s = some s')
    (hsecond : lines.foldlM (secondPass u vars labels) t = some t') (hpc : s.pc = t.pc) :
    s'.pc = t'.pc := by
  induction lines generalizing s t with
  | nil =>
      obtain rfl := Option.some.inj hfirst
      obtain rfl := Option.some.inj hsecond
      exact hpc
  | cons line lines ih =>
      obtain ⟨s₁, hline, hrest⟩ := Option.bind_eq_some_iff.mp hfirst
      obtain ⟨t₁, hline', hrest'⟩ := Option.bind_eq_some_iff.mp hsecond
      exact ih hrest hrest' (pc_agrees hline hline' hpc)

/-- Only the lines that define it change the address of a label. -/
theorem labels_of_not_mem (h : lines.foldlM (firstPass u bpc) s = some s')
    (hnot : label ∉ lines.filterMap definedLabel) : s'.labels label = s.labels label := by
  induction lines generalizing s with
  | nil =>
      obtain rfl := Option.some.inj h
      rfl
  | cons line lines ih =>
      obtain ⟨s₁, hline, hrest⟩ := Option.bind_eq_some_iff.mp h
      cases hdefined : definedLabel line with
      | none =>
          rw [List.filterMap_cons_none hdefined] at hnot
          rw [ih hrest hnot, firstPass_of_undefined hline hdefined]
      | some other =>
          rw [List.filterMap_cons_some hdefined, List.mem_cons, not_or] at hnot
          rw [ih hrest hnot.2, firstPass_of_defined hline hdefined]
          exact Function.update_of_ne hnot.1 ..

/-- What has been stored stays. -/
theorem memory_of_lt (h : lines.foldlM (secondPass u vars labels) t = some final)
    (hlt : addr < t.pc) : final.memory addr = t.memory addr ∧ final.pmemory addr = t.pmemory addr := by
  induction lines generalizing t with
  | nil =>
      obtain rfl := Option.some.inj h
      exact ⟨rfl, rfl⟩
  | cons line lines ih =>
      obtain ⟨t₁, hline, hrest⟩ := Option.bind_eq_some_iff.mp h
      obtain ⟨cline, -, hstep⟩ := secondPass_cases hline
      cases hstep with
      | skips => exact ih hrest hlt
      | stores =>
          obtain ⟨hmemory, hpmemory⟩ := ih hrest (hlt.trans (lt_add_one t.pc))
          exact ⟨hmemory.trans (Function.update_of_ne hlt.ne ..),
            hpmemory.trans (Function.update_of_ne hlt.ne ..)⟩

theorem memory_stored {stored : Stored}
    (h : lines.foldlM (secondPass u vars labels) (t.store stored cline) = some final) :
    final.memory t.pc = some stored ∧ final.pmemory t.pc = some (strip cline) := by
  obtain ⟨hmemory, hpmemory⟩ := memory_of_lt h (lt_add_one t.pc)
  exact ⟨hmemory.trans (Function.update_self ..), hpmemory.trans (Function.update_self ..)⟩

/-- The first instruction of the lines is stored where the second pass is, and is there in the
end; without one, this is one past the last instruction. -/
inductive FirstStored (u : Unicode) (vars labels : Text → Option ℤ) (t final : Image) :
    List Text → Prop
  | skips {line : Text} {lines : List Text} (hskip : secondPass u vars labels t line = some t)
      (hrest : FirstStored u vars labels t final lines) :
      FirstStored u vars labels t final (line :: lines)
  | stores {line : Text} {lines : List Text} {cline : Text} {stored : Stored}
      (hstore : secondPass u vars labels t line = some (t.store stored cline))
      (hmemory : final.memory t.pc = some stored)
      (hpmemory : final.pmemory t.pc = some (strip cline)) :
      FirstStored u vars labels t final (line :: lines)
  | ends (hpc : final.pc = t.pc) : FirstStored u vars labels t final []

theorem firstStored (h : lines.foldlM (secondPass u vars labels) t = some final) :
    FirstStored u vars labels t final lines := by
  induction lines with
  | nil =>
      obtain rfl := Option.some.inj h
      exact .ends rfl
  | cons line lines ih =>
      obtain ⟨t₁, hline, hrest⟩ := Option.bind_eq_some_iff.mp h
      obtain ⟨cline, -, hstep⟩ := secondPass_cases hline
      cases hstep with
      | skips => exact .skips hline (ih hrest)
      | stores =>
          obtain ⟨hmemory, hpmemory⟩ := memory_stored hrest
          exact .stores hline hmemory hpmemory

/-! ## Jumps -/

/-- What an opcode that takes a label makes of its address. -/
def jumps : Opcode → Option (ℤ → Instr)
  | .call => some .call
  | .j => some .jump
  | .jne => some .jumpNotequal
  | .je => some .jumpEqual
  | .jlt => some .jumpLessthan
  | .jlte => some .jumpLessthanorequal
  | .jgt => some .jumpGreaterthan
  | .jgte => some .jumpGreaterthanorequal
  | _ => none

/-- Whether the jump takes place. -/
def taken (conditions : Cond → Bool) : Opcode → Bool
  | .jne => conditions .neq
  | .je => conditions .eq
  | .jlt => conditions .lt
  | .jlte => conditions .lte
  | .jgt => conditions .gt
  | .jgte => conditions .gte
  | _ => true

variable {op : Opcode} {toInstr : ℤ → Instr} {args : List Text} {targ : ℤ}

theorem instruction_of_jumps (h : jumps op = some toInstr) :
    instruction u vars labels args op = (oneArg u vars args).bind (toLabel labels toInstr) := by
  cases op <;> cases h <;> rfl

/-- A jump is stored with the address of the label it names. -/
theorem assemble_of_jumps {opcode : Text} {stored : Stored} (hsplit : splitWord cline = opcode :: args)
    (hlookup : opcodes.lookup opcode = some op) (hjumps : jumps op = some toInstr)
    (hstored : assemble u vars labels cline = some stored) :
    ∃ label targ, oneArg u vars args = some (.label label) ∧ labels label = some targ ∧
      stored = .call (toInstr targ) := by
  obtain ⟨opcode', args', op', hsplit', hlookup', hcases⟩ := assemble_cases hstored
  obtain ⟨rfl, rfl⟩ := List.cons.inj (hsplit.symm.trans hsplit')
  obtain rfl := Option.some.inj (hlookup.symm.trans hlookup')
  obtain ⟨rfl, -⟩ | ⟨-, hmap⟩ := hcases
  · cases hjumps
  · rw [instruction_of_jumps hjumps] at hmap
    obtain ⟨instr, hinstr, rfl⟩ := Option.map_eq_some_iff.mp hmap
    obtain ⟨arg, harg, htarget⟩ := Option.bind_eq_some_iff.mp hinstr
    cases arg with
    | immediate | register | memory => cases htarget
    | label label =>
        obtain ⟨targ, htarg, rfl⟩ := Option.map_eq_some_iff.mp htarget
        exact ⟨label, targ, harg, htarg, rfl⟩

theorem run_ret {α : Type} {x y : α} {memory m' : Memory} {events : List (Event Value Value)}
    (h : run (.ret x : Access Value Value PyError α) memory = .ok (y, m', events)) : x = y :=
  (Prod.mk.inj (Except.ok.inj h)).1

theorem jumpIf_eq (cond : Cond) (targ : ℤ) (cpu : Cpu) : jumpIf cond targ cpu =
    .ret (some 0, { cpu with PC := if cpu.conditions cond then .int targ else cpu.PC }) := by
  have hreads : jumpIf cond targ cpu = (if cpu.conditions cond = true then
      (do setPC (.int targ); return some 0 : Exec Rc) else return some 0) cpu := rfl
  rw [hreads]
  split <;> rfl

theorem jumpIf_PC {cond : Cond} {cpu cpu' : Cpu} {memory m' : Memory} {rc : Rc}
    {events : List (Event Value Value)}
    (h : run (jumpIf cond targ cpu) memory = .ok ((rc, cpu'), m', events)) :
    cpu'.PC = if cpu.conditions cond then .int targ else cpu.PC := by
  rw [jumpIf_eq] at h
  obtain ⟨-, rfl⟩ := Prod.mk.inj (run_ret h)
  rfl

/-- Where `call` fails, the stack pointer is no number. -/
theorem call_PC {cpu cpu' : Cpu} {memory m' : Memory} {rc : Rc} {events : List (Event Value Value)}
    (h : run (X86.call targ cpu) memory = .ok ((rc, cpu'), m', events)) : cpu'.PC = .int targ := by
  have hcall : X86.call targ cpu = (assign Value.sub .sp (.int 4) cpu).bind fun r =>
      (do setMemory (← getReg .sp) (← getPC)
          setPC (.int targ)
          return none : Exec Rc) r.2 := rfl
  rw [hcall, assign_eq] at h
  split at h
  case h_1 =>
    obtain ⟨⟨-, rfl⟩, -⟩ := by simpa [run, Except.map] using h
    rfl
  case h_2 => cases h

theorem eval_PC (h : jumps op = some toInstr) {cpu cpu' : Cpu} {memory m' : Memory} {rc : Rc}
    {events : List (Event Value Value)}
    (hrun : run ((toInstr targ).eval cpu) memory = .ok ((rc, cpu'), m', events)) :
    cpu'.PC = if taken cpu.conditions op then .int targ else cpu.PC := by
  cases op with
  | call =>
      cases h
      exact call_PC hrun
  | j =>
      cases h
      obtain ⟨-, rfl⟩ := Prod.mk.inj (run_ret hrun)
      rfl
  | jne | je | jlt | jlte | jgt | jgte =>
      cases h
      exact jumpIf_PC hrun
  | _ => cases h

/-! ## The labels of a program -/

/-- The second pass over the first lines of a file. -/
def assembled (u : Unicode) (tables : Tables) (loadaddr : ℤ) (lines : List Text) : Option Image :=
  lines.foldlM (secondPass u tables.vars tables.labels) ⟨loadaddr, fun _ => none, fun _ => none⟩

/-- Each label has the address of the instruction that follows it, and each jump goes to the
label it names. -/
structure LabelsResolve (u : Unicode) (infile : List Text) (loadaddr : ℤ) (tables : Tables)
    (image : Image) : Prop where
  resolves : ∀ before line after label, infile = before ++ line :: after →
    definedLabel line = some label →
    ∃ t, assembled u tables loadaddr (before ++ [line]) = some t ∧
      tables.labels label = some t.pc ∧
      FirstStored u tables.vars tables.labels t image after
  transfers : ∀ before line after cline opcode args op toInstr, infile = before ++ line :: after →
    uncomment line = some cline → splitWord cline = opcode :: args →
    opcodes.lookup opcode = some op → jumps op = some toInstr →
    ∃ t label targ, assembled u tables loadaddr before = some t ∧
      image.memory t.pc = some (.call (toInstr targ)) ∧
      oneArg u tables.vars args = some (.label label) ∧
      label ∈ infile.filterMap definedLabel ∧ tables.labels label = some targ ∧
      ∀ cpu memory rc cpu' m' events,
        run ((toInstr targ).eval cpu) memory = .ok ((rc, cpu'), m', events) →
        cpu'.PC = if taken cpu.conditions op then .int targ else cpu.PC

theorem load_passes {tables : Tables} {image : Image}
    (h : load u infile loadaddr = some (tables, image)) :
    infile.foldlM (firstPass u loadaddr) ⟨loadaddr, 100, fun _ => none, fun _ => none⟩ =
        some tables ∧
      assembled u tables loadaddr infile = some image := by
  unfold load at h
  obtain ⟨tables', hfirst, hrest⟩ := Option.bind_eq_some_iff.mp h
  obtain ⟨image', hsecond, hrest⟩ := Option.bind_eq_some_iff.mp hrest
  obtain ⟨rfl, rfl⟩ := Prod.mk.inj (Option.some.inj hrest)
  exact ⟨hfirst, hsecond⟩

theorem foldlM_line {σ : Type} {f : σ → Text → Option σ} {x z : σ} {before after : List Text}
    (h : (before ++ line :: after).foldlM f x = some z) :
    ∃ y y', before.foldlM f x = some y ∧ f y line = some y' ∧ after.foldlM f y' = some z := by
  rw [List.foldlM_append] at h
  obtain ⟨y, hbefore, hrest⟩ := Option.bind_eq_some_iff.mp h
  obtain ⟨y', hline, hafter⟩ := Option.bind_eq_some_iff.mp hrest
  exact ⟨y, y', hbefore, hline, hafter⟩

theorem load_resolves {tables : Tables} {image : Image}
    (h : load u infile loadaddr = some (tables, image))
    (hdistinct : (infile.filterMap definedLabel).Nodup) :
    LabelsResolve u infile loadaddr tables image := by
  obtain ⟨hfirst, hsecond⟩ := load_passes h
  refine ⟨?_, ?_⟩
  · rintro before line after label rfl hdefined
    obtain ⟨s, s', hbefore, hline, hafter⟩ := foldlM_line hfirst
    obtain ⟨t, t', hbefore', hline', hafter'⟩ := foldlM_line hsecond
    have hpc : s'.pc = t'.pc := pc_agrees hline hline' (foldlM_pc_agrees hbefore hbefore' rfl)
    have hnot : label ∉ after.filterMap definedLabel := by
      rw [List.filterMap_append, List.filterMap_cons_some hdefined] at hdistinct
      exact (List.nodup_cons.mp hdistinct.of_append_right).1
    have hlabels := labels_of_not_mem hafter hnot
    obtain rfl := firstPass_of_defined hline hdefined
    refine ⟨t', ?_, hlabels.trans ?_, firstStored hafter'⟩
    · unfold assembled
      rw [List.foldlM_append, hbefore']
      simpa using hline'
    · rw [← hpc]
      exact Function.update_self ..
  · rintro before line after cline opcode args op toInstr rfl hcline hsplit hlookup hjumps
    obtain ⟨t, t', hbefore, hline, hafter⟩ := foldlM_line hsecond
    obtain ⟨cline', hcline', hstep⟩ := secondPass_cases hline
    obtain rfl := Option.some.inj (hcline.symm.trans hcline')
    have hword : (split cline).head? = some opcode := by rw [← splitWord_head?, hsplit]; rfl
    cases hstep with
    | skips hskip =>
        obtain ⟨words, hwords⟩ := List.head?_eq_some_iff.mp hword
        have hdot := hskip.resolve_left (hwords ▸ List.cons_ne_nil _ _)
        exact absurd (head?_of_dot hwords hdot) (head?_of_lookup hlookup)
    | stores hblank hdot hstored =>
        obtain ⟨label, targ, harg, htarg, rfl⟩ := assemble_of_jumps hsplit hlookup hjumps hstored
        refine ⟨t, label, targ, hbefore, (memory_stored hafter).1, harg, ?_, htarg, ?_⟩
        · by_contra hnot
          rw [labels_of_not_mem hfirst hnot] at htarg
          cases htarg
        · exact fun cpu memory rc cpu' m' events hrun => eval_PC hjumps hrun

/-- A loop with a comment, a variable and an indented instruction. -/
def loopProgram : List Text :=
  ["# count down".toList, ".var total".toList, ".main".toList, "mov $3, %ax".toList, ".loop".toList,
    "".toList, "  sub $1, %ax # step".toList, "jgt .loop".toList]

theorem load_resolves_loop : ∃ tables image, load .ascii loopProgram 1000 = some (tables, image) ∧
    LabelsResolve .ascii loopProgram 1000 tables image := by
  have hload : (load .ascii loopProgram 1000).isSome := by decide +kernel
  obtain ⟨⟨tables, image⟩, hsome⟩ := Option.isSome_iff_exists.mp hload
  exact ⟨tables, image, hsome, load_resolves hsome (by decide +kernel)⟩

end OsLabs.X86.Loader
