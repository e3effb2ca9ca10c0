import OsLabs.X86.Operands

/-!
# The addresses of memory operands

An operand in the instructions that take one, and the address that each of them computes.
-/

namespace OsLabs.X86

open OsLabs.SharedMemory

/-! ## The addresses of the instructions -/

/-- The address that an instruction computes, its `tmp`. -/
def Instr.tmp : Instr → Option (Exec Value)
  | .moveIToM _ value reg1 reg2 scale | .moveMToR value reg1 reg2 scale _
  | .moveRToM _ value reg1 reg2 scale | .leaMToR value reg1 reg2 scale _ =>
      some (address value reg1 reg2 scale)
  | .atomicExchange _ value reg1 reg2 | .fetchadd _ value reg1 reg2 =>
      some (lockAddress value reg1 reg2)
  | .pushM value reg1 reg2 scale => some do
      assign Value.sub .sp (.int 4)
      address value reg1 reg2 scale
  | _ => none

/-- What the instruction does with it. -/
def Instr.use : Instr → Value → Exec Rc
  | .moveIToM src .., tmp => do
      setMemory tmp (.int src)
      return some 0
  | .moveMToR _ _ _ _ dst, tmp => do
      setReg dst (← getMemory tmp)
      return none
  | .moveRToM src .., tmp => do
      setMemory tmp (← getReg src)
      return some 0
  | .leaMToR _ _ _ _ dst, tmp => do
      setReg dst tmp
      return none
  | .atomicExchange src .., tmp => do
      let old ← getMemory tmp
      setMemory tmp (← getReg src)
      setReg src old
      return some 0
  | .fetchadd src .., tmp => do
      let old ← getMemory tmp
      setMemory tmp (← lift ((← getMemory tmp).add (← getReg src)))
      setReg src old
      return none
  | .pushM .., tmp => do
      setMemory (← getReg .sp) tmp
      return some 0
  | i, _ => i.eval

theorem Instr.eval_eq {i : Instr} {tmp : Exec Value} (h : i.tmp = some tmp) (cpu : Cpu) :
    i.eval cpu = (tmp cpu).bind fun r => i.use r.1 r.2 := by
  cases i with
  | pushM value reg1 reg2 scale =>
      obtain rfl := Option.some.inj h
      have hpush : X86.pushM value reg1 reg2 scale cpu =
          (assign Value.sub .sp (.int 4) cpu).bind fun r =>
            (address value reg1 reg2 scale r.2).bind fun r =>
              (pushM value reg1 reg2 scale).use r.1 r.2 := rfl
      have htmp : (do assign Value.sub .sp (.int 4); address value reg1 reg2 scale : Exec Value) cpu =
          (assign Value.sub .sp (.int 4) cpu).bind fun r => address value reg1 reg2 scale r.2 := rfl
      show X86.pushM value reg1 reg2 scale cpu = _
      rw [hpush, htmp, assign_eq]
      split <;> rfl
  | moveIToM | moveMToR | moveRToM | leaMToR | atomicExchange | fetchadd =>
      obtain rfl := Option.some.inj h
      rfl
  | _ => cases h

/-- `value + reg1 + scale * reg2` -/
def effective (registers : Reg → Value) (value : ℤ) (reg1 reg2 : Reg) (scale : ℤ) :
    Except PyError Value := do
  let sum ← (Value.int value).add (registers reg1)
  sum.add (← (Value.int scale).mul (registers reg2))

theorem address_eq (value : ℤ) (reg1 reg2 : Reg) (scale : ℤ) (cpu : Cpu) :
    address value reg1 reg2 scale cpu =
      lift (effective cpu.registers value reg1 reg2 scale) cpu := by
  have hreads : address value reg1 reg2 scale cpu =
      ((lift ((Value.int value).add (cpu.registers reg1)) >>= fun sum => do
        let scaled ← lift ((Value.int scale).mul (← getReg reg2))
        lift (sum.add scaled) : Exec Value) cpu) := rfl
  rw [hreads]
  unfold effective
  cases hsum : (Value.int value).add (cpu.registers reg1) with
  | error e => rfl
  | ok sum =>
      have hscales : (lift (.ok sum) >>= fun sum => do
          let scaled ← lift ((Value.int scale).mul (← getReg reg2))
          lift (sum.add scaled) : Exec Value) cpu =
        (lift ((Value.int scale).mul (cpu.registers reg2)) >>= fun scaled =>
          lift (sum.add scaled) : Exec Value) cpu := rfl
      rw [hscales]
      cases hscaled : (Value.int scale).mul (cpu.registers reg2) with
      | error e => rfl
      | ok scaled => rfl

theorem mul_one_value (value : Value) : (Value.int 1).mul value = .ok value := by
  cases value with
  | int n =>
      show Except.ok (Value.int (1 * n)) = _
      rw [one_mul]
  | str code =>
      show Except.ok (Value.str (List.replicate 1 code).flatten) = _
      simp

theorem lockAddress_eq (value : ℤ) (reg1 reg2 : Reg) (cpu : Cpu) :
    lockAddress value reg1 reg2 cpu = lift (effective cpu.registers value reg1 reg2 1) cpu := by
  have hreads : lockAddress value reg1 reg2 cpu =
      (lift ((Value.int value).add (cpu.registers reg1)) >>= fun sum => do
        lift (sum.add (← getReg reg2)) : Exec Value) cpu := rfl
  rw [hreads]
  unfold effective
  rw [mul_one_value]
  cases hsum : (Value.int value).add (cpu.registers reg1) with
  | error e => rfl
  | ok sum => rfl

/-- What a computation of an address returns; it does not look at the memory. -/
def returned (c : Access Value Value PyError (Value × Cpu)) : Option Value :=
  (run c fun _ => none).toOption.map fun r => r.1.1

theorem returned_lift (x : Except PyError Value) (cpu : Cpu) :
    returned (lift x cpu) = x.toOption := by
  cases x <;> rfl

/-- The address that the instruction uses in a state, where it comes to that. -/
def Instr.effectiveAddress (i : Instr) (cpu : Cpu) : Option Value :=
  i.tmp.bind fun tmp => returned (tmp cpu)

section

variable {i : Instr} {value : ℤ} {reg1 reg2 : Reg} {scale : ℤ} {cpu : Cpu}

theorem effectiveAddress_of_address (h : i.tmp = some (address value reg1 reg2 scale)) :
    i.effectiveAddress cpu = (effective cpu.registers value reg1 reg2 scale).toOption := by
  unfold Instr.effectiveAddress
  rw [h, Option.bind_some, address_eq, returned_lift]

theorem effectiveAddress_of_lockAddress (h : i.tmp = some (lockAddress value reg1 reg2)) :
    i.effectiveAddress cpu = (effective cpu.registers value reg1 reg2 1).toOption := by
  unfold Instr.effectiveAddress
  rw [h, Option.bind_some, lockAddress_eq, returned_lift]

/-- `push` computes the address when the stack pointer has already moved. -/
theorem effectiveAddress_pushM : (Instr.pushM value reg1 reg2 scale).effectiveAddress cpu =
    ((cpu.registers .sp).sub (.int 4)).toOption.bind fun sp =>
      (effective (Function.update cpu.registers .sp sp) value reg1 reg2 scale).toOption := by
  have hpush : (Instr.pushM value reg1 reg2 scale).effectiveAddress cpu =
      returned ((assign Value.sub .sp (.int 4) cpu).bind fun r =>
        address value reg1 reg2 scale r.2) := rfl
  rw [hpush, assign_eq]
  cases (cpu.registers .sp).sub (.int 4) with
  | error e => rfl
  | ok sp =>
      show returned (address value reg1 reg2 scale _) = _
      rw [address_eq, returned_lift]
      rfl

end

namespace Loader

open OsLabs.PyText

variable {u : Unicode} {vars labels : Text → Option ℤ}

/-! ## The instructions that take an operand -/

/-- An instruction whose memory operand is left out. -/
inductive Slot
  | movFrom (dst : Reg)
  | movTo (src : Reg)
  | movImmediate (src : Numeral)
  | lea (dst : Reg)
  | push
  | xchg (src : Reg)
  | fetchadd (src : Reg)

/-- The white space of a line. -/
structure Spacing where
  lead : Blank
  gap : Blank
  gap_ne_nil : gap.1 ≠ []
  before : Blank
  after : Blank
  tail : Blank

def Slot.opcode : Slot → Opcode
  | .movFrom _ | .movTo _ | .movImmediate _ => .mov
  | .lea _ => .lea
  | .push => .push
  | .xchg _ => .xchg
  | .fetchadd _ => .fetchadd

def Opcode.text (op : Opcode) : Text := ((opcodes.find? (·.2 = op)).map Prod.fst).getD []

def registerText (r : Reg) : Text := '%' :: regname r

/-- Two arguments with the comma between them. -/
def Spacing.pair (sp : Spacing) (arg1 arg2 : Text) : Text :=
  arg1 ++ (sp.before ++ ',' :: (sp.after ++ (arg2 ++ sp.tail)))

def Slot.args (sp : Spacing) (operand : Text) : Slot → Text
  | .movFrom dst | .lea dst => sp.pair operand (registerText dst)
  | .movTo src | .xchg src | .fetchadd src => sp.pair (registerText src) operand
  | .movImmediate src => sp.pair ('$' :: src.text) operand
  | .push => operand ++ sp.tail

def Slot.line (sp : Spacing) (operand : Text) (slot : Slot) : Text :=
  sp.lead ++ (slot.opcode.text ++ (sp.gap ++ slot.args sp operand))

theorem opcode_lookup (op : Opcode) : opcodes.lookup op.text = some op := by
  cases op <;> decide

theorem opcode_isspace (op : Opcode) : ∀ c ∈ op.text, isspace c = false := fun c hc =>
  isspace_of_isAlphanum (List.all_eq_true.mp (by cases op <;> decide) c hc)

theorem opcode_text_ne_nil (op : Opcode) : op.text ≠ [] := by
  cases op <;> decide

theorem solid_registerText (r : Reg) : Solid (registerText r) :=
  solid_of_forall (List.cons_ne_nil _ _) <|
    List.forall_mem_cons.mpr ⟨by decide, isspace_regname r⟩

theorem solid_immediate (n : Numeral) : Solid ('$' :: n.text) :=
  solid_of_forall (List.cons_ne_nil _ _) <| List.forall_mem_cons.mpr ⟨by decide, n.isspace⟩

/-- The first argument of a slot is not blank at its start. -/
theorem args_start (sp : Spacing) (o : Operand u) (slot : Slot) :
    ∃ arg rest, Solid arg ∧ slot.args sp o.text = arg ++ rest := by
  cases slot with
  | movFrom dst | lea dst => exact ⟨o.text, _, solid_textWith _ o, rfl⟩
  | movTo src | xchg src | fetchadd src => exact ⟨registerText src, _, solid_registerText src, rfl⟩
  | movImmediate src => exact ⟨'$' :: src.text, _, solid_immediate src, rfl⟩
  | push => exact ⟨o.text, _, solid_textWith _ o, rfl⟩

theorem assemble_line (sp : Spacing) (o : Operand u) (slot : Slot) :
    assemble u vars labels (slot.line sp o.text) =
      (instruction u vars labels [slot.args sp o.text] slot.opcode).map .call := by
  obtain ⟨arg, rest, hsolid, hargs⟩ := args_start sp o slot
  have hne : slot.args sp o.text ≠ [] := by
    rw [hargs]
    exact fun h => hsolid.ne_nil (List.append_eq_nil_iff.mp h).1
  have hhead : ∀ c ∈ (slot.args sp o.text).head?, isspace c = false := by
    rw [hargs, List.head?_append_of_ne_nil _ hsolid.ne_nil]
    exact hsolid.head
  have hsplit : splitWord (slot.line sp o.text) = [slot.opcode.text, slot.args sp o.text] :=
    splitWord_append sp.lead.2 (opcode_isspace slot.opcode) (opcode_text_ne_nil slot.opcode)
      sp.gap.2 sp.gap_ne_nil hne hhead
  unfold assemble
  rw [hsplit]
  simp only [opcode_lookup]
  cases slot <;> exact (Option.map_eq_bind).symm

/-! ## Arguments of the slots -/

theorem comma_not_mem_blank (b : Blank) : ',' ∉ b.1 := fun hmem =>
  Bool.noConfusion (b.2 ',' hmem)

variable {arg1 arg2 : Text}

theorem strip_before (sp : Spacing) (h : Solid arg1) : strip (arg1 ++ sp.before) = arg1 := by
  simpa using strip_append (b := []) nofun h sp.before.2

theorem strip_after (sp : Spacing) (h : Solid arg2) :
    strip (sp.after ++ (arg2 ++ sp.tail)) = arg2 :=
  strip_append sp.after.2 h sp.tail.2

theorem pair_eq (sp : Spacing) (arg1 arg2 : Text) : sp.pair arg1 arg2 =
    (arg1 ++ sp.before) ++ ',' :: (sp.after ++ (arg2 ++ sp.tail)) := by
  simp [Spacing.pair]

theorem comma_not_mem_before (sp : Spacing) (h : ',' ∉ arg1) : ',' ∉ arg1 ++ sp.before := by
  rw [List.mem_append, not_or]
  exact ⟨h, comma_not_mem_blank sp.before⟩

theorem twoArgs_pair (sp : Spacing) (h1 : Solid arg1) (hcomma : ',' ∉ arg1) (h2 : Solid arg2) :
    twoArgs u vars [sp.pair arg1 arg2] =
      (getarg u vars arg1).bind fun src => (getarg u vars arg2).map fun dst => (src, dst) := by
  have hsplit := splitOnce_append (comma_not_mem_before sp hcomma) (sp.after ++ (arg2 ++ sp.tail))
  unfold twoArgs
  rw [List.head?_cons, pair_eq]
  dsimp only [Option.bind_eq_bind, Option.bind_some]
  rw [hsplit]
  simp only [strip_before sp h1, strip_after sp h2]
  cases getarg u vars arg1 <;> cases getarg u vars arg2 <;> rfl

/-- Where the marks are as they should be, `mov` has its two arguments. -/
theorem movArgs_pair (sp : Spacing) {raw : Text}
    (hmarks : removecommas false raw = some (sp.pair arg1 arg2)) (h1 : Solid arg1)
    (hcomma1 : ',' ∉ arg1) (h2 : Solid arg2) (hcomma2 : ',' ∉ arg2) :
    movArgs u vars [raw] =
      (getarg u vars arg1).bind fun src => (getarg u vars arg2).map fun dst => (src, dst) := by
  have hrest : ',' ∉ sp.after ++ (arg2 ++ sp.tail) := by
    rw [List.mem_append, List.mem_append, not_or, not_or]
    exact ⟨comma_not_mem_blank sp.after, hcomma2, comma_not_mem_blank sp.tail⟩
  have hsplit : (sp.pair arg1 arg2).splitOn ',' =
      [arg1 ++ sp.before, sp.after ++ (arg2 ++ sp.tail)] := by
    rw [pair_eq, List.splitOn_append_cons_self_of_not_mem (comma_not_mem_before sp hcomma1),
      List.splitOn_eq_singleton hrest]
  unfold movArgs
  rw [List.head?_cons]
  show (removecommas false raw).bind _ = _
  rw [hmarks, Option.bind_some, hsplit]
  simp only [strip_before sp h1, strip_after sp h2]
  cases getarg u vars arg1 <;> cases getarg u vars arg2 <;> rfl

theorem getarg_registerText (r : Reg) : getarg u vars (registerText r) = some (.register r) := by
  have harg : despace (registerText r) = '%' :: regname r :=
    despace_plain (List.forall_mem_cons.mpr ⟨by decide, plain_regname r⟩)
  have htake : (regname r).takeWhile (· ≠ '%') = regname r := List.takeWhile_eq_self_iff.mpr
    fun c hc => decide_eq_true fun heq => percent_not_mem_regname r (heq ▸ hc)
  rw [getarg_register harg, htake, registerTranslate_regname]
  rfl

theorem getarg_immediate (n : Numeral) :
    getarg u vars ('$' :: n.text) = some (.immediate n.value) := by
  have harg : despace ('$' :: n.text) = '$' :: n.text :=
    despace_plain (List.forall_mem_cons.mpr ⟨by decide, n.plain⟩)
  have htake : n.text.takeWhile (· ≠ '$') = n.text := List.takeWhile_eq_self_iff.mpr
    fun c hc => decide_eq_true fun heq => n.not_mem (c := '$') (by decide) (heq ▸ hc)
  have hnumber (sign : ℤ) : number u sign n.digits n.digits = some (sign * digitsValue n.digits) := by
    have hint : int u n.digits = some (digitsValue n.digits : ℤ) := by
      simpa using int_of_digits u isBlank_nil isBlank_nil n.ne_nil n.isDigit
    unfold number
    rw [if_pos (isdigit_of_digits u n.ne_nil n.isDigit), hint]
    rfl
  have himmediate : immediate u n.text = some (.immediate n.value) := by
    unfold Numeral.text Numeral.value
    split
    · rw [immediate, hnumber, neg_one_mul]
      rfl
    · obtain ⟨d, ds, hdigits⟩ := List.exists_cons_of_ne_nil n.ne_nil
      have hd : d ≠ '-' := by
        rintro rfl
        exact Bool.noConfusion (n.isDigit '-' (hdigits ▸ List.mem_cons_self))
      rw [hdigits, immediate, ← hdigits, hnumber, one_mul]
      · rfl
      · exact nofun
      · exact fun cs heq => hd (List.cons.inj heq).1
  unfold getarg
  rw [harg]
  simp only [if_true, htake, himmediate]

/-! ## The instruction of a slot -/

theorem removecommas_plain {text : Text} (hopen : '(' ∉ text) (hclose : ')' ∉ text) :
    removecommas false text = some text := by
  simpa [removecommas] using removecommas_outside hopen hclose []

/-- A text outside of parentheses that has none, and no comma. -/
structure Outside (text : Text) : Prop where
  solid : Solid text
  opens : '(' ∉ text
  closes : ')' ∉ text
  comma : ',' ∉ text

theorem outside_register (r : Reg) : Outside (registerText r) := by
  have hfield : ∀ c ∈ registerText r, isField c = true :=
    List.forall_mem_cons.mpr ⟨by decide, isField_regname r⟩
  exact ⟨solid_registerText r, not_mem_of_isField hfield (by decide),
    not_mem_of_isField hfield (by decide), not_mem_of_isField hfield (by decide)⟩

theorem outside_immediate (n : Numeral) : Outside ('$' :: n.text) := by
  have hnot {c : Char} (hne : c ≠ '$') (hc : isField c = false) : c ∉ '$' :: n.text := by
    rw [List.mem_cons, not_or]
    exact ⟨hne, n.not_mem hc⟩
  exact ⟨solid_immediate n, hnot (by decide) (by decide), hnot (by decide) (by decide),
    hnot (by decide) (by decide)⟩

theorem paren_not_mem_blank {b : Blank} {c : Char} (hc : isspace c = false) : c ∉ b.1 := fun hmem => by
  rw [b.2 c hmem] at hc
  cases hc

/-- The commas of an operand before another argument. -/
theorem removecommas_before (sp : Spacing) (o : Operand u) (h : Outside arg2) :
    removecommas false (sp.pair o.text arg2) = some (sp.pair (o.textWith breakMark) arg2) := by
  have hnot {c : Char} (hspace : isspace c = false) (hne : c ≠ ',') (hc : c ∉ arg2) :
      c ∉ sp.before.1 ++ ',' :: (sp.after ++ (arg2 ++ sp.tail)) := by
    simp only [List.mem_append, List.mem_cons, not_or]
    exact ⟨paren_not_mem_blank hspace, hne, paren_not_mem_blank hspace, hc,
      paren_not_mem_blank hspace⟩
  unfold Spacing.pair
  rw [removecommas_operand, removecommas_plain (hnot (by decide) (by decide) h.opens)
    (hnot (by decide) (by decide) h.closes)]
  rfl

theorem removecommas_after (sp : Spacing) (o : Operand u) (h : Outside arg1) :
    removecommas false (sp.pair arg1 o.text) = some (sp.pair arg1 (o.textWith breakMark)) := by
  have hnot {c : Char} (hspace : isspace c = false) (hne : c ≠ ',') (hc : c ∉ arg1) :
      c ∉ arg1 ++ (sp.before.1 ++ ',' :: sp.after.1) := by
    simp only [List.mem_append, List.mem_cons, not_or]
    exact ⟨hc, paren_not_mem_blank hspace, hne, paren_not_mem_blank hspace⟩
  have hregroup (text : Text) : sp.pair arg1 text =
      (arg1 ++ (sp.before ++ ',' :: sp.after)) ++ (text ++ sp.tail) := by
    simp [Spacing.pair]
  rw [hregroup, hregroup, removecommas_outside (hnot (by decide) (by decide) h.opens)
    (hnot (by decide) (by decide) h.closes), removecommas_operand,
    removecommas_plain (paren_not_mem_blank (by decide)) (paren_not_mem_blank (by decide))]
  rfl

variable {o : Operand u} {sp : Spacing} {i : Instr} {slot : Slot} {dst src : Reg}

theorem movArgs_from : movArgs u vars [sp.pair o.text (registerText dst)] =
    (o.arg vars).map fun arg => (arg, .register dst) := by
  have hout := outside_register dst
  rw [movArgs_pair sp (removecommas_before sp o hout) (solid_textWith _ o) (comma_not_mem_marked o)
    hout.solid hout.comma, getarg_marked, getarg_registerText]
  cases o.arg vars <;> rfl

theorem movArgs_to {arg : Arg} (hout : Outside arg1) (harg : getarg u vars arg1 = some arg) :
    movArgs u vars [sp.pair arg1 o.text] = (o.arg vars).map fun dst => (arg, dst) := by
  rw [movArgs_pair sp (removecommas_after sp o hout) hout.solid hout.comma (solid_textWith _ o)
    (comma_not_mem_marked o), getarg_marked, harg]
  rfl

theorem twoArgs_to : twoArgs u vars [sp.pair (registerText src) o.text] =
    (o.firstArg vars).map fun dst => (.register src, dst) := by
  have hout := outside_register src
  rw [twoArgs_pair sp hout.solid hout.comma (solid_text o), getarg_registerText, getarg_text]
  rfl

theorem oneArg_push : oneArg u vars [o.text ++ sp.tail] = o.firstArg vars := by
  have hstrip : strip (o.text ++ sp.tail) = o.text := by
    simpa using strip_append (b := []) nofun (solid_text o) sp.tail.2
  unfold oneArg
  rw [List.head?_cons]
  show getarg u vars (strip (o.text ++ sp.tail)) = _
  rw [hstrip, getarg_text]

/-! ## Commas in the operand of `lea` -/

/-- What is left of the operand behind its first comma is no register. -/
theorem getarg_closed {tail : Text} (htail : '%' ∉ tail) (rest : Text) :
    getarg u vars ('%' :: (tail ++ ')' :: rest)) = none := by
  have harg : despace ('%' :: (tail ++ ')' :: rest)) =
      '%' :: (despace tail ++ ')' :: despace rest) := by
    have hpercent := despace_append_cons (c := '%') (by decide) (by decide) (by decide) []
      (tail ++ ')' :: rest)
    rw [despace_append_cons (c := ')') (by decide) (by decide) (by decide)] at hpercent
    exact hpercent
  have hne : ∀ c ∈ despace tail, decide (c ≠ '%') = true := fun c hc =>
    decide_eq_true fun heq => htail (mem_of_mem_despace (heq ▸ hc) (by decide))
  have hmem : ')' ∈ (despace tail ++ ')' :: despace rest).takeWhile (· ≠ '%') := by
    rw [List.takeWhile_append_of_pos hne, List.takeWhile_cons_of_pos (by decide)]
    exact List.mem_append_right _ List.mem_cons_self
  rw [getarg_register harg]
  cases hreg : registerTranslate ((despace tail ++ ')' :: despace rest).takeWhile (· ≠ '%')) with
  | none => rfl
  | some r =>
      rw [regname_of_registerTranslate hreg] at hmem
      exact absurd (isAlphanum_regname r ')' hmem) (by decide)

theorem twoArgs_index {n : Option (Numeral × Blank)} {reg1 : Field} {index : Index}
    (hindex : index.pieces ≠ []) (hout : Outside arg2) :
    twoArgs u vars [sp.pair (Operand.parens (u := u) n reg1 index).text arg2] = none := by
  obtain hnone | ⟨before, tail, hbefore, htail, htext⟩ := body_cases reg1 index
  · exact absurd hnone hindex
  have hoperand : (Operand.parens (u := u) n reg1 index).text =
      leading n ++ '(' :: (reg1.text ++ ',' :: (before ++ '%' :: tail) ++ [')']) := by
    rw [← htext]
    rfl
  have hregroup : sp.pair (Operand.parens (u := u) n reg1 index).text arg2 =
      (leading n ++ '(' :: reg1.text) ++ ',' :: (before ++
        (('%' :: (tail ++ ')' :: (sp.before ++ ',' :: (sp.after ++ arg2)))) ++ sp.tail)) := by
    unfold Spacing.pair
    rw [hoperand]
    simp
  have hsolid : Solid ('%' :: (tail ++ ')' :: (sp.before ++ ',' :: (sp.after ++ arg2)))) := by
    refine ⟨List.cons_ne_nil _ _, by rintro c ⟨⟩; decide, fun c hc => hout.solid.last c ?_⟩
    have hshape : '%' :: (tail ++ ')' :: (sp.before ++ ',' :: (sp.after ++ arg2))) =
        ('%' :: (tail ++ ')' :: (sp.before ++ ',' :: sp.after))) ++ arg2 := by simp
    rwa [hshape, List.getLast?_append_of_ne_nil _ hout.solid.ne_nil] at hc
  unfold twoArgs
  rw [List.head?_cons]
  dsimp only [Option.bind_eq_bind, Option.bind_some]
  rw [hregroup, splitOnce_append comma_not_mem_text]
  simp only [strip_append hbefore hsolid sp.tail.2, getarg_closed htail]
  cases getarg u vars (strip (leading n ++ '(' :: reg1.text)) <;> rfl

/-! ## Agreement -/

/-- What a slot makes of the operand it reads. -/
def Slot.instr : Slot → Arg → Option Instr
  | .movFrom dst, arg => mov arg (.register dst)
  | .movTo src, arg => mov (.register src) arg
  | .movImmediate src, arg => mov (.immediate src.value) arg
  | .lea dst, arg => Loader.lea arg (.register dst)
  | .push, arg => Loader.push arg
  | .xchg src, arg => lock .atomicExchange (.register src) arg
  | .fetchadd src, arg => lock .fetchadd (.register src) arg

/-- `mov` reads the operand as it stands, the other instructions its first register. -/
def Slot.reads (vars : Text → Option ℤ) (o : Operand u) : Slot → Option Arg
  | .movFrom _ | .movTo _ | .movImmediate _ => o.arg vars
  | .lea _ | .push | .xchg _ | .fetchadd _ => o.firstArg vars

theorem comma_of_no_index {o : Operand u} (h : ∀ n reg1 index, o = .parens n reg1 index →
    index.pieces = []) : o.text = o.textWith breakMark := by
  cases o with
  | number n => rfl
  | var name => rfl
  | parens n reg1 index =>
      unfold Operand.text
      simp only [Operand.textWith, h n reg1 index rfl, List.intercalate_singleton]

/-- A slot that is accepted has the instruction of what it reads. -/
theorem instruction_slot
    (h : instruction u vars labels [slot.args sp o.text] slot.opcode = some i) :
    (slot.reads vars o).bind slot.instr = some i := by
  cases slot with
  | movFrom dst =>
      have hargs : (movArgs u vars [sp.pair o.text (registerText dst)]).bind
        (fun args => mov args.1 args.2) = some i := h
      rw [movArgs_from, Option.bind_map] at hargs
      exact hargs
  | movTo src =>
      have hargs : (movArgs u vars [sp.pair (registerText src) o.text]).bind
        (fun args => mov args.1 args.2) = some i := h
      rw [movArgs_to (outside_register src) (getarg_registerText src), Option.bind_map] at hargs
      exact hargs
  | movImmediate src =>
      have hargs : (movArgs u vars [sp.pair ('$' :: src.text) o.text]).bind
        (fun args => mov args.1 args.2) = some i := h
      rw [movArgs_to (outside_immediate src) (getarg_immediate src), Option.bind_map] at hargs
      exact hargs
  | lea dst =>
      have hargs : (twoArgs u vars [sp.pair o.text (registerText dst)]).bind
        (fun args => lea args.1 args.2) = some i := h
      have hout := outside_register dst
      have hindex : ∀ n reg1 index, o = .parens n reg1 index → index.pieces = [] := by
        rintro n reg1 index rfl
        by_contra hne
        rw [twoArgs_index hne hout] at hargs
        cases hargs
      have hcomma : ',' ∉ o.text := comma_of_no_index hindex ▸ comma_not_mem_marked o
      rw [twoArgs_pair sp (solid_text o) hcomma hout.solid, getarg_text, getarg_registerText] at hargs
      cases hfirst : o.firstArg vars with
      | none =>
          rw [hfirst] at hargs
          cases hargs
      | some arg =>
          rw [hfirst] at hargs
          simpa [Slot.reads, hfirst, Slot.instr] using hargs
  | push =>
      have hargs : (oneArg u vars [o.text ++ sp.tail]).bind Loader.push = some i := h
      rw [oneArg_push] at hargs
      exact hargs
  | xchg src =>
      have hargs : (twoArgs u vars [sp.pair (registerText src) o.text]).bind
        (fun args => lock .atomicExchange args.1 args.2) = some i := h
      rw [twoArgs_to, Option.bind_map] at hargs
      exact hargs
  | fetchadd src =>
      have hargs : (twoArgs u vars [sp.pair (registerText src) o.text]).bind
        (fun args => lock .fetchadd args.1 args.2) = some i := h
      rw [twoArgs_to, Option.bind_map] at hargs
      exact hargs

/-- The address that the operand stands for in a state of the registers. -/
def Operand.Denotes (vars : Text → Option ℤ) (o : Operand u) (registers : Reg → Value)
    (addr : Value) : Prop :=
  ∃ value reg1 reg2 scale, o.arg vars = some (.memory value reg1 reg2 scale) ∧
    effective registers value reg1 reg2 scale = .ok addr

/-- In whatever two instructions the operand is accepted, they use the address that it stands
for. -/
def Agrees (vars labels : Text → Option ℤ) (o : Operand u) : Prop :=
  ∀ slot₁ sp₁ i₁ slot₂ sp₂ i₂, Slot.opcode slot₁ ≠ Slot.opcode slot₂ →
    assemble u vars labels (slot₁.line sp₁ o.text) = some (.call i₁) →
    assemble u vars labels (slot₂.line sp₂ o.text) = some (.call i₂) →
    ∀ cpu addr₁ addr₂, i₁.effectiveAddress cpu = some addr₁ → i₂.effectiveAddress cpu = some addr₂ →
      addr₁ = addr₂ ∧ o.Denotes vars cpu.registers addr₁

/-- The base is not the stack pointer, and there is no index, or one that changes nothing. -/
def Operand.Uniform : Operand u → Prop
  | .number _ | .var _ => True
  | .parens _ reg1 index => reg1.reg ≠ .sp ∧ index.reg = .zero ∧ index.scale = 1

theorem Operand.Uniform.firstArg {o : Operand u} (h : o.Uniform) (vars : Text → Option ℤ) :
    o.firstArg vars = o.arg vars := by
  cases o with
  | number n => rfl
  | var name => rfl
  | parens n reg1 index =>
      obtain ⟨-, hreg, hscale⟩ := h
      simp only [Operand.firstArg, Operand.arg, hreg, hscale]

theorem Operand.Uniform.arg {o : Operand u} (h : o.Uniform) {arg : Arg}
    (harg : o.arg vars = some arg) :
    ∃ value reg1, arg = .memory value reg1 .zero 1 ∧ reg1 ≠ .sp := by
  cases o with
  | number n => exact ⟨_, _, (Option.some.inj harg).symm, by decide⟩
  | var name =>
      obtain ⟨addr, -, rfl⟩ := Option.map_eq_some_iff.mp harg
      exact ⟨addr, .zero, rfl, by decide⟩
  | parens n reg1 index =>
      obtain ⟨hsp, hreg, hscale⟩ := h
      refine ⟨leadingValue n, reg1.reg, ?_, hsp⟩
      rw [← Option.some.inj harg, hreg, hscale]

theorem toOption_eq_some {α : Type} {x : Except PyError α} {a : α} (h : x.toOption = some a) :
    x = .ok a := by
  cases x with
  | error e => cases h
  | ok b => exact congrArg Except.ok (Option.some.inj h)

/-- Each instruction uses what it has read, `push` with the stack pointer moved. -/
theorem effective_of_instr {value : ℤ} {reg1 reg2 : Reg} {scale : ℤ}
    (hinstr : slot.instr (.memory value reg1 reg2 scale) = some i) {cpu : Cpu} {addr : Value}
    (haddr : i.effectiveAddress cpu = some addr) (hsp1 : reg1 ≠ .sp) (hsp2 : reg2 ≠ .sp)
    (hscale : scale = 1) : effective cpu.registers value reg1 reg2 scale = .ok addr := by
  subst hscale
  cases slot with
  | movFrom | movTo | movImmediate | lea =>
      obtain rfl := Option.some.inj hinstr
      rw [effectiveAddress_of_address rfl] at haddr
      exact toOption_eq_some haddr
  | xchg | fetchadd =>
      obtain rfl := Option.some.inj hinstr
      rw [effectiveAddress_of_lockAddress rfl] at haddr
      exact toOption_eq_some haddr
  | push =>
      obtain rfl := Option.some.inj hinstr
      rw [effectiveAddress_pushM] at haddr
      obtain ⟨sp, -, heffective⟩ := Option.bind_eq_some_iff.mp haddr
      have hsame : effective (Function.update cpu.registers .sp sp) value reg1 reg2 1 =
          effective cpu.registers value reg1 reg2 1 := by
        unfold effective
        rw [Function.update_of_ne hsp1, Function.update_of_ne hsp2]
      rw [hsame] at heffective
      exact toOption_eq_some heffective

theorem Operand.Uniform.denotes {o : Operand u} (h : o.Uniform)
    (hline : assemble u vars labels (slot.line sp o.text) = some (.call i)) {cpu : Cpu}
    {addr : Value} (haddr : i.effectiveAddress cpu = some addr) :
    ∃ arg value reg1, o.arg vars = some arg ∧ arg = .memory value reg1 .zero 1 ∧
      effective cpu.registers value reg1 .zero 1 = .ok addr := by
  rw [assemble_line] at hline
  obtain ⟨i', hinstr, hcall⟩ := Option.map_eq_some_iff.mp hline
  obtain rfl := Stored.call.inj hcall
  obtain ⟨arg, hreads, hslot⟩ := Option.bind_eq_some_iff.mp (instruction_slot hinstr)
  have harg : o.arg vars = some arg := by
    cases slot with
    | movFrom | movTo | movImmediate => exact hreads
    | lea | push | xchg | fetchadd => exact (h.firstArg vars).symm.trans hreads
  obtain ⟨value, reg1, rfl, hsp⟩ := h.arg harg
  exact ⟨_, value, reg1, harg, rfl, effective_of_instr hslot haddr hsp (by decide) rfl⟩

theorem Operand.Uniform.agrees {o : Operand u} (h : o.Uniform) : Agrees vars labels o := by
  intro slot₁ sp₁ i₁ slot₂ sp₂ i₂ _ hline₁ hline₂ cpu addr₁ addr₂ haddr₁ haddr₂
  obtain ⟨arg₁, value₁, reg₁, harg₁, rfl, heff₁⟩ := h.denotes hline₁ haddr₁
  obtain ⟨arg₂, value₂, reg₂, harg₂, rfl, heff₂⟩ := h.denotes hline₂ haddr₂
  obtain ⟨rfl, rfl, -⟩ := Arg.memory.inj (Option.some.inj (harg₁.symm.trans harg₂))
  exact ⟨Except.ok.inj (heff₁.symm.trans heff₂), value₁, reg₁, .zero, 1, harg₁, heff₁⟩

/-! ## Disagreement -/

def Spacing.single : Spacing where
  lead := ⟨[], nofun⟩
  gap := ⟨[' '], List.forall_mem_singleton.mpr (by decide)⟩
  gap_ne_nil := List.cons_ne_nil _ _
  before := ⟨[], nofun⟩
  after := ⟨[' '], List.forall_mem_singleton.mpr (by decide)⟩
  tail := ⟨[], nofun⟩

section

variable {n : Option (Numeral × Blank)} {reg1 : Field} {index : Index}

theorem assemble_movFrom (sp : Spacing) (dst : Reg) :
    assemble u vars labels ((Slot.movFrom dst).line sp (Operand.parens (u := u) n reg1 index).text) =
      some (.call (.moveMToR (leadingValue n) reg1.reg index.reg index.scale dst)) := by
  have hinstr : instruction u vars labels
      [sp.pair (Operand.parens (u := u) n reg1 index).text (registerText dst)] .mov =
        (movArgs u vars
          [sp.pair (Operand.parens (u := u) n reg1 index).text (registerText dst)]).bind
            fun args => mov args.1 args.2 := rfl
  rw [assemble_line]
  show (instruction u vars labels [sp.pair _ (registerText dst)] .mov).map _ = _
  rw [hinstr, movArgs_from]
  rfl

theorem assemble_push (sp : Spacing) :
    assemble u vars labels (Slot.push.line sp (Operand.parens (u := u) n reg1 index).text) =
      some (.call (.pushM (leadingValue n) reg1.reg .zero 1)) := by
  have hinstr : instruction u vars labels
      [(Operand.parens (u := u) n reg1 index).text ++ sp.tail] .push =
        (oneArg u vars [(Operand.parens (u := u) n reg1 index).text ++ sp.tail]).bind
          Loader.push := rfl
  rw [assemble_line]
  show (instruction u vars labels [_ ++ sp.tail.1] .push).map _ = _
  rw [hinstr, oneArg_push]
  rfl

/-- The addresses of `mov` and `push` where the registers hold numbers. -/
theorem addresses_of_agrees (h : Agrees vars labels (Operand.parens (u := u) n reg1 index))
    (registers : Reg → ℤ) :
    leadingValue n + registers reg1.reg + index.scale * registers index.reg =
      leadingValue n + Function.update registers .sp (registers .sp - 4) reg1.reg +
        1 * Function.update registers .sp (registers .sp - 4) .zero := by
  have hupdate : Function.update (fun r => Value.int (registers r)) .sp
      (Value.int (registers .sp - 4)) =
        fun r => Value.int (Function.update registers .sp (registers .sp - 4) r) := by
    funext r
    obtain rfl | hne := eq_or_ne r .sp
    · simp
    · simp [Function.update_of_ne hne]
  have haddr₁ : (Instr.moveMToR (leadingValue n) reg1.reg index.reg index.scale .ax).effectiveAddress
      ⟨.int 0, fun r => .int (registers r), fun _ => false⟩ =
        some (.int (leadingValue n + registers reg1.reg + index.scale * registers index.reg)) := rfl
  have haddr₂ : (Instr.pushM (leadingValue n) reg1.reg .zero 1).effectiveAddress
      ⟨.int 0, fun r => .int (registers r), fun _ => false⟩ =
        some (.int (leadingValue n + Function.update registers .sp (registers .sp - 4) reg1.reg +
          1 * Function.update registers .sp (registers .sp - 4) .zero)) := by
    rw [effectiveAddress_pushM]
    show (effective (Function.update _ .sp (.int (registers .sp - 4))) _ _ _ _).toOption = _
    rw [hupdate]
    rfl
  obtain ⟨heq, -⟩ := h (.movFrom .ax) .single _ .push .single _ (by decide)
    (assemble_movFrom .single .ax) (assemble_push .single) _ _ _ haddr₁ haddr₂
  exact Value.int.inj heq

end

theorem Agrees.uniform {o : Operand u} (h : Agrees vars labels o) : o.Uniform := by
  cases o with
  | number n => trivial
  | var name => trivial
  | parens n reg1 index =>
      have hsp : reg1.reg ≠ .sp := by
        intro hsp
        have hzero := addresses_of_agrees h fun _ => 0
        rw [hsp] at hzero
        simp at hzero
      have hone := addresses_of_agrees h fun r => if r = .zero then 1 else 0
      rw [Function.update_of_ne hsp, Function.update_of_ne (by decide)] at hone
      have hindex : index.scale * (if index.reg = .zero then 1 else 0) = 1 := by
        simpa using hone
      split at hindex
      case isTrue hzero => exact ⟨hsp, hzero, by simpa using hindex⟩
      case isFalse => simp at hindex

/-- The instructions agree on an operand without a base at the stack pointer and without an
index, and on no other. -/
theorem agrees_iff (u : Unicode) (vars labels : Text → Option ℤ) (o : Operand u) :
    Agrees vars labels o ↔ o.Uniform :=
  ⟨Agrees.uniform, Operand.Uniform.agrees⟩

/-- `10(%ax,%bx)` -/
def indexedOperand : Operand .ascii :=
  .parens (some (⟨false, ['1', '0'], List.cons_ne_nil _ _, List.all_eq_true.mp (by decide)⟩,
    ⟨[], nofun⟩)) ⟨⟨[], nofun⟩, .ax, ⟨[], nofun⟩⟩ (.register ⟨⟨[], nofun⟩, .bx, ⟨[], nofun⟩⟩)

/-- `mov` uses both registers, `push` only the first. -/
theorem not_agrees : indexedOperand.text = "10(%ax,%bx)".toList ∧
    ¬ Agrees (fun _ => none) (fun _ => none) indexedOperand := by
  refine ⟨by decide, fun h => ?_⟩
  obtain ⟨-, hzero, -⟩ := h.uniform
  cases hzero

end Loader

end OsLabs.X86
