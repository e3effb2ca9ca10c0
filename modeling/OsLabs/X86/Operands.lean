import OsLabs.X86.Loader

/-!
# Memory operands

The texts of memory operands, and what `getarg` makes of them with and without the marks that
`mov` puts in the place of commas.
-/

namespace OsLabs.X86.Loader

open OsLabs.PyText

variable {u : Unicode}

/-! ## The grammar -/

/-- A number as it is written. -/
structure Numeral where
  minus : Bool
  digits : Text
  ne_nil : digits ≠ []
  isDigit : ∀ c ∈ digits, c.isDigit = true

def Numeral.text (n : Numeral) : Text := if n.minus then '-' :: n.digits else n.digits

def Numeral.value (n : Numeral) : ℤ :=
  if n.minus then -(digitsValue n.digits : ℤ) else digitsValue n.digits

abbrev Blank := { text : Text // IsBlank text }

def regname (r : Reg) : Text := ((regnames.find? (·.2 = r)).map Prod.fst).getD []

/-- A register between white space. -/
structure Field where
  before : Blank
  reg : Reg
  after : Blank

def Field.text (f : Field) : Text := f.before ++ '%' :: (regname f.reg ++ f.after)

/-- What follows the first register. -/
inductive Index
  | none
  | register (reg2 : Field)
  | scaled (reg2 : Field) (before : Blank) (scale : Numeral) (after : Blank)

def Index.pieces : Index → List Text
  | .none => []
  | .register reg2 => [reg2.text]
  | .scaled reg2 before scale after => [reg2.text, before ++ (scale.text ++ after)]

/-- Without an index, there is the register `zero`. -/
def Index.reg : Index → Reg
  | .none => .zero
  | .register reg2 | .scaled reg2 _ _ _ => reg2.reg

def Index.scale : Index → ℤ
  | .none | .register _ => 1
  | .scaled _ _ scale _ => scale.value

/-- The name of a variable. -/
structure Name (u : Unicode) where
  head : Char
  tail : Text
  isalpha : u.isalpha head = true
  isdigit : u.isdigit head = false
  isspace : ∀ c ∈ head :: tail, isspace c = false
  plain : ∀ c ∈ head :: tail, c ≠ ',' ∧ c ≠ '(' ∧ c ≠ ')'

inductive Operand (u : Unicode)
  | number (n : Numeral)
  | parens (n : Option (Numeral × Blank)) (reg1 : Field) (index : Index)
  | var (name : Name u)

/-- The number before the parentheses. -/
def leading : Option (Numeral × Blank) → Text
  | none => []
  | some (n, gap) => n.text ++ gap

def leadingValue : Option (Numeral × Blank) → ℤ
  | none => 0
  | some (n, _) => n.value

/-- The text of an operand, with `sep` between what is in the parentheses. -/
def Operand.textWith (sep : Text) : Operand u → Text
  | .number n => n.text
  | .parens n reg1 index =>
      leading n ++ '(' :: (sep.intercalate (reg1.text :: index.pieces) ++ [')'])
  | .var name => name.head :: name.tail

def Operand.text (o : Operand u) : Text := o.textWith [',']

/-- What the operand stands for. -/
def Operand.arg (vars : Text → Option ℤ) : Operand u → Option Arg
  | .number n => some (.memory n.value .zero .zero 1)
  | .parens n reg1 index => some (.memory (leadingValue n) reg1.reg index.reg index.scale)
  | .var name => (vars (name.head :: name.tail)).map (.memory · .zero .zero 1)

/-- What is left of it when only the first register is read. -/
def Operand.firstArg (vars : Text → Option ℤ) : Operand u → Option Arg
  | .parens n reg1 _ => some (.memory (leadingValue n) reg1.reg .zero 1)
  | o => o.arg vars

/-! ## Characters -/

variable {vars : Text → Option ℤ} {c : Char} {text rest b b' : Text}

/-- The characters in parentheses, apart from commas. -/
def isField (c : Char) : Bool := isspace c || c = '%' || c = '-' || c.isAlphanum

theorem not_mem_of_isField (h : ∀ c ∈ text, isField c = true) (hc : isField c = false) :
    c ∉ text := fun hmem => by
  rw [h c hmem] at hc
  cases hc

theorem isField_of_isDigit (h : c.isDigit = true) : isField c = true := by
  simp [isField, Char.isAlphanum, h]

theorem isField_blank (hb : IsBlank b) : ∀ c ∈ b, isField c = true := fun c hc => by
  simp [isField, hb c hc]

theorem Numeral.isField (n : Numeral) : ∀ c ∈ n.text, isField c = true := by
  have hdigits : ∀ c ∈ n.digits, Loader.isField c = true := fun c hc =>
    isField_of_isDigit (n.isDigit c hc)
  unfold Numeral.text
  split
  · exact List.forall_mem_cons.mpr ⟨by decide, hdigits⟩
  · exact hdigits

theorem isField_regname (r : Reg) : ∀ c ∈ regname r, isField c = true :=
  List.all_eq_true.mp (by cases r <;> decide)

theorem Field.isField (f : Field) : ∀ c ∈ f.text, isField c = true := by
  unfold Field.text
  simp only [List.forall_mem_append, List.forall_mem_cons]
  exact ⟨isField_blank f.before.2, by decide, isField_regname f.reg, isField_blank f.after.2⟩

theorem Index.isField (index : Index) : ∀ piece ∈ index.pieces, ∀ c ∈ piece, isField c = true := by
  cases index with
  | none => exact nofun
  | register reg2 => exact List.forall_mem_singleton.mpr reg2.isField
  | scaled reg2 before scale after =>
      refine List.forall_mem_cons.mpr ⟨reg2.isField, List.forall_mem_singleton.mpr ?_⟩
      simp only [List.forall_mem_append]
      exact ⟨isField_blank before.2, scale.isField, isField_blank after.2⟩

/-! ## What `getarg` does first -/

/-- The text has nothing that is replaced or removed. -/
def Plain (text : Text) : Prop := ∀ c ∈ text, c ≠ ',' ∧ c ≠ ' ' ∧ c ≠ '\t'

theorem plain_of_isAlphanum (h : ∀ c ∈ text, c.isAlphanum = true) : Plain text := fun c hc => by
  have halnum := h c hc
  refine ⟨?_, ?_, ?_⟩ <;> rintro rfl <;> cases halnum

theorem despace_append_cons (hcomma : c ≠ ',') (hspace : c ≠ ' ') (htab : c ≠ '\t')
    (text rest : Text) : despace (text ++ c :: rest) = despace text ++ c :: despace rest := by
  unfold despace replaceChar
  rw [List.map_append, List.map_cons, if_neg hcomma, remove_pair_append hspace htab]

theorem despace_append (h : Plain text) (rest : Text) :
    despace (text ++ rest) = text ++ despace rest := by
  have hmap : replaceChar ',' ' ' text = text :=
    (List.map_congr_left fun c hc => if_neg (h c hc).1).trans (List.map_id text)
  unfold despace
  rw [replaceChar, List.map_append, ← replaceChar, ← replaceChar, hmap,
    remove_append fun hmem => (h ' ' hmem).2.1 rfl]

theorem despace_plain (h : Plain text) : despace text = text := by
  simpa [despace, replaceChar, remove, splitText] using despace_append h []

theorem despace_between (hne : text ≠ []) (h : Plain text) (b b' : Text) :
    despace (b ++ (text ++ b')) = despace b ++ (text ++ despace b') := by
  obtain ⟨c, cs, rfl⟩ := List.exists_cons_of_ne_nil hne
  obtain ⟨⟨hcomma, hspace, htab⟩, hplain⟩ := List.forall_mem_cons.mp h
  rw [List.cons_append, despace_append_cons hcomma hspace htab, despace_append hplain,
    List.cons_append]

theorem mem_of_mem_despace (h : c ∈ despace text) (hc : c ≠ ' ') : c ∈ text := by
  obtain ⟨d, hd, heq⟩ := List.mem_map.mp (mem_of_mem_remove h)
  split at heq
  · exact absurd heq.symm hc
  · exact heq ▸ hd

theorem isBlank_despace (h : ∀ c ∈ text, isspace c = true ∨ c = ',') : IsBlank (despace text) := by
  intro c hc
  obtain ⟨d, hd, rfl⟩ := List.mem_map.mp (mem_of_mem_remove hc)
  split
  · decide
  · exact (h d hd).resolve_right ‹_›

/-! ## Registers -/

theorem registerTranslate_regname (r : Reg) : registerTranslate (regname r) = some r := by
  cases r <;> decide

theorem regname_ne_nil (r : Reg) : regname r ≠ [] := by
  cases r <;> decide

theorem isAlphanum_regname (r : Reg) : ∀ c ∈ regname r, c.isAlphanum = true :=
  List.all_eq_true.mp (by cases r <;> decide)

theorem regname_of_registerTranslate {r : Reg} (h : registerTranslate text = some r) :
    text = regname r := by
  obtain ⟨before, after, hnames, -⟩ := List.lookup_eq_some_iff.mp h
  have hmem : (text, r) ∈ regnames := hnames ▸ List.mem_append_right _ List.mem_cons_self
  have hall : ∀ entry ∈ regnames, entry.1 = regname entry.2 := by decide
  exact hall _ hmem

theorem isspace_regname (r : Reg) : ∀ c ∈ regname r, isspace c = false := fun c hc =>
  isspace_of_isAlphanum (isAlphanum_regname r c hc)

theorem percent_not_mem_regname (r : Reg) : '%' ∉ regname r := fun hmem =>
  Bool.noConfusion (isAlphanum_regname r '%' hmem)

theorem exists_rstrip_cons (h : isspace c = false) (text : Text) :
    ∃ cs, rstrip (c :: text) = c :: cs := by
  cases hstrip : rstrip (c :: text) with
  | nil =>
      have hall := List.rdropWhile_eq_nil_iff.mp hstrip c List.mem_cons_self
      rw [h] at hall
      cases hall
  | cons d ds =>
      have hprefix : rstrip (c :: text) <+: c :: text := List.rdropWhile_prefix isspace _
      rw [hstrip] at hprefix
      obtain ⟨rfl, -⟩ := List.cons_prefix_cons.mp hprefix
      exact ⟨ds, rfl⟩

/-- The first register of a text is read, up to the sign of the next one. -/
theorem register_append (hb : IsBlank b) (r : Reg) (hb' : IsBlank b')
    (hrest : rest = [] ∨ ∃ more, rest = '%' :: more) :
    register (b ++ '%' :: (regname r ++ (b' ++ rest))) = some r := by
  have hpercent : '%' ∉ b := fun hmem => Bool.noConfusion (hb '%' hmem)
  have hpercent' : '%' ∉ b' := fun hmem => Bool.noConfusion (hb' _ hmem)
  obtain ⟨cs, hrstrip⟩ := exists_rstrip_cons (c := '%') (by decide) (regname r ++ (b' ++ rest))
  have hstrip : strip (b ++ '%' :: (regname r ++ (b' ++ rest))) = '%' :: cs := by
    unfold strip lstrip
    rw [dropWhile_blank hb (by rintro c ⟨⟩; decide), hrstrip]
  have hname : strip (regname r ++ b') = regname r := by
    have hsolid := solid_of_forall (regname_ne_nil r) (isspace_regname r)
    simpa using strip_append (b := []) nofun hsolid hb'
  have hsecond : (b ++ '%' :: (regname r ++ (b' ++ rest))).splitOn '%' =
      b :: (regname r ++ (b' ++ rest)).splitOn '%' :=
    List.splitOn_append_cons_self_of_not_mem hpercent _
  have hnot : '%' ∉ regname r ++ b' := by
    rw [List.mem_append, not_or]
    exact ⟨percent_not_mem_regname r, hpercent'⟩
  have hfirst : ∃ pieces, (regname r ++ (b' ++ rest)).splitOn '%' = (regname r ++ b') :: pieces := by
    rw [← List.append_assoc]
    obtain rfl | ⟨more, rfl⟩ := hrest
    · exact ⟨[], by rw [List.append_nil, List.splitOn_eq_singleton hnot]⟩
    · exact ⟨_, List.splitOn_append_cons_self_of_not_mem hnot more⟩
  obtain ⟨pieces, hpieces⟩ := hfirst
  unfold register getregname
  rw [hstrip]
  simp only [hsecond, hpieces, List.getElem?_cons_succ, List.getElem?_cons_zero, Option.map_some,
    hname, if_true, Option.bind_some, registerTranslate_regname]

/-! ## What stands in the parentheses -/

theorem isBlank_despace_blank (hb : IsBlank b) : IsBlank (despace b) :=
  isBlank_despace fun c hc => .inl (hb c hc)

theorem plain_regname (r : Reg) : Plain (regname r) := plain_of_isAlphanum (isAlphanum_regname r)

theorem despace_field (f : Field) : despace f.text =
    despace f.before ++ '%' :: (regname f.reg ++ despace f.after) := by
  unfold Field.text
  rw [despace_append_cons (by decide) (by decide) (by decide), despace_append (plain_regname f.reg)]

theorem register_field (f : Field) : register (despace f.text) = some f.reg := by
  rw [despace_field]
  simpa using register_append (isBlank_despace_blank f.before.2) f.reg
    (isBlank_despace_blank f.after.2) (.inl rfl)

theorem Numeral.plain_digits (n : Numeral) : Plain n.digits :=
  plain_of_isAlphanum fun c hc => by simp [Char.isAlphanum, n.isDigit c hc]

theorem Numeral.plain (n : Numeral) : Plain n.text := by
  unfold Numeral.text
  split
  · exact List.forall_mem_cons.mpr ⟨by decide, n.plain_digits⟩
  · exact n.plain_digits

theorem Numeral.text_ne_nil (n : Numeral) : n.text ≠ [] := by
  unfold Numeral.text
  split
  · exact List.cons_ne_nil _ _
  · exact n.ne_nil

theorem int_numeral (u : Unicode) (n : Numeral) (hb : IsBlank b) (hb' : IsBlank b') :
    int u (b ++ (n.text ++ b')) = some n.value := by
  unfold Numeral.text Numeral.value
  split
  · exact int_of_minus u hb hb' n.ne_nil n.isDigit
  · exact int_of_digits u hb hb' n.ne_nil n.isDigit

theorem int_scale (u : Unicode) (before : Blank) (scale : Numeral) (after : Blank) :
    int u (despace (before ++ (scale.text ++ after))) = some scale.value := by
  rw [despace_between scale.text_ne_nil scale.plain]
  exact int_numeral u scale (isBlank_despace_blank before.2) (isBlank_despace_blank after.2)

theorem plain_breakMark : Plain breakMark := by
  simp [Plain, breakMark]

theorem breakMark_ne_nil : breakMark ≠ [] := List.cons_ne_nil _ _

theorem despace_intercalate (pieces : List Text) :
    despace (breakMark.intercalate pieces) = breakMark.intercalate (pieces.map despace) := by
  induction pieces with
  | nil => rfl
  | cons piece pieces ih =>
      cases pieces with
      | nil => simp
      | cons piece' pieces =>
          rw [List.intercalate_cons_cons, List.append_assoc,
            despace_between breakMark_ne_nil plain_breakMark, ih]
          simp only [List.map_cons, List.intercalate_cons_cons, List.append_assoc]

theorem isField_pieces (reg1 : Field) (index : Index) :
    ∀ piece ∈ reg1.text :: index.pieces, ∀ c ∈ piece, isField c = true :=
  List.forall_mem_cons.mpr ⟨reg1.isField, index.isField⟩

theorem underscore_not_mem_despace (h : ∀ c ∈ text, isField c = true) : '_' ∉ despace text :=
  fun hmem => not_mem_of_isField h (by decide) (mem_of_mem_despace hmem (by decide))

/-- With the marks, all the fields are read. -/
theorem fields_marked (u : Unicode) (value : ℤ) (reg1 : Field) (index : Index) :
    fields u value (splitText breakMark 0
      (despace (breakMark.intercalate (reg1.text :: index.pieces)))) =
        some (.memory value reg1.reg index.reg index.scale) := by
  have hscore : ∀ piece ∈ (reg1.text :: index.pieces).map despace, '_' ∉ piece := by
    intro piece hpiece
    obtain ⟨raw, hraw, rfl⟩ := List.mem_map.mp hpiece
    exact underscore_not_mem_despace (isField_pieces reg1 index raw hraw)
  have hsplit : splitText breakMark 0
      (breakMark.intercalate ((reg1.text :: index.pieces).map despace)) =
        (reg1.text :: index.pieces).map despace :=
    splitText_intercalate hscore (List.cons_ne_nil _ _)
  rw [despace_intercalate, hsplit]
  cases index with
  | none => simp [Index.pieces, fields, register_field, Index.reg, Index.scale]
  | register reg2 => simp [Index.pieces, fields, register_field, Index.reg, Index.scale]
  | scaled reg2 before scale after =>
      simp [Index.pieces, fields, register_field, Index.reg, Index.scale, int_scale]

theorem underscore_not_mem_body (reg1 : Field) (index : Index) :
    '_' ∉ despace ([','].intercalate (reg1.text :: index.pieces)) := fun hmem => by
  obtain hcomma | ⟨piece, hpiece, hmem⟩ :=
    mem_of_mem_intercalate (mem_of_mem_despace hmem (by decide))
  · exact absurd (List.mem_singleton.mp hcomma) (by decide)
  · exact not_mem_of_isField (isField_pieces reg1 index piece hpiece) (by decide) hmem

theorem percent_not_mem_blank (hb : IsBlank b) : '%' ∉ b := fun hmem =>
  Bool.noConfusion (hb '%' hmem)

theorem percent_not_mem_numeral (n : Numeral) : '%' ∉ n.text := by
  have hdigits : '%' ∉ n.digits := fun hmem => Bool.noConfusion (n.isDigit '%' hmem)
  unfold Numeral.text
  split
  · rw [List.mem_cons, not_or]
    exact ⟨by decide, hdigits⟩
  · exact hdigits

/-- With an index, a second register stands behind the first comma. -/
theorem body_cases (reg1 : Field) (index : Index) : index.pieces = [] ∨
    ∃ before tail, IsBlank before ∧ '%' ∉ tail ∧
      [','].intercalate (reg1.text :: index.pieces) = reg1.text ++ ',' :: (before ++ '%' :: tail) := by
  cases index with
  | none => exact .inl rfl
  | register reg2 =>
      refine .inr ⟨reg2.before, regname reg2.reg ++ reg2.after, reg2.before.2, ?_, ?_⟩
      · rw [List.mem_append, not_or]
        exact ⟨percent_not_mem_regname reg2.reg, percent_not_mem_blank reg2.after.2⟩
      · simp [Index.pieces, List.intercalate_cons_cons, Field.text]
  | scaled reg2 before scale after =>
      refine .inr ⟨reg2.before, regname reg2.reg ++ (reg2.after ++
        ',' :: (before ++ (scale.text ++ after))), reg2.before.2, ?_, ?_⟩
      · simp only [List.mem_append, List.mem_cons, not_or]
        exact ⟨percent_not_mem_regname reg2.reg, percent_not_mem_blank reg2.after.2, by decide,
          percent_not_mem_blank before.2, percent_not_mem_numeral scale,
          percent_not_mem_blank after.2⟩
      · simp [Index.pieces, List.intercalate_cons_cons, Field.text]

/-- Without the marks there is one field, and of this the first register is read. -/
theorem register_body (reg1 : Field) (index : Index) :
    register (despace ([','].intercalate (reg1.text :: index.pieces))) = some reg1.reg := by
  obtain hnone | ⟨before, tail, hbefore, -, htext⟩ := body_cases reg1 index
  · rw [hnone, List.intercalate_singleton, register_field]
  · have hgap : IsBlank (despace (reg1.after ++ ',' :: before)) := by
      refine isBlank_despace fun c hc => ?_
      obtain hc | hc := List.mem_append.mp hc
      · exact .inl (reg1.after.2 c hc)
      · obtain rfl | hc := List.mem_cons.mp hc
        · exact .inr rfl
        · exact .inl (hbefore c hc)
    have hregroup : reg1.text ++ ',' :: (before ++ '%' :: tail) =
        reg1.before ++ '%' :: (regname reg1.reg ++ ((reg1.after ++ ',' :: before) ++ '%' :: tail)) := by
      simp [Field.text]
    rw [htext, hregroup, despace_append_cons (by decide) (by decide) (by decide),
      despace_append (plain_regname reg1.reg),
      despace_append_cons (by decide) (by decide) (by decide)]
    exact register_append (isBlank_despace_blank reg1.before.2) reg1.reg hgap (.inr ⟨_, rfl⟩)

theorem fields_first (u : Unicode) (value : ℤ) (reg1 : Field) (index : Index) :
    fields u value (splitText breakMark 0
      (despace ([','].intercalate (reg1.text :: index.pieces)))) =
        some (.memory value reg1.reg .zero 1) := by
  have hsplit : splitText ('_' :: breakMark.tail) 0 _ = [_] :=
    splitText_of_not_mem (underscore_not_mem_body reg1 index)
  have hmark : breakMark = '_' :: breakMark.tail := rfl
  rw [hmark, hsplit]
  simp [fields, register_body]

/-! ## The cases of `getarg` -/

section Cases

variable {cs arg : Text}

theorem ascii_isalpha (u : Unicode) (hc : c.toNat < 128) (h : c.isAlpha = false) :
    u.isalpha c = false := (u.isalpha_ascii c hc).trans h

theorem getarg_register (h : despace arg = '%' :: cs) :
    getarg u vars arg = (registerTranslate (cs.takeWhile (· ≠ '%'))).map .register := by
  unfold getarg
  rw [h]
  rfl

theorem getarg_variable (h : despace arg = c :: cs) (halpha : u.isalpha c = true)
    (hdigit : u.isdigit c = false) :
    getarg u vars arg = (vars (c :: cs)).map (.memory · .zero .zero 1) := by
  have hne (d : Char) (hd : d.toNat < 128) (hdalpha : d.isAlpha = false) : c ≠ d := by
    rintro rfl
    rw [ascii_isalpha u hd hdalpha] at halpha
    cases halpha
  unfold getarg
  rw [h]
  simp only [hne '$' (by decide) (by decide), hne '%' (by decide) (by decide),
    hne '.' (by decide) (by decide), halpha, hdigit, if_false]
  cases vars (c :: cs) <;> rfl

theorem getarg_paren (h : despace arg = '(' :: cs) :
    getarg u vars arg = general u 1 ('(' :: cs) := by
  unfold getarg
  rw [h]
  simp [ascii_isalpha u (c := '(') (by decide) (by decide)]

def Numeral.sign (n : Numeral) : ℤ := if n.minus then -1 else 1

theorem Numeral.sign_mul (n : Numeral) : n.sign * digitsValue n.digits = n.value := by
  unfold Numeral.sign Numeral.value
  split
  · exact neg_one_mul _
  · exact one_mul _

theorem getarg_minus (h : despace arg = '-' :: cs) : getarg u vars arg = general u (-1) cs := by
  unfold getarg
  rw [h]
  simp [ascii_isalpha u (c := '-') (by decide) (by decide)]

theorem getarg_digit (h : despace arg = c :: cs) (hc : c.isDigit = true) :
    getarg u vars arg = general u 1 (c :: cs) := by
  have hbounds := isAlphanum_bounds (c := c) (by simp [Char.isAlphanum, hc])
  have hdigit : u.isdigit c = true := (u.isdigit_ascii c (by omega)).trans hc
  have hne (d : Char) (hd : d.isDigit = false) : c ≠ d := by
    rintro rfl
    rw [hd] at hc
    cases hc
  unfold getarg
  rw [h]
  simp [hne '$' rfl, hne '%' rfl, hne '.' rfl, hne '-' rfl, hdigit]

theorem getarg_numeral {n : Numeral} (h : despace arg = n.text ++ rest) :
    getarg u vars arg = general u n.sign (n.digits ++ rest) := by
  unfold Numeral.text at h
  unfold Numeral.sign
  split
  case isTrue hminus =>
    rw [if_pos hminus] at h
    exact getarg_minus h
  case isFalse hminus =>
    rw [if_neg hminus] at h
    obtain ⟨d, ds, hdigits⟩ := List.exists_cons_of_ne_nil n.ne_nil
    rw [hdigits] at h ⊢
    exact getarg_digit h (n.isDigit d (hdigits ▸ List.mem_cons_self))

end Cases

/-! ## The most general case -/

variable {body : Text}

theorem takeWhile_close (h : ')' ∉ body) : (body ++ [')']).takeWhile (· ≠ ')') = body := by
  have hne : ∀ c ∈ body, decide (c ≠ ')') = true := fun c hc =>
    decide_eq_true fun heq => h (heq ▸ hc)
  rw [List.takeWhile_append_of_pos hne, List.takeWhile_cons_of_neg (by simp), List.append_nil]

theorem splitOn_open (hb : '(' ∉ b) (hbody : '(' ∉ body) :
    (b ++ '(' :: (body ++ [')'])).splitOn '(' = [b, body ++ [')']] := by
  have hrest : '(' ∉ body ++ [')'] := by
    rw [List.mem_append, not_or]
    exact ⟨hbody, by decide⟩
  rw [List.splitOn_append_cons_self_of_not_mem hb, List.splitOn_eq_singleton hrest]

theorem general_paren (u : Unicode) (neg : ℤ) (hopen : '(' ∉ body) (hclose : ')' ∉ body) :
    general u neg ('(' :: (body ++ [')'])) = fields u 0 (splitText breakMark 0 body) := by
  have hsplit : ('(' :: (body ++ [')'])).splitOn '(' = [[], body ++ [')']] :=
    splitOn_open (b := []) nofun hopen
  unfold general
  rw [hsplit]
  simp only [List.head?_cons, if_true, takeWhile_close hclose]
  rfl

theorem general_fields (u : Unicode) (neg : ℤ) (n : Numeral) (hb : IsBlank b) (hopen : '(' ∉ body)
    (hclose : ')' ∉ body) : general u neg (n.digits ++ (b ++ '(' :: (body ++ [')']))) =
      fields u (neg * digitsValue n.digits) (splitText breakMark 0 body) := by
  have hsolid : Solid n.digits :=
    solid_of_forall n.ne_nil fun c hc => isspace_of_isDigit (n.isDigit c hc)
  have hbefore : '(' ∉ n.digits ++ b := by
    rw [List.mem_append, not_or]
    exact ⟨fun hmem => Bool.noConfusion (n.isDigit '(' hmem),
      fun hmem => Bool.noConfusion (hb '(' hmem)⟩
  have hsplit := splitOn_open hbefore hopen
  have hhead : (n.digits ++ (b ++ '(' :: (body ++ [')']))).head? ≠ some '(' := by
    rw [List.head?_append_of_ne_nil _ n.ne_nil]
    exact fun h => Bool.noConfusion (n.isDigit '(' (List.mem_of_mem_head? h))
  have hstrip : strip (n.digits ++ b) = n.digits := by
    simpa using strip_append (b := []) nofun hsolid hb
  have hint : int u (n.digits ++ b) = some (digitsValue n.digits : ℤ) :=
    int_of_digits u (b := []) nofun hb n.ne_nil n.isDigit
  rw [List.append_assoc] at hsplit
  unfold general
  rw [hsplit]
  simp only [if_neg hhead, number, hstrip, isdigit_of_digits u n.ne_nil n.isDigit, if_true, hint,
    takeWhile_close hclose]
  rfl

theorem general_number (u : Unicode) (neg : ℤ) (n : Numeral) :
    general u neg n.digits = some (.memory (neg * digitsValue n.digits) .zero .zero 1) := by
  have hopen : '(' ∉ n.digits := fun hmem => Bool.noConfusion (n.isDigit '(' hmem)
  have hint : int u n.digits = some (digitsValue n.digits : ℤ) := by
    simpa using int_of_digits u isBlank_nil isBlank_nil n.ne_nil n.isDigit
  unfold general
  rw [List.splitOn_eq_singleton hopen]
  simp only [hint]
  rfl

/-! ## What `getarg` makes of an operand -/

theorem getarg_parens {n : Option (Numeral × Blank)} (hopen : '(' ∉ despace body)
    (hclose : ')' ∉ despace body) :
    getarg u vars (leading n ++ '(' :: (body ++ [')'])) =
      fields u (leadingValue n) (splitText breakMark 0 (despace body)) := by
  have hbody : despace (body ++ [')']) = despace body ++ [')'] := by
    rw [despace_append_cons (by decide) (by decide) (by decide)]
    rfl
  have harg : despace (leading n ++ '(' :: (body ++ [')'])) =
      despace (leading n) ++ '(' :: (despace body ++ [')']) := by
    rw [despace_append_cons (by decide) (by decide) (by decide), hbody]
  cases n with
  | none => exact (getarg_paren harg).trans (general_paren u 1 hopen hclose)
  | some n =>
      obtain ⟨n, gap⟩ := n
      have hleading : despace (leading (some (n, gap))) = n.text ++ despace gap :=
        despace_append n.plain gap
      rw [hleading, List.append_assoc] at harg
      rw [getarg_numeral harg, general_fields u n.sign n (isBlank_despace_blank gap.2) hopen hclose,
        n.sign_mul]
      rfl

theorem paren_not_mem_body {sep : Text} {paren : Char} (hfield : isField paren = false)
    (hsep : paren ∉ sep) (hspace : paren ≠ ' ') (reg1 : Field) (index : Index) :
    paren ∉ despace (sep.intercalate (reg1.text :: index.pieces)) := fun hmem => by
  obtain hmem | ⟨piece, hpiece, hmem⟩ := mem_of_mem_intercalate (mem_of_mem_despace hmem hspace)
  · exact hsep hmem
  · exact not_mem_of_isField (isField_pieces reg1 index piece hpiece) hfield hmem

theorem getarg_number (u : Unicode) (vars : Text → Option ℤ) (n : Numeral) :
    getarg u vars n.text = some (.memory n.value .zero .zero 1) := by
  have harg : despace n.text = n.text ++ [] := by rw [despace_plain n.plain, List.append_nil]
  rw [getarg_numeral harg, List.append_nil, general_number, n.sign_mul]

theorem getarg_name (vars : Text → Option ℤ) (name : Name u) :
    getarg u vars (name.head :: name.tail) =
      (vars (name.head :: name.tail)).map (.memory · .zero .zero 1) := by
  refine getarg_variable (despace_plain fun c hc => ?_) name.isalpha name.isdigit
  have hspace := name.isspace c hc
  refine ⟨(name.plain c hc).1, ?_, ?_⟩ <;> rintro rfl <;> cases hspace

/-- With marks for the commas, an operand is read as what it stands for. -/
theorem getarg_marked (vars : Text → Option ℤ) (o : Operand u) :
    getarg u vars (o.textWith breakMark) = o.arg vars := by
  cases o with
  | number n => exact getarg_number u vars n
  | var name => exact getarg_name vars name
  | parens n reg1 index =>
      have hparen {paren : Char} (hfield : isField paren = false) (hmark : paren ∉ breakMark)
          (hspace : paren ≠ ' ') := paren_not_mem_body hfield hmark hspace reg1 index
      exact (getarg_parens (hparen (by decide) (by decide) (by decide))
        (hparen (by decide) (by decide) (by decide))).trans (fields_marked u _ reg1 index)

/-- Without them, only the first register is read. -/
theorem getarg_text (vars : Text → Option ℤ) (o : Operand u) :
    getarg u vars o.text = o.firstArg vars := by
  cases o with
  | number n => exact getarg_number u vars n
  | var name => exact getarg_name vars name
  | parens n reg1 index =>
      have hparen {paren : Char} (hfield : isField paren = false) (hmark : paren ∉ [','])
          (hspace : paren ≠ ' ') := paren_not_mem_body hfield hmark hspace reg1 index
      exact (getarg_parens (hparen (by decide) (by decide) (by decide))
        (hparen (by decide) (by decide) (by decide))).trans (fields_first u _ reg1 index)

/-! ## The shape of an operand -/

theorem Numeral.isspace (n : Numeral) : ∀ c ∈ n.text, isspace c = false := by
  have hdigits : ∀ c ∈ n.digits, PyText.isspace c = false := fun c hc =>
    isspace_of_isDigit (n.isDigit c hc)
  unfold Numeral.text
  split
  · exact List.forall_mem_cons.mpr ⟨by decide, hdigits⟩
  · exact hdigits

theorem solid_textWith (sep : Text) (o : Operand u) : Solid (o.textWith sep) := by
  cases o with
  | number n => exact solid_of_forall n.text_ne_nil n.isspace
  | var name => exact solid_of_forall (List.cons_ne_nil _ _) name.isspace
  | parens n reg1 index =>
      refine ⟨by simp [Operand.textWith], fun c hc => ?_, fun c hc => ?_⟩
      · cases n with
        | none =>
            obtain rfl := Option.some.inj hc
            decide
        | some n =>
            have hne : leading (some n) ≠ [] := fun h =>
              n.1.text_ne_nil (List.append_eq_nil_iff.mp h).1
            rw [Operand.textWith, List.head?_append_of_ne_nil _ hne, leading,
              List.head?_append_of_ne_nil _ n.1.text_ne_nil] at hc
            exact n.1.isspace c (List.mem_of_mem_head? hc)
      · have hlast : (Operand.textWith sep (.parens (u := u) n reg1 index)).getLast? = some ')' := by
          rw [Operand.textWith, ← List.cons_append, ← List.append_assoc, List.getLast?_concat]
        obtain rfl := Option.some.inj (hlast.symm.trans hc)
        decide

theorem solid_text (o : Operand u) : Solid o.text := solid_textWith [','] o

theorem Numeral.not_mem (n : Numeral) (hc : Loader.isField c = false) : c ∉ n.text :=
  not_mem_of_isField n.isField hc

theorem leading_not_mem (n : Option (Numeral × Blank)) (hc : isField c = false) :
    c ∉ leading n := by
  cases n with
  | none => exact List.not_mem_nil
  | some n =>
      rw [leading, List.mem_append, not_or]
      exact ⟨n.1.not_mem hc, not_mem_of_isField (isField_blank n.2.2) hc⟩

theorem body_not_mem {sep : Text} (hc : isField c = false) (hsep : c ∉ sep) (reg1 : Field)
    (index : Index) : c ∉ sep.intercalate (reg1.text :: index.pieces) := fun hmem => by
  obtain hmem | ⟨piece, hpiece, hmem⟩ := mem_of_mem_intercalate hmem
  · exact hsep hmem
  · exact not_mem_of_isField (isField_pieces reg1 index piece hpiece) hc hmem

theorem comma_not_mem_text {n : Option (Numeral × Blank)} {reg1 : Field} :
    ',' ∉ leading n ++ '(' :: reg1.text := by
  rw [List.mem_append, List.mem_cons, not_or, not_or]
  exact ⟨leading_not_mem n (by decide), by decide, not_mem_of_isField reg1.isField (by decide)⟩

theorem comma_not_mem_marked (o : Operand u) : ',' ∉ o.textWith breakMark := by
  cases o with
  | number n => exact n.not_mem (by decide)
  | var name => exact fun hmem => (name.plain ',' hmem).1 rfl
  | parens n reg1 index =>
      have hbody : ',' ∉ breakMark.intercalate (reg1.text :: index.pieces) :=
        body_not_mem (by decide) (by decide) reg1 index
      simp only [Operand.textWith, List.mem_append, List.mem_cons, not_or]
      exact ⟨leading_not_mem n (by decide), by decide, hbody, by decide, List.not_mem_nil⟩

/-! ## The marks -/

theorem removecommas_outside (hopen : '(' ∉ text) (hclose : ')' ∉ text) (rest : Text) :
    removecommas false (text ++ rest) = (removecommas false rest).map (text ++ ·) := by
  induction text with
  | nil => simp
  | cons c cs ih =>
      rw [List.mem_cons, not_or] at hopen hclose
      rw [List.cons_append, removecommas, if_neg (Ne.symm hopen.1), if_neg (Ne.symm hclose.1),
        ih hopen.2 hclose.2, Bool.false_and, if_neg Bool.false_ne_true, Option.map_map]
      rfl

theorem removecommas_inside (h : ∀ c ∈ text, isField c = true) (rest : Text) :
    removecommas true (text ++ rest) = (removecommas true rest).map (text ++ ·) := by
  induction text with
  | nil => simp
  | cons c cs ih =>
      rw [List.forall_mem_cons] at h
      have hne (d : Char) (hd : isField d = false) : c ≠ d := by
        rintro rfl
        rw [hd] at h
        cases h.1
      rw [List.cons_append, removecommas, if_neg (hne '(' (by decide)),
        if_neg (hne ')' (by decide)), ih h.2, Bool.true_and,
        if_neg (by simpa using hne ',' (by decide)), Option.map_map]
      rfl

theorem removecommas_pieces {pieces : List Text} (h : ∀ piece ∈ pieces, ∀ c ∈ piece, isField c = true)
    (rest : Text) : removecommas true ([','].intercalate pieces ++ rest) =
      (removecommas true rest).map (breakMark.intercalate pieces ++ ·) := by
  induction pieces with
  | nil => simp
  | cons piece pieces ih =>
      rw [List.forall_mem_cons] at h
      cases pieces with
      | nil => simpa using removecommas_inside h.1 rest
      | cons piece' pieces =>
          have hcomma (rest : Text) : removecommas true (',' :: rest) =
              (removecommas true rest).map (breakMark ++ ·) := rfl
          rw [List.intercalate_cons_cons, List.intercalate_cons_cons, List.append_assoc,
            List.append_assoc, removecommas_inside h.1, List.singleton_append, hcomma, ih h.2,
            Option.map_map, Option.map_map]
          congr 1
          funext cs
          simp

/-- The commas of an operand are marked. -/
theorem removecommas_operand (o : Operand u) (rest : Text) :
    removecommas false (o.text ++ rest) =
      (removecommas false rest).map (o.textWith breakMark ++ ·) := by
  cases o with
  | number n =>
      exact removecommas_outside (n.not_mem (by decide)) (n.not_mem (by decide)) rest
  | var name =>
      exact removecommas_outside (fun hmem => (name.plain '(' hmem).2.1 rfl)
        (fun hmem => (name.plain ')' hmem).2.2 rfl) rest
  | parens n reg1 index =>
      have hopen (rest : Text) : removecommas false ('(' :: rest) =
          (removecommas true rest).map ('(' :: ·) := rfl
      have hclose : removecommas true (')' :: rest) =
          (removecommas false rest).map (')' :: ·) := rfl
      simp only [Operand.text, Operand.textWith, List.append_assoc, List.cons_append]
      rw [removecommas_outside (leading_not_mem n (by decide)) (leading_not_mem n (by decide)),
        hopen, removecommas_pieces (isField_pieces reg1 index), List.nil_append, hclose,
        Option.map_map, Option.map_map, Option.map_map]
      congr 1

end OsLabs.X86.Loader
