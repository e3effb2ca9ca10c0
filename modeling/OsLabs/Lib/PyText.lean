import Mathlib

/-!
# Strings of Python

Strings are lists of characters. What the methods take from the character database is a
parameter; where they look at white space it is fixed.
-/

namespace OsLabs.PyText

abbrev Text := List Char

/-- The character database; its part for ASCII is known. -/
structure Unicode where
  isalpha : Char → Bool
  isdigit : Char → Bool
  /-- The value of a decimal digit. -/
  decimal : Char → Option ℕ
  isalpha_ascii : ∀ c, c.toNat < 128 → isalpha c = c.isAlpha
  isdigit_ascii : ∀ c, c.toNat < 128 → isdigit c = c.isDigit
  decimal_ascii : ∀ c, c.isDigit → decimal c = some (c.toNat - 48)

/-- The database that knows nothing else. -/
def Unicode.ascii : Unicode where
  isalpha := Char.isAlpha
  isdigit := Char.isDigit
  decimal c := if c.isDigit then some (c.toNat - 48) else none
  isalpha_ascii _ _ := rfl
  isdigit_ascii _ _ := rfl
  decimal_ascii _ h := if_pos h

/-! ## White space -/

def isspace (c : Char) : Bool :=
  let code := c.toNat
  (9 ≤ code ∧ code ≤ 13) ∨ (28 ≤ code ∧ code ≤ 32) ∨ code = 133 ∨ code = 160 ∨ code = 5760 ∨
    (8192 ≤ code ∧ code ≤ 8202) ∨ code = 8232 ∨ code = 8233 ∨ code = 8239 ∨ code = 8287 ∨
      code = 12288

def lstrip (text : Text) : Text := text.dropWhile isspace

def rstrip (text : Text) : Text := text.rdropWhile isspace

def strip (text : Text) : Text := rstrip (lstrip text)

/-- `text.split()` -/
def split (text : Text) : List Text := (text.splitOnP isspace).filter fun word => word ≠ []

/-- `text.split(None, 1)` -/
def splitWord (text : Text) : List Text :=
  match lstrip text with
  | [] => []
  | c :: cs =>
      let rest := lstrip ((c :: cs).dropWhile (!isspace ·))
      (c :: cs).takeWhile (!isspace ·) :: if rest = [] then [] else [rest]

/-! ## Separators -/

/-- `text.split(sep, 1)` -/
def splitOnce (sep : Char) (text : Text) : List Text :=
  match text.dropWhile (· ≠ sep) with
  | [] => [text]
  | _ :: rest => [text.takeWhile (· ≠ sep), rest]

/-- `text.split(sep)`; `skip` characters of a separator are still to come. -/
def splitText (sep : Text) : ℕ → Text → List Text
  | _, [] => [[]]
  | skip + 1, _ :: cs => splitText sep skip cs
  | 0, c :: cs =>
      if sep.isPrefixOf (c :: cs) then [] :: splitText sep (sep.length - 1) cs
      else (splitText sep 0 cs).modifyHead (c :: ·)

/-- `text.replace(old, '')` -/
def remove (old text : Text) : Text := (splitText old 0 text).flatten

/-- `text.replace(old, new)` -/
def replaceChar (old new : Char) (text : Text) : Text :=
  text.map fun c => if c = old then new else c

/-! ## Numbers -/

variable (u : Unicode)

/-- `text.isdigit()` -/
def isdigit (text : Text) : Bool := text ≠ [] && text.all u.isdigit

local instance lawfulBEq_text : LawfulBEq Text := inferInstance

/-- Decimal digits, with single underscores between them. -/
def digits (text : Text) : Option ℕ :=
  if [] ∈ text.splitOn '_' then none
  else (text.filter (· ≠ '_')).foldlM (fun n c => (u.decimal c).map (10 * n + ·)) 0

/-- `int(text)` -/
def int (text : Text) : Option ℤ :=
  match strip text with
  | '-' :: cs => (digits u cs).map fun n => -n
  | '+' :: cs => (digits u cs).map fun n => n
  | cs => (digits u cs).map fun n => n

/-! ## The first word -/

variable {text rest word : Text} {c : Char}

theorem split_cons_of_isspace (h : isspace c = true) : split (c :: text) = split text := by
  unfold split
  rw [List.splitOnP_cons_eq_if_modifyHead, if_pos h]
  rfl

theorem split_lstrip (text : Text) : split (lstrip text) = split text := by
  induction text with
  | nil => rfl
  | cons c cs ih =>
      unfold lstrip
      cases hspace : isspace c with
      | true =>
          rw [List.dropWhile_cons_of_pos hspace, split_cons_of_isspace hspace]
          exact ih
      | false => rw [List.dropWhile_cons_of_neg (by simp [hspace])]

theorem exists_of_splitOnP (p : Char → Bool) (text : Text) :
    ∃ pieces, text.splitOnP p = text.takeWhile (!p ·) :: pieces := by
  induction text with
  | nil => exact ⟨[], rfl⟩
  | cons c cs ih =>
      obtain ⟨pieces, hpieces⟩ := ih
      rw [List.splitOnP_cons_eq_if_modifyHead, hpieces]
      cases hp : p c with
      | true => exact ⟨cs.takeWhile (!p ·) :: pieces, by simp [hp]⟩
      | false => exact ⟨pieces, by simp [hp]⟩

/-- The words are counted from the first character that is not white space. -/
theorem split_eq (text : Text) : ∃ words, split text =
    if lstrip text = [] then [] else (lstrip text).takeWhile (!isspace ·) :: words := by
  rw [← split_lstrip]
  cases hstrip : lstrip text with
  | nil => exact ⟨[], rfl⟩
  | cons c cs =>
      have hspace : isspace c = false := by
        have hhead := List.head?_dropWhile_not isspace text
        unfold lstrip at hstrip
        rwa [hstrip] at hhead
      obtain ⟨pieces, hpieces⟩ := exists_of_splitOnP isspace (c :: cs)
      refine ⟨pieces.filter fun word => word ≠ [], ?_⟩
      unfold split
      rw [if_neg (List.cons_ne_nil c cs), hpieces, List.filter_cons_of_pos]
      simp [hspace]

/-- Both ways to split have the same first word. -/
theorem splitWord_head? (text : Text) : (splitWord text).head? = (split text).head? := by
  obtain ⟨words, hsplit⟩ := split_eq text
  rw [hsplit]
  unfold splitWord
  cases hstrip : lstrip text with
  | nil => rfl
  | cons c cs => rfl

/-- A text that starts with no white space starts with its first word. -/
theorem head?_split (h : isspace c = false) (text : Text) :
    ∃ word words, split (c :: text) = (c :: word) :: words := by
  obtain ⟨words, hsplit⟩ := split_eq (c :: text)
  have hstrip : lstrip (c :: text) = c :: text := List.dropWhile_cons_of_neg (by simp [h])
  rw [hstrip, if_neg (List.cons_ne_nil c text), List.takeWhile_cons_of_pos (by simp [h])] at hsplit
  exact ⟨_, words, hsplit⟩

/-! ## Texts in white space -/

def IsBlank (text : Text) : Prop := ∀ c ∈ text, isspace c = true

/-- The text neither starts nor ends with white space. -/
structure Solid (text : Text) : Prop where
  ne_nil : text ≠ []
  head : ∀ c ∈ text.head?, isspace c = false
  last : ∀ c ∈ text.getLast?, isspace c = false

variable {b b' : Text}

theorem solid_of_forall (hne : text ≠ []) (h : ∀ c ∈ text, isspace c = false) : Solid text where
  ne_nil := hne
  head := fun c hc => h c (List.mem_of_mem_head? hc)
  last := fun c hc => h c (List.mem_of_mem_getLast? hc)

theorem isBlank_nil : IsBlank [] := nofun

theorem dropWhile_blank (hb : IsBlank b) (hhead : ∀ c ∈ text.head?, isspace c = false) :
    (b ++ text).dropWhile isspace = text := by
  rw [List.dropWhile_append_of_pos hb]
  cases text with
  | nil => rfl
  | cons c cs => exact List.dropWhile_cons_of_neg (by simp [hhead c rfl])

theorem lstrip_append (hb : IsBlank b) (h : Solid text) (rest : Text) :
    lstrip (b ++ (text ++ rest)) = text ++ rest := by
  refine dropWhile_blank hb fun c hc => h.head c ?_
  rwa [List.head?_append_of_ne_nil _ h.ne_nil] at hc

theorem rstrip_append (hb : IsBlank b) (h : Solid text) : rstrip (text ++ b) = text := by
  unfold rstrip List.rdropWhile
  rw [List.reverse_append, dropWhile_blank, List.reverse_reverse]
  · exact fun c hc => hb c (List.mem_reverse.mp hc)
  · exact fun c hc => h.last c (List.head?_reverse ▸ hc)

theorem strip_append (hb : IsBlank b) (h : Solid text) (hb' : IsBlank b') :
    strip (b ++ (text ++ b')) = text := by
  unfold strip
  rw [lstrip_append hb h, rstrip_append hb' h]

theorem splitWord_append (hb : IsBlank b) (hword : ∀ c ∈ word, isspace c = false)
    (hne : word ≠ []) (hb' : IsBlank b') (hgap : b' ≠ []) (hrest : rest ≠ [])
    (hhead : ∀ c ∈ rest.head?, isspace c = false) :
    splitWord (b ++ (word ++ (b' ++ rest))) = [word, rest] := by
  have hsolid := solid_of_forall hne hword
  have hnot : ∀ c ∈ word, (!isspace c) = true := fun c hc => by rw [hword c hc]; rfl
  unfold splitWord
  rw [lstrip_append hb hsolid]
  cases hcons : word ++ (b' ++ rest) with
  | nil => exact absurd (List.append_eq_nil_iff.mp hcons).1 hne
  | cons c cs =>
      obtain ⟨d, ds, rfl⟩ := List.exists_cons_of_ne_nil hgap
      have hd : ¬ (!isspace d) = true := by rw [hb' d List.mem_cons_self]; simp
      have htake : (c :: cs).takeWhile (!isspace ·) = word := by
        rw [← hcons, List.takeWhile_append_of_pos hnot, List.cons_append,
          List.takeWhile_cons_of_neg (p := fun c => !isspace c) hd, List.append_nil]
      have hdrop : (c :: cs).dropWhile (!isspace ·) = d :: ds ++ rest := by
        rw [← hcons, List.dropWhile_append_of_pos hnot, List.cons_append,
          List.dropWhile_cons_of_neg (p := fun c => !isspace c) hd]
      have hlstrip : lstrip (d :: ds ++ rest) = rest := dropWhile_blank hb' hhead
      simp only [htake, hdrop, hlstrip, if_neg hrest]

theorem splitOnce_append {sep : Char} (h : sep ∉ text) (rest : Text) :
    splitOnce sep (text ++ sep :: rest) = [text, rest] := by
  have hne : ∀ c ∈ text, decide (c ≠ sep) = true := fun c hc =>
    decide_eq_true fun heq => h (heq ▸ hc)
  unfold splitOnce
  rw [List.dropWhile_append_of_pos hne, List.takeWhile_append_of_pos hne,
    List.dropWhile_cons_of_neg (by simp), List.takeWhile_cons_of_neg (by simp), List.append_nil]

/-! ## Separators of several characters -/

variable {d : Char} {ds : Text}

theorem splitText_ne_nil (sep : Text) (skip : ℕ) (text : Text) : splitText sep skip text ≠ [] := by
  induction text generalizing skip with
  | nil => simp [splitText]
  | cons c cs ih =>
      cases skip with
      | succ skip => exact ih skip
      | zero =>
          unfold splitText
          split
          · exact List.cons_ne_nil _ _
          · simpa using ih 0

theorem splitText_cons {sep : Text} (h : ¬ sep <+: c :: text) :
    splitText sep 0 (c :: text) = (splitText sep 0 text).modifyHead (c :: ·) := by
  rw [splitText, if_neg (by simpa using h)]

theorem splitText_cons_of_ne (h : c ≠ d) (text : Text) :
    splitText (d :: ds) 0 (c :: text) = (splitText (d :: ds) 0 text).modifyHead (c :: ·) :=
  splitText_cons fun hprefix => h (List.cons_prefix_cons.mp hprefix).1.symm

theorem splitText_skip (sep : Text) (rest : Text) (text : Text) :
    splitText sep rest.length (rest ++ text) = splitText sep 0 text := by
  induction rest with
  | nil => rfl
  | cons c rest ih => exact ih

theorem splitText_sep (text : Text) :
    splitText (d :: ds) 0 (d :: ds ++ text) = [] :: splitText (d :: ds) 0 text := by
  rw [List.cons_append, splitText, if_pos (by simp), ← splitText_skip (d :: ds) ds text]
  rfl

theorem splitText_append (h : d ∉ text) (rest : Text) : splitText (d :: ds) 0 (text ++ rest) =
    (splitText (d :: ds) 0 rest).modifyHead (text ++ ·) := by
  induction text with
  | nil => exact (congrFun List.modifyHead_id _).symm
  | cons c cs ih =>
      rw [List.mem_cons, not_or] at h
      rw [List.cons_append, splitText_cons_of_ne (Ne.symm h.1), ih h.2, List.modifyHead_modifyHead]
      rfl

theorem splitText_of_not_mem (h : d ∉ text) : splitText (d :: ds) 0 text = [text] := by
  have happend : splitText (d :: ds) 0 (text ++ []) = _ := splitText_append h []
  simpa [splitText] using happend

/-- Pieces without the start of the separator are found again. -/
theorem splitText_intercalate {pieces : List Text} (h : ∀ piece ∈ pieces, d ∉ piece)
    (hne : pieces ≠ []) : splitText (d :: ds) 0 ((d :: ds).intercalate pieces) = pieces := by
  induction pieces with
  | nil => exact absurd rfl hne
  | cons piece pieces ih =>
      rw [List.forall_mem_cons] at h
      cases pieces with
      | nil => rw [List.intercalate_singleton, splitText_of_not_mem h.1]
      | cons piece' pieces =>
          rw [List.intercalate_cons_cons, List.append_assoc, splitText_append h.1, splitText_sep,
            ih h.2 (List.cons_ne_nil _ _)]
          simp

theorem mem_of_mem_intercalate {sep : Text} {pieces : List Text}
    (h : c ∈ sep.intercalate pieces) : c ∈ sep ∨ ∃ piece ∈ pieces, c ∈ piece := by
  induction pieces with
  | nil => cases h
  | cons piece pieces ih =>
      cases pieces with
      | nil =>
          rw [List.intercalate_singleton] at h
          exact .inr ⟨piece, List.mem_cons_self, h⟩
      | cons piece' pieces =>
          rw [List.intercalate_cons_cons, List.append_assoc, List.mem_append, List.mem_append] at h
          obtain hpiece | hsep | hrest := h
          · exact .inr ⟨piece, List.mem_cons_self, hpiece⟩
          · exact .inl hsep
          · exact (ih hrest).imp_right fun ⟨other, hother, hmem⟩ =>
              ⟨other, List.mem_cons_of_mem piece hother, hmem⟩

theorem remove_cons {old : Text} (h : ¬ old <+: c :: text) :
    remove old (c :: text) = c :: remove old text := by
  unfold remove
  rw [splitText_cons h]
  cases hsplit : splitText old 0 text with
  | nil => exact absurd hsplit (splitText_ne_nil _ _ _)
  | cons piece pieces => rfl

theorem remove_cons_of_ne (h : c ≠ d) (text : Text) :
    remove (d :: ds) (c :: text) = c :: remove (d :: ds) text :=
  remove_cons fun hprefix => h (List.cons_prefix_cons.mp hprefix).1.symm

theorem remove_sep (text : Text) :
    remove (d :: ds) (d :: ds ++ text) = remove (d :: ds) text := by
  unfold remove
  rw [splitText_sep]
  rfl

theorem remove_append (h : d ∉ text) (rest : Text) :
    remove (d :: ds) (text ++ rest) = text ++ remove (d :: ds) rest := by
  induction text with
  | nil => rfl
  | cons c cs ih =>
      rw [List.mem_cons, not_or] at h
      rw [List.cons_append, remove_cons_of_ne (Ne.symm h.1), ih h.2, List.cons_append]

theorem mem_of_mem_splitText {sep : Text} {k : ℕ}
    (h : c ∈ (splitText sep k text).flatten) : c ∈ text := by
  induction text generalizing k with
  | nil => simp [splitText] at h
  | cons a text ih =>
      cases k with
      | succ k => exact List.mem_cons_of_mem a (ih h)
      | zero =>
          unfold splitText at h
          split at h
          · exact List.mem_cons_of_mem a (ih h)
          · cases hsplit : splitText sep 0 text with
            | nil => exact absurd hsplit (splitText_ne_nil _ _ _)
            | cons piece pieces =>
                rw [hsplit] at h
                obtain rfl | hmem := List.mem_cons.mp h
                · exact List.mem_cons_self
                · refine List.mem_cons_of_mem a (ih (k := 0) ?_)
                  rw [hsplit]
                  exact hmem

theorem mem_of_mem_remove {old : Text} (h : c ∈ remove old text) : c ∈ text :=
  mem_of_mem_splitText h

/-- No occurrence reaches over a character that is not in the pair. -/
theorem remove_pair_append {e : Char} (hd : c ≠ d) (he : c ≠ e) (rest : Text) :
    ∀ text, remove [d, e] (text ++ c :: rest) = remove [d, e] text ++ c :: remove [d, e] rest
  | [] => remove_cons_of_ne hd rest
  | a :: text => by
      by_cases hprefix : [d, e] <+: a :: (text ++ c :: rest)
      · obtain ⟨rfl, hsecond⟩ := List.cons_prefix_cons.mp hprefix
        cases text with
        | nil => exact absurd (List.cons_prefix_cons.mp hsecond).1.symm he
        | cons a' text =>
            obtain ⟨rfl, -⟩ := List.cons_prefix_cons.mp hsecond
            exact (remove_sep (text ++ c :: rest)).trans <|
              (remove_pair_append hd he rest text).trans <|
                congrArg (· ++ _) (remove_sep text).symm
      · have hshort : ¬ [d, e] <+: a :: text := fun h =>
          hprefix (h.trans (List.prefix_append (a :: text) _))
        rw [List.cons_append, remove_cons hprefix, remove_cons hshort,
          remove_pair_append hd he rest text, List.cons_append]

/-! ## Digits -/

theorem isAlphanum_bounds (h : c.isAlphanum = true) : 48 ≤ c.toNat ∧ c.toNat ≤ 122 := by
  simp only [Char.isAlphanum, Char.isAlpha, Char.isUpper, Char.isLower, Char.isDigit,
    Bool.or_eq_true, Bool.and_eq_true, decide_eq_true_eq, UInt32.le_iff_toNat_le, ge_iff_le] at h
  change ((65 ≤ c.toNat ∧ c.toNat ≤ 90) ∨ (97 ≤ c.toNat ∧ c.toNat ≤ 122)) ∨
    (48 ≤ c.toNat ∧ c.toNat ≤ 57) at h
  omega

theorem isspace_of_isAlphanum (h : c.isAlphanum = true) : isspace c = false := by
  obtain ⟨hlow, hhigh⟩ := isAlphanum_bounds h
  unfold isspace
  simp only [decide_eq_false_iff_not]
  omega

theorem isspace_of_isDigit (h : c.isDigit = true) : isspace c = false :=
  isspace_of_isAlphanum (by simp [Char.isAlphanum, h])

/-- The number that decimal digits spell. -/
def digitsValue (text : Text) : ℕ := text.foldl (fun n c => 10 * n + (c.toNat - 48)) 0

theorem isdigit_of_digits (hne : text ≠ []) (h : ∀ c ∈ text, c.isDigit = true) :
    isdigit u text = true := by
  have hall : ∀ c ∈ text, u.isdigit c = true := fun c hc => by
    have halnum : c.isAlphanum = true := by simp [Char.isAlphanum, h c hc]
    rw [u.isdigit_ascii c (by have hbounds := isAlphanum_bounds halnum; omega), h c hc]
  unfold isdigit
  simpa [hne] using hall

theorem foldlM_decimal (h : ∀ c ∈ text, c.isDigit = true) (n : ℕ) :
    text.foldlM (fun n c => (u.decimal c).map (10 * n + ·)) n =
      some (text.foldl (fun n c => 10 * n + (c.toNat - 48)) n) := by
  induction text generalizing n with
  | nil => rfl
  | cons c cs ih =>
      rw [List.forall_mem_cons] at h
      rw [List.foldlM_cons, u.decimal_ascii c h.1]
      exact ih h.2 _

theorem digits_of_digits (hne : text ≠ []) (h : ∀ c ∈ text, c.isDigit = true) :
    digits u text = some (digitsValue text) := by
  have hscore : '_' ∉ text := fun hmem => Bool.noConfusion (h '_' hmem)
  have hfilter : text.filter (· ≠ '_') = text := List.filter_eq_self.mpr fun c hc =>
    decide_eq_true fun heq => hscore (heq ▸ hc)
  unfold digits
  rw [List.splitOn_eq_singleton hscore, if_neg (by simpa using Ne.symm hne), hfilter,
    foldlM_decimal u h]
  rfl

theorem int_of_digits (hb : IsBlank b) (hb' : IsBlank b') (hne : text ≠ [])
    (h : ∀ c ∈ text, c.isDigit = true) :
    int u (b ++ (text ++ b')) = some (digitsValue text : ℤ) := by
  have hsolid := solid_of_forall hne fun c hc => isspace_of_isDigit (h c hc)
  have hdigits := digits_of_digits u hne h
  unfold int
  rw [strip_append hb hsolid hb']
  cases text with
  | nil => exact absurd rfl hne
  | cons c cs =>
      have hc := h c List.mem_cons_self
      split
      case h_1 cs' heq =>
        obtain rfl := (List.cons.inj heq).1
        cases hc
      case h_2 cs' heq =>
        obtain rfl := (List.cons.inj heq).1
        cases hc
      case h_3 =>
        rw [hdigits]
        rfl

theorem int_of_minus (hb : IsBlank b) (hb' : IsBlank b') (hne : text ≠ [])
    (h : ∀ c ∈ text, c.isDigit = true) :
    int u (b ++ ('-' :: text ++ b')) = some (-(digitsValue text : ℤ)) := by
  have hsolid : Solid ('-' :: text) := solid_of_forall (List.cons_ne_nil _ _) <|
    List.forall_mem_cons.mpr ⟨by decide, fun c hc => isspace_of_isDigit (h c hc)⟩
  unfold int
  rw [strip_append hb hsolid hb']
  simp only [digits_of_digits u hne h]
  rfl

end OsLabs.PyText
