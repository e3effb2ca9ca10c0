import OsLabs.Generator.Parser

/-!
# Tokens

The loop over the commas ends, and the tokens of a program are braces and words
without spaces and braces.
-/

namespace OsLabs.Generator

open OsLabs.PyText (isspace split)

variable {text program group old new : Text} {pos start stop : ℕ}

/-! ## The loop over the commas -/

theorem matchComma_bounds (h : matchComma text = some group) :
    0 < group.length ∧ group.length ≤ text.length := by
  unfold matchComma at h
  split at h
  case h_1 rest hrest =>
    cases h
    have hsplit : text.takeWhile isspace ++ text.dropWhile isspace = text :=
      List.takeWhile_append_dropWhile
    have hlength := congrArg List.length hsplit
    have hle := (List.takeWhile_prefix isspace (l := rest)).length_le
    rw [hrest] at hlength
    simp only [List.length_append, List.length_cons] at hlength ⊢
    omega
  case h_2 => cases h

theorem search_bounds (h : search text start = some (group, stop)) :
    group ≠ [] ∧ start < stop ∧ stop ≤ start + text.length := by
  induction text generalizing start with
  | nil => cases h
  | cons c cs ih =>
      rw [search] at h
      split at h
      case h_1 found hfound =>
        cases h
        obtain ⟨hpos, hle⟩ := matchComma_bounds hfound
        exact ⟨List.ne_nil_of_length_pos hpos, by omega, by omega⟩
      case h_2 =>
        obtain ⟨hne, hlt, hle⟩ := ih h
        rw [List.length_cons]
        exact ⟨hne, by omega, by omega⟩

theorem replaceFirst_length (hold : old ≠ []) (c : Char) (text : Text) :
    (replaceFirst old [c] text).length ≤ text.length := by
  induction text with
  | nil => rw [replaceFirst, if_neg hold]
  | cons d ds ih =>
      rw [replaceFirst]
      split
      case isTrue hprefix =>
        have hle := (List.isPrefixOf_iff_prefix.mp hprefix).length_le
        have hpos := List.length_pos_of_ne_nil hold
        rw [List.length_append, List.length_drop, List.length_singleton]
        omega
      case isFalse =>
        simpa using ih

/-- Each turn starts behind the match before, in a text that is not longer. -/
theorem closeCommas_ends {fuel : ℕ} (hfuel : program.length ≤ pos + fuel) :
    ∃ closed, closeCommas (fuel + 1) program pos = some closed := by
  induction fuel generalizing program pos with
  | zero =>
      refine ⟨program, ?_⟩
      rw [closeCommas, List.drop_of_length_le (Nat.add_zero pos ▸ hfuel), search]
  | succ fuel ih =>
      rw [closeCommas]
      split
      case h_1 => exact ⟨program, rfl⟩
      case h_2 group stop hfound =>
        obtain ⟨hne, hlt, -⟩ := search_bounds hfound
        have hle := replaceFirst_length hne ',' program
        exact ih (by omega)

/-! ## Words -/

/-- A text without spaces and braces. -/
def Clean (text : Text) : Prop := ' ' ∉ text ∧ '\x7b' ∉ text ∧ '\x7d' ∉ text

def IsToken (token : Text) : Prop :=
  token ≠ [] ∧ (token = lbrace ∨ token = rbrace ∨ Clean token)

theorem Clean.mono (h : Clean text) {word : Text} (hword : word ⊆ text) : Clean word := by
  obtain ⟨hspace, hopen, hclose⟩ := h
  exact ⟨fun hmem => hspace (hword hmem), fun hmem => hopen (hword hmem),
    fun hmem => hclose (hword hmem)⟩

theorem Clean.cons (h : Clean text) {c : Char} (hspace : c ≠ ' ') (hopen : c ≠ '\x7b')
    (hclose : c ≠ '\x7d') : Clean (c :: text) := by
  unfold Clean
  simp only [List.mem_cons, not_or]
  exact ⟨⟨Ne.symm hspace, h.1⟩, ⟨Ne.symm hopen, h.2.1⟩, ⟨Ne.symm hclose, h.2.2⟩⟩

theorem clean_nil : Clean [] := by
  simp [Clean]

/-- Both replacements of braces at once. -/
def spaceBrace (c : Char) : Text :=
  if c = '\x7b' then ' ' :: lbrace ++ [' ']
  else if c = '\x7d' then ' ' :: rbrace ++ [' ']
  else [c]

theorem replaceAll_braces (text : Text) :
    replaceAll '\x7d' (' ' :: rbrace ++ [' ']) (replaceAll '\x7b' (' ' :: lbrace ++ [' ']) text) =
      text.flatMap spaceBrace := by
  unfold replaceAll
  rw [List.flatMap_assoc]
  congr 1
  funext c
  unfold spaceBrace
  split
  · rfl
  · simp only [List.flatMap_cons, List.flatMap_nil, List.append_nil]

theorem splitOnP_spaced {token : Text} (htoken : ∀ c ∈ token, isspace c = false)
    (rest : Text) :
    (' ' :: token ++ [' '] ++ rest).splitOnP isspace = [] :: token :: rest.splitOnP isspace := by
  have hspace : isspace ' ' = true := by decide
  rw [List.append_assoc, List.cons_append, List.splitOnP_cons_eq_if_modifyHead, if_pos hspace]
  rw [List.singleton_append, List.splitOnP_append_cons_of_forall_mem htoken ' ' hspace]

theorem isspace_lbrace : ∀ c ∈ lbrace, isspace c = false :=
  List.forall_mem_singleton.mpr (by decide)

theorem isspace_rbrace : ∀ c ∈ rbrace, isspace c = false :=
  List.forall_mem_singleton.mpr (by decide)

/-- A brace has a space on both sides, so it is a piece of its own. -/
theorem splitOnP_spaceBrace (text : Text) :
    ∃ word pieces, (text.flatMap spaceBrace).splitOnP isspace = word :: pieces ∧ Clean word ∧
      ∀ piece ∈ pieces, piece = lbrace ∨ piece = rbrace ∨ Clean piece := by
  induction text with
  | nil => exact ⟨[], [], rfl, clean_nil, by simp⟩
  | cons c cs ih =>
      obtain ⟨word, pieces, hsplit, hword, hpieces⟩ := ih
      have hall : ∀ piece ∈ word :: pieces, piece = lbrace ∨ piece = rbrace ∨ Clean piece := by
        intro piece hpiece
        obtain rfl | hpiece := List.mem_cons.mp hpiece
        · exact .inr (.inr hword)
        · exact hpieces piece hpiece
      rw [List.flatMap_cons, spaceBrace]
      split
      case isTrue =>
        refine ⟨[], lbrace :: word :: pieces, ?_, clean_nil, ?_⟩
        · rw [splitOnP_spaced isspace_lbrace, hsplit]
        · exact List.forall_mem_cons.mpr ⟨.inl rfl, hall⟩
      case isFalse hopen =>
        split
        case isTrue =>
          refine ⟨[], rbrace :: word :: pieces, ?_, clean_nil, ?_⟩
          · rw [splitOnP_spaced isspace_rbrace, hsplit]
          · exact List.forall_mem_cons.mpr ⟨.inr (.inl rfl), hall⟩
        case isFalse hclose =>
          rw [List.singleton_append, List.splitOnP_cons_eq_if_modifyHead, hsplit]
          split
          case isTrue => exact ⟨[], word :: pieces, rfl, clean_nil, hall⟩
          case isFalse hspace =>
            have hne : c ≠ ' ' := by
              rintro rfl
              exact hspace (by decide)
            exact ⟨c :: word, pieces, rfl, hword.cons hne hopen hclose, hpieces⟩

theorem exists_tokens (program : Text) :
    ∃ ts, tokens program = some ts ∧ ∀ token ∈ ts, IsToken token := by
  obtain ⟨closed, hclosed⟩ := closeCommas_ends (Nat.le_add_left program.length 0)
  obtain ⟨word, pieces, hsplit, hword, hpieces⟩ := splitOnP_spaceBrace closed
  refine ⟨_, by rw [tokens, hclosed]; rfl, ?_⟩
  intro token htoken
  rw [replaceAll_braces, split, hsplit, List.mem_filter, decide_eq_true_iff] at htoken
  obtain ⟨hmem, hne⟩ := htoken
  obtain rfl | hmem := List.mem_cons.mp hmem
  · exact ⟨hne, .inr (.inr hword)⟩
  · exact ⟨hne, hpieces token hmem⟩

end OsLabs.Generator
