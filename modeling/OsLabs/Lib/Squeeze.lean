import Mathlib

/-!
# Space around separators

Texts that differ only in the space around their separators are those with the same
squeezed pieces.
-/

namespace OsLabs.Squeeze

variable {α : Type*} [DecidableEq α] {space wide : α → Bool} {sep : α}
  {text text' before after blank blank' : List α}

/-- A piece and the pieces behind it, without the space next to a separator. -/
def squeezePieces (space : α → Bool) (piece : List α) : List (List α) → List (List α)
  | [] => [piece]
  | next :: rest => piece.rdropWhile space :: squeezePieces space (next.dropWhile space) rest

def squeeze (space : α → Bool) (sep : α) (text : List α) : List (List α) :=
  match text.splitOn sep with
  | [] => []
  | piece :: rest => squeezePieces space piece rest

/-- Space is inserted around one separator. -/
def Inserted (space : α → Bool) (sep : α) (text text' : List α) : Prop :=
  ∃ before after blank blank', (∀ c ∈ blank, space c) ∧ (∀ c ∈ blank', space c) ∧
    text = before ++ sep :: after ∧ text' = before ++ blank ++ sep :: (blank' ++ after)

/-- One text becomes the other by inserting and deleting space around separators. -/
def Respaced (space : α → Bool) (sep : α) : List α → List α → Prop :=
  Relation.EqvGen (Inserted space sep)

/-! ## Ends of texts -/

omit [DecidableEq α] in
theorem dropWhile_eq_self (h : ∀ c ∈ text.head?, space c = false) :
    text.dropWhile space = text := by
  cases text with
  | nil => rfl
  | cons c cs => exact List.dropWhile_cons_of_neg (by simp [h c rfl])

omit [DecidableEq α] in
theorem rdropWhile_eq_self (h : ∀ c ∈ text.getLast?, space c = false) :
    text.rdropWhile space = text := by
  rw [List.rdropWhile_eq_self_iff]
  intro hne
  simp [h _ (List.getLast?_eq_some_getLast hne)]

/-! ## The first separator -/

theorem splitOn_dropWhile (hsep : space sep = false) (text : List α) :
    ∃ piece rest, text.splitOn sep = piece :: rest ∧
      (text.dropWhile space).splitOn sep = piece.dropWhile space :: rest := by
  induction text with
  | nil => exact ⟨[], [], rfl, rfl⟩
  | cons c cs ih =>
      obtain ⟨piece, rest, hsplit, hdrop⟩ := ih
      by_cases hc : c = sep
      · subst hc
        refine ⟨[], cs.splitOn c, ?_, ?_⟩
        · simp [List.splitOn_cons_eq_if_modifyHead]
        · rw [List.dropWhile_cons_of_neg (by simp [hsep])]
          simp [List.splitOn_cons_eq_if_modifyHead]
      · have hcons : (c :: cs).splitOn sep = (c :: piece) :: rest := by
          simp [List.splitOn_cons_eq_if_modifyHead, hc, hsplit]
        refine ⟨c :: piece, rest, hcons, ?_⟩
        by_cases hspace : space c = true
        · rw [List.dropWhile_cons_of_pos hspace, List.dropWhile_cons_of_pos hspace, hdrop]
        · rw [List.dropWhile_cons_of_neg hspace, List.dropWhile_cons_of_neg hspace, hcons]

/-- A text has one first separator. -/
theorem sep_inj {first first' : List α} (hfirst : sep ∉ first) (hfirst' : sep ∉ first')
    (h : first ++ sep :: after = first' ++ sep :: before) : first = first' ∧ after = before := by
  have hsplit := congrArg (List.splitOn sep) h
  rw [List.splitOn_append_cons_self_of_not_mem hfirst,
    List.splitOn_append_cons_self_of_not_mem hfirst', List.cons_eq_cons] at hsplit
  obtain rfl := hsplit.1
  exact ⟨rfl, (List.cons_eq_cons.mp (List.append_cancel_left h)).2⟩

theorem squeeze_of_notMem (h : sep ∉ text) : squeeze space sep text = [text] := by
  rw [squeeze, List.splitOn_eq_singleton h]
  rfl

/-- The space around the first separator goes, and the rest is squeezed alike. -/
theorem squeeze_sep (hsep : space sep = false) (h : sep ∉ before) (after : List α) :
    squeeze space sep (before ++ sep :: after) =
      before.rdropWhile space :: squeeze space sep (after.dropWhile space) := by
  obtain ⟨piece, rest, hsplit, hdrop⟩ := splitOn_dropWhile hsep after
  unfold squeeze
  rw [List.splitOn_append_cons_self_of_not_mem h, hsplit, hdrop]
  rfl

theorem length_splitOn (sep : α) (text : List α) :
    (text.splitOn sep).length = text.count sep + 1 := by
  induction text with
  | nil => rfl
  | cons c cs ih =>
      rw [List.splitOn_cons_eq_if_modifyHead, List.count_cons]
      split
      · rw [List.length_cons, ih]
      · rw [List.length_modifyHead, ih]

omit [DecidableEq α] in
theorem length_squeezePieces (piece : List α) (rest : List (List α)) :
    (squeezePieces space piece rest).length = rest.length + 1 := by
  induction rest generalizing piece with
  | nil => rfl
  | cons next rest ih => rw [squeezePieces, List.length_cons, ih, List.length_cons]

theorem length_squeeze (text : List α) :
    (squeeze space sep text).length = text.count sep + 1 := by
  obtain ⟨piece, rest, hsplit⟩ := List.exists_cons_of_ne_nil (List.splitOn_ne_nil sep text)
  rw [squeeze, hsplit, ← length_splitOn, hsplit]
  exact length_squeezePieces piece rest

theorem squeeze_ne_nil (text : List α) : squeeze space sep text ≠ [] := by
  obtain ⟨piece, rest, hsplit⟩ := List.exists_cons_of_ne_nil (List.splitOn_ne_nil sep text)
  rw [squeeze, hsplit]
  cases rest <;> exact List.cons_ne_nil _ _

/-- A single piece is a text without separators. -/
theorem squeeze_eq_singleton {piece : List α} (hsep : space sep = false)
    (h : squeeze space sep text = [piece]) : sep ∉ text ∧ text = piece := by
  by_cases hmem : sep ∈ text
  · obtain ⟨before, after, rfl, hbefore⟩ := List.eq_append_cons_of_mem hmem
    rw [squeeze_sep hsep hbefore, List.cons_eq_cons] at h
    exact absurd h.2 (squeeze_ne_nil _)
  · rw [squeeze_of_notMem hmem, List.cons_eq_cons] at h
    exact ⟨hmem, h.1⟩

/-- Two pieces or more come from a text with a separator. -/
theorem squeeze_eq_cons {piece : List α} {rest : List (List α)} (hsep : space sep = false)
    (hrest : rest ≠ []) (h : squeeze space sep text = piece :: rest) :
    ∃ before after, text = before ++ sep :: after ∧ sep ∉ before ∧
      before.rdropWhile space = piece ∧ squeeze space sep (after.dropWhile space) = rest := by
  by_cases hmem : sep ∈ text
  · obtain ⟨before, after, rfl, hbefore⟩ := List.eq_append_cons_of_mem hmem
    rw [squeeze_sep hsep hbefore, List.cons_eq_cons] at h
    exact ⟨before, after, rfl, hbefore, h.1, h.2⟩
  · rw [squeeze_of_notMem hmem, List.cons_eq_cons] at h
    exact absurd h.2.symm hrest

/-! ## Space around one separator -/

omit [DecidableEq α] in
theorem rdropWhile_append_space (hblank : ∀ c ∈ blank, space c) (text : List α) :
    (text ++ blank).rdropWhile space = text.rdropWhile space := by
  induction blank using List.reverseRecOn with
  | nil => rw [List.append_nil]
  | append_singleton blank c ih =>
      obtain ⟨hblank, hc⟩ := List.forall_mem_append.mp hblank
      rw [← List.append_assoc, List.rdropWhile_concat_pos _ _ _ (hc c (List.mem_singleton_self c))]
      exact ih hblank

omit [DecidableEq α] in
theorem dropWhile_append_space (hblank : ∀ c ∈ blank, space c) (text : List α) :
    (blank ++ text).dropWhile space = text.dropWhile space := by
  rw [List.dropWhile_append, List.dropWhile_eq_nil_iff.mpr hblank]
  rfl

theorem squeeze_insert (hsep : space sep = false) (hblank : ∀ c ∈ blank, space c)
    (hblank' : ∀ c ∈ blank', space c) (before after : List α) :
    squeeze space sep (before ++ blank ++ sep :: (blank' ++ after)) =
      squeeze space sep (before ++ sep :: after) := by
  induction hlength : before.length using Nat.strong_induction_on generalizing before with
  | h length ih =>
      have hstop : ∀ rest, (sep :: rest).dropWhile space = [] ++ sep :: rest := fun rest =>
        List.dropWhile_cons_of_neg (by simp [hsep])
      by_cases hmem : sep ∈ before
      · obtain ⟨first, before, rfl, hfirst⟩ := List.eq_append_cons_of_mem hmem
        simp only [List.append_assoc, List.cons_append]
        rw [squeeze_sep hsep hfirst, squeeze_sep hsep hfirst]
        congr 1
        rw [@List.dropWhile_append α space before, @List.dropWhile_append α space before]
        split
        case isTrue =>
          rw [dropWhile_append_space hblank, hstop, hstop, squeeze_sep hsep List.not_mem_nil,
            squeeze_sep hsep List.not_mem_nil, dropWhile_append_space hblank']
        case isFalse =>
          rw [← List.append_assoc]
          have hle := (List.dropWhile_suffix space (l := before)).length_le
          simp only [List.length_append, List.length_cons] at hlength
          exact ih (before.dropWhile space).length (by omega) _ rfl
      · have hnot : sep ∉ blank := by
          intro hin
          exact absurd (hblank sep hin) (by simp [hsep])
        rw [squeeze_sep hsep (by simp [hmem, hnot]), squeeze_sep hsep hmem,
          rdropWhile_append_space hblank, dropWhile_append_space hblank']

/-! ## Any number of separators -/

omit [DecidableEq α] in
theorem Respaced.mono (hwide : ∀ c, space c → wide c) (h : Respaced space sep text text') :
    Respaced wide sep text text' := by
  refine Relation.EqvGen.mono (fun first second hinserted => ?_) _ _ h
  obtain ⟨before, after, blank, blank', hblank, hblank', htext, htext'⟩ := hinserted
  exact ⟨before, after, blank, blank', fun c hc => hwide c (hblank c hc),
    fun c hc => hwide c (hblank' c hc), htext, htext'⟩

omit [DecidableEq α] in
theorem Respaced.append_left (h : Respaced space sep text text') (before : List α) :
    Respaced space sep (before ++ text) (before ++ text') := by
  induction h with
  | rel text text' h =>
      obtain ⟨first, after, blank, blank', hblank, hblank', rfl, rfl⟩ := h
      refine .rel _ _ ⟨before ++ first, after, blank, blank', hblank, hblank', ?_, ?_⟩
      · rw [List.append_assoc]
      · simp only [List.append_assoc]
  | refl text => exact .refl _
  | symm text text' h ih => exact .symm _ _ ih
  | trans text middle text' h h' ih ih' => exact .trans _ _ _ ih ih'

theorem Respaced.squeeze_eq (hsep : space sep = false) (h : Respaced space sep text text') :
    squeeze space sep text = squeeze space sep text' := by
  induction h with
  | rel text text' h =>
      obtain ⟨before, after, blank, blank', hblank, hblank', rfl, rfl⟩ := h
      exact (squeeze_insert hsep hblank hblank' before after).symm
  | refl text => rfl
  | symm text text' h ih => exact ih.symm
  | trans text middle text' h h' ih ih' => exact ih.trans ih'

omit [DecidableEq α] in
/-- The space around a separator can be deleted. -/
theorem respaced_sep (before after : List α) :
    Respaced space sep (before ++ sep :: after)
      (before.rdropWhile space ++ sep :: after.dropWhile space) := by
  refine .symm _ _ (.rel _ _
    ⟨_, _, before.rtakeWhile space, after.takeWhile space, ?_, ?_, rfl, ?_⟩)
  · intro c hc
    exact List.mem_rtakeWhile_imp hc
  · intro c hc
    exact List.mem_takeWhile_imp hc
  · rw [List.rdropWhile_append_rtakeWhile, List.takeWhile_append_dropWhile]

/-- Every text becomes its squeezed pieces with the separators between them. -/
theorem respaced_squeeze (hsep : space sep = false) (text : List α) :
    Respaced space sep text ([sep].intercalate (squeeze space sep text)) := by
  induction hlength : text.length using Nat.strong_induction_on generalizing text with
  | h length ih =>
      by_cases hmem : sep ∈ text
      · obtain ⟨before, after, rfl, hbefore⟩ := List.eq_append_cons_of_mem hmem
        have hle := (List.dropWhile_suffix space (l := after)).length_le
        simp only [List.length_append, List.length_cons] at hlength
        have hafter := (ih _ (by omega) (after.dropWhile space) rfl).append_left
          (before.rdropWhile space ++ [sep])
        rw [squeeze_sep hsep hbefore, List.intercalate_cons_of_ne_nil (squeeze_ne_nil _)]
        simp only [List.append_assoc, List.singleton_append] at hafter ⊢
        exact .trans _ _ _ (respaced_sep before after) hafter
      · rw [squeeze_of_notMem hmem]
        rw [List.intercalate_singleton]
        exact .refl text

theorem respaced_iff (hsep : space sep = false) :
    Respaced space sep text text' ↔ squeeze space sep text = squeeze space sep text' := by
  constructor
  · exact Respaced.squeeze_eq hsep
  · intro h
    have hto := respaced_squeeze hsep text
    rw [h] at hto
    exact .trans _ _ _ hto (.symm _ _ (respaced_squeeze hsep text'))

end OsLabs.Squeeze
