import OsLabs.Generator.Tokens
import OsLabs.Lib.Squeeze

/-!
# The loop over the commas

What a turn of the loop replaces, and what all turns keep.
-/

namespace OsLabs.Generator

open Squeeze
open OsLabs.PyText (isspace split)

variable {text group old before after blank closed : Text} {pos start stop fuel : ℕ}

/-- No white space stands next to the first comma. -/
def FirstClosed (text : Text) : Prop :=
  ∃ before after, text = before ++ ',' :: after ∧ ',' ∉ before ∧
    (∀ c ∈ before.getLast?, isspace c = false) ∧ ∀ c ∈ after.head?, isspace c = false

theorem isspace_comma : isspace ',' = false := by decide

theorem comma_notMem (h : ∀ c ∈ blank, isspace c) : ',' ∉ blank := by
  intro hmem
  have hspace := h ',' hmem
  rw [isspace_comma] at hspace
  cases hspace

/-! ## One match -/

theorem matchComma_blank (hblank : ∀ c ∈ blank, isspace c) (after : Text) :
    matchComma (blank ++ ',' :: after) = some (blank ++ ',' :: after.takeWhile isspace) := by
  have hcomma : ¬isspace ',' = true := by simp [isspace_comma]
  have hdrop : (blank ++ ',' :: after).dropWhile isspace = ',' :: after := by
    rw [dropWhile_append_space hblank, List.dropWhile_cons_of_neg hcomma]
  have htake : (blank ++ ',' :: after).takeWhile isspace = blank := by
    rw [List.takeWhile_append_of_pos hblank, List.takeWhile_cons_of_neg hcomma, List.append_nil]
  rw [matchComma, hdrop, htake]
  rfl

theorem matchComma_some (h : matchComma text = some group) :
    ∃ blank after, (∀ c ∈ blank, isspace c) ∧ text = blank ++ ',' :: after ∧
      group = blank ++ ',' :: after.takeWhile isspace := by
  unfold matchComma at h
  split at h
  case h_1 rest hrest =>
    refine ⟨text.takeWhile isspace, rest, fun c hc => List.mem_takeWhile_imp hc, ?_,
      (Option.some.inj h).symm⟩
    rw [← hrest, List.takeWhile_append_dropWhile]
  case h_2 => cases h

theorem search_some (h : search text start = some (group, stop)) :
    ∃ u blank after, (∀ c ∈ blank, isspace c) ∧ text = u ++ (blank ++ ',' :: after) ∧
      group = blank ++ ',' :: after.takeWhile isspace := by
  induction text generalizing start with
  | nil => cases h
  | cons c cs ih =>
      rw [search] at h
      split at h
      case h_1 found hfound =>
        cases h
        obtain ⟨blank, after, hblank, htext, hgroup⟩ := matchComma_some hfound
        exact ⟨[], blank, after, hblank, htext, hgroup⟩
      case h_2 =>
        obtain ⟨u, blank, after, hblank, rfl, hgroup⟩ := ih h
        exact ⟨c :: u, blank, after, hblank, rfl, hgroup⟩

theorem search_of_notMem (h : ',' ∉ text) (start : ℕ) : search text start = none := by
  rw [Option.eq_none_iff_forall_not_mem]
  rintro ⟨group, stop⟩ hfound
  obtain ⟨u, blank, after, -, rfl, -⟩ := search_some hfound
  simp at h

/-- The first match is that of the first comma. -/
theorem search_first (hbefore : ',' ∉ before)
    (hlast : ∀ c ∈ before.getLast?, isspace c = false) (hblank : ∀ c ∈ blank, isspace c)
    (after : Text) (start : ℕ) :
    search (before ++ (blank ++ ',' :: after)) start =
      some (blank ++ ',' :: after.takeWhile isspace,
        start + before.length + (blank ++ ',' :: after.takeWhile isspace).length) := by
  induction before generalizing start with
  | nil =>
      obtain ⟨c, cs, hcons⟩ := List.exists_cons_of_ne_nil
        (List.append_ne_nil_of_right_ne_nil blank (List.cons_ne_nil ',' after))
      have hmatch := matchComma_blank hblank after
      rw [hcons] at hmatch
      rw [List.nil_append, hcons, search, hmatch]
      rfl
  | cons c cs ih =>
      rw [List.mem_cons, not_or] at hbefore
      have hnone : matchComma (c :: cs ++ (blank ++ ',' :: after)) = none := by
        rw [Option.eq_none_iff_forall_not_mem]
        intro group hgroup
        obtain ⟨blank', after', hblank', htext, -⟩ := matchComma_some hgroup
        rw [← List.append_assoc] at htext
        have hcomma : ',' ∉ c :: cs ++ blank := by
          simp [hbefore.1, hbefore.2, comma_notMem hblank]
        obtain ⟨rfl, -⟩ := sep_inj hcomma (comma_notMem hblank') htext
        have hspace := hblank' _
          (List.mem_append_left blank (List.getLast_mem (List.cons_ne_nil c cs)))
        rw [hlast _ (List.getLast?_eq_some_getLast (List.cons_ne_nil c cs))] at hspace
        cases hspace
      rw [List.cons_append] at hnone ⊢
      rw [search, hnone]
      dsimp only
      rw [ih hbefore.2 ?_]
      · simp only [List.length_cons]
        congr 2
        omega
      · intro d hd
        refine hlast d ?_
        rw [List.getLast?_cons, hd]
        rfl

theorem replaceFirst_infix (hold : old ≠ []) (h : old <:+: text) (new : Text) :
    ∃ u v, text = u ++ old ++ v ∧ replaceFirst old new text = u ++ new ++ v := by
  induction text with
  | nil => exact absurd (List.infix_nil.mp h) hold
  | cons c cs ih =>
      rw [replaceFirst]
      split
      case isTrue hprefix =>
        obtain ⟨v, hv⟩ := List.isPrefixOf_iff_prefix.mp hprefix
        refine ⟨[], v, hv.symm, ?_⟩
        rw [← hv, List.drop_left]
        rfl
      case isFalse hprefix =>
        rw [List.isPrefixOf_iff_prefix] at hprefix
        obtain ⟨u, v, rfl, hreplace⟩ := ih ((List.infix_cons_iff.mp h).resolve_left hprefix)
        exact ⟨c :: u, v, rfl, congrArg (c :: ·) hreplace⟩

/-- Only the first comma can be replaced before the first comma. -/
theorem replaceFirst_first (hbefore : ',' ∉ before) (hblank : ',' ∉ blank) (space after : Text) :
    replaceFirst (blank ++ ',' :: space) [','] (before ++ (blank ++ ',' :: (space ++ after))) =
      before ++ ',' :: after := by
  induction before with
  | nil =>
      obtain ⟨c, cs, hcons⟩ := List.exists_cons_of_ne_nil
        (List.append_ne_nil_of_right_ne_nil blank (List.cons_ne_nil ',' (space ++ after)))
      have hprefix : blank ++ ',' :: space <+: c :: cs := ⟨after, by simp [← hcons]⟩
      have hdrop : (c :: cs).drop (blank ++ ',' :: space).length = after := by
        rw [← hcons, ← List.cons_append, ← List.append_assoc, List.drop_left]
      rw [List.nil_append, hcons, replaceFirst, if_pos (List.isPrefixOf_iff_prefix.mpr hprefix),
        hdrop]
      rfl
  | cons c cs ih =>
      rw [List.mem_cons, not_or] at hbefore
      have hprefix :
          ¬blank ++ ',' :: space <+: c :: (cs ++ (blank ++ ',' :: (space ++ after))) := by
        rintro ⟨rest, hrest⟩
        have hcomma : ',' ∉ c :: cs ++ blank := by simp [hbefore.1, hbefore.2, hblank]
        have heq : blank ++ ',' :: (space ++ rest) =
            c :: cs ++ blank ++ ',' :: (space ++ after) := by simpa using hrest
        have hlength := congrArg List.length (sep_inj hblank hcomma heq).1
        simp only [List.length_append, List.length_cons] at hlength
        omega
      rw [List.cons_append, replaceFirst, if_neg (by rwa [List.isPrefixOf_iff_prefix]),
        ih hbefore.2, List.cons_append]

theorem getLast?_rdropWhile (text : Text) :
    ∀ c ∈ (text.rdropWhile isspace).getLast?, isspace c = false := by
  intro c hc
  obtain ⟨hne, rfl⟩ := List.mem_getLast?_eq_getLast hc
  simpa using List.rdropWhile_last_not isspace text hne

theorem head?_dropWhile (text : Text) :
    ∀ c ∈ (text.dropWhile isspace).head?, isspace c = false := by
  intro c hc
  have hnot := List.head?_dropWhile_not isspace text
  rwa [Option.mem_def.mp hc] at hnot

theorem eq_nil_of_getLast? (hblank : ∀ c ∈ blank, isspace c)
    (hlast : ∀ c ∈ (before ++ blank).getLast?, isspace c = false) : blank = [] := by
  by_contra hne
  have hspace := hblank _ (List.getLast_mem hne)
  rw [hlast _ (by rw [List.getLast?_append, List.getLast?_eq_some_getLast hne]; rfl)] at hspace
  cases hspace

theorem eq_nil_of_head? (hblank : ∀ c ∈ blank, isspace c)
    (hhead : ∀ c ∈ (blank ++ after).head?, isspace c = false) : blank = [] := by
  cases blank with
  | nil => rfl
  | cons c cs =>
      have hspace := hblank c List.mem_cons_self
      rw [hhead c rfl] at hspace
      cases hspace

/-! ## The loop -/

theorem closeCommas_end (h : ',' ∉ text.drop pos) (fuel : ℕ) :
    closeCommas (fuel + 1) text pos = some text := by
  rw [closeCommas, search_of_notMem h]

/-- The first turn of the loop closes the first comma; the next search starts where the
match ended before the replacement. -/
theorem closeCommas_first (hbefore : ',' ∉ before) (after : Text) (fuel : ℕ) :
    closeCommas (fuel + 1) (before ++ ',' :: after) 0 =
      closeCommas fuel (before.rdropWhile isspace ++ ',' :: after.dropWhile isspace)
        (before.length + 1 + (after.takeWhile isspace).length) := by
  have hblank : ∀ c ∈ before.rtakeWhile isspace, isspace c := fun c hc =>
    List.mem_rtakeWhile_imp hc
  have hsplit : before.rdropWhile isspace ++ before.rtakeWhile isspace = before :=
    List.rdropWhile_append_rtakeWhile ..
  have htext : before ++ ',' :: after = before.rdropWhile isspace ++
      (before.rtakeWhile isspace ++ ',' :: after) := by
    rw [← List.append_assoc, hsplit]
  have hfirst : ',' ∉ before.rdropWhile isspace := fun hmem =>
    hbefore ((List.rdropWhile_prefix isspace before).subset hmem)
  have hlast := getLast?_rdropWhile before
  have hafter : after.takeWhile isspace ++ after.dropWhile isspace = after :=
    List.takeWhile_append_dropWhile
  have hreplace := replaceFirst_first hfirst (comma_notMem hblank) (after.takeWhile isspace)
    (after.dropWhile isspace)
  rw [hafter] at hreplace
  have hlength := congrArg List.length hsplit
  rw [List.length_append] at hlength
  rw [closeCommas, List.drop_zero, htext, search_first hfirst hlast hblank]
  dsimp only
  rw [hreplace]
  congr 1
  rw [List.length_append, List.length_cons]
  omega

/-! ## What the loop keeps -/

theorem infix_of_search (h : search text start = some (group, stop)) :
    ∃ blank blank', (∀ c ∈ blank, isspace c) ∧ (∀ c ∈ blank', isspace c) ∧
      group = blank ++ ',' :: blank' ∧ group <:+: text := by
  obtain ⟨u, blank, after, hblank, rfl, rfl⟩ := search_some h
  refine ⟨blank, after.takeWhile isspace, hblank, fun c hc => List.mem_takeWhile_imp hc, rfl, u,
    after.dropWhile isspace, ?_⟩
  simp [List.takeWhile_append_dropWhile]

theorem FirstClosed.replace (h : FirstClosed text) {u v blank' : Text}
    (hblank : ∀ c ∈ blank, isspace c) (hblank' : ∀ c ∈ blank', isspace c)
    (htext : text = u ++ (blank ++ ',' :: blank') ++ v) : FirstClosed (u ++ [','] ++ v) := by
  obtain ⟨before, after, rfl, hbefore, hlast, hhead⟩ := h
  by_cases hmem : ',' ∈ u
  · obtain ⟨first, rest, rfl, hfirst⟩ := List.eq_append_cons_of_mem hmem
    have hsame : before ++ ',' :: after =
        first ++ ',' :: (rest ++ (blank ++ ',' :: blank') ++ v) := by
      simpa using htext
    obtain ⟨rfl, rfl⟩ := sep_inj hbefore hfirst hsame
    refine ⟨before, rest ++ [','] ++ v, by simp, hbefore, hlast, ?_⟩
    cases rest with
    | nil =>
        rintro c ⟨⟩
        exact isspace_comma
    | cons c cs => exact hhead
  · have hsame : before ++ ',' :: after = u ++ blank ++ ',' :: (blank' ++ v) := by
      simpa using htext
    obtain ⟨rfl, rfl⟩ := sep_inj hbefore (by simp [hmem, comma_notMem hblank]) hsame
    obtain rfl := eq_nil_of_getLast? hblank hlast
    obtain rfl := eq_nil_of_head? hblank' hhead
    rw [List.append_nil] at hlast
    exact ⟨u, v, by simp, hmem, hlast, hhead⟩

/-- However the loop goes on, it only deletes white space next to commas, and none comes back
at the first comma. -/
theorem closeCommas_keeps (hfirst : FirstClosed text)
    (h : closeCommas fuel text pos = some closed) :
    FirstClosed closed ∧ Respaced isspace ',' text closed := by
  induction fuel generalizing text pos with
  | zero => cases h
  | succ fuel ih =>
      rw [closeCommas] at h
      split at h
      case h_1 =>
        cases h
        exact ⟨hfirst, .refl _⟩
      case h_2 group stop hfound =>
        obtain ⟨blank, blank', hblank, hblank', hgroup, hoccurs⟩ := infix_of_search hfound
        obtain ⟨u, v, htext, hreplace⟩ := replaceFirst_infix (search_bounds hfound).1
          (hoccurs.trans (List.drop_suffix pos text).isInfix) [',']
        rw [hreplace] at h
        rw [hgroup] at htext
        obtain ⟨hclosed, hrespaced⟩ := ih (hfirst.replace hblank hblank' htext) h
        refine ⟨hclosed, .trans _ _ _ (.symm _ _ (.rel _ _ ?_)) hrespaced⟩
        exact ⟨u, v, blank, blank', hblank, hblank', by simp, by simp [htext]⟩

theorem FirstClosed.of_strip (hbefore : ',' ∉ before) (after : Text) :
    FirstClosed (before.rdropWhile isspace ++ ',' :: after.dropWhile isspace) :=
  ⟨_, _, rfl, fun hmem => hbefore ((List.rdropWhile_prefix isspace before).subset hmem),
    getLast?_rdropWhile before, head?_dropWhile after⟩

theorem closeCommas_spec (hmem : ',' ∈ text)
    (h : closeCommas (fuel + 1) text 0 = some closed) :
    FirstClosed closed ∧ Respaced isspace ',' text closed := by
  obtain ⟨before, after, rfl, hbefore⟩ := List.eq_append_cons_of_mem hmem
  rw [closeCommas_first hbefore] at h
  obtain ⟨hclosed, hrespaced⟩ := closeCommas_keeps (.of_strip hbefore after) h
  exact ⟨hclosed, .trans _ _ _ (respaced_sep before after) hrespaced⟩

/-! ## Texts where the loop ends after its first turn -/

theorem closeCommas_single (hbefore : ',' ∉ before) (hafter : ',' ∉ after) :
    closeCommas ((before ++ ',' :: after).length + 1) (before ++ ',' :: after) 0 =
      some (before.rdropWhile isspace ++ ',' :: after.dropWhile isspace) := by
  rw [closeCommas_first hbefore, List.length_append, List.length_cons, ← Nat.add_assoc]
  refine closeCommas_end (fun hmem => hafter ?_) _
  have hle := (List.rdropWhile_prefix isspace before).length_le
  obtain ⟨n, hn⟩ := Nat.exists_eq_add_of_le hle
  have hpos : before.length + 1 + (after.takeWhile isspace).length =
      (before.rdropWhile isspace ++ [',']).length + (n + (after.takeWhile isspace).length) := by
    rw [List.length_append, List.length_singleton]
    omega
  rw [hpos, List.append_cons _ ',' (after.dropWhile isspace), List.drop_length_add_append] at hmem
  exact (List.dropWhile_suffix isspace).subset ((List.drop_suffix _ _).subset hmem)

/-- With enough spaces before the first comma the search starts behind the text. -/
theorem closeCommas_far (hbefore : ',' ∉ before)
    (hlast : ∀ c ∈ before.getLast?, isspace c = false)
    (hhead : ∀ c ∈ after.head?, isspace c = false) :
    closeCommas ((before ++ List.replicate after.length ' ' ++ ',' :: after).length + 1)
      (before ++ List.replicate after.length ' ' ++ ',' :: after) 0 =
        some (before ++ ',' :: after) := by
  have hblank : ∀ c ∈ List.replicate after.length ' ', isspace c := by
    intro c hc
    rw [List.eq_of_mem_replicate hc]
    decide
  rw [closeCommas_first (by simp [hbefore, comma_notMem hblank]), rdropWhile_append_space hblank,
    rdropWhile_eq_self hlast, dropWhile_eq_self hhead, List.length_append, List.length_cons,
    ← Nat.add_assoc]
  refine closeCommas_end ?_ _
  rw [List.drop_of_length_le]
  · exact List.not_mem_nil
  · simp only [List.length_append, List.length_cons, List.length_replicate]
    omega

end OsLabs.Generator
