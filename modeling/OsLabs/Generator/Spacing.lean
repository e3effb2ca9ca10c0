import OsLabs.Generator.Commas
import OsLabs.Generator.Grammar

/-!
# Space around commas

For which programs spaces and tabs around the commas make no difference to the parser.
-/

namespace OsLabs.Generator

open Squeeze
open OsLabs.PyText (isspace split)

variable {program other text before after blank closed a b a' b' : Text}
  {W ts rest : List Text} {as : List Action} {ns : List ℤ} {c : Char}

def isBlank (c : Char) : Bool := c = ' ' ∨ c = '\t'

/-- The action list, or `none` for a rejection. -/
def Outcome.result : Outcome → Option (List Text)
  | .returns action_list => some action_list
  | _ => none

/-- Spaces and tabs that are inserted or deleted around commas leave the result unchanged. -/
def Insensitive (program : Text) : Prop :=
  ∀ other, Respaced isBlank ',' program other →
    (parse other).map Outcome.result = (parse program).map Outcome.result

/-- The tokens of a text whose commas stay as they are. -/
def words (text : Text) : List Text := split (text.flatMap spaceBrace)

def WellFormed (text : Text) : Prop := ∃ as, Reads (words text) as [0]

/-- All white space next to the commas is spaces and tabs. -/
def PlainCommas (program : Text) : Prop :=
  squeeze isBlank ',' program = squeeze isspace ',' program

/-- Without white space at the first comma, no white space at the other commas makes the
program well formed. -/
def Hopeless (program : Text) : Prop :=
  ∀ text, Respaced isspace ',' program text → FirstClosed text → ¬WellFormed text

theorem isspace_of_isBlank (h : isBlank c = true) : isspace c = true := by
  obtain rfl | rfl : c = ' ' ∨ c = '\t' := by simpa [isBlank] using h
  · decide
  · decide

theorem isBlank_comma : isBlank ',' = false := by decide

theorem isBlank_of_isspace {ends : Option Char} (h : ∀ c ∈ ends, isspace c = false) :
    ∀ c ∈ ends, isBlank c = false := by
  intro c hc
  by_contra hblank
  have hspace := isspace_of_isBlank (Bool.eq_true_of_not_eq_false hblank)
  rw [h c hc] at hspace
  cases hspace

/-! ## The result -/

theorem parse_result (hclosed : closeCommas (program.length + 1) program 0 = some closed) :
    ∃ result, (parse program).map Outcome.result = some result ∧
      ∀ action_list, result = some action_list ↔
        ∃ as, Reads (words closed) as [0] ∧ action_list = as.map Action.text := by
  obtain ⟨ts, outcome, hts, -, hparse, hreturns, -⟩ := parse_spec program
  have hwords : tokens program = some (words closed) := by
    rw [tokens, hclosed]
    exact congrArg (fun text => some (split text)) (replaceAll_braces closed)
  obtain rfl := Option.some.inj (hwords.symm.trans hts)
  refine ⟨outcome.result, by rw [hparse, Option.map_some], fun action_list => ?_⟩
  rw [← hreturns]
  cases outcome with
  | returns found => simp [Outcome.result]
  | exits printed => simp [Outcome.result]
  | raises error => simp [Outcome.result]

theorem result_of_not_wellFormed
    (hclosed : closeCommas (program.length + 1) program 0 = some closed)
    (h : ¬WellFormed closed) : (parse program).map Outcome.result = some none := by
  obtain ⟨result, hresult, hiff⟩ := parse_result hclosed
  rw [hresult, Option.some_inj, Option.eq_none_iff_forall_not_mem]
  intro action_list hmem
  obtain ⟨as, hreads, -⟩ := (hiff action_list).mp hmem
  exact h ⟨as, hreads⟩

/-- The result depends on the words only. -/
theorem result_congr (hclosed : closeCommas (program.length + 1) program 0 = some closed)
    (hclosed' : closeCommas (other.length + 1) other 0 = some closed) :
    (parse other).map Outcome.result = (parse program).map Outcome.result := by
  obtain ⟨result, hresult, hiff⟩ := parse_result hclosed
  obtain ⟨result', hresult', hiff'⟩ := parse_result hclosed'
  rw [hresult, hresult', Option.some_inj]
  ext action_list
  rw [hiff action_list, hiff' action_list]

/-! ## Programs that spaces and tabs make no difference to -/

theorem insensitive_of_hopeless (hmem : ',' ∈ program) (h : Hopeless program) :
    Insensitive program := by
  have hnone : ∀ other, Respaced isspace ',' program other → ',' ∈ other →
      (parse other).map Outcome.result = some none := by
    intro other hother hcomma
    obtain ⟨closed, hclosed⟩ := closeCommas_ends (Nat.le_add_left other.length 0)
    obtain ⟨hfirst, hspaced⟩ := closeCommas_spec hcomma hclosed
    exact result_of_not_wellFormed hclosed (h closed (.trans _ _ _ hother hspaced) hfirst)
  intro other hother
  have hwide := hother.mono fun c => isspace_of_isBlank (c := c)
  have hcomma : ',' ∈ other := by
    have hlength := congrArg List.length (hwide.squeeze_eq isspace_comma)
    rw [length_squeeze, length_squeeze, Nat.add_right_cancel_iff] at hlength
    rwa [← List.count_pos_iff, ← hlength, List.count_pos_iff]
  rw [hnone other hwide hcomma, hnone program (.refl _) hmem]

theorem insensitive_of_single (h : program.count ',' ≤ 1) : Insensitive program := by
  intro other hother
  have hsame := (hother.mono fun c => isspace_of_isBlank (c := c)).squeeze_eq isspace_comma
  by_cases hmem : ',' ∈ program
  · obtain ⟨before, after, rfl, hbefore⟩ := List.eq_append_cons_of_mem hmem
    have hafter : ',' ∉ after := by
      rw [← List.count_eq_zero]
      rw [List.count_append, List.count_cons_self] at h
      omega
    have hnext : ',' ∉ after.dropWhile isspace := fun hin =>
      hafter ((List.dropWhile_suffix isspace).subset hin)
    rw [squeeze_sep isspace_comma hbefore, squeeze_of_notMem hnext] at hsame
    obtain ⟨before', after', rfl, hbefore', hfirst, hrest⟩ :=
      squeeze_eq_cons isspace_comma (List.cons_ne_nil _ _) hsame.symm
    obtain ⟨hnext', hsecond⟩ := squeeze_eq_singleton isspace_comma hrest
    have hafter' : ',' ∉ after' := by
      intro hin
      rw [← List.takeWhile_append_dropWhile (p := isspace) (l := after')] at hin
      obtain hin | hin := List.mem_append.mp hin
      · exact comma_notMem (fun c hc => List.mem_takeWhile_imp hc) hin
      · exact hnext' hin
    have hclosed := closeCommas_single hbefore hafter
    have hclosed' := closeCommas_single hbefore' hafter'
    rw [hfirst, hsecond] at hclosed'
    exact result_congr hclosed hclosed'
  · rw [squeeze_of_notMem hmem] at hsame
    rw [(squeeze_eq_singleton isspace_comma hsame.symm).2]

/-! ## Words -/

theorem spaceBrace_of_isspace (h : isspace c = true) : spaceBrace c = [c] := by
  unfold spaceBrace
  rw [if_neg (by rintro rfl; revert h; decide), if_neg (by rintro rfl; revert h; decide)]

theorem words_space (h : isspace c = true) (u v : Text) :
    words (u ++ c :: v) = words u ++ words v := by
  unfold words split
  rw [List.flatMap_append, List.flatMap_cons, spaceBrace_of_isspace h, List.singleton_append,
    List.splitOnP_append_cons _ _ h, List.filter_append]

theorem words_blank (hne : blank ≠ []) (hblank : ∀ c ∈ blank, isspace c) (u v : Text) :
    words (u ++ (blank ++ v)) = words u ++ words v := by
  induction blank generalizing u with
  | nil => exact absurd rfl hne
  | cons c cs ih =>
      obtain ⟨hc, hcs⟩ := List.forall_mem_cons.mp hblank
      rw [List.cons_append, words_space hc]
      congr 1
      by_cases hnil : cs = []
      · rw [hnil, List.nil_append]
      · exact ih hnil hcs []

/-- A text without white space and braces. -/
def Solid (text : Text) : Prop :=
  ∀ c ∈ text, isspace c = false ∧ c ≠ '\x7b' ∧ c ≠ '\x7d'

theorem solid_comma : Solid [','] := List.forall_mem_singleton.mpr (by decide)

theorem Solid.flatMap_spaceBrace (h : Solid text) : text.flatMap spaceBrace = text := by
  induction text with
  | nil => rfl
  | cons c cs ih =>
      obtain ⟨⟨-, hopen, hclose⟩, hcs⟩ := List.forall_mem_cons.mp h
      rw [List.flatMap_cons, ih hcs, spaceBrace, if_neg hopen, if_neg hclose]
      rfl

theorem splitOnP_append (text : Text) :
    ∃ pieces last, ∀ y : Text, (∀ c ∈ y, isspace c = false) →
      (text ++ y).splitOnP isspace = pieces ++ [last ++ y] := by
  induction text with
  | nil => exact ⟨[], [], fun y hy => List.splitOnP_eq_singleton hy⟩
  | cons c cs ih =>
      obtain ⟨pieces, last, hsplit⟩ := ih
      by_cases hc : isspace c = true
      · refine ⟨[] :: pieces, last, fun y hy => ?_⟩
        rw [List.cons_append, List.splitOnP_cons_eq_if_modifyHead, if_pos hc, hsplit y hy]
        rfl
      · cases pieces with
        | nil =>
            refine ⟨[], c :: last, fun y hy => ?_⟩
            rw [List.cons_append, List.splitOnP_cons_eq_if_modifyHead, if_neg hc, hsplit y hy]
            rfl
        | cons piece pieces =>
            refine ⟨(c :: piece) :: pieces, last, fun y hy => ?_⟩
            rw [List.cons_append, List.splitOnP_cons_eq_if_modifyHead, if_neg hc, hsplit y hy]
            rfl

/-- What follows a text without white space and braces goes to its last word. -/
theorem words_append (text : Text) :
    ∃ before last, ∀ y, Solid y → last ++ y ≠ [] →
      words (text ++ y) = before ++ [last ++ y] := by
  obtain ⟨pieces, last, hsplit⟩ := splitOnP_append (text.flatMap spaceBrace)
  refine ⟨pieces.filter fun token => token ≠ [], last, fun y hy hne => ?_⟩
  have hlast : [last ++ y].filter (fun token => token ≠ []) = [last ++ y] :=
    List.filter_eq_self.mpr (by simpa using hne)
  rw [words, split, List.flatMap_append, hy.flatMap_spaceBrace,
    hsplit y fun c hc => (hy c hc).1, List.filter_append, hlast]

theorem words_brace (hc : c = '\x7b' ∨ c = '\x7d') (text : Text) :
    words (text ++ [c]) = words text ++ [[c]] := by
  have hspaced : (text ++ [c]).flatMap spaceBrace = text.flatMap spaceBrace ++ ' ' :: [c, ' '] := by
    rw [List.flatMap_append, List.flatMap_singleton]
    obtain rfl | rfl := hc
    · rfl
    · rfl
  have hword : ([c, ' '].splitOnP isspace).filter (fun token => token ≠ []) = [[c]] := by
    obtain rfl | rfl := hc
    · rfl
    · rfl
  rw [words, split, hspaced, List.splitOnP_append_cons _ _ (by decide), List.filter_append, hword]
  rfl

/-! ## Commas between tokens -/

theorem concat_eq_append {token last : Text} (h : ts ++ [last] = W ++ token :: rest) :
    token = last ∧ W = ts ∨ ∃ rest, ts = W ++ token :: rest := by
  cases rest using List.reverseRecOn with
  | nil =>
      obtain ⟨rfl, hlast⟩ := List.append_inj' h rfl
      exact .inl ⟨(List.cons_eq_cons.mp hlast).1.symm, rfl⟩
  | append_singleton rest x =>
      rw [← List.cons_append, ← List.append_assoc] at h
      exact .inr ⟨rest, (List.append_inj' h rfl).1⟩

/-- A token with a comma has only one and comes right after a fork. -/
theorem Reads.before_comma (h : Reads ts as ns) {token : Text} (hcomma : ',' ∈ token)
    (hts : ts = W ++ token :: rest) :
    token.count ',' = 1 ∧ ∃ ts as ns, W = ts ++ ["fork".toList] ∧ Reads ts as ns := by
  have hne : ∀ other : Text, ',' ∉ other → token ≠ other := by
    rintro other hother rfl
    exact hother hcomma
  induction h generalizing rest with
  | start => cases List.append_ne_nil_of_right_ne_nil W (List.cons_ne_nil token rest) hts.symm
  | @fork ts as n ns args name time h hargs ih =>
      have hsplit : ts ++ ["fork".toList] ++ [args] ++ [lbrace] = W ++ token :: rest := by
        simpa using hts
      obtain ⟨heq, -⟩ | ⟨rest, hrest⟩ := concat_eq_append hsplit
      · exact absurd heq (hne _ (by decide))
      obtain ⟨rfl, hW⟩ | ⟨rest, hrest⟩ := concat_eq_append hrest
      · have hcount := length_splitOn ',' token
        rw [hargs] at hcount
        exact ⟨(Nat.succ.inj hcount).symm, ts, as, n :: ns, hW, h⟩
      obtain ⟨heq, -⟩ | ⟨rest, hrest⟩ := concat_eq_append hrest
      · exact absurd heq (hne _ (by decide))
      · exact ih hrest
  | @wait ts as n ns h ih =>
      obtain ⟨heq, -⟩ | ⟨rest, hrest⟩ := concat_eq_append hts
      · exact absurd heq (hne _ (by decide))
      · exact ih hrest
  | @exit ts as n ns h ih =>
      obtain ⟨heq, -⟩ | ⟨rest, hrest⟩ := concat_eq_append hts
      · exact absurd heq (hne _ (by decide))
      · exact ih hrest

theorem Reads.ne_fork (h : Reads ts as ns) : ts.getLast? ≠ some "fork".toList := by
  cases h with
  | start => decide
  | fork => simp [lbrace]
  | wait => simp [waitText]
  | exit => simp [rbrace]

theorem not_wellFormed_twoCommas (text after : Text) :
    ¬WellFormed (text ++ ',' :: ',' :: ' ' :: after) := by
  rintro ⟨as, hreads⟩
  obtain ⟨before, last, hlast⟩ := words_append text
  have hsolid : Solid [',', ','] := List.forall_mem_cons.mpr ⟨by decide, solid_comma⟩
  have hwords : words (text ++ ',' :: ',' :: ' ' :: after) =
      before ++ (last ++ [',', ',']) :: words after := by
    have happend : text ++ ',' :: ',' :: ' ' :: after = text ++ [',', ','] ++ ' ' :: after := by
      simp
    rw [happend, words_space (by decide), hlast _ hsolid (by simp)]
    simp
  have hcount := (hreads.before_comma (by simp) hwords).1
  rw [List.count_append] at hcount
  simp at hcount

/-- A comma between two spaces makes a token of its own, a comma behind a word belongs to it;
only one of the two can come right after a fork. -/
theorem not_wellFormed_both (hc : isspace c = false) (text after : Text)
    (hspaced : WellFormed (text ++ [c] ++ ' ' :: ',' :: ' ' :: after)) :
    ¬WellFormed (text ++ [c] ++ ',' :: ' ' :: after) := by
  rintro ⟨as', hreads'⟩
  obtain ⟨as, hreads⟩ := hspaced
  have hcomma : words ([','] ++ ' ' :: after) = [','] :: words after := by
    rw [words_space (by decide)]
    rfl
  have hwords : words (text ++ [c] ++ ' ' :: ',' :: ' ' :: after) =
      words (text ++ [c]) ++ [','] :: words after := by
    rw [words_space (by decide), ← hcomma]
    rfl
  have hwords' : words (text ++ [c] ++ ',' :: ' ' :: after) =
      words (text ++ [c, ',']) ++ words after := by
    rw [List.append_cons _ ',', words_space (by decide)]
    simp
  obtain ⟨-, ts, as, ns, hfork, hts⟩ := hreads.before_comma (by simp) hwords
  by_cases hbrace : c = '\x7b' ∨ c = '\x7d'
  · rw [words_brace hbrace] at hfork
    have heq := (List.cons_eq_cons.mp (List.append_inj' hfork rfl).2).1
    have hlength := congrArg List.length heq
    cases hlength
  · rw [not_or] at hbrace
    obtain ⟨before, last, hlast⟩ := words_append text
    have hsolid : Solid [c] := List.forall_mem_singleton.mpr ⟨hc, hbrace⟩
    have hsolid' : Solid [c, ','] := List.forall_mem_cons.mpr ⟨⟨hc, hbrace⟩, solid_comma⟩
    rw [hlast _ hsolid (by simp)] at hfork
    rw [hlast _ hsolid' (by simp), List.append_assoc before] at hwords'
    obtain ⟨-, ts', as', ns', hfork', -⟩ := hreads'.before_comma (by simp) hwords'
    obtain ⟨rfl, -⟩ := List.append_inj' hfork rfl
    exact hts.ne_fork (by rw [hfork', List.getLast?_concat])

/-! ## Words that white space does not change -/

/-- The texts have the same words between any others. -/
def SameWords (a b : Text) : Prop := ∀ u v, words (u ++ (a ++ v)) = words (u ++ (b ++ v))

theorem SameWords.refl (a : Text) : SameWords a a := fun _ _ => rfl

theorem SameWords.append (h : SameWords a b) (h' : SameWords a' b') :
    SameWords (a ++ a') (b ++ b') := by
  intro u v
  have hfirst := h u (a' ++ v)
  have hsecond := h' (u ++ b) v
  rw [List.append_assoc, List.append_assoc] at hsecond
  rw [List.append_assoc, List.append_assoc, hfirst, hsecond]

/-- A space stands for any white space. -/
theorem exists_sameWords_blank (hblank : ∀ c ∈ blank, isspace c) :
    ∃ space, SameWords blank space ∧ (blank = [] → space = []) ∧ ∀ c ∈ space, isBlank c := by
  by_cases hne : blank = []
  · subst hne
    exact ⟨[], .refl _, fun _ => rfl, nofun⟩
  · refine ⟨[' '], fun u v => ?_, fun h => absurd h hne, List.forall_mem_singleton.mpr (by decide)⟩
    rw [words_blank hne hblank, List.singleton_append, words_space (by decide)]

theorem head?_rdropWhile (hhead : ∀ c ∈ text.head?, isspace c = false) :
    (text.rdropWhile isspace).head? = text.head? := by
  cases text with
  | nil => rfl
  | cons c cs =>
      have hne : (c :: cs).rdropWhile isspace ≠ [] := by
        intro hnil
        have hspace := List.rdropWhile_eq_nil_iff.mp hnil c List.mem_cons_self
        rw [hhead c rfl] at hspace
        cases hspace
      obtain ⟨d, ds, hcons⟩ := List.exists_cons_of_ne_nil hne
      have hprefix := List.rdropWhile_prefix isspace (c :: cs)
      rw [hcons, List.cons_prefix_cons] at hprefix
      rw [hcons, hprefix.1]
      rfl

/-- White space next to commas can be replaced by spaces and tabs without a change of the
words. -/
theorem exists_respaced (text : Text) (hhead : ∀ c ∈ text.head?, isspace c = false) :
    ∃ other, squeeze isBlank ',' other = squeeze isspace ',' text ∧
      other.head? = text.head? ∧ SameWords text other := by
  induction hlength : text.length using Nat.strong_induction_on generalizing text with
  | h length ih =>
      by_cases hmem : ',' ∈ text
      · obtain ⟨before, after, rfl, hbefore⟩ := List.eq_append_cons_of_mem hmem
        have hle := (List.dropWhile_suffix isspace (l := after)).length_le
        simp only [List.length_append, List.length_cons] at hlength
        obtain ⟨other, hother, hfirst, hwords⟩ :=
          ih _ (by omega) (after.dropWhile isspace) (head?_dropWhile after) rfl
        have hright : ∀ c ∈ before.rtakeWhile isspace, isspace c := fun c hc =>
          List.mem_rtakeWhile_imp hc
        have hleft : ∀ c ∈ after.takeWhile isspace, isspace c := fun c hc =>
          List.mem_takeWhile_imp hc
        obtain ⟨blank, hblank, hnil, hspaces⟩ := exists_sameWords_blank hright
        obtain ⟨blank', hblank', -, hspaces'⟩ := exists_sameWords_blank hleft
        refine ⟨before.rdropWhile isspace ++ blank ++ ',' :: (blank' ++ other), ?_, ?_, ?_⟩
        · have hstrip : ',' ∉ before.rdropWhile isspace := fun hin =>
            hbefore ((List.rdropWhile_prefix isspace before).subset hin)
          rw [squeeze_insert isBlank_comma hspaces hspaces', squeeze_sep isBlank_comma hstrip,
            squeeze_sep isspace_comma hbefore,
            rdropWhile_eq_self (isBlank_of_isspace (getLast?_rdropWhile before)),
            dropWhile_eq_self (isBlank_of_isspace (hfirst ▸ head?_dropWhile after)), hother]
        · cases before with
          | nil =>
              rw [hnil rfl]
              rfl
          | cons c cs =>
              have hkept : ((c :: cs).rdropWhile isspace).head? = some c :=
                head?_rdropWhile hhead
              cases hstrip : (c :: cs).rdropWhile isspace with
              | nil =>
                  rw [hstrip] at hkept
                  cases hkept
              | cons d ds =>
                  rw [hstrip] at hkept
                  exact hkept
        · have hsplit := (SameWords.refl (before.rdropWhile isspace)).append hblank
          have hsplit' := hblank'.append hwords
          rw [List.rdropWhile_append_rtakeWhile] at hsplit
          rw [List.takeWhile_append_dropWhile] at hsplit'
          have hcomma := hsplit.append ((SameWords.refl [',']).append hsplit')
          simpa only [List.singleton_append] using hcomma
      · refine ⟨text, ?_, rfl, .refl text⟩
        rw [squeeze_of_notMem hmem, squeeze_of_notMem hmem]

/-! ## Programs that spaces and tabs make a difference to -/

theorem Insensitive.wellFormed_iff (h : Insensitive program) (hbefore : ',' ∉ before)
    (hlast : ∀ c ∈ before.getLast?, isspace c = false)
    (hhead : ∀ c ∈ after.head?, isspace c = false)
    (hprogram : squeeze isBlank ',' program = squeeze isBlank ',' (before ++ ',' :: after)) :
    WellFormed (before ++ ',' :: after) ↔
      ∃ action_list, (parse program).map Outcome.result = some (some action_list) := by
  have hclosed := closeCommas_far hbefore hlast hhead
  obtain ⟨result, hresult, hiff⟩ := parse_result hclosed
  have hblank : ∀ c ∈ List.replicate after.length ' ', isBlank c := by
    intro c hc
    rw [List.eq_of_mem_replicate hc]
    decide
  have hnil : ∀ c ∈ ([] : Text), isBlank c := nofun
  have hinsert := squeeze_insert isBlank_comma hblank hnil before after
  rw [← h _ ((respaced_iff isBlank_comma).mpr (hprogram.trans hinsert.symm)), List.nil_append,
    hresult]
  constructor
  · rintro ⟨as, hreads⟩
    exact ⟨_, congrArg some ((hiff _).mpr ⟨as, hreads, rfl⟩)⟩
  · rintro ⟨action_list, heq⟩
    obtain ⟨as, hreads, -⟩ := (hiff action_list).mp (Option.some.inj heq)
    exact ⟨as, hreads⟩

/-- With one respaced program all are accepted. -/
theorem Insensitive.wellFormed {rest : Text} (h : Insensitive program)
    (hplain : PlainCommas program)
    (hspaced : Respaced isspace ',' program (before ++ ',' :: after)) (hbefore : ',' ∉ before)
    (hlast : ∀ c ∈ before.getLast?, isspace c = false)
    (hhead : ∀ c ∈ after.head?, isspace c = false) (hwell : WellFormed (before ++ ',' :: after))
    (hrest : ∀ c ∈ rest.head?, isspace c = false)
    (hsqueeze : squeeze isBlank ',' rest = squeeze isspace ',' after) :
    WellFormed (before ++ ',' :: rest) := by
  have hprogram : squeeze isBlank ',' program = before :: squeeze isspace ',' after := by
    rw [hplain, hspaced.squeeze_eq isspace_comma, squeeze_sep isspace_comma hbefore,
      rdropWhile_eq_self hlast, dropWhile_eq_self hhead]
  have hsame : ∀ text, (∀ c ∈ text.head?, isspace c = false) →
      squeeze isBlank ',' text = squeeze isspace ',' after →
      squeeze isBlank ',' program = squeeze isBlank ',' (before ++ ',' :: text) := by
    intro text htext heq
    rw [hprogram, squeeze_sep isBlank_comma hbefore, rdropWhile_eq_self (isBlank_of_isspace hlast),
      dropWhile_eq_self (isBlank_of_isspace htext), heq]
  obtain ⟨other, hother, hfirst, hwords⟩ := exists_respaced after hhead
  have hheadOther : ∀ c ∈ other.head?, isspace c = false := hfirst ▸ hhead
  have hwellOther : WellFormed (before ++ ',' :: other) := by
    have hcomma := hwords (before ++ [',']) []
    simp only [List.append_nil, List.append_assoc, List.singleton_append] at hcomma
    rwa [WellFormed, ← hcomma]
  rw [h.wellFormed_iff hbefore hlast hrest (hsame rest hrest hsqueeze),
    ← h.wellFormed_iff hbefore hlast hheadOther (hsame other hheadOther hother)]
  exact hwellOther

/-- Spaces at the second comma make the program malformed. -/
theorem exists_not_wellFormed (hmem : ',' ∈ after) (hhead : ∀ c ∈ after.head?, isspace c = false)
    (before : Text) :
    ∃ rest, (∀ c ∈ rest.head?, isspace c = false) ∧
      squeeze isBlank ',' rest = squeeze isspace ',' after ∧
        ¬WellFormed (before ++ ',' :: rest) := by
  obtain ⟨other, hother, -, -⟩ := exists_respaced after hhead
  obtain ⟨middle, later, rfl, hmiddle⟩ := List.eq_append_cons_of_mem hmem
  rw [squeeze_sep isspace_comma hmiddle] at hother ⊢
  obtain ⟨middle', later', rfl, -, -, hlater⟩ :=
    squeeze_eq_cons isBlank_comma (squeeze_ne_nil _) hother
  have hlastWord := getLast?_rdropWhile middle
  have hfront := List.rdropWhile_prefix isspace middle
  have hheadWord : middle ≠ [] →
      ∀ c ∈ (middle.rdropWhile isspace).head?, isspace c = false := by
    intro hne
    rw [List.head?_append_of_ne_nil _ hne] at hhead
    rwa [head?_rdropWhile hhead]
  generalize middle.rdropWhile isspace = word at hlastWord hfront hheadWord ⊢
  have hsecond : ∀ blank, (∀ c ∈ blank, isBlank c) →
      squeeze isBlank ',' (word ++ blank ++ ',' :: ([' '] ++ later'.dropWhile isBlank)) =
        word :: squeeze isspace ',' (later.dropWhile isspace) := by
    intro blank hblank
    rw [squeeze_insert isBlank_comma hblank (List.forall_mem_singleton.mpr (by decide)),
      squeeze_sep isBlank_comma (fun hin => hmiddle (hfront.subset hin)),
      rdropWhile_eq_self (isBlank_of_isspace hlastWord), List.dropWhile_idempotent, hlater]
  have htight := hsecond [] nofun
  have hspaced := hsecond [' '] (List.forall_mem_singleton.mpr (by decide))
  obtain rfl | ⟨front, c, hconcat⟩ := List.eq_nil_or_concat word
  · refine ⟨_, ?_, htight, not_wellFormed_twoCommas before _⟩
    rintro c ⟨⟩
    exact isspace_comma
  · rw [List.concat_eq_append] at hconcat
    have hne : word ≠ [] := by simp [hconcat]
    have hmiddleNe : middle ≠ [] := by
      rintro rfl
      exact hne (List.prefix_nil.mp hfront)
    have hstart : ∀ rest, ∀ c ∈ (word ++ rest).head?, isspace c = false := by
      intro rest
      rw [List.head?_append_of_ne_nil _ hne]
      exact hheadWord hmiddleNe
    have hc : isspace c = false := hlastWord c (by rw [hconcat, List.getLast?_concat]; rfl)
    have hboth := not_wellFormed_both hc (before ++ ',' :: front) (later'.dropWhile isBlank)
    by_cases hwell : WellFormed (before ++ ',' ::
        (word ++ [' '] ++ ',' :: ([' '] ++ later'.dropWhile isBlank)))
    · refine ⟨_, by rw [List.append_assoc]; exact hstart _, htight, ?_⟩
      rw [hconcat] at hwell ⊢
      simp only [List.append_assoc, List.cons_append, List.nil_append] at hboth hwell ⊢
      exact hboth hwell
    · exact ⟨_, by rw [List.append_assoc]; exact hstart _, hspaced, hwell⟩

theorem hopeless_of_insensitive (hplain : PlainCommas program) (h : Insensitive program)
    (hcount : 2 ≤ program.count ',') : Hopeless program := by
  rintro text hspaced ⟨before, after, rfl, hbefore, hlast, hhead⟩ hwell
  have hlength := congrArg List.length (hspaced.squeeze_eq isspace_comma)
  rw [length_squeeze, length_squeeze, List.count_append, List.count_cons_self,
    List.count_eq_zero.mpr hbefore] at hlength
  have hmem : ',' ∈ after := List.count_pos_iff.mp (by omega)
  obtain ⟨rest, hrest, hsqueeze, hnot⟩ := exists_not_wellFormed hmem hhead before
  exact hnot (h.wellFormed hplain hspaced hbefore hlast hhead hwell hrest hsqueeze)

/-- Spaces and tabs around the commas make no difference to a program with at most one comma,
nor to one that is malformed with any white space at its commas but none at the first. They
do make a difference to every other program where nothing else than spaces and tabs stands
next to the commas. -/
theorem parse_spacing (program : Text) :
    (program.count ',' ≤ 1 ∨ Hopeless program → Insensitive program) ∧
      (PlainCommas program → Insensitive program →
        program.count ',' ≤ 1 ∨ Hopeless program) := by
  constructor
  · rintro (hsingle | hhopeless)
    · exact insensitive_of_single hsingle
    · by_cases hmem : ',' ∈ program
      · exact insensitive_of_hopeless hmem hhopeless
      · exact insensitive_of_single (by rw [List.count_eq_zero.mpr hmem]; omega)
  · intro hplain hinsensitive
    by_cases hsingle : program.count ',' ≤ 1
    · exact .inl hsingle
    · exact .inr (hopeless_of_insensitive hplain hinsensitive (by omega))

/-- Twelve spaces before the first comma make the loop start its next search behind the second
comma, which then keeps its space. -/
theorem not_insensitive : ¬∀ program, Insensitive program := by
  intro h
  have hspaced : Respaced isBlank ','
      "fork b,1 \x7b\x7d fork c,2 \x7b\x7d wait wait".toList
      "fork b            ,1 \x7b\x7d fork c ,2 \x7b\x7d wait wait".toList := by
    rw [respaced_iff isBlank_comma]
    decide +kernel
  have hsame := h _ _ hspaced
  revert hsame
  decide +kernel

end OsLabs.Generator
