import OsLabs.Lib.CString

/-!
# Command lines

`tsh.c`: `parseline` cuts a copy of the command line in place. An argument ends at a
space, or at the quote that closes it.
-/

namespace OsLabs.Tsh

open CString

def MAXLINE : ℕ := 1024

def MAXARGS : ℕ := 128

def SPACE : UInt8 := 0x20

def QUOTE : UInt8 := 0x27

def AMPERSAND : UInt8 := 0x26

def NEWLINE : UInt8 := 0x0a

/-- Ignore spaces, and find the delimiter of the argument that follows. -/
def nextArg (array : List UInt8) (buf : ℕ) : Except Fault (ℕ × Option ℕ) := do
  let buf ← scan (fun c => c ≠ 0 && c = SPACE) array array.length buf
  let c ← load array buf
  if c = QUOTE then do
    let delim ← strchr array (buf + 1) QUOTE
    return (buf + 1, delim)
  else do
    let delim ← strchr array buf SPACE
    return (buf, delim)

/-- `while (delim)` -/
def buildArgs : ℕ → List UInt8 → List (Option ℕ) → ℕ → ℕ × Option ℕ →
    Except Fault (List UInt8 × List (Option ℕ) × ℕ)
  | 0, _, _, _, _ => .error .running
  | _ + 1, array, argv, argc, (_, none) => .ok (array, argv, argc)
  | fuel + 1, array, argv, argc, (buf, some delim) => do
      let argv ← store argv argc (some buf)
      let array ← store array delim 0
      let next ← nextArg array (delim + 1)
      buildArgs fuel array argv (argc + 1) next

structure Parsed where
  array : List UInt8
  argv : List (Option ℕ)
  bg : Bool
deriving DecidableEq, Repr

/-- `if ((bg = (*argv[argc - 1] == '&')) != 0) argv[--argc] = NULL;` -/
def dropAmpersand (array : List UInt8) (argv : List (Option ℕ)) (argc : ℕ) :
    Except Fault Parsed := do
  match ← load argv (argc - 1) with
  | none => .error .outside
  | some arg => do
      let c ← load array arg
      if c = AMPERSAND then do
        let argv ← store argv (argc - 1) none
        return ⟨array, argv, true⟩
      else return ⟨array, argv, false⟩

/-- `array` and `argv` are what the two arrays hold before the call. -/
def parseline (cmdline array : List UInt8) (argv : List (Option ℕ)) : Except Fault Parsed := do
  let array ← strcpy array cmdline
  let n ← strlen array 0
  if n = 0 then .error .outside
  else do
    let array ← store array (n - 1) SPACE
    let next ← nextArg array 0
    let (array, argv, argc) ← buildArgs array.length array argv 0 next
    let argv ← store argv argc none
    if argc = 0 then return ⟨array, argv, true⟩
    else dropAmpersand array argv argc

/-! ## Tokens -/

variable {s t r w array : List UInt8} {c : UInt8} {p : ℕ}

/-- The tokens of a text: runs of characters other than spaces, and what stands between
two quotes. A quote that is not closed ends the text. -/
def tokens (s : List UInt8) : List (List UInt8) :=
  match _ : s.dropWhile (· = SPACE) with
  | [] => []
  | c :: r =>
      if c = QUOTE then
        if QUOTE ∈ r then r.takeWhile (· ≠ QUOTE) :: tokens ((r.dropWhile (· ≠ QUOTE)).tail)
        else []
      else (c :: r.takeWhile (· ≠ SPACE)) :: tokens (r.dropWhile (· ≠ SPACE))
termination_by s.length
decreasing_by
  all_goals
    have hle := List.length_dropWhile_le (· = SPACE) s
    rw [‹s.dropWhile _ = _›, List.length_cons] at hle
  · have := List.length_dropWhile_le (· ≠ QUOTE) r
    rw [List.length_tail]
    omega
  · have := List.length_dropWhile_le (· ≠ SPACE) r
    omega

theorem tokens_eq (s : List UInt8) : tokens s =
    match s.dropWhile (· = SPACE) with
    | [] => []
    | c :: r =>
        if c = QUOTE then
          if QUOTE ∈ r then r.takeWhile (· ≠ QUOTE) :: tokens ((r.dropWhile (· ≠ QUOTE)).tail)
          else []
        else (c :: r.takeWhile (· ≠ SPACE)) :: tokens (r.dropWhile (· ≠ SPACE)) := by
  rw [tokens]
  split
  · next h => rw [h]
  · next h => rw [h]

theorem dropWhile_spaces {spaces : List UInt8} (hspaces : ∀ c ∈ spaces, c = SPACE)
    (hc : c ≠ SPACE) : (spaces ++ c :: r).dropWhile (· = SPACE) = c :: r := by
  rw [List.dropWhile_append_of_pos fun c hc => decide_eq_true (hspaces c hc)]
  exact List.dropWhile_cons_of_neg (by simpa using hc)

theorem tokens_spaces (h : ∀ c ∈ s, c = SPACE) : tokens s = [] := by
  have hdrop : s.dropWhile (· = SPACE) = [] :=
    List.dropWhile_eq_nil_iff.mpr fun c hc => decide_eq_true (h c hc)
  rw [tokens_eq, hdrop]

theorem tokens_unmatched {spaces : List UInt8} (hspaces : ∀ c ∈ spaces, c = SPACE)
    (ht : QUOTE ∉ t) : tokens (spaces ++ QUOTE :: t) = [] := by
  rw [tokens_eq, dropWhile_spaces hspaces (by decide)]
  dsimp only
  rw [if_pos rfl, if_neg ht]

theorem tokens_quoted {spaces : List UInt8} (hspaces : ∀ c ∈ spaces, c = SPACE)
    (ht : QUOTE ∉ t) (r : List UInt8) :
    tokens (spaces ++ QUOTE :: (t ++ QUOTE :: r)) = t :: tokens r := by
  have hall : ∀ c ∈ t, decide (c ≠ QUOTE) = true := fun c hc =>
    decide_eq_true fun heq => ht (heq ▸ hc)
  rw [tokens_eq, dropWhile_spaces hspaces (by decide)]
  dsimp only
  rw [if_pos rfl, if_pos (by simp), List.takeWhile_append_of_pos hall,
    List.dropWhile_append_of_pos hall]
  simp

theorem tokens_word {spaces : List UInt8} (hspaces : ∀ c ∈ spaces, c = SPACE) (hc : c ≠ QUOTE)
    (hw : SPACE ∉ c :: w) (hr : ∀ x ∈ r.head?, x = SPACE) :
    tokens (spaces ++ c :: (w ++ r)) = (c :: w) :: tokens r := by
  rw [List.mem_cons, not_or] at hw
  have hall : ∀ c ∈ w, decide (c ≠ SPACE) = true := fun c hc =>
    decide_eq_true fun heq => hw.2 (heq ▸ hc)
  rw [tokens_eq, dropWhile_spaces hspaces (Ne.symm hw.1)]
  dsimp only
  rw [if_neg hc, List.takeWhile_append_of_pos hall, List.dropWhile_append_of_pos hall]
  cases r with
  | nil => simp
  | cons x r =>
      obtain rfl := hr x rfl
      simp

theorem tokens_space (r : List UInt8) : tokens (SPACE :: r) = tokens r := by
  rw [tokens_eq, tokens_eq r, List.dropWhile_cons_of_pos (by simp)]

theorem tokens_repeated (hc : c ≠ QUOTE) (hspace : c ≠ SPACE) (n : ℕ) :
    (tokens (List.replicate n [c, SPACE]).flatten).length = n := by
  induction n with
  | zero => rw [List.replicate_zero, List.flatten_nil, tokens_spaces (by simp), List.length_nil]
  | succ n ih =>
      have hword := @tokens_word (SPACE :: (List.replicate n [c, SPACE]).flatten) [] c []
        (by simp) hc (by simpa using Ne.symm hspace) (by simp)
      rw [List.replicate_succ, List.flatten_cons, List.cons_append, List.singleton_append]
      rw [List.nil_append, List.nil_append] at hword
      rw [hword, tokens_space, List.length_cons, ih]

/-- How a text begins: there is no token, or it is quoted, or it is a word. -/
theorem text_cases (s : List UInt8) : (∀ c ∈ s, c = SPACE) ∨
    ∃ spaces c r, s = spaces ++ c :: r ∧ (∀ c ∈ spaces, c = SPACE) ∧
      (c = QUOTE ∧ (QUOTE ∉ r ∨ ∃ t r', QUOTE ∉ t ∧ r = t ++ QUOTE :: r') ∨
        c ≠ QUOTE ∧ ∃ w r', r = w ++ r' ∧ SPACE ∉ c :: w ∧ ∀ x ∈ r'.head?, x = SPACE) := by
  have hsplit := List.takeWhile_append_dropWhile (p := (· = SPACE)) (l := s)
  have hspaces : ∀ c ∈ s.takeWhile (· = SPACE), c = SPACE :=
    fun c hc => by simpa using List.mem_takeWhile_imp hc
  have hhead := List.head?_dropWhile_not (· = SPACE) s
  cases hdrop : s.dropWhile (· = SPACE) with
  | nil =>
      rw [hdrop, List.append_nil] at hsplit
      exact Or.inl (hsplit ▸ hspaces)
  | cons c r =>
      rw [hdrop] at hsplit hhead
      refine Or.inr ⟨_, c, r, hsplit.symm, hspaces, ?_⟩
      by_cases hc : c = QUOTE
      · refine Or.inl ⟨hc, ?_⟩
        by_cases hmem : QUOTE ∈ r
        · obtain ⟨t, r', rfl, ht⟩ := List.eq_append_cons_of_mem hmem
          exact Or.inr ⟨t, r', ht, rfl⟩
        · exact Or.inl hmem
      · refine Or.inr ⟨hc, r.takeWhile (· ≠ SPACE), r.dropWhile (· ≠ SPACE),
          List.takeWhile_append_dropWhile.symm, ?_, fun x hx => ?_⟩
        · intro hmem
          obtain heq | hmem := List.mem_cons.mp hmem
          · exact of_decide_eq_false hhead heq.symm
          · simpa using List.mem_takeWhile_imp hmem
        · have hnot := List.head?_dropWhile_not (· ≠ SPACE) r
          rw [Option.mem_def.mp hx] at hnot
          simpa using hnot

/-- The space in place of the newline adds no token. -/
theorem tokens_append_space (s : List UInt8) : tokens (s ++ [SPACE]) = tokens s := by
  induction hn : s.length using Nat.strong_induction_on generalizing s with
  | h n ih =>
      obtain hall | ⟨spaces, c, r, rfl, hspaces, hcases⟩ := text_cases s
      · rw [tokens_spaces hall, tokens_spaces]
        intro c hc
        obtain hc | hc := List.mem_append.mp hc
        · exact hall c hc
        · exact List.mem_singleton.mp hc
      · simp only [List.length_append, List.length_cons] at hn
        rw [List.append_assoc, List.cons_append]
        obtain ⟨rfl, ht | ⟨t, r', ht, rfl⟩⟩ | ⟨hc, w, r', rfl, hw, hr⟩ := hcases
        · rw [tokens_unmatched hspaces ht, tokens_unmatched hspaces]
          simpa [QUOTE, SPACE] using ht
        · rw [List.append_assoc, List.cons_append, tokens_quoted hspaces ht,
            tokens_quoted hspaces ht, ih r'.length (by simp at hn; omega) r' rfl]
        · rw [List.append_assoc, tokens_word hspaces hc hw hr, tokens_word hspaces hc hw,
            ih r'.length (by simp at hn; omega) r' rfl]
          intro x hx
          cases r' with
          | nil => exact (Option.some.inj hx).symm
          | cons y r' => exact hr x hx

/-! ## Cutting the copy -/

/-- The copy ends in a space, unless it is used up. -/
def Spaced (s : List UInt8) : Prop := ∀ c ∈ s.getLast?, c = SPACE

theorem Spaced.suffix {u r : List UInt8} (h : Spaced (u ++ r)) : Spaced r := by
  cases r with
  | nil => exact nofun
  | cons c r =>
      intro x hx
      refine h x ?_
      rw [List.getLast?_append_of_ne_nil _ (List.cons_ne_nil c r)]
      exact hx

theorem scan_spaces {spaces : List UInt8} (h : IsStr array p (spaces ++ r))
    (hspaces : ∀ c ∈ spaces, c = SPACE) (hr : ∀ c ∈ r.head?, c ≠ SPACE) :
    scan (fun c => c ≠ 0 && c = SPACE) array array.length p = .ok (p + spaces.length) := by
  refine h.scan (fun c hc => ?_) (fun c hc => ?_) rfl
  · rw [hspaces c hc]
    rfl
  · simp [hr c hc]

/-- What `nextArg` finds: nothing, or the first token and its delimiter. -/
theorem nextArg_spec (h : IsStr array p s) (hs : Spaced s) :
    (tokens s = [] ∧ ∃ q, nextArg array p = .ok (q, none)) ∨
    ∃ u t c r, s = u ++ (t ++ c :: r) ∧ tokens s = t :: tokens r ∧
      nextArg array p = .ok (p + u.length, some (p + u.length + t.length)) := by
  obtain hall | ⟨spaces, c, r, rfl, hspaces, hcases⟩ := text_cases s
  · refine Or.inl ⟨tokens_spaces hall, p + s.length, ?_⟩
    have hs' := h
    rw [← List.append_nil s] at hs'
    rw [nextArg, scan_spaces hs' hall nofun, ok_bind, hs'.suffix.load_nil, ok_bind,
      if_neg (by decide), hs'.suffix.strchr_none (List.not_mem_nil) (by decide), ok_bind]
    rfl
  · have hrest := h.suffix
    have hscan (hc : c ≠ SPACE) := scan_spaces h hspaces (fun x hx => by
      rwa [← Option.some.inj hx])
    obtain ⟨rfl, ht | ⟨t, r', ht, rfl⟩⟩ | ⟨hc, w, r', rfl, hw, hr⟩ := hcases
    · refine Or.inl ⟨tokens_unmatched hspaces ht, p + spaces.length + 1, ?_⟩
      rw [nextArg, hscan (by decide), ok_bind, hrest.load_cons, ok_bind, if_pos rfl,
        hrest.tail.strchr_none ht (by decide), ok_bind]
      rfl
    · refine Or.inr ⟨spaces ++ [QUOTE], t, QUOTE, r', by simp, tokens_quoted hspaces ht r', ?_⟩
      rw [nextArg, hscan (by decide), ok_bind, hrest.load_cons, ok_bind, if_pos rfl,
        hrest.tail.strchr_some ht, ok_bind, List.length_append, ← Nat.add_assoc]
      rfl
    · -- the word does not end the copy
      obtain ⟨r'', rfl⟩ : ∃ r'', r' = SPACE :: r'' := by
        cases r' with
        | nil =>
            rw [List.append_nil] at hs
            have hlast := (hs.suffix (u := spaces)) _
              (List.getLast?_eq_some_getLast (List.cons_ne_nil c w))
            exact absurd (hlast ▸ List.getLast_mem (List.cons_ne_nil c w)) hw
        | cons x r'' =>
            obtain rfl := hr x rfl
            exact ⟨r'', rfl⟩
      refine Or.inr ⟨spaces, c :: w, SPACE, r'', by simp, ?_, ?_⟩
      · rw [tokens_word hspaces hc hw hr, tokens_space]
      · rw [← List.cons_append] at hrest
        have hload := hrest
        rw [List.cons_append] at hload
        rw [nextArg, hscan (by simpa using fun heq => hw (by simp [heq])), ok_bind, hload.load_cons,
          ok_bind, if_neg hc, hrest.strchr_some hw, ok_bind]
        rfl

theorem buildArgs_spec {fuel : ℕ} {done : List ℕ} {rest : List (Option ℕ)} {next : ℕ × Option ℕ}
    (h : IsStr array p s) (hs : Spaced s) (hnext : nextArg array p = .ok next)
    (hfuel : s.length < fuel) :
    ∃ ps array', List.Forall₂ (IsStr array') ps (tokens s) ∧ array'.length = array.length ∧
      (∀ q r, q + r.length < p → IsStr array q r → IsStr array' q r) ∧
      buildArgs fuel array (done.map some ++ rest) done.length next =
        if ps.length ≤ rest.length then
          .ok (array', (done ++ ps).map some ++ rest.drop ps.length, (done ++ ps).length)
        else .error .outside := by
  induction fuel generalizing array p s done rest next with
  | zero => exact absurd hfuel (Nat.not_lt_zero _)
  | succ fuel ih =>
      obtain ⟨htokens, q, hq⟩ | ⟨u, t, c, r, rfl, htokens, hq⟩ := nextArg_spec h hs
      · obtain rfl := Except.ok.inj (hq.symm.trans hnext)
        refine ⟨[], array, htokens ▸ List.Forall₂.nil, rfl, fun _ _ _ hstr => hstr, ?_⟩
        rw [buildArgs, List.append_nil]
        exact (if_pos (Nat.zero_le rest.length)).symm
      · obtain rfl := Except.ok.inj (hq.symm.trans hnext)
        obtain ⟨array₁, hstore, hlength, htoken, hrest, hframe⟩ := h.suffix.store_zero
        have hs₁ : Spaced r := by
          have hsplit : Spaced ((u ++ t ++ [c]) ++ r) := by simpa using hs
          exact hsplit.suffix
        obtain ⟨next₁, hnext₁⟩ :
            ∃ next₁, nextArg array₁ (p + u.length + t.length + 1) = .ok next₁ := by
          obtain ⟨-, q, hq⟩ | ⟨_, _, _, _, -, -, hq⟩ := nextArg_spec hrest hs₁
          · exact ⟨_, hq⟩
          · exact ⟨_, hq⟩
        have hlt : r.length < fuel := by
          simp only [List.length_append, List.length_cons] at hfuel
          omega
        obtain ⟨ps, array', hps, hlength', hframe', hrun⟩ :=
          @ih _ array₁ _ (done ++ [p + u.length]) rest.tail next₁ hrest hs₁ hnext₁ hlt
        refine ⟨(p + u.length) :: ps, array', ?_, hlength'.trans hlength,
          fun q r' hq hstr => ?_, ?_⟩
        · rw [htokens]
          exact List.Forall₂.cons (hframe' _ _ (Nat.lt_succ_self _) htoken) hps
        · exact hframe' _ _ (by omega) (hframe _ _ (by omega) hstr)
        · rw [buildArgs]
          cases rest with
          | nil =>
              have hargv := store_length (done.map some) (some (p + u.length))
              rw [List.length_map] at hargv
              rw [List.append_nil, hargv]
              rfl
          | cons x rest =>
              have hargv := store_append (done.map some) x (some (p + u.length)) rest
              rw [List.length_map] at hargv
              rw [hargv, ok_bind, hstore, ok_bind, hnext₁, ok_bind]
              simp only [List.tail_cons, List.map_append, List.map_cons, List.map_nil,
                List.append_assoc, List.length_append, List.length_singleton,
                List.singleton_append] at hrun
              simp only [List.length_cons, Nat.add_le_add_iff_right, List.drop_succ_cons,
                List.map_append, List.map_cons, List.append_assoc, List.length_append,
                List.cons_append]
              exact hrun

/-! ## The whole line -/

/-- The last token asks for the background. -/
def endsInAmpersand (toks : List (List UInt8)) : Bool :=
  toks.getLast?.any fun arg => arg.head? = some AMPERSAND

/-- The tokens without a last one that begins with `&`. -/
def args (text : List UInt8) : List (List UInt8) :=
  if endsInAmpersand (tokens text) then (tokens text).dropLast else tokens text

/-- `argv` is the list of the tokens; a blank line counts as background. -/
structure Parsed.Correct (text : List UInt8) (parsed : Parsed) : Prop where
  bg : parsed.bg = true ↔ tokens text = [] ∨ endsInAmpersand (tokens text) = true
  arguments : Arguments parsed.array parsed.argv (args text)

theorem dropAmpersand_spec {ps : List ℕ} {toks : List (List UInt8)} {rest : List (Option ℕ)}
    (h : List.Forall₂ (IsStr array) ps toks) (hne : toks ≠ []) :
    ∃ argv, dropAmpersand array (ps.map some ++ none :: rest) ps.length =
        .ok ⟨array, argv, endsInAmpersand toks⟩ ∧
      Arguments array argv (if endsInAmpersand toks then toks.dropLast else toks) := by
  obtain ⟨init, arg, rfl⟩ := (List.eq_nil_or_concat' toks).resolve_left hne
  obtain ⟨ps, q, rfl, hps, hq⟩ : ∃ ps' q, ps = ps' ++ [q] ∧ List.Forall₂ (IsStr array) ps' init ∧
      IsStr array q arg := by
    have hlast := List.forall₂_drop_append _ _ _ h
    have hsplit := List.take_append_drop init.length ps
    generalize List.drop init.length ps = lasts at hlast hsplit
    cases hlast with
    | cons hq hnil =>
        cases hnil
        exact ⟨_, _, hsplit.symm, List.forall₂_take_append _ _ _ h, hq⟩
  have hends : endsInAmpersand (init ++ [arg]) = decide (arg.head? = some AMPERSAND) := by
    rw [endsInAmpersand, List.getLast?_concat]
    rfl
  have hload := load_append (ps.map some) (some q) (none :: rest)
  have hstore := store_append (ps.map some) (some q) none (none :: rest)
  rw [List.length_map] at hload hstore
  have hargv : (ps ++ [q]).map some ++ none :: rest = ps.map some ++ some q :: none :: rest := by
    simp
  have hlength : (ps ++ [q]).length - 1 = ps.length := by simp
  rw [dropAmpersand, hlength, hargv, hload, ok_bind, hends, List.dropLast_concat]
  obtain ⟨c, hc, hhead⟩ : ∃ c, load array q = .ok c ∧
      (c = AMPERSAND ↔ arg.head? = some AMPERSAND) := by
    cases arg with
    | nil => exact ⟨0, hq.load_nil, by decide⟩
    | cons c arg => exact ⟨c, hq.load_cons, by simp⟩
  dsimp only
  rw [hc, ok_bind]
  by_cases hamp : c = AMPERSAND
  · rw [if_pos hamp, hstore, ok_bind, decide_eq_true (hhead.mp hamp), if_pos rfl]
    exact ⟨_, rfl, ps, none :: rest, rfl, hps⟩
  · rw [if_neg hamp, decide_eq_false fun heq => hamp (hhead.mpr heq), if_neg Bool.false_ne_true]
    refine ⟨_, rfl, ps ++ [q], rest, hargv.symm, ?_⟩
    exact List.rel_append hps (List.Forall₂.cons hq List.Forall₂.nil)

theorem parseline_spec {cmdline text : List UInt8} {argv : List (Option ℕ)}
    (h : IsStr cmdline 0 (text ++ [NEWLINE])) (hlength : text.length + 1 < array.length) :
    if (tokens text).length < argv.length then
      ∃ parsed, parseline cmdline array argv = .ok parsed ∧ parsed.Correct text
    else parseline cmdline array argv = .error .outside := by
  -- the copy, with the newline replaced
  have hcopy : strcpy array cmdline = _ := h.strcpy (by simpa using hlength)
  set after := array.drop ((text ++ [NEWLINE]).length + 1)
  have hstr : IsStr (text ++ [NEWLINE] ++ 0 :: after) 0 (text ++ [NEWLINE]) :=
    isStr_append h.notMem [] after
  have hspace := store_append text NEWLINE SPACE (0 :: after)
  rw [← List.singleton_append, ← List.append_assoc] at hspace
  have hzero : (0 : UInt8) ∉ text ++ [SPACE] := by
    have := h.notMem
    simp only [List.mem_append, List.mem_singleton, not_or] at this ⊢
    exact ⟨this.1, by decide⟩
  have hstr' : IsStr (text ++ SPACE :: 0 :: after) 0 (text ++ [SPACE]) :=
    ⟨[], after, by simp, rfl, hzero⟩
  have hspaced : Spaced (text ++ [SPACE]) := by
    intro c hc
    rw [List.getLast?_concat] at hc
    exact (Option.some.inj hc).symm
  obtain ⟨next, hnext⟩ : ∃ next, nextArg (text ++ SPACE :: 0 :: after) 0 = .ok next := by
    obtain ⟨-, q, hq⟩ | ⟨_, _, _, _, -, -, hq⟩ := nextArg_spec hstr' hspaced
    · exact ⟨_, hq⟩
    · exact ⟨_, hq⟩
  obtain ⟨ps, array', hps, -, -, hrun⟩ := @buildArgs_spec _ _ _
    (text ++ SPACE :: 0 :: after).length [] argv next hstr' hspaced hnext (by simp)
  rw [tokens_append_space] at hps
  have hcount := hps.length_eq
  rw [List.map_nil, List.nil_append, List.nil_append, List.length_nil] at hrun
  have hparse : parseline cmdline array argv =
      (buildArgs (text ++ SPACE :: 0 :: after).length (text ++ SPACE :: 0 :: after) argv 0 next >>=
        fun (array, argv, argc) => do
          let argv ← store argv argc none
          if argc = 0 then return ⟨array, argv, true⟩
          else dropAmpersand array argv argc) := by
    rw [parseline, hcopy, ok_bind, hstr.strlen, ok_bind, if_neg (by simp), List.length_append,
      List.length_singleton, Nat.add_sub_cancel, hspace, ok_bind, hnext, ok_bind]
  rw [hparse, hrun, ← hcount]
  split
  · next hlt =>
      have hargv := store_append (ps.map some) argv[ps.length] none (argv.drop (ps.length + 1))
      rw [List.length_map, List.cons_getElem_drop_succ] at hargv
      rw [if_pos hlt.le, ok_bind]
      dsimp only
      rw [hargv, ok_bind]
      by_cases hnil : tokens text = []
      · have hzero : ps.length = 0 := by rw [hcount, hnil, List.length_nil]
        obtain rfl := List.eq_nil_of_length_eq_zero hzero
        refine ⟨_, if_pos rfl, ⟨iff_of_true rfl (Or.inl hnil), [], _, rfl, ?_⟩⟩
        rw [args, hnil]
        exact List.Forall₂.nil
      · have hpos : ps.length ≠ 0 := by
          rw [hcount]
          exact fun h0 => hnil (List.eq_nil_of_length_eq_zero h0)
        obtain ⟨argv', hdrop, harguments⟩ :=
          @dropAmpersand_spec array' ps _ (argv.drop (ps.length + 1)) hps hnil
        rw [if_neg hpos, hdrop]
        exact ⟨_, rfl, (or_iff_right hnil).symm, harguments⟩
  · next hge =>
      by_cases hle : ps.length ≤ argv.length
      · have hdrop : argv.drop ps.length = [] := List.drop_eq_nil_of_le (Nat.not_lt.mp hge)
        have hargv := store_length (ps.map some) none
        rw [List.length_map] at hargv
        rw [if_pos hle, ok_bind]
        dsimp only
        rw [hdrop, List.append_nil, hargv]
        rfl
      · rw [if_neg hle]
        rfl

/-- Words of one character that leave no room for the null pointer. -/
theorem parseline_repeated {cmdline : List UInt8} {argv : List (Option ℕ)} {n : ℕ}
    (hc : c ≠ QUOTE) (hspace : c ≠ SPACE)
    (h : IsStr cmdline 0 ((List.replicate n [c, SPACE]).flatten ++ [NEWLINE]))
    (hlength : (List.replicate n [c, SPACE]).flatten.length + 1 < array.length)
    (hn : argv.length ≤ n) : parseline cmdline array argv = .error .outside := by
  have hspec := @parseline_spec array cmdline _ argv h hlength
  rwa [tokens_repeated hc hspace, if_neg (Nat.not_lt.mpr hn)] at hspec

/-- A command line is cut into its tokens, within the arrays, exactly when `argv` has room
for them and a null pointer. -/
theorem parseline_correct_iff (buf input cmdline rest text array : List UInt8)
    (argv : List (Option ℕ)) (hbuf : buf.length = MAXLINE) (harray : array.length = MAXLINE)
    (hargv : argv.length = MAXARGS) (h : fgets NEWLINE buf input = some (cmdline, rest))
    (hline : str cmdline 0 = text ++ [NEWLINE]) :
    (∃ parsed, parseline cmdline array argv = .ok parsed ∧ parsed.Correct text) ↔
      (tokens text).length < MAXARGS := by
  obtain ⟨-, hzero, hfits⟩ := fgets_spec h
  have hstr := isStr_str hzero
  rw [hline] at hstr hfits
  rw [List.length_append, List.length_singleton, hbuf, ← harray] at hfits
  have hspec := @parseline_spec array cmdline text argv hstr hfits
  rw [hargv] at hspec
  split at hspec
  · next hlt => exact iff_of_true hspec hlt
  · next hge =>
      refine iff_of_false (fun ⟨_, hparse, _⟩ => ?_) hge
      rw [hspec] at hparse
      cases hparse

/-- `'a b' &` -/
theorem parseline_correct_iff_quoted : ∃ parsed,
    parseline ([0x27, 0x61, 0x20, 0x62, 0x27, 0x20, 0x26, NEWLINE] ++ List.replicate 1016 0)
      (List.replicate MAXLINE 0) (List.replicate MAXARGS none) = .ok parsed ∧
        parsed.bg = true := by
  have hread : fgets NEWLINE (List.replicate MAXLINE 0)
      [0x27, 0x61, 0x20, 0x62, 0x27, 0x20, 0x26, NEWLINE] =
        some ([0x27, 0x61, 0x20, 0x62, 0x27, 0x20, 0x26, NEWLINE] ++
          List.replicate 1016 0, []) := by decide +kernel
  have htokens : tokens [0x27, 0x61, 0x20, 0x62, 0x27, 0x20, 0x26] =
      [[0x61, 0x20, 0x62], [0x26]] := by decide +kernel
  obtain ⟨parsed, hparse, hcorrect⟩ := (parseline_correct_iff _ _ _ _
    [0x27, 0x61, 0x20, 0x62, 0x27, 0x20, 0x26] _ _ (List.length_replicate ..)
    (List.length_replicate ..) (List.length_replicate ..) hread (by decide +kernel)).mpr
      (by rw [htokens]; decide)
  refine ⟨parsed, hparse, hcorrect.bg.mpr (Or.inr ?_)⟩
  rw [htokens]
  decide

/-- `a a … a`, 128 words: the null pointer is written behind `argv`. -/
theorem parseline_overflows : ∃ buf input cmdline rest text array argv,
    buf.length = MAXLINE ∧ array.length = MAXLINE ∧ argv.length = MAXARGS ∧
      fgets NEWLINE buf input = some (cmdline, rest) ∧ str cmdline 0 = text ++ [NEWLINE] ∧
        ¬ ∃ parsed, parseline cmdline array argv = .ok parsed ∧ parsed.Correct text := by
  refine ⟨List.replicate MAXLINE 0, (List.replicate 128 [0x61, SPACE]).flatten ++ [NEWLINE],
    (List.replicate 128 [0x61, SPACE]).flatten ++ [NEWLINE] ++ 0 :: List.replicate 766 0, [],
    (List.replicate 128 [0x61, SPACE]).flatten, List.replicate MAXLINE 0,
    List.replicate MAXARGS none, List.length_replicate .., List.length_replicate ..,
    List.length_replicate .., by decide +kernel, by decide +kernel, ?_⟩
  rintro ⟨parsed, hparse, -⟩
  have hnull : (0 : UInt8) ∉ (List.replicate 128 [0x61, SPACE]).flatten ++ [NEWLINE] := by
    decide +kernel
  have hlength : (List.replicate 128 [0x61, SPACE]).flatten.length + 1 <
      (List.replicate MAXLINE (0 : UInt8)).length := by
    decide +kernel
  have hroom : (List.replicate MAXARGS (none : Option ℕ)).length ≤ 128 :=
    List.length_replicate.le
  have hfault := parseline_repeated (by decide) (by decide)
    (isStr_append hnull [] (List.replicate 766 0)) hlength hroom
  rw [List.nil_append] at hfault
  rw [hfault] at hparse
  cases hparse

end OsLabs.Tsh
