import OsLabs.Lib.CString

/-!
# Splitting a line into words

`msh.c`: `parse` erases the separators of a line in place and points `argv` at the
words between them.
-/

namespace OsLabs.Msh

open CString

def MAXLINE : ℕ := 1024

/-- `char *argv[64]` in `main`. -/
def MAXARGS : ℕ := 64

def NEWLINE : UInt8 := 0x0a

def isSeparator (c : UInt8) : Bool := c = 0x20 || c = 0x09 || c = NEWLINE

/-- `while (*p == ' ' || *p == '\t' || *p == '\n') *p++ = '\0';` -/
def eraseSeparators : ℕ → List UInt8 → ℕ → Except Fault (List UInt8 × ℕ)
  | 0, _, _ => .error .running
  | fuel + 1, line, p => do
      let c ← load line p
      if isSeparator c then do
        let line ← store line p 0
        eraseSeparators fuel line (p + 1)
      else return (line, p)

structure Parsed where
  line : List UInt8
  argv : List (Option ℕ)
  argc : ℕ
deriving DecidableEq, Repr

def finish (line : List UInt8) (argv : List (Option ℕ)) (argc : ℕ) : Except Fault Parsed := do
  let argv ← store argv argc none
  return ⟨line, argv, argc⟩

/-- `while (*p) { … }` and what follows. -/
def parseFrom : ℕ → List UInt8 → List (Option ℕ) → ℕ → ℕ → Except Fault Parsed
  | 0, _, _, _, _ => .error .running
  | fuel + 1, line, argv, argc, p => do
      let c ← load line p
      if c = 0 then finish line argv argc
      else do
        let (line, p) ← eraseSeparators line.length line p
        let c ← load line p
        if c = 0 then finish line argv argc
        else do
          let argv ← store argv argc (some p)
          let p ← scan (fun c => c ≠ 0 && !isSeparator c) line line.length p
          parseFrom fuel line argv (argc + 1) p

def parse (line : List UInt8) (argv : List (Option ℕ)) : Except Fault Parsed :=
  parseFrom line.length line argv 0 0

/-! ## Words -/

variable {s u w r after line : List UInt8} {c : UInt8} {argv : List (Option ℕ)} {q : ℕ}

/-- The maximal runs of characters that separate nothing. -/
def words (s : List UInt8) : List (List UInt8) := (s.splitOnP isSeparator).filter (· ≠ [])

theorem words_nil : words [] = [] := rfl

theorem words_separator (hc : isSeparator c = true) (r : List UInt8) :
    words (c :: r) = words r := by
  rw [words, List.splitOnP_cons_eq_if_modifyHead, if_pos hc]
  exact List.filter_cons_of_neg (by simp)

theorem words_separators (hw : ∀ c ∈ w, isSeparator c = true) (r : List UInt8) :
    words (w ++ r) = words r := by
  induction w with
  | nil => rfl
  | cons c w ih =>
      rw [List.cons_append, words_separator (hw c List.mem_cons_self)]
      exact ih fun c hc => hw c (List.mem_cons_of_mem _ hc)

theorem words_word (hw : ∀ c ∈ w, isSeparator c = false) (hne : w ≠ [])
    (hr : ∀ c ∈ r.head?, isSeparator c = true) : words (w ++ r) = w :: words r := by
  cases r with
  | nil =>
      rw [List.append_nil, words, List.splitOnP_eq_singleton hw]
      exact List.filter_cons_of_pos (decide_eq_true hne)
  | cons c r =>
      have hc := hr c rfl
      rw [words_separator hc, words, List.splitOnP_append_cons_of_forall_mem hw c hc]
      exact List.filter_cons_of_pos (decide_eq_true hne)

/-- A word of `s` begins at `q` and goes up to a separator or the end. -/
def WordAt (s : List UInt8) (q : ℕ) (w : List UInt8) : Prop :=
  ∃ u r, s = u ++ (w ++ r) ∧ u.length = q ∧ (∀ c ∈ w, isSeparator c = false) ∧
    ∀ c ∈ r.head?, isSeparator c = true

/-! ## The line with its separators erased -/

def erased (s : List UInt8) : List UInt8 := s.map fun c => if isSeparator c then 0 else c

theorem erased_append (u r : List UInt8) : erased (u ++ r) = erased u ++ erased r :=
  List.map_append

@[simp] theorem erased_length (s : List UInt8) : (erased s).length = s.length := List.length_map _

theorem erased_word (hw : ∀ c ∈ w, isSeparator c = false) : erased w = w := by
  refine (List.map_congr_left fun c hc => ?_).trans (List.map_id w)
  rw [hw c hc]
  rfl

theorem WordAt.isStr (h : WordAt s q w) (hs : 0 ∉ s) (after : List UInt8) :
    IsStr (erased s ++ 0 :: after) q w := by
  obtain ⟨u, r, rfl, rfl, hw, hr⟩ := h
  have hzero : (0 : UInt8) ∉ w := fun h0 =>
    hs (List.mem_append_right _ (List.mem_append_left _ h0))
  rw [erased_append, erased_append, erased_word hw]
  cases r with
  | nil =>
      refine ⟨erased u, after, ?_, erased_length u, hzero⟩
      simp only [erased, List.map_nil, List.append_nil, List.append_assoc]
  | cons c r =>
      refine ⟨erased u, erased r ++ 0 :: after, ?_, erased_length u, hzero⟩
      simp only [erased, List.map_cons, hr c rfl, if_true, List.append_assoc, List.cons_append]

theorem eraseSeparators_spec {fuel : ℕ} (hw : ∀ c ∈ w, isSeparator c = true)
    (hr : ∀ c ∈ r.head?, isSeparator c = false) (hfuel : w.length < fuel) :
    eraseSeparators fuel (erased u ++ (w ++ r ++ 0 :: after)) u.length =
      .ok (erased (u ++ w) ++ (r ++ 0 :: after), (u ++ w).length) := by
  induction w generalizing u fuel with
  | nil =>
      obtain ⟨fuel, rfl⟩ := Nat.exists_eq_succ_of_ne_zero (Nat.ne_zero_of_lt hfuel)
      rw [List.nil_append, List.append_nil, eraseSeparators]
      have hstop : ∃ x v, r ++ 0 :: after = x :: v ∧ isSeparator x = false := by
        cases r with
        | nil => exact ⟨0, after, rfl, rfl⟩
        | cons c r => exact ⟨c, _, rfl, hr c rfl⟩
      obtain ⟨x, v, hx, hsep⟩ := hstop
      have hload := load_append (erased u) x v
      rw [erased_length] at hload
      rw [hx, hload]
      exact if_neg (Bool.not_eq_true _ ▸ hsep)
  | cons c w ih =>
      obtain ⟨fuel, rfl⟩ := Nat.exists_eq_succ_of_ne_zero (Nat.ne_zero_of_lt hfuel)
      have hc := hw c List.mem_cons_self
      have hload := load_append (erased u) c (w ++ r ++ 0 :: after)
      have hstore := store_append (erased u) c 0 (w ++ r ++ 0 :: after)
      have hrest := @ih (u ++ [c]) fuel (fun c hc => hw c (List.mem_cons_of_mem _ hc))
        (Nat.lt_of_succ_lt_succ hfuel)
      rw [erased_length] at hload hstore
      rw [List.cons_append, List.cons_append, eraseSeparators, hload]
      refine (if_pos hc).trans ?_
      rw [hstore]
      have herased : erased [c] = [0] := by
        rw [erased, List.map_singleton, hc]
        rfl
      simp only [erased_append, herased, List.append_assoc, List.length_append,
        List.cons_append, List.length_singleton] at hrest ⊢
      exact hrest

/-! ## Parsing -/

/-- `finish` needs room for the null pointer. -/
theorem finish_eq (line : List UInt8) (done : List ℕ) (rest : List (Option ℕ)) :
    finish line (done.map some ++ rest) done.length =
      if 0 < rest.length then .ok ⟨line, done.map some ++ none :: rest.drop 1, done.length⟩
      else .error .outside := by
  cases rest with
  | nil =>
      have hstore := store_length (done.map some) none
      rw [List.length_map] at hstore
      rw [List.append_nil, finish, hstore]
      rfl
  | cons x rest =>
      have hstore := store_append (done.map some) x none rest
      rw [List.length_map] at hstore
      rw [finish, hstore]
      rfl

/-- The rest of a line has no more words, or begins with separators and a word. -/
theorem rest_cases (r : List UInt8) : (∀ c ∈ r, isSeparator c = true) ∨
    ∃ seps w r', r = seps ++ (w ++ r') ∧ (∀ c ∈ seps, isSeparator c = true) ∧
      (∀ c ∈ w, isSeparator c = false) ∧ w ≠ [] ∧ ∀ c ∈ r'.head?, isSeparator c = true := by
  have hsplit := List.takeWhile_append_dropWhile (p := isSeparator) (l := r)
  have hseps : ∀ c ∈ r.takeWhile isSeparator, isSeparator c = true :=
    fun c hc => List.mem_takeWhile_imp hc
  cases hrest : r.dropWhile isSeparator with
  | nil =>
      rw [hrest, List.append_nil] at hsplit
      exact Or.inl (hsplit ▸ hseps)
  | cons c r₁ =>
      have hc : isSeparator c = false := by
        have hnot := List.head?_dropWhile_not isSeparator r
        rw [hrest] at hnot
        exact hnot
      refine Or.inr ⟨_, (c :: r₁).takeWhile (!isSeparator ·), (c :: r₁).dropWhile (!isSeparator ·),
        ?_, hseps, fun x hx => ?_, ?_, fun x hx => ?_⟩
      · rw [List.takeWhile_append_dropWhile, ← hrest, hsplit]
      · simpa using List.mem_takeWhile_imp hx
      · simp [hc]
      · have hnot := List.head?_dropWhile_not (!isSeparator ·) (c :: r₁)
        rw [Option.mem_def.mp hx] at hnot
        simpa using hnot

theorem load_erased (u : List UInt8) (c : UInt8) (v : List UInt8) :
    load (erased u ++ c :: v) u.length = .ok c := by
  have hload := load_append (erased u) c v
  rwa [erased_length] at hload

theorem parseFrom_blank {fuel argc : ℕ} (hs : 0 ∉ w) (hw : ∀ c ∈ w, isSeparator c = true) :
    parseFrom (fuel + 1) (erased u ++ (w ++ 0 :: after)) argv argc u.length =
      finish (erased (u ++ w) ++ 0 :: after) argv argc := by
  rw [parseFrom]
  cases w with
  | nil => rw [List.nil_append, load_erased, ok_bind, if_pos rfl, List.append_nil]
  | cons c w =>
      have hc : c ≠ 0 := fun h0 => hs (h0 ▸ List.mem_cons_self)
      have hline : (c :: w).length < (erased u ++ (c :: w ++ 0 :: after)).length := by
        simp only [List.length_append, List.length_cons]
        omega
      have herase := @eraseSeparators_spec u (c :: w) [] after _ hw nofun hline
      rw [List.append_nil, List.nil_append] at herase
      rw [List.cons_append, load_erased, ok_bind, if_neg hc, ← List.cons_append, herase, ok_bind]
      dsimp only
      rw [load_erased, ok_bind, if_pos rfl]

theorem parseFrom_word {seps : List UInt8} {fuel argc : ℕ} (hs : 0 ∉ seps ++ (w ++ r))
    (hseps : ∀ c ∈ seps, isSeparator c = true) (hw : ∀ c ∈ w, isSeparator c = false)
    (hne : w ≠ []) (hr : ∀ c ∈ r.head?, isSeparator c = true) :
    parseFrom (fuel + 1) (erased u ++ (seps ++ (w ++ r) ++ 0 :: after)) argv argc u.length =
      (store argv argc (some (u ++ seps).length) >>= fun argv =>
        parseFrom fuel (erased (u ++ seps ++ w) ++ (r ++ 0 :: after)) argv (argc + 1)
          (u ++ seps ++ w).length) := by
  have hline (v : List UInt8) : v.length < (erased u ++ (v ++ 0 :: after)).length := by
    simp only [List.length_append, List.length_cons]
    omega
  have hword : ∀ x ∈ (w ++ r).head?, isSeparator x = false := by
    obtain ⟨c, w', rfl⟩ := List.exists_cons_of_ne_nil hne
    intro x hx
    exact hw x (List.mem_of_mem_head? hx)
  have herase := @eraseSeparators_spec u seps (w ++ r) after _ hseps hword
    ((Nat.le_add_right _ _).trans_lt (List.length_append ▸ hline (seps ++ (w ++ r))))
  -- the first character of the line, and of the word
  obtain ⟨c, v, hcons, hc⟩ : ∃ c v, seps ++ (w ++ r) = c :: v ∧ c ≠ 0 := by
    obtain ⟨c, v, hcons⟩ := List.exists_cons_of_ne_nil (l := seps ++ (w ++ r)) (by simp [hne])
    exact ⟨c, v, hcons, fun h0 => hs (hcons ▸ h0 ▸ List.mem_cons_self)⟩
  obtain ⟨x, w', rfl⟩ := List.exists_cons_of_ne_nil hne
  have hx : x ≠ 0 := fun h0 => hs (by simp [h0])
  have hscan : scan (fun c => c ≠ 0 && !isSeparator c)
      (erased (u ++ seps) ++ (x :: w' ++ r ++ 0 :: after))
      (erased (u ++ seps) ++ (x :: w' ++ r ++ 0 :: after)).length (u ++ seps).length =
        .ok (u ++ seps ++ x :: w').length := by
    have hstr : IsStr (erased (u ++ seps) ++ (x :: w' ++ r ++ 0 :: after)) (u ++ seps).length
        (x :: w' ++ r) :=
      ⟨_, after, rfl, erased_length _, fun h0 => hs (List.mem_append_right _ h0)⟩
    refine (hstr.scan (fun y hy => ?_) (fun y hy => ?_) rfl).trans ?_
    · have hy0 : y ≠ 0 := hstr.ne_zero (List.mem_append_left _ hy)
      simp [hy0, hw y hy]
    · simp [hr y hy]
    · exact congrArg Except.ok List.length_append.symm
  rw [parseFrom, hcons, List.cons_append, load_erased, ok_bind, if_neg hc, ← List.cons_append,
    ← hcons, herase, ok_bind]
  dsimp only
  rw [List.cons_append, List.cons_append, load_erased, ok_bind, if_neg hx, ← List.cons_append,
    ← List.cons_append, hscan]
  refine bind_congr fun argv => ?_
  rw [ok_bind, erased_append (u ++ seps), erased_word hw]
  simp only [List.append_assoc]

/-- Parsing the rest `r` of a line, after `u`. -/
theorem parseFrom_spec {fuel : ℕ} {done : List ℕ} {rest : List (Option ℕ)} (hs : 0 ∉ r)
    (hfuel : r.length < fuel) : ∃ ps, List.Forall₂ (WordAt (u ++ r)) ps (words r) ∧
      parseFrom fuel (erased u ++ (r ++ 0 :: after)) (done.map some ++ rest) done.length u.length =
        if ps.length < rest.length then
          .ok ⟨erased (u ++ r) ++ 0 :: after,
            (done ++ ps).map some ++ none :: rest.drop (ps.length + 1), (done ++ ps).length⟩
        else .error .outside := by
  induction fuel generalizing u r done rest with
  | zero => exact absurd hfuel (Nat.not_lt_zero _)
  | succ fuel ih =>
      obtain hblank | ⟨seps, w, r', rfl, hseps, hw, hne, hr⟩ := rest_cases r
      · have hwords : words r = [] := by
          rw [← List.append_nil r, words_separators hblank, words_nil]
        refine ⟨[], hwords ▸ List.Forall₂.nil, ?_⟩
        rw [parseFrom_blank hs hblank, finish_eq, List.append_nil]
        rfl
      · have hs' : (0 : UInt8) ∉ r' := fun h0 =>
          hs (List.mem_append_right _ (List.mem_append_right _ h0))
        have hlt : r'.length < fuel := by
          have := List.length_pos_iff.mpr hne
          simp only [List.length_append] at hfuel
          omega
        have hwords : words (seps ++ (w ++ r')) = w :: words r' := by
          rw [words_separators hseps, words_word hw hne hr]
        obtain ⟨ps, hps, hrun⟩ := @ih (u ++ seps ++ w) r' (done ++ [(u ++ seps).length])
          rest.tail hs' hlt
        have hline : u ++ seps ++ w ++ r' = u ++ (seps ++ (w ++ r')) := by
          simp only [List.append_assoc]
        rw [hline] at hps hrun
        refine ⟨(u ++ seps).length :: ps, ?_, ?_⟩
        · rw [hwords]
          refine List.Forall₂.cons ⟨u ++ seps, r', ?_, rfl, hw, hr⟩ hps
          simp only [List.append_assoc]
        · rw [parseFrom_word hs hseps hw hne hr]
          cases rest with
          | nil =>
              have hstore := store_length (done.map some) (some (u ++ seps).length)
              rw [List.length_map] at hstore
              rw [List.append_nil, hstore]
              rfl
          | cons x rest =>
              have hstore := store_append (done.map some) x (some (u ++ seps).length) rest
              rw [List.length_map] at hstore
              rw [hstore, ok_bind]
              simp only [List.tail_cons, List.map_append, List.map_cons, List.map_nil,
                List.append_assoc, List.length_append, List.length_singleton,
                List.singleton_append] at hrun
              simp only [List.length_cons, Nat.add_lt_add_iff_right, List.drop_succ_cons,
                List.map_append, List.map_cons, List.append_assoc, List.length_append,
                List.cons_append]
              exact hrun

/-- `argv` is the list of the words of the line, and `argc` is how many there are. -/
structure Parsed.Correct (s : List UInt8) (parsed : Parsed) : Prop where
  argc : parsed.argc = (words s).length
  arguments : Arguments parsed.line parsed.argv (words s)

theorem parse_spec {argv : List (Option ℕ)} (h : 0 ∈ line) :
    if (words (str line 0)).length < argv.length then
      ∃ parsed, parse line argv = .ok parsed ∧ parsed.Correct (str line 0)
    else parse line argv = .error .outside := by
  have hstr := isStr_str h
  set s := str line 0
  have hlt := hstr.length_lt
  obtain ⟨u, after, hline, hu, hs⟩ := hstr
  obtain rfl := List.eq_nil_of_length_eq_zero hu
  obtain ⟨ps, hps, hrun⟩ := @parseFrom_spec [] s after line.length [] argv hs (by omega)
  have hrun' : parse line argv = if ps.length < argv.length then
      .ok ⟨erased s ++ 0 :: after, ps.map some ++ none :: argv.drop (ps.length + 1), ps.length⟩
      else .error .outside := by
    rw [hline, parse, ← hline]
    exact hline ▸ hrun
  rw [hps.length_eq] at hrun'
  rw [hrun']
  split
  · exact ⟨_, rfl, rfl, ps, _, rfl, hps.imp fun q w hw => hw.isStr hs after⟩
  · rfl

/-- Every line that `main` reads is parsed to an end, and within the arrays exactly when
it has fewer words than `argv` has entries. -/
theorem parse_correct_iff (line input line' rest : List UInt8) (argv : List (Option ℕ))
    (hargv : argv.length = MAXARGS) (h : fgets NEWLINE line input = some (line', rest)) :
    parse line' argv ≠ .error .running ∧
      ((∃ parsed, parse line' argv = .ok parsed ∧ parsed.Correct (str line' 0)) ↔
        (words (str line' 0)).length < MAXARGS) := by
  have hspec := @parse_spec line' argv (fgets_spec h).2.1
  rw [hargv] at hspec
  split at hspec
  · next hlt =>
      obtain ⟨parsed, hparse, hcorrect⟩ := hspec
      refine ⟨by simp [hparse], iff_of_true ⟨parsed, hparse, hcorrect⟩ hlt⟩
  · next hge =>
      refine ⟨by simp [hspec], iff_of_false (fun ⟨_, hparse, _⟩ => ?_) hge⟩
      rw [hspec] at hparse
      cases hparse

/-- `ls -l`, with an indent, a tab and no newline. -/
theorem parse_correct_iff_indented : ∃ parsed,
    parse ([0x20, 0x6c, 0x73, 0x09, 0x2d, 0x6c] ++ List.replicate 1018 0)
      (List.replicate MAXARGS none) = .ok parsed ∧ parsed.argc = 2 := by
  have hread : fgets NEWLINE (List.replicate MAXLINE 0) [0x20, 0x6c, 0x73, 0x09, 0x2d, 0x6c] =
      some ([0x20, 0x6c, 0x73, 0x09, 0x2d, 0x6c] ++ List.replicate 1018 0, []) := by
    decide +kernel
  obtain ⟨parsed, hparse, hcorrect⟩ := (parse_correct_iff _ _ _ _ (List.replicate MAXARGS none)
    (List.length_replicate ..) hread).2.mpr (by decide +kernel)
  exact ⟨parsed, hparse, hcorrect.argc.trans (by decide +kernel)⟩

/-- `a a … a`, 64 words: the null pointer is written behind `argv`. -/
theorem parse_overflows : ∃ line argv input line' rest, line.length = MAXLINE ∧
    argv.length = MAXARGS ∧ fgets NEWLINE line input = some (line', rest) ∧
      ¬ ∃ parsed, parse line' argv = .ok parsed ∧ parsed.Correct (str line' 0) := by
  refine ⟨List.replicate MAXLINE 0, List.replicate MAXARGS none,
    (List.replicate 64 [0x61, 0x20]).flatten ++ [NEWLINE],
    (List.replicate 64 [0x61, 0x20]).flatten ++ NEWLINE :: List.replicate 895 0, [],
    List.length_replicate .., List.length_replicate .., by decide +kernel, ?_⟩
  rintro ⟨parsed, hparse, -⟩
  have hzero : (0 : UInt8) ∈ (List.replicate 64 [0x61, 0x20]).flatten ++
      NEWLINE :: List.replicate 895 0 := by
    decide +kernel
  have hwords : (words (str ((List.replicate 64 [0x61, 0x20]).flatten ++
      NEWLINE :: List.replicate 895 0) 0)).length = 64 := by
    decide +kernel
  have hroom : (List.replicate MAXARGS (none : Option ℕ)).length = 64 := List.length_replicate
  have hfault := @parse_spec _ (List.replicate MAXARGS none) hzero
  rw [hwords, hroom, if_neg (Nat.lt_irrefl 64)] at hfault
  rw [hfault] at hparse
  cases hparse

end OsLabs.Msh
