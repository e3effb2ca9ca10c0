import OsLabs.Generator.Tokens

/-!
# The grammar

What the parser reads, as a relation between tokens and actions, and the parser
against it.
-/

namespace OsLabs.Generator

/-- The actions that these tokens stand for, and for each process that they are nested in,
innermost first, its forks less its waits. -/
inductive Reads : List Text → List Action → List ℤ → Prop
  | start : Reads [] [] [0]
  | fork {ts as n ns args name time} (h : Reads ts as (n :: ns))
      (hargs : args.splitOn ',' = [name, time]) :
      Reads (ts ++ ["fork".toList, args, lbrace]) (as ++ [.fork name time]) (0 :: (n + 1) :: ns)
  | wait {ts as n ns} (h : Reads ts as (n :: ns)) :
      Reads (ts ++ [waitText]) (as ++ [.wait]) ((n - 1) :: ns)
  | exit {ts as n ns} (h : Reads ts as (0 :: n :: ns)) :
      Reads (ts ++ [rbrace]) (as ++ [.exit]) (n :: ns)

variable {orig : Text} {ts rest : List Text} {as : List Action} {ns : List ℤ} {s : ParseState}
  {n : ℤ} {args name time : Text}

/-- The tokens end in a fork without a block. -/
def BareFork (ts : List Text) : Prop :=
  ∃ before as ns args name time, Reads before as ns ∧ args.splitOn ',' = [name, time] ∧
    ts = before ++ ["fork".toList, args]

/-! ## The state of the parser -/

/-- The counts of the levels, innermost first. -/
def Counted (wait_count : ℕ → Option ℤ) : List ℤ → Prop
  | [] => True
  | n :: ns => wait_count ns.length = some n ∧ Counted wait_count ns

theorem Counted.update {wait_count : ℕ → Option ℤ} (h : Counted wait_count ns) {level : ℕ}
    (hlevel : ns.length ≤ level) (n : Option ℤ) :
    Counted (Function.update wait_count level n) ns := by
  induction ns with
  | nil => trivial
  | cons m ns ih =>
      rw [List.length_cons] at hlevel
      refine ⟨?_, ih h.2 (by omega)⟩
      rw [Function.update_of_ne (by omega)]
      exact h.1

theorem Counted.head {wait_count : ℕ → Option ℤ} (h : Counted wait_count (n :: ns)) (m : ℤ) :
    Counted (Function.update wait_count ns.length (some m)) (m :: ns) :=
  ⟨Function.update_self .., h.2.update (Nat.le_refl _) _⟩

theorem Counted.inner {wait_count : ℕ → Option ℤ} (h : Counted wait_count ns) (m : ℤ) :
    Counted (Function.update wait_count ns.length (some m)) (m :: ns) :=
  ⟨Function.update_self .., h.update (Nat.le_refl _) _⟩

structure ParseState.Matches (s : ParseState) (as : List Action) (ns : List ℤ) : Prop where
  actions : s.action_list = as.map Action.text
  braces : s.brace_count + 1 = ns.length
  level : s.fork_level + 1 = ns.length
  counted : Counted s.wait_count ns

theorem start_matches : ParseState.start.Matches [] [0] where
  actions := rfl
  braces := rfl
  level := rfl
  counted := ⟨rfl, trivial⟩

theorem ParseState.Matches.count (h : s.Matches as (n :: ns)) :
    s.wait_count s.fork_level = some n := by
  have hlevel := h.level
  rw [List.length_cons, Nat.add_right_cancel_iff] at hlevel
  rw [hlevel]
  exact h.counted.1

def ParseState.fork (s : ParseState) (n : ℤ) (name time : Text) : ParseState where
  action_list := s.action_list ++ [forkText name time]
  brace_count := s.brace_count + 1
  wait_count := Function.update (Function.update s.wait_count s.fork_level (some (n + 1)))
    (s.fork_level + 1) (some 0)
  fork_level := s.fork_level + 1

def ParseState.wait (s : ParseState) (n : ℤ) : ParseState :=
  { s with
    action_list := s.action_list ++ [waitText]
    wait_count := Function.update s.wait_count s.fork_level (some (n - 1)) }

def ParseState.exit (s : ParseState) : ParseState :=
  { s with
    action_list := s.action_list ++ [exitText]
    brace_count := s.brace_count - 1
    fork_level := s.fork_level - 1 }

theorem ParseState.Matches.fork (h : s.Matches as (n :: ns)) (name time : Text) :
    (s.fork n name time).Matches (as ++ [.fork name time]) (0 :: (n + 1) :: ns) := by
  have hlevel := h.level
  have hbraces := h.braces
  simp only [List.length_cons] at hlevel hbraces
  constructor
  · simp [ParseState.fork, h.actions, Action.text]
  · simp [ParseState.fork, hbraces]
  · simp [ParseState.fork, hlevel]
  · rw [ParseState.fork, Nat.add_right_cancel hlevel]
    exact (h.counted.head (n + 1)).inner 0

theorem ParseState.Matches.wait (h : s.Matches as (n :: ns)) :
    (s.wait n).Matches (as ++ [.wait]) ((n - 1) :: ns) := by
  have hlevel := h.level
  simp only [List.length_cons] at hlevel
  constructor
  · simp [ParseState.wait, h.actions, Action.text]
  · exact h.braces
  · exact h.level
  · rw [ParseState.wait, Nat.add_right_cancel hlevel]
    exact h.counted.head (n - 1)

theorem ParseState.Matches.exit {m : ℤ} (h : s.Matches as (n :: m :: ns)) :
    s.exit.Matches (as ++ [.exit]) (m :: ns) := by
  have hlevel := h.level
  have hbraces := h.braces
  simp only [List.length_cons] at hlevel hbraces
  constructor
  · simp [ParseState.exit, h.actions, Action.text]
  · simp only [ParseState.exit, List.length_cons]
    omega
  · simp only [ParseState.exit, List.length_cons]
    omega
  · exact h.counted.2

/-! ## One command -/

theorem parseTokens_fork (h : s.Matches as (n :: ns)) (hargs : args.splitOn ',' = [name, time]) :
    parseTokens orig ("fork".toList :: args :: lbrace :: rest) s =
      parseTokens orig rest (s.fork n name time) := by
  rw [parseTokens, if_neg (by decide), if_pos rfl, h.count]
  simp only [hargs, ne_eq, not_true_eq_false, if_false]
  rfl

theorem parseTokens_bareFork (h : s.Matches as (n :: ns))
    (hargs : args.splitOn ',' = [name, time]) :
    parseTokens orig ["fork".toList, args] s = .raises .indexError := by
  rw [parseTokens, if_neg (by decide), if_pos rfl, h.count]
  simp only [hargs]

theorem parseTokens_wait (h : s.Matches as (n :: ns)) :
    parseTokens orig (waitText :: rest) s = parseTokens orig rest (s.wait n) := by
  rw [parseTokens, if_neg (by decide), if_neg (by decide), if_neg (by decide), if_pos rfl, h.count]
  rfl

theorem parseTokens_exit {m : ℤ} (h : s.Matches as (0 :: m :: ns)) :
    parseTokens orig (rbrace :: rest) s = parseTokens orig rest s.exit := by
  have hlevel := h.level
  simp only [List.length_cons] at hlevel
  rw [parseTokens, if_neg (by decide), if_neg (by decide), if_pos rfl, if_neg (by omega), h.count]
  simp only [ne_eq, not_true_eq_false, if_false]
  rfl

theorem parseTokens_nil (h : s.Matches as [0]) :
    parseTokens orig [] s = .returns (as.map Action.text) := by
  have hcount := h.counted.1
  have hbraces := h.braces
  simp only [List.length_nil, List.length_cons] at hcount hbraces
  rw [parseTokens_end, finalChecks, hcount]
  simp only [ne_eq, not_true_eq_false, if_false]
  rw [if_neg (by omega), h.actions]

/-! ## Whole programs -/

theorem Reads.ne_nil (h : Reads ts as ns) : ns ≠ [] := by
  cases h <;> exact List.cons_ne_nil _ _

theorem Reads.parseTokens (h : Reads ts as ns) (orig : Text) :
    ∃ s : ParseState, s.Matches as ns ∧
      ∀ rest, parseTokens orig (ts ++ rest) .start = parseTokens orig rest s := by
  induction h with
  | start => exact ⟨.start, start_matches, fun rest => rfl⟩
  | @fork ts as n ns args name time h hargs ih =>
      obtain ⟨s, hs, hrun⟩ := ih
      refine ⟨s.fork n name time, hs.fork name time, fun rest => ?_⟩
      rw [List.append_assoc, hrun]
      exact parseTokens_fork hs hargs
  | @wait ts as n ns h ih =>
      obtain ⟨s, hs, hrun⟩ := ih
      refine ⟨s.wait n, hs.wait, fun rest => ?_⟩
      rw [List.append_assoc, hrun]
      exact parseTokens_wait hs
  | @exit ts as n ns h ih =>
      obtain ⟨s, hs, hrun⟩ := ih
      refine ⟨s.exit, hs.exit, fun rest => ?_⟩
      rw [List.append_assoc, hrun]
      exact parseTokens_exit hs

/-- What an outcome says about the tokens. -/
def Outcome.Fits (ts : List Text) : Outcome → Prop
  | .returns action_list => ∃ as, Reads ts as [0] ∧ action_list = as.map Action.text
  | .exits _ => True
  | .raises error => error = .indexError ∧ BareFork ts

theorem Counted.outermost {wait_count : ℕ → Option ℤ} (h : Counted wait_count (n :: ns)) :
    ∃ m, wait_count 0 = some m := by
  induction ns generalizing n with
  | nil => exact ⟨n, h.1⟩
  | cons m ns ih => exact ih h.2

theorem finalChecks_fits (h : Reads ts as (n :: ns)) (hs : s.Matches as (n :: ns)) :
    (finalChecks orig s).Fits ts := by
  obtain ⟨m, hm⟩ := hs.counted.outermost
  rw [finalChecks, hm]
  dsimp only
  split
  case isTrue => trivial
  case isFalse hzero =>
    split
    case isTrue => trivial
    case isFalse hbraces =>
      have hlength := hs.braces
      simp only [List.length_cons] at hlength
      have hnil : ns = [] := List.length_eq_zero_iff.mp (by omega)
      subst hnil
      have hn : n = 0 := by
        have hcount := hs.counted.1
        rw [List.length_nil, hm, Option.some_inj] at hcount
        omega
      subst hn
      exact ⟨as, h, hs.actions⟩

theorem parseTokens_fork_cases (hs : s.Matches as (n :: ns)) (orig : Text) (rest : List Text) :
    (∃ printed, parseTokens orig ("fork".toList :: rest) s = .exits printed) ∨
      ∃ args name time, args.splitOn ',' = [name, time] ∧
        (rest = [args] ∨ ∃ later, rest = args :: lbrace :: later) := by
  rw [parseTokens, if_neg (by decide), if_pos rfl, hs.count]
  cases rest with
  | nil => exact .inl ⟨_, rfl⟩
  | cons args rest =>
      dsimp only
      split
      case h_1 name time hargs =>
        cases rest with
        | nil => exact .inr ⟨args, name, time, hargs, .inl rfl⟩
        | cons brace later =>
            by_cases hbrace : brace = lbrace
            · subst hbrace
              exact .inr ⟨args, name, time, hargs, .inr ⟨later, rfl⟩⟩
            · exact .inl ⟨_, if_pos hbrace⟩
      case h_2 => exact .inl ⟨_, rfl⟩

theorem parseTokens_close_cases (hs : s.Matches as (n :: ns)) (orig : Text) (rest : List Text) :
    (∃ printed, parseTokens orig (rbrace :: rest) s = .exits printed) ∨
      n = 0 ∧ ∃ m outer, ns = m :: outer := by
  have hlevel := hs.level
  rw [List.length_cons, Nat.add_right_cancel_iff] at hlevel
  rw [parseTokens, if_neg (by decide), if_neg (by decide), if_pos rfl, hs.count, hlevel]
  cases ns with
  | nil => exact .inl ⟨_, if_pos rfl⟩
  | cons m outer =>
      rw [List.length_cons, if_neg (Nat.succ_ne_zero _)]
      by_cases hn : n = 0
      · exact .inr ⟨hn, m, outer, rfl⟩
      · exact .inl ⟨_, if_pos hn⟩

theorem parseTokens_fits (h : Reads ts as (n :: ns)) (hs : s.Matches as (n :: ns))
    (hrest : ∀ token ∈ rest, token ≠ []) :
    (parseTokens orig rest s).Fits (ts ++ rest) := by
  induction hlength : rest.length using Nat.strong_induction_on
    generalizing ts as n ns s rest with
  | h length ih =>
      cases rest with
      | nil =>
          rw [List.append_nil]
          exact finalChecks_fits h hs
      | cons token rest =>
          obtain ⟨htoken, htokens⟩ := List.forall_mem_cons.mp hrest
          rw [List.length_cons] at hlength
          by_cases hfork : token = "fork".toList
          · subst hfork
            obtain ⟨printed, hexits⟩ | ⟨args, name, time, hargs, rfl | ⟨later, rfl⟩⟩ :=
              parseTokens_fork_cases hs orig rest
            · rw [hexits]
              trivial
            · rw [parseTokens_bareFork hs hargs]
              exact ⟨rfl, ts, as, n :: ns, args, name, time, h, hargs, rfl⟩
            · have hlater := (List.forall_mem_cons.mp (List.forall_mem_cons.mp htokens).2).2
              have hfits := ih later.length (by simp at hlength; omega) (h.fork hargs)
                (hs.fork name time) hlater rfl
              rw [List.append_assoc] at hfits
              rw [parseTokens_fork hs hargs]
              exact hfits
          by_cases hclose : token = rbrace
          · subst hclose
            obtain ⟨printed, hexits⟩ | ⟨rfl, m, outer, rfl⟩ := parseTokens_close_cases hs orig rest
            · rw [hexits]
              trivial
            · rw [parseTokens_exit hs, List.append_cons]
              exact ih rest.length (by omega) h.exit hs.exit htokens rfl
          by_cases hwait : token = waitText
          · subst hwait
            rw [parseTokens_wait hs, List.append_cons]
            exact ih rest.length (by omega) h.wait hs.wait htokens rfl
          · rw [parseTokens, if_neg htoken, if_neg hfork, if_neg hclose, if_neg hwait]
            trivial

/-- The parser accepts what the grammar reads with all forks waited for, and raises on
a fork whose block is missing at the end of the text. -/
theorem parse_spec (program : Text) :
    ∃ ts outcome, tokens program = some ts ∧ (∀ token ∈ ts, IsToken token) ∧
      parse program = some outcome ∧
        (∀ action_list, outcome = .returns action_list ↔
          ∃ as, Reads ts as [0] ∧ action_list = as.map Action.text) ∧
        ∀ error, outcome = .raises error ↔ error = .indexError ∧ BareFork ts := by
  obtain ⟨ts, hts, htokens⟩ := exists_tokens program
  have hfits : (parseTokens program ts .start).Fits ([] ++ ts) :=
    parseTokens_fits Reads.start start_matches fun token htoken => (htokens token htoken).1
  rw [List.nil_append] at hfits
  have hparse : parse program = some (parseTokens program ts .start) := by
    rw [parse, hts, Option.map_some]
  refine ⟨ts, _, hts, htokens, hparse, fun action_list => ?_, fun error => ?_⟩
  · constructor
    · intro heq
      rw [heq] at hfits
      exact hfits
    · rintro ⟨as, h, rfl⟩
      obtain ⟨s, hs, hrun⟩ := h.parseTokens program
      rw [← List.append_nil ts, hrun, parseTokens_nil hs]
  · constructor
    · intro heq
      rw [heq] at hfits
      exact hfits
    · rintro ⟨rfl, before, as, ns, args, name, time, h, hargs, rfl⟩
      obtain ⟨s, hs, hrun⟩ := h.parseTokens program
      obtain ⟨n, ns, rfl⟩ := List.exists_cons_of_ne_nil h.ne_nil
      rw [hrun, parseTokens_bareFork hs hargs]

end OsLabs.Generator
