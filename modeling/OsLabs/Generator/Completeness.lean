import OsLabs.Generator.Random

/-!
# Complete programs

Which accepted lists of actions the code generator turns into a complete
program. A wait takes a child from the list of its process; the list is emptied
when a process of the same name begins, and then a wait is left without a child.
-/

namespace OsLabs.Generator

/-- Processes with the counts of the parser, innermost first. -/
abbrev Counts := List (Text × ℤ)

variable {as : List Action} {a : Action} {ns ns' : List ℤ} {g g' : CodeGenerator}
  {ps ps' : Counts} {name time thread : Text} {x : Text}

def track : Counts → Action → Counts
  | (thread, n) :: outer, .fork name _ => (name, 0) :: (thread, n + 1) :: outer
  | (thread, n) :: outer, .wait => (thread, n - 1) :: outer
  | _ :: outer, .exit => outer
  | [], _ => []

/-- The counts of all processes with a name. -/
def owed (x : Text) (ps : Counts) : ℤ := (ps.map fun p => if p.1 = x then p.2 else 0).sum

@[simp]
theorem owed_nil (x : Text) : owed x [] = 0 := rfl

@[simp]
theorem owed_cons (x thread : Text) (n : ℤ) (ps : Counts) :
    owed x ((thread, n) :: ps) = (if thread = x then n else 0) + owed x ps := by
  simp [owed]

/-- The children that the code generator has listed under a name. -/
def CodeGenerator.listed (g : CodeGenerator) (x : Text) : ℤ :=
  ((g.waiting_for x).getD []).length

theorem CodeGenerator.listed_nonneg (g : CodeGenerator) (x : Text) : 0 ≤ g.listed x :=
  Int.natCast_nonneg _

theorem listed_of_eq {children : List Text} (h : g.waiting_for x = some children) :
    g.listed x = children.length := by
  rw [CodeGenerator.listed, h, Option.getD_some]

/-! ## One action -/

theorem listed_update {children : List Text}
    (h : g'.waiting_for = Function.update g.waiting_for thread (some children)) (x : Text) :
    g'.listed x = if x = thread then (children.length : ℤ) else g.listed x := by
  unfold CodeGenerator.listed
  rw [h]
  split
  case isTrue heq =>
    rw [heq, Function.update_self, Option.getD_some]
  case isFalse hne =>
    rw [Function.update_of_ne hne]

theorem add_fork_ok (h : g.add_fork name = .ok g') :
    g'.curr_thread = g.curr_thread ∧ g'.parent_list = g.curr_thread :: g.parent_list ∧
      ∀ x, g'.listed x = g.listed x + if x = g.curr_thread then 1 else 0 := by
  unfold CodeGenerator.add_fork at h
  split at h
  case h_1 => cases h
  case h_2 children hchildren =>
    cases h
    refine ⟨rfl, rfl, fun x => ?_⟩
    rw [listed_update rfl x]
    split
    case isTrue heq =>
      rw [heq, listed_of_eq hchildren, List.length_append]
      rfl
    case isFalse => exact (add_zero _).symm

theorem perform_fork_ok (hname : Clean name) (htime : Clean time)
    (h : g.perform (forkText name time) = .ok g') :
    g'.curr_thread = name ∧ g'.parent_list = g.curr_thread :: g.parent_list ∧
      ∀ x, g'.listed x =
        if x = name then 0 else g.listed x + if x = g.curr_thread then 1 else 0 := by
  rw [perform_fork hname htime] at h
  cases hfork : g.add_fork name with
  | error e =>
      rw [hfork] at h
      cases h
  | ok forked =>
      rw [hfork] at h
      cases h
      obtain ⟨-, hparents, hlisted⟩ := add_fork_ok hfork
      refine ⟨rfl, hparents, fun x => ?_⟩
      rw [listed_update (g := forked) rfl x, hlisted]
      rfl

theorem add_wait_ok (h : g.add_wait = .ok g') :
    g'.curr_thread = g.curr_thread ∧ g'.parent_list = g.parent_list ∧
      0 < g.listed g.curr_thread ∧
        ∀ x, g'.listed x = g.listed x - if x = g.curr_thread then 1 else 0 := by
  unfold CodeGenerator.add_wait at h
  split at h
  case h_1 => cases h
  case h_2 => cases h
  case h_3 child children hchildren =>
    cases h
    have hlisted : g.listed g.curr_thread = children.length + 1 := by
      rw [listed_of_eq hchildren]
      rfl
    refine ⟨rfl, rfl, by omega, fun x => ?_⟩
    rw [listed_update rfl x]
    split
    case isTrue heq =>
      rw [heq, hlisted]
      omega
    case isFalse => exact (sub_zero _).symm

theorem add_exit_ok (h : g.add_exit = .ok g') :
    g.parent_list = g'.curr_thread :: g'.parent_list ∧ ∀ x, g'.listed x = g.listed x := by
  unfold CodeGenerator.add_exit at h
  split at h
  case h_1 => cases h
  case h_2 children hchildren =>
    split at h
    case isTrue => cases h
    case isFalse =>
      dsimp only at h
      split at h
      case h_1 => cases h
      case h_2 parent parents hparents =>
        cases h
        exact ⟨hparents, fun x => rfl⟩

/-! ## Whole lists -/

/-- The code generator and the parser agree on the processes around the next action. -/
def Stands (g : CodeGenerator) (ps : Counts) : Prop :=
  ps.map Prod.fst = g.curr_thread :: g.parent_list

/-- What a name has lost, by waits before forks and by processes that begin under it, it does
not get back. -/
theorem Stands.perform (h : Stands g ps) (ha : a.Clean)
    (hcount : count (ps.map Prod.snd) a = some ns') (hperform : g.perform a.text = .ok g') :
    Stands g' (track ps a) ∧ ns' = (track ps a).map Prod.snd ∧
      ∀ x, owed x ps - g.listed x ≤ owed x (track ps a) - g'.listed x := by
  match ps, h, hcount with
  | (thread, n) :: outer, h, hcount =>
      obtain ⟨hcurr, hparents⟩ := List.cons_eq_cons.mp h
      cases a with
      | fork name time =>
          obtain ⟨hcurr', hparents', hlisted⟩ := perform_fork_ok ha.1 ha.2 hperform
          cases hcount
          refine ⟨?_, rfl, fun x => ?_⟩
          · rw [Stands, hcurr', hparents']
            exact congrArg (name :: ·) h
          · have hnonneg := g.listed_nonneg x
            simp only [track, owed_cons, hlisted x, ← hcurr, eq_comm (a := x)]
            split <;> split <;> omega
      | exit =>
          obtain ⟨hparents', hlisted⟩ := add_exit_ok ((perform_exit g).symm.trans hperform)
          match outer, hparents, hcount with
          | (parent, m) :: outer, hparents, hcount =>
              rw [List.map_cons, List.map_cons, count] at hcount
              split at hcount
              case isTrue hzero =>
                cases hcount
                refine ⟨hparents.trans hparents', rfl, fun x => ?_⟩
                simp only [track, owed_cons, hlisted x]
                split <;> omega
              case isFalse => cases hcount
      | wait =>
          obtain ⟨hcurr', hparents', -, hlisted⟩ :=
            add_wait_ok ((perform_wait g).symm.trans hperform)
          cases hcount
          refine ⟨?_, rfl, fun x => ?_⟩
          · rw [Stands, hcurr', hparents']
            exact h
          · simp only [track, owed_cons, hlisted x, ← hcurr, eq_comm (a := x)]
            split <;> omega

/-- At the end nothing is owed, so no name has lost anything. -/
theorem Stands.owed_le (h : Stands g ps) (hclean : ∀ a ∈ as, a.Clean)
    (hcount : as.foldlM count (ps.map Prod.snd) = some [0])
    (hrun : (as.map Action.text).foldlM CodeGenerator.perform g = .ok g') (x : Text) :
    owed x ps ≤ g.listed x := by
  induction as generalizing g ps with
  | nil =>
      cases hrun
      obtain ⟨⟨thread, n⟩, rfl⟩ : ∃ p, ps = [p] := by
        have hlength := congrArg List.length (Option.some.inj hcount)
        rw [List.length_map] at hlength
        exact List.length_eq_one_iff.mp hlength
      obtain rfl : n = 0 := by
        cases hcount
        rfl
      have hnonneg := g'.listed_nonneg x
      simpa using hnonneg
  | cons a as ih =>
      obtain ⟨ha, has⟩ := List.forall_mem_cons.mp hclean
      rw [List.foldlM_cons] at hcount
      rw [List.map_cons, List.foldlM_cons] at hrun
      obtain ⟨ns, hstep, hcount⟩ := Option.bind_eq_some_iff.mp hcount
      cases hperform : g.perform a.text with
      | error e =>
          rw [hperform] at hrun
          cases hrun
      | ok next =>
          rw [hperform] at hrun
          obtain ⟨hnext, rfl, hmono⟩ := h.perform ha hstep hperform
          have hle := ih hnext has hcount hrun
          have hlost := hmono x
          omega

/-! ## Lists that nest well -/

def Frames.tracked (frames : Frames) : Counts := frames.map fun frame => (frame.1, (frame.2 : ℤ))

theorem owed_of_notMem {frames : Frames} (h : x ∉ frames.map Prod.fst) :
    owed x frames.tracked = 0 := by
  induction frames with
  | nil => rfl
  | cons frame outer ih =>
      rw [List.map_cons, List.mem_cons, not_or] at h
      rw [Frames.tracked, List.map_cons, owed_cons, if_neg (Ne.symm h.1), zero_add]
      exact ih h.2

theorem owed_nonneg (x : Text) (frames : Frames) : 0 ≤ owed x frames.tracked := by
  apply List.sum_nonneg
  intro n hn
  obtain ⟨p, hp, rfl⟩ := List.mem_map.mp hn
  obtain ⟨frame, -, rfl⟩ := List.mem_map.mp hp
  dsimp only
  split <;> omega

theorem owed_pos {frames : Frames} (hpos : ∀ frame ∈ frames, 0 < frame.2)
    (h : x ∈ frames.map Prod.fst) : 0 < owed x frames.tracked := by
  induction frames with
  | nil => cases h
  | cons frame outer ih =>
      obtain ⟨hframe, houter⟩ := List.forall_mem_cons.mp hpos
      have hnonneg := owed_nonneg x outer
      rw [Frames.tracked, List.map_cons, owed_cons]
      change 0 < (if frame.1 = x then (frame.2 : ℤ) else 0) + owed x (Frames.tracked outer)
      obtain heq | hmem := List.mem_cons.mp h
      · rw [if_pos heq.symm]
        omega
      · have hlt := ih houter hmem
        split <;> omega

/-- A code generator that succeeds finds a child for each wait, and never begins a process
under the name of one that waits. -/
theorem nest_of_runs {k : ℕ} {outer : Frames}
    (h : Stands g (Frames.tracked ((thread, k) :: outer)))
    (hnodup : thread ∉ outer.map Prod.fst ∧ (outer.map Prod.fst).Nodup)
    (hpos : ∀ frame ∈ outer, 0 < frame.2)
    (hkept : ∀ x, g.listed x ≤ owed x (Frames.tracked ((thread, k) :: outer)))
    (hclean : ∀ a ∈ as, a.Clean)
    (hcount : as.foldlM count ((Frames.tracked ((thread, k) :: outer)).map Prod.snd) = some [0])
    (hrun : (as.map Action.text).foldlM CodeGenerator.perform g = .ok g') :
    ∃ frames, as.foldlM nest ((thread, k) :: outer) = some frames := by
  induction as generalizing g thread k outer with
  | nil => exact ⟨_, rfl⟩
  | cons a as ih =>
      obtain ⟨ha, has⟩ := List.forall_mem_cons.mp hclean
      rw [List.foldlM_cons] at hcount
      rw [List.map_cons, List.foldlM_cons] at hrun
      obtain ⟨ns, hstep, hcount⟩ := Option.bind_eq_some_iff.mp hcount
      cases hperform : g.perform a.text with
      | error e =>
          rw [hperform] at hrun
          cases hrun
      | ok next =>
          rw [hperform] at hrun
          obtain ⟨hnext, rfl, hmono⟩ := h.perform ha hstep hperform
          have hkept' : ∀ x, next.listed x ≤
              owed x (track (Frames.tracked ((thread, k) :: outer)) a) := by
            intro x
            have hx := hkept x
            have hx' := hmono x
            omega
          rw [List.foldlM_cons]
          cases a with
          | fork name time =>
              have hle := hnext.owed_le has hcount hrun name
              have hbegun := (perform_fork_ok ha.1 ha.2 hperform).2.2 name
              rw [if_pos rfl] at hbegun
              have hfresh : name ∉ ((thread, k + 1) :: outer).map Prod.fst := by
                intro hmem
                have hlt := owed_pos (List.forall_mem_cons.mpr ⟨Nat.succ_pos k, hpos⟩) hmem
                simp only [Frames.tracked, List.map_cons, track, owed_cons] at hle hlt
                push_cast at hlt
                split at hle <;> omega
              have hnew := hfresh
              rw [List.map_cons, List.mem_cons, not_or] at hnew
              obtain ⟨frames, hframes⟩ := ih hnext ⟨hfresh, List.nodup_cons.mpr hnodup⟩
                (List.forall_mem_cons.mpr ⟨Nat.succ_pos k, hpos⟩) hkept' has hcount hrun
              refine ⟨frames, ?_⟩
              rw [nest, if_neg (not_or.mpr hnew)]
              exact hframes
          | wait =>
              obtain ⟨-, -, hlisted, -⟩ := add_wait_ok ((perform_wait g).symm.trans hperform)
              have hthread := hkept thread
              have hcurr : thread = g.curr_thread := (List.cons_eq_cons.mp h).1
              rw [← hcurr] at hlisted
              simp only [Frames.tracked, List.map_cons, owed_cons, if_pos] at hthread
              rw [← Frames.tracked, owed_of_notMem hnodup.1] at hthread
              obtain ⟨j, rfl⟩ := Nat.exists_eq_succ_of_ne_zero (n := k) (by omega)
              have hless : track (Frames.tracked ((thread, j + 1) :: outer)) .wait =
                  Frames.tracked ((thread, j) :: outer) := by
                simp [Frames.tracked, track]
              rw [hless] at hnext hkept' hcount
              exact ih hnext hnodup hpos hkept' has hcount hrun
          | exit =>
              cases outer with
              | nil => cases hstep
              | cons parent outer =>
                  obtain ⟨hnotMem, hnodup⟩ := List.nodup_cons.mp hnodup.2
                  exact ih hnext ⟨hnotMem, hnodup⟩ (List.forall_mem_cons.mp hpos).2 hkept' has
                    hcount hrun

theorem complete_iff_nestsWell (hclean : ∀ a ∈ as, a.Clean)
    (hcount : as.foldlM count [0] = some [0]) :
    Complete (as.map Action.text) ↔ NestsWell as := by
  constructor
  · rintro ⟨program, hgenerate, -⟩
    cases hrun : (as.map Action.text).foldlM CodeGenerator.perform .start with
    | error e =>
        rw [CodeGenerator.generate, hrun] at hgenerate
        cases hgenerate
    | ok g =>
        have hstands : Stands .start (Frames.tracked [(['a'], 0)]) := rfl
        refine nest_of_runs hstands ⟨List.not_mem_nil, List.nodup_nil⟩ (by simp) ?_ hclean
          hcount hrun
        intro x
        have hempty : CodeGenerator.listed .start x = 0 := by
          rw [CodeGenerator.start, CodeGenerator.add_thread, listed_update rfl x]
          split <;> rfl
        rw [hempty]
        exact owed_nonneg x _
  · exact complete_of_nestsWell hclean hcount

/-- Every list of the random generator is turned into a complete program. On the text of a
program the parser raises when the tokens end in a fork without a block, and an accepted list
is turned into a complete program when it nests well. -/
theorem generator_complete_iff (program : Text) :
    (∀ num_actions draws actions,
      ProgramGenerator.generate num_actions draws = some actions → Complete actions) ∧
    ∃ ts outcome, tokens program = some ts ∧ parse program = some outcome ∧
      (((∀ error, outcome ≠ .raises error) ∧
          ∀ action_list, outcome = .returns action_list → Complete action_list) ↔
        ¬BareFork ts ∧ ∀ as, Reads ts as [0] → NestsWell as) := by
  refine ⟨fun _ _ _ => generate_complete, ?_⟩
  obtain ⟨ts, outcome, hts, htokens, hparse, hreturns, hraises⟩ := parse_spec program
  refine ⟨ts, outcome, hts, hparse, and_congr ?_ ?_⟩
  · constructor
    · intro h hbare
      exact h .indexError ((hraises .indexError).mpr ⟨rfl, hbare⟩)
    · intro h error heq
      exact h ((hraises error).mp heq).2
  · constructor
    · intro h as hreads
      have hcomplete := h _ ((hreturns _).mpr ⟨as, hreads, rfl⟩)
      exact (complete_iff_nestsWell (hreads.clean htokens) hreads.count).mp hcomplete
    · intro h action_list heq
      obtain ⟨as, hreads, rfl⟩ := (hreturns action_list).mp heq
      exact (complete_iff_nestsWell (hreads.clean htokens) hreads.count).mpr (h as hreads)

theorem generator_complete_iff_oneFork :
    Complete [forkText ['b'] ['3'], exitText, waitText] ∧
      ¬BareFork ["fork".toList, "b,3".toList, lbrace, rbrace, waitText] := by
  obtain ⟨hgenerate, ts, outcome, hts, hparse, hiff⟩ :=
    generator_complete_iff "fork b,3 \x7b\x7d wait".toList
  have hdrawn : Complete [forkText ['b'] ['3'], exitText, waitText] :=
    hgenerate 1 [.fork 3] _ (by rfl)
  refine ⟨hdrawn, ?_⟩
  have htokens : tokens "fork b,3 \x7b\x7d wait".toList =
      some ["fork".toList, "b,3".toList, lbrace, rbrace, waitText] := by
    decide +kernel
  have houtcome : parse "fork b,3 \x7b\x7d wait".toList =
      some (.returns [forkText ['b'] ['3'], exitText, waitText]) := by
    decide +kernel
  cases htokens.symm.trans hts
  cases houtcome.symm.trans hparse
  refine (hiff.mp ⟨fun error heq => ?_, fun action_list heq => ?_⟩).1
  · cases heq
  · cases heq
    exact hdrawn

theorem not_complete_of_error {action_list : List Text} {e : Failure}
    (h : CodeGenerator.generate action_list = .error e) : ¬Complete action_list := by
  rintro ⟨program, hgenerate, -⟩
  cases h.symm.trans hgenerate

/-- A fork at the end of the text makes the parser raise; a wait before its fork is accepted
and leaves the code generator without a child to wait for; and a process under the name of its
parent empties its list. -/
theorem generator_fails :
    parse "fork b,1".toList = some (.raises .indexError) ∧
    (∃ action_list, parse "wait fork b,1 \x7b\x7d".toList = some (.returns action_list) ∧
      ¬Complete action_list) ∧
    ∃ action_list, parse "fork a,1 \x7b\x7d wait".toList = some (.returns action_list) ∧
      ¬Complete action_list := by
  have hwait : parse "wait fork b,1 \x7b\x7d".toList =
      some (.returns [waitText, forkText ['b'] ['1'], exitText]) := by
    decide +kernel
  have hname : parse "fork a,1 \x7b\x7d wait".toList =
      some (.returns [forkText ['a'] ['1'], exitText, waitText]) := by
    decide +kernel
  refine ⟨by decide +kernel, ⟨_, hwait, ?_⟩, _, hname, ?_⟩
  · exact not_complete_of_error (e := .indexError) rfl
  · exact not_complete_of_error (e := .indexError) rfl

end OsLabs.Generator
