import OsLabs.Generator.Emitter
import OsLabs.Generator.Grammar

/-!
# Nested processes

What a list of actions says about processes and their children, and the code
generator on lists whose processes have names of their own.
-/

namespace OsLabs.Generator

open OsLabs.Brackets

local instance lawfulBEq_text : LawfulBEq Text := inferInstance

abbrev Frames := List (Text × ℕ)

/-- The processes that the next action is nested in, innermost first, each with its number of
children not waited for. There are none behind a fork that takes the name of one of them, or a
wait without a child. -/
def nest : Frames → Action → Option Frames
  | (thread, n) :: outer, .fork name _ =>
      if name = thread ∨ name ∈ outer.map Prod.fst then none
      else some ((name, 0) :: (thread, n + 1) :: outer)
  | (thread, n + 1) :: outer, .wait => some ((thread, n) :: outer)
  | _ :: parent :: outer, .exit => some (parent :: outer)
  | _, _ => none

/-- No fork takes the name of a process that it is nested in, and each wait of a process comes
behind more forks than waits of it. -/
def NestsWell (actions : List Action) : Prop :=
  ∃ frames, actions.foldlM nest [(['a'], 0)] = some frames

/-- The counts of the parser, innermost first. -/
def count : List ℤ → Action → Option (List ℤ)
  | n :: ns, .fork _ _ => some (0 :: (n + 1) :: ns)
  | n :: ns, .wait => some ((n - 1) :: ns)
  | n :: m :: ns, .exit => if n = 0 then some (m :: ns) else none
  | _, _ => none

def Action.Clean : Action → Prop
  | .fork name time => Generator.Clean name ∧ Generator.Clean time
  | _ => True

variable {ts : List Text} {as : List Action} {ns ns' : List ℤ} {g : CodeGenerator}
  {name time thread : Text} {frames frames' : Frames}

theorem Reads.count (h : Reads ts as ns) : as.foldlM count [0] = some ns := by
  induction h with
  | start => rfl
  | fork h hargs ih => rw [List.foldlM_append, ih]; rfl
  | wait h ih => rw [List.foldlM_append, ih]; rfl
  | exit h ih => rw [List.foldlM_append, ih]; rfl

theorem clean_of_args {args : Text} (htoken : IsToken args)
    (hargs : args.splitOn ',' = [name, time]) : Clean name ∧ Clean time := by
  have heq : args = name ++ ',' :: time := by
    have hjoin : [','].intercalate (args.splitOn ',') = args := List.intercalate_splitOn ','
    rw [← hjoin, hargs]
    simp [List.intercalate_cons_cons]
  obtain ⟨-, rfl | rfl | hclean⟩ := htoken
  · cases hargs
  · cases hargs
  · subst heq
    exact ⟨hclean.mono (List.subset_append_left _ _),
      hclean.mono fun c hc => List.mem_append_right _ (List.mem_cons_of_mem _ hc)⟩

theorem Reads.clean (h : Reads ts as ns) (htokens : ∀ token ∈ ts, IsToken token) :
    ∀ a ∈ as, a.Clean := by
  induction h with
  | start => simp
  | @fork ts as n ns args name time h hargs ih =>
      obtain ⟨hts, hnew⟩ := List.forall_mem_append.mp htokens
      refine List.forall_mem_append.mpr ⟨ih hts, List.forall_mem_singleton.mpr ?_⟩
      exact clean_of_args (hnew args (by simp)) hargs
  | wait h ih =>
      have hts := (List.forall_mem_append.mp htokens).1
      exact List.forall_mem_append.mpr ⟨ih hts, List.forall_mem_singleton.mpr trivial⟩
  | exit h ih =>
      have hts := (List.forall_mem_append.mp htokens).1
      exact List.forall_mem_append.mpr ⟨ih hts, List.forall_mem_singleton.mpr trivial⟩

/-! ## What is written -/

/-- The braces that are open behind these lines, and the processes of their program. -/
def Shows (out : List Write) (open_braces : ℕ) (ns : List ℕ) : Prop :=
  depth '\x7b' '\x7d' 0 (out.flatMap Write.text) = some open_braces ∧ execute [0] out = some ns

/-- A line without braces that is no wait. -/
def Plain (write : Write) : Prop :=
  (∀ n, depth '\x7b' '\x7d' n write.text = some n) ∧ ∀ ns, executeWrite ns write = some ns

variable {out : List Write} {w : Write} {d d' : ℕ} {ms ms' : List ℕ}

theorem Shows.write (h : Shows out d ms) (hdepth : depth '\x7b' '\x7d' d w.text = some d')
    (hexecute : executeWrite ms w = some ms') : Shows (out ++ [w]) d' ms' := by
  constructor
  · rw [List.flatMap_append, depth_append, h.1, List.flatMap_singleton]
    exact hdepth
  · rw [execute, List.foldlM_append, ← execute, h.2]
    simp [hexecute]

theorem Shows.plain (h : Shows out d ms) (hwrite : Plain w) : Shows (out ++ [w]) d ms :=
  h.write (hwrite.1 d) (hwrite.2 ms)

theorem plain_tab : Plain .tab := by
  constructor
  · exact depth_of_notMem (by decide) (by decide)
  · intro ns
    cases ns <;> rfl

theorem Shows.tabs (h : Shows out d ms) (n : ℕ) :
    Shows (out ++ List.replicate n .tab) d ms := by
  induction n with
  | zero => simpa using h
  | succ n ih =>
      rw [List.replicate_succ', ← List.append_assoc]
      exact ih.plain plain_tab

theorem Shows.line (h : Shows g.out d ms) (hdepth : depth '\x7b' '\x7d' d w.text = some d')
    (hexecute : executeWrite ms w = some ms') : Shows (g.line w).out d' ms' := by
  have hline := (h.tabs g.tab_level).write hdepth hexecute
  rwa [List.append_assoc] at hline

theorem Shows.plainLine (h : Shows g.out d ms) (hwrite : Plain w) :
    Shows (g.line w).out d ms :=
  h.line (hwrite.1 d) (hwrite.2 ms)

def Braceless (text : Text) : Prop := '\x7b' ∉ text ∧ '\x7d' ∉ text

theorem Braceless.append {text text' : Text} (h : Braceless text) (h' : Braceless text') :
    Braceless (text ++ text') := by
  unfold Braceless
  simp only [List.mem_append, not_or]
  exact ⟨⟨h.1, h'.1⟩, h.2, h'.2⟩

theorem Braceless.around {before after : Text} (hbefore : Braceless before) (h : Clean thread)
    (hafter : Braceless after) : Braceless (before ++ thread ++ after) :=
  (hbefore.append h.2).append hafter

theorem Braceless.depth {text : Text} (h : Braceless text) (n : ℕ) :
    depth '\x7b' '\x7d' n text = some n :=
  depth_of_notMem h.1 h.2 n

theorem braceless_quote : Braceless "\");\n".toList := ⟨by decide, by decide⟩

theorem plain_beginThread (h : Clean thread) : Plain (.beginThread thread) := by
  constructor
  · exact (Braceless.around ⟨by decide, by decide⟩ h braceless_quote).depth
  · intro ns
    cases ns <;> rfl

theorem plain_endThread (h : Clean thread) : Plain (.endThread thread) := by
  constructor
  · exact (Braceless.around ⟨by decide, by decide⟩ h braceless_quote).depth
  · intro ns
    cases ns <;> rfl

theorem plain_record (h : Clean thread) : Plain (.record thread) := by
  constructor
  · exact (Braceless.around ⟨by decide, by decide⟩ h braceless_quote).depth
  · intro ns
    cases ns <;> rfl

theorem plain_sleep (h : Clean time) : Plain (.sleep time) := by
  constructor
  · exact (Braceless.around ⟨by decide, by decide⟩ h ⟨by decide, by decide⟩).depth
  · intro ns
    cases ns <;> rfl

theorem plain_fork (h : Clean thread) (hname : Clean name) : Plain (.fork thread name) := by
  constructor
  · have hthread : Braceless ("Fork(\"".toList ++ thread ++ "\", \"".toList) :=
      Braceless.around ⟨by decide, by decide⟩ h ⟨by decide, by decide⟩
    exact (hthread.around hname braceless_quote).depth
  · intro ns
    cases ns <;> rfl

theorem depth_wait (h : Clean thread) (n : ℕ) :
    depth '\x7b' '\x7d' n (Write.wait thread).text = some n :=
  (Braceless.around ⟨by decide, by decide⟩ h braceless_quote).depth n

theorem depth_ifFork (n : ℕ) : depth '\x7b' '\x7d' n Write.ifFork.text = some (n + 1) := by
  rfl

theorem depth_close (n : ℕ) : depth '\x7b' '\x7d' (n + 1) Write.close.text = some n := by
  rfl

theorem depth_fini : depth '\x7b' '\x7d' 1 Write.fini.text = some 0 := by
  rfl

theorem shows_main : Shows [.main] 1 [0] :=
  ⟨by decide +kernel, rfl⟩

/-! ## The words of an action -/

theorem splitOn_forkText (hname : Clean name) (htime : Clean time) :
    (forkText name time).splitOn ' ' = ["fork".toList, name, time] := by
  have hfork : ' ' ∉ "fork".toList := by decide
  have hspace : "fork ".toList = "fork".toList ++ [' '] := by decide
  have heq : forkText name time = "fork".toList ++ ' ' :: (name ++ ' ' :: time) := by
    rw [forkText, hspace, List.append_assoc, List.append_assoc, List.singleton_append]
  rw [heq, List.splitOn_append_cons_self_of_not_mem hfork,
    List.splitOn_append_cons_self_of_not_mem hname.1, List.splitOn_eq_singleton htime.1]

theorem perform_fork (hname : Clean name) (htime : Clean time) (g : CodeGenerator) :
    g.perform (forkText name time) = do
      let g ← g.add_fork name
      return (g.add_sleep time).add_thread name := by
  unfold CodeGenerator.perform
  rw [splitOn_forkText hname htime]
  rfl

theorem perform_exit (g : CodeGenerator) : g.perform exitText = g.add_exit := by
  rfl

theorem perform_wait (g : CodeGenerator) : g.perform waitText = g.add_wait := by
  rfl

/-! ## The code generator -/

/-- The code generator stands in these processes. -/
structure CodeGenerator.Matches (g : CodeGenerator) (frames : Frames) : Prop where
  threads : frames.map Prod.fst = g.curr_thread :: g.parent_list
  nodup : (frames.map Prod.fst).Nodup
  waiting : ∀ frame ∈ frames, ∃ children, g.waiting_for frame.1 = some children ∧
    children.length = frame.2
  clean : ∀ frame ∈ frames, Clean frame.1
  shows : Shows g.out frames.length (frames.map Prod.snd)

theorem matches_start : CodeGenerator.start.Matches [(['a'], 0)] where
  threads := rfl
  nodup := List.nodup_singleton _
  waiting := List.forall_mem_singleton.mpr ⟨[], rfl, rfl⟩
  clean := List.forall_mem_singleton.mpr ⟨by decide, by decide, by decide⟩
  shows := (shows_main.tabs 1).plain (plain_beginThread ⟨by decide, by decide, by decide⟩)

theorem CodeGenerator.Matches.head {n : ℕ} (h : g.Matches ((thread, n) :: frames)) :
    g.curr_thread = thread ∧ g.parent_list = frames.map Prod.fst ∧ Clean thread ∧
      ∃ children, g.waiting_for thread = some children ∧ children.length = n := by
  have hthreads := h.threads
  rw [List.map_cons, List.cons.injEq] at hthreads
  exact ⟨hthreads.1.symm, hthreads.2.symm, h.clean _ List.mem_cons_self,
    h.waiting _ List.mem_cons_self⟩

/-- The lists of the other processes stay when the one of the innermost process changes. -/
theorem CodeGenerator.Matches.others {n : ℕ} (h : g.Matches ((thread, n) :: frames))
    (children : Option (List Text)) :
    ∀ frame ∈ frames, ∃ waited, Function.update g.waiting_for thread children frame.1 =
      some waited ∧ waited.length = frame.2 := by
  intro frame hframe
  have hne : frame.1 ≠ thread := by
    rintro heq
    have hnodup := h.nodup
    rw [List.map_cons, List.nodup_cons] at hnodup
    exact hnodup.1 (List.mem_map.mpr ⟨frame, hframe, heq⟩)
  rw [Function.update_of_ne hne]
  exact h.waiting frame (List.mem_cons_of_mem _ hframe)

theorem CodeGenerator.Matches.wait {n : ℕ} (h : g.Matches ((thread, n + 1) :: frames)) :
    ∃ g', g.add_wait = .ok g' ∧ g'.Matches ((thread, n) :: frames) := by
  obtain ⟨hcurr, hparents, hclean, children, hchildren, hlength⟩ := h.head
  cases children with
  | nil => cases hlength
  | cons child children =>
      rw [CodeGenerator.add_wait, hcurr, hchildren]
      refine ⟨_, rfl, ?_⟩
      constructor
      · exact h.threads
      · exact h.nodup
      · refine List.forall_mem_cons.mpr ⟨⟨children, ?_, ?_⟩, ?_⟩
        · rw [CodeGenerator.line]
          exact Function.update_self ..
        · exact Nat.succ_injective hlength
        · exact h.others (some children)
      · exact List.forall_mem_cons.mpr ⟨hclean, (List.forall_mem_cons.mp h.clean).2⟩
      · exact h.shows.line (depth_wait hclean _) rfl

theorem CodeGenerator.Matches.exit {parent : Text × ℕ}
    (h : g.Matches ((thread, 0) :: parent :: frames)) :
    ∃ g', g.add_exit = .ok g' ∧ g'.Matches (parent :: frames) := by
  obtain ⟨hcurr, hparents, hclean, children, hchildren, hlength⟩ := h.head
  obtain rfl := List.length_eq_zero_iff.mp hlength
  have hended := h.shows.plainLine (plain_endThread hclean)
  rw [CodeGenerator.add_exit, hcurr, hchildren]
  dsimp only
  rw [hparents]
  refine ⟨_, rfl, ?_⟩
  constructor
  · rfl
  · exact (List.nodup_cons.mp h.nodup).2
  · exact (List.forall_mem_cons.mp h.waiting).2
  · exact (List.forall_mem_cons.mp h.clean).2
  · refine Shows.plainLine ?_ (plain_record hclean)
    exact Shows.line (g := { g.line (.endThread thread) with tab_level := g.tab_level - 1 })
      hended (depth_close _) rfl

theorem CodeGenerator.Matches.add_fork {n : ℕ} (h : g.Matches ((thread, n) :: frames))
    (hname : Clean name) :
    ∃ g' children, g.add_fork name = .ok g' ∧ g'.parent_list = thread :: frames.map Prod.fst ∧
      children.length = n + 1 ∧
        g'.waiting_for = Function.update g.waiting_for thread (some children) ∧
          Shows g'.out (frames.length + 2) (0 :: (n + 1) :: frames.map Prod.snd) := by
  obtain ⟨hcurr, hparents, hclean, children, hchildren, hlength⟩ := h.head
  have hfork := h.shows.plainLine (plain_fork hclean hname)
  have hif : Shows ((g.line (.fork thread name)).line .ifFork).out (frames.length + 2)
      (0 :: (n + 1) :: frames.map Prod.snd) := hfork.line (depth_ifFork _) rfl
  rw [CodeGenerator.add_fork, hcurr, hchildren, hparents]
  refine ⟨_, children ++ [name], rfl, rfl, ?_, rfl, hif⟩
  rw [List.length_append, hlength, List.length_singleton]

theorem CodeGenerator.Matches.fork {n : ℕ} (h : g.Matches ((thread, n) :: frames))
    (hname : Clean name) (htime : Clean time) (hne : name ≠ thread)
    (hnew : name ∉ frames.map Prod.fst) :
    ∃ g', g.perform (forkText name time) = .ok g' ∧
      g'.Matches ((name, 0) :: (thread, n + 1) :: frames) := by
  obtain ⟨g', children, hforked, hparents, hlength, hwaiting, hshows⟩ := h.add_fork hname
  rw [perform_fork hname htime, hforked]
  refine ⟨_, rfl, ?_⟩
  constructor
  · exact congrArg (name :: ·) hparents.symm
  · refine List.nodup_cons.mpr ⟨?_, h.nodup⟩
    rw [List.map_cons, List.mem_cons, not_or]
    exact ⟨hne, hnew⟩
  · refine List.forall_mem_cons.mpr ⟨⟨[], Function.update_self .., rfl⟩, fun frame hframe => ?_⟩
    have hother : frame.1 ≠ name := by
      rintro rfl
      obtain rfl | hframe := List.mem_cons.mp hframe
      · exact hne rfl
      · exact hnew (List.mem_map_of_mem hframe)
    have hkept : ∃ waited, g'.waiting_for frame.1 = some waited ∧ waited.length = frame.2 := by
      rw [hwaiting]
      obtain rfl | hframe := List.mem_cons.mp hframe
      · exact ⟨children, Function.update_self .., hlength⟩
      · exact h.others (some children) frame hframe
    obtain ⟨waited, hwaited, heq⟩ := hkept
    exact ⟨waited, (Function.update_of_ne hother _ _).trans hwaited, heq⟩
  · refine List.forall_mem_cons.mpr ⟨hname, ?_⟩
    exact List.forall_mem_cons.mpr (List.forall_mem_cons.mp h.clean)
  · exact (hshows.plainLine (plain_sleep htime)).plainLine (plain_beginThread hname)

/-! ## Lists of actions -/

def Frames.counts (frames : Frames) : List ℤ := frames.map fun frame => (frame.2 : ℤ)

/-- One action that both the processes and the counts of the parser allow. -/
theorem CodeGenerator.Matches.perform {a : Action} (h : g.Matches frames) (ha : a.Clean)
    (hnest : nest frames a = some frames') (hcount : count frames.counts a = some ns') :
    ∃ g', g.perform a.text = .ok g' ∧ g'.Matches frames' ∧ ns' = frames'.counts := by
  cases a with
  | fork name time =>
      cases frames with
      | nil => cases hnest
      | cons frame outer =>
          obtain ⟨thread, n⟩ := frame
          rw [nest] at hnest
          split at hnest
          case isTrue => cases hnest
          case isFalse hfresh =>
            cases hnest
            cases hcount
            obtain ⟨hne, hnew⟩ := not_or.mp hfresh
            obtain ⟨g', hperform, hg'⟩ := h.fork ha.1 ha.2 hne hnew
            exact ⟨g', hperform, hg', rfl⟩
  | exit =>
      match frames, hnest with
      | (thread, n) :: parent :: outer, rfl =>
          rw [Frames.counts, List.map_cons, List.map_cons, count] at hcount
          split at hcount
          case isTrue hzero =>
            cases hcount
            obtain rfl : n = 0 := Int.natCast_eq_zero.mp hzero
            obtain ⟨g', hexit, hg'⟩ := h.exit
            exact ⟨g', (perform_exit g).trans hexit, hg', rfl⟩
          case isFalse => cases hcount
  | wait =>
      match frames, hnest with
      | (thread, n + 1) :: outer, rfl =>
          cases hcount
          obtain ⟨g', hwait, hg'⟩ := h.wait
          refine ⟨g', (perform_wait g).trans hwait, hg', ?_⟩
          simp [Frames.counts]

theorem CodeGenerator.Matches.foldlM (h : g.Matches frames) (hclean : ∀ a ∈ as, a.Clean)
    (hnest : as.foldlM nest frames = some frames')
    (hcount : as.foldlM count frames.counts = some ns') :
    ∃ g', (as.map Action.text).foldlM CodeGenerator.perform g = .ok g' ∧ g'.Matches frames' ∧
      ns' = frames'.counts := by
  induction as generalizing g frames with
  | nil =>
      cases hnest
      cases hcount
      exact ⟨g, rfl, h, rfl⟩
  | cons a as ih =>
      obtain ⟨ha, has⟩ := List.forall_mem_cons.mp hclean
      rw [List.foldlM_cons] at hnest hcount
      obtain ⟨middle, hstep, hnest⟩ := Option.bind_eq_some_iff.mp hnest
      obtain ⟨ns, hstep', hcount⟩ := Option.bind_eq_some_iff.mp hcount
      obtain ⟨g₁, hperform, h₁, rfl⟩ := h.perform ha hstep hstep'
      obtain ⟨g', hrun, hg', heq⟩ := ih h₁ has hnest hcount
      refine ⟨g', ?_, hg', heq⟩
      rw [List.map_cons, List.foldlM_cons, hperform]
      exact hrun

/-- The code generator writes a whole program for actions that nest well and whose waits and
forks agree in number. -/
theorem complete_of_nestsWell (hclean : ∀ a ∈ as, a.Clean)
    (hcount : as.foldlM count [0] = some [0]) (hnest : NestsWell as) :
    Complete (as.map Action.text) := by
  obtain ⟨frames, hframes⟩ := hnest
  obtain ⟨g, hrun, hg, hcounts⟩ := matches_start.foldlM hclean hframes hcount
  have hlength : frames.length = 1 := by
    have heq := congrArg List.length hcounts
    rw [Frames.counts, List.length_map] at heq
    exact heq.symm
  have hshows := hg.shows
  rw [hlength] at hshows
  have hfini : executeWrite (frames.map Prod.snd) .fini = some (frames.map Prod.snd) := by
    cases frames <;> rfl
  have hwhole := hshows.write depth_fini hfini
  refine ⟨g.out ++ [Write.fini], ?_, hwhole.1, frames.map Prod.snd, hwhole.2⟩
  rw [CodeGenerator.generate, hrun]
  rfl

end OsLabs.Generator
