import OsLabs.Generator.Nesting

/-!
# Random programs

Every list of the random generator nests well, and ends in the first process
with all its children waited for.
-/

namespace OsLabs.Generator

variable {as : List Action} {a : Action} {g g' : ProgramGenerator} {frames frames' outer : Frames}
  {thread name : Text} {n m added : ℤ} {k : ℕ}

/-- Clean actions that lead to these processes, by the counts of the parser as well. -/
structure Leads (as : List Action) (frames : Frames) : Prop where
  clean : ∀ a ∈ as, a.Clean
  nests : as.foldlM nest [(['a'], 0)] = some frames
  counts : as.foldlM count [0] = some frames.counts

theorem leads_nil : Leads [] [(['a'], 0)] where
  clean := by simp
  nests := rfl
  counts := rfl

theorem Leads.append (h : Leads as frames) (ha : a.Clean) (hnest : nest frames a = some frames')
    (hcount : count frames.counts a = some frames'.counts) : Leads (as ++ [a]) frames' where
  clean := List.forall_mem_append.mpr ⟨h.clean, List.forall_mem_singleton.mpr ha⟩
  nests := by
    rw [List.foldlM_append, h.nests]
    simp [hnest]
  counts := by
    rw [List.foldlM_append, h.counts]
    simp [hcount]

theorem Leads.wait (h : Leads as ((thread, k + 1) :: outer)) :
    Leads (as ++ [.wait]) ((thread, k) :: outer) :=
  h.append trivial rfl (by simp [Frames.counts, count])

theorem Leads.waits (h : Leads as ((thread, k) :: outer)) :
    Leads (as ++ List.replicate k .wait) ((thread, 0) :: outer) := by
  induction k generalizing as with
  | zero => simpa using h
  | succ k ih =>
      have hwait := ih h.wait
      rwa [List.append_assoc, List.singleton_append, ← List.replicate_succ] at hwait

theorem Leads.exit {parent : Text × ℕ} (h : Leads as ((thread, 0) :: parent :: outer)) :
    Leads (as ++ [.exit]) (parent :: outer) :=
  h.append trivial rfl rfl

theorem Leads.fork {time : Text} (h : Leads as ((thread, k) :: outer)) (hname : Clean name)
    (htime : Clean time) (hnew : ∀ frame ∈ (thread, k) :: outer, frame.1 ≠ name) :
    Leads (as ++ [.fork name time]) ((name, 0) :: (thread, k + 1) :: outer) := by
  refine h.append ⟨hname, htime⟩ ?_ (by simp [Frames.counts, count])
  obtain ⟨hne, hother⟩ := List.forall_mem_cons.mp hnew
  rw [nest, if_neg]
  rintro (rfl | hmem)
  · exact hne rfl
  · obtain ⟨frame, hframe, heq⟩ := List.mem_map.mp hmem
    exact hother frame hframe heq

theorem Leads.complete (h : Leads as [(thread, 0)]) : Complete (as.map Action.text) :=
  complete_of_nestsWell h.clean h.counts ⟨_, h.nests⟩

/-! ## The generator -/

/-- The generator has written these actions and stands in these processes. -/
structure ProgramGenerator.Follows (g : ProgramGenerator) (as : List Action) (frames : Frames) :
    Prop where
  actions : g.actions = as.map Action.text
  leads : Leads as frames
  level : g.fork_level + 1 = frames.length
  counted : Counted g.need_wait frames.counts
  named : ∀ frame ∈ frames, ∃ i < g.name_index, (names[i]?).map (fun c => [c]) = some frame.1

theorem follows_start : ProgramGenerator.start.Follows [] [(['a'], 0)] where
  actions := rfl
  leads := leads_nil
  level := rfl
  counted := ⟨rfl, trivial⟩
  named := List.forall_mem_singleton.mpr ⟨0, Nat.zero_lt_one, rfl⟩

theorem ProgramGenerator.Follows.outermost (h : g.Follows as ((thread, k) :: outer)) :
    g.fork_level = outer.counts.length := by
  have hlevel := h.level
  rw [List.length_cons, Nat.add_right_cancel_iff] at hlevel
  rw [hlevel, Frames.counts, List.length_map]

theorem ProgramGenerator.Follows.needed (h : g.Follows as ((thread, k) :: outer)) :
    g.need_wait g.fork_level = some (k : ℤ) := by
  rw [h.outermost]
  exact h.counted.1

theorem names_nodup : names.Nodup := by
  decide +kernel

theorem names_clean : Clean names :=
  ⟨by decide +kernel, by decide +kernel, by decide +kernel⟩

theorem toDigits_clean (n : ℕ) : Clean (Nat.toDigits 10 n) := by
  have hdigit : ∀ c ∈ Nat.toDigits 10 n, c.isDigit = true := fun c hc =>
    Nat.isDigit_of_mem_toDigits (by decide) (le_refl 10) hc
  refine ⟨fun hmem => ?_, fun hmem => ?_, fun hmem => ?_⟩
  · exact absurd (hdigit _ hmem) (by decide)
  · exact absurd (hdigit _ hmem) (by decide)
  · exact absurd (hdigit _ hmem) (by decide)

/-- A new name differs from those before it. -/
theorem ProgramGenerator.Follows.add_fork_begin {sleep_time : ℕ}
    (h : g.Follows as ((thread, k) :: outer)) (hfork : g.add_fork_begin sleep_time = some g') :
    ∃ as' frames', g'.Follows as' frames' := by
  rw [ProgramGenerator.add_fork_begin, ProgramGenerator.get_next_name] at hfork
  split at hfork
  case isTrue => cases hfork
  case isFalse =>
    obtain ⟨⟨name, named⟩, hname, hfork⟩ := Option.bind_eq_some_iff.mp hfork
    obtain ⟨c, hc, heq⟩ := Option.map_eq_some_iff.mp hname
    cases heq
    dsimp only at hfork
    rw [h.needed] at hfork
    cases hfork
    have hmem : [c] ⊆ names := by
      simpa using List.mem_of_getElem? hc
    have hnew : ∀ frame ∈ (thread, k) :: outer, frame.1 ≠ [c] := by
      intro frame hframe heq
      obtain ⟨i, hi, hthread⟩ := h.named frame hframe
      obtain ⟨d, hd, heq'⟩ := Option.map_eq_some_iff.mp hthread
      have hdc : d = c := List.singleton_inj.mp (heq'.trans heq)
      subst hdc
      have hlt := (List.getElem?_eq_some_iff.mp hd).1
      exact absurd ((List.getElem?_inj hlt names_nodup).mp (hd.trans hc.symm)) (Nat.ne_of_lt hi)
    refine ⟨_, _, ?_, h.leads.fork (names_clean.mono hmem) (toDigits_clean sleep_time) hnew,
      ?_, ?_, ?_⟩
    · rw [List.map_append, ← h.actions]
      rfl
    · exact congrArg (· + 1) h.level
    · rw [h.outermost]
      exact (h.counted.head _).inner 0
    · refine List.forall_mem_cons.mpr ⟨⟨g.name_index, Nat.lt_succ_self _, by rw [hc]; rfl⟩, ?_⟩
      intro frame hframe
      have hsame : ∃ old ∈ (thread, k) :: outer, old.1 = frame.1 := by
        obtain rfl | hframe := List.mem_cons.mp hframe
        · exact ⟨_, List.mem_cons_self, rfl⟩
        · exact ⟨frame, List.mem_cons_of_mem _ hframe, rfl⟩
      obtain ⟨old, hold, heq⟩ := hsame
      obtain ⟨i, hi, hthread⟩ := h.named old hold
      exact ⟨i, Nat.lt_succ_of_lt hi, heq ▸ hthread⟩

theorem ProgramGenerator.Follows.add_wait (h : g.Follows as ((thread, k + 1) :: outer))
    (hwait : g.add_wait = some g') : g'.Follows (as ++ [.wait]) ((thread, k) :: outer) := by
  rw [ProgramGenerator.add_wait, h.needed] at hwait
  cases hwait
  constructor
  · rw [List.map_append, ← h.actions]
    rfl
  · exact h.leads.wait
  · exact h.level
  · have heq : ((k + 1 : ℕ) : ℤ) - 1 = k := by omega
    rw [h.outermost, heq]
    exact h.counted.head k
  · exact List.forall_mem_cons.mpr (List.forall_mem_cons.mp h.named)

/-- The waits that are missing, and the exit of a forked process. -/
theorem ProgramGenerator.Follows.clean_up (h : g.Follows as ((thread, k) :: outer)) :
    ∃ as', (outer = [] → Leads as' [(thread, 0)]) ∧
      (∀ parent frames, outer = parent :: frames → Leads as' outer) ∧
        g.clean_up = some ({ g with actions := as'.map Action.text }, (k : ℤ) + 1) := by
  have hwaits := h.leads.waits
  have hlevel := h.level
  rw [List.length_cons, Nat.add_right_cancel_iff] at hlevel
  have hactions : g.actions ++ List.replicate k waitText =
      (as ++ List.replicate k Action.wait).map Action.text := by
    rw [List.map_append, ← h.actions, List.map_replicate]
    rfl
  rw [ProgramGenerator.clean_up, h.needed]
  simp only [Option.bind_eq_bind, Option.bind_some, Int.toNat_natCast, hactions]
  cases outer with
  | nil =>
      refine ⟨as ++ List.replicate k .wait, fun _ => hwaits, by simp, ?_⟩
      rw [if_neg (by rw [hlevel]; exact Nat.lt_irrefl 0)]
      rfl
  | cons parent frames =>
      refine ⟨as ++ List.replicate k .wait ++ [.exit], by simp, fun _ _ _ => hwaits.exit, ?_⟩
      have hexit : (as ++ List.replicate k Action.wait ++ [Action.exit]).map Action.text =
          (as ++ List.replicate k Action.wait).map Action.text ++ [exitText] := List.map_append
      rw [if_pos (by rw [hlevel]; exact Nat.succ_pos _), hexit]
      rfl

theorem ProgramGenerator.Follows.turn {draw : Draw} (h : g.Follows as frames)
    (hturn : g.turn n draw = some (g', m)) : ∃ as' frames', g'.Follows as' frames' := by
  match frames, h with
  | [], h => cases h.level
  | (thread, k) :: outer, h =>
      cases draw with
      | fork sleep_time =>
          obtain ⟨forked, hforked, heq⟩ := Option.bind_eq_some_iff.mp hturn
          cases heq
          exact h.add_fork_begin hforked
      | wait =>
          rw [ProgramGenerator.turn, h.needed] at hturn
          simp only [Option.bind_eq_bind, Option.bind_some] at hturn
          split at hturn
          case isTrue hpos =>
            obtain ⟨waited, hwaited, heq⟩ := Option.bind_eq_some_iff.mp hturn
            cases heq
            obtain ⟨k, rfl⟩ := Nat.exists_eq_succ_of_ne_zero (n := k) (by omega)
            exact ⟨_, _, h.add_wait hwaited⟩
          case isFalse =>
            cases hturn
            exact ⟨as, _, h⟩
      | exit =>
          rw [ProgramGenerator.turn] at hturn
          split at hturn
          case isTrue hpos =>
            obtain ⟨as', -, hexit, hclean⟩ := h.clean_up
            rw [hclean] at hturn
            cases hturn
            cases outer with
            | nil =>
                rw [h.outermost] at hpos
                cases hpos
            | cons parent frames =>
                refine ⟨as', parent :: frames, rfl, hexit parent frames rfl, ?_, h.counted.2, ?_⟩
                · have hlevel := h.level
                  simp only [List.length_cons] at hlevel ⊢
                  omega
                · exact (List.forall_mem_cons.mp h.named).2
          case isFalse =>
            cases hturn
            exact ⟨as, _, h⟩

theorem ProgramGenerator.Follows.turns {num_actions : ℤ} {draws : List Draw}
    (h : g.Follows as frames) (hturns : turns num_actions draws g n = some g') :
    ∃ as' frames', g'.Follows as' frames' := by
  induction draws generalizing g n as frames with
  | nil =>
      rw [ProgramGenerator.turns] at hturns
      split at hturns
      case isTrue => cases hturns
      case isFalse =>
        cases hturns
        exact ⟨as, frames, h⟩
  | cons draw draws ih =>
      rw [ProgramGenerator.turns] at hturns
      split at hturns
      case isTrue =>
        obtain ⟨⟨next, m⟩, hturn, hturns⟩ := Option.bind_eq_some_iff.mp hturns
        obtain ⟨as', frames', h'⟩ := h.turn hturn
        exact ih h' hturns
      case isFalse =>
        cases hturns
        exact ⟨as, frames, h⟩

theorem ProgramGenerator.Follows.clean_up_all {level : ℕ} (h : g.Follows as frames)
    (hlevel : g.fork_level = level) (hclean : clean_up_all level g = some g') :
    ∃ as' thread, Leads as' [(thread, 0)] ∧ g'.actions = as'.map Action.text := by
  induction level generalizing g as frames with
  | zero =>
      have hsame : { g with fork_level := 0 } = g := by
        rw [← hlevel]
      rw [ProgramGenerator.clean_up_all, hsame] at hclean
      have hlength := h.level
      rw [hlevel] at hlength
      obtain ⟨⟨thread, k⟩, rfl⟩ := List.length_eq_one_iff.mp hlength.symm
      obtain ⟨as', hlast, -, heq⟩ := h.clean_up
      rw [heq] at hclean
      cases hclean
      exact ⟨as', thread, hlast rfl, rfl⟩
  | succ level ih =>
      have hsame : { g with fork_level := level + 1 } = g := by
        rw [← hlevel]
      rw [ProgramGenerator.clean_up_all, hsame] at hclean
      have hlength := h.level
      rw [hlevel] at hlength
      match frames, h, hlength with
      | (thread, k) :: parent :: outer, h, hlength =>
          obtain ⟨as', -, hexit, heq⟩ := h.clean_up
          rw [heq] at hclean
          have hfollows : { g with actions := as'.map Action.text, fork_level := level }.Follows
              as' (parent :: outer) := by
            refine ⟨rfl, hexit parent outer rfl, ?_, h.counted.2, ?_⟩
            · exact Nat.succ_injective hlength
            · exact (List.forall_mem_cons.mp h.named).2
          have hlower : clean_up_all level { g with actions := as'.map Action.text } =
              clean_up_all level
                { g with actions := as'.map Action.text, fork_level := level } := by
            cases level <;> rfl
          exact ih hfollows rfl (hlower ▸ hclean)

theorem generate_complete {num_actions : ℤ} {draws : List Draw} {actions : List Text}
    (h : ProgramGenerator.generate num_actions draws = some actions) : Complete actions := by
  obtain ⟨g, hturns, h⟩ := Option.bind_eq_some_iff.mp h
  obtain ⟨g', hclean, h⟩ := Option.bind_eq_some_iff.mp h
  cases h
  obtain ⟨as, frames, hg⟩ := follows_start.turns hturns
  obtain ⟨as', thread, hleads, hactions⟩ := hg.clean_up_all rfl hclean
  rw [hactions]
  exact hleads.complete

end OsLabs.Generator
