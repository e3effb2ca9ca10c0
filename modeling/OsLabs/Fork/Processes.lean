import OsLabs.Lib.Transition
import OsLabs.Fork.Forker

/-!
# Live processes

The run over an action list keeps the process tree as long as no fork takes the name of a
live process, which `check_legal` does not look at.
-/

namespace OsLabs.Fork

open Transition

variable {o : Options} {s s' : Forker}

structure TreeSound (s : Forker) : Prop where
  names_distinct : s.process_list.Nodup
  walked_once : ∃ depth names, walk s.children depth root_name = some names ∧
    names.Perm s.process_list
  child_iff_parent : ∀ p c, (∃ cs, s.children p = some cs ∧ c ∈ cs) ↔ s.parents c = some p
  exited : ∀ p ∉ s.process_list, s.children p = none ∧ s.parents p = none ∧
    (∀ q cs, s.children q = some cs → p ∉ cs) ∧ ∀ c, s.parents c ≠ some p

def step (o : Options) (s : Forker) (action : List Char) : Option Forker :=
  (perform o s action).toOption

/-- The name of a new process is not that of a live one. -/
def FreshName (s : Forker) (action : List Char) : Prop :=
  match check_legal action with
  | .ok (.fork _ c) => c ∉ s.process_list
  | _ => True

instance (s : Forker) (action : List Char) : Decidable (FreshName s action) := by
  unfold FreshName
  split <;> infer_instance

theorem Forker.IsTree.treeSound (h : s.IsTree) : TreeSound s := by
  have hlive {p : Name} {cs : List Name} (hcs : s.children p = some cs) : p ∈ s.process_list := by
    by_contra hp
    rw [(h.gone p hp).1] at hcs
    cases hcs
  refine ⟨h.nodup, ⟨_, h.preorder_perm⟩, fun p c => ⟨?_, fun hc => ?_⟩, fun p hp => ?_⟩
  · rintro ⟨cs, hcs, hc⟩
    exact (h.mem_children (hlive hcs) hcs).mp hc
  · obtain ⟨-, -, hp, -⟩ := h.parent_cases hc
    obtain ⟨cs, hcs, -⟩ := h.children_mem p hp
    exact ⟨cs, hcs, (h.mem_children hp hcs).mpr hc⟩
  · refine ⟨(h.gone p hp).1, (h.gone p hp).2, fun q cs hcs hmem => hp ?_, fun c hc => hp ?_⟩
    · exact (h.parent_cases ((h.mem_children (hlive hcs) hcs).mp hmem)).1
    · exact (h.parent_cases hc).2.2.1

/-- What an accepted action is. -/
theorem perform_eq_ok {action : List Char} (h : perform o s action = .ok s') :
    (∃ p c, check_legal action = .ok (.fork p c) ∧ p ∈ s.process_list ∧
      do_fork s p c = .ok s') ∨
    ∃ p, check_legal action = .ok (.exit p) ∧ p ∈ s.process_list ∧
      (s' = s ∨ do_exit o s p = .ok s') := by
  rw [perform] at h
  cases hlegal : check_legal action with
  | error f =>
      rw [hlegal] at h
      cases h
  | ok a =>
      rw [hlegal] at h
      cases a with
      | fork p c =>
          change (if p ∈ s.process_list then _ else _) = _ at h
          split at h
          · next hp => exact Or.inl ⟨p, c, rfl, hp, h⟩
          · cases h
      | exit p =>
          change (if p ∈ s.process_list then _ else _) = _ at h
          split at h
          · next hp =>
              refine Or.inr ⟨p, rfl, hp, ?_⟩
              split at h
              · obtain ⟨cs, -, h⟩ := lookup_bind_eq_ok.mp h
                split at h
                · exact Or.inl (Except.ok.inj h).symm
                · exact Or.inr h
              · exact Or.inr h
          · cases h

theorem step_eq_some {action : List Char} :
    step o s action = some s' ↔ perform o s action = .ok s' := by
  rw [step]
  cases perform o s action <;> simp [Except.toOption]

theorem step_isTree {action : List Char} (h : s.IsTree) (hfresh : FreshName s action)
    (hstep : step o s action = some s') : s'.IsTree := by
  obtain ⟨p, c, hlegal, hp, hok⟩ | ⟨p, -, -, rfl | hok⟩ := perform_eq_ok (step_eq_some.mp hstep)
  · rw [FreshName, hlegal] at hfresh
    exact do_fork_isTree h hp hfresh hok
  · exact h
  · exact do_exit_isTree h hok

theorem freshName_of_nodup {action : List Char} (hstep : step o s action = some s')
    (h : s'.process_list.Nodup) : FreshName s action := by
  rw [FreshName]
  split
  · next p c hlegal =>
      obtain ⟨p', c', hlegal', -, hok⟩ | ⟨p', hlegal', -⟩ := perform_eq_ok (step_eq_some.mp hstep)
      · obtain ⟨rfl, rfl⟩ := Action.fork.inj (Except.ok.inj (hlegal.symm.trans hlegal'))
        obtain ⟨cs, -, hok⟩ := lookup_bind_eq_ok.mp hok
        obtain rfl := Except.ok.inj hok
        exact fun hc => List.disjoint_of_nodup_append h hc (List.mem_singleton_self c)
      · cases hlegal.symm.trans hlegal'
  · trivial

theorem check_legal_error {action : List Char} {f : Failure}
    (h : check_legal action = .error f) : f = .badAction action := by
  rw [check_legal] at h
  split at h
  · split at h
    · cases h
    · exact (Except.error.inj h).symm
  · split at h
    · split at h
      · cases h
      · exact (Except.error.inj h).symm
    · exact (Except.error.inj h).symm

/-- On a tree the simulator only stops with a message. -/
theorem perform_error {action : List Char} {f : Failure} (h : s.IsTree)
    (hdepth : s.process_list.length ≤ o.recursionLimit) (herror : perform o s action = .error f)
    (hfresh : FreshName s action) : f = .badAction action ∨ f = .rootExit := by
  rw [perform] at herror
  cases hlegal : check_legal action with
  | error g =>
      rw [hlegal] at herror
      obtain rfl := Except.error.inj herror
      exact Or.inl (check_legal_error hlegal)
  | ok a =>
      rw [hlegal] at herror
      cases a with
      | fork p c =>
          rw [FreshName, hlegal] at hfresh
          change (if p ∈ s.process_list then _ else _) = _ at herror
          split at herror
          · next hp =>
              obtain ⟨cs, hcs, -⟩ := h.children_mem p hp
              rw [do_fork, Function.update_of_ne (ne_of_mem_of_not_mem hp hfresh), hcs] at herror
              cases herror
          · exact Or.inl (Except.error.inj herror).symm
      | exit p =>
          change (if p ∈ s.process_list then _ else _) = _ at herror
          split at herror
          · next hp =>
              obtain ⟨cs, hcs, -⟩ := h.children_mem p hp
              have hexit : do_exit o s p = .error f → f = .badAction action ∨ f = .rootExit := by
                intro hexit
                by_cases hroot : p = root_name
                · rw [do_exit, if_pos hroot] at hexit
                  exact Or.inr (Except.error.inj hexit).symm
                · obtain ⟨s', hs'⟩ := do_exit_ok h hp hroot hdepth
                  cases hexit.symm.trans hs'
              rw [hcs] at herror
              split at herror
              · change (if _ then _ else _) = _ at herror
                split at herror
                · cases herror
                · exact hexit herror
              · exact hexit herror
          · exact Or.inl (Except.error.inj herror).symm

theorem treeSound_iff (o : Options) {actions : List (List Char)}
    (haccepted : run (step o) init actions = some s) :
    (∀ pre s', pre <+: actions → run (step o) init pre = some s' → TreeSound s') ↔
      RunMeets (step o) FreshName init actions :=
  forall_prefix_iff_runMeets (fun _ => Forker.IsTree.treeSound)
    (fun _ _ _ h hfresh hstep => step_isTree h hfresh hstep)
    (fun _ _ _ hstep h => freshName_of_nodup hstep h.names_distinct) init_isTree haccepted

/-- `a+b,b+c,c+d,b-,a+b`: the children of `b` go to the root, and its name comes back. -/
theorem treeSound_iff_nameAgain :
    ∃ s, run (step ⟨false, false, 1000⟩) init [['a', '+', 'b'], ['b', '+', 'c'],
        ['c', '+', 'd'], ['b', '-'], ['a', '+', 'b']] = some s ∧ TreeSound s := by
  have haccepted : (run (step ⟨false, false, 1000⟩) init [['a', '+', 'b'], ['b', '+', 'c'],
      ['c', '+', 'd'], ['b', '-'], ['a', '+', 'b']]).isSome := by decide +kernel
  have hrun := (Option.some_get haccepted).symm
  have hmeets : RunMeets (step ⟨false, false, 1000⟩) FreshName init [['a', '+', 'b'],
      ['b', '+', 'c'], ['c', '+', 'd'], ['b', '-'], ['a', '+', 'b']] :=
    runMeets_of_check (by decide +kernel)
  exact ⟨_, hrun, (treeSound_iff ⟨false, false, 1000⟩ hrun).mpr hmeets _ _
    (List.prefix_refl _) hrun⟩

/-- While the forks take new names, an action is performed or refused with a message: no
lookup fails, no recursion is too deep and no loop goes on for ever. -/
theorem performed_or_refused (o : Options) {actions : List (List Char)}
    (haccepted : run (step o) init actions = some s)
    (hmeets : RunMeets (step o) FreshName init actions)
    (hdepth : s.process_list.length ≤ o.recursionLimit) (action : List Char)
    (hfresh : FreshName s action) : (∃ s', perform o s action = .ok s') ∨
      perform o s action = .error (.badAction action) ∨ perform o s action = .error .rootExit := by
  have htree : s.IsTree := (reach_of_run actions hmeets haccepted).invariant init_isTree
    fun _ _ _ h hfresh hstep => step_isTree h hfresh hstep
  cases hperform : perform o s action with
  | ok s' => exact Or.inl ⟨s', rfl⟩
  | error f =>
      rcases perform_error htree hdepth hperform hfresh with rfl | rfl
      · exact Or.inr (Or.inl rfl)
      · exact Or.inr (Or.inr rfl)

def exitInTheMiddle : List (List Char) :=
  [['a', '+', 'b'], ['b', '+', 'c'], ['c', '+', 'd'], ['b', '-']]

/-- The children of `b` go to its parent. `c-` is performed then, and `a-` is refused. -/
theorem performed_or_refused_middle : ∃ s, run (step ⟨false, true, 1000⟩) init exitInTheMiddle =
      some s ∧ s.process_list = [['a'], ['c'], ['d']] ∧
    (∃ s', perform ⟨false, true, 1000⟩ s ['c', '-'] = .ok s') ∧
    perform ⟨false, true, 1000⟩ s ['a', '-'] = .error .rootExit := by
  have hends : (run (step ⟨false, true, 1000⟩) init exitInTheMiddle).map (fun s =>
      (s.process_list, (perform ⟨false, true, 1000⟩ s ['c', '-']).toOption.isSome)) =
        some (([['a'], ['c'], ['d']] : List Name), true) := by decide +kernel
  obtain ⟨s, hrun, hend⟩ := Option.map_eq_some_iff.mp hends
  obtain ⟨hlist, hperformed⟩ := Prod.mk.inj hend
  have hmeets : RunMeets (step ⟨false, true, 1000⟩) FreshName init exitInTheMiddle :=
    runMeets_of_check (by decide +kernel)
  have hdepth : s.process_list.length ≤ 1000 := by
    rw [hlist]
    decide
  refine ⟨s, hrun, hlist, ?_, ?_⟩
  · obtain hok | hbad | hroot :=
      performed_or_refused ⟨false, true, 1000⟩ hrun hmeets hdepth ['c', '-'] trivial
    · exact hok
    · rw [hbad] at hperformed
      cases hperformed
    · rw [hroot] at hperformed
      cases hperformed
  · have hlive : root_name ∈ s.process_list := by
      rw [hlist]
      decide
    exact if_pos hlive

/-- `a+b,a+b`: no check refuses the second fork. -/
theorem live_name_accepted :
    ∃ s, run (step ⟨false, false, 1000⟩) init [['a', '+', 'b'], ['a', '+', 'b']] = some s ∧
      s.process_list = [root_name, ['b'], ['b']] ∧ ¬ TreeSound s := by
  have hrun : (run (step ⟨false, false, 1000⟩) init [['a', '+', 'b'], ['a', '+', 'b']]).map
      Forker.process_list = some ([root_name, ['b'], ['b']] : List Name) := by decide +kernel
  obtain ⟨s, hs, hlist⟩ := Option.map_eq_some_iff.mp hrun
  refine ⟨s, hs, hlist, fun h => ?_⟩
  have hnodup := h.names_distinct
  rw [hlist] at hnodup
  have htwice : ¬ ([root_name, ['b'], ['b']] : List Name).Nodup := by decide
  exact htwice hnodup

end OsLabs.Fork
