import Mathlib
import OsLabs.Tsh.JobTable
import OsLabs.Tsh.Shell

/-!
# Children and the handler

What an event of a child changes, and what the handler's loop keeps: an
invariant of its body holds when the handler returns.
-/

namespace OsLabs.Tsh

/-! ## The children -/

/-- `waitpid` has told the handler that this child is stopped. -/
def Child.seenStopped (c : Child) : Prop :=
  c.status = .stopped ∧ c.reported = true

variable {s s' : Shell} {order : List ℤ}

/-- No event by itself continues a child or makes it known as stopped. -/
theorem ChildEvent.apply_spec {event : ChildEvent} {c c' : Child}
    (h : event.apply c = some c') :
    c'.pid = c.pid ∧ (c'.status = .running → c.status = .running) ∧ ¬ c'.seenStopped := by
  cases event <;> simp only [ChildEvent.apply, Option.ite_none_right_eq_some,
    Option.some.injEq] at h <;> obtain ⟨hstatus, rfl⟩ := h <;> simp [Child.seenStopped, hstatus]

theorem childStep_cases {pid : ℤ} {event : ChildEvent} (h : childStep s pid event = some s') :
    ∃ c ∈ s.children, ∃ c', c.pid = pid ∧ event.apply c = some c' ∧
      s' = { s with
        children := s.children.map fun d => if d.pid = pid then c' else d
        pending := s.pending || event ≠ .setpgid } := by
  unfold childStep at h
  cases hfind : s.children.find? fun c => c.pid = pid with
  | none =>
      rw [hfind] at h
      cases h
  | some c =>
      rw [hfind] at h
      obtain ⟨c', hevent, rfl⟩ := Option.map_eq_some_iff.mp h
      exact ⟨c, List.mem_of_find?_eq_some hfind, c', by simpa using List.find?_some hfind,
        hevent, rfl⟩

/-! ## The loop -/

theorem handlerLoop_cons {pid : ℤ} (h : handlerLoop s (pid :: order) = some s') :
    ∃ c ∈ s.children, c.pid = pid ∧ c.reportable = true ∧
      handlerLoop (handleChild s c) order = some s' := by
  unfold handlerLoop at h
  cases hfind : s.children.find? fun c => c.pid = pid && c.reportable with
  | none =>
      rw [hfind] at h
      cases h
  | some c =>
      rw [hfind] at h
      have hprop : c.pid = pid ∧ c.reportable = true := by
        simpa using List.find?_some hfind
      exact ⟨c, List.mem_of_find?_eq_some hfind, hprop.1, hprop.2, h⟩

theorem handlerLoop_invariant {I : Shell → Prop}
    (body : ∀ s c, I s → c ∈ s.children → c.reportable = true → I (handleChild s c))
    (h : handlerLoop s order = some s') (hs : I s) : I s' := by
  induction order generalizing s with
  | nil =>
      unfold handlerLoop at h
      split at h
      · exact Option.some.inj h ▸ hs
      · cases h
  | cons pid order ih =>
      obtain ⟨c, hc, _, hrep, hrest⟩ := handlerLoop_cons h
      exact ih hrest (body s c hs hc hrep)

theorem countP_lt_of_imp {α : Type*} {p q : α → Bool} {l : List α} {a : α}
    (himp : ∀ x, q x = true → p x = true) (ha : a ∈ l) (hp : p a = true) (hq : q a = false) :
    l.countP q < l.countP p := by
  obtain ⟨l₁, l₂, rfl⟩ := List.append_of_mem ha
  have h₁ := List.countP_mono_left (l := l₁) (fun x _ => himp x)
  have h₂ := List.countP_mono_left (l := l₂) (fun x _ => himp x)
  simp only [List.countP_append, List.countP_cons, hp, hq, if_true, Bool.false_eq_true, if_false]
  omega

theorem handleChild_countP_lt {c : Child} (hc : c ∈ s.children) (hrep : c.reportable = true) :
    (handleChild s c).children.countP Child.reportable <
      s.children.countP Child.reportable := by
  unfold handleChild
  split
  · rename_i hstop
    rw [List.countP_map]
    apply countP_lt_of_imp _ hc hrep
    · simp [Child.reportable, hstop]
    · intro d hd
      simp only [Function.comp_apply] at hd
      split at hd
      · unfold Child.reportable at hd ⊢
        cases hstatus : d.status <;> simp_all
      · exact hd
  · rw [List.countP_filter]
    apply countP_lt_of_imp _ hc hrep
    · simp
    · intro d hd
      exact (Bool.and_eq_true _ _ ▸ hd).1

/-- The handler returns: every iteration leaves fewer children to report. -/
theorem handlerLoop_returns (s : Shell) : ∃ order s', handlerLoop s order = some s' := by
  induction hn : s.children.countP Child.reportable using Nat.strong_induction_on
    generalizing s with
  | _ n ih =>
      cases hfind : s.children.find? Child.reportable with
      | none =>
          refine ⟨[], s, ?_⟩
          unfold handlerLoop
          rw [if_pos]
          simpa using List.find?_eq_none.mp hfind
      | some c =>
          have hc := List.mem_of_find?_eq_some hfind
          have hrep := List.find?_some hfind
          cases hpid : s.children.find? fun d => d.pid = c.pid && d.reportable with
          | none =>
              have := List.find?_eq_none.mp hpid c hc
              simp [hrep] at this
          | some d =>
              have hd := List.mem_of_find?_eq_some hpid
              have hdrep : d.pid = c.pid ∧ d.reportable = true := by
                simpa using List.find?_some hpid
              obtain ⟨order, s', hrest⟩ :=
                ih _ (hn ▸ handleChild_countP_lt hd hdrep.2) (handleChild s d) rfl
              refine ⟨c.pid :: order, s', ?_⟩
              unfold handlerLoop
              rw [hpid]
              exact hrest

@[simp] theorem handleChild_pc (c : Child) : (handleChild s c).pc = s.pc := by
  unfold handleChild
  split <;> rfl

@[simp] theorem handleChild_blocked (c : Child) : (handleChild s c).blocked = s.blocked := by
  unfold handleChild
  split <;> rfl

theorem handleChild_touched {c : Child} (hpid : 1 ≤ c.pid) :
    Touched s.table (handleChild s c).table c.pid := by
  unfold handleChild
  split
  · exact markStopped_touched hpid
  · exact deletejob_touched hpid

theorem mem_handleChild {c d : Child} (h : d ∈ (handleChild s c).children)
    (hne : d.pid ≠ c.pid) : d ∈ s.children := by
  unfold handleChild at h
  split at h
  · obtain ⟨d', hd', hd⟩ := List.mem_map.mp h
    by_cases hpid : d'.pid = c.pid
    · rw [if_pos hpid] at hd
      exact absurd (hd ▸ hpid) hne
    · rw [if_neg hpid] at hd
      exact hd ▸ hd'
  · exact (List.mem_filter.mp h).1

theorem mem_handleChild_status {c d : Child} (h : d ∈ (handleChild s c).children) :
    ∃ d' ∈ s.children, d'.pid = d.pid ∧ d'.status = d.status := by
  unfold handleChild at h
  split at h
  · obtain ⟨d', hd', rfl⟩ := List.mem_map.mp h
    refine ⟨d', hd', ?_⟩
    split <;> exact ⟨rfl, rfl⟩
  · exact ⟨d, (List.mem_filter.mp h).1, rfl, rfl⟩

theorem handlerStep_cases (h : handlerStep s order = some s') :
    s.pending = true ∧ s.accepts = true ∧
      ∃ t, handlerLoop { s with pending := false } order = some t ∧
        s' = { t with pc := t.pc.resume } := by
  unfold handlerStep at h
  split at h
  · rename_i hcond
    obtain ⟨t, ht, rfl⟩ := Option.map_eq_some_iff.mp h
    simp only [Bool.and_eq_true] at hcond
    exact ⟨hcond.1, hcond.2, t, ht, rfl⟩
  · cases h

end OsLabs.Tsh
