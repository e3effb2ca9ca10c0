import Mathlib

/-!
# Runs of a partial step function

A system is given by a step function that takes a state and an action and
either returns the next state or stops. A guard restricts the steps a run may
take. Every invariant of this development is derived from one induction over
such runs.
-/

namespace OsLabs.Transition

variable {σ α : Type*}

/-- The states reached from `s₀` by steps whose guard holds where they are taken. -/
inductive Reach (step : σ → α → Option σ) (guard : σ → α → Prop) (s₀ : σ) : σ → Prop
  | refl : Reach step guard s₀ s₀
  | tail {s s' : σ} (a : α) (prior : Reach step guard s₀ s) (allowed : guard s a)
      (next : step s a = some s') : Reach step guard s₀ s'

def anyStep : σ → α → Prop := fun _ _ => True

def run (step : σ → α → Option σ) : σ → List α → Option σ
  | s, [] => some s
  | s, a :: as => (step s a).bind fun s' => run step s' as

/-- The actions of a run together with its guard, checked along the way. -/
def RunMeets (step : σ → α → Option σ) (guard : σ → α → Prop) : σ → List α → Prop
  | _, [] => True
  | s, a :: as => guard s a ∧ ∀ s', step s a = some s' → RunMeets step guard s' as

def checkRun (step : σ → α → Option σ) (guard : σ → α → Prop) [∀ s a, Decidable (guard s a)] :
    σ → List α → Bool
  | _, [] => true
  | s, a :: as => decide (guard s a) && (step s a).all fun s' => checkRun step guard s' as

variable {step : σ → α → Option σ} {guard : σ → α → Prop} {s₀ s : σ}

@[simp] theorem run_nil : run step s [] = some s := rfl

@[simp] theorem run_cons (a : α) (as : List α) :
    run step s (a :: as) = (step s a).bind fun s' => run step s' as := rfl

/-- The invariant rule: what holds initially and is kept by every guarded step
holds of every reached state. -/
theorem Reach.invariant {I : σ → Prop} (initial : I s₀)
    (preserved : ∀ s a s', I s → guard s a → step s a = some s' → I s')
    (h : Reach step guard s₀ s) : I s := by
  induction h with
  | refl => exact initial
  | tail a _ allowed next ih => exact preserved _ a _ ih allowed next

theorem Reach.trans {t : σ} (h : Reach step guard s₀ s) (h' : Reach step guard s t) :
    Reach step guard s₀ t := by
  induction h' with
  | refl => exact h
  | tail a _ allowed next ih => exact ih.tail a allowed next

theorem Reach.mono {guard' : σ → α → Prop} (hguard : ∀ s a, guard s a → guard' s a)
    (h : Reach step guard s₀ s) : Reach step guard' s₀ s := by
  induction h with
  | refl => exact Reach.refl
  | tail a _ allowed next ih => exact ih.tail a (hguard _ a allowed) next

theorem reach_of_run (as : List α) {t : σ} (hguard : RunMeets step guard s as)
    (hrun : run step s as = some t) : Reach step guard s t := by
  induction as generalizing s with
  | nil =>
      have : s = t := by simpa using hrun
      exact this ▸ Reach.refl
  | cons a as ih =>
      obtain ⟨s', hstep, hrest⟩ := Option.bind_eq_some_iff.mp hrun
      exact (Reach.refl.tail a hguard.1 hstep).trans (ih (hguard.2 s' hstep) hrest)

theorem runMeets_of_check [∀ s a, Decidable (guard s a)] {as : List α}
    (h : checkRun step guard s as = true) : RunMeets step guard s as := by
  induction as generalizing s with
  | nil => trivial
  | cons a as ih =>
      simp only [checkRun, Bool.and_eq_true, decide_eq_true_eq] at h
      refine ⟨h.1, fun s' hstep => ih ?_⟩
      simpa [hstep] using h.2

theorem reach_of_run_anyStep (as : List α) {t : σ} (hrun : run step s as = some t) :
    Reach step anyStep s t := by
  refine reach_of_run as ?_ hrun
  clear hrun
  induction as generalizing s with
  | nil => trivial
  | cons a as ih => exact ⟨trivial, fun s' _ => ih⟩

/-- Along a run the guard holds at every step exactly where `P` holds of every state, when
the guarded steps keep `P` by way of an invariant and `P` after a step needs its guard. -/
theorem forall_prefix_iff_runMeets {I P : σ → Prop} (hP : ∀ s, I s → P s)
    (keeps : ∀ s a s', I s → guard s a → step s a = some s' → I s')
    (needs : ∀ s a s', step s a = some s' → P s' → guard s a) (initial : I s) {as : List α} {t : σ}
    (hrun : run step s as = some t) :
    (∀ pre s', pre <+: as → run step s pre = some s' → P s') ↔ RunMeets step guard s as := by
  induction as generalizing s with
  | nil =>
      refine iff_of_true (fun pre s' hpre hs' => ?_) trivial
      rw [List.prefix_nil.mp hpre] at hs'
      exact Option.some.inj hs' ▸ hP s initial
  | cons a as ih =>
      obtain ⟨s₁, hstep, hrest⟩ := Option.bind_eq_some_iff.mp hrun
      constructor
      · intro h
        have hguard : guard s a := by
          refine needs s a s₁ hstep (h [a] s₁ ⟨as, rfl⟩ ?_)
          rw [run_cons, hstep]
          rfl
        refine ⟨hguard, fun s' hs' => ?_⟩
        obtain rfl := Option.some.inj (hstep.symm.trans hs')
        refine (ih (keeps s a s₁ initial hguard hstep) hrest).mp fun pre s' hpre hs' => ?_
        refine h (a :: pre) s' (List.cons_prefix_cons.mpr ⟨rfl, hpre⟩) ?_
        rwa [run_cons, hstep]
      · rintro ⟨hguard, hmeets⟩ pre s' hpre hs'
        cases pre with
        | nil => exact Option.some.inj hs' ▸ hP s initial
        | cons b pre =>
            obtain ⟨rfl, htail⟩ := List.cons_prefix_cons.mp hpre
            rw [run_cons, hstep] at hs'
            exact (ih (keeps s b s₁ initial hguard hstep) hrest).mpr (hmeets s₁ hstep) pre s'
              htail hs'

/-! ## Notes beside a run -/

section Notes

variable {γ : Type*} {note : σ → σ → γ → γ} {g₀ g : γ}

/-- A step together with a note that is kept beside the state and has no effect on it. -/
def noted (step : σ → α → Option σ) (note : σ → σ → γ → γ) (p : σ × γ) (a : α) : Option (σ × γ) :=
  (step p.1 a).map fun s' => (s', note p.1 s' p.2)

/-- The states of the runs with the note kept beside them. -/
def ReachNoted (step : σ → α → Option σ) (guard : σ → α → Prop) (note : σ → σ → γ → γ)
    (s₀ : σ) (g₀ : γ) (s : σ) (g : γ) : Prop :=
  Reach (noted step note) (fun p => guard p.1) (s₀, g₀) (s, g)

/-- The invariant rule for runs with a note. -/
theorem ReachNoted.invariant {I : σ → γ → Prop} (initial : I s₀ g₀)
    (preserved : ∀ s g a s', Reach step guard s₀ s → I s g → guard s a → step s a = some s' →
      I s' (note s s' g))
    (h : ReachNoted step guard note s₀ g₀ s g) : Reach step guard s₀ s ∧ I s g := by
  refine Reach.invariant (I := fun p => Reach step guard s₀ p.1 ∧ I p.1 p.2) ⟨.refl, initial⟩
    ?_ h
  rintro ⟨s, g⟩ a p ⟨hreach, hI⟩ hguard hnext
  obtain ⟨s', hstep, rfl⟩ := Option.map_eq_some_iff.mp hnext
  exact ⟨hreach.tail a hguard hstep, preserved s g a s' hreach hI hguard hstep⟩

theorem ReachNoted.reach (h : ReachNoted step guard note s₀ g₀ s g) : Reach step guard s₀ s :=
  (h.invariant (I := fun _ _ => True) trivial fun _ _ _ _ _ _ _ _ => trivial).1

end Notes

end OsLabs.Transition
