import OsLabs.Lib.Transition

/-!
# Runs that end

A system whose every step lowers a measure runs for a bounded number of steps. If
it can step until it is finished, each of its runs goes on to the end.
-/

namespace OsLabs.Transition

variable {σ α : Type*} {step : σ → α → Option σ} {measure : σ → ℕ} {s t : σ}

/-- Only some of the actions need to lower the measure. -/
theorem countP_add_measure_le (costs : α → Bool)
    (hmeasure : ∀ s a s', step s a = some s' →
      measure s' + (if costs a then 1 else 0) ≤ measure s) (as : List α)
    (hrun : run step s as = some t) : as.countP costs + measure t ≤ measure s := by
  induction as generalizing s with
  | nil =>
      have : s = t := by simpa using hrun
      simp [this]
  | cons a as ih =>
      rcases Option.bind_eq_some_iff.mp hrun with ⟨s', hstep, hrest⟩
      have hless := hmeasure s a s' hstep
      have hle := ih hrest
      rw [List.countP_cons]
      omega

theorem length_add_measure_le
    (hmeasure : ∀ s a s', step s a = some s' → measure s' < measure s) (as : List α)
    (hrun : run step s as = some t) : as.length + measure t ≤ measure s := by
  have hcount := countP_add_measure_le (fun _ => true)
    (fun s a s' hstep => hmeasure s a s' hstep) as hrun
  rwa [List.countP_true] at hcount

theorem run_append (as bs : List α) :
    run step s (as ++ bs) = (run step s as).bind fun s' => run step s' bs := by
  induction as generalizing s with
  | nil => rfl
  | cons a as ih =>
      rw [List.cons_append, run_cons, run_cons, Option.bind_assoc]
      exact congrArg _ (funext fun s' => ih)

/-- It is enough to make progress by several steps at once. -/
theorem exists_run_finished {I : σ → Prop} (finished : σ → Prop)
    (hprogress : ∀ s, I s → ¬ finished s →
      ∃ as s', run step s as = some s' ∧ I s' ∧ measure s' < measure s) (hs : I s) :
    ∃ as t, run step s as = some t ∧ I t ∧ finished t := by
  induction hm : measure s using Nat.strong_induction_on generalizing s with
  | h m ih =>
      by_cases hfinished : finished s
      · exact ⟨[], s, rfl, hs, hfinished⟩
      · rcases hprogress s hs hfinished with ⟨as, s', hrun, hs', hless⟩
        rcases ih (measure s') (hm ▸ hless) hs' rfl with ⟨bs, t, hrest, ht⟩
        refine ⟨as ++ bs, t, ?_, ht⟩
        rw [run_append, hrun]
        exact hrest

end OsLabs.Transition
