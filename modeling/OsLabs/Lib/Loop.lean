import Mathlib

/-!
# Loops with fuel

A loop that runs a partial step until a test succeeds. It ends when the step
decreases a measure in a well-founded order. A run that waits for its
environment ends when every phase of it is allowed to go on again and again.
-/

namespace OsLabs.Loop

variable {σ τ : Type*}

/-- `none` is a step that stopped, or fuel that ran out. -/
def loop (step : σ → Option σ) (done : σ → Bool) : ℕ → σ → Option σ
  | 0, s => if done s then some s else none
  | fuel + 1, s => if done s then some s else (step s).bind (loop step done fuel)

variable {step : σ → Option σ} {done : σ → Bool} {s s' : σ}

theorem loop_of_done (h : done s = true) (fuel : ℕ) : loop step done fuel s = some s := by
  cases fuel with
  | zero => exact if_pos h
  | succ fuel => exact if_pos h

theorem loop_succ (h : done s = false) (hstep : step s = some s') (fuel : ℕ) :
    loop step done (fuel + 1) s = loop step done fuel s' := by
  rw [loop, h, if_neg Bool.false_ne_true, hstep, Option.bind_some]

theorem loop_ends {I : σ → Prop} [LT τ] [WellFoundedLT τ] (measure : σ → τ)
    (hstep : ∀ s, I s → done s = false → ∃ s', step s = some s' ∧ I s' ∧ measure s' < measure s)
    (hs : I s) : ∃ fuel s', loop step done fuel s = some s' ∧ I s' ∧ done s' = true := by
  induction hm : measure s using WellFoundedLT.induction generalizing s with
  | ind m ih =>
      cases hdone : done s with
      | true => exact ⟨0, s, loop_of_done hdone 0, hs, hdone⟩
      | false =>
          obtain ⟨t, ht, hI, hlt⟩ := hstep s hs hdone
          obtain ⟨fuel, s', hloop, hs'⟩ := ih (measure t) (hm ▸ hlt) hI rfl
          exact ⟨fuel + 1, s', (loop_succ hdone ht fuel).trans hloop, hs'⟩

/-- With the measure as fuel a loop ends. -/
theorem loop_ends_within {I : σ → Prop} (measure : σ → ℕ)
    (hstep : ∀ s, I s → done s = false → ∃ s', step s = some s' ∧ I s' ∧ measure s' < measure s)
    (hs : I s) {fuel : ℕ} (hfuel : measure s ≤ fuel) :
    ∃ s', loop step done fuel s = some s' ∧ I s' ∧ done s' = true := by
  induction fuel generalizing s with
  | zero =>
      cases hdone : done s with
      | true => exact ⟨s, loop_of_done hdone 0, hs, hdone⟩
      | false =>
          obtain ⟨t, -, -, hlt⟩ := hstep s hs hdone
          omega
  | succ fuel ih =>
      cases hdone : done s with
      | true => exact ⟨s, loop_of_done hdone _, hs, hdone⟩
      | false =>
          obtain ⟨t, ht, hI, hlt⟩ := hstep s hs hdone
          obtain ⟨s', hloop, hs'⟩ := ih hI (by omega)
          exact ⟨s', (loop_succ hdone ht fuel).trans hloop, hs'⟩

/-! ## Runs that wait -/

section Waiting

variable {φ : Type*} {run : ℕ → σ} {ended : σ → Prop} {phase : σ → φ} {rank : σ → ℕ}
  {allowed : ℕ → φ → Prop} {n m : ℕ}

/-- A phase in which nothing is allowed goes on, unless the rank falls. -/
theorem ended_or_rank_lt_or_waits
    (hstep : ∀ n, ended (run (n + 1)) ∨ rank (run (n + 1)) < rank (run n) ∨
      run (n + 1) = run n ∧ ¬ allowed (n + 1) (phase (run n))) (hnm : n ≤ m) :
    (∃ k, ended (run k)) ∨ (∃ k, rank (run k) < rank (run n)) ∨ run m = run n := by
  induction m, hnm using Nat.le_induction with
  | base => exact .inr (.inr rfl)
  | succ m hnm ih =>
      rcases ih with hended | hless | hsame
      · exact .inl hended
      · exact .inr (.inl hless)
      · rcases hstep m with hended | hless | ⟨hwaits, -⟩
        · exact .inl ⟨m + 1, hended⟩
        · exact .inr (.inl ⟨m + 1, hsame ▸ hless⟩)
        · exact .inr (.inr (hwaits.trans hsame))

theorem ends_of_fair (hfair : ∀ p n, ∃ m, n < m ∧ allowed m p)
    (hstep : ∀ n, ended (run (n + 1)) ∨ rank (run (n + 1)) < rank (run n) ∨
      run (n + 1) = run n ∧ ¬ allowed (n + 1) (phase (run n))) (n : ℕ) :
    ∃ k, ended (run k) := by
  induction hrank : rank (run n) using Nat.strong_induction_on generalizing n with
  | h r ih =>
      have hless : ∀ k, rank (run k) < rank (run n) → ∃ k, ended (run k) :=
        fun k hk => ih (rank (run k)) (hrank ▸ hk) k rfl
      obtain ⟨m, hm, hallowed⟩ := hfair (phase (run n)) n
      obtain ⟨m, rfl⟩ := Nat.exists_eq_add_one_of_ne_zero (Nat.ne_zero_of_lt hm)
      rcases ended_or_rank_lt_or_waits hstep (Nat.le_of_lt_succ hm) with hended | ⟨k, hk⟩ | hsame
      · exact hended
      · exact hless k hk
      · rcases hstep m with hended | hk | ⟨-, hwaits⟩
        · exact ⟨m + 1, hended⟩
        · exact hless (m + 1) (hsame ▸ hk)
        · exact absurd hallowed (hsame ▸ hwaits)

end Waiting

end OsLabs.Loop
