import Mathlib

/-!
# Computations that may stop

A computation either returns or stops with an error. Some errors are allowed to
happen; the rules below show that no other one does, and what holds of the result.
-/

namespace OsLabs.Checked

universe u

variable {ε : Type*} {α β : Type u}

/-- The computation returns a value that meets `post`, or stops with an allowed error. -/
def Safe (allowed : ε → Prop) (x : Except ε α) (post : α → Prop) : Prop :=
  match x with
  | .ok a => post a
  | .error e => allowed e

@[simp] theorem ok_bind (a : α) (f : α → Except ε β) : (Except.ok a >>= f) = f a := rfl

@[simp] theorem pure_eq_ok (a : α) : (pure a : Except ε α) = .ok a := rfl

variable {allowed : ε → Prop} {x : Except ε α} {post post' : α → Prop} {a : α}

theorem Safe.ok (h : post a) : Safe allowed (.ok a) post := h

theorem Safe.error {e : ε} (h : allowed e) : Safe allowed (.error e : Except ε α) post := h

theorem Safe.mono (h : Safe allowed x post) (hpost : ∀ a, post a → post' a) :
    Safe allowed x post' := by
  cases x with
  | ok a => exact hpost a h
  | error e => exact h

theorem Safe.bind {f : α → Except ε β} {post' : β → Prop} (h : Safe allowed x post)
    (hf : ∀ a, post a → Safe allowed (f a) post') : Safe allowed (x >>= f) post' := by
  cases x with
  | ok a => exact hf a h
  | error e => exact h

theorem Safe.ok_bind {f : α → Except ε β} {post' : β → Prop} (h : Safe allowed (f a) post') :
    Safe allowed (.ok a >>= f) post' := h

theorem Safe.of_eq_ok (h : Safe allowed x post) (hx : x = .ok a) : post a := by
  rw [hx] at h
  exact h

theorem Safe.of_eq_error {e : ε} (h : Safe allowed x post) (hx : x = .error e) : allowed e := by
  rw [hx] at h
  exact h

theorem Safe.exists_ok (h : Safe allowed x post) (hallowed : ∀ e, ¬ allowed e) :
    ∃ a, x = .ok a ∧ post a := by
  cases x with
  | ok a => exact ⟨a, rfl, h⟩
  | error e => exact absurd h (hallowed e)

theorem exists_bind_ok_iff (f : α → β) :
    (∃ b, (x >>= fun a => .ok (f a)) = .ok b) ↔ ∃ a, x = .ok a := by
  cases x with
  | ok a => exact iff_of_true ⟨f a, rfl⟩ ⟨a, rfl⟩
  | error e => exact iff_of_false (fun ⟨_, hb⟩ => by cases hb) fun ⟨_, ha⟩ => by cases ha

/-- The rule for a loop over a list: what one iteration keeps, all of them keep. -/
theorem Safe.foldlM {I : β → Prop} {f : β → α → Except ε β} {b : β} {as : List α}
    (step : ∀ b, ∀ a ∈ as, I b → Safe allowed (f b a) I) (h : I b) :
    Safe allowed (as.foldlM f b) I := by
  induction as generalizing b with
  | nil => exact h
  | cons a as ih =>
      rw [List.foldlM_cons]
      refine (step b a List.mem_cons_self h).bind fun b' hb' => ih (fun b a ha => ?_) hb'
      exact step b a (List.mem_cons_of_mem _ ha)

/-! ## Runs that take a choice a step -/

section Follow

variable {σ : Type u} {κ : Type*}

/-- The state after so many steps; it stays when the run is done. -/
def follow (step : σ → κ → Except ε σ) (done : σ → Bool) (choices : ℕ → κ) (s₀ : σ) :
    ℕ → Except ε σ
  | 0 => .ok s₀
  | t + 1 => follow step done choices s₀ t >>= fun s =>
      if done s then .ok s else step s (choices t)

variable {step : σ → κ → Except ε σ} {done : σ → Bool} {choices : ℕ → κ} {s₀ : σ} {I : σ → Prop}
  {guard : σ → κ → Prop}

theorem follow_succ {t : ℕ} {s : σ} (h : follow step done choices s₀ t = .ok s) :
    follow step done choices s₀ (t + 1) = if done s then .ok s else step s (choices t) := by
  rw [follow, h]
  rfl

theorem exists_of_follow_succ {t : ℕ} {s' : σ}
    (h : follow step done choices s₀ (t + 1) = .ok s') :
    ∃ s, follow step done choices s₀ t = .ok s ∧
      (done s = true ∧ s = s' ∨ done s = false ∧ step s (choices t) = .ok s') := by
  cases ht : follow step done choices s₀ t with
  | error e =>
      rw [follow, ht] at h
      cases h
  | ok s =>
      rw [follow_succ ht] at h
      refine ⟨s, rfl, ?_⟩
      cases hdone : done s with
      | true =>
          rw [hdone, if_pos rfl] at h
          exact Or.inl ⟨rfl, Except.ok.inj h⟩
      | false =>
          rw [hdone, if_neg Bool.false_ne_true] at h
          exact Or.inr ⟨rfl, h⟩

theorem follow_safe (h : I s₀)
    (hstep : ∀ s k, I s → done s = false → guard s k → Safe allowed (step s k) I)
    (hguard : ∀ t s, follow step done choices s₀ t = .ok s → done s = false →
      guard s (choices t)) (t : ℕ) : Safe allowed (follow step done choices s₀ t) I := by
  induction t with
  | zero => exact h
  | succ t ih =>
      rw [follow]
      cases ht : follow step done choices s₀ t with
      | error e => exact ih.of_eq_error ht
      | ok s =>
          refine Safe.ok_bind ?_
          cases hdone : done s with
          | true => exact Safe.ok (ih.of_eq_ok ht)
          | false => exact hstep s _ (ih.of_eq_ok ht) hdone (hguard t s ht hdone)

/-- With a measure that every step decreases the run comes to an end. -/
theorem follow_ends (measure : σ → ℕ) (h : I s₀) (hallowed : ∀ e, ¬ allowed e)
    (hstep : ∀ s k, I s → done s = false → guard s k →
      Safe allowed (step s k) fun s' => I s' ∧ measure s' < measure s)
    (hguard : ∀ t s, follow step done choices s₀ t = .ok s → done s = false →
      guard s (choices t)) :
    ∃ t s, follow step done choices s₀ t = .ok s ∧ I s ∧ done s = true := by
  have hrun (t : ℕ) : Safe allowed (follow step done choices s₀ t)
      fun s => I s ∧ (done s = true ∨ measure s + t ≤ measure s₀) := by
    induction t with
    | zero => exact Safe.ok ⟨h, Or.inr le_rfl⟩
    | succ t ih =>
        rw [follow]
        cases ht : follow step done choices s₀ t with
        | error e => exact ih.of_eq_error ht
        | ok s =>
            obtain ⟨hI, hmeasure⟩ := ih.of_eq_ok ht
            refine Safe.ok_bind ?_
            cases hdone : done s with
            | true => exact Safe.ok ⟨hI, Or.inl hdone⟩
            | false =>
                refine (hstep s _ hI hdone (hguard t s ht hdone)).mono fun s' ⟨hI', hlt⟩ => ?_
                rw [hdone] at hmeasure
                have hle := hmeasure.resolve_left Bool.false_ne_true
                exact ⟨hI', Or.inr (by omega)⟩
  cases hend : follow step done choices s₀ (measure s₀ + 1) with
  | error e => exact absurd ((hrun _).of_eq_error hend) (hallowed e)
  | ok s =>
      obtain ⟨hI, hdone⟩ := (hrun _).of_eq_ok hend
      exact ⟨_, s, hend, hI, hdone.resolve_right (by omega)⟩

end Follow

end OsLabs.Checked
