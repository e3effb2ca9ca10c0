import Mathlib

/-!
# Queues that rotate

The first of a queue takes its turn, after which it leaves or goes to the end. Between two
turns of one member every other member has exactly one.
-/

namespace OsLabs.Rotation

variable {α : Type*} {queue queue' rest tail : List α} {turns turns' : List (α × Bool)} {a k : α}
  {first last : Bool}

/-- The queue after the turn of `a`; `last` if `a` leaves. -/
def requeue (rest : List α) (a : α) (last : Bool) : List α := if last then rest else rest ++ [a]

/-- The turns, each with whether it was the last of its member, lead from one queue to
another. -/
def Rotates : List α → List (α × Bool) → List α → Prop
  | queue, [], queue' => queue = queue'
  | queue, (a, last) :: turns, queue' =>
      ∃ rest, queue = a :: rest ∧ Rotates (requeue rest a last) turns queue'

/-- The member has not had its last turn. -/
def Remains (turns : List (α × Bool)) (a : α) : Prop := (a, true) ∉ turns

theorem rotates_append : Rotates queue (turns ++ turns') queue' ↔
    ∃ middle, Rotates queue turns middle ∧ Rotates middle turns' queue' := by
  induction turns generalizing queue with
  | nil => simp [Rotates]
  | cons turn turns ih =>
      constructor
      · rintro ⟨rest, rfl, h⟩
        obtain ⟨middle, hleft, hright⟩ := ih.mp h
        exact ⟨middle, ⟨rest, rfl, hleft⟩, hright⟩
      · rintro ⟨middle, ⟨rest, rfl, hleft⟩, hright⟩
        exact ⟨rest, rfl, ih.mpr ⟨middle, hleft, hright⟩⟩

theorem Rotates.turn (h : Rotates queue turns (a :: rest)) (last : Bool) :
    Rotates queue (turns ++ [(a, last)]) (requeue rest a last) :=
  rotates_append.mpr ⟨a :: rest, h, rest, rfl, rfl⟩

theorem nodup_requeue (h : (a :: rest).Nodup) (last : Bool) : (requeue rest a last).Nodup := by
  cases last with
  | true => exact h.of_cons
  | false => exact (List.perm_append_singleton a rest).nodup_iff.mpr h

theorem mem_requeue (h : (a :: rest).Nodup) :
    k ∈ requeue rest a last ↔ k ∈ a :: rest ∧ Remains [(a, last)] k := by
  have hnotin : a ∉ rest := (List.nodup_cons.mp h).1
  cases last with
  | false => simp [requeue, Remains, or_comm]
  | true =>
      have hremains : Remains [(a, true)] k ↔ k ≠ a := by simp [Remains]
      rw [hremains, requeue, if_pos rfl, List.mem_cons]
      constructor
      · intro hmem
        exact ⟨Or.inr hmem, fun heq => hnotin (heq ▸ hmem)⟩
      · rintro ⟨hmem, hne⟩
        exact hmem.resolve_left hne

theorem Rotates.nodup (h : Rotates queue turns queue') (hqueue : queue.Nodup) :
    queue'.Nodup := by
  induction turns generalizing queue with
  | nil => exact h ▸ hqueue
  | cons turn turns ih =>
      obtain ⟨rest, rfl, h⟩ := h
      exact ih h (nodup_requeue hqueue turn.2)

theorem Rotates.mem_iff (h : Rotates queue turns queue') (hqueue : queue.Nodup) :
    k ∈ queue' ↔ k ∈ queue ∧ Remains turns k := by
  induction turns generalizing queue with
  | nil =>
      obtain rfl := h
      simp [Remains]
  | cons turn turns ih =>
      obtain ⟨rest, rfl, h⟩ := h
      rw [ih h (nodup_requeue hqueue turn.2), mem_requeue hqueue, and_assoc]
      simp [Remains]

/-- Until a member has its turn again, those before it in the queue have theirs, in order. -/
theorem Rotates.before (h : Rotates (rest ++ a :: tail) turns queue')
    (hnot : a ∉ turns.map Prod.fst) :
    ∃ waiting behind, rest = turns.map Prod.fst ++ waiting ∧ queue' = waiting ++ a :: behind := by
  induction turns generalizing rest tail with
  | nil => exact ⟨rest, tail, rfl, h.symm⟩
  | cons turn turns ih =>
      obtain ⟨others, hqueue, h⟩ := h
      obtain ⟨hne, hnot⟩ := not_or.mp (mt List.mem_cons.mpr hnot)
      cases rest with
      | nil => exact absurd (List.cons.inj hqueue).1 hne
      | cons b rest =>
          obtain ⟨rfl, rfl⟩ := List.cons.inj hqueue
          have hnext : ∃ tail', requeue (rest ++ a :: tail) turn.1 turn.2 =
              rest ++ a :: tail' := by
            cases turn.2 with
            | true => exact ⟨tail, rfl⟩
            | false => exact ⟨tail ++ [turn.1], by simp [requeue]⟩
          obtain ⟨tail', htail'⟩ := hnext
          obtain ⟨waiting, behind, hrest, hqueue'⟩ := ih (htail' ▸ h) hnot
          exact ⟨waiting, behind, by rw [hrest]; rfl, hqueue'⟩

/-- Between two turns of `a` the others take theirs: each that remains exactly once. -/
theorem Rotates.between {pre mid post : List (α × Bool)}
    (h : Rotates queue (pre ++ (a, first) :: (mid ++ (a, last) :: post)) queue')
    (hqueue : queue.Nodup) (hnot : a ∉ mid.map Prod.fst) :
    (mid.map Prod.fst).Nodup ∧ ∀ k, k ∈ mid.map Prod.fst ↔
      k ≠ a ∧ k ∈ queue ∧ Remains (pre ++ [(a, first)]) k := by
  obtain ⟨queue₁, hpre, rest, rfl, h⟩ := rotates_append.mp h
  obtain ⟨queue₂, hmid, rest', rfl, -⟩ := rotates_append.mp h
  have hfirst := hpre.turn first
  have hnodup := hpre.nodup hqueue
  have hnotin : a ∉ rest := (List.nodup_cons.mp hnodup).1
  -- `a` comes back, so it has not left
  obtain rfl : first = false := by
    by_contra hleft
    obtain rfl := Bool.eq_true_of_not_eq_false hleft
    have hmem : a ∈ a :: rest' := List.mem_cons_self
    exact hnotin ((hmid.mem_iff hnodup.of_cons).mp hmem).1
  obtain ⟨waiting, behind, hrest, hcons⟩ :=
    Rotates.before (show Rotates (rest ++ a :: []) mid (a :: rest') from hmid) hnot
  cases waiting with
  | cons b waiting =>
      obtain ⟨rfl, -⟩ := List.cons.inj hcons
      exact absurd (hrest ▸ List.mem_append_right _ List.mem_cons_self) hnotin
  | nil =>
      rw [List.append_nil] at hrest
      rw [← hrest]
      refine ⟨hnodup.of_cons, fun k => ?_⟩
      rw [← hfirst.mem_iff hqueue, requeue, if_neg Bool.false_ne_true, List.mem_append,
        List.mem_singleton]
      constructor
      · intro hmem
        exact ⟨fun heq => hnotin (heq ▸ hmem), Or.inl hmem⟩
      · rintro ⟨hne, hmem⟩
        exact hmem.resolve_right hne

end OsLabs.Rotation
