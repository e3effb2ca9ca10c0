import Mathlib

/-!
# Ownership tables

A table that maps each item to at most one owner, against the lists of items
that the owners keep themselves. Both views change together when items are
assigned and released, and the number of free items follows the lengths of the
lists.
-/

namespace OsLabs.Ownership

variable {β ι : Type*}

/-- The table and the lists say the same, and no list repeats an item. -/
structure Owned (owner : β → Option ι) (items : ι → List β) : Prop where
  mem_iff : ∀ b n, owner b = some n ↔ b ∈ items n
  nodup : ∀ n, (items n).Nodup

variable {owner owner' : β → Option ι} {items items' : ι → List β} {n m : ι} {b : β}

theorem Owned.disjoint (h : Owned owner items) (hn : b ∈ items n) (hm : b ∈ items m) :
    n = m := by
  have hbn := (h.mem_iff b n).mpr hn
  rw [(h.mem_iff b m).mpr hm] at hbn
  exact (Option.some.inj hbn).symm

theorem Owned.free_iff (h : Owned owner items) : owner b = none ↔ ∀ n, b ∉ items n := by
  constructor
  · intro hb n hn
    rw [(h.mem_iff b n).mpr hn] at hb
    cases hb
  · intro hb
    cases howner : owner b with
    | none => rfl
    | some n => exact absurd ((h.mem_iff b n).mp howner) (hb n)

variable [DecidableEq β]

/-- Free items go to an owner that had none. -/
theorem Owned.assign (h : Owned owner items) {bs : List β} (hnone : items n = [])
    (hnodup : bs.Nodup) (hfree : ∀ b ∈ bs, owner b = none)
    (howner : ∀ b, owner' b = if b ∈ bs then some n else owner b)
    (hself : items' n = bs) (hother : ∀ m, m ≠ n → items' m = items m) :
    Owned owner' items' where
  mem_iff := by
    intro b m
    rw [howner]
    by_cases hm : m = n
    · rw [hm, hself]
      by_cases hb : b ∈ bs
      · simp [hb]
      · have hbn : ¬ owner b = some n := by
          rw [h.mem_iff, hnone]
          exact List.not_mem_nil
        simp [hb, hbn]
    · rw [hother m hm]
      by_cases hb : b ∈ bs
      · have hbm : b ∉ items m := h.free_iff.mp (hfree b hb) m
        simp [hb, hbm, Ne.symm hm]
      · simp [hb, h.mem_iff]
  nodup := by
    intro m
    by_cases hm : m = n
    · rw [hm, hself]
      exact hnodup
    · rw [hother m hm]
      exact h.nodup m

/-- An owner gives up all its items. -/
theorem Owned.release (h : Owned owner items)
    (howner : ∀ b, owner' b = if b ∈ items n then none else owner b)
    (hself : items' n = []) (hother : ∀ m, m ≠ n → items' m = items m) :
    Owned owner' items' where
  mem_iff := by
    intro b m
    rw [howner]
    by_cases hm : m = n
    · rw [hm, hself]
      by_cases hb : b ∈ items n
      · simp [hb]
      · have hbn : ¬ owner b = some n := by rwa [h.mem_iff]
        simp [hb, hbn]
    · rw [hother m hm]
      by_cases hb : b ∈ items n
      · have hbm : b ∉ items m := fun hbm => hm (h.disjoint hbm hb)
        simp [hb, hbm]
      · simp [hb, h.mem_iff]
  nodup := by
    intro m
    by_cases hm : m = n
    · rw [hm, hself]
      exact List.nodup_nil
    · rw [hother m hm]
      exact h.nodup m

/-- Items that stop to satisfy `p` are as many as the count of `p` loses. -/
theorem countP_add_length {p q : β → Bool} {all bs : List β} (hall : all.Nodup)
    (hnodup : bs.Nodup) (hsub : ∀ b ∈ bs, b ∈ all ∧ p b = true)
    (hq : ∀ b, q b = (p b && decide (b ∉ bs))) :
    all.countP q + bs.length = all.countP p := by
  have hperm : (all.filter p).Perm (all.filter q ++ bs) := by
    apply (List.perm_ext_iff_of_nodup (hall.filter p) _).mpr
    · intro b
      by_cases hb : b ∈ bs
      · simp [hb, hq, hsub b hb]
      · simp [hb, hq]
    · apply (hall.filter q).append hnodup
      intro b hbq hb
      simp [hq, hb] at hbq
  rw [List.countP_eq_length_filter, List.countP_eq_length_filter, hperm.length_eq,
    List.length_append]

theorem countP_free_assign {all bs : List β} (hall : all.Nodup)
    (hnodup : bs.Nodup) (hsub : ∀ b ∈ bs, b ∈ all ∧ owner b = none)
    (howner : ∀ b, owner' b = if b ∈ bs then some n else owner b) :
    all.countP (fun b => (owner' b).isNone) + bs.length =
      all.countP fun b => (owner b).isNone := by
  apply countP_add_length hall hnodup
  · exact fun b hb => ⟨(hsub b hb).1, by simp [(hsub b hb).2]⟩
  · intro b
    rw [howner]
    by_cases hb : b ∈ bs <;> simp [hb]

theorem countP_free_release {all : List β} (h : Owned owner items)
    (hall : all.Nodup) (hsub : ∀ b ∈ items n, b ∈ all)
    (howner : ∀ b, owner' b = if b ∈ items n then none else owner b) :
    all.countP (fun b => (owner' b).isNone) =
      all.countP (fun b => (owner b).isNone) + (items n).length := by
  apply Eq.symm
  apply countP_add_length hall (h.nodup n)
  · exact fun b hb => ⟨hsub b hb, by simp [howner, hb]⟩
  · intro b
    rw [howner]
    by_cases hb : b ∈ items n
    · simp [hb, (h.mem_iff b n).mpr hb]
    · simp [hb]

end OsLabs.Ownership
