import Mathlib

/-!
# Lists of sets that tile a set

The order of the list is free, a tile may be cut in two, and two tiles may be
joined.
-/

namespace OsLabs.Extents

variable {α : Type*} {S A B C : Set α} {es fs : List (Set α)}

structure Tiles (S : Set α) (es : List (Set α)) : Prop where
  nonempty : ∀ e ∈ es, e.Nonempty
  disjoint : es.Pairwise Disjoint
  cover : ∀ x, (∃ e ∈ es, x ∈ e) ↔ x ∈ S

theorem Tiles.singleton (h : S.Nonempty) : Tiles S [S] := by
  refine ⟨fun e he => ?_, List.pairwise_singleton _ _, fun x => ?_⟩
  · rwa [List.mem_singleton.mp he]
  · simp

theorem Tiles.perm (h : Tiles S es) (hperm : es.Perm fs) : Tiles S fs := by
  refine ⟨fun e he => h.nonempty e (hperm.mem_iff.mpr he), ?_, fun x => ?_⟩
  · exact (hperm.pairwise_iff fun hxy => hxy.symm).mp h.disjoint
  · rw [← h.cover x]
    simp only [hperm.mem_iff]

theorem Tiles.disjoint_of_mem (h : Tiles S (A :: es)) (hB : B ∈ es) : Disjoint A B :=
  (List.pairwise_cons.mp h.disjoint).1 B hB

theorem Tiles.subset (h : Tiles S es) (hA : A ∈ es) : A ⊆ S :=
  fun x hx => (h.cover x).mp ⟨A, hA, hx⟩

/-- A tile may be cut in two. -/
theorem Tiles.split (h : Tiles S (A :: es)) (hunion : B ∪ C = A) (hdisjoint : Disjoint B C)
    (hB : B.Nonempty) (hC : C.Nonempty) : Tiles S (B :: C :: es) := by
  obtain ⟨hhead, htail⟩ := List.pairwise_cons.mp h.disjoint
  have hsubB : B ⊆ A := hunion ▸ Set.subset_union_left
  have hsubC : C ⊆ A := hunion ▸ Set.subset_union_right
  refine ⟨fun e he => ?_, ?_, fun x => ?_⟩
  · obtain rfl | he := List.mem_cons.mp he
    · exact hB
    obtain rfl | he := List.mem_cons.mp he
    · exact hC
    · exact h.nonempty e (List.mem_cons_of_mem _ he)
  · refine List.pairwise_cons.mpr ⟨fun e he => ?_, List.pairwise_cons.mpr ⟨fun e he => ?_, htail⟩⟩
    · obtain rfl | he := List.mem_cons.mp he
      · exact hdisjoint
      · exact (hhead e he).mono_left hsubB
    · exact (hhead e he).mono_left hsubC
  · rw [← h.cover x]
    simp only [List.exists_mem_cons_iff, ← hunion, Set.mem_union, or_assoc]

/-- Two tiles may be joined. -/
theorem Tiles.join (h : Tiles S (B :: C :: es)) (hunion : B ∪ C = A) : Tiles S (A :: es) := by
  obtain ⟨hheadB, htail⟩ := List.pairwise_cons.mp h.disjoint
  obtain ⟨hheadC, htail⟩ := List.pairwise_cons.mp htail
  refine ⟨fun e he => ?_, List.pairwise_cons.mpr ⟨fun e he => ?_, htail⟩, fun x => ?_⟩
  · obtain rfl | he := List.mem_cons.mp he
    · exact hunion ▸ (h.nonempty B List.mem_cons_self).mono Set.subset_union_left
    · exact h.nonempty e (List.mem_cons_of_mem _ (List.mem_cons_of_mem _ he))
  · rw [← hunion]
    exact Disjoint.union_left (hheadB e (List.mem_cons_of_mem _ he)) (hheadC e he)
  · rw [← h.cover x]
    simp only [List.exists_mem_cons_iff, ← hunion, Set.mem_union, or_assoc]

end OsLabs.Extents
