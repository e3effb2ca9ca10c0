import OsLabs.Malloc.Free

/-!
# Placing a block
-/

namespace OsLabs.Malloc

open ByteMemory BoundaryTags Checked

variable {c : Machine} {h : Heap} {m m' : Memory} {a g s asize : ℕ} {b : Block}
  {bs l r : List Block} {pre : List (List Block)}

/-- The block that is handed out, and what is left of the free one. -/
def placed (asize csize : ℕ) : List Block :=
  if asize + 16 ≤ csize then [⟨asize, true⟩, ⟨csize - asize, false⟩] else [⟨csize, true⟩]

theorem span_placed (asize s : ℕ) : span (placed asize s) = s := by
  rw [placed]
  split
  · simp only [span_cons, span_nil]
    omega
  · simp

theorem place_eq (hb : (Block.mk s false).At h.mem a) (hlo : c.mem_heap ≤ a)
    (hbrk : a + s ≤ h.mem_brk) (hasize8 : asize % 8 = 0) (hge : 16 ≤ asize) (hle : asize ≤ s)
    (hs8 : s % 8 = 0) (hlt : s < 2 ^ 31) :
    ∃ m', place c h (a + 4) asize = .ok { h with mem := m' } ∧ Tagged m' a (placed asize s) ∧
      SameOutside a (a + s) h.mem m' := by
  have hin : InHeap c h a 4 := ⟨hlo, by omega⟩
  have hrest : size_t (s + 2 ^ 64 - asize) = s - asize := by
    rw [size_t]
    omega
  rw [place, HDRP_add, GET_SIZE_eq hin hb.1 hs8, ok_bind]
  simp only [hrest]
  by_cases hsplit : s - asize ≥ 2 * DSIZE
  · have hroom : asize + 16 ≤ s := by
      rw [DSIZE] at hsplit
      omega
    have htag1 : (Block.mk asize true).tag < 2 ^ 32 := by
      simp only [Block.tag, Bool.toNat_true]
      omega
    have htag2 : (Block.mk (s - asize) false).tag < 2 ^ 32 := by
      simp only [Block.tag, Bool.toNat_false]
      omega
    have hat1 := writeTags_at h.mem a (b := ⟨asize, true⟩) (by simp only; omega) htag1
    refine ⟨writeTags (writeTags h.mem a ⟨asize, true⟩) (a + asize) ⟨s - asize, false⟩, ?_, ?_, ?_⟩
    · rw [if_pos hsplit]
      refine (putTags_bind (b := ⟨asize, true⟩) hlo ?_ ?_ hasize8 htag1 _).trans ?_
      · simp only
        omega
      · simp only
        omega
      · rw [NEXT_BLKP_eq (h := { h with mem := writeTags h.mem a ⟨asize, true⟩ }) hin hat1.1
            hasize8,
          ok_bind, HDRP_add]
        have hend : a + asize + (s - asize) ≤ h.mem_brk := by omega
        exact putTags_eq (h := { h with mem := writeTags h.mem a ⟨asize, true⟩ }) (a := a + asize)
          (b := ⟨s - asize, false⟩) (by omega) hend (by simp only; omega) (by simp only; omega)
          htag2
    · rw [placed, if_pos hroom]
      refine ⟨hat1.congr (by simp only; omega) fun x _ hx => ?_, ?_, trivial⟩
      · exact sameOutside_writeTags _ _ (by simp only; omega) x (Or.inl hx)
      · exact writeTags_at _ _ (by simp only; omega) htag2
    · have hsame1 := sameOutside_writeTags h.mem a (b := ⟨asize, true⟩) (by simp only; omega)
      have hsame2 := sameOutside_writeTags (writeTags h.mem a ⟨asize, true⟩) (a + asize)
        (b := ⟨s - asize, false⟩) (by simp only; omega)
      exact (hsame1.mono le_rfl (by simp only; omega)).trans
        (hsame2.mono (by omega) (by simp only; omega))
  · have hfull : ¬ asize + 16 ≤ s := by
      rw [DSIZE] at hsplit
      omega
    have htag : (Block.mk s true).tag < 2 ^ 32 := by
      simp only [Block.tag, Bool.toNat_true]
      omega
    have hsame := sameOutside_writeTags h.mem a (b := ⟨s, true⟩) (by simp only; omega)
    refine ⟨writeTags h.mem a ⟨s, true⟩, ?_, ?_, hsame⟩
    · rw [if_neg hsplit]
      exact putTags_eq (b := ⟨s, true⟩) hlo hbrk (by simp only; omega) hs8 htag
    · rw [placed, if_neg hfull]
      exact ⟨writeTags_at _ _ (by simp only; omega) htag, trivial⟩

theorem placed_sized (hasize8 : asize % 8 = 0) (hge : 16 ≤ asize) (hs : Sized ⟨s, false⟩) :
    ∀ b ∈ placed asize s, Sized b := by
  obtain ⟨hs16, hs8⟩ := hs
  simp only at hs16 hs8
  rw [placed]
  split
  · simp only [List.mem_cons, List.not_mem_nil, or_false, forall_eq_or_imp, forall_eq, Sized]
    omega
  · simp only [List.mem_cons, List.not_mem_nil, or_false, forall_eq, Sized]
    exact ⟨hs16, hs8⟩

theorem placed_coalesced (h : Coalesced (l ++ ⟨s, false⟩ :: r)) :
    Coalesced (l ++ placed asize s ++ r) := by
  obtain ⟨hl, hr, hlast, hhead⟩ := coalesced_free_iff.mp h
  rw [placed]
  split
  · rw [List.append_assoc]
    simp only [Coalesced, List.isChain_append, List.isChain_cons, List.cons_append,
      List.nil_append, List.head?_cons, Option.mem_some_iff, forall_eq', true_or, or_true,
      Bool.false_eq_true, false_or, implies_true, and_true, true_and]
    exact ⟨hl, hhead, hr⟩
  · rw [List.append_assoc]
    simp only [Coalesced, List.isChain_append, List.isChain_cons, List.cons_append,
      List.nil_append, List.head?_cons, Option.mem_some_iff, forall_eq', true_or, or_true,
      implies_true, and_true, true_and]
    exact ⟨hl, hr⟩

theorem place_spec (hr : Ready c h pre (l ++ ⟨s, false⟩ :: r)) (hasize8 : asize % 8 = 0)
    (hge : 16 ≤ asize) (hle : asize ≤ s) :
    ∃ m', place c h (c.mem_heap + extent pre + 12 + span l + 4) asize =
        .ok { h with mem := m' } ∧
      Ready c { h with mem := m' } pre (l ++ placed asize s ++ r) ∧
      SameOutside (c.mem_heap + extent pre + 12 + span l)
        (c.mem_heap + extent pre + 12 + span l + s) h.mem m' := by
  obtain ⟨harena, hbrk⟩ := hr.holds.arena
  have hsized := hr.holds.sized (l ++ ⟨s, false⟩ :: r) (by simp)
  obtain ⟨hs16, hs8⟩ := hsized ⟨s, false⟩ (by simp)
  have hroom := hr.holds.room
  have hat : (Block.mk s false).At h.mem (c.mem_heap + extent pre + 12 + span l) := by
    refine harena.tagged.2.at_of_mem (mem_positions.mpr ⟨l, r, rfl, ?_⟩)
    rw [prologue_size]
  simp only [span_append, span_cons, extent_nil] at hbrk hs16 hs8
  have hlt : s < 2 ^ 31 := size_lt (g := c.mem_heap + extent pre) hroom (by omega) (by omega)
  obtain ⟨m', hok, htag, hsame⟩ := place_eq (c := c) (h := h) hat (by omega) (by omega) hasize8 hge
    hle hs8 hlt
  refine ⟨m', hok, ?_, hsame⟩
  have hnew : ArenaAt m' (c.mem_heap + extent pre) (l ++ placed asize s ++ r) := by
    refine ArenaAt.replace (u := [⟨s, false⟩]) (by simpa using harena) (by simp [span_placed])
      (by simpa using hsized) htag (by simpa using hsame)
  refine hr.update ?_ hroom rfl hnew ?_ ?_ (fun x hx => hsame x (Or.inl (by omega))) ?_
  · simp [span_placed]
  · intro b hb
    obtain hb | hb := List.mem_append.mp hb
    · obtain hb | hb := List.mem_append.mp hb
      · exact hsized b (List.mem_append_left _ hb)
      · exact placed_sized hasize8 hge ⟨hs16, hs8⟩ b hb
    · exact hsized b (List.mem_append_right _ (List.mem_cons_of_mem _ hb))
  · exact placed_coalesced (hr.coalesced _ (by simp))
  · intro hnext
    exact RoverAt.split (b := ⟨s, false⟩) (by simpa using hr.rover hnext) (span_placed asize s)

end OsLabs.Malloc
