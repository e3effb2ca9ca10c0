import OsLabs.Malloc.Search
import OsLabs.Malloc.Place
import OsLabs.Malloc.Grow

/-!
# Requests

What `mm_malloc` and `mm_realloc` do to a heap that is set up.
-/

namespace OsLabs.Malloc

open ByteMemory BoundaryTags Checked

variable {c : Machine} {h : Heap} {m m' : Memory} {g s size asize : ℕ} {bs l lf r : List Block}
  {pre post arenas : List (List Block)} {live : List (ℕ × Block)}

theorem adjusted_spec (hsize : 0 < size) (hsmall : size + 15 < 2 ^ 31) :
    adjusted size % 8 = 0 ∧ 16 ≤ adjusted size ∧ size + 8 ≤ adjusted size ∧
      adjusted size < 2 ^ 31 := by
  rw [adjusted, DSIZE]
  split
  · omega
  · rw [size_t, size_t]
    omega

theorem Keeps.refl (live : List (ℕ × Block)) (m : Memory) : Keeps live m m := fun _ _ _ _ _ => rfl

theorem Keeps.trans {m'' : Memory} (h : Keeps live m m') (h' : Keeps live m' m'') :
    Keeps live m m'' := fun y hy a ha hlt => (h' y hy a ha hlt).trans (h y hy a ha hlt)

/-- The last arena may end in free blocks of any size. -/
theorem liveBlocks_last (hfree : ∀ b ∈ lf, b.allocated = false) :
    liveBlocks g (pre ++ [l ++ lf]) = liveBlocks g (pre ++ [l]) := by
  rw [liveBlocks_append, liveBlocks_append, liveBlocks, liveBlocks, inUse_append, inUse_free hfree,
    List.append_nil]
  rfl

theorem inUse_placed (a asize s : ℕ) :
    ∃ n, inUse a (placed asize s) = [(a, ⟨n, true⟩)] ∧ (asize ≤ s → asize ≤ n) := by
  rw [placed]
  split
  · exact ⟨asize, rfl, fun _ => le_rfl⟩
  · exact ⟨s, rfl, id⟩

/-- A block that fits becomes a block in use. -/
theorem place_gains (hr : Ready c h pre (l ++ ⟨s, false⟩ :: r)) (hasize8 : asize % 8 = 0)
    (hge : 16 ≤ asize) (hle : asize ≤ s) :
    ∃ m' bs' n, place c h (c.mem_heap + extent pre + 12 + span l + 4) asize =
        .ok { h with mem := m' } ∧ Ready c { h with mem := m' } pre bs' ∧ asize ≤ n ∧
      Gains (liveBlocks c.mem_heap (pre ++ [l ++ ⟨s, false⟩ :: r]))
        (liveBlocks c.mem_heap (pre ++ [bs'])) (c.mem_heap + extent pre + 12 + span l, ⟨n, true⟩) ∧
      Keeps (liveBlocks c.mem_heap (pre ++ [l ++ ⟨s, false⟩ :: r])) h.mem m' := by
  obtain ⟨m', hok, hready, hsame⟩ := place_spec hr hasize8 hge hle
  obtain ⟨g, hg⟩ : ∃ g, g = c.mem_heap + extent pre := ⟨_, rfl⟩
  obtain ⟨n, hn, hnle⟩ := inUse_placed (g + 12 + span l) asize s
  refine ⟨m', _, n, hok, hready, hnle hle, ?_, ?_⟩
  · refine ⟨liveBlocks c.mem_heap pre ++ inUse (g + 12) l, inUse (g + 12 + span l + s) r, ?_, ?_⟩
    · rw [liveBlocks_append, liveBlocks, inUse_append, ← hg]
      simp [liveBlocks]
    · rw [liveBlocks_append, liveBlocks, inUse_append, inUse_append, ← hg, hn, span_append,
        span_placed, ← Nat.add_assoc (g + 12)]
      simp [liveBlocks]
  · intro y hy a hya hlt
    have hy' : y ∈ liveBlocks c.mem_heap (pre ++ [l ++ [⟨s, false⟩] ++ r]) := by simpa using hy
    have hapart := liveBlocks_apart (u := [⟨s, false⟩]) (by simp) hy'
    simp only [span_cons, span_nil] at hapart
    exact hsame a (by omega)

/-- What a request for a block does: none, or one more. -/
structure Allocates (c : Machine) (h h' : Heap) (pre : List (List Block)) (bs bs' : List Block)
    (p asize : ℕ) : Prop where
  ready : Ready c h' pre bs'
  keeps : Keeps (liveBlocks c.mem_heap (pre ++ [bs])) h.mem h'.mem
  result : p = NULL ∧
      liveBlocks c.mem_heap (pre ++ [bs']) = liveBlocks c.mem_heap (pre ++ [bs]) ∨
    ∃ x n, p = x + 4 ∧ asize ≤ n ∧ Gains (liveBlocks c.mem_heap (pre ++ [bs]))
      (liveBlocks c.mem_heap (pre ++ [bs'])) (x, ⟨n, true⟩)

theorem growAndPlace_spec (hr : Ready c h pre bs) (ha8 : asize % 8 = 0) (hage : 16 ≤ asize)
    (halt : asize < 2 ^ 31) :
    ∃ p h' bs', growAndPlace c h asize = .ok (p, h') ∧ Allocates c h h' pre bs bs' p asize := by
  have hchunk : CHUNKSIZE = 4096 := rfl
  rw [growAndPlace]
  obtain hfail | ⟨l, lf, m', rover, rfl, hfree, hextend, hready, hsame⟩ :=
    extend_heap_spec (e := max asize CHUNKSIZE) hr (by omega) (by omega) (by omega)
  · refine ⟨NULL, { h with sbrks := h.sbrks + 1 }, bs, ?_, ?_, Keeps.refl _ _, Or.inl ⟨rfl, rfl⟩⟩
    · rw [hfail]
      rfl
    · exact hr.of_eq rfl rfl rfl hr.rover
  · obtain ⟨m'', bs', n, hok, hready', hn, hgains, hkeeps⟩ := place_gains hready ha8 hage (by omega)
    have hlive : liveBlocks c.mem_heap (pre ++ [l ++ [⟨span lf + max asize CHUNKSIZE, false⟩]]) =
        liveBlocks c.mem_heap (pre ++ [l ++ lf]) := by
      rw [liveBlocks_last hfree, liveBlocks_last (by simp)]
    rw [hlive] at hgains hkeeps
    refine ⟨_, _, bs', ?_, hready', ?_, Or.inr ⟨_, n, rfl, hn, hgains⟩⟩
    · rw [hextend, ok_bind]
      change (if c.mem_heap + extent pre + 12 + span l + 4 = NULL then _ else _) = _
      rw [if_neg (by rw [NULL]; omega), hok]
      rfl
    · refine Keeps.trans (fun y hy a _ hlt => hsame a ?_) hkeeps
      rw [liveBlocks_last hfree] at hy
      have hbounds := liveBlocks_bounds hy
      rw [extent_append, extent_cons, extent_nil] at hbounds
      omega

theorem allocate_spec (hr : Ready c h pre bs) (ha8 : asize % 8 = 0) (hage : 16 ≤ asize)
    (halt : asize < 2 ^ 31) :
    ∃ p h' bs', allocate c h asize = .ok (p, h') ∧ Allocates c h h' pre bs bs' p asize := by
  obtain ⟨bp, rover, hfind, hrover, hcase⟩ := find_fit_spec hr asize
  have hr1 : Ready c { h with rover := rover } pre bs := hr.of_eq rfl rfl rfl hrover
  rw [allocate, hfind, ok_bind]
  obtain ⟨l, s, r, rfl, hle, rfl⟩ | ⟨rfl, -⟩ := hcase
  · obtain ⟨m', bs', n, hok, hready, hn, hgains, hkeeps⟩ := place_gains hr1 ha8 hage hle
    refine ⟨_, _, bs', ?_, hready, hkeeps, Or.inr ⟨_, n, rfl, hn, hgains⟩⟩
    change (if c.mem_heap + extent pre + 12 + span l + 4 ≠ NULL then _ else _) = _
    rw [if_pos (by rw [NULL]; omega), hok]
    rfl
  · obtain ⟨p, h', bs', hok, hallocates⟩ := growAndPlace_spec hr1 ha8 hage halt
    exact ⟨p, h', bs', hok, hallocates.ready, hallocates.keeps, hallocates.result⟩

end OsLabs.Malloc
