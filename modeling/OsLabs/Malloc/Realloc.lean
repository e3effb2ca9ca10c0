import OsLabs.Malloc.Runs

/-!
# Moving a block

`mm_realloc` of a live block, in every heap that is set up.
-/

namespace OsLabs.Malloc

open ByteMemory BoundaryTags Checked Transition

variable {c : Machine} {h h' : Heap} {x size p : ℕ} {b : Block} {bs : List Block}
  {pre arenas arenas' : List (List Block)}

/-- No block is taken, and none is freed. -/
structure Untouched (c : Machine) (h h' : Heap) (arenas arenas' : List (List Block)) : Prop where
  inv : Inv c h' arenas'
  live : liveBlocks c.mem_heap arenas' = liveBlocks c.mem_heap arenas
  payloads : ∀ y ∈ liveBlocks c.mem_heap arenas, ∀ a, y.1 + 4 ≤ a → a < y.1 + y.2.size - 4 →
    h'.mem a = h.mem a

/-- The block `y` is gone, and where `size` is not zero a new one at `p` begins as it did. -/
structure Replaced (c : Machine) (h h' : Heap) (arenas arenas' : List (List Block))
    (y : ℕ × Block) (p size : ℕ) : Prop where
  inv : Inv c h' arenas'
  live : ∀ z, z ∈ liveBlocks c.mem_heap arenas' ↔
    z ∈ liveBlocks c.mem_heap arenas ∧ z ≠ y ∨ size ≠ 0 ∧ z.1 + 4 = p ∧ z.2 = blockAt h' p
  large : size ≠ 0 → p ≠ NULL ∧ size + 8 ≤ (blockAt h' p).size
  copied : ∀ i < min (y.2.size - 8) size, h'.mem (p + i) = h.mem (y.1 + 4 + i)
  payloads : ∀ z ∈ liveBlocks c.mem_heap arenas, z ≠ y → ∀ a, z.1 + 4 ≤ a →
    a < z.1 + z.2.size - 4 → h'.mem a = h.mem a

theorem Ready.setUp (hr : Ready c h pre bs) : SetUp c h := by
  have hbrk := hr.holds.arena.2
  have hroom := hr.holds.room
  have hlistp := hr.heap_listp
  have hpos := c.heap_pos
  refine ⟨ne_failed (c := c) ?_, fun hnull => ?_⟩
  · rw [extent_nil] at hbrk
    omega
  · rw [hnull, NULL] at hlistp
    omega

theorem Moved.replaced (hm : Moved c h h' arenas arenas' (x, b) p size) (hi : Inv c h arenas)
    (hx : (x, b) ∈ liveBlocks c.mem_heap arenas) (hsize : size ≠ 0) :
    Replaced c h h' arenas arenas' (x, b) p size := by
  obtain ⟨y, n, both, rfl, hn, hgains, hgains', hapart⟩ := hm.live
  have hxy := hapart (x, b) hx
  have hge := (hi.holds.live_at hx).2.2.2.1
  simp only at hxy
  have hne : (y, (⟨n, true⟩ : Block)) ≠ (x, b) := fun heq => by
    have hfst := (Prod.mk.inj heq).1
    omega
  have hmem (z : ℕ × Block) : z ∈ liveBlocks c.mem_heap arenas' ∨ z = (x, b) ↔
      z = (y, ⟨n, true⟩) ∨ z ∈ liveBlocks c.mem_heap arenas := by
    rw [← hgains.mem_iff, hgains'.mem_iff, or_comm]
  have hy : (y, ⟨n, true⟩) ∈ liveBlocks c.mem_heap arenas' :=
    ((hmem _).mpr (Or.inl rfl)).resolve_right hne
  obtain ⟨hat, -, -, -, h8⟩ := hm.inv.holds.live_at hy
  have hblock : blockAt h' (y + 4) = ⟨n, true⟩ := blockAt_eq hat h8
  refine ⟨hm.inv, fun z => ?_, fun _ => ⟨Nat.succ_ne_zero _, by rwa [hblock]⟩, hm.copied, ?_⟩
  · rw [hblock]
    constructor
    · intro hz
      obtain rfl | hzold := (hmem z).mp (Or.inl hz)
      · exact Or.inr ⟨hsize, rfl, rfl⟩
      · refine Or.inl ⟨hzold, fun heq => ?_⟩
        have hgone := hm.gone z hz
        simp only [heq] at hgone
        omega
    · rintro (⟨hz, hzne⟩ | ⟨-, hfst, hsnd⟩)
      · exact ((hmem z).mpr (Or.inr hz)).resolve_right hzne
      · obtain ⟨w, d⟩ := z
        simp only at hfst hsnd
        obtain rfl : w = y := by omega
        exact hsnd ▸ hy
  · exact fun z hz hzne a hlo hhi => hm.keeps z hz hzne a (by omega) (by omega)

theorem Freed.replaced (hf : Freed c h h' arenas arenas' (x, b)) (hi : Inv c h arenas)
    (hx : (x, b) ∈ liveBlocks c.mem_heap arenas) :
    Replaced c h h' arenas arenas' (x, b) NULL 0 := by
  have hge := (hi.holds.live_at hx).2.2.2.1
  have hmem (z : ℕ × Block) := hf.live.mem_iff (z := z)
  refine ⟨hf.inv, fun z => ?_, fun hne => absurd rfl hne, fun i hi => ?_, ?_⟩
  · constructor
    · intro hz
      refine Or.inl ⟨(hmem z).mpr (Or.inr hz), fun heq => ?_⟩
      have hapart := hf.live.apart hz
      rw [heq] at hapart
      simp only at hapart
      omega
    · rintro (⟨hz, hne⟩ | ⟨hne, -⟩)
      · exact ((hmem z).mp hz).resolve_left hne
      · exact absurd rfl hne
  · exact absurd hi (by omega)
  · intro z hz hne a hlo hhi
    exact hf.keeps z (((hmem z).mp hz).resolve_left hne) a (by omega) (by omega)

/-- What was in a live block is in the block that takes its place, and all else stays; where
none can be had nothing changes. -/
theorem mm_realloc_live (hr : Ready c h pre bs)
    (hx : (x, b) ∈ liveBlocks c.mem_heap (pre ++ [bs])) (hsize : size + 15 < 2 ^ 31) :
    ∃ p h' arenas', mm_realloc c h (x + 4) size = .ok (p, h') ∧
      (size ≠ 0 ∧ p = NULL ∧ Untouched c h h' (pre ++ [bs]) arenas' ∨
        Replaced c h h' (pre ++ [bs]) arenas' (x, b) p size) := by
  have hi := hr.inv
  by_cases hzero : size = 0
  · obtain ⟨h', arenas', hok, hfreed⟩ := mm_free_inv hi hx
    refine ⟨NULL, h', arenas', ?_, Or.inr (hzero ▸ hfreed.replaced hi hx)⟩
    rw [mm_realloc, if_pos hzero, hok]
    rfl
  · obtain ⟨p, h', arenas', hok, -, hcase⟩ :=
      mm_realloc_inv hi hx hzero hr.setUp (Or.inl hsize)
    refine ⟨p, h', arenas', hok, ?_⟩
    obtain ⟨rfl, hsame⟩ | hmoved := hcase
    · exact Or.inl ⟨hzero, rfl, hsame.inv, hsame.live,
        fun y hy a hlo hhi => hsame.keeps y hy a (by omega) (by omega)⟩
    · exact Or.inr (hmoved.replaced hi hx hzero)

theorem mm_realloc_live_sampleCalls :
    ∃ h₀ s bs x b, run (step (plainMachine true)) ⟨h₀, []⟩ sampleCalls = some s ∧ x = 5060 ∧
      Ready (plainMachine true) s.heap [] bs ∧
      (x, b) ∈ liveBlocks (plainMachine true).mem_heap ([] ++ [bs]) ∧
      ∃ p h' arenas', mm_realloc (plainMachine true) s.heap (x + 4) 200 = .ok (p, h') ∧
        (200 ≠ 0 ∧ p = NULL ∧ Untouched (plainMachine true) s.heap h' ([] ++ [bs]) arenas' ∨
          Replaced (plainMachine true) s.heap h' ([] ++ [bs]) arenas' (x, b) p 200) := by
  obtain ⟨h₀, s, hinit, hrun, hheld, hreach⟩ := exists_reach (c := plainMachine true)
    (m := fun _ => 0) (G := Later (plainMachine true)) sampleCalls [(5176, 30), (5064, 100)]
    (by decide +kernel) (by decide +kernel) (by decide +kernel)
  obtain ⟨bs, hr, hholding⟩ := (reach_oneArena hinit (mm_init_succeeds hinit) hreach).ready
  obtain ⟨x, b, hx, hlive, -⟩ := hholding.2 (5064, 100) (by rw [hheld]; decide)
  exact ⟨h₀, s, bs, x, b, hrun, by simp only at hx; omega, hr, hlive,
    mm_realloc_live hr hlive (by decide)⟩

end OsLabs.Malloc
