import OsLabs.Lib.Transition
import OsLabs.Malloc.Walk

/-!
# The program above the allocator

A program calls the allocator, and stores bytes in what it was given. It frees and
reallocates what it holds only.
-/

namespace OsLabs.Malloc

open ByteMemory BoundaryTags Checked

inductive Call
  | init
  | malloc (size : ℕ)
  | free (ptr : ℕ)
  | realloc (ptr size : ℕ)
  /-- The program stores a byte. -/
  | store (p : ℕ) (v : UInt8)
deriving DecidableEq, Repr

structure State where
  heap : Heap
  /-- The pointers of the program, with the sizes that it asked for. -/
  held : List (ℕ × ℕ)

def hold (held : List (ℕ × ℕ)) (p size : ℕ) : List (ℕ × ℕ) :=
  if p = NULL then held else (p, size) :: held

def release (held : List (ℕ × ℕ)) (ptr : ℕ) : List (ℕ × ℕ) := held.filter (·.1 ≠ ptr)

/-- What the program holds once `mm_realloc` has returned. -/
def reheld (held : List (ℕ × ℕ)) (ptr size p : ℕ) : List (ℕ × ℕ) :=
  if size ≠ 0 ∧ p = NULL then held else hold (release held ptr) p size

def storeByte (m : Memory) (p : ℕ) (v : UInt8) : Memory := fun a => if a = p then v else m a

def exec (c : Machine) (s : State) : Call → Except Fault State
  | .init => do
      let (_, h) ← mm_init c s.heap
      return ⟨h, s.held⟩
  | .malloc size => do
      let (p, h) ← mm_malloc c s.heap size
      return ⟨h, hold s.held p size⟩
  | .free ptr => do
      let h ← mm_free c s.heap ptr
      return ⟨h, release s.held ptr⟩
  | .realloc ptr size => do
      let (p, h) ← mm_realloc c s.heap ptr size
      return ⟨h, reheld s.held ptr size p⟩
  | .store p v =>
      if InHeap c s.heap p 1 then .ok ⟨{ s.heap with mem := storeByte s.heap.mem p v }, s.held⟩
      else .error (.outside p)

def step (c : Machine) (s : State) (call : Call) : Option State := (exec c s call).toOption

/-- The program frees and reallocates what it holds, and stores where it may. -/
def Owned (s : State) : Call → Prop
  | .init => True
  | .malloc _ => True
  | .free ptr => ptr = NULL ∨ ptr ∈ s.held.map Prod.fst
  | .realloc ptr _ => ptr = NULL ∨ ptr ∈ s.held.map Prod.fst
  | .store p _ => ∃ y ∈ s.held, y.1 ≤ p ∧ p < y.1 + y.2

/-- A request that finds the heap set up, and does not wrap. -/
def Request (c : Machine) (h : Heap) (size : ℕ) : Prop := size = 0 ∨ SetUp c h ∧ SizeFits c h size

def Meets (c : Machine) (s : State) : Call → Prop
  | .malloc size => Request c s.heap size
  | .realloc _ size => Request c s.heap size
  | _ => True

instance (s : State) (call : Call) : Decidable (Owned s call) := by
  cases call <;> unfold Owned <;> infer_instance

instance (c : Machine) (h : Heap) (size : ℕ) : Decidable (Request c h size) :=
  inferInstanceAs (Decidable (_ ∨ _))

instance (c : Machine) (s : State) (call : Call) : Decidable (Meets c s call) := by
  cases call <;> unfold Meets <;> infer_instance

def StateInv (c : Machine) (s : State) : Prop :=
  ∃ arenas, Inv c s.heap arenas ∧ Holding (liveBlocks c.mem_heap arenas) s.held

variable {c : Machine} {s : State} {x n size ptr p : ℕ} {b : Block} {call : Call}
  {live live' : List (ℕ × Block)} {held : List (ℕ × ℕ)} {arenas : List (List Block)}

theorem mem_init_inv (c : Machine) (m : Memory) : Inv c (mem_init c m) [] where
  holds := ⟨trivial, rfl, Nat.le_add_right _ _, nofun⟩
  coalesced := nofun
  current := Or.inl ⟨rfl, rfl⟩

theorem mem_init_stateInv (c : Machine) (m : Memory) : StateInv c ⟨mem_init c m, []⟩ :=
  ⟨[], mem_init_inv c m, List.nodup_nil, nofun⟩

/-! ## What is held -/

theorem release_null (hholding : Holding live held) : release held NULL = held := by
  refine List.filter_eq_self.mpr fun y hy => ?_
  obtain ⟨x, b, hyx, -⟩ := hholding.2 y hy
  rw [hyx, NULL]
  simp

theorem Holding.add (hholding : Holding live held) (hgains : Gains live live' (x, ⟨n, true⟩))
    (hapart : ∀ z ∈ live, z.1 + z.2.size ≤ x ∨ x + n ≤ z.1) (hsize : size + 8 ≤ n) :
    Holding live' ((x + 4, size) :: held) := by
  obtain ⟨hnodup, hblock⟩ := hholding
  refine ⟨List.nodup_cons.mpr ⟨fun hmem => ?_, hnodup⟩, ?_⟩
  · obtain ⟨y, hy, hyx⟩ := List.mem_map.mp hmem
    obtain ⟨z, b, hyz, hz, hle⟩ := hblock y hy
    have hapart := hapart (z, b) hz
    simp only at hapart hyx
    omega
  · rintro y (_ | ⟨_, hy⟩)
    · exact ⟨x, ⟨n, true⟩, rfl, hgains.mem_iff.mpr (Or.inl rfl), hsize⟩
    · obtain ⟨z, b, hyz, hz, hle⟩ := hblock y hy
      exact ⟨z, b, hyz, hgains.mem_iff.mpr (Or.inr hz), hle⟩

theorem Holding.remove (hholding : Holding live held) (hgains : Gains live' live (x, b)) :
    Holding live' (release held (x + 4)) := by
  obtain ⟨hnodup, hblock⟩ := hholding
  refine ⟨hnodup.sublist (List.filter_sublist.map Prod.fst), fun y hy => ?_⟩
  obtain ⟨hy, hne⟩ := List.mem_filter.mp hy
  obtain ⟨z, d, hyz, hz, hle⟩ := hblock y hy
  refine ⟨z, d, hyz, (hgains.mem_iff.mp hz).resolve_left fun heq => ?_, hle⟩
  rw [hyz, (Prod.mk.inj heq).1] at hne
  simp at hne

theorem Holding.exists_live (hholding : Holding live held) (hptr : ptr ∈ held.map Prod.fst) :
    ∃ x b, ptr = x + 4 ∧ (x, b) ∈ live := by
  obtain ⟨y, hy, rfl⟩ := List.mem_map.mp hptr
  obtain ⟨x, b, hyx, hx, -⟩ := hholding.2 y hy
  exact ⟨x, b, hyx, hx⟩

/-! ## One call -/

/-- The allocator serves a call, and its invariant holds after it. -/
def Serves (c : Machine) (s : State) (call : Call) : Prop :=
  ∃ s', exec c s call = .ok s' ∧ StateInv c s' ∧
    (call ≠ .init → s.heap.heap_listp ≠ NULL → s'.heap.heap_listp = s.heap.heap_listp)

theorem serves_init (hs : StateInv c s) : Serves c s .init := by
  obtain ⟨arenas, hi, hholding⟩ := hs
  obtain ⟨result, h', arenas', hok, hsame, -⟩ := mm_init_inv hi
  refine ⟨⟨h', s.held⟩, ?_, ⟨arenas', hsame.inv, hsame.live ▸ hholding⟩, fun hne => absurd rfl hne⟩
  rw [exec, hok]
  rfl

theorem hold_holding (hholding : Holding (liveBlocks c.mem_heap arenas) held)
    {arenas' : List (List Block)} {h' : Heap} (ha : Allocated c h h' arenas arenas' p size) :
    Holding (liveBlocks c.mem_heap arenas') (hold held p size) := by
  obtain ⟨rfl, hlive⟩ | ⟨x, n, rfl, hn, hgains⟩ := ha.result
  · rw [hold, if_pos rfl, hlive]
    exact hholding
  · rw [hold, if_neg (by rw [NULL]; omega)]
    exact hholding.add hgains (fun z => hgains.apart) hn

theorem serves_malloc (hs : StateInv c s) (hmeets : Request c s.heap size) :
    Serves c s (.malloc size) := by
  obtain ⟨arenas, hi, hholding⟩ := hs
  obtain ⟨p, h', arenas', hok, ha⟩ := mm_malloc_inv hi hmeets
  refine ⟨⟨h', hold s.held p size⟩, ?_, ⟨arenas', ha.inv, hold_holding hholding ha⟩,
    fun _ hset => ha.listp hset⟩
  rw [exec, hok]
  rfl

theorem mm_free_held (hs : StateInv c s) (hptr : ptr = NULL ∨ ptr ∈ s.held.map Prod.fst) :
    ∃ h', mm_free c s.heap ptr = .ok h' ∧ StateInv c ⟨h', release s.held ptr⟩ ∧
      h'.heap_listp = s.heap.heap_listp := by
  obtain ⟨arenas, hi, hholding⟩ := hs
  obtain rfl | hptr := hptr
  · refine ⟨s.heap, if_pos rfl, ⟨arenas, hi, ?_⟩, rfl⟩
    rwa [release_null hholding]
  · obtain ⟨x, b, rfl, hx⟩ := hholding.exists_live hptr
    obtain ⟨h', arenas', hok, hfreed⟩ := mm_free_inv hi hx
    exact ⟨h', hok, ⟨arenas', hfreed.inv, hholding.remove hfreed.live⟩, hfreed.listp⟩

theorem serves_free (hs : StateInv c s) (hptr : ptr = NULL ∨ ptr ∈ s.held.map Prod.fst) :
    Serves c s (.free ptr) := by
  obtain ⟨h', hok, hinv, hlistp⟩ := mm_free_held hs hptr
  refine ⟨⟨h', release s.held ptr⟩, ?_, hinv, fun _ _ => hlistp⟩
  rw [exec, hok]
  rfl

theorem serves_realloc (hs : StateInv c s) (hptr : ptr = NULL ∨ ptr ∈ s.held.map Prod.fst)
    (hmeets : Request c s.heap size) : Serves c s (.realloc ptr size) := by
  by_cases hzero : size = 0
  · obtain ⟨h', hok, hinv, hlistp⟩ := mm_free_held hs hptr
    refine ⟨⟨h', release s.held ptr⟩, ?_, hinv, fun _ _ => hlistp⟩
    rw [exec, mm_realloc, if_pos hzero, hok, hzero]
    rfl
  obtain ⟨arenas, hi, hholding⟩ := hs
  obtain rfl | hptr := hptr
  · obtain ⟨p, h', arenas', hok, ha⟩ := mm_malloc_inv hi hmeets
    have hheld : reheld s.held NULL size p = hold s.held p size := by
      rw [reheld, release_null hholding]
      by_cases hp : p = NULL
      · rw [if_pos ⟨hzero, hp⟩, hold, if_pos hp]
      · rw [if_neg fun hand => hp hand.2]
    refine ⟨⟨h', reheld s.held NULL size p⟩, ?_, ⟨arenas', ha.inv, ?_⟩, fun _ => ha.listp⟩
    · rw [exec, mm_realloc, if_neg hzero, if_pos rfl, hok]
      rfl
    · rw [hheld]
      exact hold_holding hholding ha
  · obtain ⟨x, b, rfl, hx⟩ := hholding.exists_live hptr
    obtain ⟨hset, hfits⟩ := hmeets.resolve_left hzero
    obtain ⟨p, h', arenas', hok, hlistp, hcase⟩ := mm_realloc_inv hi hx hzero hset hfits
    refine ⟨⟨h', reheld s.held (x + 4) size p⟩, ?_, ⟨arenas', ?_⟩, fun _ => hlistp⟩
    · rw [exec, hok]
      rfl
    · obtain ⟨rfl, hsame⟩ | hmoved := hcase
      · rw [reheld, if_pos ⟨hzero, rfl⟩]
        exact ⟨hsame.inv, hsame.live ▸ hholding⟩
      · obtain ⟨y, n, both, rfl, hn, hgains, hgains', hapart⟩ := hmoved.live
        refine ⟨hmoved.inv, ?_⟩
        have hboth := (hholding.add hgains hapart hn).remove hgains'
        have hne : y + 4 ≠ x + 4 := by
          have hxy := hapart (x, b) hx
          have hge := (hi.holds.live_at hx).2.2.2.1
          simp only at hxy
          omega
        rw [reheld, if_neg (by rw [NULL]; omega), hold, if_neg (by rw [NULL]; omega)]
        rwa [release, List.filter_cons_of_pos (by simpa using hne)] at hboth

theorem sameOutside_storeByte (m : Memory) (p : ℕ) (v : UInt8) :
    SameOutside p (p + 1) m (storeByte m p v) :=
  fun _ ha => if_neg (by omega)

theorem serves_store {v : UInt8} (hs : StateInv c s)
    (howned : ∃ y ∈ s.held, y.1 ≤ p ∧ p < y.1 + y.2) : Serves c s (.store p v) := by
  obtain ⟨arenas, hi, hholding⟩ := hs
  obtain ⟨y, hy, hle, hlt⟩ := howned
  obtain ⟨x, b, hyx, hx, hsize⟩ := hholding.2 y hy
  obtain ⟨-, hlo, hbrk, -⟩ := hi.holds.live_at hx
  have hinv := hi.payload hx (by omega) (by omega) (sameOutside_storeByte s.heap.mem p v)
  exact ⟨_, if_pos ⟨by omega, by omega⟩, ⟨arenas, hinv, hholding⟩, fun _ _ => rfl⟩

theorem serves (hs : StateInv c s) (howned : Owned s call) (hmeets : Meets c s call) :
    Serves c s call := by
  cases call with
  | init => exact serves_init hs
  | malloc size => exact serves_malloc hs hmeets
  | free ptr => exact serves_free hs howned
  | realloc ptr size => exact serves_realloc hs howned hmeets
  | store p v => exact serves_store hs howned

end OsLabs.Malloc
