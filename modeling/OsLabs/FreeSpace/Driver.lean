import Mathlib
import OsLabs.FreeSpace.SizeOrder

/-!
# The op-list driver

The loop over the entries `+size` and `-index` of the op list. The driver
compares an index with the number of pointers it holds, and it keeps the
pointers of blocks that have been freed.
-/

namespace OsLabs.FreeSpace

open OsLabs.Transition

/-- An entry of the op list. -/
inductive ListOp
  | alloc (size : ℕ)
  | free (index : ℕ)
  deriving DecidableEq, Repr

/-- The variables of the loop: `p` is a dictionary. `live` records the blocks of
the allocations that have not been freed; the driver does not know it. -/
structure Driver where
  m : State
  p : List (ℕ × ℤ)
  c : ℕ
  live : ℕ → Option ℤ

variable {cfg : Config} {d d' : Driver} {s s' : State} {op : ListOp} {addr b n : ℤ} {i j : ℕ}

def Config.driver (cfg : Config) : Driver := ⟨cfg.init, [], 0, fun _ => none⟩

/-- The block that `malloc` allocates. -/
def allocated (cfg : Config) (s : State) (size : ℤ) : Option ℤ :=
  (search cfg s size).best.map Prod.snd

/-- One entry of the op list. An index that is not in `p` is a `KeyError`. -/
def driverStep (cfg : Config) (d : Driver) : ListOp → Option Driver
  | .alloc size => do
      let (m, ptr, _) ← malloc cfg d.m size
      let p := if ptr ≠ -1 then d.p ++ [(d.c, ptr)] else d.p
      some { m, p, c := d.c + 1, live := Function.update d.live d.c (allocated cfg d.m size) }
  | .free index =>
      if index ≥ d.p.length then some d
      else do
        let ptr ← d.p.lookup index
        let (m, _) ← free cfg d.m ptr
        some { d with m, live := Function.update d.live index none }

/-- The entry is carried out: an index whose block has not been freed frees
that block, and any other leaves the heap as it is. -/
def StepRight (cfg : Config) (d : Driver) (op : ListOp) : Prop :=
  ∃ d', driverStep cfg d op = some d' ∧
    match op with
    | .alloc _ => True
    | .free index =>
        match d.live index with
        | some addr => free cfg d.m addr = some (d'.m, 0)
        | none => d'.m = d.m

/-- The extent taken does not begin where an allocated block of no bytes is; an
index whose block has not been freed is below the number of pointers, and its
pointer is not `-1`; and any other index is not below it, or is that of a freed
block whose address is not allocated again. -/
def Clear (cfg : Config) (d : Driver) : ListOp → Prop
  | .alloc size => ∀ i addr m, Picked cfg (requestSize cfg size) d.m.freelist i addr m →
      d.m.sizemap.lookup addr = none
  | .free index =>
      match d.live index with
      | some addr => index < d.p.length ∧ addr ≠ -1
      | none => d.p.length ≤ index ∨
          ∃ addr, d.p.lookup index = some addr ∧ d.m.sizemap.lookup addr = none

/-! ## The map of the blocks -/

theorem lookup_append_some {κ : Type*} [BEq κ] {l l' : List (κ × ℤ)} {k : κ}
    (h : l.lookup k = some n) : (l ++ l').lookup k = some n := by
  rw [List.lookup_append, h]
  rfl

theorem lookup_eraseP_of_ne {l : List Entry} (hne : b ≠ addr) :
    (l.eraseP fun e => e.1 == addr).lookup b = l.lookup b := by
  induction l with
  | nil => rfl
  | cons e l ih =>
      obtain ⟨a, n⟩ := e
      rcases eq_or_ne a addr with rfl | ha
      · have hother : (b == a) = false := beq_false_of_ne hne
        simp only [List.eraseP_cons, beq_self_eq_true, cond_true, List.lookup_cons, hother]
      · have hother : (a == addr) = false := beq_false_of_ne ha
        simp only [List.eraseP_cons, hother, cond_false, List.lookup_cons, ih]

/-- `free` of an allocated block takes it from the map. -/
theorem free_of_allocated (c : Config) {size : ℤ} (h : s.sizemap.lookup addr = some size) :
    ∃ freelist, free c s addr =
      some (⟨freelist, s.sizemap.eraseP fun e => e.1 == addr⟩, 0) := by
  simp only [free, h]
  split
  · obtain ⟨curr, rest, hlist⟩ :=
      List.exists_cons_of_ne_nil (@insert_ne_nil c s.freelist (addr, size))
    rw [hlist]
    exact ⟨_, rfl⟩
  · exact ⟨_, rfl⟩

theorem free_of_fresh (c : Config) (h : s.sizemap.lookup addr = none) :
    free c s addr = some (s, -1) := by
  simp only [free, h]

/-- `free` of an allocated block does not leave the heap as it is. -/
theorem free_changes {c : Config} {size rc : ℤ} (h : s.sizemap.lookup addr = some size) :
    free c s addr ≠ some (s, rc) := by
  intro hsame
  obtain ⟨freelist, hfree⟩ := free_of_allocated c h
  rw [hfree] at hsame
  have hlength := congrArg (fun r : State × ℤ => r.1.sizemap.length) (Option.some.inj hsame)
  have hperm := (perm_of_lookup h).length_eq
  rw [List.length_cons] at hperm
  dsimp only at hlength
  omega

/-! ## The run -/

/-- The address of a block that has not been freed is allocated, and the driver
holds it, unless it is `-1`. -/
structure Tracked (cfg : Config) (d : Driver) : Prop where
  sized : Sized cfg (d.m.freelist ++ d.m.sizemap)
  new : ∀ i ≥ d.c, d.live i = none ∧ d.p.lookup i = none
  live : ∀ i addr, d.live i = some addr → (∃ n, d.m.sizemap.lookup addr = some n) ∧
    d.p.lookup i = if addr ≠ -1 then some addr else none
  injective : ∀ i j addr, d.live i = some addr → d.live j = some addr → i = j

theorem tracked_init (cfg : Config) : Tracked cfg cfg.driver where
  sized := sized_init cfg
  new := fun _ _ => ⟨rfl, rfl⟩
  live := fun _ _ h => by cases h
  injective := fun _ _ _ h => by cases h

/-- The two results of an allocation. -/
theorem driver_alloc_cases {size : ℕ} (hstep : driverStep cfg d (.alloc size) = some d') :
    (d' = { d with c := d.c + 1, live := Function.update d.live d.c none }) ∨
      ∃ freelist addr, d.m.sizemap.lookup addr = none ∧
        d' = ⟨⟨freelist, d.m.sizemap ++ [(addr, requestSize cfg size)]⟩,
          if addr ≠ -1 then d.p ++ [(d.c, addr)] else d.p, d.c + 1,
          Function.update d.live d.c (some addr)⟩ := by
  obtain ⟨⟨m, ptr, count⟩, hcall, hd⟩ := Option.bind_eq_some_iff.mp hstep
  obtain rfl := Option.some.inj hd
  rw [allocated]
  cases hbest : (search cfg d.m size).best with
  | none =>
      rw [malloc_of_missed hbest] at hcall
      obtain ⟨rfl, rfl, -⟩ := hcall
      exact Or.inl rfl
  | some found =>
      obtain ⟨i, addr⟩ := found
      obtain ⟨hnone, -⟩ | ⟨k, m, -, hfresh, rfl⟩ := malloc_cases hcall
      · rw [hbest] at hnone
        cases hnone
      · rw [malloc_of_found hbest] at hcall
        obtain ⟨sizemap, -, heq⟩ := Option.map_eq_some_iff.mp hcall
        obtain rfl : addr = ptr := (Prod.mk.inj (Prod.mk.inj heq).2).1
        exact Or.inr ⟨_, addr, hfresh, rfl⟩

theorem Tracked.alloc (h : Tracked cfg d) {size : ℕ}
    (hstep : driverStep cfg d (.alloc size) = some d') : Tracked cfg d' := by
  have hsized : Sized cfg (d'.m.freelist ++ d'.m.sizemap) := by
    obtain ⟨⟨m, ptr, count⟩, hcall, hd⟩ := Option.bind_eq_some_iff.mp hstep
    obtain rfl := Option.some.inj hd
    exact malloc_sized h.sized (Int.natCast_nonneg size) hcall
  obtain rfl | ⟨freelist, addr, hfresh, rfl⟩ := driver_alloc_cases hstep
  · have hlive : Function.update d.live d.c none = d.live := by
      rw [← (h.new d.c le_rfl).1, Function.update_eq_self]
    rw [hlive]
    exact ⟨hsized, fun i hi => h.new i (Nat.le_of_succ_le hi), h.live, h.injective⟩
  · -- no block that has not been freed is at the address of the new one
    have hnew (i : ℕ) (a : ℤ) (hi : d.live i = some a) : i ≠ d.c ∧ a ≠ addr := by
      constructor
      · rintro rfl
        rw [(h.new d.c le_rfl).1] at hi
        cases hi
      · rintro rfl
        obtain ⟨n, hn⟩ := (h.live i a hi).1
        rw [hfresh] at hn
        cases hn
    have hself : Function.update d.live d.c (some addr) d.c = some addr := Function.update_self ..
    have hother (i : ℕ) (hi : i ≠ d.c) :
        Function.update d.live d.c (some addr) i = d.live i := Function.update_of_ne hi ..
    have hpointers (i : ℕ) (hi : i ≠ d.c) :
        (if addr ≠ -1 then d.p ++ [(d.c, addr)] else d.p).lookup i = d.p.lookup i := by
      split
      · rw [List.lookup_append, List.lookup_cons, beq_false_of_ne hi]
        exact Option.or_none
      · rfl
    refine ⟨hsized, fun i hi => ?_, fun i a hi => ?_, fun i j a hi hj => ?_⟩
    · have hne : i ≠ d.c := (Nat.lt_of_succ_le hi).ne'
      obtain ⟨hlive, hp⟩ := h.new i (Nat.le_of_succ_le hi)
      exact ⟨(hother i hne).trans hlive, (hpointers i hne).trans hp⟩
    · rcases eq_or_ne i d.c with rfl | hne
      · obtain rfl : addr = a := Option.some.inj (hself.symm.trans hi)
        have hold := (h.new d.c le_rfl).2
        constructor
        · refine ⟨requestSize cfg size, ?_⟩
          rw [List.lookup_append, hfresh, List.lookup_cons, beq_self_eq_true]
          rfl
        · dsimp only
          split
          · rw [List.lookup_append, hold, List.lookup_cons, beq_self_eq_true]
            rfl
          · exact hold
      · replace hi : d.live i = some a := (hother i hne).symm.trans hi
        obtain ⟨⟨n, hn⟩, hp⟩ := h.live i a hi
        exact ⟨⟨n, lookup_append_some hn⟩, (hpointers i hne).trans hp⟩
    · rcases eq_or_ne i d.c with rfl | hi'
      · rcases eq_or_ne j d.c with rfl | hj'
        · rfl
        · obtain rfl : addr = a := Option.some.inj (hself.symm.trans hi)
          replace hj : d.live j = some addr := (hother j hj').symm.trans hj
          exact absurd rfl (hnew j addr hj).2
      · replace hi : d.live i = some a := (hother i hi').symm.trans hi
        rcases eq_or_ne j d.c with rfl | hj'
        · obtain rfl : addr = a := Option.some.inj (hself.symm.trans hj)
          exact absurd rfl (hnew i addr hi).2
        · replace hj : d.live j = some a := (hother j hj').symm.trans hj
          exact h.injective i j a hi hj

theorem driver_free_eq (h : i < d.p.length) {ptr : ℤ} (hptr : d.p.lookup i = some ptr) :
    driverStep cfg d (.free i) = (free cfg d.m ptr).map fun r =>
      { d with m := r.1, live := Function.update d.live i none } := by
  rw [driverStep, if_neg h.not_ge, hptr]
  exact (Option.map_eq_bind ..).symm

theorem Tracked.free (h : Tracked cfg d) (hclear : Clear cfg d (.free i))
    (hstep : driverStep cfg d (.free i) = some d') : Tracked cfg d' := by
  rw [Clear] at hclear
  cases hi : d.live i with
  | none =>
      -- nothing is freed
      have hsame : d' = d := by
        simp only [hi] at hclear
        rw [driverStep] at hstep
        split at hstep
        · exact (Option.some.inj hstep).symm
        · next hlt =>
            obtain ⟨ptr, hptr, hfresh⟩ := hclear.resolve_left hlt
            rw [hptr] at hstep
            simp only [Option.bind_eq_bind, Option.bind_some, free_of_fresh cfg hfresh] at hstep
            rw [← Option.some.inj hstep, ← hi, Function.update_eq_self]
      exact hsame ▸ h
  | some addr =>
      simp only [hi] at hclear
      obtain ⟨hlt, haddr⟩ := hclear
      obtain ⟨⟨n, hn⟩, hp⟩ := h.live i addr hi
      rw [if_pos haddr] at hp
      rw [driver_free_eq hlt hp] at hstep
      obtain ⟨⟨m, rc⟩, hfree, rfl⟩ := Option.map_eq_some_iff.mp hstep
      have hsized := free_sized h.sized hfree
      obtain ⟨freelist, hfree'⟩ := free_of_allocated cfg hn
      rw [hfree'] at hfree
      obtain ⟨rfl, -⟩ := hfree
      have hlive {j : ℕ} {a : ℤ} (hj : Function.update d.live i none j = some a) :
          j ≠ i ∧ d.live j = some a := by
        rcases eq_or_ne j i with rfl | hne
        · rw [Function.update_self] at hj
          cases hj
        · exact ⟨hne, (Function.update_of_ne hne ..).symm.trans hj⟩
      refine ⟨hsized, fun j hj => ?_, fun j a hj => ?_, fun j k a hj hk => ?_⟩
      · refine ⟨?_, (h.new j hj).2⟩
        rcases eq_or_ne j i with rfl | hne
        · exact Function.update_self ..
        · exact (Function.update_of_ne hne ..).trans (h.new j hj).1
      · obtain ⟨hne, hold⟩ := hlive hj
        obtain ⟨hlookup, hp⟩ := h.live j a hold
        have ha : a ≠ addr := by
          rintro rfl
          exact hne (h.injective j i a hold hi)
        dsimp only
        rw [lookup_eraseP_of_ne ha]
        exact ⟨hlookup, hp⟩
      · exact h.injective j k a (hlive hj).2 (hlive hk).2

theorem Tracked.step (h : Tracked cfg d) (hclear : Clear cfg d op)
    (hstep : driverStep cfg d op = some d') : Tracked cfg d' := by
  cases op with
  | alloc size => exact h.alloc hstep
  | free index => exact h.free hclear hstep

theorem reach_tracked (hreach : Reach (driverStep cfg) (Clear cfg) cfg.driver d) :
    Tracked cfg d :=
  hreach.invariant (tracked_init cfg) fun _ _ _ h hclear hstep => h.step hclear hstep

/-! ## Every entry -/

theorem Picked.not_lt {c : Config} {freelist : List Entry} {size addr addr' m m' : ℤ} {i i' : ℕ}
    (h : Picked c size freelist i addr m) (h' : Picked c size freelist i' addr' m') : ¬ i < i' := by
  intro hlt
  have hmem := List.mem_of_getElem? h.get
  have hmem' := List.mem_of_getElem? h'.get
  have hne : m ≠ m' := h'.earlier i hlt _ h.get
  cases hpolicy : c.policy with
  | first => exact absurd h.large (h'.first hpolicy i hlt _ h.get).not_ge
  | best =>
      exact hne (le_antisymm (h.best hpolicy _ hmem' h'.large) (h'.best hpolicy _ hmem h.large))
  | worst =>
      exact hne (le_antisymm (h'.worst hpolicy _ hmem h.large) (h.worst hpolicy _ hmem' h'.large))

/-- Two extents cannot both be the one the policy takes. -/
theorem Picked.unique {c : Config} {freelist : List Entry} {size addr addr' m m' : ℤ} {i i' : ℕ}
    (h : Picked c size freelist i addr m) (h' : Picked c size freelist i' addr' m') :
    addr = addr' := by
  obtain rfl : i = i' :=
    le_antisymm (Nat.le_of_not_lt (h'.not_lt h)) (Nat.le_of_not_lt (h.not_lt h'))
  exact (Prod.mk.inj (Option.some.inj (h.get.symm.trans h'.get))).1

theorem stepRight_alloc_iff (h : Tracked cfg d) (size : ℕ) :
    StepRight cfg d (.alloc size) ↔ Clear cfg d (.alloc size) := by
  have hsized (e : Entry) (he : e ∈ d.m.freelist) : 0 ≤ e.2 ∧ e.2 ≤ cfg.size :=
    ⟨h.sized.nonneg e (List.mem_append_left _ he), h.sized.le_size (List.mem_append_left _ he)⟩
  cases hbest : (search cfg d.m size).best with
  | none =>
      have hsmall := small_of_missed hsized hbest
      refine iff_of_true ?_ fun i addr m hpicked => ?_
      · exact ⟨_, by rw [driverStep, malloc_of_missed hbest]; rfl, trivial⟩
      · exact absurd hpicked.large (hsmall _ (List.mem_of_getElem? hpicked.get)).not_ge
  | some found =>
      obtain ⟨i, addr⟩ := found
      have hpicked := (searched cfg (requestSize cfg size) d.m.freelist).found i addr hbest
      have hclear : Clear cfg d (.alloc size) ↔ d.m.sizemap.lookup addr = none :=
        ⟨fun hc => hc i addr _ hpicked, fun hfresh _ _ _ hp => hp.unique hpicked ▸ hfresh⟩
      rw [hclear]
      constructor
      · rintro ⟨d', hstep, -⟩
        obtain ⟨⟨m, ptr, count⟩, hcall, -⟩ := Option.bind_eq_some_iff.mp hstep
        obtain ⟨hnone, -⟩ | ⟨k, n, hp, hfresh, -⟩ := malloc_cases hcall
        · rw [hbest] at hnone
          cases hnone
        · exact hp.unique hpicked ▸ hfresh
      · intro hfresh
        have hcall := malloc_of_found hbest
        rw [addToMap, hfresh] at hcall
        simp only [StepRight, driverStep, hcall]
        exact ⟨_, rfl, trivial⟩

theorem stepRight_free_iff (h : Tracked cfg d) (i : ℕ) :
    StepRight cfg d (.free i) ↔ Clear cfg d (.free i) := by
  have hskip (hge : d.p.length ≤ i) : driverStep cfg d (.free i) = some d := if_pos hge
  have hraise (hlt : i < d.p.length) (hp : d.p.lookup i = none) :
      driverStep cfg d (.free i) = none := by
    rw [driverStep, if_neg hlt.not_ge, hp]
    rfl
  simp only [StepRight, Clear]
  cases hi : d.live i with
  | none =>
      rcases Nat.lt_or_ge i d.p.length with hlt | hge
      · rw [or_iff_right hlt.not_ge]
        cases hp : d.p.lookup i with
        | none =>
            rw [hraise hlt hp]
            exact iff_of_false (fun ⟨_, hstep, _⟩ => by cases hstep) fun ⟨_, hsome, _⟩ => by
              cases hsome
        | some ptr =>
            rw [driver_free_eq hlt hp]
            constructor
            · rintro ⟨d', hstep, hsame⟩
              obtain ⟨⟨m, rc⟩, hfree, rfl⟩ := Option.map_eq_some_iff.mp hstep
              obtain rfl : m = d.m := hsame
              refine ⟨ptr, rfl, ?_⟩
              by_contra hallocated
              obtain ⟨n, hn⟩ := Option.ne_none_iff_exists'.mp hallocated
              exact free_changes hn hfree
            · rintro ⟨_, ⟨⟩, hfresh⟩
              rw [free_of_fresh cfg hfresh]
              exact ⟨_, rfl, rfl⟩
      · exact iff_of_true ⟨d, hskip hge, rfl⟩ (Or.inl hge)
  | some addr =>
      obtain ⟨⟨n, hn⟩, hp⟩ := h.live i addr hi
      obtain ⟨freelist, hfree⟩ := free_of_allocated cfg hn
      dsimp only
      rcases Nat.lt_or_ge i d.p.length with hlt | hge
      · rw [and_iff_right hlt]
        by_cases haddr : addr ≠ -1
        · rw [if_pos haddr] at hp
          rw [driver_free_eq hlt hp, hfree]
          exact iff_of_true ⟨_, rfl, rfl⟩ haddr
        · rw [if_neg haddr] at hp
          rw [hraise hlt hp]
          exact iff_of_false (fun ⟨_, hstep, _⟩ => by cases hstep) haddr
      · rw [hskip hge]
        refine iff_of_false ?_ fun hclear => hclear.1.not_ge hge
        rintro ⟨d', hsame, hfreed⟩
        obtain rfl := Option.some.inj hsame
        exact free_changes hn hfreed

theorem stepRight_iff (h : Tracked cfg d) (op : ListOp) : StepRight cfg d op ↔ Clear cfg d op := by
  cases op with
  | alloc size => exact stepRight_alloc_iff h size
  | free index => exact stepRight_free_iff h index

theorem run_of_runMeets (ops : List ListOp) (h : Tracked cfg d)
    (hmeets : RunMeets (driverStep cfg) (Clear cfg) d ops) :
    ∃ d', run (driverStep cfg) d ops = some d' := by
  induction ops generalizing d with
  | nil => exact ⟨d, rfl⟩
  | cons op ops ih =>
      obtain ⟨hclear, hrest⟩ := hmeets
      obtain ⟨d', hstep, -⟩ := (stepRight_iff h op).mpr hclear
      obtain ⟨d'', hrun⟩ := ih (h.step hclear hstep) (hrest d' hstep)
      exact ⟨d'', by rw [run_cons, hstep]; exact hrun⟩

/-- As long as its conditions are met the driver carries out the op list to its
end; and an entry is carried out as it should be exactly when they are. -/
theorem driver_right_iff (cfg : Config) :
    (∀ ops, RunMeets (driverStep cfg) (Clear cfg) cfg.driver ops →
      ∃ d, run (driverStep cfg) cfg.driver ops = some d) ∧
    ∀ d, Reach (driverStep cfg) (Clear cfg) cfg.driver d →
      ∀ op, StepRight cfg d op ↔ Clear cfg d op :=
  ⟨fun ops hmeets => run_of_runMeets ops (tracked_init cfg) hmeets,
    fun _ hreach op => stepRight_iff (reach_tracked hreach) op⟩

/-- A heap of ten bytes. -/
def tenBytes : Config := ⟨10, 1000, 0, .best, .addrsort, false, -1, unaligned_ok⟩

def freeInOrder : List ListOp := [.alloc 3, .alloc 4, .free 0, .free 1]

/-- Freeing in the order of the allocations. The driver still holds both pointers,
and freeing the first block again is right. -/
theorem driver_right_twice :
    ∃ d, run (driverStep tenBytes) tenBytes.driver freeInOrder = some d ∧
      d.p = [(0, 1000), (1, 1003)] ∧ d.m = ⟨[(1000, 3), (1003, 4), (1007, 3)], []⟩ ∧
      StepRight tenBytes d (.free 0) ∧ StepRight tenBytes d (.alloc 4) := by
  have hmeets : RunMeets (driverStep tenBytes) (Clear tenBytes) tenBytes.driver freeInOrder := by
    refine ⟨fun _ _ _ _ => rfl, ?_⟩
    rintro d ⟨⟩
    refine ⟨fun i addr m hpicked => ?_, ?_⟩
    · have hmem := List.mem_of_getElem? hpicked.get
      change (addr, m) ∈ [((1003 : ℤ), (7 : ℤ))] at hmem
      cases List.mem_singleton.mp hmem
      rfl
    · rintro d ⟨⟩
      refine ⟨show 0 < 2 ∧ (1000 : ℤ) ≠ -1 by decide, ?_⟩
      rintro d ⟨⟩
      exact ⟨show 1 < 2 ∧ (1003 : ℤ) ≠ -1 by decide, fun _ _ => trivial⟩
  obtain ⟨d, hrun⟩ := (driver_right_iff tenBytes).1 freeInOrder hmeets
  have hreach := reach_of_run freeInOrder hmeets hrun
  have hends : (run (driverStep tenBytes) tenBytes.driver freeInOrder).map
      (fun d => (d.p, d.m, d.live 0)) =
      some ([(0, 1000), (1, 1003)], ⟨[(1000, 3), (1003, 4), (1007, 3)], []⟩, none) := by
    decide +kernel
  rw [hrun] at hends
  simp only [Option.map_some, Option.some.injEq, Prod.mk.injEq] at hends
  obtain ⟨hp, hm, hlive⟩ := hends
  refine ⟨d, hrun, hp, hm, ?_, ?_⟩
  · refine ((driver_right_iff tenBytes).2 d hreach (.free 0)).mpr ?_
    simp only [Clear, hlive, hp, hm]
    exact Or.inr ⟨1000, rfl, rfl⟩
  · refine ((driver_right_iff tenBytes).2 d hreach (.alloc 4)).mpr fun i addr m _ => ?_
    rw [hm]
    rfl

/-- After a failed allocation a block that has not been freed is skipped, and
the index of the failed one raises; and a block that has been freed twice takes
the block allocated in its place with it. -/
theorem driver_wrong :
    ((run (driverStep tenBytes) tenBytes.driver [.alloc 8, .alloc 8, .alloc 1]).bind fun d =>
        (driverStep tenBytes d (.free 2)).map fun d' => (d.live 2, d'.m == d.m)) =
      some (some 1008, true) ∧
    run (driverStep tenBytes) tenBytes.driver [.alloc 8, .alloc 8, .alloc 1, .free 1] = none ∧
    ((run (driverStep tenBytes) tenBytes.driver [.alloc 3, .free 0, .alloc 3, .free 0]).map
        fun d => (d.live 1, d.m.sizemap)) = some (some 1000, []) ∧
    run (driverStep tenBytes) tenBytes.driver [.alloc 0, .alloc 0] = none := by
  decide +kernel

end OsLabs.FreeSpace
