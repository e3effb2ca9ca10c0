import OsLabs.Malloc.Layout

/-!
# The search for a fit
-/

namespace OsLabs.Malloc

open ByteMemory BoundaryTags Checked

variable {c : Machine} {h : Heap} {g a x s asize fuel : ℕ} {b : Block} {bs u v : List Block}
  {more : ℕ → Except Fault Bool}

def fits (asize : ℕ) (y : ℕ × Block) : Bool := !y.2.allocated && decide (asize ≤ y.2.size)

theorem searchFrom_spec (htag : Tagged h.mem a bs) (hlo : c.mem_heap ≤ a)
    (hbrk : a + span bs ≤ h.mem_brk) (hsize : ∀ b ∈ bs, 8 ≤ b.size ∧ b.size % 8 = 0)
    (hmore : ∀ y ∈ positions a bs, more (y.1 + 4) = .ok true)
    (hstop : more (a + span bs + 4) = .ok false) (hfuel : bs.length < fuel) :
    searchFrom c h asize more fuel (a + 4) =
      .ok (((positions a bs).find? (fits asize)).elim (a + span bs + 4, false)
        fun y => (y.1 + 4, true)) := by
  induction bs generalizing a fuel with
  | nil =>
      obtain ⟨fuel, rfl⟩ := Nat.exists_eq_succ_of_ne_zero (Nat.ne_zero_of_lt hfuel)
      rw [searchFrom, show more (a + 4) = .ok false from hstop, ok_bind]
      rfl
  | cons b bs ih =>
      obtain ⟨fuel, rfl⟩ := Nat.exists_eq_succ_of_ne_zero (Nat.ne_zero_of_lt hfuel)
      obtain ⟨hge, h8⟩ := hsize b List.mem_cons_self
      rw [span_cons] at hbrk hstop
      have hin : InHeap c h a 4 := ⟨hlo, by omega⟩
      rw [searchFrom, hmore (a, b) List.mem_cons_self, ok_bind, if_pos rfl, HDRP_add,
        GET_ALLOC_eq hin htag.1.1 h8, ok_bind, GET_SIZE_eq hin htag.1.1 h8, ok_bind,
        positions_cons, List.find?_cons]
      cases hfit : fits asize (a, b) with
      | true =>
          simp only [fits, Bool.and_eq_true, Bool.not_eq_true', decide_eq_true_eq] at hfit
          rw [if_pos ⟨by rw [hfit.1]; rfl, hfit.2⟩]
          rfl
      | false =>
          simp only [fits, Bool.and_eq_false_iff, Bool.not_eq_false', decide_eq_false_iff_not]
            at hfit
          have hno : ¬ (b.allocated.toNat = 0 ∧ asize ≤ b.size) := by
            rintro ⟨halloc, hle⟩
            obtain hfit | hfit := hfit
            · rw [hfit] at halloc
              cases halloc
            · exact hfit hle
          have hrest := @ih (a + b.size) fuel htag.2 (by omega) (by omega)
            (fun d hd => hsize d (List.mem_cons_of_mem _ hd))
            (fun y hy => hmore y (List.mem_cons_of_mem _ hy)) (by rw [Nat.add_assoc a]; exact hstop)
            (Nat.lt_of_succ_lt_succ hfuel)
          rw [if_neg hno, NEXT_BLKP_eq hin htag.1.1 h8, ok_bind, hrest, span_cons, Nat.add_assoc a]

theorem notLast_of_mem (htag : Tagged h.mem a bs) (hlo : c.mem_heap ≤ a)
    (hbrk : a + span bs ≤ h.mem_brk) (hsize : ∀ b ∈ bs, 8 ≤ b.size ∧ b.size % 8 = 0)
    {y : ℕ × Block} (hy : y ∈ positions a bs) : notLast c h (y.1 + 4) = .ok true := by
  obtain ⟨x, b⟩ := y
  obtain ⟨hge, h8⟩ : 8 ≤ b.size ∧ b.size % 8 = 0 := by
    obtain ⟨l, r, rfl, -⟩ := mem_positions.mp hy
    exact hsize b (by simp)
  obtain ⟨hle, hend⟩ := positions_bounds hy
  rw [notLast, HDRP_add, GET_SIZE_eq ⟨by omega, by omega⟩ (htag.at_of_mem hy).1 h8, ok_bind,
    pure_eq_ok]
  congr 1
  exact decide_eq_true (by omega)

theorem notLast_epilogue (hin : InHeap c h x 4) (hw : word h.mem x = 1) :
    notLast c h (x + 4) = .ok false := by
  rw [notLast, HDRP_add, GET_SIZE_eq (b := ⟨0, true⟩) hin hw rfl]
  rfl

/-! ## Both searches -/

variable {pre : List (List Block)}

/-- The loop from a block to the epilogue. -/
theorem search_toEnd (hr : Ready c h pre bs) (huv : prologue :: bs = u ++ v) :
    searchFrom c h asize (notLast c h) h.mem_brk (c.mem_heap + extent pre + 4 + span u + 4) =
      .ok (((positions (c.mem_heap + extent pre + 4 + span u) v).find? (fits asize)).elim
        (h.mem_brk, false) fun y => (y.1 + 4, true)) := by
  obtain ⟨harena, hbrk⟩ := hr.holds.arena
  have hsize := hr.holds.sized_prologue
  have htag := harena.tagged
  have hspan : 8 + span bs = span u + span v := by
    rw [← span_append, ← huv, span_cons, prologue_size]
  rw [huv, tagged_append] at htag
  rw [huv] at hsize
  have hsizev (b : Block) (hb : b ∈ v) := hsize b (List.mem_append_right _ hb)
  have hlen := length_le_span fun b hb => (Nat.le_add_left 1 7).trans (hsizev b hb).1
  rw [extent_nil] at hbrk
  have hlo : c.mem_heap ≤ c.mem_heap + extent pre + 4 + span u := by omega
  have hend : c.mem_heap + extent pre + 4 + span u + span v + 4 = h.mem_brk := by omega
  have hstop : notLast c h (c.mem_heap + extent pre + 4 + span u + span v + 4) = .ok false := by
    refine notLast_epilogue ⟨by omega, by omega⟩ ?_
    rw [← harena.epilogue]
    congr 1
    omega
  rw [searchFrom_spec htag.2 hlo (by omega) hsizev
    (fun y hy => notLast_of_mem htag.2 hlo (by omega) hsizev hy) hstop (by omega), hend]

/-- The loop from `heap_listp` to the old rover. -/
theorem search_toRover (hr : Ready c h pre bs) (huv : prologue :: bs = u ++ v) :
    searchFrom c h asize
        (fun bp => .ok (bp < c.mem_heap + extent pre + 4 + span u + 4)) h.mem_brk h.heap_listp =
      .ok (((positions (c.mem_heap + extent pre + 4) u).find? (fits asize)).elim
        (c.mem_heap + extent pre + 4 + span u + 4, false) fun y => (y.1 + 4, true)) := by
  obtain ⟨harena, hbrk⟩ := hr.holds.arena
  have hsize := hr.holds.sized_prologue
  have htag := harena.tagged
  have hspan : 8 + span bs = span u + span v := by
    rw [← span_append, ← huv, span_cons, prologue_size]
  rw [huv, tagged_append] at htag
  rw [huv] at hsize
  have hsizeu (b : Block) (hb : b ∈ u) := hsize b (List.mem_append_left _ hb)
  have hlen := length_le_span fun b hb => (Nat.le_add_left 1 7).trans (hsizeu b hb).1
  rw [extent_nil] at hbrk
  rw [hr.heap_listp]
  refine searchFrom_spec htag.1 (by omega) (by omega) hsizeu (fun y hy => ?_) ?_ (by omega)
  · obtain ⟨x, b⟩ := y
    obtain ⟨l, r, rfl, -⟩ := mem_positions.mp hy
    have hge := (hsizeu b (by simp)).1
    have hle := (positions_bounds hy).2
    simp only [Except.ok.injEq, decide_eq_true_eq]
    omega
  · simp

theorem firstFit_eq (hr : Ready c h pre bs) :
    firstFit c h asize =
      .ok (((positions (c.mem_heap + extent pre + 12) bs).find? (fits asize)).elim NULL
        fun y => y.1 + 4) := by
  have hsearch := @search_toEnd c h asize bs [] (prologue :: bs) pre hr
    (List.nil_append (prologue :: bs)).symm
  rw [span_nil, Nat.add_zero, Nat.add_assoc _ 4 4, ← hr.heap_listp] at hsearch
  rw [firstFit, hsearch, ok_bind, positions_cons, List.find?_cons_of_neg (by simp [fits, prologue]),
    prologue_size, Nat.add_assoc _ 4 8]
  cases (positions (c.mem_heap + extent pre + 12) bs).find? (fits asize) <;> rfl

theorem nextFit_eq (hr : Ready c h pre bs) (huv : prologue :: bs = u ++ v)
    (hrover : h.rover = c.mem_heap + extent pre + 4 + span u + 4) :
    nextFit c h asize =
      .ok (((positions (c.mem_heap + extent pre + 4 + span u) v).find? (fits asize)).elim
        (((positions (c.mem_heap + extent pre + 4) u).find? (fits asize)).elim (NULL, h)
          fun y => (y.1 + 4, { h with rover := y.1 + 4 }))
        fun y => (y.1 + 4, { h with rover := y.1 + 4 })) := by
  rw [nextFit, hrover, search_toEnd hr huv, ok_bind]
  cases (positions (c.mem_heap + extent pre + 4 + span u) v).find? (fits asize) with
  | some y => rfl
  | none =>
      simp only [Option.elim_none, Bool.false_eq_true, if_false]
      rw [search_toRover hr huv, ok_bind]
      cases (positions (c.mem_heap + extent pre + 4) u).find? (fits asize) with
      | some y => rfl
      | none => simp [← hrover]

theorem find?_eq_some {y : ℕ × Block} (h : (positions a bs).find? (fits asize) = some y) :
    ∃ l s r, bs = l ++ ⟨s, false⟩ :: r ∧ asize ≤ s ∧ y.1 = a + span l := by
  obtain ⟨x, s, allocated⟩ := y
  obtain ⟨l, r, rfl, rfl⟩ := mem_positions.mp (List.mem_of_find?_eq_some h)
  have hfit := List.find?_some h
  simp only [fits, Bool.and_eq_true, Bool.not_eq_true', decide_eq_true_eq] at hfit
  obtain ⟨rfl, hle⟩ := hfit
  exact ⟨l, s, r, rfl, hle, rfl⟩

theorem find?_eq_none (h : (positions a bs).find? (fits asize) = none) :
    ∀ b ∈ bs, b.allocated = false → b.size < asize := by
  intro b hb hfree
  obtain ⟨l, r, rfl⟩ := List.append_of_mem hb
  have hno := List.find?_eq_none.mp h (a + span l, b) (mem_positions.mpr ⟨l, r, rfl, rfl⟩)
  simpa [fits, hfree] using hno

/-- The prologue is not free. -/
theorem after_prologue {w r : List Block} (h : prologue :: bs = w ++ ⟨s, false⟩ :: r) :
    ∃ l, bs = l ++ ⟨s, false⟩ :: r ∧ span w = 8 + span l := by
  cases w with
  | nil => cases (List.cons.inj h).1
  | cons p l =>
      obtain ⟨rfl, rfl⟩ := List.cons.inj h
      exact ⟨l, rfl, rfl⟩

/-- The pointer that a search returns is that of a free block which fits, and no block fits
where it returns none. -/
theorem find_fit_spec (hr : Ready c h pre bs) (asize : ℕ) :
    ∃ bp rover, find_fit c h asize = .ok (bp, { h with rover := rover }) ∧
      (c.next_fit = true → RoverAt (c.mem_heap + extent pre) bs rover) ∧
      ((∃ l s r, bs = l ++ ⟨s, false⟩ :: r ∧ asize ≤ s ∧
          bp = c.mem_heap + extent pre + 12 + span l + 4) ∨
        bp = NULL ∧ ∀ b ∈ bs, b.allocated = false → b.size < asize) := by
  rw [find_fit]
  cases hnext : c.next_fit with
  | false =>
      rw [if_neg Bool.false_ne_true, firstFit_eq hr, ok_bind]
      refine ⟨_, h.rover, rfl, nofun, ?_⟩
      cases hfind : (positions (c.mem_heap + extent pre + 12) bs).find? (fits asize) with
      | none => exact Or.inr ⟨rfl, find?_eq_none hfind⟩
      | some y =>
          obtain ⟨l, s, r, hbs, hle, hy⟩ := find?_eq_some hfind
          exact Or.inl ⟨l, s, r, hbs, hle, congrArg (· + 4) hy⟩
  | true =>
      obtain ⟨x, hrover, u, v, huv, rfl⟩ := hr.rover hnext
      rw [if_pos rfl, nextFit_eq hr huv hrover]
      -- what is found in either loop lies behind the prologue
      have hfound {w l r : List Block} {s : ℕ} {y : ℕ × Block}
          (hw : prologue :: bs = w ++ (l ++ ⟨s, false⟩ :: r)) (hle : asize ≤ s)
          (hy : y.1 = c.mem_heap + extent pre + 4 + span w + span l) :
          RoverAt (c.mem_heap + extent pre) bs (y.1 + 4) ∧
            ∃ l s r, bs = l ++ ⟨s, false⟩ :: r ∧ asize ≤ s ∧
              y.1 + 4 = c.mem_heap + extent pre + 12 + span l + 4 := by
        rw [← List.append_assoc] at hw
        obtain ⟨l', rfl, hspan⟩ := after_prologue hw
        rw [span_append] at hspan
        have hy' : y.1 + 4 = c.mem_heap + extent pre + 12 + span l' + 4 := by omega
        exact ⟨hy' ▸ roverAt_block _, l', s, r, rfl, hle, hy'⟩
      cases hfind : (positions (c.mem_heap + extent pre + 4 + span u) v).find? (fits asize) with
      | some y =>
          obtain ⟨l, s, r, rfl, hle, hy⟩ := find?_eq_some hfind
          obtain ⟨hat, hblock⟩ := hfound huv hle hy
          exact ⟨y.1 + 4, y.1 + 4, rfl, fun _ => hat, Or.inl hblock⟩
      | none =>
          cases hfind' : (positions (c.mem_heap + extent pre + 4) u).find? (fits asize) with
          | some y =>
              obtain ⟨l, s, r, rfl, hle, hy⟩ := find?_eq_some hfind'
              obtain ⟨hat, hblock⟩ := @hfound [] l (r ++ v) s y (by simpa using huv) hle
                (by simpa using hy)
              exact ⟨y.1 + 4, y.1 + 4, rfl, fun _ => hat, Or.inl hblock⟩
          | none =>
              refine ⟨NULL, h.rover, rfl, fun _ => ⟨_, hrover, u, v, huv, rfl⟩,
                Or.inr ⟨rfl, fun b hb => ?_⟩⟩
              have hmem : b ∈ u ++ v := huv ▸ List.mem_cons_of_mem _ hb
              obtain hb | hb := List.mem_append.mp hmem
              · exact find?_eq_none hfind' b hb
              · exact find?_eq_none hfind b hb

end OsLabs.Malloc
