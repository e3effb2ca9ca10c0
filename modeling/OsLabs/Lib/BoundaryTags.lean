import OsLabs.Lib.ByteMemory

/-!
# Blocks with boundary tags

Blocks that fill a stretch of memory, each with its size and a bit in its first and in
its last word. Where a run of blocks is replaced by one of its size, the two words of
the new block are all that is written.
-/

namespace OsLabs.BoundaryTags

open ByteMemory

structure Block where
  size : ℕ
  allocated : Bool
deriving DecidableEq, Repr

def Block.tag (b : Block) : ℕ := b.size + b.allocated.toNat

def Block.At (m : Memory) (a : ℕ) (b : Block) : Prop :=
  word m a = b.tag ∧ word m (a + b.size - 4) = b.tag

def span (bs : List Block) : ℕ := (bs.map Block.size).sum

def Tagged (m : Memory) : ℕ → List Block → Prop
  | _, [] => True
  | a, b :: bs => b.At m a ∧ Tagged m (a + b.size) bs

/-- The blocks with their first addresses. -/
def positions : ℕ → List Block → List (ℕ × Block)
  | _, [] => []
  | a, b :: bs => (a, b) :: positions (a + b.size) bs

def writeTags (m : Memory) (a : ℕ) (b : Block) : Memory :=
  setWord (setWord m a b.tag) (a + b.size - 4) b.tag

variable {m m' : Memory} {a x : ℕ} {b c : Block} {bs cs ds l r : List Block}

@[simp] theorem span_nil : span [] = 0 := rfl

@[simp] theorem span_cons (b : Block) (bs : List Block) : span (b :: bs) = b.size + span bs :=
  List.sum_cons

@[simp] theorem span_append (bs cs : List Block) : span (bs ++ cs) = span bs + span cs := by
  simp [span]

theorem length_le_span (h : ∀ b ∈ bs, 1 ≤ b.size) : bs.length ≤ span bs := by
  induction bs with
  | nil => exact le_rfl
  | cons b bs ih =>
      have hb := h b List.mem_cons_self
      have hbs := ih fun c hc => h c (List.mem_cons_of_mem _ hc)
      rw [List.length_cons, span_cons]
      omega

theorem span_mod (h : ∀ b ∈ bs, b.size % 8 = 0) : span bs % 8 = 0 := by
  induction bs with
  | nil => rfl
  | cons b bs ih =>
      have hb := h b List.mem_cons_self
      have hbs := ih fun c hc => h c (List.mem_cons_of_mem _ hc)
      rw [span_cons]
      omega

@[simp] theorem tagged_nil : Tagged m a [] := trivial

@[simp] theorem tagged_cons : Tagged m a (b :: bs) ↔ b.At m a ∧ Tagged m (a + b.size) bs := Iff.rfl

theorem tagged_append : Tagged m a (bs ++ cs) ↔ Tagged m a bs ∧ Tagged m (a + span bs) cs := by
  induction bs generalizing a with
  | nil => simp
  | cons b bs ih => simp [ih, and_assoc, Nat.add_assoc]

@[simp] theorem positions_nil : positions a [] = [] := rfl

@[simp] theorem positions_cons :
    positions a (b :: bs) = (a, b) :: positions (a + b.size) bs := rfl

theorem positions_append :
    positions a (bs ++ cs) = positions a bs ++ positions (a + span bs) cs := by
  induction bs generalizing a with
  | nil => simp
  | cons b bs ih => simp [ih, Nat.add_assoc]

theorem positions_map_snd (a : ℕ) (bs : List Block) : (positions a bs).map Prod.snd = bs := by
  induction bs generalizing a with
  | nil => rfl
  | cons b bs ih => rw [positions_cons, List.map_cons, ih]

/-- A block lies among the others. -/
theorem mem_positions : (x, b) ∈ positions a bs ↔ ∃ l r, bs = l ++ b :: r ∧ x = a + span l := by
  induction bs generalizing a with
  | nil => simp
  | cons c bs ih =>
      rw [positions_cons, List.mem_cons, ih]
      constructor
      · rintro (heq | ⟨l, r, rfl, rfl⟩)
        · obtain ⟨rfl, rfl⟩ := Prod.mk.inj heq
          exact ⟨[], bs, rfl, rfl⟩
        · exact ⟨c :: l, r, rfl, by simp [Nat.add_assoc]⟩
      · rintro ⟨l, r, heq, rfl⟩
        cases l with
        | nil =>
            obtain ⟨rfl, rfl⟩ := List.cons.inj heq
            exact Or.inl rfl
        | cons d l =>
            obtain ⟨rfl, rfl⟩ := List.cons.inj heq
            exact Or.inr ⟨l, r, rfl, by simp [Nat.add_assoc]⟩

theorem positions_bounds (h : (x, b) ∈ positions a bs) : a ≤ x ∧ x + b.size ≤ a + span bs := by
  obtain ⟨l, r, rfl, rfl⟩ := mem_positions.mp h
  simp only [span_append, span_cons]
  omega

theorem Tagged.at_of_mem (h : Tagged m a bs) (hb : (x, b) ∈ positions a bs) : b.At m x := by
  obtain ⟨l, r, rfl, rfl⟩ := mem_positions.mp hb
  exact (tagged_append.mp h).2.1

/-- Each block comes before the next. -/
theorem positions_pairwise (a : ℕ) (bs : List Block) :
    (positions a bs).Pairwise fun p q => p.1 + p.2.size ≤ q.1 := by
  induction bs generalizing a with
  | nil => exact List.Pairwise.nil
  | cons b bs ih =>
      exact List.Pairwise.cons (fun q hq => (positions_bounds hq).1) (ih _)

/-! ## The blocks in use -/

def inUse (a : ℕ) (bs : List Block) : List (ℕ × Block) := (positions a bs).filter (·.2.allocated)

theorem inUse_append : inUse a (bs ++ cs) = inUse a bs ++ inUse (a + span bs) cs := by
  rw [inUse, positions_append, List.filter_append]
  rfl

theorem inUse_free (h : ∀ b ∈ bs, b.allocated = false) : inUse a bs = [] := by
  refine List.filter_eq_nil_iff.mpr fun y hy => ?_
  obtain ⟨x, b⟩ := y
  obtain ⟨l, r, rfl, -⟩ := mem_positions.mp hy
  simp [h b (by simp)]

@[simp] theorem inUse_nil : inUse a [] = [] := rfl

@[simp] theorem inUse_cons_true (size : ℕ) :
    inUse a (⟨size, true⟩ :: bs) = (a, ⟨size, true⟩) :: inUse (a + size) bs := rfl

@[simp] theorem inUse_cons_false (size : ℕ) :
    inUse a (⟨size, false⟩ :: bs) = inUse (a + size) bs := rfl

theorem mem_inUse {y : ℕ × Block} : y ∈ inUse a bs ↔ y ∈ positions a bs ∧ y.2.allocated = true :=
  List.mem_filter

theorem inUse_bounds {y : ℕ × Block} (h : y ∈ inUse a bs) :
    a ≤ y.1 ∧ y.1 + y.2.size ≤ a + span bs :=
  positions_bounds (mem_inUse.mp h).1

/-! ## Where blocks begin -/

/-- Where a block begins, or where the last one ends. -/
def Boundary (a : ℕ) (bs : List Block) (x : ℕ) : Prop := ∃ l r, bs = l ++ r ∧ x = a + span l

theorem boundary_start (a : ℕ) (bs : List Block) : Boundary a bs a := ⟨[], bs, rfl, rfl⟩

theorem boundary_end (a : ℕ) (bs : List Block) : Boundary a bs (a + span bs) :=
  ⟨bs, [], (List.append_nil bs).symm, rfl⟩

theorem Boundary.bounds (h : Boundary a bs x) : a ≤ x ∧ x ≤ a + span bs := by
  obtain ⟨l, r, rfl, rfl⟩ := h
  rw [span_append]
  omega

theorem boundary_append :
    Boundary a (bs ++ cs) x ↔ Boundary a bs x ∨ Boundary (a + span bs) cs x := by
  constructor
  · rintro ⟨l, r, heq, rfl⟩
    obtain ⟨d, rfl, rfl⟩ | ⟨d, rfl, rfl⟩ := List.append_eq_append_iff.mp heq
    · exact Or.inr ⟨d, r, rfl, by rw [span_append, Nat.add_assoc]⟩
    · exact Or.inl ⟨l, d, rfl, rfl⟩
  · rintro (⟨l, r, rfl, rfl⟩ | ⟨l, r, rfl, rfl⟩)
    · exact ⟨l, r ++ cs, List.append_assoc .., rfl⟩
    · exact ⟨bs ++ l, r, (List.append_assoc ..).symm, by rw [span_append, Nat.add_assoc]⟩

theorem boundary_singleton : Boundary a [b] x ↔ x = a ∨ x = a + b.size := by
  constructor
  · rintro ⟨l, r, heq, rfl⟩
    cases l with
    | nil => exact Or.inl rfl
    | cons d l =>
        obtain ⟨rfl, hnil⟩ := List.cons.inj heq
        obtain ⟨rfl, rfl⟩ := List.nil_eq_append_iff.mp hnil
        exact Or.inr rfl
  · rintro (rfl | rfl)
    · exact boundary_start x [b]
    · exact boundary_end a [b]

/-- A block that is split leaves every boundary. -/
theorem Boundary.split (h : Boundary a (l ++ [b] ++ r) x) (hspan : span cs = b.size) :
    Boundary a (l ++ cs ++ r) x := by
  rw [boundary_append, boundary_append, boundary_singleton, span_append, span_cons, span_nil,
    Nat.add_zero] at h
  rw [boundary_append, boundary_append, span_append, hspan]
  obtain (h | rfl | rfl) | h := h
  · exact Or.inl (Or.inl h)
  · exact Or.inl (Or.inr (boundary_start ..))
  · exact Or.inl (Or.inr (hspan ▸ boundary_end ..))
  · exact Or.inr h

/-- Blocks that are joined leave every boundary but those inside. -/
theorem Boundary.join (h : Boundary a (l ++ cs ++ r) x) (hspan : span cs = b.size)
    (hout : ¬ (a + span l < x ∧ x < a + span l + b.size)) : Boundary a (l ++ [b] ++ r) x := by
  rw [boundary_append, boundary_append, span_append, hspan] at h
  rw [boundary_append, boundary_append, boundary_singleton, span_append, span_cons, span_nil,
    Nat.add_zero]
  obtain (h | h) | h := h
  · exact Or.inl (Or.inl h)
  · have hbounds := h.bounds
    exact Or.inl (Or.inr (by omega))
  · exact Or.inr h

/-! ## What is written -/

theorem Block.At.congr (h : b.At m a) (hsize : 4 ≤ b.size)
    (hsame : ∀ x, a ≤ x → x < a + b.size → m' x = m x) : b.At m' a := by
  refine ⟨(word_congr fun x hx hlt => ?_).trans h.1, (word_congr fun x hx hlt => ?_).trans h.2⟩
  · exact hsame x hx (by omega)
  · exact hsame x (by omega) (by omega)

theorem Tagged.congr (h : Tagged m a bs) (hsize : ∀ b ∈ bs, 4 ≤ b.size)
    (hsame : ∀ x, a ≤ x → x < a + span bs → m' x = m x) : Tagged m' a bs := by
  induction bs generalizing a with
  | nil => trivial
  | cons b bs ih =>
      rw [span_cons] at hsame
      refine ⟨h.1.congr (hsize b List.mem_cons_self) fun x hx hlt => hsame x hx (by omega), ?_⟩
      exact ih h.2 (fun c hc => hsize c (List.mem_cons_of_mem _ hc))
        fun x hx hlt => hsame x (by omega) (by omega)

theorem sameOutside_writeTags (m : Memory) (a : ℕ) {b : Block} (hsize : 4 ≤ b.size) :
    SameOutside a (a + b.size) m (writeTags m a b) :=
  ((sameOutside_setWord m a _).mono le_rfl (by omega)).trans
    ((sameOutside_setWord _ _ _).mono (by omega) (by omega))

theorem writeTags_at (m : Memory) (a : ℕ) (hsize : 8 ≤ b.size) (htag : b.tag < 2 ^ 32) :
    b.At (writeTags m a b) a := by
  refine ⟨?_, ?_⟩
  · rw [writeTags, word_setWord_of_disjoint (by omega), word_setWord, Nat.mod_eq_of_lt htag]
  · rw [writeTags, word_setWord, Nat.mod_eq_of_lt htag]

/-- Some blocks become others, of the same size in all. -/
theorem Tagged.replace (h : Tagged m a (l ++ bs ++ r)) (hspan : span cs = span bs)
    (hl : ∀ c ∈ l, 4 ≤ c.size) (hr : ∀ c ∈ r, 4 ≤ c.size) (hnew : Tagged m' (a + span l) cs)
    (hsame : SameOutside (a + span l) (a + span l + span bs) m m') :
    Tagged m' a (l ++ cs ++ r) := by
  obtain ⟨hlb, hrest⟩ := tagged_append.mp h
  obtain ⟨hleft, -⟩ := tagged_append.mp hlb
  rw [span_append, ← Nat.add_assoc] at hrest
  refine tagged_append.mpr ⟨tagged_append.mpr ⟨?_, hnew⟩, ?_⟩
  · exact hleft.congr hl fun x hx hlt => hsame x (Or.inl hlt)
  · rw [span_append, hspan, ← Nat.add_assoc]
    exact hrest.congr hr fun x hx hlt => hsame x (Or.inr hx)

end OsLabs.BoundaryTags
