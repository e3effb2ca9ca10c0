import Mathlib

/-!
# Demand paging

A cache of at most `k` pages serves a list of references. On a miss with a full
cache one page is evicted. Evicting a page whose next use is farthest misses
least, evicting one whose next use is nearest misses most. Both are shown by
counting the cached pages that are due within each prefix of the references to
come.
-/

namespace OsLabs.Paging

variable {α : Type*} [DecidableEq α]

/-- The eviction rule relates the references to come, the cache and the victim. -/
abbrev Rule (α : Type*) := List α → Finset α → α → Prop

def anyRule : Rule α := fun _ _ _ => True

/-- Whatever is referenced before the victim covers the cache. -/
def farthest : Rule α := fun rest S v => ∀ p ∈ S, ∀ j, v ∈ rest.take j → p ∈ rest.take j

/-- The victim is referenced no later than any other page. -/
def nearest : Rule α := fun rest S v => ∀ p ∈ S, ∀ j, p ∈ rest.take j → v ∈ rest.take j

/-- `Demand rule k S refs m`: from the cache `S` the references make `m` misses. -/
inductive Demand (rule : Rule α) (k : ℕ) : Finset α → List α → ℕ → Prop
  | nil (S : Finset α) : Demand rule k S [] 0
  | hit {S : Finset α} {n : α} {rest : List α} {m : ℕ} (hn : n ∈ S)
      (next : Demand rule k S rest m) : Demand rule k S (n :: rest) m
  | fill {S : Finset α} {n : α} {rest : List α} {m : ℕ} (hn : n ∉ S) (hroom : S.card < k)
      (next : Demand rule k (insert n S) rest m) : Demand rule k S (n :: rest) (m + 1)
  | evict {S : Finset α} {n : α} {rest : List α} {m : ℕ} (v : α) (hn : n ∉ S)
      (hfull : S.card = k) (hv : v ∈ S) (hrule : rule rest S v)
      (next : Demand rule k (insert n (S.erase v)) rest m) : Demand rule k S (n :: rest) (m + 1)

/-! ## Pages that are due -/

/-- The number of cached pages among the next `j` references. -/
def due (refs : List α) (j : ℕ) (S : Finset α) : ℕ := (S.filter (· ∈ refs.take j)).card

def isDue (refs : List α) (j : ℕ) (p : α) : ℕ := if p ∈ refs.take j then 1 else 0

variable {S : Finset α} {n v : α} {rest refs : List α} {k : ℕ}

theorem due_le_card (refs : List α) (j : ℕ) (S : Finset α) : due refs j S ≤ S.card :=
  Finset.card_filter_le _ _

theorem isDue_le_one (refs : List α) (j : ℕ) (p : α) : isDue refs j p ≤ 1 := by
  unfold isDue
  split <;> omega

theorem due_insert_erase (refs : List α) (j : ℕ) (hv : v ∈ S) :
    due refs j (S.erase v) + isDue refs j v = due refs j S := by
  unfold due isDue
  rw [Finset.filter_erase]
  split
  · exact Finset.card_erase_add_one (Finset.mem_filter.mpr ⟨hv, ‹_›⟩)
  · rw [Finset.erase_eq_of_notMem]
    · rfl
    · exact fun hmem => ‹v ∉ _› (Finset.mem_filter.mp hmem).2

theorem due_insert (refs : List α) (j : ℕ) (hn : n ∉ S) :
    due refs j (insert n S) = due refs j S + isDue refs j n := by
  have h := due_insert_erase refs j (Finset.mem_insert_self n S)
  rw [Finset.erase_insert hn] at h
  exact h.symm

/-- Before the reference to `n` the others are due one later. -/
theorem due_cons_of_notMem (rest : List α) (j : ℕ) (hn : n ∉ S) :
    due (n :: rest) (j + 1) S = due rest j S := by
  unfold due
  congr 1
  apply Finset.filter_congr
  intro p hp
  have hpn : p ≠ n := fun heq => hn (heq ▸ hp)
  simp [List.take_succ_cons, hpn]

theorem due_hit (rest : List α) (j : ℕ) (hn : n ∈ S) :
    due rest j S + 1 = due (n :: rest) (j + 1) S + isDue rest j n := by
  have hrest := due_insert_erase rest j hn
  have hcons := due_insert_erase (n :: rest) (j + 1) hn
  rw [due_cons_of_notMem rest j (Finset.notMem_erase n S)] at hcons
  have hself : isDue (n :: rest) (j + 1) n = 1 := if_pos List.mem_cons_self
  omega

theorem due_fill (rest : List α) (j : ℕ) (hn : n ∉ S) :
    due rest j (insert n S) = due (n :: rest) (j + 1) S + isDue rest j n := by
  rw [due_insert rest j hn, due_cons_of_notMem rest j hn]

theorem due_evict (rest : List α) (j : ℕ) (hn : n ∉ S) (hv : v ∈ S) :
    due rest j (insert n (S.erase v)) + isDue rest j v =
      due (n :: rest) (j + 1) S + isDue rest j n := by
  have hn' : n ∉ S.erase v := fun hmem => hn (Finset.mem_of_mem_erase hmem)
  have hrest := due_insert_erase rest j hv
  rw [due_insert rest j hn', due_cons_of_notMem rest j hn]
  omega

/-- The page referenced next is due first. -/
theorem due_cons_pos (rest : List α) (j : ℕ) (hn : n ∈ S) : 0 < due (n :: rest) (j + 1) S :=
  Finset.card_pos.mpr ⟨n, Finset.mem_filter.mpr ⟨hn, List.mem_cons_self⟩⟩

theorem due_one_zero (rest : List α) (hn : n ∉ S) : due (n :: rest) 1 S = 0 := by
  rw [due_cons_of_notMem rest 0 hn]
  simp [due]

theorem isDue_le_due (refs : List α) (j : ℕ) (hn : n ∈ S) : isDue refs j n ≤ due refs j S := by
  rw [← due_insert_erase refs j hn]
  exact Nat.le_add_left _ _

theorem due_le_of_mem (refs : List α) (j : ℕ) (hn : n ∈ S) (hS : S.card ≤ k) :
    due refs j S + 1 ≤ k + isDue refs j n := by
  have hcard := Finset.card_erase_add_one hn
  have hle := due_le_card refs j (S.erase n)
  have h := due_insert_erase refs j hn
  omega

theorem due_farthest {j : ℕ} (hrule : farthest rest S v) (hn : n ∉ S) (hv : isDue rest j v = 1) :
    due (n :: rest) (j + 1) S = S.card := by
  have hmem : v ∈ rest.take j := by
    by_contra hnot
    rw [isDue, if_neg hnot] at hv
    cases hv
  rw [due_cons_of_notMem rest j hn, due, Finset.filter_true_of_mem fun p hp => hrule p hp j hmem]

theorem due_nearest {j : ℕ} (hrule : nearest rest S v) (hn : n ∉ S) (hv : isDue rest j v = 0) :
    due (n :: rest) (j + 1) S = 0 := by
  rw [due_cons_of_notMem rest j hn, due, Finset.card_eq_zero, Finset.filter_eq_empty_iff]
  intro p hp hmem
  rw [isDue, if_pos (hrule p hp j hmem)] at hv
  cases hv

theorem card_insert_erase (hn : n ∉ S) (hv : v ∈ S) : (insert n (S.erase v)).card = S.card := by
  rw [Finset.card_insert_of_notMem fun hmem => hn (Finset.mem_of_mem_erase hmem),
    Finset.card_erase_add_one hv]

/-! ## Farthest next use -/

/-- What any rule makes of one reference: `x` misses, and at most the page that
is referenced is new. -/
theorem Demand.serve {rule : Rule α} {m : ℕ} (h : Demand rule k S (n :: rest) m)
    (hS : S.card ≤ k) : ∃ S' m' x, Demand rule k S' rest m' ∧ m = m' + x ∧ n ∈ S' ∧
      S'.card ≤ k ∧ (x = 0 ∧ n ∈ S ∨ x = 1 ∧ n ∉ S) ∧
      ∀ j, due rest j S' + 1 ≤ due (n :: rest) (j + 1) S + isDue rest j n + x := by
  cases h with
  | @hit _ _ _ m hn next =>
      refine ⟨S, m, 0, next, rfl, hn, hS, Or.inl ⟨rfl, hn⟩, fun j => ?_⟩
      have := due_hit rest j hn
      omega
  | @fill _ _ _ m hn hroom next =>
      refine ⟨insert n S, m, 1, next, rfl, Finset.mem_insert_self _ _, ?_, Or.inr ⟨rfl, hn⟩,
        fun j => ?_⟩
      · rw [Finset.card_insert_of_notMem hn]
        exact hroom
      · have := due_fill rest j hn
        omega
  | @evict _ _ _ m v hn hfull hv _ next =>
      refine ⟨insert n (S.erase v), m, 1, next, rfl, Finset.mem_insert_self _ _, ?_,
        Or.inr ⟨rfl, hn⟩, fun j => ?_⟩
      · rw [card_insert_erase hn hv]
        exact hS
      · have := due_evict rest j hn hv
        omega

/-- Caches that served the same references: the one of farthest next use is
behind by at most the misses the other one had more. -/
theorem farthest_le_of_due {rule : Rule α} {B P : Finset α} {b p e : ℕ}
    (hB : Demand farthest k B refs b) (hP : Demand rule k P refs p) (hBk : B.card ≤ k)
    (hPk : P.card ≤ k) (hdue : ∀ j, due refs j P ≤ due refs j B + e) : b ≤ p + e := by
  induction refs generalizing B P b p e with
  | nil =>
      cases hB
      exact Nat.zero_le _
  | cons n rest ih =>
      obtain ⟨P', p', x, nextP, rfl, hnP', hPk', hx, hstep⟩ := hP.serve hPk
      -- where only the other cache hits, the page was due for it alone
      have hpos : n ∉ B → x = 0 → 1 ≤ e := by
        intro hnB hx0
        have hnP : n ∈ P := by
          obtain ⟨_, hnP⟩ | ⟨hx1, _⟩ := hx
          · exact hnP
          · omega
        have hone := hdue 1
        have hfirst : 0 < due (n :: rest) 1 P := due_cons_pos rest 0 hnP
        rw [due_one_zero rest hnB] at hone
        omega
      have hx1 : x ≤ 1 := by omega
      cases hB with
      | hit hnB nextB =>
          have hb : b ≤ p' + (e + x) := by
            apply ih nextB nextP hBk hPk'
            intro j
            have h := hdue (j + 1)
            have h₁ := due_hit rest j hnB
            have h₂ := hstep j
            omega
          omega
      | @fill _ _ _ b hnB hroomB nextB =>
          have hpos := hpos hnB
          have hb : b ≤ p' + (e + x - 1) := by
            apply ih nextB nextP _ hPk'
            · intro j
              have h := hdue (j + 1)
              have h₁ := due_fill rest j hnB
              have h₂ := hstep j
              omega
            · rw [Finset.card_insert_of_notMem hnB]
              exact hroomB
          omega
      | @evict _ _ _ b u hnB hfullB huB hrule nextB =>
          have hpos := hpos hnB
          have hb : b ≤ p' + (e + x - 1) := by
            apply ih nextB nextP _ hPk'
            · intro j
              have h := hdue (j + 1)
              have h₁ := due_evict rest j hnB huB
              have h₂ := hstep j
              have hu := isDue_le_one rest j u
              by_cases hdueu : isDue rest j u = 1
              · -- once the victim is due, so was the whole cache
                have hall := (due_farthest hrule hnB hdueu).trans hfullB
                have hle := due_le_of_mem rest j hnP' hPk'
                omega
              · omega
            · rw [card_insert_erase hnB huB]
              exact hBk
          omega

/-- Evicting the page of farthest next use misses least. -/
theorem farthest_le {rule : Rule α} {b p : ℕ} (hB : Demand farthest k ∅ refs b)
    (hP : Demand rule k ∅ refs p) : b ≤ p := by
  have hcard : (∅ : Finset α).card ≤ k := Nat.zero_le k
  exact farthest_le_of_due (e := 0) hB hP hcard hcard fun j => Nat.le_refl _

/-! ## Nearest next use -/

/-- The cache of nearest next use has at most as many pages due as any other, so
that it hits only where the other one does. -/
theorem nearest_ge_of_due {rule : Rule α} {U P : Finset α} {u p : ℕ}
    (hU : Demand nearest k U refs u) (hP : Demand rule k P refs p) (hcard : P.card = U.card)
    (hfill : U.card < k → P = U) (hdue : ∀ j, due refs j U ≤ due refs j P) : p ≤ u := by
  induction refs generalizing U P u p with
  | nil =>
      cases hP
      exact Nat.zero_le _
  | cons n rest ih =>
      cases hU with
      | hit hnU nextU =>
          have hnP : n ∈ P := by
            by_contra hnP
            have hone := hdue 1
            have hfirst : 0 < due (n :: rest) 1 U := due_cons_pos rest 0 hnU
            rw [due_one_zero rest hnP] at hone
            omega
          cases hP with
          | hit _ nextP =>
              apply ih nextU nextP hcard hfill
              intro j
              have h := hdue (j + 1)
              have h₁ := due_hit rest j hnU
              have h₂ := due_hit rest j hnP
              omega
          | fill hnot => exact absurd hnP hnot
          | evict _ hnot => exact absurd hnP hnot
      | @fill _ _ _ u hnU hroomU nextU =>
          obtain rfl := hfill hroomU
          cases hP with
          | hit hnP => exact absurd hnP hnU
          | fill _ _ nextP =>
              exact Nat.succ_le_succ (ih nextU nextP rfl (fun _ => rfl) fun _ => le_rfl)
          | evict _ _ hfull => omega
      | @evict _ _ _ u w hnU hfullU hwU hrule nextU =>
          have hw := fun j => isDue_le_one rest j w
          have hU' := fun j => due_evict rest j hnU hwU
          have hcardU' := card_insert_erase hnU hwU
          have hzero : ∀ j, isDue rest j w = 0 → due (n :: rest) (j + 1) U = 0 :=
            fun j hj => due_nearest hrule hnU hj
          cases hP with
          | hit hnP nextP =>
              have hle : p ≤ u := by
                apply ih nextU nextP (by omega) (by omega)
                intro j
                have h := hdue (j + 1)
                have h₁ := hU' j
                have h₂ := due_hit rest j hnP
                have h₃ := due_cons_pos rest j hnP
                have hw := hw j
                have hzero := hzero j
                omega
              omega
          | fill _ hroomP => omega
          | @evict _ _ _ p v hnP hfullP hvP _ nextP =>
              have hcardP' := card_insert_erase hnP hvP
              have hle : p ≤ u := by
                apply ih nextU nextP (by omega) (by omega)
                intro j
                have h := hdue (j + 1)
                have h₁ := hU' j
                have h₂ := due_evict rest j hnP hvP
                have h₃ := isDue_le_due rest j
                  (Finset.mem_insert_self n (P.erase v))
                have hv := isDue_le_one rest j v
                have hw := hw j
                have hzero := hzero j
                omega
              omega

/-- Evicting the page of nearest next use misses most. -/
theorem nearest_ge {rule : Rule α} {u p : ℕ} (hU : Demand nearest k ∅ refs u)
    (hP : Demand rule k ∅ refs p) : p ≤ u :=
  nearest_ge_of_due hU hP rfl (fun _ => rfl) fun _ => Nat.le_refl _

end OsLabs.Paging
