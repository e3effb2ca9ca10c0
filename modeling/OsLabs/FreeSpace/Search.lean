import Mathlib
import OsLabs.FreeSpace.Allocator

/-!
# The search of `malloc`

Which extent each policy takes: the first that is large enough, the smallest of
these or the largest, and in every case the first of its size.
-/

namespace OsLabs.FreeSpace

variable {c : Config} {freelist before rest : List Entry} {size m addr : ℤ} {i : ℕ} {b : Search}
  {e : Entry}

/-- Replacing an entry keeps a list in order exactly when the new entry is in
order with those before and those after. -/
theorem pairwise_set_iff {α : Type*} {R : α → α → Prop} {l : List α} {i : ℕ} (b : α)
    (hi : i < l.length) (h : l.Pairwise R) : (l.set i b).Pairwise R ↔
      (∀ j < i, ∀ a, l[j]? = some a → R a b) ∧ ∀ j > i, ∀ a, l[j]? = some a → R b a := by
  rw [List.pairwise_iff_getElem] at h ⊢
  constructor
  · intro hset
    constructor
    · intro j hj a ha
      obtain ⟨hlt, rfl⟩ := List.getElem?_eq_some_iff.mp ha
      have hpair := hset j i (by rwa [List.length_set]) (by rwa [List.length_set]) hj
      rwa [List.getElem_set_ne hj.ne', List.getElem_set_self] at hpair
    · intro j hj a ha
      obtain ⟨hlt, rfl⟩ := List.getElem?_eq_some_iff.mp ha
      have hpair := hset i j (by rwa [List.length_set]) (by rwa [List.length_set]) hj
      rwa [List.getElem_set_ne hj.ne, List.getElem_set_self] at hpair
  · rintro ⟨hbefore, hafter⟩ j k hj hk hjk
    rw [List.length_set] at hj hk
    rcases eq_or_ne i k with rfl | hik
    · rw [List.getElem_set_self, List.getElem_set_ne hjk.ne']
      exact hbefore j hjk _ (List.getElem?_eq_getElem hj)
    · rw [List.getElem_set_ne hik]
      rcases eq_or_ne i j with rfl | hij
      · rw [List.getElem_set_self]
        exact hafter k hjk _ (List.getElem?_eq_getElem hk)
      · rw [List.getElem_set_ne hij]
        exact h j k hj hk hjk

/-- In an ordered list the entries before an entry, and those after it. -/
theorem pairwise_at {α : Type*} {R : α → α → Prop} {l : List α} {i : ℕ} {b : α}
    (hget : l[i]? = some b) (h : l.Pairwise R) :
    (∀ j < i, ∀ a, l[j]? = some a → R a b) ∧ ∀ j > i, ∀ a, l[j]? = some a → R b a := by
  obtain ⟨hi, rfl⟩ := List.getElem?_eq_some_iff.mp hget
  refine (pairwise_set_iff l[i] hi h).mp ?_
  rwa [List.set_getElem_self]

/-- The search after the extents of `before`, as long as it goes on. -/
structure Scanned (c : Config) (size : ℤ) (before : List Entry) (b : Search) : Prop where
  first : c.policy = .first → b.best = none ∧ ∀ e ∈ before, e.2 < size
  best : c.policy = .best → ∀ e ∈ before, size ≤ e.2 → b.bestSize ≤ e.2
  worst : c.policy = .worst → ∀ e ∈ before, size ≤ e.2 → e.2 ≤ b.bestSize
  found : ∀ i addr, b.best = some (i, addr) → before[i]? = some (addr, b.bestSize) ∧
    size ≤ b.bestSize ∧ ∀ j < i, ∀ e, before[j]? = some e → e.2 ≠ b.bestSize
  missed : b.best = none → b.bestSize = c.searchInit.bestSize

/-- The extent at index `i`, of size `m`, is the one the policy takes. -/
structure Picked (c : Config) (size : ℤ) (freelist : List Entry) (i : ℕ) (addr m : ℤ) : Prop where
  get : freelist[i]? = some (addr, m)
  large : size ≤ m
  earlier : ∀ j < i, ∀ e, freelist[j]? = some e → e.2 ≠ m
  first : c.policy = .first → ∀ j < i, ∀ e, freelist[j]? = some e → e.2 < size
  best : c.policy = .best → ∀ e ∈ freelist, size ≤ e.2 → m ≤ e.2
  worst : c.policy = .worst → ∀ e ∈ freelist, size ≤ e.2 → e.2 ≤ m

/-- The extent is too small, or out of the bounds the search starts with. -/
def Passed (c : Config) (size : ℤ) (e : Entry) : Prop :=
  size ≤ e.2 → c.policy = .best ∧ (c.size : ℤ) < e.2 ∨ c.policy = .worst ∧ e.2 ≤ -1

/-- The result of a search. -/
structure Searched (c : Config) (size : ℤ) (freelist : List Entry) (b : Search) : Prop where
  found : ∀ i addr, b.best = some (i, addr) → Picked c size freelist i addr b.bestSize
  missed : b.best = none → ∀ e ∈ freelist, Passed c size e

theorem scanned_init (c : Config) (size : ℤ) : Scanned c size [] c.searchInit :=
  ⟨fun _ => ⟨rfl, fun _ he => absurd he List.not_mem_nil⟩,
    fun _ _ he => absurd he List.not_mem_nil, fun _ _ he => absurd he List.not_mem_nil,
    fun _ _ h => absurd h (by simp [Config.searchInit]), fun _ => rfl⟩

theorem takes_iff {bestSize esize : ℤ} : c.takes size bestSize esize = true ↔ size ≤ esize ∧
    (c.policy = .best → esize < bestSize) ∧ (c.policy = .worst → bestSize < esize) := by
  rw [Config.takes, Bool.and_eq_true, decide_eq_true_eq]
  cases c.policy <;> simp

theorem mem_or_eq_of_concat {a : Entry} (h : a ∈ before ++ [e]) : a ∈ before ∨ a = e := by
  rwa [List.mem_append, List.mem_singleton] at h

theorem getElem?_concat {a : Entry} (h : before[i]? = some a) : (before ++ [e])[i]? = some a := by
  rw [List.getElem?_append_left (List.getElem?_eq_some_iff.mp h).1, h]

theorem getElem?_of_concat {j : ℕ} {a : Entry} (hj : j < before.length)
    (h : (before ++ [e])[j]? = some a) : before[j]? = some a := by
  rwa [List.getElem?_append_left hj] at h

/-- An extent that is not taken. -/
theorem Scanned.skip (h : Scanned c size before b)
    (hnot : ¬ c.takes size b.bestSize e.2 = true) (count : ℕ) :
    Scanned c size (before ++ [e]) { b with count } where
  first := by
    intro hfirst
    refine ⟨(h.first hfirst).1, fun a ha => ?_⟩
    obtain ha | rfl := mem_or_eq_of_concat ha
    · exact (h.first hfirst).2 a ha
    · simpa [takes_iff, hfirst] using hnot
  best := by
    intro hbest a ha hlarge
    obtain ha | rfl := mem_or_eq_of_concat ha
    · exact h.best hbest a ha hlarge
    · simpa [takes_iff, hbest, hlarge] using hnot
  worst := by
    intro hworst a ha hlarge
    obtain ha | rfl := mem_or_eq_of_concat ha
    · exact h.worst hworst a ha hlarge
    · simpa [takes_iff, hworst, hlarge] using hnot
  found := by
    intro i addr hi
    obtain ⟨hget, hlarge, hearlier⟩ := h.found i addr hi
    refine ⟨getElem?_concat hget, hlarge, fun j hj a ha => ?_⟩
    exact hearlier j hj a
      (getElem?_of_concat (hj.trans (List.getElem?_eq_some_iff.mp hget).1) ha)
  missed := h.missed

/-- An extent that is taken is the first of its size. -/
theorem Scanned.ne_of_takes (h : Scanned c size before b)
    (htakes : c.takes size b.bestSize m = true) (he : e ∈ before) : e.2 ≠ m := by
  obtain ⟨hlarge, hbest, hworst⟩ := takes_iff.mp htakes
  intro heq
  cases hpolicy : c.policy with
  | first =>
      have := (h.first hpolicy).2 e he
      omega
  | best =>
      have := h.best hpolicy e he (by omega)
      have := hbest hpolicy
      omega
  | worst =>
      have := h.worst hpolicy e he (by omega)
      have := hworst hpolicy
      omega

theorem getElem?_length (before : List Entry) (e : Entry) (rest : List Entry) :
    (before ++ e :: rest)[before.length]? = some e := by
  rw [List.getElem?_append_right (Nat.le_refl _), Nat.sub_self]
  rfl

theorem getElem?_before {j : ℕ} {a : Entry} (hj : j < before.length)
    (h : (before ++ rest)[j]? = some a) : a ∈ before := by
  rw [List.getElem?_append_left hj] at h
  exact List.mem_of_getElem? h

/-- An extent that is taken, when the search goes on. -/
theorem Scanned.take (h : Scanned c size before b) (htakes : c.takes size b.bestSize m = true)
    (hpolicy : c.policy ≠ .first) (count : ℕ) :
    Scanned c size (before ++ [(addr, m)]) ⟨some (before.length, addr), m, count⟩ := by
  obtain ⟨hlarge, hbest, hworst⟩ := takes_iff.mp htakes
  exact
    { first := fun hfirst => absurd hfirst hpolicy
      best := by
        intro hp a ha hle
        obtain ha | rfl := mem_or_eq_of_concat ha
        · exact (hbest hp).le.trans (h.best hp a ha hle)
        · exact le_rfl
      worst := by
        intro hp a ha hle
        obtain ha | rfl := mem_or_eq_of_concat ha
        · exact (h.worst hp a ha hle).trans (hworst hp).le
        · exact le_rfl
      found := by
        rintro _ _ ⟨⟩
        refine ⟨getElem?_length before (addr, m) [], hlarge, fun j hj a ha => ?_⟩
        exact h.ne_of_takes htakes (getElem?_before hj ha)
      missed := fun hnone => by cases hnone }

/-- The search over the rest of the list. -/
theorem Scanned.searchFrom (h : Scanned c size before b) :
    Searched c size (before ++ rest) (searchFrom c size rest before.length b) := by
  induction rest generalizing before b with
  | nil =>
      rw [List.append_nil]
      exact
        { found := by
            intro i addr hi
            obtain ⟨hget, hlarge, hearlier⟩ := h.found i addr hi
            refine ⟨hget, hlarge, hearlier, fun hfirst => ?_, h.best, h.worst⟩
            have hnone := (h.first hfirst).1
            rw [FreeSpace.searchFrom] at hi
            rw [hnone] at hi
            cases hi
          missed := by
            intro hnone e he hlarge
            have hinit := h.missed hnone
            cases hpolicy : c.policy with
            | first =>
                have := (h.first hpolicy).2 e he
                omega
            | best =>
                have := h.best hpolicy e he hlarge
                simp only [Config.searchInit, hpolicy] at hinit
                exact Or.inl ⟨rfl, by omega⟩
            | worst =>
                have := h.worst hpolicy e he hlarge
                simp only [Config.searchInit, hpolicy] at hinit
                exact Or.inr ⟨rfl, by omega⟩ }
  | cons e rest ih =>
      obtain ⟨eaddr, esize⟩ := e
      have hnext {b : Search} (h : Scanned c size (before ++ [(eaddr, esize)]) b) :
          Searched c size (before ++ (eaddr, esize) :: rest)
            (FreeSpace.searchFrom c size rest (before.length + 1) b) := by
        have hrest := ih h
        rw [List.append_assoc, List.singleton_append, List.length_append, List.length_singleton]
          at hrest
        exact hrest
      rw [FreeSpace.searchFrom]
      split
      · next htakes =>
          split
          · next hfirst =>
              have hlarge := (takes_iff.mp htakes).1
              refine ⟨?_, fun hnone => by cases hnone⟩
              rintro _ _ ⟨⟩
              exact
                { get := getElem?_length before (eaddr, esize) rest
                  large := hlarge
                  earlier := fun j hj a ha => h.ne_of_takes htakes (getElem?_before hj ha)
                  first := fun _ j hj a ha => (h.first hfirst).2 a (getElem?_before hj ha)
                  best := fun hbest => by rw [hfirst] at hbest; cases hbest
                  worst := fun hworst => by rw [hfirst] at hworst; cases hworst }
          · next hpolicy => exact hnext (h.take htakes hpolicy _)
      · next hnot => exact hnext (h.skip hnot _)

theorem searched (c : Config) (size : ℤ) (freelist : List Entry) :
    Searched c size freelist (searchFrom c size freelist 0 c.searchInit) :=
  (scanned_init c size).searchFrom

/-! ## The two results of `malloc` -/

def search (c : Config) (s : State) (request : ℤ) : Search :=
  searchFrom c (requestSize c request) s.freelist 0 c.searchInit

/-- The free list without the first bytes of its extent at index `i`. -/
def takeFrom (freelist : List Entry) (i : ℕ) (addr m size : ℤ) : List Entry :=
  if m > size then freelist.set i (addr + size, m - size) else freelist.eraseIdx i

theorem malloc_of_missed {s : State} {request : ℤ} (h : (search c s request).best = none) :
    malloc c s request = some (s, -1, (search c s request).count) := by
  rw [search] at h ⊢
  simp only [malloc, h]

/-- `abort` is never called: the extent found is large enough. -/
theorem malloc_of_found {s : State} {request : ℤ} (h : (search c s request).best = some (i, addr)) :
    malloc c s request =
      (addToMap s.sizemap addr (requestSize c request)).map fun sizemap =>
        (⟨takeFrom s.freelist i addr (search c s request).bestSize (requestSize c request),
          sizemap⟩, addr, (search c s request).count) := by
  have hlarge := ((searched c (requestSize c request) s.freelist).found i addr h).large
  rw [search] at h ⊢
  simp only [malloc, h]
  rw [takeFrom]
  split
  · cases addToMap s.sizemap addr (requestSize c request) <;> rfl
  · rw [if_pos (by omega)]
    cases addToMap s.sizemap addr (requestSize c request) <;> rfl

/-- What a call of `malloc` that returns has done. -/
theorem malloc_cases {s s' : State} {request ptr : ℤ} {count : ℕ}
    (h : malloc c s request = some (s', ptr, count)) :
    ((search c s request).best = none ∧ s' = s ∧ ptr = -1) ∨
      ∃ i m, Picked c (requestSize c request) s.freelist i ptr m ∧
        s.sizemap.lookup ptr = none ∧
        s' = ⟨takeFrom s.freelist i ptr m (requestSize c request),
          s.sizemap ++ [(ptr, requestSize c request)]⟩ := by
  cases hbest : (search c s request).best with
  | none =>
      rw [malloc_of_missed hbest] at h
      obtain ⟨rfl, rfl, -⟩ := h
      exact Or.inl ⟨rfl, rfl, rfl⟩
  | some found =>
      obtain ⟨i, addr⟩ := found
      rw [malloc_of_found hbest] at h
      obtain ⟨sizemap, hadd, heq⟩ := Option.map_eq_some_iff.mp h
      obtain ⟨rfl, hrest⟩ := Prod.mk.inj heq
      obtain ⟨rfl, -⟩ := Prod.mk.inj hrest
      rw [addToMap] at hadd
      split at hadd
      · cases hadd
      · next hfresh =>
          obtain rfl := Option.some.inj hadd
          refine Or.inr ⟨i, _, (searched c (requestSize c request) s.freelist).found i _ hbest,
            Option.not_isSome_iff_eq_none.mp hfresh, rfl⟩

end OsLabs.FreeSpace
