import Mathlib
import OsLabs.PagingPolicy.Simulator

/-!
# Inclusion of LRU memories

The memory of `LRU` with one page less is the more recently used part of the
memory.
-/

namespace OsLabs.PagingPolicy

/-- `memory` has `k` pages at most, and `memory'` one more on the old side. -/
structure Included (k : ℕ) (memory memory' : List ℤ) : Prop where
  nodup : memory'.Nodup
  le : memory.length ≤ k
  older : memory' = memory ∨ memory.length = k ∧ ∃ page, memory' = page :: memory

variable {k : ℕ} {s s' : State} {n : ℤ} {memory memory' : List ℤ}

/-- What an access to `n` leaves in memory under LRU. -/
def lruNext (k : ℕ) (memory : List ℤ) (n : ℤ) : List ℤ :=
  if n ∈ memory then memory.erase n ++ [n]
  else if memory.length = k then memory.tail ++ [n]
  else memory ++ [n]

theorem Included.length_le (h : Included k memory memory') : memory'.length ≤ k + 1 := by
  obtain ⟨_, hle, rfl | ⟨hk, page, rfl⟩⟩ := h
  · omega
  · simp [hk]

theorem nodup_append_of_notMem (h : memory.Nodup) (hn : n ∉ memory) : (memory ++ [n]).Nodup := by
  rw [List.nodup_append]
  refine ⟨h, List.nodup_singleton n, ?_⟩
  rintro a ha b hb rfl
  exact hn (List.mem_singleton.mp hb ▸ ha)

theorem lruNext_nodup (h : memory.Nodup) (n : ℤ) : (lruNext k memory n).Nodup := by
  unfold lruNext
  split
  · exact nodup_append_of_notMem (h.erase n) h.not_mem_erase
  · rename_i hn
    split
    · exact nodup_append_of_notMem h.tail fun hmem => hn (List.mem_of_mem_tail hmem)
    · exact nodup_append_of_notMem h hn

theorem Included.next (h : Included k memory memory') (hk : 1 ≤ k) (n : ℤ) :
    Included k (lruNext k memory n) (lruNext (k + 1) memory' n) := by
  obtain ⟨hnodup, hle, hold⟩ := h
  refine ⟨lruNext_nodup hnodup n, ?_, ?_⟩
  · unfold lruNext
    split
    · rename_i hn
      have hpos := List.length_pos_of_mem hn
      rw [List.length_append, List.length_erase_of_mem hn, List.length_singleton]
      omega
    · split
      · rw [List.length_append, List.length_tail, List.length_singleton]
        omega
      · rw [List.length_append, List.length_singleton]
        omega
  · unfold lruNext
    obtain rfl | ⟨hfull, page, rfl⟩ := hold
    · -- the same memory before: only the smaller one may evict
      rw [if_neg (show ¬ memory'.length = k + 1 by omega)]
      by_cases hn : n ∈ memory'
      · rw [if_pos hn, if_pos hn]
        exact Or.inl rfl
      · rw [if_neg hn, if_neg hn]
        split
        · right
          cases memory' with
          | nil => simp at *; omega
          | cons page memory =>
              refine ⟨?_, page, rfl⟩
              simp at *
              omega
        · exact Or.inl rfl
    · have hlen : (page :: memory).length = k + 1 := by simp [hfull]
      have hpage : page ∉ memory := (List.nodup_cons.mp hnodup).1
      rw [if_pos hfull, if_pos hlen, List.tail_cons]
      by_cases hnp : n = page
      · subst hnp
        rw [if_neg hpage, if_pos List.mem_cons_self, List.erase_cons_head]
        right
        cases memory with
        | nil => simp at hfull; omega
        | cons page memory =>
            refine ⟨?_, page, rfl⟩
            simp at *
            omega
      · have hmem : n ∈ page :: memory ↔ n ∈ memory := by simp [hnp]
        by_cases hn : n ∈ memory
        · rw [if_pos hn, if_pos (hmem.mpr hn), List.erase_cons_tail (by simpa using Ne.symm hnp)]
          refine Or.inr ⟨?_, page, rfl⟩
          have hpos := List.length_pos_of_mem hn
          rw [List.length_append, List.length_erase_of_mem hn, List.length_singleton]
          omega
        · rw [if_neg hn, if_neg fun hc => hn (hmem.mp hc)]
          right
          cases memory with
          | nil => simp at hfull; omega
          | cons page memory =>
              refine ⟨?_, page, rfl⟩
              simp at *
              omega

theorem Included.suffix (h : Included k memory memory') : memory <:+ memory' := by
  obtain ⟨_, _, rfl | ⟨_, page, rfl⟩⟩ := h
  · exact List.suffix_refl _
  · exact List.suffix_cons page memory

/-! ## Runs of LRU -/

structure LruState (k : ℕ) (s : State) : Prop where
  count : s.count = s.memory.length
  nodup : s.memory.Nodup
  le : s.memory.length ≤ k

variable {c : Config} {random : ℕ → ℕ} {addrList : List ℤ}

theorem access_lru (hpolicy : c.policy = .lru) (hk : 1 ≤ c.cachesize)
    (hs : LruState c.cachesize s) (n : ℤ) : ∃ s', access c random addrList s n = some s' ∧
      s'.memory = lruNext c.cachesize s.memory n ∧ s'.count = s'.memory.length ∧
      s'.hits = s.hits + if n ∈ s.memory then 1 else 0 := by
  obtain ⟨hcount, hnodup, hle⟩ := hs
  unfold access lruNext
  by_cases hn : n ∈ s.memory
  · rw [if_pos (List.contains_iff_mem.mpr hn), if_pos hn, if_pos hn]
    refine ⟨_, rfl, if_pos (Or.inl hpolicy), ?_, rfl⟩
    show s.count = (if c.policy = .lru ∨ c.policy = .mru then s.memory.erase n ++ [n]
      else s.memory).length
    have hpos := List.length_pos_of_mem hn
    rw [if_pos (Or.inl hpolicy), List.length_append, List.length_erase_of_mem hn,
      List.length_singleton]
    omega
  · rw [if_neg fun hc => hn (List.contains_iff_mem.mp hc), if_neg hn, if_neg hn]
    unfold replace
    by_cases hfull : s.count = c.cachesize
    · obtain ⟨page, memory, hmem⟩ : ∃ page memory, s.memory = page :: memory := by
        apply List.exists_cons_of_ne_nil
        intro hnil
        rw [hnil] at hcount
        simp at hcount
        omega
      rw [hmem] at hnodup hn hcount
      have hpage : page ∉ memory ++ [n] := by
        have hnot := (List.nodup_cons.mp hnodup).1
        simp only [List.mem_append, List.mem_singleton, not_or]
        exact ⟨hnot, fun heq => hn (heq ▸ List.mem_cons_self)⟩
      have hevict : evict c random addrList { s with miss := s.miss + 1 } =
          some ⟨page, memory, s.ref, s.draws⟩ := by
        unfold evict popAt pop
        simp [hpolicy, hmem]
      simp only [hevict]
      rw [if_pos hfull, if_neg fun h => hpage h.2, if_pos (by rw [hmem, ← hcount, hfull])]
      refine ⟨_, rfl, by rw [hmem]; rfl, ?_, rfl⟩
      show s.count = (memory ++ [n]).length
      rw [hcount]
      simp
    · simp only
      rw [if_neg hfull, if_neg (hcount ▸ hfull)]
      refine ⟨_, rfl, rfl, ?_, rfl⟩
      show s.count + 1 = (s.memory ++ [n]).length
      rw [hcount]
      simp

/-- The two runs after the same references. -/
structure Together (k : ℕ) (s s' : State) : Prop where
  count : s.count = s.memory.length
  count' : s'.count = s'.memory.length
  memory : Included k s.memory s'.memory
  hits : s.hits ≤ s'.hits

theorem Together.lruState (h : Together k s s') : LruState k s ∧ LruState (k + 1) s' := by
  have hsub := h.memory.suffix.sublist
  exact ⟨⟨h.count, h.memory.nodup.sublist hsub, h.memory.le⟩,
    ⟨h.count', h.memory.nodup, h.memory.length_le⟩⟩

theorem Together.loop (clockbits : ℤ) (random : ℕ → ℕ) (addrList : List ℤ) (hk : 1 ≤ k)
    (h : Together k s s') (refs : List ℤ) :
    ∃ t t', loop ⟨.lru, k, clockbits⟩ random addrList s refs = some t ∧
      loop ⟨.lru, k + 1, clockbits⟩ random addrList s' refs = some t' ∧ Together k t t' := by
  induction refs generalizing s s' with
  | nil => exact ⟨s, s', rfl, rfl, h⟩
  | cons n refs ih =>
      obtain ⟨hs, hs'⟩ := h.lruState
      obtain ⟨t, ht, htm, htc, hth⟩ :
          ∃ t, access ⟨.lru, k, clockbits⟩ random addrList s n = some t ∧ _ :=
        access_lru rfl hk hs n
      obtain ⟨t', ht', htm', htc', hth'⟩ :
          ∃ t', access ⟨.lru, k + 1, clockbits⟩ random addrList s' n = some t' ∧ _ :=
        access_lru rfl (Nat.le_add_left 1 k) hs' n
      have htogether : Together k t t' := by
        refine ⟨htc, htc', htm ▸ htm' ▸ h.memory.next hk n, ?_⟩
        have hhit : n ∈ s.memory → n ∈ s'.memory := fun hn => h.memory.suffix.mem hn
        have hhits := h.hits
        rw [hth, hth']
        by_cases hn : n ∈ s.memory
        · rw [if_pos hn, if_pos (hhit hn)]
          omega
        · rw [if_neg hn]
          omega
      obtain ⟨u, u', hu, hu', hrest⟩ := ih htogether
      refine ⟨u, u', ?_, ?_, hrest⟩
      · unfold PagingPolicy.loop
        rw [ht]
        exact hu
      · unfold PagingPolicy.loop
        rw [ht']
        exact hu'

theorem Together.init (k : ℕ) : Together k State.init State.init :=
  ⟨rfl, rfl, ⟨List.nodup_nil, Nat.zero_le k, Or.inl rfl⟩, Nat.le_refl 0⟩

theorem lru_hits_le (clockbits : ℤ) (random : ℕ → ℕ) (addrList : List ℤ) (hk : 1 ≤ k) {k' : ℕ}
    (hle : k ≤ k') : ∃ s s', simulate ⟨.lru, k, clockbits⟩ random addrList = some s ∧
      simulate ⟨.lru, k', clockbits⟩ random addrList = some s' ∧ s.hits ≤ s'.hits := by
  induction k', hle using Nat.le_induction with
  | base =>
      obtain ⟨s, _, hs, _⟩ := (Together.init k).loop clockbits random addrList hk addrList
      exact ⟨s, s, hs, hs, Nat.le_refl _⟩
  | succ k' hle ih =>
      obtain ⟨s, s', hs, hs', hhits⟩ := ih
      obtain ⟨t, t', ht, ht', h⟩ :=
        (Together.init k').loop clockbits random addrList (by omega) addrList
      obtain rfl := Option.some.inj (hs'.symm.trans ht)
      exact ⟨s, t', hs, ht', hhits.trans h.hits⟩

/-- After every access the smaller memory is the more recently used part of the
larger one, and more pages never lose a hit. -/
theorem lru_inclusion (addrList : List ℤ) (k : ℕ) (hk : 1 ≤ k) (clockbits : ℤ)
    (random : ℕ → ℕ) :
    (∀ i, ∃ s s', loop ⟨.lru, k, clockbits⟩ random addrList State.init (addrList.take i) = some s ∧
      loop ⟨.lru, k + 1, clockbits⟩ random addrList State.init (addrList.take i) = some s' ∧
      s.memory ⊆ s'.memory ∧ s.memory <:+ s'.memory) ∧
    ∀ k', k ≤ k' → ∃ s s', simulate ⟨.lru, k, clockbits⟩ random addrList = some s ∧
      simulate ⟨.lru, k', clockbits⟩ random addrList = some s' ∧ s.hits ≤ s'.hits := by
  refine ⟨fun i => ?_, fun k' hle => lru_hits_le clockbits random addrList hk hle⟩
  obtain ⟨s, s', hs, hs', h⟩ :=
    (Together.init k).loop clockbits random addrList hk (addrList.take i)
  exact ⟨s, s', hs, hs', h.memory.suffix.subset, h.memory.suffix⟩

/-- The trace `1,2,3,4,1,2,5,1,2,3,4,5` with three pages and with four. -/
theorem lru_inclusion_three :
    (∀ i, ∃ s s',
      loop ⟨.lru, 3, 2⟩ id [1, 2, 3, 4, 1, 2, 5, 1, 2, 3, 4, 5] State.init
        ([1, 2, 3, 4, 1, 2, 5, 1, 2, 3, 4, 5].take i) = some s ∧
      loop ⟨.lru, 4, 2⟩ id [1, 2, 3, 4, 1, 2, 5, 1, 2, 3, 4, 5] State.init
        ([1, 2, 3, 4, 1, 2, 5, 1, 2, 3, 4, 5].take i) = some s' ∧
      s.memory ⊆ s'.memory ∧ s.memory <:+ s'.memory) ∧
    ∀ k', 3 ≤ k' → ∃ s s', simulate ⟨.lru, 3, 2⟩ id [1, 2, 3, 4, 1, 2, 5, 1, 2, 3, 4, 5] = some s ∧
      simulate ⟨.lru, k', 2⟩ id [1, 2, 3, 4, 1, 2, 5, 1, 2, 3, 4, 5] = some s' ∧
      s.hits ≤ s'.hits :=
  lru_inclusion [1, 2, 3, 4, 1, 2, 5, 1, 2, 3, 4, 5] 3 (by decide) 2 id

end OsLabs.PagingPolicy
