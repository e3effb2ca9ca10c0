import Mathlib
import OsLabs.Lib.PagingPhases
import OsLabs.PagingPolicy.Belady

/-!
# FIFO and LRU against any policy

The memory of `FIFO` and of `LRU` is a queue, which only `LRU` renews on a hit.
-/

namespace OsLabs.PagingPolicy

open OsLabs.Paging

variable {c : Config} {random : ℕ → ℕ} {addrList : List ℤ} {s s' : State} {n : ℤ}

theorem evict_head (hpolicy : c.policy = .fifo ∨ c.policy = .lru) (random : ℕ → ℕ)
    (addrList : List ℤ) (hs : MemoryOk c s) (hpos : 0 < s.memory.length) :
    ∃ e, evict c random addrList s = some e ∧ e.memory = s.memory.tail := by
  have hpopped := popAt_eq hs.nodup hpos
  have htail : s.memory.erase s.memory[0] = s.memory.tail := by
    rw [hs.nodup.erase_getElem, List.eraseIdx_zero]
  rw [htail] at hpopped
  refine ⟨⟨s.memory[0], s.memory.tail, s.ref, s.draws⟩, ?_, rfl⟩
  rcases hpolicy with hfifo | hlru
  · rw [evict, hfifo]
    exact hpopped
  · rw [evict, hlru]
    exact hpopped

theorem replace_serves (hpolicy : c.policy = .fifo ∨ c.policy = .lru) (hs : MemoryOk c s)
    (hk : 1 ≤ c.cachesize) (hn : n ∉ s.memory) (h : replace c random addrList s n = some s') :
    Serves c.cachesize s.memory n s'.memory 1 ∧ s'.miss = s.miss + 1 := by
  have hlength := hs.count
  rw [replace] at h
  dsimp only at h
  split at h
  case isTrue hfull =>
      have hcounted : MemoryOk c { s with miss := s.miss + 1 } :=
        ⟨hs.count, hs.nodup, hs.le, hs.keys⟩
      have hpos : 0 < s.memory.length := by omega
      rcases evict_head hpolicy random addrList hcounted hpos with ⟨e, he, hmemory⟩
      rw [he] at h
      dsimp only at h
      split at h
      · cases h
      · cases h
        rw [hmemory]
        exact ⟨.evict hn (hlength.symm.trans hfull), rfl⟩
  case isFalse hroom =>
      have hle := hs.le
      cases h
      exact ⟨.fill hn (by omega), rfl⟩

/-- A round of either policy is one reference served by a queue. -/
theorem access_serves (hpolicy : c.policy = .fifo ∨ c.policy = .lru) (hs : MemoryOk c s)
    (hk : 1 ≤ c.cachesize) (h : access c random addrList s n = some s') :
    ∃ x, Serves c.cachesize s.memory n s'.memory x ∧ s'.miss = s.miss + x := by
  rcases Option.map_eq_some_iff.mp h with ⟨t, ht, rfl⟩
  by_cases hn : n ∈ s.memory
  · rw [if_pos (List.contains_iff_mem.mpr hn)] at ht
    cases ht
    refine ⟨0, ?_, rfl⟩
    show Serves c.cachesize s.memory n (if c.policy = .lru ∨ c.policy = .mru then _ else _) 0
    split
    · exact .renew hn
    · exact .hit hn
  · rw [if_neg fun hc => hn (List.contains_iff_mem.mp hc)] at ht
    have hserved := replace_serves hpolicy hs hk hn ht
    exact ⟨1, hserved⟩

theorem loop_queued (hpolicy : c.policy = .fifo ∨ c.policy = .lru) (random : ℕ → ℕ)
    (hk : 1 ≤ c.cachesize) {refs : List ℤ} (hs : MemoryOk c s)
    (hrefs : addrList.drop s.addrIndex = refs) :
    ∃ t m, loop c random addrList s refs = some t ∧ t.miss = s.miss + m ∧
      Queued c.cachesize s.memory refs m := by
  induction refs generalizing s with
  | nil => exact ⟨s, 0, rfl, rfl, .nil _⟩
  | cons n rest ih =>
      rcases access_spec random hs hk hrefs with ⟨s', haccess, -, hs', hrest⟩
      rcases access_serves hpolicy hs hk haccess with ⟨x, hstep, hx⟩
      rcases ih hs' hrest with ⟨t, m, ht, hm, hqueued⟩
      refine ⟨t, m + x, ?_, by omega, .cons hstep hqueued⟩
      rw [loop, haccess]
      exact ht

/-- With `cachesize` pages, `FIFO` and `LRU` miss at most `cachesize / (cachesize + 1 - other)`
times as often as any policy, `OPT` included, with `other` pages. -/
theorem fifo_lru_competitive {policy : Policy} (hpolicy : policy = .fifo ∨ policy = .lru)
    (rival : Policy) {cachesize other : ℕ} (hk : 1 ≤ cachesize) (hother : 1 ≤ other)
    (clockbits : ℤ) (random : ℕ → ℕ) (addrList : List ℤ) :
    ∃ s t, simulate ⟨policy, cachesize, clockbits⟩ random addrList = some s ∧
      simulate ⟨rival, other, clockbits⟩ random addrList = some t ∧
      (cachesize + 1 - other) * s.miss ≤ cachesize * t.miss := by
  have hinit : MemoryOk ⟨policy, cachesize, clockbits⟩ State.init :=
    ⟨rfl, List.nodup_nil, Nat.zero_le _, fun _ hp => absurd hp List.not_mem_nil⟩
  have hrefs : addrList.drop State.init.addrIndex = addrList := rfl
  rcases loop_queued hpolicy random hk hinit hrefs with ⟨s, m, hs, hm, hqueued⟩
  rcases simulate_demand rival hother clockbits random addrList with ⟨t, ht, hdemand⟩
  refine ⟨s, t, hs, ht, ?_⟩
  have hmiss : s.miss = m := by rw [hm, State.init, Nat.zero_add]
  rw [hmiss]
  exact queued_competitive hk hother hqueued hdemand

/-- The default cache against one page less. -/
theorem fifo_lru_competitive_three : ∃ s t,
    simulate ⟨.lru, 3, 2⟩ id [1, 2, 3, 4, 1, 2, 5, 1, 2, 3, 4, 5] = some s ∧
      simulate ⟨.opt, 2, 2⟩ id [1, 2, 3, 4, 1, 2, 5, 1, 2, 3, 4, 5] = some t ∧
      (3 + 1 - 2) * s.miss ≤ 3 * t.miss :=
  fifo_lru_competitive (.inr rfl) .opt (by decide) (by decide) 2 id
    [1, 2, 3, 4, 1, 2, 5, 1, 2, 3, 4, 5]

end OsLabs.PagingPolicy
