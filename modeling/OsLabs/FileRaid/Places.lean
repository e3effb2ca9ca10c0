import Mathlib
import OsLabs.FileRaid.Splitting

/-!
# The places a write touches

A part writes its blocks and the parity blocks of their rows. Different stripes
have different rows, so over the whole request every such place is written once.
-/

namespace OsLabs.FileRaid

variable {r : Raid} {bmap : ℕ → ℕ × ℕ} {pmap : ℕ → ℕ} {addr size stripe begin stop b off : ℕ}
  {p : ℕ × ℕ}

/-! ## The offsets of a part -/

theorem mem_foldl_addOff (offs known : List ℕ) :
    off ∈ offs.foldl addOff known ↔ off ∈ known ∨ off ∈ offs := by
  induction offs generalizing known with
  | nil => simp
  | cons o offs ih =>
      rw [List.foldl_cons, ih, addOff, List.mem_cons]
      split
      · next hmem =>
          constructor
          · rintro (h | h)
            · exact Or.inl h
            · exact Or.inr (Or.inr h)
          · rintro (h | rfl | h)
            · exact Or.inl h
            · exact Or.inl hmem
            · exact Or.inr h
      · rw [List.mem_append, List.mem_singleton, or_assoc]

theorem nodup_foldl_addOff (offs : List ℕ) {known : List ℕ} (h : known.Nodup) :
    (offs.foldl addOff known).Nodup := by
  induction offs generalizing known with
  | nil => exact h
  | cons o offs ih =>
      rw [List.foldl_cons]
      refine ih ?_
      rw [addOff]
      split
      · exact h
      · next hnot =>
          refine h.append (List.nodup_singleton o) (List.disjoint_singleton.mpr hnot)

theorem mem_offList (l : List (ℕ × ℕ)) : off ∈ offList l ↔ ∃ p ∈ l, p.2 = off := by
  rw [offList, mem_foldl_addOff, List.mem_map]
  simp

theorem offList_nodup (l : List (ℕ × ℕ)) : (offList l).Nodup :=
  nodup_foldl_addOff _ List.nodup_nil

/-- The places of a part are those of its blocks and of the parity of their rows. -/
theorem mem_places {pdisk : ℕ} : p ∈ places bmap pdisk begin stop ↔
    (∃ b, begin ≤ b ∧ b < stop ∧ bmap b = p) ∨
      p.1 = pdisk ∧ ∃ b, begin ≤ b ∧ b < stop ∧ (bmap b).2 = p.2 := by
  rw [places, List.mem_append, onDisk, List.mem_map, List.mem_map]
  simp only [mem_blocks, mem_offList, List.mem_map]
  refine or_congr (by simp only [and_assoc]) ?_
  constructor
  · rintro ⟨_, ⟨_, ⟨b, hb, rfl⟩, rfl⟩, rfl⟩
    exact ⟨rfl, b, hb.1, hb.2, rfl⟩
  · rintro ⟨rfl, b, hbegin, hstop, hoff⟩
    exact ⟨p.2, ⟨bmap b, ⟨b, ⟨hbegin, hstop⟩, rfl⟩, hoff⟩, rfl⟩

/-- The range lies in the stripe. -/
def Within (r : Raid) (stripe begin stop : ℕ) : Prop :=
  stripe * r.blocksInStripe ≤ begin ∧ stop ≤ stripe * r.blocksInStripe + r.blocksInStripe

theorem Striped.stripe_of_within (h : Striped r bmap pmap) (hw : Within r stripe begin stop)
    (hbegin : begin ≤ b) (hstop : b < stop) : (bmap b).2 / r.chunkSize = stripe := by
  rw [h.exact.stripe]
  refine Nat.div_eq_of_lt_le (hw.1.trans hbegin) ?_
  rw [Nat.succ_mul]
  exact hstop.trans_le hw.2

/-- No block of data is on the parity disk of its row. -/
theorem Striped.not_parity (h : Striped r bmap pmap) (b : ℕ) :
    (bmap b).1 ≠ pmap ((bmap b).2 / r.chunkSize) := by
  obtain ⟨-, hnot⟩ | ⟨-, hnot⟩ := h.exact.covered (bmap b) (h.exact.disk_lt b)
  · exact hnot
  · exact absurd ⟨b, rfl⟩ hnot

theorem Striped.stripe_of_mem (h : Striped r bmap pmap) (hw : Within r stripe begin stop)
    (hp : p ∈ places bmap (pmap stripe) begin stop) : p.2 / r.chunkSize = stripe := by
  obtain ⟨b, hbegin, hstop, rfl⟩ | ⟨-, b, hbegin, hstop, hoff⟩ := mem_places.mp hp
  · exact h.stripe_of_within hw hbegin hstop
  · rw [← hoff]
    exact h.stripe_of_within hw hbegin hstop

theorem Striped.places_nodup (h : Striped r bmap pmap) (hw : Within r stripe begin stop) :
    (places bmap (pmap stripe) begin stop).Nodup := by
  refine ((blocks_nodup begin stop).map h.exact.injective).append
    ((offList_nodup _).map (Prod.mk_right_injective _)) ?_
  -- no place of data is one of parity
  intro q hdata hparity
  obtain ⟨b, hb, rfl⟩ := List.mem_map.mp hdata
  obtain ⟨hbegin, hstop⟩ := mem_blocks.mp hb
  obtain ⟨off, -, heq⟩ := List.mem_map.mp hparity
  refine h.not_parity b ?_
  rw [h.stripe_of_within hw hbegin hstop, ← heq]

/-! ## The writes of a request -/

/-- The blocks of the request, and the parity of their rows. -/
def Written (r : Raid) (bmap : ℕ → ℕ × ℕ) (pmap : ℕ → ℕ) (addr size : ℕ) (p : ℕ × ℕ) : Prop :=
  ∃ b, addr ≤ b ∧ b < addr + size ∧
    (bmap b = p ∨ p.1 = pmap (p.2 / r.chunkSize) ∧ (bmap b).2 = p.2)

theorem doSingleWrite_injective : Function.Injective doSingleWrite := by
  intro p q h
  obtain ⟨hdisk, hoff⟩ := Access.write.inj h
  exact Prod.ext hdisk hoff

theorem mem_writes : doSingleWrite p ∈ (partOf r bmap pmap stripe begin stop).writes ↔
    p ∈ places bmap (pmap stripe) begin stop :=
  List.mem_map_of_injective doSingleWrite_injective

theorem partAt_within (h : Striped r bmap pmap) (hsize : 1 ≤ size)
    (hs : stripe ∈ stripes r addr size) :
    Within r stripe (reached r addr size stripe) (reached r addr size (stripe + 1)) :=
  (split_parts h hsize).within _ (List.mem_map_of_mem hs)

theorem writes_nodup (h : Striped r bmap pmap) (hsize : 1 ≤ size) :
    (((stripes r addr size).map (partAt r bmap pmap addr size)).flatMap Part.writes).Nodup := by
  rw [List.flatMap_map, List.nodup_flatMap]
  constructor
  · intro stripe hs
    exact (h.places_nodup (partAt_within h hsize hs)).map doSingleWrite_injective
  · -- the parts of two stripes write in different rows
    refine (blocks_nodup _ _).pairwise_of_forall_ne fun s hs s' hs' hne => ?_
    intro a ha ha'
    obtain ⟨q, hq, rfl⟩ := List.mem_map.mp ha
    have hq' := mem_writes.mp ha'
    exact hne ((h.stripe_of_mem (partAt_within h hsize hs) hq).symm.trans
      (h.stripe_of_mem (partAt_within h hsize hs') hq'))

/-- A block of the request lies in the range of one of its parts. -/
theorem exists_part (h : Striped r bmap pmap) (hsize : 1 ≤ size) :
    (∃ stripe ∈ stripes r addr size, reached r addr size stripe ≤ b ∧
      b < reached r addr size (stripe + 1)) ↔ addr ≤ b ∧ b < addr + size := by
  have hmem := @mem_blocks addr (addr + size) b
  rw [← (split_parts h hsize).partition, List.flatMap_map, List.mem_flatMap] at hmem
  simp only [mem_blocks] at hmem
  exact hmem

theorem mem_request_writes (h : Striped r bmap pmap) (hsize : 1 ≤ size) :
    doSingleWrite p ∈ ((stripes r addr size).map (partAt r bmap pmap addr size)).flatMap
      Part.writes ↔ Written r bmap pmap addr size p := by
  rw [List.flatMap_map, List.mem_flatMap]
  constructor
  · rintro ⟨stripe, hs, hmem⟩
    have hw := partAt_within h hsize hs
    obtain ⟨b, hbegin, hstop, rfl⟩ | ⟨hdisk, b, hbegin, hstop, hoff⟩ :=
      mem_places.mp (mem_writes.mp hmem)
    · obtain ⟨haddr, hend⟩ := (exists_part h hsize).mp ⟨stripe, hs, hbegin, hstop⟩
      exact ⟨b, haddr, hend, Or.inl rfl⟩
    · obtain ⟨haddr, hend⟩ := (exists_part h hsize).mp ⟨stripe, hs, hbegin, hstop⟩
      refine ⟨b, haddr, hend, Or.inr ⟨?_, hoff⟩⟩
      rw [hdisk, ← hoff, h.stripe_of_within hw hbegin hstop]
  · rintro ⟨b, haddr, hend, hplace⟩
    obtain ⟨stripe, hs, hbegin, hstop⟩ := (exists_part h hsize).mpr ⟨haddr, hend⟩
    refine ⟨stripe, hs, mem_writes.mpr (mem_places.mpr ?_)⟩
    obtain rfl | ⟨hdisk, hoff⟩ := hplace
    · exact Or.inl ⟨b, hbegin, hstop, rfl⟩
    · refine Or.inr ⟨?_, b, hbegin, hstop, hoff⟩
      rw [hdisk, ← hoff, h.stripe_of_within (partAt_within h hsize hs) hbegin hstop]

/-- Of the accesses to a place, the writes are those of the parts. -/
theorem count_write (parts : List Part)
    (h : ∀ part ∈ parts, ∀ a ∈ part.reads, a.isRead = true) :
    (parts.flatMap Part.accesses).count (doSingleWrite p) =
      (parts.flatMap Part.writes).count (doSingleWrite p) := by
  rw [List.count_flatMap, List.count_flatMap]
  refine congrArg List.sum (List.map_congr_left fun part hpart => ?_)
  have hreads : part.reads.count (doSingleWrite p) = 0 :=
    List.count_eq_zero.mpr fun hmem => by cases h part hpart _ hmem
  simp only [Function.comp_apply, Part.accesses, List.count_append, hreads, Nat.zero_add]

/-- Every block of the request and every parity block of its rows is written
once, and nothing else. -/
structure WrittenOnce (r : Raid) (bmap : ℕ → ℕ × ℕ) (pmap : ℕ → ℕ) (addr size : ℕ)
    (accesses : List Access) : Prop where
  once : ∀ p, Written r bmap pmap addr size p → accesses.count (doSingleWrite p) = 1
  nothingElse : ∀ p, ¬ Written r bmap pmap addr size p → accesses.count (doSingleWrite p) = 0

theorem reads_isRead {a : Access} (h : a ∈ (partOf r bmap pmap stripe begin stop).reads) :
    a.isRead = true := by
  obtain ⟨q, -, rfl⟩ := List.mem_map.mp h
  rfl

theorem writtenOnce (h : Striped r bmap pmap) (hsize : 1 ≤ size) :
    WrittenOnce r bmap pmap addr size
      (((stripes r addr size).map (partAt r bmap pmap addr size)).flatMap Part.accesses) := by
  have hcount (p : ℕ × ℕ) := count_write (p := p)
    ((stripes r addr size).map (partAt r bmap pmap addr size)) fun part hpart a ha => by
      obtain ⟨stripe, -, rfl⟩ := List.mem_map.mp hpart
      exact reads_isRead ha
  constructor
  · intro p hp
    rw [hcount]
    exact List.count_eq_one_of_mem (writes_nodup h hsize) ((mem_request_writes h hsize).mpr hp)
  · intro p hp
    rw [hcount]
    exact List.count_eq_zero.mpr fun hmem => hp ((mem_request_writes h hsize).mp hmem)

end OsLabs.FileRaid
