import Mathlib
import OsLabs.FileRaid.Places

/-!
# Parity through the writes

The content of a block is an element of a vector space over the field with two
elements, so that the sum is the bitwise exclusive or. The parity block of a
row is the sum of its data blocks. Every part of a write reads enough to
compute the new parity, so this is kept.
-/

namespace OsLabs.FileRaid

variable {r : Raid} {bmap : ℕ → ℕ × ℕ} {pmap : ℕ → ℕ} {addr size stripe begin stop b off : ℕ}
  {p : ℕ × ℕ} {part : Part} {parts : List Part}

/-! ## Rows -/

/-- The blocks of data in the row at an offset. -/
def rowBlocks (r : Raid) (bmap : ℕ → ℕ × ℕ) (off : ℕ) : Finset ℕ :=
  (blocks (off / r.chunkSize * r.blocksInStripe)
    (off / r.chunkSize * r.blocksInStripe + r.blocksInStripe)).toFinset.filter
      fun b => (bmap b).2 = off

theorem Striped.mem_rowBlocks (h : Striped r bmap pmap) :
    b ∈ rowBlocks r bmap off ↔ (bmap b).2 = off := by
  rw [rowBlocks, Finset.mem_filter, List.mem_toFinset, mem_blocks]
  refine and_iff_right_of_imp fun hoff => ?_
  have hstripe : off / r.chunkSize = b / r.blocksInStripe := by
    rw [← hoff]
    exact h.exact.stripe b
  rw [hstripe]
  exact ⟨Nat.div_mul_le_self .., lt_endOfStripe h le_rfl⟩

/-- The row of the part at an offset. -/
def Part.Touches (part : Part) (bmap : ℕ → ℕ × ℕ) (off : ℕ) : Prop :=
  ∃ b, part.begin ≤ b ∧ b < part.stop ∧ (bmap b).2 = off

/-- The old data of the overwritten blocks of a row and its old parity are
read, or every other block of data of the row. -/
def Part.Suffices (part : Part) (bmap : ℕ → ℕ × ℕ) (pmap : ℕ → ℕ) (off : ℕ) : Prop :=
  (∀ b, (bmap b).2 = off → part.begin ≤ b → b < part.stop → doSingleRead (bmap b) ∈ part.reads) ∧
      doSingleRead (pmap part.stripe, off) ∈ part.reads ∨
    ∀ b, (bmap b).2 = off → ¬ (part.begin ≤ b ∧ b < part.stop) →
      doSingleRead (bmap b) ∈ part.reads

/-- A part of a write as `doPartialWrite` makes it. -/
structure IsPart (r : Raid) (bmap : ℕ → ℕ × ℕ) (pmap : ℕ → ℕ) (part : Part) : Prop where
  eq : part = partOf r bmap pmap part.stripe part.begin part.stop
  within : Within r part.stripe part.begin part.stop

theorem doSingleRead_injective : Function.Injective doSingleRead := by
  intro p q h
  obtain ⟨hdisk, hoff⟩ := Access.read.inj h
  exact Prod.ext hdisk hoff

theorem IsPart.mem_reads (h : IsPart r bmap pmap part) : doSingleRead p ∈ part.reads ↔
    p ∈ if r.choosesSubtractive (part.stop - part.begin)
      then places bmap (pmap part.stripe) part.begin part.stop
      else restOf r bmap part.stripe part.begin part.stop := by
  have heq := congrArg Part.reads h.eq
  rw [heq, partOf]
  exact List.mem_map_of_injective doSingleRead_injective

theorem IsPart.mem_writes (h : IsPart r bmap pmap part) : doSingleWrite p ∈ part.writes ↔
    p ∈ places bmap (pmap part.stripe) part.begin part.stop := by
  have heq := congrArg Part.writes h.eq
  rw [heq]
  exact FileRaid.mem_writes

theorem mem_restOf (hw : Within r stripe begin stop) (hle : begin ≤ stop) :
    p ∈ restOf r bmap stripe begin stop ↔ ∃ b, stripe * r.blocksInStripe ≤ b ∧
      b < stripe * r.blocksInStripe + r.blocksInStripe ∧ ¬ (begin ≤ b ∧ b < stop) ∧
        bmap b = p := by
  rw [restOf, List.mem_map]
  obtain ⟨hbegin, hstop⟩ := hw
  constructor
  · rintro ⟨b, hb, rfl⟩
    rw [List.mem_append, mem_blocks, mem_blocks] at hb
    exact ⟨b, by omega, by omega, by omega, rfl⟩
  · rintro ⟨b, hlow, hhigh, hout, rfl⟩
    refine ⟨b, ?_, rfl⟩
    rw [List.mem_append, mem_blocks, mem_blocks]
    omega

/-- With the subtractive method. -/
theorem IsPart.reads_subtractive (h : IsPart r bmap pmap part)
    (hsub : r.choosesSubtractive (part.stop - part.begin)) (htouch : part.Touches bmap off) :
    (∀ b, (bmap b).2 = off → part.begin ≤ b → b < part.stop →
      doSingleRead (bmap b) ∈ part.reads) ∧
      doSingleRead (pmap part.stripe, off) ∈ part.reads := by
  constructor
  · intro b _ hbegin hstop
    rw [h.mem_reads, if_pos hsub, mem_places]
    exact Or.inl ⟨b, hbegin, hstop, rfl⟩
  · rw [h.mem_reads, if_pos hsub, mem_places]
    exact Or.inr ⟨rfl, htouch⟩

/-- With the additive method. -/
theorem IsPart.reads_additive (h : IsPart r bmap pmap part) (hs : Striped r bmap pmap)
    (hadd : ¬ r.choosesSubtractive (part.stop - part.begin)) (htouch : part.Touches bmap off)
    (hoff : (bmap b).2 = off) (hout : ¬ (part.begin ≤ b ∧ b < part.stop)) :
    doSingleRead (bmap b) ∈ part.reads := by
  obtain ⟨b', hbegin, hstop, hoff'⟩ := htouch
  rw [h.mem_reads, if_neg hadd, mem_restOf h.within (hbegin.trans hstop.le)]
  have hstripe : b / r.blocksInStripe = part.stripe := by
    rw [← hs.exact.stripe, hoff, ← hoff', hs.stripe_of_within h.within hbegin hstop]
  rw [← hstripe]
  exact ⟨b, Nat.div_mul_le_self .., lt_endOfStripe hs le_rfl, hout, rfl⟩

theorem IsPart.reads_suffice (h : IsPart r bmap pmap part) (hs : Striped r bmap pmap)
    (htouch : part.Touches bmap off) : part.Suffices bmap pmap off := by
  by_cases hsub : r.choosesSubtractive (part.stop - part.begin)
  · exact Or.inl (h.reads_subtractive hsub htouch)
  · exact Or.inr fun b hoff hout => h.reads_additive hs hsub htouch hoff hout

/-! ## Contents -/

section Contents

variable {V : Type*} [AddCommGroup V] [Module (ZMod 2) V] {content content' seen : ℕ × ℕ → V}
  {data : ℕ → V}

/-- In every row the parity block is the exclusive or of the data. -/
def Consistent (r : Raid) (bmap : ℕ → ℕ × ℕ) (pmap : ℕ → ℕ) (content : ℕ × ℕ → V) : Prop :=
  ∀ off, content (pmap (off / r.chunkSize), off) = ∑ b ∈ rowBlocks r bmap off, content (bmap b)

/-- The new parity of a row, from what has been read. -/
def newParity (r : Raid) (bmap : ℕ → ℕ × ℕ) (pmap : ℕ → ℕ) (part : Part) (data : ℕ → V)
    (seen : ℕ × ℕ → V) (off : ℕ) : V :=
  if r.choosesSubtractive (part.stop - part.begin) then
    seen (pmap part.stripe, off) +
      ∑ b ∈ rowBlocks r bmap off with part.begin ≤ b ∧ b < part.stop, (seen (bmap b) + data b)
  else ∑ b ∈ rowBlocks r bmap off,
    if part.begin ≤ b ∧ b < part.stop then data b else seen (bmap b)

/-- A part of a write of `data` makes `content'` of `content`. Only the places
read are known when the parity is computed. -/
structure Performs (r : Raid) (bmap : ℕ → ℕ × ℕ) (pmap : ℕ → ℕ) (data : ℕ → V) (part : Part)
    (content content' : ℕ × ℕ → V) : Prop where
  blocks : ∀ b, part.begin ≤ b → b < part.stop → content' (bmap b) = data b
  parity : ∃ seen : ℕ × ℕ → V, (∀ p, doSingleRead p ∈ part.reads → seen p = content p) ∧
    ∀ off, part.Touches bmap off →
      content' (pmap part.stripe, off) = newParity r bmap pmap part data seen off
  others : ∀ p, doSingleWrite p ∉ part.writes → content' p = content p

/-- The parts of a request one after the other. -/
def PerformsAll (r : Raid) (bmap : ℕ → ℕ × ℕ) (pmap : ℕ → ℕ) (data : ℕ → V) :
    List Part → (ℕ × ℕ → V) → (ℕ × ℕ → V) → Prop
  | [], content, content' => content' = content
  | part :: parts, content, content' => ∃ between,
      Performs r bmap pmap data part content between ∧
        PerformsAll r bmap pmap data parts between content'

/-- Adding old and new to the sum of the old is the sum with the new in place. -/
theorem sum_overwrite (s : Finset ℕ) (q : ℕ → Prop) [DecidablePred q] (old new : ℕ → V) :
    ∑ b ∈ s, old b + ∑ b ∈ s with q b, (old b + new b) =
      ∑ b ∈ s, if q b then new b else old b := by
  rw [Finset.sum_filter, ← Finset.sum_add_distrib]
  refine Finset.sum_congr rfl fun b _ => ?_
  split
  · rw [← add_assoc, ZModModule.add_self, zero_add]
  · rw [add_zero]

/-- The parity computed is that of the row after the write. -/
theorem IsPart.newParity_eq (h : IsPart r bmap pmap part) (hs : Striped r bmap pmap)
    (hc : Consistent r bmap pmap content)
    (hseen : ∀ p, doSingleRead p ∈ part.reads → seen p = content p)
    (htouch : part.Touches bmap off) : newParity r bmap pmap part data seen off =
      ∑ b ∈ rowBlocks r bmap off,
        if part.begin ≤ b ∧ b < part.stop then data b else content (bmap b) := by
  rw [newParity]
  split
  · next hsub =>
      obtain ⟨hold, hparity⟩ := h.reads_subtractive hsub htouch
      obtain ⟨b, hbegin, hstop, hoff⟩ := htouch
      have hstripe := hs.stripe_of_within h.within hbegin hstop
      rw [hoff] at hstripe
      rw [hseen _ hparity, ← hstripe, hc off, ← sum_overwrite]
      congr 1
      refine Finset.sum_congr rfl fun b hb => ?_
      obtain ⟨hrow, hbegin, hstop⟩ := Finset.mem_filter.mp hb
      rw [hseen _ (hold b (hs.mem_rowBlocks.mp hrow) hbegin hstop)]
  · next hadd =>
      refine Finset.sum_congr rfl fun b hb => ?_
      split
      · rfl
      · next hout => exact hseen _ (h.reads_additive hs hadd htouch (hs.mem_rowBlocks.mp hb) hout)

omit [Module (ZMod 2) V] in
/-- A part changes a block of data exactly in its range. -/
theorem Performs.content_block (hp : Performs r bmap pmap data part content content')
    (h : IsPart r bmap pmap part) (hs : Striped r bmap pmap) (b : ℕ) :
    content' (bmap b) =
      if part.begin ≤ b ∧ b < part.stop then data b else content (bmap b) := by
  split
  · next hin => exact hp.blocks b hin.1 hin.2
  · next hout =>
      refine hp.others _ fun hmem => ?_
      obtain ⟨b', hbegin, hstop, heq⟩ | ⟨hdisk, b', hbegin, hstop, hoff⟩ :=
        mem_places.mp (h.mem_writes.mp hmem)
      · exact hout (hs.exact.injective heq ▸ ⟨hbegin, hstop⟩)
      · refine hs.not_parity b ?_
        rw [hdisk, ← hoff, hs.stripe_of_within h.within hbegin hstop]

theorem Performs.consistent (hp : Performs r bmap pmap data part content content')
    (h : IsPart r bmap pmap part) (hs : Striped r bmap pmap)
    (hc : Consistent r bmap pmap content) : Consistent r bmap pmap content' := by
  intro off
  simp only [hp.content_block h hs]
  by_cases htouch : part.Touches bmap off
  · obtain ⟨seen, hseen, hparity⟩ := hp.parity
    rw [← h.newParity_eq hs hc hseen htouch, ← hparity off htouch]
    obtain ⟨b, hbegin, hstop, hoff⟩ := htouch
    rw [← hoff, hs.stripe_of_within h.within hbegin hstop]
  · -- the row is left as it is
    have hparity : content' (pmap (off / r.chunkSize), off) =
        content (pmap (off / r.chunkSize), off) := by
      refine hp.others _ fun hmem => ?_
      obtain ⟨b, hbegin, hstop, heq⟩ | ⟨-, b, hbegin, hstop, hoff⟩ :=
        mem_places.mp (h.mem_writes.mp hmem)
      · exact htouch ⟨b, hbegin, hstop, by rw [heq]⟩
      · exact htouch ⟨b, hbegin, hstop, hoff⟩
    rw [hparity, hc off]
    refine Finset.sum_congr rfl fun b hb => ?_
    rw [if_neg fun hin => htouch ⟨b, hin.1, hin.2, hs.mem_rowBlocks.mp hb⟩]

omit [Module (ZMod 2) V] in
/-- A part can be performed on any content. -/
theorem IsPart.exists_performs (h : IsPart r bmap pmap part) (hs : Striped r bmap pmap)
    (data : ℕ → V) (content : ℕ × ℕ → V) :
    ∃ content', Performs r bmap pmap data part content content' := by
  classical
  let content' (p : ℕ × ℕ) : V :=
    if hdata : ∃ b, part.begin ≤ b ∧ b < part.stop ∧ bmap b = p then data hdata.choose
    else if doSingleWrite p ∈ part.writes then newParity r bmap pmap part data content p.2
    else content p
  refine ⟨content', ?_, ⟨content, fun _ _ => rfl, ?_⟩, ?_⟩
  · intro b hbegin hstop
    have hdata : ∃ b', part.begin ≤ b' ∧ b' < part.stop ∧ bmap b' = bmap b :=
      ⟨b, hbegin, hstop, rfl⟩
    refine (dif_pos hdata).trans (congrArg data ?_)
    exact hs.exact.injective hdata.choose_spec.2.2
  · intro off htouch
    have hnot : ¬ ∃ b, part.begin ≤ b ∧ b < part.stop ∧ bmap b = (pmap part.stripe, off) := by
      rintro ⟨b, hbegin, hstop, heq⟩
      refine hs.not_parity b ?_
      rw [hs.stripe_of_within h.within hbegin hstop, heq]
    have hmem : doSingleWrite (pmap part.stripe, off) ∈ part.writes :=
      h.mem_writes.mpr (mem_places.mpr (Or.inr ⟨rfl, htouch⟩))
    exact (dif_neg hnot).trans (if_pos hmem)
  · intro p hp
    have hnot : ¬ ∃ b, part.begin ≤ b ∧ b < part.stop ∧ bmap b = p := fun hb =>
      hp (h.mem_writes.mpr (mem_places.mpr (Or.inl hb)))
    exact (dif_neg hnot).trans (if_neg hp)

omit [Module (ZMod 2) V] in
theorem exists_performsAll (hs : Striped r bmap pmap)
    (hparts : ∀ part ∈ parts, IsPart r bmap pmap part) (data : ℕ → V) (content : ℕ × ℕ → V) :
    ∃ content', PerformsAll r bmap pmap data parts content content' := by
  induction parts generalizing content with
  | nil => exact ⟨content, rfl⟩
  | cons part parts ih =>
      obtain ⟨between, hp⟩ := (hparts part (List.mem_cons_self ..)).exists_performs hs data content
      obtain ⟨content', hall⟩ := ih (fun p hp => hparts p (List.mem_cons_of_mem _ hp)) between
      exact ⟨content', between, hp, hall⟩

/-- The parts keep the parity, and change the blocks of their ranges only. -/
theorem PerformsAll.spec (hall : PerformsAll r bmap pmap data parts content content')
    (hs : Striped r bmap pmap) (hparts : ∀ part ∈ parts, IsPart r bmap pmap part)
    (hc : Consistent r bmap pmap content) : Consistent r bmap pmap content' ∧
      ∀ b, content' (bmap b) =
        if b ∈ parts.flatMap fun part => blocks part.begin part.stop then data b
        else content (bmap b) := by
  induction parts generalizing content with
  | nil =>
      obtain rfl : content' = content := hall
      exact ⟨hc, fun b => rfl⟩
  | cons part parts ih =>
      obtain ⟨between, hp, hall⟩ := hall
      have hpart := hparts part (List.mem_cons_self ..)
      obtain ⟨hc', hblocks⟩ := ih hall (fun p hp => hparts p (List.mem_cons_of_mem _ hp))
        (hp.consistent hpart hs hc)
      refine ⟨hc', fun b => ?_⟩
      rw [hblocks b, hp.content_block hpart hs b, List.flatMap_cons]
      simp only [List.mem_append, mem_blocks]
      by_cases hin : part.begin ≤ b ∧ b < part.stop
      · simp only [hin, and_self, true_or, if_true, ite_self]
      · simp only [hin, false_or, if_false]

end Contents

/-! ## Write requests -/

/-- What a write request comes down to. -/
structure WriteCorrect (r : Raid) (bmap : ℕ → ℕ × ℕ) (pmap : ℕ → ℕ) (addr size : ℕ)
    (parts : List Part) : Prop where
  split : Split r addr size parts
  written : WrittenOnce r bmap pmap addr size (parts.flatMap Part.accesses)
  enough : ∀ part ∈ parts, ∀ off, part.Touches bmap off → part.Suffices bmap pmap off

theorem IsPart.disk_lt (h : IsPart r bmap pmap part) (hs : Striped r bmap pmap) {a : Access}
    (ha : a ∈ part.accesses) : a.place.1 < r.numDisks := by
  have hplaces {p : ℕ × ℕ} (hp : p ∈ places bmap (pmap part.stripe) part.begin part.stop) :
      p.1 < r.numDisks := by
    obtain ⟨b, -, -, rfl⟩ | ⟨hdisk, -⟩ := mem_places.mp hp
    · exact hs.exact.disk_lt b
    · rw [hdisk]
      exact hs.parity_lt part.stripe
  rw [h.eq, Part.accesses, partOf, List.mem_append, List.mem_map, List.mem_map] at ha
  obtain ⟨p, hp, rfl⟩ | ⟨p, hp, rfl⟩ := ha
  · split at hp
    · exact hplaces hp
    · obtain ⟨b, -, rfl⟩ := List.mem_map.mp hp
      exact hs.exact.disk_lt b
  · exact hplaces hp

/-- The parity of every row is kept, whatever is written. -/
def KeepsParity (V : Type*) [AddCommGroup V] (r : Raid) (bmap : ℕ → ℕ × ℕ) (pmap : ℕ → ℕ)
    (addr size : ℕ) (parts : List Part) : Prop :=
  ∀ (data : ℕ → V) (content : ℕ × ℕ → V), Consistent r bmap pmap content →
    (∃ content', PerformsAll r bmap pmap data parts content content') ∧
      ∀ content', PerformsAll r bmap pmap data parts content content' →
        Consistent r bmap pmap content' ∧ ∀ b, content' (bmap b) =
          if addr ≤ b ∧ b < addr + size then data b else content (bmap b)

/-- A write request is split at the stripes, writes every block and the parity
of its rows once, and reads enough to keep the parity. It goes through unless a
disk is asked for a block it does not have. -/
theorem enqueue45_write {V : Type*} [AddCommGroup V] [Module (ZMod 2) V] (r : Raid)
    (hlevel : r.level.HasParity) (addr size : ℕ) (hsize : 1 ≤ size) :
    ∃ bmap pmap parts, r.maps = some (fun b => some (bmap b), fun s => some (pmap s)) ∧
      r.writeParts addr size = some parts ∧ WriteCorrect r bmap pmap addr size parts ∧
      KeepsParity V r bmap pmap addr size parts ∧
      r.enqueue45 addr size true =
        if ∀ a ∈ parts.flatMap Part.accesses, a.place.2 < Raid.blocksPerDisk
          then some (parts.flatMap Part.accesses) else none := by
  obtain ⟨bmap, pmap, hs⟩ := exists_striped hlevel
  have hparts : ∀ part ∈ (stripes r addr size).map (partAt r bmap pmap addr size),
      IsPart r bmap pmap part := by
    intro part hpart
    obtain ⟨stripe, hstripe, rfl⟩ := List.mem_map.mp hpart
    exact ⟨rfl, partAt_within hs hsize hstripe⟩
  refine ⟨bmap, pmap, _, hs.maps, writeParts_eq hs hsize,
    ⟨split_parts hs hsize, writtenOnce hs hsize, fun part hpart off =>
      (hparts part hpart).reads_suffice hs⟩, fun data content hc => ?_, ?_⟩
  · refine ⟨exists_performsAll hs hparts data content, fun content' hall => ?_⟩
    obtain ⟨hc', hblocks⟩ := hall.spec hs hparts hc
    refine ⟨hc', fun b => ?_⟩
    rw [hblocks b, (split_parts hs hsize).partition]
    simp only [mem_blocks]
  · have haccepts : (∀ a ∈ ((stripes r addr size).map (partAt r bmap pmap addr size)).flatMap
        Part.accesses, r.diskAccepts a) ↔ ∀ a ∈ ((stripes r addr size).map
          (partAt r bmap pmap addr size)).flatMap Part.accesses,
            a.place.2 < Raid.blocksPerDisk := by
      refine forall₂_congr fun a ha => and_iff_right ?_
      obtain ⟨part, hpart, ha⟩ := List.mem_flatMap.mp ha
      exact (hparts part hpart).disk_lt hs ha
    rw [Raid.enqueue45, Raid.requests45, if_neg Bool.noConfusion, writeParts_eq hs hsize]
    exact if_congr haccepts rfl rfl

/-- Four disks with chunks of one block. -/
def fourDisks : Raid := ⟨1, 4, .raid4, Nat.le_refl 1, Nat.le_add_left 2 2⟩

theorem enqueue45_write_two : ∃ bmap pmap parts,
    fourDisks.maps = some (fun b => some (bmap b), fun s => some (pmap s)) ∧
      fourDisks.writeParts 2 2 = some parts ∧ WriteCorrect fourDisks bmap pmap 2 2 parts ∧
      KeepsParity (Fin 8 → ZMod 2) fourDisks bmap pmap 2 2 parts ∧
      fourDisks.enqueue45 2 2 true =
        if ∀ a ∈ parts.flatMap Part.accesses, a.place.2 < Raid.blocksPerDisk
          then some (parts.flatMap Part.accesses) else none :=
  enqueue45_write fourDisks (Or.inl rfl) 2 2 (by decide)

/-- The last block of the disks is 29999. -/
theorem enqueue45_beyond_disks : fourDisks.enqueue45 30000 1 true = none := by
  decide

end OsLabs.FileRaid
