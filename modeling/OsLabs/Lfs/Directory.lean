import Mathlib
import OsLabs.Lfs.Log

/-!
# Directories in the log

A directory is read through the pointers of its inode as one list of slots. A
lookup and the search for a slot agree on it, and adding or removing an entry
changes one slot of it or adds a block.
-/

namespace OsLabs.Lfs

/-! ## The slots of a directory -/

def slotsAt (disk : List Block) (address : ℕ) : List Slot :=
  match disk[address]? with
  | some (.dir entries) => entries
  | _ => []

def slotsOf (disk : List Block) (addrs : List ℕ) : List Slot := addrs.flatMap (slotsAt disk)

variable {disk disk' : List Block} {i : Inode} {addrs : List ℕ} {name : Path} {n : ℕ}

theorem slotsAt_dir {a : ℕ} {entries : List Slot} (h : disk[a]? = some (.dir entries)) :
    slotsAt disk a = entries := by
  rw [slotsAt, h]

theorem slotsOf_append (disk : List Block) (before after : List ℕ) :
    slotsOf disk (before ++ after) = slotsOf disk before ++ slotsOf disk after :=
  List.flatMap_append

theorem slotsOf_cons (disk : List Block) (a : ℕ) (after : List ℕ) :
    slotsOf disk (a :: after) = slotsAt disk a ++ slotsOf disk after :=
  List.flatMap_cons

theorem slotsOf_kept (h : Kept disk disk')
    (hblocks : ∀ a ∈ addrs, ∃ entries, disk[a]? = some (.dir entries)) :
    slotsOf disk' addrs = slotsOf disk addrs := by
  refine List.flatMap_congr fun a ha => ?_
  obtain ⟨entries, hentries⟩ := hblocks a ha
  rw [slotsAt_dir hentries, slotsAt_dir (h.dir hentries)]

theorem lookupFrom_none (disk : List Block) (name : Path) (k : ℕ) :
    lookupFrom disk name (List.replicate k none) = some none := by
  induction k with
  | zero => rfl
  | succ k ih => exact ih

theorem lookupFrom_eq (hblocks : ∀ a ∈ addrs, ∃ entries, disk[a]? = some (.dir entries)) (k : ℕ) :
    lookupFrom disk name (addrs.map some ++ List.replicate k none) =
      some (((slotsOf disk addrs).find? fun e => e.1 = name).bind Prod.snd) := by
  induction addrs with
  | nil => exact lookupFrom_none disk name k
  | cons a addrs ih =>
      obtain ⟨entries, hentries⟩ := hblocks a (List.mem_cons_self ..)
      have hrest := ih fun a ha => hblocks a (List.mem_cons_of_mem _ ha)
      rw [List.map_cons, List.cons_append, lookupFrom, slotsOf_cons, slotsAt_dir hentries,
        List.find?_append]
      cases hfind : entries.find? fun e => e.1 = name with
      | some e => simp only [hentries, hfind, Option.some_or, Option.bind_some]
      | none => simp only [hentries, hfind, Option.none_or, hrest]

theorem DirInode.lookupFrom (hi : DirInode disk i addrs) :
    lookupFrom disk name i.pointers =
      some (((slotsOf disk addrs).find? fun e => e.1 = name).bind Prod.snd) := by
  rw [hi.pointers]
  exact lookupFrom_eq hi.blocks _

/-! ## Finding a slot -/

theorem DirInode.pointer (hi : DirInode disk i addrs) {before after : List ℕ} {a : ℕ}
    (haddrs : addrs = before ++ a :: after) :
    readDirblock disk i before.length = disk[a]? := by
  rw [readDirblock, hi.pointers, haddrs]
  simp [blockAt]

/-- The first slot with a name. -/
structure FirstSlot (name : Path) (slots pre : List Slot) (e : Slot) (post : List Slot) :
    Prop where
  splits : slots = pre ++ e :: post
  named : e.1 = name
  first : ∀ x ∈ pre, x.1 ≠ name

/-- The first slot with a name, as a place in the list of slots. -/
structure FoundSlot (disk : List Block) (name : Path) (addrs : List ℕ) (index slot : ℕ)
    (before : List ℕ) (a : ℕ) (after : List ℕ) (pre : List Slot) (e : Slot) (post : List Slot) :
    Prop where
  splits : addrs = before ++ a :: after
  indexEq : index = before.length
  block : disk[a]? = some (.dir (pre ++ e :: post))
  slotEq : slot = pre.length
  named : e.1 = name
  first : ∀ x ∈ slotsOf disk before ++ pre, x.1 ≠ name

theorem findIdx?_split {α : Type*} {p : α → Bool} {l : List α} {k : ℕ}
    (h : l.findIdx? p = some k) :
    ∃ pre x post, l = pre ++ x :: post ∧ k = pre.length ∧ p x = true ∧ ∀ y ∈ pre, p y = false := by
  induction l generalizing k with
  | nil => cases h
  | cons y l ih =>
      rw [List.findIdx?_cons] at h
      split at h
      · next hy =>
          obtain rfl := Option.some.inj h
          exact ⟨[], y, l, rfl, rfl, hy, fun _ hz => absurd hz List.not_mem_nil⟩
      · next hy =>
          obtain ⟨k', hk', rfl⟩ := Option.map_eq_some_iff.mp h
          obtain ⟨pre, x, post, rfl, rfl, hx, hpre⟩ := ih hk'
          refine ⟨y :: pre, x, post, rfl, rfl, hx, fun z hz => ?_⟩
          rcases List.mem_cons.mp hz with rfl | hz
          · exact Bool.eq_false_iff.mpr hy
          · exact hpre z hz

theorem findSlotFrom_spec (hi : DirInode disk i addrs) (name : Path) (before after : List ℕ)
    (haddrs : addrs = before ++ after) (hbefore : ∀ x ∈ slotsOf disk before, x.1 ≠ name) :
    (findSlotFrom disk name i (List.range' before.length after.length) = some none ∧
      ∀ x ∈ slotsOf disk addrs, x.1 ≠ name) ∨
    ∃ index slot before' a after' pre e post,
      findSlotFrom disk name i (List.range' before.length after.length) =
        some (some (index, slot)) ∧
      FoundSlot disk name addrs index slot before' a after' pre e post := by
  induction after generalizing before with
  | nil =>
      rw [List.append_nil] at haddrs
      exact Or.inl ⟨rfl, haddrs ▸ hbefore⟩
  | cons a after ih =>
      obtain ⟨entries, hentries⟩ := hi.blocks a (haddrs ▸ by simp)
      have hread := (hi.pointer haddrs).trans hentries
      rw [List.length_cons, List.range'_succ, findSlotFrom]
      cases hidx : entries.findIdx? fun e => e.1 = name with
      | some k =>
          simp only [hread, hidx]
          obtain ⟨pre, e, post, rfl, rfl, he, hpre⟩ := findIdx?_split hidx
          refine Or.inr ⟨_, _, before, a, after, pre, e, post, rfl, haddrs, rfl, hentries, rfl,
            by simpa using he, fun x hx => ?_⟩
          rcases List.mem_append.mp hx with hx | hx
          · exact hbefore x hx
          · simpa using hpre x hx
      | none =>
          simp only [hread, hidx]
          have hbefore' : ∀ x ∈ slotsOf disk (before ++ [a]), x.1 ≠ name := by
            intro x hx
            rw [slotsOf_append, List.mem_append] at hx
            rcases hx with hx | hx
            · exact hbefore x hx
            · rw [slotsOf_cons, slotsAt_dir hentries, slotsOf, List.flatMap_nil,
                List.append_nil] at hx
              simpa using List.findIdx?_eq_none_iff.mp hidx x hx
          have hrest := ih (before ++ [a]) (by rw [haddrs, List.append_assoc]; rfl) hbefore'
          rw [List.length_append, List.length_singleton] at hrest
          exact hrest

theorem findMatchingDirSlot_spec (hi : DirInode disk i addrs) (name : Path) :
    (findMatchingDirSlot disk name i = some none ∧ ∀ x ∈ slotsOf disk addrs, x.1 ≠ name) ∨
    ∃ index slot before a after pre e post,
      findMatchingDirSlot disk name i = some (some (index, slot)) ∧
      FoundSlot disk name addrs index slot before a after pre e post := by
  rw [findMatchingDirSlot, hi.size, List.range_eq_range']
  exact findSlotFrom_spec hi name [] addrs rfl fun x hx => absurd hx List.not_mem_nil

/-! ## New versions of a directory -/

/-- Wherever the block is logged, the inode that points to it is that of a
directory with the slots `slots`. -/
def Edited (disk : List Block) (i : Inode) (index size : ℕ) (block slots : List Slot) : Prop :=
  ∀ (disk' : List Block) (address : ℕ) (refs : ℤ), Kept disk disk' →
    disk'[address]? = some (.dir block) → ∃ addrs',
      DirInode disk' { i with size, refs, pointers := i.pointers.set index (some address) } addrs' ∧
      slotsOf disk' addrs' = slots

theorem FoundSlot.slots {index slot a : ℕ} {before after : List ℕ} {pre post : List Slot}
    {e : Slot} (h : FoundSlot disk name addrs index slot before a after pre e post) :
    slotsOf disk addrs =
      (slotsOf disk before ++ pre) ++ e :: (post ++ slotsOf disk after) := by
  rw [h.splits, slotsOf_append, slotsOf_cons, slotsAt_dir h.block]
  simp

theorem FoundSlot.firstSlot {index slot a : ℕ} {before after : List ℕ} {pre post : List Slot}
    {e : Slot} (h : FoundSlot disk name addrs index slot before a after pre e post) :
    FirstSlot name (slotsOf disk addrs) (slotsOf disk before ++ pre) e
      (post ++ slotsOf disk after) :=
  ⟨h.slots, h.named, h.first⟩

theorem FoundSlot.edited {index slot a : ℕ} {before after : List ℕ} {pre post : List Slot}
    {e : Slot} (h : FoundSlot disk name addrs index slot before a after pre e post)
    (hi : DirInode disk i addrs) (x : Slot) :
    Edited disk i index i.size (pre ++ x :: post)
      ((slotsOf disk before ++ pre) ++ x :: (post ++ slotsOf disk after)) := by
  intro disk' address refs hkept hblock
  have hmem (b : ℕ) (hb : b ∈ before ∨ b ∈ after) : b ∈ addrs := by
    rw [h.splits]
    rcases hb with hb | hb <;> simp [hb]
  have hlen : (before ++ address :: after).length = addrs.length := by simp [h.splits]
  refine ⟨before ++ address :: after, ⟨hi.type, ?_, ?_, ?_, ?_⟩, ?_⟩
  · rw [hlen, hi.pointers, h.indexEq, h.splits]
    simp
  · rw [hlen]
    exact hi.size
  · rw [hlen]
    exact hi.le
  · intro b hb
    rcases List.mem_append.mp hb with hb | hb
    · exact (hi.kept hkept).blocks b (hmem b (Or.inl hb))
    · rcases List.mem_cons.mp hb with rfl | hb
      · exact ⟨_, hblock⟩
      · exact (hi.kept hkept).blocks b (hmem b (Or.inr hb))
  · rw [slotsOf_append, slotsOf_cons, slotsAt_dir hblock,
      slotsOf_kept hkept fun b hb => hi.blocks b (hmem b (Or.inl hb)),
      slotsOf_kept hkept fun b hb => hi.blocks b (hmem b (Or.inr hb))]
    simp

theorem edited_grow (hi : DirInode disk i addrs) (hroom : addrs.length ≠ numInodePtrs)
    (block : List Slot) :
    Edited disk i i.size (i.size + 1) block (slotsOf disk addrs ++ block) := by
  intro disk' address refs hkept hblock
  have hlt : addrs.length < numInodePtrs := lt_of_le_of_ne hi.le hroom
  refine ⟨addrs ++ [address], ⟨hi.type, ?_, ?_, ?_, ?_⟩, ?_⟩
  · have hsucc : numInodePtrs - addrs.length = numInodePtrs - (addrs.length + 1) + 1 := by omega
    rw [hi.pointers, hi.size, hsucc, List.replicate_succ, List.set_append_right _ _ (by simp)]
    simp
  · rw [List.length_append, List.length_singleton, hi.size]
  · rw [List.length_append, List.length_singleton]
    exact hlt
  · intro b hb
    rcases List.mem_append.mp hb with hb | hb
    · exact (hi.kept hkept).blocks b hb
    · rw [List.mem_singleton.mp hb]
      exact ⟨_, hblock⟩
  · rw [slotsOf_append, slotsOf_kept hkept hi.blocks, slotsOf_cons, slotsAt_dir hblock]
    simp [slotsOf]

/-- The slots of a directory before and after it gets the entry `x`. -/
def Inserted (x : Slot) (slots slots' : List Slot) : Prop :=
  (∃ pre e post, FirstSlot ['-'] slots pre e post ∧ slots' = pre ++ x :: post) ∨
    (∀ e ∈ slots, e.1 ≠ ['-']) ∧ slots' = slots ++ x :: List.replicate 7 noEntry

theorem SlotsOk.replace {pre post : List Slot} {e x : Slot} (h : SlotsOk (pre ++ e :: post))
    (hx : ∀ n, x.2 = some n → n < numInodes) : SlotsOk (pre ++ x :: post) := by
  intro y hy m hm
  rcases List.mem_append.mp hy with hy | hy
  · exact h y (List.mem_append_left _ hy) m hm
  · rcases List.mem_cons.mp hy with rfl | hy
    · exact hx m hm
    · exact h y (List.mem_append_right _ (List.mem_cons_of_mem _ hy)) m hm

theorem slotsOk_first {name : Path} (hn : n < numInodes) :
    SlotsOk ((name, some n) :: List.replicate 7 noEntry) := by
  intro y hy m hm
  rcases List.mem_cons.mp hy with rfl | hy
  · rwa [← Option.some.inj hm]
  · rw [List.eq_of_mem_replicate hy] at hm
    cases hm

theorem addDirEntry_spec (hi : DirInode disk i addrs)
    (hslots : ∀ (a : ℕ) (entries : List Slot), disk[a]? = some (.dir entries) → SlotsOk entries)
    (name : Path)
    (hn : n < numInodes) : addDirEntry disk i name n = some none ∨
      ∃ index size block slots, addDirEntry disk i name n = some (some (index, size, block)) ∧
        SlotsOk block ∧ Edited disk i index size block slots ∧
        Inserted (name, some n) (slotsOf disk addrs) slots := by
  obtain ⟨hfind, hnone⟩ | ⟨index, slot, before, a, after, pre, e, post, hfind, hfound⟩ :=
    findMatchingDirSlot_spec hi ['-']
  · rw [addDirEntry, hfind]
    simp only [Option.bind_eq_bind, Option.bind_some]
    split
    · next hroom =>
        exact Or.inr ⟨_, _, _, _, rfl, slotsOk_first hn,
          edited_grow hi (hi.size ▸ hroom) _, Or.inr ⟨hnone, rfl⟩⟩
    · exact Or.inl rfl
  · have hread : readDirblock disk i index = some (.dir (pre ++ e :: post)) := by
      rw [hfound.indexEq, hi.pointer hfound.splits, hfound.block]
    have hset : (pre ++ e :: post).set slot (name, some n) = pre ++ (name, some n) :: post := by
      rw [hfound.slotEq]
      simp
    refine Or.inr ⟨index, i.size, pre ++ (name, some n) :: post, _, ?_,
      (hslots a _ hfound.block).replace fun m hm => Option.some.inj hm ▸ hn,
      hfound.edited hi _, Or.inl ⟨_, e, _, hfound.firstSlot, rfl⟩⟩
    rw [addDirEntry, hfind]
    simp only [Option.bind_eq_bind, Option.bind_some, hread, hset]
    rfl

/-- The slot of an entry that a lookup has found is found again. -/
theorem removeEntry_spec (hi : DirInode disk i addrs)
    (hlookup : ((slotsOf disk addrs).find? fun e => e.1 = name).bind Prod.snd = some n) :
    ∃ index slot entries pre post,
      findMatchingDirSlot disk name i = some (some (index, slot)) ∧
      readDirblock disk i index = some (.dir entries) ∧
      (SlotsOk entries → SlotsOk (entries.set slot noEntry)) ∧
      Edited disk i index i.size (entries.set slot noEntry) (pre ++ noEntry :: post) ∧
      FirstSlot name (slotsOf disk addrs) pre (name, some n) post := by
  rcases findMatchingDirSlot_spec hi name with ⟨-, hnone⟩ | ⟨index, slot, before, a, after, pre, e,
    post, hfind, hfound⟩
  · have : (slotsOf disk addrs).find? (fun e => e.1 = name) = none :=
      List.find?_eq_none.mpr fun x hx => by simpa using hnone x hx
    rw [this] at hlookup
    cases hlookup
  · have hread : readDirblock disk i index = some (.dir (pre ++ e :: post)) := by
      rw [hfound.indexEq, hi.pointer hfound.splits, hfound.block]
    have hset : (pre ++ e :: post).set slot noEntry = pre ++ noEntry :: post := by
      rw [hfound.slotEq]
      simp
    have he : e = (name, some n) := by
      have hfirst : (slotsOf disk before ++ pre).find? (fun e => e.1 = name) = none :=
        List.find?_eq_none.mpr fun x hx => by simpa using hfound.first x hx
      rw [hfound.slots, List.find?_append, hfirst, Option.none_or,
        List.find?_cons_of_pos (by simp [hfound.named]), Option.bind_some] at hlookup
      exact Prod.ext hfound.named hlookup
    refine ⟨index, slot, _, _, _, hfind, hread, ?_, ?_, he ▸ hfound.firstSlot⟩
    · rw [hset]
      exact fun h => h.replace nofun
    · rw [hset]
      exact hfound.edited hi _

end OsLabs.Lfs
