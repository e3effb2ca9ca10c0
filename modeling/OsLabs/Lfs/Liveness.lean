import Mathlib
import OsLabs.Lib.Transition
import OsLabs.Lfs.Changes

/-!
# Live blocks

`determine_liveness` marks the blocks that `dump` shows as live. A cleaner may
write over all the others: no later call reads them when the imap is read from
memory, and none of them is ever live again.
-/

namespace OsLabs.Lfs

open Transition

/-! ## Marking -/

/-- `live[ptr] = True` for each pointer; the entry for `-1` belongs to no block. -/
def markLive (live : ℕ → Bool) : List (Option ℕ) → ℕ → Bool
  | [] => live
  | none :: ptrs => markLive live ptrs
  | some ptr :: ptrs => markLive (Function.update live ptr true) ptrs

/-- The blocks that the inodes at some addresses point to. -/
def markInodes (disk : List Block) (live : ℕ → Bool) : List ℕ → Option (ℕ → Bool)
  | [] => some live
  | address :: addresses =>
      match disk[address]? with
      | some (.inode inode) => markInodes disk (markLive live inode.pointers) addresses
      | _ => none

def determineLiveness (s : LFS) : Option (ℕ → Bool) :=
  let live := Function.update (fun _ => false) addrCheckpointBlock true
  let live := markLive live s.cr
  let inodes := (List.range numInodes).map s.inodeMap
  markInodes s.disk (markLive live inodes) (inodes.filterMap id)

/-- The block belongs to the checkpoint region, the imap or a file in use. -/
inductive Live (s : LFS) : ℕ → Prop
  | checkpoint : Live s addrCheckpointBlock
  | imap {a : ℕ} (h : some a ∈ s.cr) : Live s a
  | inode {a : ℕ} (n : ℕ) (h : s.inodeMap n = some a) : Live s a
  | pointer {a : ℕ} (n : ℕ) (i : Inode) (hi : inodeOf s n = some i) (h : some a ∈ i.pointers) :
      Live s a

variable {live : ℕ → Bool} {disk : List Block} {s t : LFS}

theorem markLive_eq_true (ptrs : List (Option ℕ)) (a : ℕ) :
    markLive live ptrs a = true ↔ live a = true ∨ some a ∈ ptrs := by
  induction ptrs generalizing live with
  | nil => simp [markLive]
  | cons ptr ptrs ih =>
      cases ptr with
      | none => simp [markLive, ih]
      | some b =>
          rw [markLive, ih, Function.update_apply, List.mem_cons, Option.some.injEq]
          by_cases hab : a = b
          · simp [hab]
          · simp [hab]

theorem markInodes_spec (live : ℕ → Bool) (addresses : List ℕ)
    (hinode : ∀ address ∈ addresses, ∃ i, disk[address]? = some (.inode i)) :
    ∃ live', markInodes disk live addresses = some live' ∧ ∀ a, live' a = true ↔
      live a = true ∨ ∃ address ∈ addresses, ∃ i : Inode,
        disk[address]? = some (.inode i) ∧ some a ∈ i.pointers := by
  induction addresses generalizing live with
  | nil => exact ⟨live, rfl, fun a => by simp⟩
  | cons address addresses ih =>
      rcases hinode address List.mem_cons_self with ⟨i, hi⟩
      have hrest : ∀ b ∈ addresses, ∃ i, disk[b]? = some (.inode i) :=
        fun b hb => hinode b (List.mem_cons_of_mem _ hb)
      rcases ih (markLive live i.pointers) hrest with ⟨live', hlive', hmarked⟩
      refine ⟨live', ?_, fun a => ?_⟩
      · rw [markInodes, hi]
        exact hlive'
      · rw [hmarked, markLive_eq_true, or_assoc]
        simp [hi]

theorem Mapped.determineLiveness (h : Mapped s) :
    ∃ live, determineLiveness s = some live ∧ ∀ a, live a = true ↔ Live s a := by
  have hmapped (a : ℕ) : some a ∈ (List.range numInodes).map s.inodeMap ↔
      ∃ n, s.inodeMap n = some a := by
    rw [List.mem_map]
    constructor
    · rintro ⟨n, -, hn⟩
      exact ⟨n, hn⟩
    · rintro ⟨n, hn⟩
      refine ⟨n, List.mem_range.mpr (h n ?_).1, hn⟩
      rw [hn]
      exact Option.some_ne_none a
  have hinode : ∀ address ∈ ((List.range numInodes).map s.inodeMap).filterMap id,
      ∃ i, s.disk[address]? = some (.inode i) := by
    intro address haddress
    rcases (hmapped address).mp (by simpa using haddress) with ⟨n, hn⟩
    rcases (h n (by rw [hn]; exact Option.some_ne_none _)).2 with ⟨i, hi⟩
    rcases inodeAt_eq_some.mp hi with ⟨b, hb, hblock⟩
    rw [hn] at hb
    exact ⟨i, by rwa [Option.some.inj hb]⟩
  rcases markInodes_spec (markLive (markLive (Function.update (fun _ => false)
    addrCheckpointBlock true) s.cr) ((List.range numInodes).map s.inodeMap)) _ hinode with
    ⟨live, hlive, hmarked⟩
  refine ⟨live, hlive, fun a => ?_⟩
  rw [hmarked, markLive_eq_true, markLive_eq_true, Function.update_apply, hmapped]
  constructor
  · rintro (((hfirst | hcr) | ⟨n, hn⟩) | ⟨b, hb, i, hi, hptr⟩)
    · by_cases ha : a = addrCheckpointBlock
      · exact ha ▸ .checkpoint
      · simp [ha] at hfirst
    · exact .imap hcr
    · exact .inode n hn
    · rcases (hmapped b).mp (by simpa using hb) with ⟨n, hn⟩
      exact .pointer n i (inodeAt_eq_some.mpr ⟨b, hn, hi⟩) hptr
  · intro hlive
    cases hlive with
    | checkpoint => simp
    | imap hcr => exact Or.inl (Or.inl (Or.inr hcr))
    | inode n hn => exact Or.inl (Or.inr ⟨n, hn⟩)
    | pointer n i hi hptr =>
        rcases inodeAt_eq_some.mp hi with ⟨b, hb, hblock⟩
        refine Or.inr ⟨b, ?_, i, hblock, hptr⟩
        have hmem := (hmapped b).mpr ⟨n, hb⟩
        simpa using hmem

/-! ## States that agree on some blocks

The blocks in `K` are those that the roots of `s` lead to and all from `new` on. -/

structure Alike (K : Set ℕ) (new : ℕ) (s t : LFS) : Prop where
  cr : t.cr = s.cr
  inodeMap : t.inodeMap = s.inodeMap
  length : t.disk.length = s.disk.length
  blocks : ∀ a ∈ K, t.disk[a]? = s.disk[a]?
  grown : new ≤ s.disk.length
  fresh : ∀ a, new ≤ a → a ∈ K
  first : addrCheckpointBlock ∈ K
  imap : ∀ a, some a ∈ s.cr → a ∈ K
  inode : ∀ n a, s.inodeMap n = some a → a ∈ K
  pointer : ∀ a i b, new ≤ a ∨ (∃ n, s.inodeMap n = some a) →
    s.disk[a]? = some (.inode i) → some b ∈ i.pointers → b ∈ K

variable {K : Set ℕ} {new : ℕ}

/-- An inode that may be logged. -/
def PointsInto (K : Set ℕ) (i : Inode) : Prop := ∀ a, some a ∈ i.pointers → a ∈ K

theorem PointsInto.set {i : Inode} (h : PointsInto K i) {a : ℕ} (ha : a ∈ K) (index : ℕ) :
    ∀ b, some b ∈ i.pointers.set index (some a) → b ∈ K := by
  intro b hb
  rcases List.mem_or_eq_of_mem_set hb with hold | hnew
  · exact h b hold
  · exact (Option.some.inj hnew) ▸ ha

theorem Alike.append (h : Alike K new s t) (logged : List Block)
    (hlogged : ∀ i, Block.inode i ∈ logged → PointsInto K i) :
    Alike K new { s with disk := s.disk ++ logged } { t with disk := t.disk ++ logged } := by
  refine ⟨h.cr, h.inodeMap, ?_, fun a ha => ?_, ?_, h.fresh, h.first, h.imap, h.inode, ?_⟩
  · simp only [List.length_append, h.length]
  · rcases Nat.lt_or_ge a s.disk.length with hold | hnew
    · rw [List.getElem?_append_left hold, List.getElem?_append_left (h.length ▸ hold)]
      exact h.blocks a ha
    · rw [List.getElem?_append_right hnew, List.getElem?_append_right (h.length ▸ hnew), h.length]
  · exact h.grown.trans (List.length_append ▸ Nat.le_add_right _ _)
  · intro a i b ha hi hb
    rcases Nat.lt_or_ge a s.disk.length with hold | hnew
    · apply h.pointer a i b ha ?_ hb
      rwa [List.getElem?_append_left hold] at hi
    · rw [List.getElem?_append_right hnew] at hi
      exact hlogged i (List.mem_of_getElem? hi) b hb

theorem Alike.log (h : Alike K new s t) {b : Block} (hb : ∀ i, b = .inode i → PointsInto K i) :
    Alike K new (s.log b).1 (t.log b).1 := by
  apply h.append [b]
  intro i hi
  exact hb i (List.mem_singleton.mp hi).symm

theorem Alike.address (h : Alike K new s t) (b : Block) : (t.log b).2 = (s.log b).2 := h.length

theorem Alike.address_mem (h : Alike K new s t) : s.disk.length ∈ K := h.fresh _ h.grown

theorem Alike.remap (h : Alike K new s t) (n : ℕ) {a : ℕ} (ha : new ≤ a) :
    Alike K new (s.remap n a) (t.remap n a) := by
  have hcases {m b : ℕ} (hm : Function.update s.inodeMap n (some a) m = some b) :
      new ≤ b ∨ s.inodeMap m = some b := by
    by_cases hmn : m = n
    · rw [hmn, Function.update_self] at hm
      exact Or.inl (Option.some.inj hm ▸ ha)
    · rw [Function.update_of_ne hmn] at hm
      exact Or.inr hm
  refine ⟨h.cr, ?_, h.length, h.blocks, h.grown, h.fresh, h.first, h.imap, ?_, ?_⟩
  · simp only [LFS.remap, h.inodeMap]
  · intro m b hm
    rcases hcases hm with hnew | hold
    · exact h.fresh b hnew
    · exact h.inode m b hold
  · rintro b i d (hnew | ⟨m, hm⟩) hi hd
    · exact h.pointer b i d (Or.inl hnew) hi hd
    · exact h.pointer b i d ((hcases hm).imp_right fun hold => ⟨m, hold⟩) hi hd

theorem Alike.logChunk (h : Alike K new s t) (cnum : ℕ) :
    Alike K new (s.logChunk cnum) (t.logChunk cnum) := by
  have hchunk : makeImapChunk t cnum = makeImapChunk s cnum := by
    rw [makeImapChunk, makeImapChunk, h.inodeMap]
  have hlog : Alike K new (s.log (makeImapChunk s cnum)).1 (t.log (makeImapChunk t cnum)).1 := by
    rw [hchunk]
    apply h.log
    rintro i hi
    cases hi
  refine ⟨?_, hlog.inodeMap, hlog.length, hlog.blocks, hlog.grown, h.fresh, h.first, ?_, h.inode,
    hlog.pointer⟩
  · simp only [LFS.logChunk, LFS.log, h.cr, h.length]
  · intro a ha
    rcases List.mem_or_eq_of_mem_set ha with hold | hnew
    · exact h.imap a hold
    · exact (Option.some.inj hnew) ▸ h.address_mem

theorem Alike.updateImap (h : Alike K new s t) (inumList : List ℕ) :
    Alike K new (s.updateImap inumList) (t.updateImap inumList) := by
  have hfrom (chunkList : List ℕ) : Alike K new (updateImapFrom s chunkList inumList)
      (updateImapFrom t chunkList inumList) := by
    induction inumList generalizing s t chunkList with
    | nil => exact h
    | cons inum inumList ih =>
        unfold updateImapFrom
        dsimp only
        split
        · exact ih h chunkList
        · exact ih (h.logChunk _) _
  exact hfrom []

theorem Alike.crSync (h : Alike K new s t) : Alike K new s.crSync t.crSync := by
  refine ⟨h.cr, h.inodeMap, ?_, fun a ha => ?_, ?_, h.fresh, h.first, h.imap, h.inode, ?_⟩
  · simp only [LFS.crSync, List.length_set, h.length]
  · simp only [LFS.crSync, List.getElem?_set, h.length, h.cr, h.blocks a ha]
  · simpa only [LFS.crSync, List.length_set] using h.grown
  · intro a i b ha hi hb
    rw [LFS.crSync, List.getElem?_set] at hi
    split at hi
    · split at hi
      · cases hi
      · cases hi
    · exact h.pointer a i b ha hi hb

theorem Alike.sync (h : Alike K new s t) (c : Config) : Alike K new (s.sync c) (t.sync c) := by
  unfold LFS.sync
  split
  · exact h
  · exact h.crSync

theorem Alike.freeInode (h : Alike K new s t) (n : ℕ) :
    (s.freeInode n = none ∧ t.freeInode n = none) ∨
      ∃ s' t', s.freeInode n = some s' ∧ t.freeInode n = some t' ∧ Alike K new s' t' ∧
        s'.disk = s.disk ∧ t'.disk = t.disk := by
  rw [LFS.freeInode, LFS.freeInode, h.inodeMap]
  split
  · exact Or.inl ⟨rfl, rfl⟩
  · have hcases {m b : ℕ} (hm : Function.update s.inodeMap n none m = some b) :
        s.inodeMap m = some b := by
      by_cases hmn : m = n
      · rw [hmn, Function.update_self] at hm
        cases hm
      · rwa [Function.update_of_ne hmn] at hm
    refine Or.inr ⟨_, _, rfl, rfl, ⟨h.cr, rfl, h.length, h.blocks, h.grown, h.fresh, h.first,
      h.imap, fun m b hm => h.inode m b (hcases hm), ?_⟩, rfl, rfl⟩
    rintro b i d (hnew | ⟨m, hm⟩) hi hd
    · exact h.pointer b i d (Or.inl hnew) hi hd
    · exact h.pointer b i d (Or.inr ⟨m, hcases hm⟩) hi hd

/-! ## What is logged -/

variable {c : Config} {n p index size : ℕ} {i pi : Inode} {block : List Slot}

theorem Alike.logLink (h : Alike K new s t) (hpi : PointsInto K pi) (hi : PointsInto K i) :
    Alike K new (logLink c s n i p pi index size block)
      (logLink c t n i p pi index size block) := by
  have hdir : ∀ j, Block.dir block = .inode j → PointsInto K j := by
    intro j hj
    cases hj
  have h₁ := h.log hdir
  unfold Lfs.logLink
  dsimp only
  rw [h.address]
  have h₂ := h₁.log (b := .inode { pi with
    size := size
    pointers := pi.pointers.set index (some (s.log (.dir block)).2) }) fun j hj => by
      cases hj
      exact hpi.set h.address_mem index
  rw [h₁.address]
  have h₃ := h₂.log (b := .inode { i with refs := i.refs + 1 }) fun j hj => by
    cases hj
    exact hi
  rw [h₂.address]
  exact (((h₃.remap p h₁.grown).remap n h₂.grown).updateImap [p]).sync c

theorem Alike.logCreate (h : Alike K new s t) (isFile : Bool) (hpi : PointsInto K pi) :
    Alike K new (logCreate c s isFile p n pi index size block)
      (logCreate c t isFile p n pi index size block) := by
  have hdir : ∀ entries j, Block.dir entries = .inode j → PointsInto K j := by
    intro entries j hj
    cases hj
  have h₁ := h.log (hdir block)
  unfold Lfs.logCreate
  dsimp only
  rw [h.address]
  cases isFile with
  | true =>
      simp only [if_true]
      have h₂ := h₁.log (b := .inode { pi with
        size := size
        pointers := pi.pointers.set index (some (s.log (.dir block)).2) }) fun j hj => by
          cases hj
          exact hpi.set h.address_mem index
      rw [h₁.address]
      have h₃ := h₂.log (b := .inode (makeInode .reg 0 1)) fun j hj a ha => by
        cases hj
        cases List.eq_of_mem_replicate ha
      rw [h₂.address]
      exact (((h₃.remap p h₁.grown).remap n h₂.grown).updateImap [p, n]).sync c
  | false =>
      simp only [Bool.false_eq_true, if_false]
      have h₂ := h₁.log (hdir (makeNewDirblock p n))
      rw [h₁.address]
      have h₃ := h₂.log (b := .inode { pi with
        size := size
        refs := pi.refs + 1
        pointers := pi.pointers.set index (some (s.log (.dir block)).2) }) fun j hj => by
          cases hj
          exact hpi.set h.address_mem index
      rw [h₂.address]
      have h₄ := h₃.log (b := .inode { makeInode .dir 1 2 with
        pointers := (makeInode .dir 1 2).pointers.set 0
          (some ((s.log (.dir block)).1.log (.dir (makeNewDirblock p n))).2) }) fun j hj a ha => by
            cases hj
            rcases List.mem_or_eq_of_mem_set ha with hold | hnew
            · cases List.eq_of_mem_replicate hold
            · exact (Option.some.inj hnew) ▸ h₁.address_mem
      rw [h₃.address]
      exact (((h₄.remap p h₂.grown).remap n h₃.grown).updateImap [p, n]).sync c

theorem Alike.logWrite (h : Alike K new s t) (hi : PointsInto K i) (offset : ℕ)
    (contents : List (List Char)) :
    Alike K new (logWrite c s n i offset contents).1 (logWrite c t n i offset contents).1 ∧
      (logWrite c t n i offset contents).2 = (logWrite c s n i offset contents).2 := by
  unfold Lfs.logWrite
  dsimp only
  rw [h.length]
  refine ⟨?_, rfl⟩
  have h₁ := h.append ((contents.take
    (potentialWrites offset s.disk.length contents).1.length).map Block.data) fun j hj => by
      rcases List.mem_map.mp hj with ⟨data, -, hdata⟩
      cases hdata
  have h₂ := h₁.log (b := .inode (writtenInode s.disk i offset contents)) fun j hj a ha => by
    cases hj
    rcases mem_setPointers ha with hold | ⟨w, hw, rfl⟩
    · exact hi a hold
    · have hw := (potentialWrites_spec offset s.disk.length contents).2 w hw
      exact h.fresh _ (h.grown.trans hw.1)
  rw [h₁.address]
  exact ((h₂.remap n h₁.grown).logChunk _).sync c

theorem Alike.logDelete (h : Alike K new s t) (hpi : PointsInto K pi) (hi : PointsInto K i) :
    Alike K new (logDelete c s n i p pi index block) (logDelete c t n i p pi index block) := by
  have hdir : ∀ j, Block.dir block = .inode j → PointsInto K j := by
    intro j hj
    cases hj
  have h₁ := h.log hdir
  unfold Lfs.logDelete
  dsimp only
  rw [h.address]
  have h₂ := h₁.log (b := .inode { pi with
    pointers := pi.pointers.set index (some (s.log (.dir block)).2) }) fun j hj => by
      cases hj
      exact hpi.set h.address_mem index
  rw [h₁.address]
  have h₃ := h₂.remap p (show new ≤ ((s.log (.dir block)).1.log (.inode { pi with
    pointers := pi.pointers.set index (some (s.log (.dir block)).2) })).2 from h₁.grown)
  split
  · have h₄ := h₃.log (b := .inode { i with refs := i.refs - 1 }) fun j hj => by
      cases hj
      exact hi
    rw [h₃.address]
    exact ((h₄.remap n h₃.grown).updateImap [n, p]).sync c
  · exact (h₃.updateImap [n, p]).sync c

/-! ## What is read -/

theorem Alike.pointsInto (h : Alike K new s t) (hi : inodeOf s n = some i) : PointsInto K i := by
  intro b hb
  rcases inodeAt_eq_some.mp hi with ⟨a, ha, hblock⟩
  exact h.pointer a i b (Or.inr ⟨n, ha⟩) hblock hb

theorem Alike.getInode (h : Alike K new s t) (hc : c.useDiskCr = false) (n : ℕ) :
    getInodeFromInumber c t n = getInodeFromInumber c s n := by
  rw [getInode_eq, getInode_eq, hc, h.inodeMap]
  simp only [Bool.false_eq_true, if_false]
  cases hn : s.inodeMap n with
  | none => rfl
  | some a => simp only [inodeAt, h.blocks a (h.inode n a hn)]

theorem getInode_memory (hc : c.useDiskCr = false) (hi : getInodeFromInumber c s n = some i) :
    inodeOf s n = some i := by
  rw [getInode_eq, hc] at hi
  simp only [Bool.false_eq_true, if_false] at hi
  split at hi
  · exact hi
  · cases hi

theorem Alike.lookupFrom (h : Alike K new s t) (name : Path) (pointers : List (Option ℕ))
    (hpointers : ∀ a, some a ∈ pointers → a ∈ K) :
    lookupFrom t.disk name pointers = lookupFrom s.disk name pointers := by
  induction pointers with
  | nil => rfl
  | cons pointer pointers ih =>
      have hrest := ih fun a ha => hpointers a (List.mem_cons_of_mem _ ha)
      cases pointer with
      | none => exact hrest
      | some a =>
          rw [Lfs.lookupFrom, Lfs.lookupFrom, h.blocks a (hpointers a List.mem_cons_self), hrest]

theorem Alike.lookup (h : Alike K new s t) (hc : c.useDiskCr = false) (p : ℕ) (name : Path) :
    lookup c t p name = lookup c s p name := by
  rw [Lfs.lookup, Lfs.lookup, h.getInode hc]
  cases hi : getInodeFromInumber c s p with
  | none => rfl
  | some pi =>
      have hpi := h.pointsInto (getInode_memory hc hi)
      simp only [Option.bind_eq_bind, Option.bind_some, h.lookupFrom name pi.pointers hpi]

theorem Alike.walkDirs (h : Alike K new s t) (hc : c.useDiskCr = false) (p : ℕ)
    (names : List Path) : walkDirs c t p names = walkDirs c s p names := by
  induction names generalizing p with
  | nil => rfl
  | cons name names ih => simp only [Lfs.walkDirs, h.lookup hc, ih]

theorem Alike.walkPath (h : Alike K new s t) (hc : c.useDiskCr = false) (path : Path) :
    walkPath c t path = walkPath c s path := by
  simp only [Lfs.walkPath, h.walkDirs hc, h.lookup hc]

theorem Alike.readDirblock (h : Alike K new s t) {addrs : List ℕ} (hdir : DirInode s.disk pi addrs)
    (hpi : PointsInto K pi) (hindex : index < pi.size) :
    readDirblock t.disk pi index = readDirblock s.disk pi index := by
  rw [hdir.size] at hindex
  have hpointer : pi.pointers[index]? = some (some addrs[index]) := by
    rw [hdir.pointers, List.getElem?_append_left (by simpa using hindex), List.getElem?_map,
      List.getElem?_eq_getElem hindex]
    rfl
  rw [Lfs.readDirblock, Lfs.readDirblock, hpointer]
  exact h.blocks _ (hpi _ (List.mem_of_getElem? hpointer))

theorem Alike.findSlot (h : Alike K new s t) {addrs : List ℕ} (hdir : DirInode s.disk pi addrs)
    (hpi : PointsInto K pi) (name : Path) :
    findMatchingDirSlot t.disk name pi = findMatchingDirSlot s.disk name pi := by
  have hfrom (indices : List ℕ) (hindices : ∀ index ∈ indices, index < pi.size) :
      findSlotFrom t.disk name pi indices = findSlotFrom s.disk name pi indices := by
    induction indices with
    | nil => rfl
    | cons index indices ih =>
        rw [findSlotFrom, findSlotFrom,
          h.readDirblock hdir hpi (hindices index List.mem_cons_self),
          ih fun j hj => hindices j (List.mem_cons_of_mem _ hj)]
  exact hfrom _ fun index hindex => List.mem_range.mp hindex

theorem slotIndex_lt {addrs : List ℕ} {disk : List Block} {name : Path} {slot : ℕ}
    (hdir : DirInode disk pi addrs)
    (hfind : findMatchingDirSlot disk name pi = some (some (index, slot))) : index < pi.size := by
  rcases findMatchingDirSlot_spec hdir name with
    ⟨hnone, -⟩ | ⟨index', slot', before, a, after, pre, e, post, hsome, hfound⟩
  · rw [hnone] at hfind
    cases hfind
  · rw [hsome] at hfind
    cases hfind
    rw [hfound.indexEq, hdir.size, hfound.splits]
    simp

theorem Alike.addDirEntry (h : Alike K new s t) {addrs : List ℕ} (hdir : DirInode s.disk pi addrs)
    (hpi : PointsInto K pi) (name : Path) (n : ℕ) :
    addDirEntry t.disk pi name n = addDirEntry s.disk pi name n := by
  rw [Lfs.addDirEntry, Lfs.addDirEntry, h.findSlot hdir hpi]
  cases hfind : findMatchingDirSlot s.disk ['-'] pi with
  | none => rfl
  | some found =>
      rcases found with _ | ⟨index, slot⟩
      · rfl
      · have hread := h.readDirblock hdir hpi (slotIndex_lt hdir hfind)
        simp only [Option.bind_eq_bind, Option.bind_some, hread]

/-! ## Calls -/

/-- The same is returned, and what is left agrees. -/
def AlikeResult (K : Set ℕ) (new : ℕ) (x y : LFS × Option ℤ) : Prop :=
  Alike K new x.1 y.1 ∧ y.2 = x.2

theorem logCreate_hold (isFile : Bool) :
    logCreate c (s.hold n) isFile p n pi index size block =
      logCreate c s isFile p n pi index size block := by
  unfold logCreate
  cases isFile with
  | true =>
      simp only [if_true]
      conv_rhs => rw [← hold_remap]
      rfl
  | false =>
      simp only [Bool.false_eq_true, if_false]
      conv_rhs => rw [← hold_remap]
      rfl

theorem Alike.fileCreate (h : Alike K new s t) (hc : c.useDiskCr = false) (hlog : LogOk s)
    (path : Path) (isFile : Bool) (random : ℕ) :
    AlikeResult K new (fileCreate c s path isFile random) (fileCreate c t path isFile random) := by
  have hallocate : t.allocateInode c random = s.allocateInode c random := by
    simp only [LFS.allocateInode, LFS.freeInodes, h.inodeMap]
  rw [Lfs.fileCreate, Lfs.fileCreate, h.walkPath hc, hallocate]
  cases hwalk : Lfs.walkPath c s path with
  | none => exact ⟨h, rfl⟩
  | some w =>
      rcases w with ⟨_ | number, name, _ | ⟨p, pi⟩⟩
      · exact ⟨h, rfl⟩
      · cases hnew : s.allocateInode c random with
        | none => exact ⟨h, rfl⟩
        | some n =>
            rcases (hlog.opens hwalk).2 with ⟨addrs, hopens⟩
            have hpi := h.pointsInto (getInode_memory hc hopens.parent)
            have hadd : Lfs.addDirEntry (t.hold n).disk pi name n =
                Lfs.addDirEntry (s.hold n).disk pi name n := h.addDirEntry hopens.dir hpi name n
            have hfree := (allocateInode_spec hnew).1
            dsimp only
            rw [hadd]
            rcases addDirEntry_spec hopens.dir hlog.slots name (allocateInode_spec hnew).2 with
              hfull | ⟨index, size, block, -, hroom, -⟩
            · have hfull : Lfs.addDirEntry (s.hold n).disk pi name n = some none := hfull
              rw [hfull]
              dsimp only
              rw [freeInode_hold hfree, freeInode_hold (h.inodeMap ▸ hfree)]
              exact ⟨h, rfl⟩
            · have hroom : Lfs.addDirEntry (s.hold n).disk pi name n = _ := hroom
              rw [hroom]
              dsimp only
              rw [logCreate_hold, logCreate_hold]
              exact ⟨h.logCreate isFile hpi, rfl⟩
      · exact ⟨h, rfl⟩
      · exact ⟨h, rfl⟩

theorem Alike.fileLink (h : Alike K new s t) (hc : c.useDiskCr = false) (hlog : LogOk s)
    (srcpath dstpath : Path) :
    AlikeResult K new (fileLink c s srcpath dstpath) (fileLink c t srcpath dstpath) := by
  rw [Lfs.fileLink, Lfs.fileLink, h.walkPath hc]
  cases hsrc : Lfs.walkPath c s srcpath with
  | none => exact ⟨h, rfl⟩
  | some w =>
      rcases w with ⟨_ | n, srcName, srcParent⟩
      · exact ⟨h, rfl⟩
      · dsimp only
        rw [h.getInode hc, h.walkPath hc]
        cases hget : getInodeFromInumber c s n with
        | none => exact ⟨h, rfl⟩
        | some i =>
            dsimp only
            split
            · exact ⟨h, rfl⟩
            · cases hdst : Lfs.walkPath c s dstpath with
              | none => exact ⟨h, rfl⟩
              | some w =>
                  rcases w with ⟨_ | number, name, _ | ⟨p, pi⟩⟩
                  · exact ⟨h, rfl⟩
                  · rcases (hlog.opens hdst).2 with ⟨addrs, hopens⟩
                    have hpi := h.pointsInto (getInode_memory hc hopens.parent)
                    have hi := h.pointsInto (getInode_memory hc hget)
                    dsimp only
                    rw [h.addDirEntry hopens.dir hpi]
                    split
                    · exact ⟨h, rfl⟩
                    · exact ⟨h, rfl⟩
                    · exact ⟨h.logLink hpi hi, rfl⟩
                  · exact ⟨h, rfl⟩
                  · exact ⟨h, rfl⟩

theorem Alike.fileWrite (h : Alike K new s t) (hc : c.useDiskCr = false) (path : Path)
    (offset numBlks : ℤ) (random : List ℕ) :
    AlikeResult K new (fileWrite c s path offset numBlks random)
      (fileWrite c t path offset numBlks random) := by
  rw [Lfs.fileWrite, Lfs.fileWrite, h.walkPath hc]
  cases hwalk : Lfs.walkPath c s path with
  | none => exact ⟨h, rfl⟩
  | some w =>
      rcases w with ⟨_ | n, name, parent⟩
      · exact ⟨h, rfl⟩
      · dsimp only
        rw [h.getInode hc]
        cases hget : getInodeFromInumber c s n with
        | none => exact ⟨h, rfl⟩
        | some i =>
            dsimp only
            split
            · exact ⟨h, rfl⟩
            · split
              · exact ⟨h, rfl⟩
              · have hi := h.pointsInto (getInode_memory hc hget)
                have hwrite := h.logWrite (c := c) (n := n) hi offset.toNat
                  (makeRandomBlocks numBlks random)
                exact ⟨hwrite.1, congrArg some hwrite.2⟩

theorem Alike.fileDelete (h : Alike K new s t) (hc : c.useDiskCr = false) (hlog : LogOk s)
    (path : Path) : AlikeResult K new (fileDelete c s path) (fileDelete c t path) := by
  rw [Lfs.fileDelete, Lfs.fileDelete, h.walkPath hc]
  cases hwalk : Lfs.walkPath c s path with
  | none => exact ⟨h, rfl⟩
  | some w =>
      rcases w with ⟨_ | n, name, _ | ⟨p, pi⟩⟩
      · exact ⟨h, rfl⟩
      · exact ⟨h, rfl⟩
      · exact ⟨h, rfl⟩
      · dsimp only
        rw [h.getInode hc]
        cases hget : getInodeFromInumber c s n with
        | none => exact ⟨h, rfl⟩
        | some i =>
            rcases (hlog.opens hwalk).2 with ⟨addrs, hopens⟩
            have hpi := h.pointsInto (getInode_memory hc hopens.parent)
            have hi := h.pointsInto (getInode_memory hc hget)
            dsimp only
            split
            · exact ⟨h, rfl⟩
            · rcases removeEntry_spec hopens.dir hopens.found with
                ⟨index, slot, entries, -, -, hfind, hread, -⟩
              have hfind' := (h.findSlot hopens.dir hpi name).trans hfind
              have hread' := (h.readDirblock hopens.dir hpi
                (slotIndex_lt hopens.dir hfind)).trans hread
              by_cases hone : i.refs = 1
              · rw [if_pos hone, if_pos hone]
                rcases h.freeInode n with ⟨hs, ht⟩ | ⟨s₀, t₀, hs, ht, h₀, hsdisk, htdisk⟩
                · rw [hs, ht]
                  exact ⟨h, rfl⟩
                · rw [hs, ht]
                  dsimp only
                  rw [hsdisk, htdisk, hfind, hfind']
                  dsimp only
                  rw [hread, hread']
                  exact ⟨h₀.logDelete hpi hi, rfl⟩
              · rw [if_neg hone, if_neg hone]
                dsimp only
                rw [hfind, hfind']
                dsimp only
                rw [hread, hread']
                exact ⟨h.logDelete hpi hi, rfl⟩

theorem Alike.perform (h : Alike K new s t) (hc : c.useDiskCr = false) (hlog : LogOk s)
    (act : Act) : AlikeResult K new (perform c s act) (perform c t act) := by
  cases act with
  | create path random => exact h.fileCreate hc hlog path true random
  | mkdir path random => exact h.fileCreate hc hlog path false random
  | link srcpath dstpath => exact h.fileLink hc hlog srcpath dstpath
  | write path offset numBlks random => exact h.fileWrite hc path offset numBlks random
  | delete path => exact h.fileDelete hc hlog path

/-! ## Runs -/

/-- The state after some calls, and what they have returned. -/
def performAll (c : Config) : LFS → List Act → LFS × List (Option ℤ)
  | s, [] => (s, [])
  | s, act :: acts =>
      let (s, returned) := perform c s act
      let (s, rest) := performAll c s acts
      (s, returned :: rest)

/-- The live blocks of `s` are where `t` has them too. -/
structure SameLive (s t : LFS) : Prop where
  cr : t.cr = s.cr
  inodeMap : t.inodeMap = s.inodeMap
  length : t.disk.length = s.disk.length
  blocks : ∀ a, Live s a → t.disk[a]? = s.disk[a]?

theorem Alike.mem_of_live (h : Alike K new s t) {a : ℕ} (ha : Live s a) : a ∈ K := by
  cases ha with
  | checkpoint => exact h.first
  | imap hcr => exact h.imap a hcr
  | inode n hn => exact h.inode n a hn
  | pointer n i hi hptr => exact h.pointsInto hi a hptr

theorem Alike.sameLive (h : Alike K new s t) : SameLive s t :=
  ⟨h.cr, h.inodeMap, h.length, fun a ha => h.blocks a (h.mem_of_live ha)⟩

theorem SameLive.alike (h : SameLive s t) :
    Alike {a | Live s a ∨ s.disk.length ≤ a} s.disk.length s t := by
  refine ⟨h.cr, h.inodeMap, h.length, ?_, le_rfl, fun a => Or.inr, Or.inl .checkpoint,
    fun a ha => Or.inl (.imap ha), fun n a ha => Or.inl (.inode n ha), ?_⟩
  · rintro a (hlive | hnew)
    · exact h.blocks a hlive
    · rw [List.getElem?_eq_none hnew, List.getElem?_eq_none (h.length ▸ hnew)]
  · rintro a i b (hnew | ⟨n, hn⟩) hi hb
    · rw [List.getElem?_eq_none hnew] at hi
      cases hi
    · exact Or.inl (.pointer n i (inodeAt_eq_some.mpr ⟨a, hn, hi⟩) hb)

theorem SameLive.determineLiveness (h : SameLive s t) :
    determineLiveness t = determineLiveness s := by
  have hinodes (live : ℕ → Bool) (addresses : List ℕ)
      (haddresses : ∀ a ∈ addresses, ∃ n, s.inodeMap n = some a) :
      markInodes t.disk live addresses = markInodes s.disk live addresses := by
    induction addresses generalizing live with
    | nil => rfl
    | cons a addresses ih =>
        rcases haddresses a List.mem_cons_self with ⟨n, hn⟩
        rw [markInodes, markInodes, h.blocks a (.inode n hn)]
        simp only [ih _ fun b hb => haddresses b (List.mem_cons_of_mem _ hb)]
  unfold Lfs.determineLiveness
  dsimp only
  rw [h.cr, h.inodeMap]
  apply hinodes
  intro a ha
  rcases List.mem_filterMap.mp ha with ⟨address, hmem, rfl⟩
  rcases List.mem_map.mp hmem with ⟨n, -, hn⟩
  exact ⟨n, hn⟩

theorem performAll_sameLive (h : SameLive s t) (hc : c.useDiskCr = false) (hlog : LogOk s)
    (hmap : Mapped s) (acts : List Act) :
    (performAll c t acts).2 = (performAll c s acts).2 ∧
      SameLive (performAll c s acts).1 (performAll c t acts).1 ∧
      Mapped (performAll c s acts).1 ∧
      ∀ a, Live (performAll c s acts).1 a → a < s.disk.length → Live s a := by
  induction acts generalizing s t with
  | nil => exact ⟨rfl, h, hmap, fun a ha _ => ha⟩
  | cons act acts ih =>
      have hact := h.alike.perform hc hlog act
      have hgrown := (perform_effect (c := c) hlog hmap act).grown hlog hmap
      rcases ih hact.1.sameLive hgrown.1 hgrown.2 with ⟨hreturned, hsame, hmapped, hlive⟩
      refine ⟨?_, hsame, hmapped, fun a ha hlt => ?_⟩
      · exact congrArg₂ List.cons hact.2 hreturned
      · rcases hact.1.mem_of_live (hlive a ha (hlt.trans_le hact.1.grown)) with hold | hnew
        · exact hold
        · exact absurd hnew (Nat.not_le.mpr hlt)

theorem reach_logOk (h : Reach (step c) anyStep LFS.init s) : LogOk s ∧ Mapped s := by
  refine h.invariant (I := fun s => LogOk s ∧ Mapped s) ⟨logOk_init, mapped_init⟩ ?_
  rintro s act s' ⟨hlog, hmap⟩ - hstep
  cases hstep
  exact (perform_effect hlog hmap act).grown hlog hmap

/-- With the imap in memory, whatever is written over the blocks that are not live, all later
calls return what they would have returned and leave the same live blocks. None of these lies where
a block was dead. -/
theorem dead_blocks_unused (hc : c.useDiskCr = false) (h : Reach (step c) anyStep LFS.init s) :
    ∃ live, determineLiveness s = some live ∧
      ∀ t : LFS, t.cr = s.cr → t.inodeMap = s.inodeMap → t.disk.length = s.disk.length →
        (∀ a, live a = true → t.disk[a]? = s.disk[a]?) →
        ∀ acts, (performAll c t acts).2 = (performAll c s acts).2 ∧
          ∃ live', determineLiveness (performAll c s acts).1 = some live' ∧
            determineLiveness (performAll c t acts).1 = some live' ∧
            ∀ a, live' a = true →
              (performAll c t acts).1.disk[a]? = (performAll c s acts).1.disk[a]? ∧
              (a < s.disk.length → live a = true) := by
  rcases reach_logOk h with ⟨hlog, hmap⟩
  rcases hmap.determineLiveness with ⟨live, hlive, hmarked⟩
  refine ⟨live, hlive, fun t hcr hinodeMap hlength hblocks acts => ?_⟩
  have hsame : SameLive s t :=
    ⟨hcr, hinodeMap, hlength, fun a ha => hblocks a ((hmarked a).mpr ha)⟩
  rcases performAll_sameLive hsame hc hlog hmap acts with ⟨hreturned, hsame', hmap', hold⟩
  rcases hmap'.determineLiveness with ⟨live', hlive', hmarked'⟩
  refine ⟨hreturned, live', hlive', hsame'.determineLiveness.trans hlive', fun a ha => ?_⟩
  have hliveAt := (hmarked' a).mp ha
  exact ⟨hsame'.blocks a hliveAt, fun hlt => (hmarked a).mpr (hold a hliveAt hlt)⟩

/-- A file is created; the first inode of the root is dead then. -/
def created : LFS := (perform ⟨false, false, .sequential⟩ LFS.init (.create ['/', 'a'] 0)).1

theorem dead_blocks_unused_oldRoot :
    (determineLiveness created).map (fun live => live 2) = some false ∧
      ∀ acts : List Act, (performAll ⟨false, false, .sequential⟩
        ⟨created.disk.set 2 (.data ['x']), created.cr, created.inodeMap⟩ acts).2 =
          (performAll ⟨false, false, .sequential⟩ created acts).2 := by
  have hreach : Reach (step ⟨false, false, .sequential⟩) anyStep LFS.init created :=
    Reach.refl.tail (.create ['/', 'a'] 0) trivial rfl
  rcases dead_blocks_unused rfl hreach with ⟨live, hlive, hsame⟩
  have hdead : (determineLiveness created).map (fun live => live 2) = some false := by
    decide +kernel
  refine ⟨hdead, fun acts => ?_⟩
  rw [hlive, Option.map_some, Option.some.injEq] at hdead
  refine (hsame ⟨created.disk.set 2 (.data ['x']), created.cr, created.inodeMap⟩ rfl rfl
    List.length_set (fun a ha => ?_) acts).1
  have hne : 2 ≠ a := by
    rintro rfl
    rw [hdead] at ha
    cases ha
  exact List.getElem?_set_ne hne

end OsLabs.Lfs
