import Mathlib
import OsLabs.Lfs.Changes

/-!
# The sizes of files

A write sets the pointers of the blocks it logs. It also moves the size up to its offset when it
logs no block at all.
-/

namespace OsLabs.Lfs

open OsLabs.Transition

variable {c : Config} {s s' t : LFS} {a : Act} {n k : ℕ} {i : Inode} {path : Path}
  {pointers : List (Option ℕ)} {size : ℕ} {r : Option Inode}

/-- One more than the largest index of a pointer that is set, or 0 if none is. -/
def HasSize (pointers : List (Option ℕ)) (size : ℕ) : Prop :=
  (∀ k : ℕ, pointers[k]?.join = none) ∧ size = 0 ∨
    ∃ k : ℕ, pointers[k]?.join ≠ none ∧ (∀ j : ℕ, pointers[j]?.join ≠ none → j ≤ k) ∧ size = k + 1

structure Inode.Sized (i : Inode) : Prop where
  length : i.pointers.length = numInodePtrs
  size : HasSize i.pointers i.size

/-- A write that is carried out writes a block or starts within the file. -/
def SizeFits (c : Config) (s : LFS) : Command → Prop
  | .call (.write path offset numBlks _) => ∀ n ∈ resolution c s path,
      ∀ i ∈ getInodeFromInumber c s n, i.type = .reg → 0 ≤ offset → offset < numInodePtrs →
        1 ≤ numBlks ∨ offset ≤ i.size
  | _ => True

instance (c : Config) (s : LFS) : ∀ x, Decidable (SizeFits c s x)
  | .call (.write path offset numBlks _) => inferInstanceAs (Decidable (∀ n ∈ resolution c s path,
      ∀ i ∈ getInodeFromInumber c s n, i.type = .reg → 0 ≤ offset → offset < numInodePtrs →
        1 ≤ numBlks ∨ offset ≤ i.size))
  | .call (.create ..) => isTrue trivial
  | .call (.mkdir ..) => isTrue trivial
  | .call (.link ..) => isTrue trivial
  | .call (.delete ..) => isTrue trivial
  | .sync => isTrue trivial

/-! ## Pointers and sizes -/

theorem hasSize_iff : HasSize pointers size ↔ (∀ k : ℕ, pointers[k]?.join ≠ none → k < size) ∧
    (0 < size → pointers[size - 1]?.join ≠ none) := by
  constructor
  · rintro (⟨hnone, rfl⟩ | ⟨k, hk, hlast, rfl⟩)
    · exact ⟨fun k hk => absurd (hnone k) hk, fun h => absurd h (lt_irrefl 0)⟩
    · exact ⟨fun j hj => Nat.lt_succ_of_le (hlast j hj), fun _ => hk⟩
  · rintro ⟨hbelow, hlast⟩
    cases size with
    | zero =>
        refine Or.inl ⟨fun k => ?_, rfl⟩
        by_contra hk
        exact absurd (hbelow k hk) (Nat.not_lt_zero k)
    | succ k =>
        exact Or.inr ⟨k, hlast (Nat.succ_pos k), fun j hj => Nat.le_of_lt_succ (hbelow j hj), rfl⟩

theorem potentialWrites_snd (offset pointer : ℕ) (contents : List (List Char)) :
    (potentialWrites offset pointer contents).2 =
      offset + min contents.length (numInodePtrs - offset) := by
  induction contents generalizing offset pointer with
  | nil => simp [potentialWrites]
  | cons block contents ih =>
      rw [potentialWrites]
      split
      · next hlt =>
          simp only [ih, List.length_cons]
          omega
      · next hge =>
          simp only
          omega

theorem setPointers_length (pointers : List (Option ℕ)) (writes : List (ℕ × ℕ)) :
    (setPointers pointers writes).length = pointers.length := by
  induction writes generalizing pointers with
  | nil => rfl
  | cons w writes ih => rw [setPointers, ih, List.length_set]

/-- The pointers after a write. -/
theorem setPointers_getElem? (offset pointer : ℕ) (contents : List (List Char))
    (hlen : pointers.length = numInodePtrs) (k : ℕ) :
    (setPointers pointers (potentialWrites offset pointer contents).1)[k]? =
      if offset ≤ k ∧ k < (potentialWrites offset pointer contents).2 then
        some (some (pointer + (k - offset)))
      else pointers[k]? := by
  induction contents generalizing offset pointer pointers with
  | nil => rw [potentialWrites, setPointers, if_neg (by omega)]
  | cons block contents ih =>
      rw [potentialWrites]
      split
      · next hlt =>
          have hle := potentialWrites_le (offset + 1) (pointer + 1) contents
          have hset : (pointers.set offset (some pointer)).length = numInodePtrs := by
            rw [List.length_set, hlen]
          dsimp only
          rw [setPointers, ih (offset + 1) (pointer + 1) hset]
          by_cases hk : k = offset
          · rw [hk, if_neg (by omega), if_pos (by omega), List.getElem?_set_self (by omega),
              Nat.sub_self, add_zero]
          · rw [List.getElem?_set_ne (Ne.symm hk)]
            by_cases hin : offset + 1 ≤ k ∧
                k < (potentialWrites (offset + 1) (pointer + 1) contents).2
            · have hadd : pointer + 1 + (k - (offset + 1)) = pointer + (k - offset) := by omega
              rw [if_pos hin, if_pos (by omega), hadd]
            · rw [if_neg hin, if_neg (by omega)]
      · next hge => rw [setPointers, if_neg (by omega)]

theorem makeRandomBlocks_length (num : ℤ) (random : List ℕ) :
    (makeRandomBlocks num random).length = num.toNat := by
  rw [makeRandomBlocks, List.length_map, List.length_range]

theorem makeInode_sized : (makeInode .reg 0 1).Sized := by
  refine ⟨List.length_replicate, Or.inl ⟨fun k => ?_, rfl⟩⟩
  rw [makeInode, List.getElem?_replicate]
  split <;> rfl

theorem Inode.Sized.congr {i' : Inode} (h : i.Sized) (hpointers : i'.pointers = i.pointers)
    (hsize : i'.size = i.size) : i'.Sized :=
  ⟨hpointers ▸ h.length, by rw [hpointers, hsize]; exact h.size⟩

theorem Inode.Sized.written (h : i.Sized) (disk : List Block) {offset : ℕ}
    (hoffset : offset < numInodePtrs) {contents : List (List Char)}
    (hfits : 0 < contents.length ∨ offset ≤ i.size) :
    (writtenInode disk i offset contents).Sized := by
  obtain ⟨hbelow, hlast⟩ := hasSize_iff.mp h.size
  have hend := potentialWrites_snd offset disk.length contents
  have hget := setPointers_getElem? offset disk.length contents h.length
  refine ⟨(setPointers_length ..).trans h.length, hasSize_iff.mpr ⟨fun k hk => ?_, fun hpos => ?_⟩⟩
  · rw [writtenInode] at hk ⊢
    dsimp only at hk ⊢
    rw [hget] at hk
    split at hk
    · next hwritten => omega
    · have := hbelow k hk
      omega
  · rw [writtenInode] at hpos ⊢
    dsimp only at hpos ⊢
    rw [hget]
    split
    · exact Option.some_ne_none _
    · next hnot =>
        -- the write ends below the size, or it writes nothing
        have hmax : max (potentialWrites offset disk.length contents).2 i.size = i.size := by omega
        rw [hmax] at hpos ⊢
        exact hlast hpos

/-! ## Sizes over runs -/

theorem LogsOnly.updateImapFrom (h : LogsOnly s t r) (chunkList inumList : List ℕ) :
    LogsOnly s (updateImapFrom t chunkList inumList) r := by
  induction inumList generalizing t chunkList with
  | nil => exact h
  | cons inum inumList ih =>
      rw [Lfs.updateImapFrom]
      split
      · exact ih h chunkList
      · have hchunk : LogsOnly s (t.log (makeImapChunk t (inumToChunk inum))).1 r :=
          h.append fun i hi _ => by cases List.mem_singleton.mp hi
        exact ih (t := t.logChunk (inumToChunk inum)) hchunk _

/-- The imap and the checkpoint region are no inodes. -/
theorem LogsOnly.commit (h : LogsOnly s t r) (c : Config) (chunks : List ℕ) :
    LogsOnly s ((t.updateImap chunks).sync c) r := by
  have hupdate := h.updateImapFrom [] chunks
  rw [LFS.sync]
  split
  · exact hupdate
  · intro i hi htype
    obtain hmem | hcheckpoint := List.mem_or_eq_of_mem_set hi
    · exact hupdate i hmem htype
    · cases hcheckpoint

def SizesOk (s : LFS) : Prop := ∀ i, Block.inode i ∈ s.disk → i.type = .reg → i.Sized

theorem SizesOk.logged (h : SizesOk s) (hlogs : LogsOnly s t r)
    (hr : ∀ i, r = some i → i.type = .reg → i.Sized) : SizesOk t := by
  intro i hi htype
  obtain hold | hnew := hlogs i hi htype
  · exact h i hold htype
  · exact hr i hnew htype

theorem SizesOk.targets (h : SizesOk s) (ht : Targets c s path n i) (htype : i.type = .reg) :
    i.Sized := by
  obtain ⟨address, hi⟩ := getInode_cases ht.inode
  exact h i (List.mem_of_getElem? hi) htype

theorem SizesOk.inodeOf (h : SizesOk s) (hi : inodeOf s n = some i) (htype : i.type = .reg) :
    i.Sized := by
  obtain ⟨address, -, haddress⟩ := inodeAt_eq_some.mp hi
  exact h i (List.mem_of_getElem? haddress) htype

theorem Targets.resolution (ht : Targets c s path n i) : resolution c s path = some n := by
  obtain ⟨name, parent, hwalk⟩ := ht.walk
  rw [Lfs.resolution, hwalk]
  rfl

theorem Effect.sizesOk {rc : Option ℤ} (h : SizesOk s) (hguard : SizeFits c s (.call a))
    (he : Effect c s a (s', rc)) : SizesOk s' := by
  cases he with
  | raises => exact h
  | refused => exact h
  | creates opens free inRange inserted relinked =>
      refine h.logged (relinked.logs.commit c _) fun j hj _ => ?_
      exact Option.some.inj hj ▸ makeInode_sized
  | mkdirs opens free inRange inserted relinked new =>
      refine h.logged (relinked.logs.commit c _) fun j hj htype => ?_
      cases (Option.some.inj hj ▸ new.type).symm.trans htype
  | links linked opens source regular inserted relinked =>
      refine h.logged (relinked.logs.commit c _) fun j hj _ => ?_
      exact Option.some.inj hj ▸ (h.targets source regular.type).congr rfl rfl
  | writes target regular inRange written view logs =>
      refine h.logged (logs.commit c _) fun j hj _ => ?_
      have hfits := hguard _ target.resolution _ target.inode regular.type inRange.1 inRange.2
      refine Option.some.inj hj ▸ (h.targets target regular.type).written _ (by omega) ?_
      rw [makeRandomBlocks_length]
      omega
  | @deletes path name p n pi i addrs pre post t r opens target regular removed relinked last more
      kept =>
      refine h.logged (relinked.logs.commit c _) fun j hj htype => ?_
      obtain hless | hone | hmore : i.refs < 1 ∨ i.refs = 1 ∨ 1 < i.refs := by omega
      · exact h.inodeOf ((kept hless).symm.trans hj) htype
      · cases (last hone).symm.trans hj
      · obtain rfl := Option.some.inj ((more hmore).symm.trans hj)
        exact (h.targets target regular.type).congr rfl rfl

theorem SizesOk.crSync (h : SizesOk s) : SizesOk s.crSync := by
  intro i hi htype
  obtain hmem | hcheckpoint := List.mem_or_eq_of_mem_set hi
  · exact h i hmem htype
  · cases hcheckpoint

/-- The invariant of runs whose writes fit. -/
structure Measured (s : LFS) : Prop where
  log : LogOk s
  mapped : Mapped s
  sizes : SizesOk s

theorem Measured.execute {x : Command} (h : Measured s) (hguard : SizeFits c s x)
    (hstep : execute c s x = some s') : Measured s' := by
  cases x with
  | sync =>
      obtain rfl := Option.some.inj hstep
      have hgrown := h.log.crSync
      exact ⟨hgrown.ok, h.mapped.grown hgrown, h.sizes.crSync⟩
  | call a =>
      have hresult : s' = (perform c s a).1 := (Option.some.inj hstep).symm
      have heffect : Effect c s a (s', (perform c s a).2) :=
        hresult ▸ perform_effect h.log h.mapped a
      obtain ⟨hlog, hmapped⟩ := heffect.grown h.log h.mapped
      exact ⟨hlog, hmapped, heffect.sizesOk h.sizes hguard⟩

theorem measured_init : Measured LFS.init := by
  let s₀ : LFS := ⟨[.checkpoint (some 3 :: List.replicate 15 none)],
    some 3 :: List.replicate 15 none, fun _ => none⟩
  have hroot := ((LogsOnly.refl s₀ none).log_dir (makeNewDirblock rootInode rootInode)).log_inode
    (i := { makeInode .dir 1 2 with pointers := (makeInode .dir 1 2).pointers.set 0 (some 1) })
    (Or.inl rfl)
  have hlogs : LogsOnly s₀ LFS.init none :=
    hroot.append fun i hi _ => by cases List.mem_singleton.mp hi
  refine ⟨logOk_init, mapped_init, fun i hi htype => ?_⟩
  obtain hold | hnew := hlogs i hi htype
  · cases List.mem_singleton.mp hold
  · cases hnew

theorem reach_measured (h : Reach (execute c) (SizeFits c) LFS.init s) : Measured s :=
  h.invariant measured_init fun _ _ _ hs hguard hstep => hs.execute hguard hstep

/-! ## Writes -/

/-- The inode that the path names is read as it is in memory. -/
def ReadsLive (c : Config) (s : LFS) (path : Path) : Prop :=
  ∀ n ∈ resolution c s path, getInodeFromInumber c s n = inodeOf s n

/-- A write that succeeds changes exactly the pointers of the blocks that it reports. -/
def WriteFramed (c : Config) (s : LFS) (path : Path) (offset numBlks : ℤ) (random : List ℕ) :
    Prop :=
  ∀ ret, (perform c s (.write path offset numBlks random)).2 = some ret → ret ≠ -1 →
    ∃ n i i', resolution c s path = some n ∧ inodeOf s n = some i ∧
      inodeOf (perform c s (.write path offset numBlks random)).1 n = some i' ∧
      ∀ k : ℕ, i'.pointers[k]? = i.pointers[k]? ↔ ¬ (offset ≤ k ∧ k < offset + ret)

theorem readsLive_memory (hlog : LogOk s) (hc : c.useDiskCr = false) :
    ReadsLive c s path := by
  intro n hn
  obtain ⟨⟨result, name, parent⟩, hwalk, rfl⟩ := Option.bind_eq_some_iff.mp hn
  have hlt := (hlog.walk_number hwalk).1
  rw [getInode_eq, if_neg (by rw [hc]; decide), if_pos hlt]
  rfl

theorem Measured.writeFramed (h : Measured s) (hlive : ReadsLive c s path) (offset numBlks : ℤ)
    (random : List ℕ) : WriteFramed c s path offset numBlks random := by
  intro ret hret hok
  have heffect := perform_effect (c := c) h.log h.mapped (.write path offset numBlks random)
  generalize perform c s (.write path offset numBlks random) = result at heffect hret ⊢
  cases heffect with
  | raises => cases hret
  | refused => exact absurd (Option.some.inj hret).symm hok
  | @writes _ _ _ _ n i t target regular inRange written view logs =>
      have hn := target.resolution
      have hi : inodeOf s n = some i := (hlive n hn).symm.trans target.inode
      have hsized := h.sizes.targets target regular.type
      have hgrown := (written.commit c [n]).1
      refine ⟨n, i, writtenInode s.disk i offset.toNat (makeRandomBlocks numBlks random), hn, hi,
        ?_, fun k => ?_⟩
      · rw [written.mapped.inodeOf_eq hgrown.kept (congrFun hgrown.inodeMap n), view,
          Function.update_self]
      · have hend : ret = (potentialWrites offset.toNat s.disk.length
            (makeRandomBlocks numBlks random)).2 - offset.toNat := (Option.some.inj hret).symm
        have hrange : (offset ≤ k ∧ k < offset + ret) ↔ (offset.toNat ≤ k ∧
            k < (potentialWrites offset.toNat s.disk.length
              (makeRandomBlocks numBlks random)).2) := by
          omega
        rw [writtenInode, setPointers_getElem? _ _ _ hsized.length, hrange]
        split
        · next hin =>
            refine iff_of_false (fun heq => ?_) (not_not.mpr hin)
            -- the blocks that a file has are on disk before it is written
            obtain ⟨contents, hblock⟩ := regular.blocks _ (List.mem_of_getElem? heq.symm)
            have hlt := (List.getElem?_eq_some_iff.mp hblock).1
            omega
        · next hout => exact iff_of_true rfl hout

/-- In every run whose writes fit, files have their sizes, and writes set the pointers of their
range. -/
theorem size_law (h : Reach (execute c) (SizeFits c) LFS.init s) :
    (∀ n i, inodeOf s n = some i → i.type = .reg → HasSize i.pointers i.size) ∧
      ∀ path offset numBlks random, ReadsLive c s path →
        WriteFramed c s path offset numBlks random := by
  have hs := reach_measured h
  refine ⟨fun n i hi htype => (hs.sizes.inodeOf hi htype).size, ?_⟩
  exact fun path offset numBlks random hlive => hs.writeFramed hlive offset numBlks random

/-- A write that overlaps another, one of no blocks and one that is cut off. -/
def overlappingWrites : List Command :=
  [.call (.create ['/', 'a'] 0), .call (.write ['/', 'a'] 2 3 []),
    .call (.write ['/', 'a'] 4 1 []), .call (.write ['/', 'a'] 1 0 []),
    .call (.write ['/', 'a'] 6 5 [])]

theorem size_law_overlappingWrites :
    ∃ s i, run (execute defaults) LFS.init overlappingWrites = some s ∧
      inodeOf s 1 = some i ∧ i.size = 8 ∧ HasSize i.pointers i.size ∧
      WriteFramed defaults s ['/', 'a'] 3 0 [] := by
  have hrun : ((run (execute defaults) LFS.init overlappingWrites).bind fun s =>
      (inodeOf s 1).map fun i => (i.type, i.size)) = some (.reg, 8) := by decide +kernel
  obtain ⟨s, hs, hmap⟩ := Option.bind_eq_some_iff.mp hrun
  obtain ⟨i, hi, hpair⟩ := Option.map_eq_some_iff.mp hmap
  obtain ⟨htype, hsize⟩ := Prod.mk.inj hpair
  have hmeets : RunMeets (execute defaults) (SizeFits defaults) LFS.init overlappingWrites :=
    runMeets_of_check (by decide +kernel)
  have hreach := reach_of_run _ hmeets hs
  obtain ⟨hsizes, hframed⟩ := size_law hreach
  exact ⟨s, i, hs, hi, hsize, hsizes 1 i hi htype,
    hframed _ 3 0 [] (readsLive_memory (reach_measured hreach).log rfl)⟩

/-- A write of no blocks behind the end of a file makes it longer. -/
theorem empty_write_extends : ¬ ∀ s, Reach (execute defaults) anyStep LFS.init s →
    ∀ n i, inodeOf s n = some i → i.type = .reg → HasSize i.pointers i.size := by
  intro hall
  have hrun : ((run (execute defaults) LFS.init
      [.call (.create ['/', 'a'] 0), .call (.write ['/', 'a'] 3 0 [])]).bind fun s =>
        (inodeOf s 1).map fun i => (i.type, i.size, i.pointers)) =
      some (.reg, 3, List.replicate 8 none) := by decide +kernel
  obtain ⟨s, hs, hmap⟩ := Option.bind_eq_some_iff.mp hrun
  obtain ⟨i, hi, hresults⟩ := Option.map_eq_some_iff.mp hmap
  obtain ⟨htype, hresults⟩ := Prod.mk.inj hresults
  obtain ⟨hsize, hpointers⟩ := Prod.mk.inj hresults
  have hlast := (hasSize_iff.mp (hall s (reach_of_run_anyStep _ hs) 1 i hi htype)).2
  rw [hsize, hpointers] at hlast
  exact hlast (by decide) rfl

end OsLabs.Lfs
