import Mathlib
import OsLabs.Lib.Transition
import OsLabs.Lfs.Operations

/-!
# The imap on disk

With forced checkpoints the imap pieces that the checkpoint region points to
hold the imap in memory. A link rewrites the piece of the directory only, so the
two agree as long as the linked inode lies in the same piece.
-/

namespace OsLabs.Lfs

open OsLabs.Transition

variable {c : Config} {s s' t : LFS} {a : Act} {n k : ℕ} {inums chunks : List ℕ}

/-- The address by the checkpoint region and the piece of the imap, an absent
piece counting as all `-1`. -/
def addressOnDisk (s : LFS) (inodeNumber : ℕ) : Option (Option ℕ) :=
  match s.disk[addrCheckpointBlock]? with
  | some (.checkpoint entries) =>
      match entries[inumToChunk inodeNumber]? with
      | none => none
      | some none => some none
      | some (some address) => imapEntry s.disk[address]? (inodeNumber % numInodesPerImapChunk)
  | _ => none

/-- A link that succeeds links an inode in the imap piece of the directory. -/
def OneChunk (c : Config) (s : LFS) : Act → Prop
  | .link srcpath dstpath => ∀ x ∈ linkedInodes c s srcpath dstpath,
      inumToChunk x.1 = inumToChunk x.2
  | _ => True

/-! ## Pieces of the imap -/

/-- The piece is on disk as it is in memory, or absent for no inode. -/
def ChunkOk (s : LFS) (k : ℕ) : Prop :=
  (s.cr[k]? = some none ∧ ∀ n, inumToChunk n = k → s.inodeMap n = none) ∨
    ∃ address, s.cr[k]? = some (some address) ∧ s.disk[address]? = some (makeImapChunk s k)

theorem makeImapChunk_congr (h : ∀ n, inumToChunk n = k → t.inodeMap n = s.inodeMap n) :
    makeImapChunk t k = makeImapChunk s k := by
  refine congrArg Block.imap (List.map_congr_left fun i hi => h _ ?_)
  have hi : i < 16 := List.mem_range.mp hi
  simp only [inumToChunk, numInodesPerImapChunk]
  omega

theorem ChunkOk.kept (h : ChunkOk s k) (hkept : Kept s.disk t.disk) (hcr : t.cr[k]? = s.cr[k]?)
    (hmap : ∀ n, inumToChunk n = k → t.inodeMap n = s.inodeMap n) : ChunkOk t k := by
  obtain ⟨hnone, hfree⟩ | ⟨address, haddress, hchunk⟩ := h
  · exact Or.inl ⟨hcr.trans hnone, fun n hn => (hmap n hn).trans (hfree n hn)⟩
  · refine Or.inr ⟨address, hcr.trans haddress, ?_⟩
    rw [makeImapChunk_congr hmap]
    exact hkept.imap hchunk

theorem ChunkOk.logChunk {j : ℕ} (hk : k < s.cr.length) (h : k = j ∨ ChunkOk s k) :
    ChunkOk (s.logChunk j) k := by
  by_cases hkj : k = j
  · subst hkj
    exact Or.inr ⟨s.disk.length, List.getElem?_set_self hk, List.getElem?_concat_length⟩
  · obtain h | h := h
    · exact absurd h hkj
    · exact h.kept (kept_log s _) (List.getElem?_set_ne (Ne.symm hkj)) fun _ _ => rfl

theorem chunkOk_updateImapFrom (inumList chunkList : List ℕ) (hk : k < s.cr.length)
    (hlist : k ∈ chunkList → ChunkOk s k) (h : k ∈ inumList.map inumToChunk ∨ ChunkOk s k) :
    ChunkOk (updateImapFrom s chunkList inumList) k := by
  induction inumList generalizing s chunkList with
  | nil =>
      obtain h | h := h
      · exact absurd h List.not_mem_nil
      · exact h
  | cons inum inumList ih =>
      rw [List.map_cons, List.mem_cons, or_assoc] at h
      rw [updateImapFrom]
      split
      · next hmem =>
          apply ih _ hk hlist
          obtain rfl | h := h
          · exact Or.inr (hlist hmem)
          · exact h
      · have hk' : k < (s.logChunk (inumToChunk inum)).cr.length := by
          rw [LFS.logChunk]
          exact (List.length_set).symm ▸ hk
        apply ih _ hk'
        · intro hmem
          obtain rfl | hmem := List.mem_cons.mp hmem
          · exact ChunkOk.logChunk hk (Or.inl rfl)
          · exact ChunkOk.logChunk hk (Or.inr (hlist hmem))
        · obtain rfl | hmem | hok := h
          · exact Or.inr (ChunkOk.logChunk hk (Or.inl rfl))
          · exact Or.inl hmem
          · exact Or.inr (ChunkOk.logChunk hk (Or.inr hok))

/-! ## The invariant -/

structure ImapOk (s : LFS) : Prop where
  log : LogOk s
  mapped : Mapped s
  chunks : ∀ k < numImapPtrsInCr, ChunkOk s k
  synced : s.disk[addrCheckpointBlock]? = some (.checkpoint s.cr)

theorem inodeMap_init (n : ℕ) : LFS.init.inodeMap n = if n = 0 then some 2 else none :=
  Function.update_apply (fun _ => none) 0 (some 2) n

theorem LogOk.remap (h : LogOk s) (n address : ℕ) : LogOk (s.remap n address) := h.congr rfl rfl

theorem logOk_init : LogOk LFS.init := by
  let s₀ : LFS := ⟨[.checkpoint (some 3 :: List.replicate 15 none)],
    some 3 :: List.replicate 15 none, fun _ => none⟩
  have h₀ : LogOk s₀ := by
    refine ⟨fun a b hb => ?_, ⟨_, rfl⟩, rfl⟩
    obtain rfl := List.mem_singleton.mp (List.mem_of_getElem? hb)
    trivial
  obtain ⟨h₁, ha₁⟩ := h₀.log (b := .dir (makeNewDirblock rootInode rootInode))
    (slotsOk_newDirblock (by decide) (by decide))
  have h₂ := (h₁.ok.log (makeInode_dir ha₁).ok).1.ok
  exact ((h₂.remap rootInode 2).log (b := makeImapChunk _ rootInode) trivial).1.ok

theorem mapped_init : Mapped LFS.init := by
  intro n hn
  rw [inodeMap_init] at hn
  split at hn
  · next hzero =>
      subst hzero
      exact ⟨by decide, _, rfl⟩
  · exact absurd rfl hn

theorem imapOk_init : ImapOk LFS.init := by
  refine ⟨logOk_init, mapped_init, fun k hk => ?_, rfl⟩
  obtain rfl | hpos := Nat.eq_zero_or_pos k
  · exact Or.inr ⟨3, rfl, rfl⟩
  · refine Or.inl ⟨?_, fun n hn => ?_⟩
    · obtain ⟨j, rfl⟩ := Nat.exists_eq_succ_of_ne_zero hpos.ne'
      have hj : j < 15 := Nat.lt_of_succ_lt_succ hk
      have hcr : LFS.init.cr = some 3 :: List.replicate 15 none := rfl
      rw [hcr, List.getElem?_cons_succ, List.getElem?_replicate_of_lt hj]
    · rw [inodeMap_init, if_neg]
      rintro rfl
      exact hpos.ne hn

/-- What is left of a call after the new inodes are mapped. -/
theorem Written.commit (hw : Written inums s t) (c : Config) (chunks : List ℕ) :
    Grown t ((t.updateImap chunks).sync c) ∧ Mapped ((t.updateImap chunks).sync c) := by
  have hgrown := (hw.ok.updateImap chunks).trans ((hw.ok.updateImap chunks).ok.sync c)
  exact ⟨hgrown, hw.mapped.grown hgrown⟩

/-- The pieces of all the inodes that were mapped anew are written. -/
theorem ImapOk.commit (h : ImapOk s) (hforce : c.noForceCheckpoints = false)
    (hw : Written inums s t)
    (hchunks : ∀ n ∈ inums, inumToChunk n ∈ chunks.map inumToChunk) :
    ImapOk ((t.updateImap chunks).sync c) := by
  obtain ⟨hgrown, hmapped⟩ := hw.commit c chunks
  have hsync : (t.updateImap chunks).sync c = (t.updateImap chunks).crSync := by
    rw [LFS.sync, hforce]
    rfl
  refine ⟨hgrown.ok, hmapped, fun k hk => ?_, ?_⟩
  · have hok : k ∈ chunks.map inumToChunk ∨ ChunkOk t k := by
      by_cases hmem : k ∈ chunks.map inumToChunk
      · exact Or.inl hmem
      · refine Or.inr ((h.chunks k hk).kept hw.kept (congrArg (fun cr => cr[k]?) hw.cr) ?_)
        rintro n rfl
        exact hw.same n fun hn => hmem (hchunks n hn)
    rw [hsync]
    refine (chunkOk_updateImapFrom chunks [] (hw.ok.cr_length ▸ hk) (by simp) hok).kept ?_ rfl
      fun _ _ => rfl
    exact (hw.ok.updateImap chunks).ok.crSync.kept
  · obtain ⟨entries, hfirst⟩ := (hw.ok.updateImap chunks).ok.first
    rw [hsync]
    exact List.getElem?_set_self (List.getElem?_eq_some_iff.mp hfirst).1

theorem ImapOk.step {rc : Option ℤ} (h : ImapOk s) (hforce : c.noForceCheckpoints = false)
    (hguard : OneChunk c s a) (heffect : Effect c s a (s', rc)) : ImapOk s' := by
  cases heffect with
  | raises => exact h
  | refused => exact h
  | creates _ _ _ _ relinked => exact h.commit hforce relinked.written (by simp)
  | mkdirs _ _ _ _ relinked _ => exact h.commit hforce relinked.written (by simp)
  | links linked _ _ _ _ relinked =>
      refine h.commit hforce relinked.written fun m hm => ?_
      have hone := hguard _ linked
      simp only [List.mem_cons, List.not_mem_nil, or_false] at hm
      obtain rfl | rfl := hm
      · simp
      · simp [hone]
  | writes _ _ _ written _ _ => exact h.commit hforce written (by simp)
  | deletes _ _ _ _ relinked _ _ _ => exact h.commit hforce relinked.written (by simp)

theorem Reach.imapOk (hforce : c.noForceCheckpoints = false)
    (h : Reach (step c) (OneChunk c) LFS.init s) : ImapOk s := by
  refine h.invariant imapOk_init fun s a s' hs hguard hstep => ?_
  obtain rfl := Option.some.inj hstep
  exact hs.step hforce hguard (perform_effect hs.log hs.mapped a)

/-! ## Reading by the checkpoint region -/

theorem imapEntry_makeImapChunk (s : LFS) (n : ℕ) :
    imapEntry (some (makeImapChunk s (inumToChunk n))) (n % numInodesPerImapChunk) =
      some (s.inodeMap n) := by
  have hn : inumToChunk n * numInodesPerImapChunk + n % numInodesPerImapChunk = n :=
    Nat.div_add_mod' n numInodesPerImapChunk
  rw [makeImapChunk, imapEntry, List.getElem?_map,
    List.getElem?_range (Nat.mod_lt n (by decide)), Option.map_some, hn]

theorem ImapOk.addressOnDisk (h : ImapOk s) (hn : n < numInodes) :
    addressOnDisk s n = some (s.inodeMap n) := by
  have hk : inumToChunk n < numImapPtrsInCr := Nat.div_lt_of_lt_mul hn
  rw [Lfs.addressOnDisk, h.synced]
  obtain ⟨hnone, hfree⟩ | ⟨address, haddress, hchunk⟩ := h.chunks _ hk
  · simp only [hnone, hfree n rfl]
  · simp only [haddress, hchunk, imapEntry_makeImapChunk]

theorem Mapped.getInode (h : Mapped s) (hmem : c.useDiskCr = false) {i : Inode}
    (hi : inodeOf s n = some i) : getInodeFromInumber c s n = some i := by
  have hn : s.inodeMap n ≠ none := by
    intro hnone
    cases (inodeOf_eq_none hnone).symm.trans hi
  rw [getInode_eq, hmem, if_neg Bool.false_ne_true, if_pos (h n hn).1]
  exact hi

theorem ImapOk.getInode_eq (h : ImapOk s) {i : Inode} (hi : inodeOf s n = some i) :
    getInodeFromInumber c s n = some i := by
  cases hdisk : c.useDiskCr with
  | false => exact h.mapped.getInode hdisk hi
  | true =>
      have hn : s.inodeMap n ≠ none := by
        intro hnone
        cases (inodeOf_eq_none hnone).symm.trans hi
      rw [Lfs.getInode_eq, hdisk]
      have hk : n / numInodesPerImapChunk < numImapPtrsInCr :=
        Nat.div_lt_of_lt_mul (h.mapped n hn).1
      obtain ⟨-, hfree⟩ | ⟨address, haddress, hchunk⟩ := h.chunks _ hk
      · exact absurd (hfree n rfl) hn
      · have hpath : diskPathAddress s (n / numInodesPerImapChunk) (n % numInodesPerImapChunk) =
            some (s.inodeMap n) := by
          rw [diskPathAddress, h.synced]
          simp only [haddress, Option.bind_some, blockAt, hchunk]
          exact imapEntry_makeImapChunk s n
        rw [hpath]
        exact hi

theorem ImapOk.getInode (h : ImapOk s) (hn : s.inodeMap n ≠ none) :
    ∃ i, ∀ b, getInodeFromInumber { c with useDiskCr := b } s n = some i := by
  obtain ⟨-, i, hi⟩ := h.mapped n hn
  exact ⟨i, fun b => h.getInode_eq hi⟩

/-- In every run whose links stay within a piece of the imap, the disk and the
memory agree. -/
theorem disk_agrees (hforce : c.noForceCheckpoints = false)
    (h : Reach (step c) (OneChunk c) LFS.init s) :
    (∀ n < numInodes, addressOnDisk s n = some (s.inodeMap n)) ∧
      ∀ n, s.inodeMap n ≠ none →
        ∃ i, ∀ b, getInodeFromInumber { c with useDiskCr := b } s n = some i :=
  ⟨fun _ hn => (Reach.imapOk hforce h).addressOnDisk hn,
    fun _ hn => (Reach.imapOk hforce h).getInode hn⟩

instance (c : Config) (s : LFS) : ∀ a, Decidable (OneChunk c s a)
  | .link srcpath dstpath => inferInstanceAs (Decidable (∀ x ∈ linkedInodes c s srcpath dstpath,
      inumToChunk x.1 = inumToChunk x.2))
  | .create .. => isTrue trivial
  | .mkdir .. => isTrue trivial
  | .write .. => isTrue trivial
  | .delete .. => isTrue trivial

/-- The options at their defaults. -/
def defaults : Config := ⟨false, false, .sequential⟩

def linkFirst : List Act := [.create ['/', 'a'] 0, .link ['/', 'a'] ['/', 'b']]

theorem disk_agrees_linkFirst : ∃ s, run (step defaults) LFS.init linkFirst = some s ∧
    s.inodeMap 1 = some 10 ∧ addressOnDisk s 1 = some (some 10) := by
  have hrun : ((run (step defaults) LFS.init linkFirst).map fun s => s.inodeMap 1) =
      some (some 10) := by decide +kernel
  obtain ⟨s, hs, hmap⟩ := Option.map_eq_some_iff.mp hrun
  have hmeets : RunMeets (step defaults) (OneChunk defaults) LFS.init linkFirst :=
    runMeets_of_check (by decide +kernel)
  have hagrees := (disk_agrees rfl (reach_of_run linkFirst hmeets hs)).1 1 (by decide)
  exact ⟨s, hs, hmap, hmap ▸ hagrees⟩

/-- The random policy has drawn 16 for `/a`, which is in the second piece of the
imap, and the root is in the first. -/
def linkAcross : List Act := [.create ['/', 'a'] 15, .link ['/', 'a'] ['/', 'b']]

def randomInodes : Config := ⟨false, false, .random⟩

theorem link_forgets_piece :
    ¬ ∀ s, Reach (step randomInodes) anyStep LFS.init s →
      ∀ n < numInodes, addressOnDisk s n = some (s.inodeMap n) := by
  intro hall
  have hrun : ((run (step randomInodes) LFS.init linkAcross).map fun s =>
      decide (addressOnDisk s 16 = some (s.inodeMap 16))) = some false := by decide +kernel
  obtain ⟨s, hs, hdiffers⟩ := Option.map_eq_some_iff.mp hrun
  have hagrees := hall s (reach_of_run_anyStep linkAcross hs) 16 (by decide)
  exact of_decide_eq_false hdiffers hagrees

end OsLabs.Lfs
