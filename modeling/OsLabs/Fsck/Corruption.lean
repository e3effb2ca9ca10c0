import Mathlib
import OsLabs.Lib.Transition
import OsLabs.Fsck.FileSystem

/-!
# Corruptions can be detected

A corruption changes one thing on a consistent disk. It leaves the disk inconsistent unless it
gives an entry another name that no other entry of the directory has.
-/

namespace OsLabs.Fsck

open OsLabs.Transition
open Vsfs (Path FType Inode)

variable {s s' : Disk} {ftype newType : FType} {n d b index : ℕ} {name : Path}
  {entries pre post : List Entry} {e : Entry}

/-! ## Consistent disks -/

def Allocated (s : Disk) (n : ℕ) : Prop := n < s.numInodes ∧ (s.inodes n).ftype ≠ .free

def IsDir (s : Disk) (n : ℕ) : Prop := n < s.numInodes ∧ (s.inodes n).ftype = .d

instance (s : Disk) (n : ℕ) : Decidable (Allocated s n) := inferInstanceAs (Decidable (_ ∧ _))

instance (s : Disk) (n : ℕ) : Decidable (IsDir s n) := inferInstanceAs (Decidable (_ ∧ _))

def entriesOf (s : Disk) (d : ℕ) : List Entry :=
  if IsDir s d then
    match (s.inodes d).addr with
    | none => []
    | some b => (s.data b).dirList
  else []

def isDots (name : Path) : Bool := name = ['.'] || name = ['.', '.']

/-- The bitmaps agree with the types. -/
def BitsAgree (s : Disk) : Prop :=
  (∀ n < s.numInodes, (s.ibitmap.bmap n = true ↔ (s.inodes n).ftype ≠ .free)) ∧
    ∀ b < s.numData, (s.dbitmap.bmap b = true ↔ (s.data b).ftype ≠ .free)

/-- A file counts the entries that name it, a directory those of its subdirectories and two. -/
def LinksCounted (s : Disk) : Prop :=
  ∀ n < s.numInodes,
    ((s.inodes n).ftype = .f → (s.inodes n).refCnt =
      (∑ d ∈ Finset.range s.numInodes, (entriesOf s d).countP fun e => e.2 = some n : ℕ)) ∧
    ((s.inodes n).ftype = .d → (s.inodes n).refCnt =
      2 + ((entriesOf s n).countP fun e => !isDots e.1 && e.2.any fun m => IsDir s m : ℕ))

def NamesUnique (s : Disk) : Prop :=
  ∀ d < s.numInodes, ((entriesOf s d).map Prod.fst).Nodup

def EntriesAllocated (s : Disk) : Prop :=
  ∀ d < s.numInodes, ∀ e ∈ entriesOf s d, ∃ n < s.numInodes, e.2 = some n ∧ Allocated s n

def Owns (s : Disk) (n b : ℕ) : Prop := Allocated s n ∧ (s.inodes n).addr = some b

/-- The block of an inode has its type, and no other inode has it; every block in use is owned. -/
def BlocksOwned (s : Disk) : Prop :=
  (∀ n < s.numInodes, Allocated s n → ∀ b ∈ (s.inodes n).addr,
    b < s.numData ∧ (s.data b).ftype = (s.inodes n).ftype ∧ ∀ m < s.numInodes, Owns s m b → m = n) ∧
  ∀ b < s.numData, (s.data b).ftype ≠ .free → ∃ n < s.numInodes, Owns s n b

/-- The directory starts with itself and `p`, which has an entry for it. -/
def DotsOk (s : Disk) (d p : ℕ) : Prop :=
  IsDir s p ∧ (entriesOf s d).take 2 = [(['.'], some d), (['.', '.'], some p)] ∧
    (d = ROOT → p = ROOT) ∧ (d ≠ ROOT → some d ∈ ((entriesOf s p).drop 2).map Prod.snd)

def DotsCorrect (s : Disk) : Prop :=
  IsDir s ROOT ∧ ∀ d < s.numInodes, IsDir s d → ∃ p < s.numInodes, DotsOk s d p

def Consistent (s : Disk) : Prop :=
  BitsAgree s ∧ LinksCounted s ∧ NamesUnique s ∧ EntriesAllocated s ∧ BlocksOwned s ∧ DotsCorrect s

instance (s : Disk) : Decidable (BitsAgree s) :=
  inferInstanceAs (Decidable ((∀ n, n < s.numInodes → _) ∧ ∀ b, b < s.numData → _))

instance (s : Disk) : Decidable (LinksCounted s) :=
  inferInstanceAs (Decidable (∀ n, n < s.numInodes → _ ∧ _))

instance (s : Disk) : Decidable (NamesUnique s) :=
  inferInstanceAs (Decidable (∀ d, d < s.numInodes → _))

instance (s : Disk) : Decidable (EntriesAllocated s) :=
  inferInstanceAs (Decidable (∀ d, d < s.numInodes → _))

instance (s : Disk) (n b : ℕ) : Decidable (Owns s n b) := inferInstanceAs (Decidable (_ ∧ _))

instance (s : Disk) : Decidable (BlocksOwned s) :=
  inferInstanceAs (Decidable ((∀ n, n < s.numInodes → _) ∧ ∀ b, b < s.numData → _))

instance (s : Disk) (d p : ℕ) : Decidable (DotsOk s d p) :=
  inferInstanceAs (Decidable (_ ∧ _ ∧ _ ∧ _))

instance (s : Disk) : Decidable (DotsCorrect s) :=
  inferInstanceAs (Decidable (_ ∧ ∀ d, d < s.numInodes → _))

instance (s : Disk) : Decidable (Consistent s) :=
  inferInstanceAs (Decidable (_ ∧ _ ∧ _ ∧ _ ∧ _ ∧ _))

/-! ## Random choices -/

theorem randomRandint_lt {length random : ℕ} (h : 0 < length) :
    randomRandint 0 (length - 1) random < length := by
  have hpos : 0 < length - 1 - 0 + 1 := Nat.succ_pos _
  have hlt := Nat.mod_lt random hpos
  rw [randomRandint]
  omega

theorem randomChoice_mem {α : Type} {L : List α} {random : ℕ} {x : α}
    (h : randomChoice L random = some x) : x ∈ L :=
  List.mem_of_getElem? h

theorem pickRandom_spec {random : ℕ} (h : pickRandom s ftype random = some n) :
    n < s.numInodes ∧ (s.inodes n).ftype = ftype := by
  obtain ⟨hrange, htype⟩ := List.mem_filter.mp (randomChoice_mem h)
  exact ⟨List.mem_range.mp hrange, of_decide_eq_true htype⟩

theorem findFreeData_spec {random : ℕ} (h : findFreeData s random = some b) :
    b < s.numData ∧ (s.data b).ftype = .free := by
  obtain ⟨hrange, htype⟩ := List.mem_filter.mp (randomChoice_mem h)
  exact ⟨List.mem_range.mp hrange, of_decide_eq_true htype⟩

/-- No name is one of the dots. -/
theorem isDots_makeName (random : ℕ) : isDots (makeName random) = false := by
  have hpos : 0 < 26 := by decide
  have hlt : randomRandint 0 25 random < 26 := randomRandint_lt hpos
  have hall : ∀ k < 26, isDots [Char.ofNat ('a'.toNat + k)] = false := by decide
  exact hall _ hlt

/-! ## Inodes and bitmaps -/

theorem onInode_eq_some {method : Inode → Inode} (h : s.onInode n method = some s') :
    n < s.numInodes ∧ s' = s.setInode n (method (s.inodes n)) := by
  obtain ⟨i, hi, rfl⟩ := Option.map_eq_some_iff.mp h
  rw [Disk.inode] at hi
  split at hi
  · next hlt => exact ⟨hlt, Option.some.inj hi ▸ rfl⟩
  · cases hi

theorem setInode_self (s : Disk) (n : ℕ) (i : Inode) : (s.setInode n i).inodes n = i :=
  Function.update_self ..

theorem entriesOf_eq (hd : IsDir s d) (haddr : (s.inodes d).addr = some b) :
    entriesOf s d = (s.data b).dirList := by
  rw [entriesOf, if_pos hd, haddr]

theorem entriesOf_eq_nil (haddr : (s.inodes d).addr = none) : entriesOf s d = [] := by
  rw [entriesOf, haddr]
  exact ite_self _

/-- Entries depend on the types and the addresses of inodes, and on the lists of blocks. -/
theorem entriesOf_congr (hnum : s'.numInodes = s.numInodes)
    (htype : (s'.inodes d).ftype = (s.inodes d).ftype)
    (haddr : (s'.inodes d).addr = (s.inodes d).addr)
    (hdata : IsDir s d → ∀ b, (s.inodes d).addr = some b →
      (s'.data b).dirList = (s.data b).dirList) : entriesOf s' d = entriesOf s d := by
  have hdir : IsDir s' d ↔ IsDir s d := by rw [IsDir, IsDir, hnum, htype]
  by_cases hd : IsDir s d
  · rw [entriesOf, entriesOf, haddr, if_pos (hdir.mpr hd), if_pos hd]
    cases hb : (s.inodes d).addr with
    | none => rfl
    | some b => exact hdata hd b hb
  · rw [entriesOf, entriesOf, if_neg (hdir.not.mpr hd), if_neg hd]

theorem entriesOf_setInode {i : Inode} (htype : i.ftype = (s.inodes n).ftype)
    (haddr : i.addr = (s.inodes n).addr) (d : ℕ) :
    entriesOf (s.setInode n i) d = entriesOf s d ∧ (IsDir (s.setInode n i) d ↔ IsDir s d) := by
  have hsame : ((s.setInode n i).inodes d).ftype = (s.inodes d).ftype ∧
      ((s.setInode n i).inodes d).addr = (s.inodes d).addr := by
    by_cases hd : d = n
    · subst hd
      rw [setInode_self]
      exact ⟨htype, haddr⟩
    · have hother : (s.setInode n i).inodes d = s.inodes d := Function.update_of_ne hd ..
      rw [hother]
      exact ⟨rfl, rfl⟩
  refine ⟨entriesOf_congr rfl hsame.1 hsame.2 fun _ _ _ => rfl, ?_⟩
  rw [IsDir, IsDir, hsame.1]
  rfl

theorem Consistent.root (h : Consistent s) : IsDir s ROOT := h.2.2.2.2.2.1

/-- A directory has a block, and starts with the dots. -/
theorem Consistent.dir_block (h : Consistent s) (hd : IsDir s d) :
    ∃ b p, (s.inodes d).addr = some b ∧ b < s.numData ∧ entriesOf s d = (s.data b).dirList ∧
      (entriesOf s d).take 2 = [(['.'], some d), (['.', '.'], some p)] := by
  obtain ⟨-, -, -, -, hblocks, -, hdots⟩ := h
  obtain ⟨p, -, -, htake, -⟩ := hdots d hd.1 hd
  cases haddr : (s.inodes d).addr with
  | none =>
      rw [entriesOf_eq_nil haddr] at htake
      cases htake
  | some b =>
      have hallocated : Allocated s d := ⟨hd.1, by rw [hd.2]; decide⟩
      exact ⟨b, p, rfl, (hblocks.1 d hd.1 hallocated b haddr).1, entriesOf_eq hd haddr, htake⟩

theorem Bitmap.corrupt_eq_some {bits bits' : Bitmap} {which : ℕ}
    (h : bits.corrupt which = some bits') : bits'.bmap which = !bits.bmap which := by
  rw [Bitmap.corrupt] at h
  split at h
  · rw [← Option.some.inj h]
    exact Function.update_self ..
  · cases h

/-! ## What each corruption breaks -/

variable {r₁ r₂ r₃ : ℕ}

theorem Consistent.corruptDataBitmap (h : Consistent s) (hc : corruptDataBitmap s r₁ = some s') :
    ¬ BitsAgree s' := by
  obtain ⟨b, p, -, hb, -, -⟩ := h.dir_block h.root
  have hbit : randomRandint 0 (s.numData - 1) r₁ < s.numData := randomRandint_lt (by omega)
  obtain ⟨dbitmap, hdbitmap, rfl⟩ := Option.map_eq_some_iff.mp hc
  intro h'
  have hold := h.1.2 _ hbit
  have hnew := h'.2 _ hbit
  rw [Bitmap.corrupt_eq_some hdbitmap, ← hold] at hnew
  simp at hnew

theorem Consistent.corruptInodeBitmap (h : Consistent s)
    (hc : corruptInodeBitmap s r₁ = some s') : ¬ BitsAgree s' := by
  have hroot := h.root.1
  have hbit : randomRandint 0 (s.numInodes - 1) r₁ < s.numInodes := randomRandint_lt (by omega)
  obtain ⟨ibitmap, hibitmap, rfl⟩ := Option.map_eq_some_iff.mp hc
  intro h'
  have hold := h.1.1 _ hbit
  have hnew := h'.1 _ hbit
  rw [Bitmap.corrupt_eq_some hibitmap, ← hold] at hnew
  simp at hnew

theorem Consistent.setRefCnt (h : Consistent s) (hn : n < s.numInodes)
    (htype : (s.inodes n).ftype ≠ .free) {refCnt : ℤ} (hne : refCnt ≠ (s.inodes n).refCnt) :
    ¬ LinksCounted (s.setInode n { s.inodes n with refCnt }) := by
  intro h'
  obtain ⟨hfile, hdir⟩ := h.2.1 n hn
  obtain ⟨hfile', hdir'⟩ := h' n hn
  have hsame := entriesOf_setInode (s := s) (n := n) (i := { s.inodes n with refCnt }) rfl rfl
  simp only [setInode_self, fun d => (hsame d).1, fun d => (hsame d).2] at hfile' hdir'
  cases hcase : (s.inodes n).ftype with
  | free => exact htype hcase
  | f => exact hne ((hfile' hcase).trans (hfile hcase).symm)
  | d => exact hne ((hdir' hcase).trans (hdir hcase).symm)

theorem Consistent.corruptRefCnt (h : Consistent s) (htype : ftype ≠ .free)
    (hc : corruptRefCnt s ftype r₁ r₂ = some s') : ¬ LinksCounted s' := by
  obtain ⟨n, hpick, hend⟩ := Option.bind_eq_some_iff.mp hc
  obtain ⟨hn, hold⟩ := pickRandom_spec hpick
  split at hend
  · obtain ⟨-, rfl⟩ := onInode_eq_some hend
    exact h.setRefCnt hn (hold ▸ htype) (by omega)
  · obtain ⟨-, rfl⟩ := onInode_eq_some hend
    exact h.setRefCnt hn (hold ▸ htype) (by omega)

theorem Consistent.makeOrphan (h : Consistent s) (htype : ftype ≠ .free)
    (hc : makeOrphan s ftype r₁ = some s') : ¬ BitsAgree s' := by
  obtain ⟨n, hpick, hend⟩ := Option.bind_eq_some_iff.mp hc
  obtain ⟨hn, hfree⟩ := pickRandom_spec hpick
  obtain ⟨-, rfl⟩ := onInode_eq_some hend
  intro h'
  have hnew := h'.1 n hn
  rw [setInode_self] at hnew
  exact (h.1.1 n hn).mp (hnew.mpr htype) hfree

theorem pointToDeadBlock_owned (htype : ftype ≠ .free)
    (hc : pointToDeadBlock s ftype r₁ r₂ = some s') : ¬ BlocksOwned s' := by
  obtain ⟨n, hpick, hrest⟩ := Option.bind_eq_some_iff.mp hc
  obtain ⟨b, hfind, hend⟩ := Option.bind_eq_some_iff.mp hrest
  obtain ⟨hn, hold⟩ := pickRandom_spec hpick
  rw [← hold] at htype
  obtain ⟨-, hfree⟩ := findFreeData_spec hfind
  obtain ⟨-, rfl⟩ := onInode_eq_some hend
  intro h'
  have hself := setInode_self s n ((s.inodes n).setAddr b)
  have hallocated : Allocated (s.setInode n ((s.inodes n).setAddr b)) n :=
    ⟨hn, by rw [hself]; exact htype⟩
  have hsame := (h'.1 n hn hallocated b (by rw [hself]; rfl)).2.1
  rw [hself] at hsame
  exact htype (hsame.symm.trans hfree)

theorem Consistent.switchType (h : Consistent s) (hne : newType ≠ ftype)
    (htype : ftype ≠ .free) (hnew : newType ≠ .free) (hd : ftype = .d ∨ newType = .d)
    (hc : switchType s ftype newType r₁ = some s') : ¬ Consistent s' := by
  obtain ⟨n, hpick, hend⟩ := Option.bind_eq_some_iff.mp hc
  obtain ⟨hn, hold⟩ := pickRandom_spec hpick
  rw [← hold] at hne htype hd
  obtain ⟨-, rfl⟩ := onInode_eq_some hend
  intro h'
  have hself := setInode_self s n { s.inodes n with ftype := newType }
  have hallocated' : Allocated (s.setInode n { s.inodes n with ftype := newType }) n :=
    ⟨hn, by rw [hself]; exact hnew⟩
  cases haddr : (s.inodes n).addr with
  | none =>
      obtain hold | hdir := hd
      · obtain ⟨b, p, hb, -⟩ := h.dir_block ⟨hn, hold⟩
        cases haddr.symm.trans hb
      · obtain ⟨b, p, hb, -⟩ := h'.dir_block (d := n) ⟨hn, by rw [hself]; exact hdir⟩
        rw [hself] at hb
        cases haddr.symm.trans hb
  | some b =>
      have hold := (h.2.2.2.2.1.1 n hn ⟨hn, htype⟩ b haddr).2.1
      have hsame := (h'.2.2.2.2.1.1 n hn hallocated' b (by rw [hself]; exact haddr)).2.1
      rw [hself] at hsame
      exact hne (hsame.symm.trans hold)

/-! ## Altered entries -/

/-- The entry `e` of the directory `d` has become `contents`. -/
structure Altered (s s' : Disk) (d : ℕ) (pre : List Entry) (e contents : Entry)
    (post : List Entry) : Prop where
  dir : IsDir s d
  entries : entriesOf s d = pre ++ e :: post
  self : entriesOf s' d = pre ++ contents :: post
  other : ∀ x, x ≠ d → entriesOf s' x = entriesOf s x
  numInodes : s'.numInodes = s.numInodes
  numData : s'.numData = s.numData
  ibitmap : s'.ibitmap = s.ibitmap
  dbitmap : s'.dbitmap = s.dbitmap
  inodes : s'.inodes = s.inodes
  types : ∀ b, (s'.data b).ftype = (s.data b).ftype

variable {contents : Entry} {alter : Entry → Option Entry}

theorem onBlock_eq_some {method : Block → Option Block} (h : s.onBlock b method = some s') :
    ∃ blk, method (s.data b) = some blk ∧ s' = s.setBlock b blk := by
  obtain ⟨blk, hblk, hmethod⟩ := Option.bind_eq_some_iff.mp h
  obtain ⟨blk', hblk', hs'⟩ := Option.map_eq_some_iff.mp hmethod
  rw [Disk.block] at hblk
  split at hblk
  · exact ⟨blk', by rw [Option.some.inj hblk, hblk'], hs'.symm⟩
  · cases hblk

theorem setDirEntry_spec {blk blk' : Block} (he : blk.dirList[index]? = some e)
    (hset : blk.setDirEntry index contents = some blk') :
    ∃ pre post, pre.length = index ∧ blk.dirList = pre ++ e :: post ∧
      blk' = { blk with dirList := pre ++ contents :: post } := by
  obtain ⟨hlt, rfl⟩ := List.getElem?_eq_some_iff.mp he
  rw [Block.setDirEntry, if_pos hlt, List.set_eq_take_append_cons_drop, if_pos hlt] at hset
  refine ⟨_, _, ?_, ?_, (Option.some.inj hset).symm⟩
  · rw [List.length_take, min_eq_left hlt.le]
  · rw [List.cons_getElem_drop_succ, List.take_append_drop]

/-- No other directory has the block. -/
theorem Consistent.altered (h : Consistent s) (hd : IsDir s d) (haddr : (s.inodes d).addr = some b)
    (hentries : (s.data b).dirList = pre ++ e :: post) (contents : Entry) :
    Altered s (s.setBlock b { s.data b with dirList := pre ++ contents :: post }) d pre e contents
      post := by
  have hself : (s.setBlock b { s.data b with dirList := pre ++ contents :: post }).data b =
      { s.data b with dirList := pre ++ contents :: post } := Function.update_self ..
  have hallocated (x : ℕ) (hx : IsDir s x) : Allocated s x := ⟨hx.1, by rw [hx.2]; decide⟩
  refine ⟨hd, (entriesOf_eq hd haddr).trans hentries, ?_, fun x hx => ?_, rfl, rfl, rfl, rfl, rfl,
    fun b' => ?_⟩
  · rw [entriesOf_eq (s := s.setBlock b _) hd haddr, hself]
  · refine entriesOf_congr rfl rfl rfl fun hdir b' hb' => ?_
    have hne : b' ≠ b := by
      rintro rfl
      have halone := (h.2.2.2.2.1.1 d hd.1 (hallocated d hd) b' haddr).2.2
      exact hx (halone x hdir.1 ⟨hallocated x hdir, hb'⟩)
    exact congrArg Block.dirList (Function.update_of_ne hne ..)
  · by_cases hb' : b' = b
    · rw [hb', hself]
    · exact congrArg Block.ftype (Function.update_of_ne hb' ..)

theorem Consistent.alterEntry (h : Consistent s) (hc : alterEntry s r₁ r₂ alter = some s') :
    ∃ d pre e contents post, pickRandom s .d r₁ = some d ∧
      pre.length = randomRandint 0 ((entriesOf s d).length - 1) r₂ ∧
      alter e = some contents ∧ Altered s s' d pre e contents post := by
  obtain ⟨d, hpick, hrest⟩ := Option.bind_eq_some_iff.mp hc
  obtain ⟨i, hi, hrest⟩ := Option.bind_eq_some_iff.mp hrest
  have hdir : IsDir s d := pickRandom_spec hpick
  obtain ⟨b, p, haddr, hb, hentries, -⟩ := h.dir_block hdir
  have hinode : i = s.inodes d := by
    rw [Disk.inode, if_pos hdir.1] at hi
    exact (Option.some.inj hi).symm
  have hindex : s.index i.addr = b := by
    rw [hinode, haddr]
    rfl
  have hblock : s.block b = some (s.data b) := if_pos hb
  dsimp only at hrest
  rw [hindex, hblock, Option.bind_eq_bind, Option.bind_some] at hrest
  obtain ⟨e, he, hrest⟩ := Option.bind_eq_some_iff.mp hrest
  obtain ⟨contents, hcontents, hend⟩ := Option.bind_eq_some_iff.mp hrest
  obtain ⟨blk, hset, rfl⟩ := onBlock_eq_some hend
  obtain ⟨pre, post, hlength, hlist, rfl⟩ := setDirEntry_spec he hset
  exact ⟨d, pre, e, contents, post, hpick, hentries ▸ hlength, hcontents,
    h.altered hdir haddr hlist contents⟩

/-- An entry for an inode that is not allocated. -/
theorem Consistent.referToBadInode (h : Consistent s)
    (hc : referToBadInode s r₁ r₂ r₃ = some s') : ¬ EntriesAllocated s' := by
  obtain ⟨d, pre, e, contents, post, -, -, halter, ha⟩ := h.alterEntry hc
  obtain ⟨badInodeNum, hfind, rfl⟩ := Option.map_eq_some_iff.mp halter
  intro h'
  obtain ⟨n, hn, hnumber, -, htype⟩ := h' d (ha.numInodes ▸ ha.dir.1) (e.1, badInodeNum)
    (ha.self ▸ List.mem_append_right _ List.mem_cons_self)
  rw [ha.inodes] at htype
  rw [ha.numInodes] at hn
  rw [Bitmap.findFree] at hfind
  split at hfind
  · cases hnumber.symm.trans (Option.some.inj hfind).symm
  · obtain ⟨num, hnum, hsome⟩ := Option.map_eq_some_iff.mp hfind
    obtain rfl := Option.some.inj (hsome.trans hnumber)
    have hzero := (List.mem_filter.mp (List.mem_of_getElem? hnum)).2
    rw [(h.1.1 num hn).mpr htype] at hzero
    cases hzero

/-! ## Entries with other names -/

theorem Altered.snd (ha : Altered s s' d pre e (name, e.2) post) (x : ℕ) :
    (entriesOf s' x).map Prod.snd = (entriesOf s x).map Prod.snd := by
  by_cases hx : x = d
  · rw [hx, ha.self, ha.entries, List.map_append, List.map_append, List.map_cons, List.map_cons]
  · rw [ha.other x hx]

theorem Altered.isDir_iff (ha : Altered s s' d pre e contents post) (x : ℕ) :
    IsDir s' x ↔ IsDir s x := by
  rw [IsDir, IsDir, ha.numInodes, ha.inodes]

theorem Altered.allocated_iff (ha : Altered s s' d pre e contents post) (x : ℕ) :
    Allocated s' x ↔ Allocated s x := by
  rw [Allocated, Allocated, ha.numInodes, ha.inodes]

/-- The first two entries are the dots, the others are not. -/
theorem Altered.not_dots (h : Consistent s) (ha : Altered s s' d pre e contents post)
    (hpre : 2 ≤ pre.length) : isDots e.1 = false := by
  obtain ⟨-, p, -, -, -, htake⟩ := h.dir_block ha.dir
  have hunique := h.2.2.1 d ha.dir.1
  rw [ha.entries, List.take_append_of_le_length hpre] at htake
  rw [ha.entries, List.map_append, List.nodup_append] at hunique
  have hne (y : Entry) (hy : y ∈ pre.take 2) : e.1 ≠ y.1 := fun heq =>
    hunique.2.2 y.1 (List.mem_map_of_mem (List.mem_of_mem_take hy)) e.1 (by simp) heq.symm
  rw [htake] at hne
  have hdot := hne (['.'], some d) (by simp)
  have hdots := hne (['.', '.'], some p) (by simp)
  simp [isDots, hdot, hdots]

/-- A file system with an entry renamed. -/
theorem Consistent.renamed (h : Consistent s) (ha : Altered s s' d pre e (name, e.2) post)
    (hpre : 2 ≤ pre.length) (hname : isDots name = false)
    (hfresh : name ∉ (pre ++ post).map Prod.fst) : Consistent s' := by
  have hdots := ha.not_dots h hpre
  obtain ⟨hbits, hlinks, hnames, hallocated, hblocks, hroot, hdotsOk⟩ := h
  have hdrop (x : ℕ) : ((entriesOf s' x).drop 2).map Prod.snd =
      ((entriesOf s x).drop 2).map Prod.snd := by
    rw [List.map_drop, List.map_drop, ha.snd]
  have htake (x : ℕ) : (entriesOf s' x).take 2 = (entriesOf s x).take 2 := by
    by_cases hx : x = d
    · rw [hx, ha.self, ha.entries, List.take_append_of_le_length hpre,
        List.take_append_of_le_length hpre]
    · rw [ha.other x hx]
  have hcount (x n : ℕ) : (entriesOf s' x).countP (fun e => e.2 = some n) =
      (entriesOf s x).countP fun e => e.2 = some n := by
    have hmap (l : List Entry) : l.countP (fun e => e.2 = some n) =
        (l.map Prod.snd).countP fun y => y = some n := by
      rw [List.countP_map]
      rfl
    rw [hmap, hmap, ha.snd]
  have hsubdirs (x : ℕ) :
      (entriesOf s' x).countP (fun e => !isDots e.1 && e.2.any fun m => IsDir s' m) =
        (entriesOf s x).countP fun e => !isDots e.1 && e.2.any fun m => IsDir s m := by
    simp only [ha.isDir_iff]
    by_cases hx : x = d
    · rw [hx, ha.self, ha.entries, List.countP_append, List.countP_append, List.countP_cons,
        List.countP_cons, hdots, hname]
    · rw [ha.other x hx]
  refine ⟨⟨fun n hn => ?_, fun b hb => ?_⟩, fun n hn => ⟨fun htype => ?_, fun htype => ?_⟩,
    fun x hx => ?_, fun x hx y hy => ?_, ⟨fun n hn hn' b hb => ?_, fun b hb htype => ?_⟩,
    (ha.isDir_iff ROOT).mpr hroot, fun x hx hdir => ?_⟩
  · rw [ha.ibitmap, ha.inodes]
    exact hbits.1 n (ha.numInodes ▸ hn)
  · rw [ha.dbitmap, ha.types]
    exact hbits.2 b (ha.numData ▸ hb)
  · rw [ha.inodes] at htype ⊢
    rw [(hlinks n (ha.numInodes ▸ hn)).1 htype, ha.numInodes]
    simp only [hcount]
  · rw [ha.inodes] at htype ⊢
    rw [(hlinks n (ha.numInodes ▸ hn)).2 htype, hsubdirs]
  · have hold := hnames x (ha.numInodes ▸ hx)
    by_cases hxd : x = d
    · rw [hxd, ha.entries, (List.perm_middle.map Prod.fst).nodup_iff, List.map_cons,
        List.nodup_cons] at hold
      rw [hxd, ha.self, (List.perm_middle.map Prod.fst).nodup_iff, List.map_cons, List.nodup_cons]
      exact ⟨hfresh, hold.2⟩
    · rwa [ha.other x hxd]
  · have hmem : y.2 ∈ (entriesOf s x).map Prod.snd := ha.snd x ▸ List.mem_map_of_mem hy
    obtain ⟨y', hy', hsame⟩ := List.mem_map.mp hmem
    obtain ⟨n, hn, hnumber, hn'⟩ := hallocated x (ha.numInodes ▸ hx) y' hy'
    exact ⟨n, ha.numInodes.symm ▸ hn, hsame.symm.trans hnumber, (ha.allocated_iff n).mpr hn'⟩
  · rw [ha.inodes] at hb ⊢
    rw [ha.numData, ha.types, ha.numInodes]
    obtain ⟨hlt, htype, halone⟩ :=
      hblocks.1 n (ha.numInodes ▸ hn) ((ha.allocated_iff n).mp hn') b hb
    refine ⟨hlt, htype, fun m hm howns => halone m hm ?_⟩
    rwa [Owns, ha.allocated_iff, ha.inodes] at howns
  · rw [ha.types] at htype
    obtain ⟨n, hn, howns⟩ := hblocks.2 b (ha.numData ▸ hb) htype
    refine ⟨n, ha.numInodes.symm ▸ hn, ?_⟩
    rwa [Owns, ha.allocated_iff, ha.inodes]
  · obtain ⟨p, hp, hpdir, hptake, hproot, hpentry⟩ :=
      hdotsOk x (ha.numInodes ▸ hx) ((ha.isDir_iff x).mp hdir)
    refine ⟨p, ha.numInodes.symm ▸ hp, (ha.isDir_iff p).mpr hpdir, (htake x).trans hptake, hproot,
      fun hne => ?_⟩
    rw [hdrop]
    exact hpentry hne

/-- An entry that takes the place of one of the dots, or has a name for the second time. -/
theorem Altered.not_consistent (ha : Altered s s' d pre e (name, e.2) post)
    (hname : isDots name = false) (h : pre.length < 2 ∨ name ∈ (pre ++ post).map Prod.fst) :
    ¬ Consistent s' := by
  intro h'
  have hdir : IsDir s' d := (ha.isDir_iff d).mpr ha.dir
  obtain hdots | htaken := h
  · obtain ⟨-, p, -, -, -, htake⟩ := h'.dir_block hdir
    have hmem : (name, e.2) ∈ (entriesOf s' d).take 2 := by
      rw [ha.self, List.take_append, List.take_cons (by omega)]
      exact List.mem_append_right _ List.mem_cons_self
    rw [htake, List.mem_pair] at hmem
    obtain heq | heq := hmem
    · rw [(Prod.mk.inj heq).1] at hname
      cases hname
    · rw [(Prod.mk.inj heq).1] at hname
      cases hname
  · have hunique := h'.2.2.1 d hdir.1
    rw [ha.self, (List.perm_middle.map Prod.fst).nodup_iff, List.map_cons, List.nodup_cons]
      at hunique
    exact hunique.1 htaken

/-! ## Corruptions -/

/-- The index of the entry that is altered. -/
def badIndex (s : Disk) (d r : ℕ) : ℕ := randomRandint 0 ((entriesOf s d).length - 1) r

/-- If an entry is renamed, it is one of the dots, or another entry has the new name. -/
def Detectable (s : Disk) (whichCorrupt : ℤ) (random : ℕ → ℕ) : Prop :=
  corruption whichCorrupt (random 0) = 7 → ∀ d ∈ pickRandom s .d (random 1),
    badIndex s d (random 2) < 2 ∨
      makeName (random 3) ∈ ((entriesOf s d).eraseIdx (badIndex s d (random 2))).map Prod.fst

instance (s : Disk) (whichCorrupt : ℤ) (random : ℕ → ℕ) :
    Decidable (Detectable s whichCorrupt random) :=
  inferInstanceAs (Decidable (_ = _ → ∀ d ∈ pickRandom s .d (random 1), _ ∨ _))

theorem Consistent.referToName_iff (h : Consistent s) (hc : referToName s r₁ r₂ r₃ = some s') :
    ¬ Consistent s' ↔ ∀ d ∈ pickRandom s .d r₁, badIndex s d r₂ < 2 ∨
      makeName r₃ ∈ ((entriesOf s d).eraseIdx (badIndex s d r₂)).map Prod.fst := by
  obtain ⟨d, pre, e, contents, post, hpick, hlength, halter, ha⟩ := h.alterEntry hc
  obtain rfl := Option.some.inj halter
  have hname := isDots_makeName r₃
  have hothers : (entriesOf s d).eraseIdx (badIndex s d r₂) = pre ++ post := by
    rw [badIndex, ← hlength, ha.entries, List.eraseIdx_append_of_length_le le_rfl, Nat.sub_self,
      List.eraseIdx_cons_zero]
  rw [hpick]
  simp only [Option.mem_def, Option.some.injEq, forall_eq', hothers]
  rw [badIndex, ← hlength]
  refine ⟨fun hnot => ?_, fun hcases => ha.not_consistent hname hcases⟩
  by_contra hfits
  rw [not_or, not_lt] at hfits
  exact hnot (h.renamed ha hfits.1 hname hfits.2)

/-- A corruption of a consistent disk is detectable, unless it gives an entry a new name. -/
theorem corrupt_detectable_iff (h : Consistent s) {whichCorrupt : ℤ} {random : ℕ → ℕ}
    (hc : corrupt s whichCorrupt random = some s') :
    ¬ Consistent s' ↔ Detectable s whichCorrupt random := by
  rw [Detectable]
  rw [corrupt] at hc
  generalize corruption whichCorrupt (random 0) = num at hc ⊢
  have hbroken (hne : num ≠ 7) (hnot : ¬ Consistent s') : ¬ Consistent s' ↔ (num = 7 →
      ∀ d ∈ pickRandom s .d (random 1), badIndex s d (random 2) < 2 ∨ makeName (random 3) ∈
        ((entriesOf s d).eraseIdx (badIndex s d (random 2))).map Prod.fst) :=
    iff_of_true hnot fun hseven => absurd hseven hne
  by_cases hnum : num = 0
  · rw [if_pos hnum] at hc
    exact hbroken (by omega) fun h' => h.corruptDataBitmap hc h'.1
  rw [if_neg hnum] at hc
  by_cases hnum : num = 1
  · rw [if_pos hnum] at hc
    exact hbroken (by omega) fun h' => h.corruptInodeBitmap hc h'.1
  rw [if_neg hnum] at hc
  by_cases hnum : num = 2
  · rw [if_pos hnum] at hc
    exact hbroken (by omega) fun h' => h.corruptRefCnt (by decide) hc h'.2.1
  rw [if_neg hnum] at hc
  by_cases hnum : num = 8
  · rw [if_pos hnum] at hc
    exact hbroken (by omega) fun h' => h.corruptRefCnt (by decide) hc h'.2.1
  rw [if_neg hnum] at hc
  by_cases hnum : num = 3
  · rw [if_pos hnum] at hc
    exact hbroken (by omega) fun h' => h.makeOrphan (by decide) hc h'.1
  rw [if_neg hnum] at hc
  by_cases hnum : num = 9
  · rw [if_pos hnum] at hc
    exact hbroken (by omega) fun h' => h.makeOrphan (by decide) hc h'.1
  rw [if_neg hnum] at hc
  by_cases hnum : num = 4
  · rw [if_pos hnum] at hc
    exact hbroken (by omega) fun h' =>
      pointToDeadBlock_owned (by decide) hc h'.2.2.2.2.1
  rw [if_neg hnum] at hc
  by_cases hnum : num = 10
  · rw [if_pos hnum] at hc
    exact hbroken (by omega) fun h' =>
      pointToDeadBlock_owned (by decide) hc h'.2.2.2.2.1
  rw [if_neg hnum] at hc
  by_cases hnum : num = 5
  · rw [if_pos hnum] at hc
    exact hbroken (by omega) <|
      h.switchType (by decide) (by decide) (by decide) (Or.inr rfl) hc
  rw [if_neg hnum] at hc
  by_cases hnum : num = 11
  · rw [if_pos hnum] at hc
    exact hbroken (by omega) <|
      h.switchType (by decide) (by decide) (by decide) (Or.inl rfl) hc
  rw [if_neg hnum] at hc
  by_cases hnum : num = 6
  · rw [if_pos hnum] at hc
    exact hbroken (by omega) fun h' => h.referToBadInode hc h'.2.2.2.1
  rw [if_neg hnum] at hc
  by_cases hseven : num = 7
  · rw [if_pos hseven] at hc
    exact (h.referToName_iff hc).trans ⟨fun hall _ => hall, fun hall => hall hseven⟩
  · rw [if_neg hseven] at hc
    cases hc

/-- A linked file in a directory and an empty one. -/
def linkedFile : List Act :=
  [.create 0 0 0 0, .mkdir 0 1 2 3, .link 1 2 0, .append 0 1 2, .create 1 3 1 0]

/-- A file of the directory gets the name that the other one has. -/
def nameTwice (k : ℕ) : ℕ := [7, 1, 3, 2].getD k 0

theorem corrupt_detectable_iff_linkedFile :
    ∃ s₀ s s', Fs.init 8 8 = some s₀ ∧ run step s₀ linkedFile = some s ∧
      corrupt s.disk (-1) nameTwice = some s' ∧ ¬ Consistent s' := by
  have hrun : ((Fs.init 8 8).bind fun s₀ => (run step s₀ linkedFile).bind fun s =>
      (corrupt s.disk (-1) nameTwice).map fun s' => decide (Consistent s.disk) &&
        decide (Detectable s.disk (-1) nameTwice)) = some true := by
    decide +kernel
  obtain ⟨s₀, hs₀, hrun⟩ := Option.bind_eq_some_iff.mp hrun
  obtain ⟨s, hs, hrun⟩ := Option.bind_eq_some_iff.mp hrun
  obtain ⟨s', hs', hboth⟩ := Option.map_eq_some_iff.mp hrun
  obtain ⟨hconsistent, hdetectable⟩ := Bool.and_eq_true_iff.mp hboth
  exact ⟨s₀, s, s', hs₀, hs, hs', (corrupt_detectable_iff (of_decide_eq_true hconsistent) hs').mpr
    (of_decide_eq_true hdetectable)⟩

/-- A file gets a name that is not taken. -/
theorem rename_undetectable : ¬ ∀ s₀ s, Fs.init 8 8 = some s₀ → Reach step anyStep s₀ s →
    Consistent s.disk → ∀ whichCorrupt random s', corrupt s.disk whichCorrupt random = some s' →
      ¬ Consistent s' := by
  intro hall
  have hrun : ((Fs.init 8 8).bind fun s₀ => (run step s₀ [.create 0 0 0 0]).bind fun s =>
      (corrupt s.disk 7 fun k => [0, 0, 2, 25].getD k 0).map fun s' =>
        decide (Consistent s.disk) && decide (Consistent s')) = some true := by
    decide +kernel
  obtain ⟨s₀, hs₀, hrun⟩ := Option.bind_eq_some_iff.mp hrun
  obtain ⟨s, hs, hrun⟩ := Option.bind_eq_some_iff.mp hrun
  obtain ⟨s', hs', hboth⟩ := Option.map_eq_some_iff.mp hrun
  obtain ⟨hconsistent, hconsistent'⟩ := Bool.and_eq_true_iff.mp hboth
  exact hall s₀ s hs₀ (reach_of_run_anyStep _ hs) (of_decide_eq_true hconsistent) _ _ s' hs'
    (of_decide_eq_true hconsistent')

end OsLabs.Fsck
