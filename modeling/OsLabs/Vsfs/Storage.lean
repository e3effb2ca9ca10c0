import Mathlib
import OsLabs.Lib.Ownership
import OsLabs.Vsfs.FileSystem

/-!
# Bitmaps, inodes and blocks

What the bitmaps, the types of inodes and blocks and the block addresses have
to do with each other, and that taking and giving back inodes and blocks keeps
it.
-/

namespace OsLabs.Vsfs

/-! ## Bitmaps -/

def Bitmap.popcount (b : Bitmap) : ℕ := (List.range b.size).countP b.bmap

def Bitmap.mark (b : Bitmap) (num : ℕ) : Bitmap :=
  { b with bmap := Function.update b.bmap num true, numAllocated := b.numAllocated + 1 }

def Bitmap.clear (b : Bitmap) (num : ℕ) : Bitmap :=
  { b with bmap := Function.update b.bmap num false, numAllocated := b.numAllocated - 1 }

theorem Bitmap.alloc_cases (b : Bitmap) :
    b.alloc = (b, none) ∨
      ∃ num, num < b.size ∧ b.bmap num = false ∧ b.alloc = (b.mark num, some num) := by
  unfold Bitmap.alloc
  cases h : (List.range b.size).find? fun num => !b.bmap num with
  | none => exact Or.inl rfl
  | some num =>
      have hmem := List.mem_range.mp (List.mem_of_find?_eq_some h)
      have hfree := List.find?_some h
      exact Or.inr ⟨num, hmem, by simpa using hfree, rfl⟩

theorem Bitmap.free_eq {b : Bitmap} {num : ℕ} (hnum : num < b.size) (h : b.bmap num = true) :
    b.free num = some (b.clear num) :=
  if_pos ⟨hnum, h⟩

theorem mem_one_range {num size : ℕ} (hnum : num < size) {x : ℕ} (hx : x ∈ [num]) :
    x ∈ List.range size := by
  rw [List.mem_singleton.mp hx]
  exact List.mem_range.mpr hnum

theorem Bitmap.popcount_mark {b : Bitmap} {num : ℕ} (hnum : num < b.size)
    (h : b.bmap num = false) : (b.mark num).popcount = b.popcount + 1 := by
  have hcount := Ownership.countP_add_length (p := (b.mark num).bmap) (q := b.bmap)
    List.nodup_range (List.nodup_singleton num)
    (fun x hx => ⟨mem_one_range hnum hx, by simp [Bitmap.mark, List.mem_singleton.mp hx]⟩)
    (fun x => by by_cases hx : x = num <;> simp [Bitmap.mark, hx, h])
  exact hcount.symm

theorem Bitmap.popcount_clear {b : Bitmap} {num : ℕ} (hnum : num < b.size)
    (h : b.bmap num = true) : (b.clear num).popcount + 1 = b.popcount :=
  Ownership.countP_add_length (p := b.bmap) (q := (b.clear num).bmap)
    List.nodup_range (List.nodup_singleton num)
    (fun x hx => ⟨mem_one_range hnum hx, by rwa [List.mem_singleton.mp hx]⟩)
    (fun x => by by_cases hx : x = num <;> simp [Bitmap.clear, hx])

/-! ## The invariant -/

structure InodeOk (s : Disk) (i : ℕ) : Prop where
  bit : s.ibitmap.bmap i = true ↔ (s.inodes i).ftype ≠ .free
  free_addr : (s.inodes i).ftype = .free → (s.inodes i).addr = none
  dir_addr : (s.inodes i).ftype = .d → (s.inodes i).addr ≠ none
  addr_type : ∀ b, (s.inodes i).addr = some b →
    b < s.numData ∧ (s.data b).ftype = (s.inodes i).ftype

structure BlockOk (s : Disk) (b : ℕ) : Prop where
  bit : s.dbitmap.bmap b = true ↔ (s.data b).ftype ≠ .free
  nondir : (s.data b).ftype ≠ .d → (s.data b).dirList = [] ∧ (s.data b).dirUsed = 0
  dir : (s.data b).ftype = .d →
    (s.data b).dirUsed = (s.data b).dirList.length ∧ (s.data b).dirUsed ≤ maxUsed

structure StorageSound (s : Disk) : Prop where
  isize : s.ibitmap.size = s.numInodes
  dsize : s.dbitmap.size = s.numData
  icount : s.ibitmap.numAllocated = s.ibitmap.popcount
  dcount : s.dbitmap.numAllocated = s.dbitmap.popcount
  inode : ∀ i, i < s.numInodes → InodeOk s i
  block : ∀ b, b < s.numData → BlockOk s b
  addr_inj : ∀ i j b, i < s.numInodes → j < s.numInodes → (s.inodes i).addr = some b →
    (s.inodes j).addr = some b → i = j
  owned : ∀ b, b < s.numData → (s.data b).ftype ≠ .free →
    ∃ i, i < s.numInodes ∧ (s.inodes i).addr = some b

theorem InodeOk.free_of_bit {s : Disk} {i : ℕ} (h : InodeOk s i)
    (hfree : s.ibitmap.bmap i = false) : (s.inodes i).ftype = .free := by
  by_contra hne
  rw [h.bit.mpr hne] at hfree
  cases hfree

theorem BlockOk.free_of_bit {s : Disk} {b : ℕ} (h : BlockOk s b)
    (hfree : s.dbitmap.bmap b = false) : (s.data b).ftype = .free := by
  by_contra hne
  rw [h.bit.mpr hne] at hfree
  cases hfree

/-- `s'` differs from `s` in the inode `n` and the block it may point to, before
or after. -/
structure Changed (s s' : Disk) (n : ℕ) (addr : Option ℕ) : Prop where
  numInodes : s'.numInodes = s.numInodes
  numData : s'.numData = s.numData
  isize : s'.ibitmap.size = s.ibitmap.size
  dsize : s'.dbitmap.size = s.dbitmap.size
  inode : ∀ i, i ≠ n → s'.inodes i = s.inodes i ∧ s'.ibitmap.bmap i = s.ibitmap.bmap i
  block : ∀ b, addr ≠ some b → s'.data b = s.data b ∧ s'.dbitmap.bmap b = s.dbitmap.bmap b
  before : (s.inodes n).addr = none ∨ (s.inodes n).addr = addr
  after : (s'.inodes n).addr = none ∨ (s'.inodes n).addr = addr
  private_block : ∀ b m, addr = some b → m < s.numInodes → m ≠ n → (s.inodes m).addr ≠ some b

variable {s s' : Disk} {n : ℕ} {addr : Option ℕ}

theorem StorageSound.change (h : StorageSound s) (hc : Changed s s' n addr)
    (hn : n < s.numInodes) (hicount : s'.ibitmap.numAllocated = s'.ibitmap.popcount)
    (hdcount : s'.dbitmap.numAllocated = s'.dbitmap.popcount)
    (hinode : InodeOk s' n)
    (hblock : ∀ b, addr = some b → b < s.numData → BlockOk s' b ∧
      ((s'.data b).ftype ≠ .free → (s'.inodes n).addr = some b)) : StorageSound s' := by
  have hother : ∀ m b, m < s.numInodes → m ≠ n → (s.inodes m).addr = some b → addr ≠ some b :=
    fun m b hm hmn haddr heq => hc.private_block b m heq hm hmn haddr
  refine ⟨?_, ?_, hicount, hdcount, ?_, ?_, ?_, ?_⟩
  · rw [hc.isize, hc.numInodes, h.isize]
  · rw [hc.dsize, hc.numData, h.dsize]
  · intro i hi
    by_cases hin : i = n
    · exact hin ▸ hinode
    · rw [hc.numInodes] at hi
      obtain ⟨hsame, hbit⟩ := hc.inode i hin
      obtain ⟨bit, free_addr, dir_addr, addr_type⟩ := h.inode i hi
      refine ⟨by rw [hsame, hbit]; exact bit, by rwa [hsame], by rwa [hsame], ?_⟩
      intro b hb
      rw [hsame] at hb ⊢
      rw [(hc.block b (hother i b hi hin hb)).1, hc.numData]
      exact addr_type b hb
  · intro b hb
    rw [hc.numData] at hb
    by_cases hbn : addr = some b
    · exact (hblock b hbn hb).1
    · obtain ⟨hsame, hbit⟩ := hc.block b hbn
      obtain ⟨bit, nondir, dir⟩ := h.block b hb
      exact ⟨by rw [hsame, hbit]; exact bit, by rwa [hsame], by rwa [hsame]⟩
  · intro i j b hi hj hib hjb
    rw [hc.numInodes] at hi hj
    have hmix : ∀ k, k < s.numInodes → k ≠ n → (s'.inodes n).addr = some b →
        (s'.inodes k).addr ≠ some b := by
      intro k hk hkn hnb hkb
      rw [(hc.inode k hkn).1] at hkb
      obtain hnone | heq := hc.after
      · rw [hnb] at hnone
        cases hnone
      · exact hother k b hk hkn hkb (heq.symm.trans hnb)
    by_cases hin : i = n
    · by_cases hjn : j = n
      · rw [hin, hjn]
      · exact absurd hjb (hmix j hj hjn (hin ▸ hib))
    · by_cases hjn : j = n
      · exact absurd hib (hmix i hi hin (hjn ▸ hjb))
      · rw [(hc.inode i hin).1] at hib
        rw [(hc.inode j hjn).1] at hjb
        exact h.addr_inj i j b hi hj hib hjb
  · intro b hb htype
    rw [hc.numData] at hb
    rw [hc.numInodes]
    by_cases hbn : addr = some b
    · exact ⟨n, hn, (hblock b hbn hb).2 htype⟩
    · rw [(hc.block b hbn).1] at htype
      obtain ⟨i, hi, hib⟩ := h.owned b hb htype
      refine ⟨i, hi, ?_⟩
      by_cases hin : i = n
      · obtain hnone | heq := hc.before
        · rw [← hin, hib] at hnone
          cases hnone
        · exact absurd (heq.symm.trans (hin ▸ hib)) hbn
      · rw [(hc.inode i hin).1, hib]

/-! ## The operations -/

/-- A block that is not marked belongs to no inode. -/
theorem StorageSound.unowned (h : StorageSound s) {b m : ℕ} (hm : m < s.numInodes)
    (hbit : s.dbitmap.bmap b = false) : (s.inodes m).addr ≠ some b := by
  intro haddr
  obtain ⟨hb, htype⟩ := (h.inode m hm).addr_type b haddr
  have hfree := (h.block b hb).free_of_bit hbit
  rw [(h.inode m hm).free_addr (htype.symm.trans hfree)] at haddr
  cases haddr

theorem StorageSound.not_shared (h : StorageSound s) (hn : n < s.numInodes) {b m : ℕ}
    (haddr : (s.inodes n).addr = some b) (hm : m < s.numInodes) (hmn : m ≠ n) :
    (s.inodes m).addr ≠ some b :=
  fun hmb => hmn (h.addr_inj m n b hm hn hmb haddr)

/-- A directory changes its entries. -/
theorem StorageSound.setDirList (h : StorageSound s) {b : ℕ} {blk : Block} (hn : n < s.numInodes)
    (haddr : (s.inodes n).addr = some b) (hold : (s.inodes n).ftype = .d)
    (hnew : blk.ftype = .d) (hused : blk.dirUsed = blk.dirList.length)
    (hmax : blk.dirUsed ≤ maxUsed) : StorageSound (s.setBlock b blk) := by
  obtain ⟨hb, htype⟩ := (h.inode n hn).addr_type b haddr
  have hself : (s.setBlock b blk).data b = blk := by simp [Disk.setBlock]
  have hc : Changed s (s.setBlock b blk) n (some b) := by
    refine ⟨rfl, rfl, rfl, rfl, fun _ _ => ⟨rfl, rfl⟩, fun b' hb' => ⟨?_, rfl⟩, Or.inr haddr,
      Or.inr haddr, ?_⟩
    · have hne : b' ≠ b := fun heq => hb' (congrArg some heq.symm)
      simp [Disk.setBlock, hne]
    · rintro b' m ⟨⟩ hm hmn
      exact h.not_shared hn haddr hm hmn
  have hbit := (h.block b hb).bit
  apply h.change hc hn h.icount h.dcount
  · obtain ⟨bit, free_addr, dir_addr, _⟩ := h.inode n hn
    refine ⟨bit, free_addr, dir_addr, fun b' hb' => ?_⟩
    obtain rfl := Option.some.inj (haddr.symm.trans hb')
    exact ⟨hb, by rw [hself, hnew]; exact hold.symm⟩
  · rintro b' ⟨⟩ _
    refine ⟨⟨?_, ?_, ?_⟩, fun _ => haddr⟩
    · rw [hself, hnew]
      rw [htype, hold] at hbit
      exact hbit
    · rw [hself]
      exact fun hne => absurd hnew hne
    · rw [hself]
      exact fun _ => ⟨hused, hmax⟩

/-- The reference count of an inode changes. -/
theorem StorageSound.setRefCnt (h : StorageSound s) {i : Inode} (hn : n < s.numInodes)
    (htype : i.ftype = (s.inodes n).ftype) (haddr : i.addr = (s.inodes n).addr) :
    StorageSound (s.setInode n i) := by
  have hself : (s.setInode n i).inodes n = i := by simp [Disk.setInode]
  have hc : Changed s (s.setInode n i) n (s.inodes n).addr := by
    refine ⟨rfl, rfl, rfl, rfl, fun m hm => ⟨by simp [Disk.setInode, hm], rfl⟩,
      fun _ _ => ⟨rfl, rfl⟩, Or.inr rfl, Or.inr (by rw [hself, haddr]), ?_⟩
    exact fun b m hb hm hmn => h.not_shared hn hb hm hmn
  apply h.change hc hn h.icount h.dcount
  · obtain ⟨bit, free_addr, dir_addr, addr_type⟩ := h.inode n hn
    refine ⟨?_, ?_, ?_, ?_⟩ <;> rw [hself, htype]
    · exact bit
    · rwa [haddr]
    · rwa [haddr]
    · rwa [haddr]
  · intro b hb hbd
    obtain ⟨bit, nondir, dir⟩ := h.block b hbd
    exact ⟨⟨bit, nondir, dir⟩, fun _ => by rw [hself, haddr, hb]⟩

/-- A free inode becomes an empty file. -/
theorem StorageSound.newFile (h : StorageSound s) (hn : n < s.numInodes)
    (hfree : s.ibitmap.bmap n = false) (refCnt : ℤ) :
    StorageSound (Disk.setInode { s with ibitmap := s.ibitmap.mark n } n ⟨.f, none, refCnt⟩) := by
  have hnone : (s.inodes n).addr = none :=
    (h.inode n hn).free_addr ((h.inode n hn).free_of_bit hfree)
  have hcount := Bitmap.popcount_mark (h.isize ▸ hn) hfree
  have hself : (Disk.setInode { s with ibitmap := s.ibitmap.mark n } n
      ⟨.f, none, refCnt⟩).inodes n = ⟨.f, none, refCnt⟩ := by simp [Disk.setInode]
  have hc : Changed s (Disk.setInode { s with ibitmap := s.ibitmap.mark n } n ⟨.f, none, refCnt⟩)
      n none := by
    refine ⟨rfl, rfl, rfl, rfl, fun m hm => ?_, fun _ _ => ⟨rfl, rfl⟩, Or.inl hnone,
      Or.inl (by rw [hself]), fun b m hb => by cases hb⟩
    exact ⟨by simp [Disk.setInode, hm], by simp [Disk.setInode, Bitmap.mark, hm]⟩
  apply h.change hc hn _ h.dcount
  · refine ⟨?_, ?_, ?_, ?_⟩ <;> rw [hself]
    · simp [Disk.setInode, Bitmap.mark]
    · exact fun _ => rfl
    · exact fun hd => by cases hd
    · exact fun b hb => by cases hb
  · exact fun b hb => by cases hb
  · show s.ibitmap.numAllocated + 1 = ((s.ibitmap.mark n).popcount : ℤ)
    rw [hcount, h.icount]
    rfl

/-- A free inode becomes a directory in a free block. -/
theorem StorageSound.newDir (h : StorageSound s) {b : ℕ} {blk : Block} (hn : n < s.numInodes)
    (hfree : s.ibitmap.bmap n = false) (hb : b < s.numData) (hbfree : s.dbitmap.bmap b = false)
    (htype : blk.ftype = .d) (hused : blk.dirUsed = blk.dirList.length)
    (hmax : blk.dirUsed ≤ maxUsed) (refCnt : ℤ) :
    StorageSound ((Disk.setBlock { s with
      ibitmap := s.ibitmap.mark n
      dbitmap := s.dbitmap.mark b } b blk).setInode n ⟨.d, some b, refCnt⟩) := by
  have hnone : (s.inodes n).addr = none :=
    (h.inode n hn).free_addr ((h.inode n hn).free_of_bit hfree)
  have hicount := Bitmap.popcount_mark (h.isize ▸ hn) hfree
  have hdcount := Bitmap.popcount_mark (h.dsize ▸ hb) hbfree
  generalize hs' : (Disk.setBlock { s with
      ibitmap := s.ibitmap.mark n
      dbitmap := s.dbitmap.mark b } b blk).setInode n ⟨.d, some b, refCnt⟩ = s'
  have hinode : s'.inodes n = ⟨.d, some b, refCnt⟩ := by simp [← hs', Disk.setInode]
  have hblock : s'.data b = blk := by simp [← hs', Disk.setInode, Disk.setBlock]
  have hibit : s'.ibitmap = s.ibitmap.mark n := by rw [← hs']; rfl
  have hdbit : s'.dbitmap = s.dbitmap.mark b := by rw [← hs']; rfl
  have hdata : s'.numData = s.numData := by rw [← hs']; rfl
  have hc : Changed s s' n (some b) := by
    refine ⟨by rw [← hs']; rfl, hdata, by rw [hibit]; rfl, by rw [hdbit]; rfl, ?_, ?_,
      Or.inl hnone, Or.inr (by rw [hinode]), ?_⟩
    · intro m hm
      exact ⟨by simp [← hs', Disk.setInode, Disk.setBlock, hm], by simp [hibit, Bitmap.mark, hm]⟩
    · intro b' hb'
      have hne : b' ≠ b := fun heq => hb' (congrArg some heq.symm)
      exact ⟨by simp [← hs', Disk.setInode, Disk.setBlock, hne], by simp [hdbit, Bitmap.mark, hne]⟩
    · rintro b' m ⟨⟩ hm _
      exact h.unowned hm hbfree
  apply h.change hc hn
  · rw [hibit, hicount]
    show s.ibitmap.numAllocated + 1 = _
    rw [h.icount]
    rfl
  · rw [hdbit, hdcount]
    show s.dbitmap.numAllocated + 1 = _
    rw [h.dcount]
    rfl
  · refine ⟨?_, ?_, ?_, ?_⟩ <;> rw [hinode]
    · simp [hibit, Bitmap.mark]
    · exact fun hd => by cases hd
    · exact fun _ hd => by cases hd
    · rintro b' ⟨⟩
      exact ⟨hdata ▸ hb, by rw [hblock, htype]⟩
  · rintro b' ⟨⟩ _
    refine ⟨⟨?_, ?_, ?_⟩, fun _ => by rw [hinode]⟩ <;> rw [hblock]
    · simp [hdbit, Bitmap.mark, htype]
    · exact fun hne => absurd htype hne
    · exact fun _ => ⟨hused, hmax⟩

/-- An empty file gets a free block. -/
theorem StorageSound.newBlock (h : StorageSound s) {b : ℕ} {blk : Block} (hn : n < s.numInodes)
    (htype : (s.inodes n).ftype = .f) (hnone : (s.inodes n).addr = none)
    (hb : b < s.numData) (hbfree : s.dbitmap.bmap b = false)
    (hblk : blk.ftype = .f) (hlist : blk.dirList = [] ∧ blk.dirUsed = 0) :
    StorageSound ((Disk.setBlock { s with dbitmap := s.dbitmap.mark b } b blk).setInode n
      ((s.inodes n).setAddr b)) := by
  have hdcount := Bitmap.popcount_mark (h.dsize ▸ hb) hbfree
  have hibit := (h.inode n hn).bit
  generalize hs' : (Disk.setBlock { s with dbitmap := s.dbitmap.mark b } b blk).setInode n
      ((s.inodes n).setAddr b) = s'
  have hinode : s'.inodes n = ⟨.f, some b, (s.inodes n).refCnt⟩ := by
    simp [← hs', Disk.setInode, Inode.setAddr, htype]
  have hblock : s'.data b = blk := by simp [← hs', Disk.setInode, Disk.setBlock]
  have hdbit : s'.dbitmap = s.dbitmap.mark b := by rw [← hs']; rfl
  have hdata : s'.numData = s.numData := by rw [← hs']; rfl
  have hsame : s'.ibitmap = s.ibitmap := by rw [← hs']; rfl
  have hc : Changed s s' n (some b) := by
    refine ⟨by rw [← hs']; rfl, hdata, by rw [hsame], by rw [hdbit]; rfl, ?_, ?_,
      Or.inl hnone, Or.inr (by rw [hinode]), ?_⟩
    · intro m hm
      exact ⟨by simp [← hs', Disk.setInode, Disk.setBlock, hm], by rw [hsame]⟩
    · intro b' hb'
      have hne : b' ≠ b := fun heq => hb' (congrArg some heq.symm)
      exact ⟨by simp [← hs', Disk.setInode, Disk.setBlock, hne], by simp [hdbit, Bitmap.mark, hne]⟩
    · rintro b' m ⟨⟩ hm _
      exact h.unowned hm hbfree
  apply h.change hc hn
  · rw [hsame]
    exact h.icount
  · rw [hdbit, hdcount]
    show s.dbitmap.numAllocated + 1 = _
    rw [h.dcount]
    rfl
  · refine ⟨?_, ?_, ?_, ?_⟩ <;> rw [hinode]
    · rw [hsame, hibit, htype]
    · exact fun hd => by cases hd
    · exact fun hd => by cases hd
    · rintro b' ⟨⟩
      exact ⟨hdata ▸ hb, by rw [hblock, hblk]⟩
  · rintro b' ⟨⟩ _
    refine ⟨⟨?_, ?_, ?_⟩, fun _ => by rw [hinode]⟩ <;> rw [hblock]
    · simp [hdbit, Bitmap.mark, hblk]
    · exact fun _ => hlist
    · intro hd
      rw [hblk] at hd
      cases hd

theorem Bitmap.numAllocated_clear {b : Bitmap} {num : ℕ} (hcount : b.numAllocated = b.popcount)
    (hnum : num < b.size) (h : b.bmap num = true) :
    (b.clear num).numAllocated = (b.clear num).popcount := by
  have := Bitmap.popcount_clear hnum h
  show b.numAllocated - 1 = _
  omega

/-- A file without a block is freed. -/
theorem StorageSound.freeInode (h : StorageSound s) (hn : n < s.numInodes)
    (hused : (s.inodes n).ftype ≠ .free) (hnone : (s.inodes n).addr = none) :
    StorageSound (Disk.setInode { s with ibitmap := s.ibitmap.clear n } n
      (s.inodes n).free) := by
  have hbit := (h.inode n hn).bit.mpr hused
  generalize hs' : Disk.setInode { s with ibitmap := s.ibitmap.clear n } n (s.inodes n).free = s'
  have hinode : s'.inodes n = ⟨.free, none, (s.inodes n).refCnt⟩ := by
    simp [← hs', Disk.setInode, Inode.free]
  have hibit : s'.ibitmap = s.ibitmap.clear n := by rw [← hs']; rfl
  have hc : Changed s s' n none := by
    refine ⟨by rw [← hs']; rfl, by rw [← hs']; rfl, by rw [hibit]; rfl, by rw [← hs']; rfl, ?_,
      fun b _ => ⟨by rw [← hs']; rfl, by rw [← hs']; rfl⟩, Or.inl hnone,
      Or.inl (by rw [hinode]), fun b m hb => by cases hb⟩
    intro m hm
    exact ⟨by simp [← hs', Disk.setInode, hm], by simp [hibit, Bitmap.clear, hm]⟩
  apply h.change hc hn
  · rw [hibit]
    exact Bitmap.numAllocated_clear h.icount (h.isize ▸ hn) hbit
  · rw [← hs']
    exact h.dcount
  · refine ⟨?_, ?_, ?_, ?_⟩ <;> rw [hinode]
    · simp [hibit, Bitmap.clear]
    · exact fun _ => rfl
    · exact fun hd => by cases hd
    · exact fun b hb => by cases hb
  · exact fun b hb => by cases hb

/-- A file is freed with its block. -/
theorem StorageSound.freeBoth (h : StorageSound s) {b : ℕ} {blk : Block} (hn : n < s.numInodes)
    (hused : (s.inodes n).ftype = .f) (haddr : (s.inodes n).addr = some b)
    (hblk : blk.ftype = .free) (hlist : blk.dirList = [] ∧ blk.dirUsed = 0) :
    StorageSound (Disk.setInode { Disk.setBlock { s with dbitmap := s.dbitmap.clear b } b blk with
      ibitmap := s.ibitmap.clear n } n (s.inodes n).free) := by
  obtain ⟨hb, htype⟩ := (h.inode n hn).addr_type b haddr
  have hbit := (h.inode n hn).bit.mpr (by rw [hused]; decide)
  have hbbit := (h.block b hb).bit.mpr (by rw [htype, hused]; decide)
  generalize hs' : Disk.setInode { Disk.setBlock { s with dbitmap := s.dbitmap.clear b } b blk with
      ibitmap := s.ibitmap.clear n } n (s.inodes n).free = s'
  have hinode : s'.inodes n = ⟨.free, none, (s.inodes n).refCnt⟩ := by
    simp [← hs', Disk.setInode, Inode.free]
  have hblock : s'.data b = blk := by simp [← hs', Disk.setInode, Disk.setBlock]
  have hibit : s'.ibitmap = s.ibitmap.clear n := by rw [← hs']; rfl
  have hdbit : s'.dbitmap = s.dbitmap.clear b := by rw [← hs']; rfl
  have hc : Changed s s' n (some b) := by
    refine ⟨by rw [← hs']; rfl, by rw [← hs']; rfl, by rw [hibit]; rfl, by rw [hdbit]; rfl, ?_, ?_,
      Or.inr haddr, Or.inl (by rw [hinode]), ?_⟩
    · intro m hm
      exact ⟨by simp [← hs', Disk.setInode, Disk.setBlock, hm], by simp [hibit, Bitmap.clear, hm]⟩
    · intro b' hb'
      have hne : b' ≠ b := fun heq => hb' (congrArg some heq.symm)
      exact ⟨by simp [← hs', Disk.setInode, Disk.setBlock, hne],
        by simp [hdbit, Bitmap.clear, hne]⟩
    · rintro b' m ⟨⟩ hm hmn
      exact h.not_shared hn haddr hm hmn
  apply h.change hc hn
  · rw [hibit]
    exact Bitmap.numAllocated_clear h.icount (h.isize ▸ hn) hbit
  · rw [hdbit]
    exact Bitmap.numAllocated_clear h.dcount (h.dsize ▸ hb) hbbit
  · refine ⟨?_, ?_, ?_, ?_⟩ <;> rw [hinode]
    · simp [hibit, Bitmap.clear]
    · exact fun _ => rfl
    · exact fun hd => by cases hd
    · exact fun b hb => by cases hb
  · rintro b' ⟨⟩ _
    refine ⟨⟨?_, ?_, ?_⟩, fun hne => ?_⟩
    · simp [hblock, hdbit, Bitmap.clear, hblk]
    · rw [hblock]
      exact fun _ => hlist
    · rw [hblock, hblk]
      exact fun hd => by cases hd
    · rw [hblock] at hne
      exact absurd hblk hne

end OsLabs.Vsfs
