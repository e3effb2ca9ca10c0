import Mathlib
import OsLabs.Lib.Transition
import OsLabs.Lib.Ownership
import OsLabs.Ffs.FileSystem
import OsLabs.Ffs.Bitmap
import OsLabs.Ffs.Groups
import OsLabs.Ffs.Allocation
import OsLabs.Ffs.Operations

/-!
# Consistency of the file system

Both bitmaps are ownership tables: of the data blocks by the block lists, of
the inode numbers by the live inodes. `do_create` assigns to a fresh inode and
`do_delete` releases, as long as its divisions find the right entries.
-/

namespace OsLabs.Ffs

open OsLabs.Transition OsLabs.Ownership

/-- The inode number a live inode occupies. -/
def ownInode (s : FileSystem) (n : ℤ) : List ℤ := if Live s n then [n] else []

structure Consistent (c : Config) (s : FileSystem) : Prop where
  data : Owned (s.data_bitmap.at c.blocks_per_group) (blocksOf s)
  inodes : Owned (s.inode_bitmap.at c.inodes_per_group) (ownInode s)
  block_range : ∀ n, ∀ b ∈ blocksOf s n, 0 ≤ b ∧ b < c.num_groups * c.blocks_per_group
  inode_range : ∀ n, Live s n → 0 ≤ n ∧ n < c.num_groups * c.inodes_per_group
  data_free : s.total_data_free = s.data_bitmap.numFree c.num_groups c.blocks_per_group
  inodes_free : s.total_inodes_free = s.inode_bitmap.numFree c.num_groups c.inodes_per_group
  blocks_live : ∀ n, blocksOf s n ≠ [] → Live s n
  named : ∀ e ∈ s.name_to_inode_map, s.inode_blocks e.2 ≠ none
  entries : EntriesSound s

variable {c : Config} {s s' : FileSystem}

theorem mem_ownInode {n m : ℤ} : m ∈ ownInode s n ↔ Live s n ∧ m = n := by
  unfold ownInode
  split
  · simp [*]
  · simp [*]

theorem Consistent.fresh (h : Consistent c s) {n : ℤ}
    (hfree : s.inode_bitmap.at c.inodes_per_group n = none) :
    ¬ Live s n ∧ blocksOf s n = [] := by
  have hnew : ¬ Live s n :=
    fun hlive => h.inodes.free_iff.mp hfree n (mem_ownInode.mpr ⟨hlive, rfl⟩)
  exact ⟨hnew, not_not.mp fun hne => hnew (h.blocks_live n hne)⟩

theorem live_update {type : InodeType} {n m : ℤ}
    (htypes : s'.inode_type = Function.update s.inode_type n (some type)) (hm : m ≠ n) :
    Live s' m ↔ Live s m := by
  simp only [Live, htypes, Function.update_of_ne hm]

theorem ownInode_update {type : InodeType} {n m : ℤ}
    (htypes : s'.inode_type = Function.update s.inode_type n (some type)) (hm : m ≠ n) :
    ownInode s' m = ownInode s m := by
  simp only [ownInode, live_update htypes hm]

theorem blocksOf_update {blocks : List ℤ} {n m : ℤ}
    (hblocks : s'.inode_blocks = Function.update s.inode_blocks n (some blocks)) :
    blocksOf s' m = if m = n then blocks else blocksOf s m := by
  unfold blocksOf
  rw [hblocks]
  split
  · rename_i hm
    rw [hm, Function.update_self]
    rfl
  · rename_i hm
    rw [Function.update_of_ne hm]

/-! ## Creating -/

/-- A fresh inode gets free blocks. -/
theorem Consistent.created (h : Consistent c s) {s₁ : FileSystem} {path : Path} {size p : ℤ}
    {group index : ℤ} {type : InodeType} {blocks : List ℤ} {bitmap : Bitmap}
    (htype : type = .regular ∨ type = .directory)
    (hg0 : 0 ≤ group) (hg : group < c.num_groups)
    (hi0 : 0 ≤ index) (hi : index < c.inodes_per_group)
    (hfree : s.inode_bitmap.at c.inodes_per_group (index + group * c.inodes_per_group) = none)
    (hs₁ : s₁ = { s with data_bitmap := bitmap }) (hlength : blocks.length = size)
    (hnodup : blocks.Nodup)
    (hblocks : ∀ b ∈ blocks, (0 ≤ b ∧ b < c.num_groups * c.blocks_per_group) ∧
      s.data_bitmap.at c.blocks_per_group b = none)
    (hmarked : ∀ b, bitmap.at c.blocks_per_group b =
      if b ∈ blocks then some (index + group * c.inodes_per_group)
      else s.data_bitmap.at c.blocks_per_group b)
    (hset : s₁.inode_bitmap.set c.num_groups c.inodes_per_group group index
      (some (index + group * c.inodes_per_group)) = some s'.inode_bitmap)
    (hcreated : Created c s₁ s' path size type p (index + group * c.inodes_per_group) blocks) :
    Consistent c s' := by
  subst hs₁
  have hrange := number_range hg0 hg hi0 hi
  have hinode := Bitmap.set_eq hg0 hg hi0 hi hset
  generalize hn : index + group * c.inodes_per_group = n at *
  obtain ⟨hnew, hnone⟩ := h.fresh hfree
  have htypes : s'.inode_type = Function.update s.inode_type n (some type) := hcreated.inode_type
  have hlists : s'.inode_blocks = Function.update s.inode_blocks n (some blocks) :=
    hcreated.inode_blocks
  have hself : Live s' n := by
    unfold Live
    rw [htypes, Function.update_self]
    exact htype.imp (congrArg some) (congrArg some)
  have hlive : ∀ m, m ≠ n → (Live s' m ↔ Live s m) := fun m hm => live_update htypes hm
  have hdata : s'.data_bitmap = bitmap := hcreated.data_bitmap
  refine ⟨?_, ?_, ?_, ?_, ?_, ?_, ?_, ?_, ?_⟩
  · rw [hdata]
    apply h.data.assign hnone hnodup (fun b hb => (hblocks b hb).2) hmarked
    · rw [blocksOf_update hlists, if_pos rfl]
    · intro m hm
      rw [blocksOf_update hlists, if_neg hm]
  · apply h.inodes.assign (n := n) _ (List.nodup_singleton n)
    · intro b hb
      rw [List.mem_singleton.mp hb, hfree]
    · intro b
      simpa using hinode b
    · simp [ownInode, hself]
    · exact fun m hm => ownInode_update htypes hm
    · simp [ownInode, hnew]
  · intro m b hb
    rw [blocksOf_update hlists] at hb
    split at hb
    · exact (hblocks b hb).1
    · exact h.block_range m b hb
  · intro m hm
    by_cases hmn : m = n
    · exact hmn ▸ hrange
    · exact h.inode_range m ((hlive m hmn).mp hm)
  · rw [hcreated.total_data_free, hdata, Bitmap.numFree_eq]
    have hcount := countP_free_assign numbers_nodup hnodup
      (fun b hb => ⟨mem_numbers.mpr (hblocks b hb).1, (hblocks b hb).2⟩) hmarked
    have hold := h.data_free
    rw [Bitmap.numFree_eq] at hold
    show s.total_data_free - size = _
    omega
  · rw [hcreated.total_inodes_free, Bitmap.numFree_eq]
    have hcount := countP_free_assign (n := n) numbers_nodup (List.nodup_singleton n)
      (fun b hb => ⟨mem_numbers.mpr (List.mem_singleton.mp hb ▸ hrange),
        List.mem_singleton.mp hb ▸ hfree⟩) (fun b => by simpa using hinode b)
    have hold := h.inodes_free
    rw [Bitmap.numFree_eq] at hold
    show s.total_inodes_free - 1 = _
    simp only [List.length_singleton] at hcount
    omega
  · intro m hm
    rw [blocksOf_update hlists] at hm
    by_cases hmn : m = n
    · exact hmn ▸ hself
    · rw [if_neg hmn] at hm
      exact (hlive m hmn).mpr (h.blocks_live m hm)
  · intro e he
    rw [hlists]
    rw [hcreated.names, List.mem_append] at he
    by_cases hen : e.2 = n
    · rw [hen, Function.update_self]
      exact Option.some_ne_none blocks
    · rw [Function.update_of_ne hen]
      obtain he | he := he
      · exact h.named e he
      · exact absurd (congrArg Prod.snd (List.mem_singleton.mp he)) hen
  · apply EntriesSound.create (s := { s with data_bitmap := bitmap }) _ hnew htype hcreated
    exact ⟨h.entries.root, h.entries.dirs, h.entries.live, h.entries.once, h.entries.home⟩

/-- A `do_create` that gets as far as choosing a group finds one with room. -/
def createHasRoom (c : Config) (s : FileSystem) (path : Path) (size : ℤ) (type : InodeType) :
    Bool :=
  match createParent s path size with
  | some (some _) => pickedHasRoom c s type
  | _ => true

/-- The inode that `do_create` chooses is in range and free. -/
theorem Consistent.chosen (h : Consistent c s) {path : Path} {size p group index : ℤ}
    {type : InodeType} (hroom : createHasRoom c s path size type = true)
    (hparent : createParent s path size = some (some p))
    (hgroup : pick_group c s (get_parent path).1 type = some group)
    (hindex : find_free_inode c s group = some index) :
    (0 ≤ group ∧ group < c.num_groups) ∧ (0 ≤ index ∧ index < c.inodes_per_group) ∧
      s.inode_bitmap.at c.inodes_per_group (index + group * c.inodes_per_group) = none := by
  obtain ⟨hinodes, -, hname, es, hes⟩ := createParent_spec hparent
  simp only [createHasRoom, hparent] at hroom
  have hparentRange : 0 ≤ p ∧ p < c.num_groups * c.inodes_per_group :=
    h.inode_range p (Or.inr (h.entries.dirs p es hes))
  have hsome : ∃ g : ℤ, 0 ≤ g ∧ g < c.num_groups ∧ 0 < freeInodes c s g := by
    apply numFree_pos
    have := h.inodes_free
    omega
  obtain ⟨hg0, hg, hpos⟩ := pick_group_spec hsome (hname ▸ hparentRange.1)
    (hname ▸ hparentRange.2) hroom hgroup
  obtain ⟨hi0, hi, hfree⟩ := find_free_inode_spec hg0 hg hpos hindex
  exact ⟨⟨hg0, hg⟩, ⟨hi0, hi⟩, hfree⟩

theorem Consistent.dataGroup_range (h : Consistent c s) {group dest : ℤ}
    (hgroup : 0 ≤ group ∧ group < c.num_groups) (hfree : 0 < s.total_data_free)
    (hdest : dataGroup c s group = some dest) : 0 ≤ dest ∧ dest < c.num_groups := by
  rw [dataGroup] at hdest
  split at hdest
  · apply find_min_data_usage_spec _ hdest
    apply numFree_pos
    have := h.data_free
    omega
  · exact Option.some.inj hdest ▸ hgroup

theorem Consistent.create (h : Consistent c s) {fuel : ℕ} {path : Path} {size rc : ℤ}
    {type : InodeType} (htype : type = .regular ∨ type = .directory)
    (hroom : createHasRoom c s path size type = true)
    (hstep : do_create c fuel s path size type = some (s', rc)) : Consistent c s' := by
  obtain rfl | ⟨p, group, index, dest, s₁, allocated, hparent, hgroup, hindex, hdest,
    hallocate, hne, hfinish⟩ := do_create_cases hstep
  · exact h
  · obtain ⟨-, hsize, -, -⟩ := createParent_spec hparent
    obtain ⟨⟨hg0, hg⟩, ⟨hi0, hi⟩, hfree⟩ := h.chosen hroom hparent hgroup hindex
    obtain ⟨hlength, _⟩ := allocate_blocks_length hallocate
    have hallocated : 0 < allocated.length := List.length_pos_iff.mpr hne
    have hdestRange := h.dataGroup_range ⟨hg0, hg⟩ (by omega) hdest
    obtain ⟨bitmap, hs₁, hnodup, hblocks, hmarked⟩ :=
      allocate_blocks_spec hdestRange.1 hdestRange.2 hallocate
    obtain ⟨hset, hcreated⟩ := finishCreate_spec hfinish
    exact h.created htype hg0 hg hi0 hi hfree hs₁ (by rw [List.length_map, hlength]) hnodup
      hblocks hmarked hset hcreated

/-! ## Deleting -/

theorem clear_all_eq {bs : List ℤ} {bitmap bitmap' : Bitmap}
    (hguard : ∀ b ∈ bs, 0 ≤ b ∧ (c.num_groups = c.blocks_per_group ∨ b < c.num_groups))
    (h : bs.foldlM (fun bitmap b => bitmap.set c.num_groups c.blocks_per_group
      (b.tdiv c.num_groups) (b % c.num_groups) none) bitmap = some bitmap') (x : ℤ) :
    bitmap'.at c.blocks_per_group x =
      if x ∈ bs then none else bitmap.at c.blocks_per_group x := by
  induction bs generalizing bitmap with
  | nil =>
      obtain rfl := Option.some.inj h
      simp
  | cons b bs ih =>
      rw [List.foldlM_cons] at h
      obtain ⟨bitmap₁, hset, hrest⟩ := Option.bind_eq_some_iff.mp h
      obtain ⟨hb0, hb⟩ := hguard b List.mem_cons_self
      have hclear := Bitmap.clear_eq hb0 c.groups_pos hb hset
      rw [ih (fun b' hb' => hguard b' (List.mem_cons_of_mem b hb')) hrest, hclear]
      by_cases hxb : x = b
      · simp [hxb]
      · simp [hxb]

/-- The divisions of `do_delete` find the entries of the file. -/
def deleteDivides (c : Config) (s : FileSystem) (path : Path) : Bool :=
  match deleteTarget s path with
  | some (some (_, n)) =>
      ((blocksOf s n).all fun b => c.num_groups = c.blocks_per_group ∨ b < c.num_groups) &&
        (c.num_groups = c.inodes_per_group ∨ n < c.num_groups)
  | _ => true

theorem Consistent.delete (h : Consistent c s) {path : Path} {rc : ℤ}
    (hdivides : deleteDivides c s path = true) (hstep : do_delete c s path = some (s', rc)) :
    Consistent c s' := by
  obtain rfl | ⟨p, n, htarget, hdata, hinodes, hdeleted⟩ := do_delete_cases hstep
  · exact h
  · obtain ⟨es, hes, hmem, hnotdir⟩ := deleteTarget_spec htarget
    have hlive : Live s n := h.entries.live p es hes _ hmem
    have hregular : s.inode_type n = some .regular := hlive.resolve_right hnotdir
    obtain ⟨hn0, hn⟩ := h.inode_range n hlive
    simp only [deleteDivides, htarget, Bool.and_eq_true, List.all_eq_true,
      decide_eq_true_eq] at hdivides
    obtain ⟨hblocks, hinode⟩ := hdivides
    have hcleared := clear_all_eq
      (fun b hb => ⟨(h.block_range n b hb).1, hblocks b hb⟩) hdata
    have hfreed := Bitmap.clear_eq hn0 c.groups_pos (by exact_mod_cast hinode) hinodes
    have hown : ownInode s n = [n] := if_pos hlive
    have hfreed' : ∀ b, s'.inode_bitmap.at c.inodes_per_group b =
        if b ∈ ownInode s n then none else s.inode_bitmap.at c.inodes_per_group b := by
      intro b
      rw [hown, hfreed]
      simp
    have hdead : ¬ Live s' n := by
      simp [Live, hdeleted.inode_type]
    have hlists := fun m => blocksOf_update (m := m) hdeleted.inode_blocks
    refine ⟨?_, ?_, ?_, ?_, ?_, ?_, ?_, ?_, ?_⟩
    · apply h.data.release hcleared
      · rw [hlists, if_pos rfl]
      · intro m hm
        rw [hlists, if_neg hm]
    · apply h.inodes.release hfreed'
      · exact if_neg hdead
      · exact fun m hm => ownInode_update hdeleted.inode_type hm
    · intro m b hb
      rw [hlists] at hb
      split at hb
      · cases hb
      · exact h.block_range m b hb
    · intro m hm
      have hmn : m ≠ n := by
        rintro rfl
        exact hdead hm
      exact h.inode_range m ((live_update hdeleted.inode_type hmn).mp hm)
    · have hcount := countP_free_release h.data numbers_nodup
        (fun b hb => mem_numbers.mpr (h.block_range n b hb)) hcleared
      have hold := h.data_free
      rw [Bitmap.numFree_eq] at hold
      rw [hdeleted.total_data_free, Bitmap.numFree_eq, hcount, hold]
      push_cast
      rfl
    · have hcount := countP_free_release h.inodes numbers_nodup
        (fun b hb => mem_numbers.mpr (by rw [(mem_ownInode.mp hb).2]; exact ⟨hn0, hn⟩)) hfreed'
      have hold := h.inodes_free
      rw [Bitmap.numFree_eq] at hold
      rw [hdeleted.total_inodes_free, Bitmap.numFree_eq, hcount, hold, hown]
      push_cast
      rfl
    · intro m hm
      rw [hlists] at hm
      by_cases hmn : m = n
      · rw [if_pos hmn] at hm
        exact absurd rfl hm
      · rw [if_neg hmn] at hm
        exact (live_update hdeleted.inode_type hmn).mpr (h.blocks_live m hm)
    · intro e he
      rw [hdeleted.inode_blocks]
      by_cases hen : e.2 = n
      · rw [hen, Function.update_self]
        exact Option.some_ne_none []
      · rw [Function.update_of_ne hen]
        exact h.named e (hdeleted.names e he)
    · exact h.entries.delete hes hmem hregular hdeleted

/-! ## Runs -/

/-- What the operations need: a group with room where several groups are
compared, and divisions that find the entries. -/
def Fits (c : Config) (s : FileSystem) : Act → Prop
  | .create path size _ => createHasRoom c s path size .regular = true
  | .mkdir path _ => createHasRoom c s path 1 .directory = true
  | .delete path => deleteDivides c s path = true

theorem Consistent.step (h : Consistent c s) {a : Act} (hfits : Fits c s a)
    (hstep : step c s a = some s') : Consistent c s' := by
  cases a with
  | create path size fuel =>
      obtain ⟨⟨s₁, rc⟩, hcreate, rfl⟩ := Option.map_eq_some_iff.mp hstep
      exact h.create (Or.inl rfl) hfits hcreate
  | mkdir path fuel =>
      obtain ⟨⟨s₁, rc⟩, hcreate, rfl⟩ := Option.map_eq_some_iff.mp hstep
      exact h.create (Or.inr rfl) hfits hcreate
  | delete path =>
      obtain ⟨⟨s₁, rc⟩, hdelete, rfl⟩ := Option.map_eq_some_iff.mp hstep
      exact h.delete hfits hdelete

/-! ## The initial state -/

theorem setBit_at {cols : ℕ} (hcols : 0 < cols) (b : ℤ) :
    (setBit (fun _ _ => none) 0 0 (some 0)).at cols b =
      if b ∈ [(0 : ℤ)] then some 0 else (fun _ => none : ℤ → Option ℤ) b := by
  have hset : Bitmap.set 1 cols (fun _ _ => none) 0 0 (some 0) =
      some (setBit (fun _ _ => none) 0 0 (some 0)) := by
    simp [Bitmap.set, listIndex, hcols]
    rfl
  rw [Bitmap.set_eq le_rfl (by simp) le_rfl (by omega) hset]
  simp [Bitmap.at]

/-- One entry of a free bitmap has been taken. -/
theorem setBit_numFree {rows cols : ℕ} (hrows : 0 < rows) (hcols : 0 < cols) :
    ((setBit (fun _ _ => none) 0 0 (some 0)).numFree rows cols : ℤ) = cols * rows - 1 := by
  have hmem : ∀ b ∈ [(0 : ℤ)], b ∈ numbers rows cols ∧
      (fun _ => none : ℤ → Option ℤ) b = none := by
    intro b hb
    rw [List.mem_singleton.mp hb]
    exact ⟨mem_numbers.mpr ⟨le_rfl, by positivity⟩, rfl⟩
  have hcount := countP_free_assign numbers_nodup (List.nodup_singleton 0) hmem (setBit_at hcols)
  have hlength : (numbers rows cols).length = rows * cols := by
    rw [numbers, List.length_map, positions_length]
  rw [Bitmap.numFree_eq]
  simp only [Option.isNone_none, List.countP_true, List.length_singleton, hlength] at hcount
  have : (cols : ℤ) * rows = (rows * cols : ℕ) := by
    push_cast
    ring
  omega

theorem Consistent.init (c : Config) : Consistent c (FileSystem.init c) := by
  have hblocks := c.blocks_pos
  have hinodes := c.inodes_pos
  have hgroups := c.groups_pos
  have hlive : ∀ n, Live (FileSystem.init c) n → n = 0 := by
    intro n hn
    by_contra hne
    simp [Live, FileSystem.init, hne] at hn
  have hroot : (FileSystem.init c).inode_type 0 = some .directory := by
    simp [FileSystem.init]
  have hlists : ∀ n, n ≠ 0 → blocksOf (FileSystem.init c) n = [] := by
    intro n hn
    simp [blocksOf, FileSystem.init, hn]
  have hlist : blocksOf (FileSystem.init c) 0 = [0] := by
    simp [blocksOf, FileSystem.init]
  have hdir : ∀ d es, (FileSystem.init c).dir_data d = some es →
      d = 0 ∧ es = [(['.'], 0), (['.', '.'], 0)] := by
    intro d es hd
    by_cases hd0 : d = 0
    · simp only [FileSystem.init, hd0, Function.update_self, Option.some.injEq] at hd
      exact ⟨hd0, hd.symm⟩
    · simp [FileSystem.init, hd0] at hd
  have hempty : Owned (fun _ => none : ℤ → Option ℤ) fun _ => [] := ⟨by simp, by simp⟩
  refine ⟨?_, ?_, ?_, ?_, ?_, ?_, ?_, ?_, ⟨hroot, ?_, ?_, ?_, ?_⟩⟩
  · exact hempty.assign rfl (List.nodup_singleton 0) (fun _ _ => rfl) (setBit_at hblocks) hlist
      hlists
  · apply hempty.assign rfl (List.nodup_singleton 0) (fun _ _ => rfl) (setBit_at hinodes)
    · exact if_pos (Or.inr hroot)
    · exact fun m hm => if_neg fun hm' => hm (hlive m hm')
  · intro n b hb
    by_cases hn : n = 0
    · rw [hn, hlist, List.mem_singleton] at hb
      rw [hb]
      exact ⟨le_rfl, by positivity⟩
    · rw [hlists n hn] at hb
      cases hb
  · intro n hn
    rw [hlive n hn]
    exact ⟨le_rfl, by positivity⟩
  · exact (setBit_numFree hgroups hblocks).symm
  · exact (setBit_numFree hgroups hinodes).symm
  · intro n hn
    by_cases hn0 : n = 0
    · exact hn0 ▸ Or.inr hroot
    · exact absurd (hlists n hn0) hn
  · intro e he
    rw [List.mem_singleton.mp he]
    simp [FileSystem.init]
  · intro d es hd
    rw [(hdir d es hd).1, hroot]
  · intro d es hd e he
    rw [(hdir d es hd).2] at he
    have he0 : e.2 = 0 := by
      obtain rfl | he := List.mem_cons.mp he
      · rfl
      · rw [List.mem_singleton.mp he]
    exact he0 ▸ Or.inr hroot
  · intro n d es hn hd
    have hn0 := hlive n (Or.inl hn)
    rw [hn0, hroot] at hn
    cases hn
  · intro n d d' es es' hn
    have hn0 := hlive n (Or.inl hn)
    rw [hn0, hroot] at hn
    cases hn

/-! ## What a user sees -/

/-- `do_verify` passes, and bitmaps, block lists and counters agree. -/
structure Sound (c : Config) (s : FileSystem) : Prop where
  verified : do_verify c s = true
  data_entry : ∀ g i n, g < c.num_groups → i < c.blocks_per_group →
    s.data_bitmap g i = some n → Live s n ∧
      (blocksOf s n).count ((i : ℤ) + g * c.blocks_per_group) = 1 ∧
      ∀ m, Live s m → (i : ℤ) + g * c.blocks_per_group ∈ blocksOf s m → m = n
  block : ∀ n, Live s n → ∀ b ∈ blocksOf s n, ∃ g i, g < c.num_groups ∧ i < c.blocks_per_group ∧
    b = (i : ℤ) + g * c.blocks_per_group ∧ s.data_bitmap g i = some n
  inode_entry : ∀ g i, g < c.num_groups → i < c.inodes_per_group →
    (s.inode_bitmap g i ≠ none ↔ Live s ((i : ℤ) + g * c.inodes_per_group))
  live_inode : ∀ n, Live s n → ∃ g i, g < c.num_groups ∧ i < c.inodes_per_group ∧
    n = (i : ℤ) + g * c.inodes_per_group
  data_free : s.total_data_free = s.data_bitmap.numFree c.num_groups c.blocks_per_group
  inodes_free : s.total_inodes_free = s.inode_bitmap.numFree c.num_groups c.inodes_per_group

/-- Every number in range is the number of an entry. -/
theorem exists_position {rows cols : ℕ} {b : ℤ} (hb0 : 0 ≤ b) (hb : b < rows * cols) :
    ∃ g i, g < rows ∧ i < cols ∧ b = (i : ℤ) + g * cols := by
  obtain ⟨p, hp, hpb⟩ := List.mem_map.mp (mem_numbers.mpr ⟨hb0, hb⟩)
  obtain ⟨hg, hi⟩ := mem_positions.mp hp
  exact ⟨p.1, p.2, hg, hi, hpb.symm⟩

theorem Consistent.sound (h : Consistent c s) : Sound c s := by
  have hdata : ∀ g i, g < c.num_groups → i < c.blocks_per_group →
      s.data_bitmap.at c.blocks_per_group ((i : ℤ) + g * c.blocks_per_group) =
        s.data_bitmap g i :=
    fun g i hg hi => Bitmap.at_position s.data_bitmap (p := (g, i)) (mem_positions.mpr ⟨hg, hi⟩)
  have hinode : ∀ g i, g < c.num_groups → i < c.inodes_per_group →
      s.inode_bitmap.at c.inodes_per_group ((i : ℤ) + g * c.inodes_per_group) =
        s.inode_bitmap g i :=
    fun g i hg hi => Bitmap.at_position s.inode_bitmap (p := (g, i)) (mem_positions.mpr ⟨hg, hi⟩)
  have hblock : ∀ n, ∀ b ∈ blocksOf s n, ∃ g i, g < c.num_groups ∧ i < c.blocks_per_group ∧
      b = (i : ℤ) + g * c.blocks_per_group ∧ s.data_bitmap g i = some n := by
    intro n b hb
    obtain ⟨hb0, hbr⟩ := h.block_range n b hb
    obtain ⟨g, i, hg, hi, rfl⟩ := exists_position hb0 hbr
    exact ⟨g, i, hg, hi, rfl, by rw [← hdata g i hg hi, h.data.mem_iff]; exact hb⟩
  refine ⟨?_, ?_, fun n _ => hblock n, ?_, ?_, h.data_free, h.inodes_free⟩
  · simp only [do_verify, Bool.and_eq_true, decide_eq_true_eq, List.all_eq_true]
    refine ⟨⟨?_, ?_⟩, ?_⟩
    · rw [h.data_free, numUsed_add_numFree]
    · rw [h.inodes_free, numUsed_add_numFree]
    · intro e he
      cases hlist : s.inode_blocks e.2 with
      | none => exact absurd hlist (h.named e he)
      | some blocks =>
          simp only [List.all_eq_true, decide_eq_true_eq]
          intro b hb
          have hmem : b ∈ blocksOf s e.2 := by
            unfold blocksOf
            rw [hlist]
            exact hb
          obtain ⟨g, i, hg, hi, rfl, hgi⟩ := hblock e.2 b hmem
          have hi0 : (0 : ℤ) ≤ i := by omega
          have hic : (i : ℤ) < c.blocks_per_group := by omega
          rw [Int.tdiv_eq_ediv_of_nonneg (h.block_range e.2 _ hmem).1, number_div hi0 hic,
            number_mod hi0 hic, Bitmap.get_eq (by omega) (by omega) hi0 hic, hdata g i hg hi, hgi]
  · intro g i n hg hi hgi
    have hmem : (i : ℤ) + g * c.blocks_per_group ∈ blocksOf s n := by
      rw [← h.data.mem_iff, hdata g i hg hi, hgi]
    refine ⟨h.blocks_live n (List.ne_nil_of_mem hmem), ?_, ?_⟩
    · exact List.count_eq_one_of_mem (h.data.nodup n) hmem
    · exact fun m _ hm => h.data.disjoint hm hmem
  · intro g i hg hi
    rw [← hinode g i hg hi]
    constructor
    · intro hused
      obtain ⟨n, hn⟩ := Option.ne_none_iff_exists'.mp hused
      obtain ⟨hlive, heq⟩ := mem_ownInode.mp ((h.inodes.mem_iff _ n).mp hn)
      rwa [heq]
    · intro hlive
      rw [(h.inodes.mem_iff _ _).mpr (mem_ownInode.mpr ⟨hlive, rfl⟩)]
      exact Option.some_ne_none _
  · intro n hn
    obtain ⟨hn0, hnr⟩ := h.inode_range n hn
    exact exists_position hn0 hnr

/-- As long as the operations fit, the file system stays sound. -/
theorem file_system_sound (h : Reach (step c) (Fits c) (FileSystem.init c) s) : Sound c s :=
  (h.invariant (Consistent.init c) fun _ _ _ h => h.step).sound

instance (c : Config) (s : FileSystem) : ∀ a, Decidable (Fits c s a)
  | .create path size _ => inferInstanceAs (Decidable (createHasRoom c s path size .regular = true))
  | .mkdir path _ => inferInstanceAs (Decidable (createHasRoom c s path 1 .directory = true))
  | .delete path => inferInstanceAs (Decidable (deleteDivides c s path = true))

/-- `-n 2 -d 4 -i 4`, with the other options at their defaults. -/
def twoGroups : Config :=
  ⟨2, 4, 4, 30, false, 1, false, 1, Nat.zero_lt_two, Nat.zero_lt_succ 3, Nat.zero_lt_succ 3⟩

/-- A file of one block is deleted from the root, another one stays in a directory. -/
def deleteSmall : List Act :=
  [.create ['/', 'a'] 1 8, .mkdir ['/', 'd'] 8, .create ['/', 'd', '/', 'b'] 2 8,
    .delete ['/', 'a']]

theorem file_system_sound_deleteSmall :
    ∃ s, run (step twoGroups) (FileSystem.init twoGroups) deleteSmall = some s ∧
      s.total_data_free = 4 ∧ Sound twoGroups s := by
  have hrun : ((run (step twoGroups) (FileSystem.init twoGroups) deleteSmall).map
      FileSystem.total_data_free) = some 4 := by decide +kernel
  obtain ⟨s, hs, hfree⟩ := Option.map_eq_some_iff.mp hrun
  have hmeets : RunMeets (step twoGroups) (Fits twoGroups) (FileSystem.init twoGroups)
      deleteSmall := runMeets_of_check (by decide +kernel)
  exact ⟨s, hs, hfree, file_system_sound (reach_of_run deleteSmall hmeets hs)⟩

/-- A file of three blocks is created and deleted: block 2 is looked for in group 1. -/
def deleteLarge : List Act := [.create ['/', 'a'] 3 8, .delete ['/', 'a']]

theorem delete_breaks_verify :
    ¬ ∀ s, Reach (step twoGroups) anyStep (FileSystem.init twoGroups) s → Sound twoGroups s := by
  intro hall
  have hrun : ((run (step twoGroups) (FileSystem.init twoGroups) deleteLarge).map
      (do_verify twoGroups)) = some false := by decide +kernel
  obtain ⟨s, hs, hverify⟩ := Option.map_eq_some_iff.mp hrun
  have hsound := (hall s (reach_of_run_anyStep deleteLarge hs)).verified
  rw [hverify] at hsound
  cases hsound

end OsLabs.Ffs
