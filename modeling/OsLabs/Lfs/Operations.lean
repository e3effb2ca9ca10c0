import Mathlib
import OsLabs.Lfs.Directory

/-!
# The operations of the log-structured file system

A call leaves the state as it is, or it logs new versions of what it changes,
maps the inodes it has logged and writes their pieces of the imap.
-/

namespace OsLabs.Lfs

variable {c : Config} {s : LFS} {path name : Path} {n p : ℕ} {i pi : Inode}

/-! ## Reading -/

theorem inodeAt_eq_some {disk : List Block} {address : Option ℕ} :
    inodeAt disk address = some i ↔ ∃ a, address = some a ∧ disk[a]? = some (.inode i) := by
  constructor
  · intro h
    cases address with
    | none => cases h
    | some a =>
        rw [inodeAt] at h
        split at h
        · next inode hinode =>
            obtain rfl := Option.some.inj h
            exact ⟨a, rfl, hinode⟩
        · cases h
  · rintro ⟨a, rfl, ha⟩
    simp only [inodeAt, ha]

theorem getInode_eq (c : Config) (s : LFS) (n : ℕ) :
    getInodeFromInumber c s n =
      if c.useDiskCr then
        (diskPathAddress s (n / numInodesPerImapChunk) (n % numInodesPerImapChunk)).bind
          (inodeAt s.disk)
      else if n < numInodes then inodeAt s.disk (s.inodeMap n)
      else none := rfl

theorem getInode_cases (h : getInodeFromInumber c s n = some i) :
    ∃ a : ℕ, s.disk[a]? = some (.inode i) := by
  rw [getInode_eq] at h
  split at h
  · obtain ⟨address, -, haddr⟩ := Option.bind_eq_some_iff.mp h
    obtain ⟨a, -, ha⟩ := inodeAt_eq_some.mp haddr
    exact ⟨a, ha⟩
  · split at h
    · obtain ⟨a, -, ha⟩ := inodeAt_eq_some.mp h
      exact ⟨a, ha⟩
    · cases h

theorem LogOk.getInode (h : LogOk s) (hi : getInodeFromInumber c s n = some i) :
    InodeOk s.disk i := by
  obtain ⟨a, ha⟩ := getInode_cases hi
  exact h.blocks a _ ha

theorem LogOk.slots (h : LogOk s) (a : ℕ) (entries : List Slot)
    (ha : s.disk[a]? = some (.dir entries)) : SlotsOk entries :=
  h.blocks a _ ha

theorem LogOk.block_slots (h : LogOk s) {address : Option ℕ} {entries : List Slot}
    (hread : blockAt s.disk address = some (.dir entries)) : SlotsOk entries := by
  cases address with
  | none =>
      obtain ⟨a, ha⟩ := List.mem_iff_getElem?.mp (List.mem_of_getLast? hread)
      exact h.slots a entries ha
  | some a => exact h.slots a entries hread

/-- What a lookup has read, and the number it has found. -/
structure LooksUp (c : Config) (s : LFS) (p : ℕ) (name : Path) (result : Option ℕ) (pi : Inode)
    (addrs : List ℕ) : Prop where
  parent : getInodeFromInumber c s p = some pi
  dir : DirInode s.disk pi addrs
  found : ((slotsOf s.disk addrs).find? fun e => e.1 = name).bind Prod.snd = result

theorem LogOk.lookup (h : LogOk s) {result : Option ℕ}
    (hlookup : lookup c s p name = some (result, pi)) :
    ∃ addrs, LooksUp c s p name result pi addrs := by
  rw [Lfs.lookup] at hlookup
  obtain ⟨inode, hinode, hrest⟩ := Option.bind_eq_some_iff.mp hlookup
  split at hrest
  · next htype =>
      obtain ⟨number, hnumber, hrest⟩ := Option.bind_eq_some_iff.mp hrest
      obtain ⟨rfl, rfl⟩ := Prod.mk.inj (Option.some.inj hrest)
      obtain ⟨addrs, hdir⟩ := (h.getInode hinode).dir htype
      rw [hdir.lookupFrom] at hnumber
      exact ⟨addrs, hinode, hdir, Option.some.inj hnumber⟩
  · cases hrest

theorem slots_lt (h : LogOk s) {addrs : List ℕ} {e : Slot} (he : e ∈ slotsOf s.disk addrs)
    (hn : e.2 = some n) : n < numInodes := by
  obtain ⟨a, -, he⟩ := List.mem_flatMap.mp he
  rw [slotsAt] at he
  split at he
  · next entries hentries => exact h.slots a entries hentries e he n hn
  · exact absurd he List.not_mem_nil

theorem LooksUp.number_lt {addrs : List ℕ} (h : LogOk s)
    (hl : LooksUp c s p name (some n) pi addrs) : n < numInodes := by
  obtain ⟨e, hfind, hn⟩ := Option.bind_eq_some_iff.mp hl.found
  exact slots_lt h (List.mem_of_find?_eq_some hfind) hn

theorem walkDirs_lt (h : LogOk s) (names : List Path) (hp : p < numInodes)
    (hwalk : walkDirs c s p names = some (some n)) : n < numInodes := by
  induction names generalizing p with
  | nil =>
      obtain rfl := Option.some.inj (Option.some.inj hwalk)
      exact hp
  | cons name names ih =>
      rw [walkDirs] at hwalk
      obtain ⟨⟨result, inode⟩, hlookup, hrest⟩ := Option.bind_eq_some_iff.mp hwalk
      cases result with
      | none => cases hrest
      | some m =>
          obtain ⟨addrs, hl⟩ := h.lookup hlookup
          dsimp only at hrest
          split at hrest
          · exact ih (hl.number_lt h) hrest
          · cases hrest

/-- A walk that does not fail ends with a lookup of the last name. -/
theorem LogOk.walkPath (h : LogOk s) {w : Walk} (hwalk : walkPath c s path = some w) :
    w = Walk.error ∨ ∃ p pi addrs, w.parent = some (p, pi) ∧ p < numInodes ∧
      LooksUp c s p w.fileName w.inodeNumber pi addrs := by
  rw [Lfs.walkPath] at hwalk
  dsimp only at hwalk
  split at hwalk
  · obtain ⟨result, hdirs, hrest⟩ := Option.bind_eq_some_iff.mp hwalk
    cases result with
    | none => exact Or.inl (Option.some.inj hrest).symm
    | some p =>
        obtain ⟨⟨number, pi⟩, hlookup, hrest⟩ := Option.bind_eq_some_iff.mp hrest
        obtain rfl := Option.some.inj hrest
        obtain ⟨addrs, hl⟩ := h.lookup hlookup
        exact Or.inr ⟨p, pi, addrs, rfl, walkDirs_lt h _ (by decide) hdirs, hl⟩
  · exact Or.inl (Option.some.inj hwalk).symm

/-! ## Inodes in memory -/

/-- The inode by the imap in memory. -/
def inodeOf (s : LFS) (n : ℕ) : Option Inode := inodeAt s.disk (s.inodeMap n)

/-- Every inode number in use is mapped to an inode. -/
def Mapped (s : LFS) : Prop := ∀ n, s.inodeMap n ≠ none → n < numInodes ∧ ∃ i, inodeOf s n = some i

variable {t t' : LFS}

theorem inodeOf_kept (hkept : Kept s.disk t.disk) (hmap : t.inodeMap n = s.inodeMap n)
    (hi : inodeOf s n = some i) : inodeOf t n = some i := by
  obtain ⟨a, hn, ha⟩ := inodeAt_eq_some.mp hi
  exact inodeAt_eq_some.mpr ⟨a, hmap.trans hn, hkept.inode ha⟩

theorem inodeOf_eq_none (h : s.inodeMap n = none) : inodeOf s n = none := by
  rw [inodeOf, h, inodeAt]

theorem Mapped.inodeOf_eq (h : Mapped s) (hkept : Kept s.disk t.disk)
    (hmap : t.inodeMap n = s.inodeMap n) : inodeOf t n = inodeOf s n := by
  by_cases hn : s.inodeMap n = none
  · rw [inodeOf_eq_none hn, inodeOf_eq_none (hmap.trans hn)]
  · obtain ⟨-, i, hi⟩ := h n hn
    rw [hi, inodeOf_kept hkept hmap hi]

theorem Mapped.grown (h : Mapped s) (hgrown : Grown s t) : Mapped t := by
  intro n hn
  rw [hgrown.inodeMap] at hn
  obtain ⟨hlt, i, hi⟩ := h n hn
  exact ⟨hlt, i, inodeOf_kept hgrown.kept (congrFun hgrown.inodeMap n) hi⟩

/-! ## What a call writes

Only the inode numbers `inums` are mapped to other addresses. -/

structure Written (inums : List ℕ) (s t : LFS) : Prop where
  ok : LogOk t
  kept : Kept s.disk t.disk
  cr : t.cr = s.cr
  mapped : Mapped t
  same : ∀ n ∉ inums, t.inodeMap n = s.inodeMap n

variable {inums : List ℕ}

theorem Written.refl (hlog : LogOk s) (hmap : Mapped s) : Written inums s s :=
  ⟨hlog, Kept.refl _, rfl, hmap, fun _ _ => rfl⟩

theorem Written.append (h : Written inums s t) {blocks : List Block}
    (hblocks : ∀ b ∈ blocks, BlockOk (t.disk ++ blocks) b) :
    Written inums s { t with disk := t.disk ++ blocks } ∧
      inodeOf { t with disk := t.disk ++ blocks } = inodeOf t := by
  have hgrown := h.ok.append hblocks
  have heq : inodeOf { t with disk := t.disk ++ blocks } = inodeOf t :=
    funext fun n => h.mapped.inodeOf_eq hgrown.kept rfl
  refine ⟨⟨hgrown.ok, h.kept.trans hgrown.kept, h.cr, fun n hn => ?_, h.same⟩, heq⟩
  rw [heq]
  exact h.mapped n hn

theorem kept_log (t : LFS) (b : Block) : Kept t.disk (t.log b).1.disk := kept_append _ _

theorem Written.log (h : Written inums s t) {b : Block} (hb : BlockOk t.disk b) :
    Written inums s (t.log b).1 ∧ inodeOf (t.log b).1 = inodeOf t ∧
      (t.log b).1.disk[(t.log b).2]? = some b := by
  have happend := h.append fun b' hb' => by
    rw [List.mem_singleton.mp hb']
    exact hb.kept (kept_append _ _)
  exact ⟨happend.1, happend.2, List.getElem?_concat_length⟩

theorem inodeOf_remap {a : ℕ} (ha : t.disk[a]? = some (.inode i)) :
    inodeOf (t.remap n a) = Function.update (inodeOf t) n (some i) := by
  funext m
  by_cases hm : m = n
  · subst hm
    rw [Function.update_self]
    exact inodeAt_eq_some.mpr ⟨a, Function.update_self .., ha⟩
  · rw [Function.update_of_ne hm, inodeOf, inodeOf]
    exact congrArg _ (Function.update_of_ne hm ..)

theorem Written.remap (h : Written inums s t) {a : ℕ} (hn : n < numInodes) (hmem : n ∈ inums)
    (ha : t.disk[a]? = some (.inode i)) : Written inums s (t.remap n a) := by
  refine ⟨h.ok.congr rfl rfl, h.kept, h.cr, fun m hm => ?_, fun m hm => ?_⟩
  · rw [inodeOf_remap ha]
    by_cases hmn : m = n
    · subst hmn
      exact ⟨hn, i, Function.update_self ..⟩
    · rw [Function.update_of_ne hmn]
      exact h.mapped m fun hnone => hm ((Function.update_of_ne hmn ..).trans hnone)
  · have hmn : m ≠ n := fun heq => hm (heq ▸ hmem)
    exact (Function.update_of_ne hmn ..).trans (h.same m hm)

theorem Written.free (h : Written inums s t) (hmem : n ∈ inums) :
    Written inums s { t with inodeMap := Function.update t.inodeMap n none } ∧
      inodeOf { t with inodeMap := Function.update t.inodeMap n none } =
        Function.update (inodeOf t) n none := by
  have heq : inodeOf { t with inodeMap := Function.update t.inodeMap n none } =
      Function.update (inodeOf t) n none := by
    funext m
    by_cases hm : m = n
    · subst hm
      rw [Function.update_self]
      exact inodeOf_eq_none (Function.update_self ..)
    · rw [Function.update_of_ne hm, inodeOf, inodeOf]
      exact congrArg _ (Function.update_of_ne hm ..)
  refine ⟨⟨h.ok.congr rfl rfl, h.kept, h.cr, fun m hm => ?_, fun m hm => ?_⟩, heq⟩
  · have hmn : m ≠ n := by
      rintro rfl
      exact hm (Function.update_self ..)
    rw [heq, Function.update_of_ne hmn]
    exact h.mapped m fun hnone => hm ((Function.update_of_ne hmn ..).trans hnone)
  · have hmn : m ≠ n := fun heq => hm (heq ▸ hmem)
    exact (Function.update_of_ne hmn ..).trans (h.same m hm)

/-- The inode `n` is logged after that of the directory `p`. -/
theorem Written.log_remap (h : Written [p, n] s t) (hp : p < numInodes) (hn : n < numInodes)
    {a : ℕ} (ha : t.disk[a]? = some (.inode pi)) (hi : BlockOk t.disk (.inode i)) :
    Written [p, n] s (((t.log (.inode i)).1.remap p a).remap n (t.log (.inode i)).2) ∧
      inodeOf (((t.log (.inode i)).1.remap p a).remap n (t.log (.inode i)).2) =
        Function.update (Function.update (inodeOf t) p (some pi)) n (some i) := by
  obtain ⟨hlog, hview, hb⟩ := h.log hi
  have ha' := (kept_log t (.inode i)).inode ha
  have hb' : ((t.log (.inode i)).1.remap p a).disk[(t.log (.inode i)).2]? = some (.inode i) := hb
  refine ⟨(hlog.remap hp (by simp) ha').remap hn (by simp) hb', ?_⟩
  rw [inodeOf_remap hb', inodeOf_remap ha', hview]

/-! ## New versions of inodes -/

/-- The regular inodes on disk are those that were there before, and `r`. -/
def LogsOnly (s t : LFS) (r : Option Inode) : Prop :=
  ∀ i, Block.inode i ∈ t.disk → i.type = .reg → Block.inode i ∈ s.disk ∨ r = some i

variable {r : Option Inode}

theorem LogsOnly.refl (s : LFS) (r : Option Inode) : LogsOnly s s r := fun _ hi _ => Or.inl hi

theorem LogsOnly.append (h : LogsOnly s t r) {blocks : List Block}
    (hblocks : ∀ i, Block.inode i ∈ blocks → i.type = .reg → r = some i) :
    LogsOnly s { t with disk := t.disk ++ blocks } r := by
  intro i hi htype
  obtain hold | hnew := List.mem_append.mp hi
  · exact h i hold htype
  · exact Or.inr (hblocks i hnew htype)

theorem LogsOnly.log_dir (h : LogsOnly s t r) (entries : List Slot) :
    LogsOnly s (t.log (.dir entries)).1 r :=
  h.append fun i hi _ => by cases List.mem_singleton.mp hi

theorem LogsOnly.log_inode (h : LogsOnly s t r) (hi : i.type = .dir ∨ r = some i) :
    LogsOnly s (t.log (.inode i)).1 r := by
  refine h.append fun j hj htype => ?_
  obtain rfl := Block.inode.inj (List.mem_singleton.mp hj)
  obtain hdir | hr := hi
  · cases hdir.symm.trans htype
  · exact hr

/-- The inode of a directory with the slots `slots`. -/
def DirNode (disk : List Block) (refs : ℤ) (slots : List Slot) (i : Inode) : Prop :=
  i.refs = refs ∧ ∃ addrs, DirInode disk i addrs ∧ slotsOf disk addrs = slots

def RegNode (disk : List Block) (refs : ℤ) (i : Inode) : Prop :=
  i.refs = refs ∧ RegInode disk i

variable {disk disk' : List Block} {refs : ℤ} {slots block : List Slot} {index size : ℕ}

theorem DirNode.kept (h : DirNode disk refs slots i) (hkept : Kept disk disk') :
    DirNode disk' refs slots i := by
  obtain ⟨hrefs, addrs, hdir, hslots⟩ := h
  exact ⟨hrefs, addrs, hdir.kept hkept, (slotsOf_kept hkept hdir.blocks).trans hslots⟩

theorem DirNode.type (h : DirNode disk refs slots i) : i.type = .dir := by
  obtain ⟨-, addrs, hdir, -⟩ := h
  exact hdir.type

theorem DirNode.ok (h : DirNode disk refs slots i) : BlockOk disk (.inode i) := by
  obtain ⟨-, addrs, hdir, -⟩ := h
  exact Or.inl ⟨addrs, hdir⟩

theorem Edited.node (h : Edited disk i index size block slots) (hkept : Kept disk disk') {a : ℕ}
    (ha : disk'[a]? = some (.dir block)) (refs : ℤ) :
    DirNode disk' refs slots { i with size, refs, pointers := i.pointers.set index (some a) } :=
  ⟨rfl, h disk' a refs hkept ha⟩

theorem RegInode.node (h : RegInode disk i) (hkept : Kept disk disk') (refs : ℤ) :
    RegNode disk' refs { i with refs } :=
  ⟨rfl, h.type, (h.kept hkept).blocks⟩

theorem RegNode.kept (h : RegNode disk refs i) (hkept : Kept disk disk') : RegNode disk' refs i :=
  ⟨h.1, h.2.kept hkept⟩

theorem RegNode.ok (h : RegNode disk refs i) : BlockOk disk (.inode i) := Or.inr h.2

theorem makeInode_reg (disk : List Block) : RegNode disk 1 (makeInode .reg 0 1) := by
  refine ⟨rfl, rfl, fun a ha => ?_⟩
  cases List.eq_of_mem_replicate ha

theorem makeInode_dir {a : ℕ} (ha : disk[a]? = some (.dir block)) :
    DirNode disk 2 block
      { makeInode .dir 1 2 with pointers := (makeInode .dir 1 2).pointers.set 0 (some a) } := by
  refine ⟨rfl, [a], ⟨rfl, rfl, rfl, ?_, fun b hb => ?_⟩, ?_⟩
  · rw [List.length_singleton]
    decide
  · rw [List.mem_singleton.mp hb]
    exact ⟨_, ha⟩
  · rw [slotsOf_cons, slotsAt_dir ha]
    exact List.append_nil _

theorem slotsOk_newDirblock (hp : p < numInodes) (hn : n < numInodes) :
    SlotsOk (makeNewDirblock p n) := by
  intro e he m hm
  simp only [makeNewDirblock, makeEmptyDirblock, noEntry, List.replicate_succ, List.replicate_zero,
    List.set_cons_zero, List.set_cons_succ, List.mem_cons, List.not_mem_nil, or_false] at he
  rcases he with rfl | rfl | rfl | rfl | rfl | rfl | rfl | rfl
  · exact Option.some.inj hm ▸ hn
  · exact Option.some.inj hm ▸ hp
  all_goals cases hm

/-! ## Logging -/

/-- A new version of the directory `p` with the slots `slots`, and what becomes
of the inode `n`. -/
structure Relinked (s t : LFS) (p n : ℕ) (refs : ℤ) (slots : List Slot) (r : Option Inode) :
    Prop where
  written : Written [p, n] s t
  view : ∃ pi', DirNode t.disk refs slots pi' ∧
    inodeOf t = Function.update (Function.update (inodeOf s) p (some pi')) n r
  logs : LogsOnly s t r

theorem hold_remap (t : LFS) (p n a b : ℕ) :
    ((t.hold n).remap p a).remap n b = (t.remap p a).remap n b := by
  have hmap : Function.update (Function.update (t.hold n).inodeMap p (some a)) n (some b) =
      Function.update (Function.update t.inodeMap p (some a)) n (some b) := by
    funext m
    simp only [LFS.hold, Function.update_apply]
    split_ifs <;> rfl
  exact congrArg (fun inodeMap : ℕ → Option ℕ => (⟨t.disk, t.cr, inodeMap⟩ : LFS)) hmap

theorem logCreate_file (hlog : LogOk s) (hmap : Mapped s) (hp : p < numInodes) (hn : n < numInodes)
    (hblock : SlotsOk block) (hedit : Edited s.disk pi index size block slots) :
    ∃ t, Relinked s t p n pi.refs slots (some (makeInode .reg 0 1)) ∧
      logCreate c (s.hold n) true p n pi index size block = (t.updateImap [p, n]).sync c := by
  have h₀ : Written [p, n] s s := Written.refl hlog hmap
  obtain ⟨h₁, hview₁, ha₁⟩ := h₀.log (b := .dir block) hblock
  have hpi := hedit.node h₁.kept ha₁ pi.refs
  obtain ⟨h₂, hview₂, ha₂⟩ := h₁.log hpi.ok
  obtain ⟨h₃, hview₃⟩ := h₂.log_remap hp hn ha₂ (makeInode_reg _).ok
  refine ⟨_, ⟨h₃, ⟨_, (hpi.kept (kept_log _ _)).kept (kept_log _ _), ?_⟩, ?_⟩, ?_⟩
  · rw [hview₃, hview₂, hview₁]
  · exact (((LogsOnly.refl s _).log_dir block).log_inode (Or.inl hpi.type)).log_inode (Or.inr rfl)
  · rw [← hold_remap]
    rfl

theorem logCreate_dir (hlog : LogOk s) (hmap : Mapped s) (hp : p < numInodes) (hn : n < numInodes)
    (hblock : SlotsOk block) (hedit : Edited s.disk pi index size block slots) :
    ∃ t i', Relinked s t p n (pi.refs + 1) slots (some i') ∧
      DirNode t.disk 2 (makeNewDirblock p n) i' ∧
      logCreate c (s.hold n) false p n pi index size block = (t.updateImap [p, n]).sync c := by
  have h₀ : Written [p, n] s s := Written.refl hlog hmap
  obtain ⟨h₁, hview₁, ha₁⟩ := h₀.log (b := .dir block) hblock
  have hpi := hedit.node h₁.kept ha₁ (pi.refs + 1)
  obtain ⟨h₂, hview₂, ha₂⟩ := h₁.log (b := .dir (makeNewDirblock p n)) (slotsOk_newDirblock hp hn)
  have hi := makeInode_dir ha₂
  obtain ⟨h₃, hview₃, ha₃⟩ := h₂.log (hpi.kept (kept_log _ _)).ok
  obtain ⟨h₄, hview₄⟩ := h₃.log_remap hp hn ha₃ (hi.kept (kept_log _ _)).ok
  refine ⟨_, _, ⟨h₄, ⟨_, ((hpi.kept (kept_log _ _)).kept (kept_log _ _)).kept (kept_log _ _), ?_⟩,
    ?_⟩, (hi.kept (kept_log _ _)).kept (kept_log _ _), ?_⟩
  · rw [hview₄, hview₃, hview₂, hview₁]
  · exact ((((LogsOnly.refl s _).log_dir block).log_dir (makeNewDirblock p n)).log_inode
      (Or.inl hpi.type)).log_inode (Or.inr rfl)
  · rw [← hold_remap]
    rfl

theorem logLink_spec (hlog : LogOk s) (hmap : Mapped s) (hp : p < numInodes) (hn : n < numInodes)
    (hblock : SlotsOk block) (hedit : Edited s.disk pi index size block slots)
    (hi : RegInode s.disk i) :
    ∃ t, Relinked s t p n pi.refs slots (some { i with refs := i.refs + 1 }) ∧
      logLink c s n i p pi index size block = (t.updateImap [p]).sync c := by
  have h₀ : Written [p, n] s s := Written.refl hlog hmap
  obtain ⟨h₁, hview₁, ha₁⟩ := h₀.log (b := .dir block) hblock
  have hpi := hedit.node h₁.kept ha₁ pi.refs
  obtain ⟨h₂, hview₂, ha₂⟩ := h₁.log hpi.ok
  have hi' := hi.node h₂.kept (i.refs + 1)
  obtain ⟨h₃, hview₃⟩ := h₂.log_remap hp hn ha₂ hi'.ok
  refine ⟨_, ⟨h₃, ⟨_, (hpi.kept (kept_log _ _)).kept (kept_log _ _), ?_⟩, ?_⟩, rfl⟩
  · rw [hview₃, hview₂, hview₁]
  · exact (((LogsOnly.refl s _).log_dir block).log_inode (Or.inl hpi.type)).log_inode (Or.inr rfl)

theorem potentialWrites_spec (offset pointer : ℕ) (contents : List (List Char)) :
    (potentialWrites offset pointer contents).1.length ≤ contents.length ∧
      ∀ w ∈ (potentialWrites offset pointer contents).1,
        pointer ≤ w.2 ∧ w.2 < pointer + (potentialWrites offset pointer contents).1.length := by
  induction contents generalizing offset pointer with
  | nil => exact ⟨le_rfl, fun w hw => absurd hw List.not_mem_nil⟩
  | cons block contents ih =>
      obtain ⟨hle, hall⟩ := ih (offset + 1) (pointer + 1)
      rw [potentialWrites]
      split
      · simp only [List.length_cons, List.mem_cons]
        refine ⟨Nat.succ_le_succ hle, ?_⟩
        rintro w (rfl | hw)
        · exact ⟨le_rfl, by omega⟩
        · have := hall w hw
          omega
      · exact ⟨Nat.zero_le _, fun w hw => absurd hw List.not_mem_nil⟩

theorem mem_setPointers {pointers : List (Option ℕ)} {writes : List (ℕ × ℕ)} {a : ℕ}
    (h : some a ∈ setPointers pointers writes) : some a ∈ pointers ∨ ∃ w ∈ writes, w.2 = a := by
  induction writes generalizing pointers with
  | nil => exact Or.inl h
  | cons w writes ih =>
      obtain hmem | ⟨w', hw', rfl⟩ := ih h
      · obtain hmem | heq := List.mem_or_eq_of_mem_set hmem
        · exact Or.inl hmem
        · exact Or.inr ⟨w, List.mem_cons_self, (Option.some.inj heq).symm⟩
      · exact Or.inr ⟨w', List.mem_cons_of_mem _ hw', rfl⟩

/-- The version of an inode that a write logs. -/
def writtenInode (disk : List Block) (i : Inode) (offset : ℕ) (contents : List (List Char)) :
    Inode :=
  { i with
    size := max (potentialWrites offset disk.length contents).2 i.size
    pointers := setPointers i.pointers (potentialWrites offset disk.length contents).1 }

/-- It points to the blocks logged before it. -/
theorem written_node (hi : RegInode disk i) (offset : ℕ) (contents : List (List Char)) :
    RegNode (disk ++ (contents.take (potentialWrites offset disk.length contents).1.length).map
      Block.data) i.refs (writtenInode disk i offset contents) := by
  refine ⟨rfl, hi.type, fun a ha => ?_⟩
  obtain hold | ⟨w, hw, rfl⟩ := mem_setPointers ha
  · exact (hi.kept (kept_append _ _)).blocks a hold
  · obtain ⟨hlen, hall⟩ := potentialWrites_spec offset disk.length contents
    obtain ⟨hge, hlt⟩ := hall w hw
    have hk : w.2 - disk.length < contents.length := by omega
    refine ⟨contents[w.2 - disk.length], ?_⟩
    rw [List.getElem?_append_right hge, List.getElem?_map, List.getElem?_take_of_lt (by omega),
      List.getElem?_eq_getElem hk]
    rfl

theorem logWrite_spec (hlog : LogOk s) (hmap : Mapped s) (hn : n < numInodes)
    (hi : RegInode s.disk i) (offset : ℕ) (contents : List (List Char)) :
    ∃ t, Written [n] s t ∧
      inodeOf t = Function.update (inodeOf s) n (some (writtenInode s.disk i offset contents)) ∧
      LogsOnly s t (some (writtenInode s.disk i offset contents)) ∧
      logWrite c s n i offset contents = ((t.updateImap [n]).sync c,
        ((potentialWrites offset s.disk.length contents).2 : ℤ) - offset) := by
  have h₀ : Written [n] s s := Written.refl hlog hmap
  have hdata (b : Block) (hb : b ∈ (contents.take
      (potentialWrites offset s.disk.length contents).1.length).map Block.data)
      (disk : List Block) : BlockOk disk b := by
    obtain ⟨block, -, rfl⟩ := List.mem_map.mp hb
    trivial
  obtain ⟨h₁, hview₁⟩ := h₀.append fun b hb => hdata b hb _
  obtain ⟨h₂, hview₂, ha₂⟩ := h₁.log (written_node hi offset contents).ok
  refine ⟨_, h₂.remap hn (by simp) ha₂, ?_, ?_, rfl⟩
  · rw [inodeOf_remap ha₂, hview₂, hview₁]
  · refine ((LogsOnly.refl s _).append fun j hj _ => ?_).log_inode (Or.inr rfl)
    obtain ⟨block, -, hblock⟩ := List.mem_map.mp hj
    cases hblock

theorem freeInode_spec {s₀ : LFS} (hlog : LogOk s) (hmap : Mapped s)
    (hfree : (if i.refs = 1 then s.freeInode n else some s) = some s₀) :
    s₀.disk = s.disk ∧ Written [p, n] s s₀ ∧
      inodeOf s₀ = if i.refs = 1 then Function.update (inodeOf s) n none else inodeOf s := by
  have h₀ : Written [p, n] s s := Written.refl hlog hmap
  split at hfree
  · next hone =>
      rw [LFS.freeInode] at hfree
      split at hfree
      · cases hfree
      · obtain rfl := Option.some.inj hfree
        rw [if_pos hone]
        exact ⟨rfl, h₀.free (by simp)⟩
  · next hone =>
      obtain rfl := Option.some.inj hfree
      rw [if_neg hone]
      exact ⟨rfl, h₀, rfl⟩

theorem logDelete_spec {s₀ : LFS} (hlog : LogOk s) (hmap : Mapped s) (hp : p < numInodes)
    (hn : n < numInodes) (hpn : p ≠ n) (hblock : SlotsOk block)
    (hedit : Edited s.disk pi index pi.size block slots) (hi : RegInode s.disk i)
    (hfree : (if i.refs = 1 then s.freeInode n else some s) = some s₀) :
    ∃ t r, Relinked s t p n pi.refs slots r ∧ (i.refs = 1 → r = none) ∧
      (1 < i.refs → r = some { i with refs := i.refs - 1 }) ∧ (i.refs < 1 → r = inodeOf s n) ∧
      logDelete c s₀ n i p pi index block = (t.updateImap [n, p]).sync c := by
  obtain ⟨hdisk, h₀, hview₀⟩ := freeInode_spec (p := p) hlog hmap hfree
  have hlogs (r : Option Inode) : LogsOnly s s₀ r := fun j hj _ => Or.inl (hdisk ▸ hj)
  rw [← hdisk] at hedit
  obtain ⟨h₁, hview₁, ha₁⟩ := h₀.log (b := .dir block) hblock
  have hpi := hedit.node (kept_log _ _) ha₁ pi.refs
  obtain ⟨h₂, hview₂, ha₂⟩ := h₁.log hpi.ok
  rw [logDelete]
  by_cases hmore : 1 < i.refs
  · have hi' := hi.node h₂.kept (i.refs - 1)
    obtain ⟨h₃, hview₃⟩ := h₂.log_remap hp hn ha₂ hi'.ok
    refine ⟨_, _, ⟨h₃, ⟨_, (hpi.kept (kept_log _ _)).kept (kept_log _ _), ?_⟩, ?_⟩,
      fun hone => ?_, fun _ => rfl, fun hless => ?_, ?_⟩
    · rw [hview₃, hview₂, hview₁, hview₀, if_neg (by omega)]
    · exact (((hlogs _).log_dir block).log_inode (Or.inl hpi.type)).log_inode (Or.inr rfl)
    · omega
    · omega
    · simp only [gt_iff_lt, hmore, if_true]
      rfl
  · refine ⟨_, if i.refs = 1 then none else inodeOf s n, ⟨h₂.remap hp (by simp) ha₂, ⟨_,
      hpi.kept (kept_log _ _), ?_⟩, ((hlogs _).log_dir block).log_inode (Or.inl hpi.type)⟩,
      fun hone => if_pos hone, fun h => absurd h hmore, fun hless => if_neg (by omega), ?_⟩
    · rw [inodeOf_remap ha₂, hview₂, hview₁, hview₀, Function.update_comm hpn]
      split
      · rfl
      · rw [Function.update_eq_self]
    · simp only [gt_iff_lt, hmore, if_false]

/-! ## What a call does -/

/-- The inode and the directory that a link that succeeds changes. -/
def linkedInodes (c : Config) (s : LFS) (srcpath dstpath : Path) : Option (ℕ × ℕ) :=
  match walkPath c s srcpath, walkPath c s dstpath with
  | some ⟨some srcInodeNumber, _, _⟩, some ⟨none, dstFileName, some (dstParent, dstParentInode)⟩ =>
      match getInodeFromInumber c s srcInodeNumber,
        addDirEntry s.disk dstParentInode dstFileName srcInodeNumber with
      | some srcInode, some (some _) =>
          if srcInode.type = .reg then some (srcInodeNumber, dstParent) else none
      | _, _ => none
  | _, _ => none

/-- The walk of a path ends in the directory `p` with the lookup of a name, which has found
`result`. -/
structure Opens (c : Config) (s : LFS) (path : Path) (p : ℕ) (name : Path) (result : Option ℕ)
    (pi : Inode) (addrs : List ℕ) : Prop extends LooksUp c s p name result pi addrs where
  walk : walkPath c s path = some ⟨result, name, some (p, pi)⟩

/-- The path names the inode `n`. -/
structure Targets (c : Config) (s : LFS) (path : Path) (n : ℕ) (i : Inode) : Prop where
  walk : ∃ name parent, walkPath c s path = some ⟨some n, name, parent⟩
  inode : getInodeFromInumber c s n = some i

/-- The walk fails an assertion, or reading the inode that it finds does. -/
def Unreadable (c : Config) (s : LFS) (path : Path) : Prop :=
  walkPath c s path = none ∨ ∃ n name parent, walkPath c s path = some ⟨some n, name, parent⟩ ∧
    getInodeFromInumber c s n = none

/-- Where a call raises an exception. -/
def Raises (c : Config) (s : LFS) : Act → Prop
  | .create path _ => walkPath c s path = none
  | .mkdir path _ => walkPath c s path = none
  | .link srcpath dstpath => Unreadable c s srcpath ∨ ∃ n i, Targets c s srcpath n i ∧
      i.type = .reg ∧ (walkPath c s dstpath = none ∨
        ∃ name, walkPath c s dstpath = some ⟨none, name, none⟩)
  | .write path .. => Unreadable c s path
  | .delete path => Unreadable c s path ∨ ∃ n i, Targets c s path n i ∧ i.type = .reg ∧
      i.refs = 1 ∧ s.inodeMap n = none

/-- What a call leaves and returns: it raises an exception, it is refused, or it logs new
versions of the inodes that it changes. -/
inductive Effect (c : Config) (s : LFS) : Act → LFS × Option ℤ → Prop
  | raises {a : Act} (raises : Raises c s a) : Effect c s a (s, none)
  | refused (a : Act) : Effect c s a (s, some (-1))
  | creates {path name : Path} {random p n : ℕ} {pi : Inode} {addrs : List ℕ}
      {slots : List Slot} {t : LFS} (opens : Opens c s path p name none pi addrs)
      (free : s.inodeMap n = none) (inRange : n < numInodes)
      (inserted : Inserted (name, some n) (slotsOf s.disk addrs) slots)
      (relinked : Relinked s t p n pi.refs slots (some (makeInode .reg 0 1))) :
      Effect c s (.create path random) ((t.updateImap [p, n]).sync c, some 0)
  | mkdirs {path name : Path} {random p n : ℕ} {pi i : Inode} {addrs : List ℕ}
      {slots : List Slot} {t : LFS} (opens : Opens c s path p name none pi addrs)
      (free : s.inodeMap n = none) (inRange : n < numInodes)
      (inserted : Inserted (name, some n) (slotsOf s.disk addrs) slots)
      (relinked : Relinked s t p n (pi.refs + 1) slots (some i))
      (new : DirNode t.disk 2 (makeNewDirblock p n) i) :
      Effect c s (.mkdir path random) ((t.updateImap [p, n]).sync c, some 0)
  | links {srcpath dstpath name : Path} {p n : ℕ} {pi i : Inode} {addrs : List ℕ}
      {slots : List Slot} {t : LFS} (linked : linkedInodes c s srcpath dstpath = some (n, p))
      (opens : Opens c s dstpath p name none pi addrs)
      (source : Targets c s srcpath n i) (regular : RegInode s.disk i)
      (inserted : Inserted (name, some n) (slotsOf s.disk addrs) slots)
      (relinked : Relinked s t p n pi.refs slots (some { i with refs := i.refs + 1 })) :
      Effect c s (.link srcpath dstpath) ((t.updateImap [p]).sync c, some 0)
  | writes {path : Path} {offset numBlks : ℤ} {random : List ℕ} {n : ℕ} {i : Inode} {t : LFS}
      (target : Targets c s path n i) (regular : RegInode s.disk i)
      (inRange : 0 ≤ offset ∧ offset < numInodePtrs) (written : Written [n] s t)
      (view : inodeOf t = Function.update (inodeOf s) n
        (some (writtenInode s.disk i offset.toNat (makeRandomBlocks numBlks random))))
      (logs : LogsOnly s t
        (some (writtenInode s.disk i offset.toNat (makeRandomBlocks numBlks random)))) :
      Effect c s (.write path offset numBlks random) ((t.updateImap [n]).sync c,
        some (((potentialWrites offset.toNat s.disk.length
          (makeRandomBlocks numBlks random)).2 : ℤ) - offset.toNat))
  | deletes {path name : Path} {p n : ℕ} {pi i : Inode} {addrs : List ℕ} {pre post : List Slot}
      {t : LFS} {r : Option Inode} (opens : Opens c s path p name (some n) pi addrs)
      (target : Targets c s path n i) (regular : RegInode s.disk i)
      (removed : FirstSlot name (slotsOf s.disk addrs) pre (name, some n) post)
      (relinked : Relinked s t p n pi.refs (pre ++ noEntry :: post) r)
      (last : i.refs = 1 → r = none)
      (more : 1 < i.refs → r = some { i with refs := i.refs - 1 })
      (kept : i.refs < 1 → r = inodeOf s n) :
      Effect c s (.delete path) ((t.updateImap [n, p]).sync c, some 0)

theorem LogOk.opens (h : LogOk s) {result : Option ℕ}
    (hwalk : Lfs.walkPath c s path = some ⟨result, name, some (p, pi)⟩) :
    p < numInodes ∧ ∃ addrs, Opens c s path p name result pi addrs := by
  obtain herr | ⟨p', pi', addrs, hparent, hp, hl⟩ := h.walkPath hwalk
  · cases herr
  · obtain ⟨rfl, rfl⟩ := Prod.mk.inj (Option.some.inj hparent)
    exact ⟨hp, addrs, hl, hwalk⟩

theorem LogOk.walk_number (h : LogOk s) {parent : Option (ℕ × Inode)}
    (hwalk : Lfs.walkPath c s path = some ⟨some n, name, parent⟩) :
    n < numInodes ∧ ∃ p pi, parent = some (p, pi) := by
  obtain herr | ⟨p', pi', addrs, hparent, -, hl⟩ := h.walkPath hwalk
  · cases herr
  · exact ⟨hl.number_lt h, p', pi', hparent⟩

theorem allocateInode_spec {random : ℕ} (h : s.allocateInode c random = some n) :
    s.inodeMap n = none ∧ n < numInodes := by
  have hmem : n ∈ s.freeInodes := by
    rw [LFS.allocateInode] at h
    split at h
    · exact List.mem_of_head? h
    · exact List.mem_of_getElem? h
  obtain ⟨hrange, hfree⟩ := List.mem_filter.mp hmem
  exact ⟨by simpa using hfree, List.mem_range.mp hrange⟩

/-- An inode number that is held for nothing is given back. -/
theorem freeInode_hold (h : s.inodeMap n = none) : (s.hold n).freeInode n = some s := by
  have hmap : Function.update (s.hold n).inodeMap n none = s.inodeMap := by
    rw [LFS.hold, Function.update_idem, ← h, Function.update_eq_self]
  rw [LFS.freeInode, if_neg (by simp [LFS.hold]), hmap]
  rfl

theorem fileCreate_cases (hlog : LogOk s) (path : Path) (isFile : Bool) (random : ℕ) :
    (walkPath c s path = none ∧ fileCreate c s path isFile random = (s, none)) ∨
      fileCreate c s path isFile random = (s, some (-1)) ∨
      ∃ p n name pi addrs index size block slots, Opens c s path p name none pi addrs ∧
        p < numInodes ∧ n < numInodes ∧ s.inodeMap n = none ∧ SlotsOk block ∧
        Edited s.disk pi index size block slots ∧
        Inserted (name, some n) (slotsOf s.disk addrs) slots ∧
        fileCreate c s path isFile random =
          (logCreate c (s.hold n) isFile p n pi index size block, some 0) := by
  rw [fileCreate]
  cases hwalk : walkPath c s path with
  | none => exact Or.inl ⟨rfl, rfl⟩
  | some w =>
      refine Or.inr ?_
      obtain ⟨result, name, parent⟩ := w
      cases result with
      | some n => exact Or.inl rfl
      | none =>
          cases parent with
          | none => exact Or.inl rfl
          | some parent =>
              obtain ⟨p, pi⟩ := parent
              obtain ⟨hp, addrs, hopens⟩ := hlog.opens hwalk
              cases halloc : s.allocateInode c random with
              | none =>
                  exact Or.inl rfl
              | some n =>
                  obtain ⟨hfree, hn⟩ := allocateInode_spec halloc
                  obtain hadd | ⟨index, size, block, slots, hadd, hblock, hedit, hins⟩ :=
                    addDirEntry_spec hopens.dir hlog.slots name hn
                  · have hadd' : addDirEntry (s.hold n).disk pi name n = _ := hadd
                    simp only [hadd', freeInode_hold hfree, true_or]
                  · have hadd' : addDirEntry (s.hold n).disk pi name n = _ := hadd
                    simp only [hadd']
                    exact Or.inr ⟨p, n, name, pi, addrs, index, size, block, slots, hopens, hp, hn,
                      hfree, hblock, hedit, hins, rfl⟩

theorem fileCreate_effect (hlog : LogOk s) (hmap : Mapped s) (path : Path) (random : ℕ) :
    Effect c s (.create path random) (fileCreate c s path true random) := by
  obtain ⟨hwalk, heq⟩ | heq | ⟨p, n, name, pi, addrs, index, size, block, slots, hopens, hp, hn,
    hfree, hblock, hedit, hins, heq⟩ := fileCreate_cases (c := c) hlog path true random
  · exact heq ▸ .raises hwalk
  · exact heq ▸ .refused _
  · obtain ⟨t, hrel, hlogged⟩ := logCreate_file (c := c) hlog hmap hp hn hblock hedit
    rw [heq, hlogged]
    exact .creates hopens hfree hn hins hrel

theorem dirCreate_effect (hlog : LogOk s) (hmap : Mapped s) (path : Path) (random : ℕ) :
    Effect c s (.mkdir path random) (fileCreate c s path false random) := by
  obtain ⟨hwalk, heq⟩ | heq | ⟨p, n, name, pi, addrs, index, size, block, slots, hopens, hp, hn,
    hfree, hblock, hedit, hins, heq⟩ := fileCreate_cases (c := c) hlog path false random
  · exact heq ▸ .raises hwalk
  · exact heq ▸ .refused _
  · obtain ⟨t, i', hrel, hnew, hlogged⟩ := logCreate_dir (c := c) hlog hmap hp hn hblock hedit
    rw [heq, hlogged]
    exact .mkdirs hopens hfree hn hins hrel hnew

theorem fileLink_effect (hlog : LogOk s) (hmap : Mapped s) (srcpath dstpath : Path) :
    Effect c s (.link srcpath dstpath) (fileLink c s srcpath dstpath) := by
  rw [fileLink]
  cases hsrc : walkPath c s srcpath with
  | none => exact .raises (Or.inl (Or.inl hsrc))
  | some w =>
      obtain ⟨result, srcName, srcParent⟩ := w
      cases result with
      | none => exact .refused _
      | some n =>
          have hn := (hlog.walk_number hsrc).1
          cases hget : getInodeFromInumber c s n with
          | none =>
              simp only [hget]
              exact .raises (Or.inl (Or.inr ⟨n, _, _, hsrc, hget⟩))
          | some i =>
              have htarget : Targets c s srcpath n i := ⟨⟨_, _, hsrc⟩, hget⟩
              simp only [hget]
              split
              · exact .refused _
              next htype =>
              have hreg := (hlog.getInode hget).reg (not_not.mp htype)
              have hraises (h : walkPath c s dstpath = none ∨
                  ∃ name, walkPath c s dstpath = some ⟨none, name, none⟩) :
                  Effect c s (.link srcpath dstpath) (s, none) :=
                .raises (Or.inr ⟨n, i, htarget, hreg.type, h⟩)
              cases hdst : walkPath c s dstpath with
              | none => exact hraises (Or.inl hdst)
              | some w =>
                  obtain ⟨result, name, parent⟩ := w
                  cases result with
                  | some m => exact .refused _
                  | none =>
                      cases parent with
                      | none => exact hraises (Or.inr ⟨name, hdst⟩)
                      | some parent =>
                          obtain ⟨p, pi⟩ := parent
                          obtain ⟨hp, addrs, hopens⟩ := hlog.opens hdst
                          obtain hadd | ⟨index, size, block, slots, hadd, hblock, hedit, hins⟩ :=
                            addDirEntry_spec hopens.dir hlog.slots name hn
                          · simp only [hadd]
                            exact .refused _
                          · simp only [hadd]
                            obtain ⟨t, hrel, hlogged⟩ :=
                              logLink_spec (c := c) hlog hmap hp hn hblock hedit hreg
                            have hlinked : linkedInodes c s srcpath dstpath = some (n, p) := by
                              simp only [linkedInodes, hsrc, hdst, hget, hadd, hreg.type, if_true]
                            rw [hlogged]
                            exact .links hlinked hopens htarget hreg hins hrel

theorem fileWrite_effect (hlog : LogOk s) (hmap : Mapped s) (path : Path) (offset numBlks : ℤ)
    (random : List ℕ) :
    Effect c s (.write path offset numBlks random) (fileWrite c s path offset numBlks random) := by
  rw [fileWrite]
  cases hwalk : walkPath c s path with
  | none => exact .raises (Or.inl hwalk)
  | some w =>
      obtain ⟨result, name, parent⟩ := w
      cases result with
      | none => exact .refused _
      | some n =>
          have hn := (hlog.walk_number hwalk).1
          cases hget : getInodeFromInumber c s n with
          | none =>
              simp only [hget]
              exact .raises (Or.inr ⟨n, _, _, hwalk, hget⟩)
          | some i =>
              simp only [hget]
              split
              · exact .refused _
              next htype =>
              split
              · exact .refused _
              next hoffset =>
              rw [not_or, not_lt, not_le] at hoffset
              have hreg := (hlog.getInode hget).reg (not_not.mp htype)
              obtain ⟨t, hwritten, hview, hlogs, hlogged⟩ := logWrite_spec (c := c) hlog hmap hn
                hreg offset.toNat (makeRandomBlocks numBlks random)
              rw [hlogged]
              exact .writes ⟨⟨_, _, hwalk⟩, hget⟩ hreg hoffset hwritten hview hlogs

theorem fileDelete_effect (hlog : LogOk s) (hmap : Mapped s) (path : Path) :
    Effect c s (.delete path) (fileDelete c s path) := by
  rw [fileDelete]
  cases hwalk : walkPath c s path with
  | none => exact .raises (Or.inl (Or.inl hwalk))
  | some w =>
      obtain ⟨result, name, parent⟩ := w
      cases result with
      | none => exact .refused _
      | some n =>
          obtain ⟨hn, p, pi, rfl⟩ := hlog.walk_number hwalk
          obtain ⟨hp, addrs, hopens⟩ := hlog.opens hwalk
          cases hget : getInodeFromInumber c s n with
          | none =>
              simp only [hget]
              exact .raises (Or.inl (Or.inr ⟨n, _, _, hwalk, hget⟩))
          | some i =>
              have htarget : Targets c s path n i := ⟨⟨_, _, hwalk⟩, hget⟩
              simp only [hget]
              split
              · exact .refused _
              next htype =>
              have hreg := (hlog.getInode hget).reg (not_not.mp htype)
              have hpn : p ≠ n := by
                rintro rfl
                obtain rfl := Option.some.inj (hget.symm.trans hopens.parent)
                cases hreg.type.symm.trans hopens.dir.type
              cases hfree : if i.refs = 1 then s.freeInode n else some s with
              | none =>
                  refine .raises (Or.inr ⟨n, i, htarget, hreg.type, ?_⟩)
                  split at hfree
                  · next hone =>
                      rw [LFS.freeInode] at hfree
                      split at hfree
                      · next hnone => exact ⟨hone, hnone⟩
                      · cases hfree
                  · cases hfree
              | some s₀ =>
                  have hdisk := (freeInode_spec (p := p) hlog hmap hfree).1
                  obtain ⟨index, slot, entries, pre, post, hfind, hread, hok, hedit, hslots⟩ :=
                    removeEntry_spec hopens.dir hopens.found
                  obtain ⟨k, hk, hblock⟩ := Option.bind_eq_some_iff.mp hread
                  obtain ⟨t, r, hrel, hone, hmore, hless, hlogged⟩ := logDelete_spec (c := c) hlog
                    hmap hp hn hpn (hok (hlog.block_slots hblock)) hedit hreg hfree
                  simp only [hdisk, hfind, hread]
                  rw [hlogged]
                  exact .deletes hopens htarget hreg hslots hrel hone hmore hless

theorem perform_effect (hlog : LogOk s) (hmap : Mapped s) (a : Act) :
    Effect c s a (perform c s a) := by
  cases a with
  | create path random => exact fileCreate_effect hlog hmap path random
  | mkdir path random => exact dirCreate_effect hlog hmap path random
  | link srcpath dstpath => exact fileLink_effect hlog hmap srcpath dstpath
  | write path offset numBlks random => exact fileWrite_effect hlog hmap path offset numBlks random
  | delete path => exact fileDelete_effect hlog hmap path

end OsLabs.Lfs
