import OsLabs.Multilevel.Translate

/-!
# What the pages hold

Every page that has been allocated has one use. A page directory holds the pages
of the page tables, and a page table those of the data, each entry encoded in a
byte; what has no page is marked invalid.
-/

namespace OsLabs.Multilevel

/-! ## Bits -/

theorem shiftLeft_or {x y : ℕ} (hy : y < 32) : (x <<< 5) ||| y = x * 32 + y := by
  rw [← Nat.shiftLeft_add_eq_or_of_lt (by simpa using hy), Nat.shiftLeft_eq]

theorem pdeBits_eq (va : ℕ) : (va &&& PDE_MASK) >>> PDE_SHIFT = va / 1024 % 32 := by
  rw [PDE_MASK, PDE_SHIFT, Nat.shiftRight_and_distrib, Nat.shiftRight_eq_div_pow]
  exact Nat.and_two_pow_sub_one_eq_mod (va / 1024) 5

theorem pteBits_eq (va : ℕ) : (va &&& PTE_MASK) >>> PTE_SHIFT = va / 32 % 32 := by
  rw [PTE_MASK, PTE_SHIFT, Nat.shiftRight_and_distrib, Nat.shiftRight_eq_div_pow]
  exact Nat.and_two_pow_sub_one_eq_mod (va / 32) 5

theorem offset_eq (va : ℕ) : va &&& OFFSET_MASK = va % 32 := Nat.and_two_pow_sub_one_eq_mod va 5

/-- The byte of an entry in a page directory or a page table. -/
def entry : Option ℕ → ℕ
  | some frame => 0x80 ||| frame
  | none => 0x7f

/-- The `valid` bit of an entry and its seven bits for the page. -/
def decode : Option ℕ → ℕ × ℕ
  | some frame => (1, frame)
  | none => (0, 127)

theorem decode_entry {x : Option ℕ} (hx : ∀ frame ∈ x, frame < maxPageCount) :
    ((entry x &&& 0x80) >>> 7, entry x &&& 0x7f) = decode x := by
  cases x with
  | none => rfl
  | some frame =>
      have hframe : frame < 128 := hx frame rfl
      have hentry : entry (some frame) = 128 + frame :=
        (Nat.shiftLeft_add_eq_or_of_lt (i := 7) (by simpa using hframe) 1).symm
      have hvalid : (128 + frame) / 2 ^ 7 = 1 := by omega
      have hpfn : (128 + frame) &&& 0x7f = frame := by
        rw [show 0x7f = 2 ^ 7 - 1 from rfl, Nat.and_two_pow_sub_one_eq_mod]
        omega
      rw [hentry, hpfn, Nat.shiftRight_and_distrib, Nat.shiftRight_eq_div_pow, hvalid]
      rfl

/-! ## The invariant -/

/-- What a page is used for: the page directory of a process, the page table for
an entry of the directory, or the data of a virtual page. -/
inductive Role
  | dir (pid : ℕ)
  | table (pid index : ℕ)
  | data (pid vpn : ℕ)
deriving DecidableEq, Repr

/-- Which page has been allocated for what. -/
abbrev Frames := Role → Option ℕ

structure Inv (os : OS) (frames : Frames) : Prop where
  used : ∀ r f, frames r = some f → f < maxPageCount ∧ os.usedPages f = true
  injective : ∀ r r' f, frames r = some f → frames r' = some f → r = r'
  pdbr : ∀ pid, os.pdbr pid = frames (.dir pid)
  dirs : ∀ pid pd, frames (.dir pid) = some pd →
    ∀ i < 32, os.memory (pd * 32 + i) = entry (frames (.table pid i))
  tables : ∀ pid i pt, frames (.table pid i) = some pt →
    ∀ j < 32, os.memory (pt * 32 + j) = entry (frames (.data pid (i * 32 + j)))
  dir_of_table : ∀ pid i, frames (.table pid i) ≠ none → frames (.dir pid) ≠ none
  table_of_data : ∀ pid vpn, frames (.data pid vpn) ≠ none →
    frames (.table pid (vpn / 32)) ≠ none

/-- No page table without a page in it. -/
def HasPages (frames : Frames) : Prop :=
  ∀ pid i, frames (.table pid i) ≠ none →
    ∃ vpn, vpn / 32 = i ∧ frames (.data pid vpn) ≠ none

/-- The page has been found free, and has no use yet. -/
structure Fresh (os : OS) (frames : Frames) (f : ℕ) : Prop where
  lt : f < maxPageCount
  used : os.usedPages f = true
  unused : ∀ r, frames r ≠ some f

variable {os : OS} {frames : Frames} {pid va vpn pd pt f : ℕ}

theorem inv_new (random : List ℕ) : Inv (OS.new random) fun _ => none := by
  constructor <;> simp [OS.new]

theorem Inv.frame_lt (h : Inv os frames) (r : Role) : ∀ frame ∈ frames r, frame < maxPageCount :=
  fun frame hframe => (h.used r frame hframe).1

theorem Inv.getPageDirEntry_eq (h : Inv os frames) (hdir : frames (.dir pid) = some pd)
    (hva : va < 2 ^ 15) : getPageDirEntry os pid va =
      .ok ((decode (frames (.table pid (va / 1024)))).1,
        (decode (frames (.table pid (va / 1024)))).2, pd * 32 + va / 1024) := by
  have hindex : va / 1024 % 32 = va / 1024 := Nat.mod_eq_of_lt (by omega)
  have hlt : va / 1024 < 32 := by omega
  have hdecode := decode_entry (h.frame_lt (.table pid (va / 1024)))
  rw [← h.dirs pid pd hdir _ hlt] at hdecode
  rw [getPageDirEntry, h.pdbr, hdir]
  simp only [pdeBits_eq, hindex, pageBits, shiftLeft_or hlt, ← hdecode]

theorem Inv.getPageTableEntry_eq (h : Inv os frames)
    (htable : frames (.table pid (va / 1024)) = some pt) : getPageTableEntry os va pt =
      ((decode (frames (.data pid (va / 32)))).1, (decode (frames (.data pid (va / 32)))).2,
        pt * 32 + va / 32 % 32) := by
  have hlt : va / 32 % 32 < 32 := Nat.mod_lt _ (by decide)
  have hdecode := decode_entry (h.frame_lt (.data pid (va / 1024 * 32 + va / 32 % 32)))
  rw [← h.tables pid _ pt htable _ hlt] at hdecode
  have hvpn : va / 1024 * 32 + va / 32 % 32 = va / 32 := by omega
  rw [hvpn] at hdecode
  rw [getPageTableEntry]
  simp only [pteBits_eq, pageBits, shiftLeft_or hlt, ← hdecode]

/-- What `translate` gives, in terms of the pages. -/
theorem Inv.translate_eq (h : Inv os frames) (hdir : frames (.dir pid) ≠ none) (hva : va < 2 ^ 15) :
    translate os pid va = .ok (match frames (.table pid (va / 1024)) with
      | none => -1
      | some _ => match frames (.data pid (va / 32)) with
        | none => -2
        | some f => (f * 32 + va % 32 : ℕ)) := by
  obtain ⟨pd, hpd⟩ := Option.ne_none_iff_exists'.mp hdir
  rw [translate, h.getPageDirEntry_eq hpd hva]
  cases htable : frames (.table pid (va / 1024)) with
  | none => rfl
  | some pt =>
      have hpte := h.getPageTableEntry_eq htable
      cases hdata : frames (.data pid (va / 32)) with
      | none =>
          simp only [hdata, decode] at hpte
          simp only [decode, bind, Except.bind, hpte, if_true]
          rfl
      | some f =>
          have hor : (f <<< pageBits) ||| (va &&& OFFSET_MASK) = f * 32 + va % 32 := by
            rw [offset_eq]
            exact shiftLeft_or (Nat.mod_lt _ (by decide))
          simp only [hdata, decode] at hpte
          simp only [decode, bind, Except.bind, hpte, if_true, hor]
          rfl

end OsLabs.Multilevel
