import OsLabs.Lib.Checked
import OsLabs.Multilevel.Tables

/-!
# Allocation of pages

Each page that is allocated is new, and what is written for it leaves the pages
alone that have another use. No assertion fails on the way.
-/

namespace OsLabs.Multilevel

open OsLabs.Checked

/-- What may stop an allocation: physical memory is exhausted, or a loop is still
drawing. -/
def Allowed (e : Failure) : Prop := e = .exhausted ∨ e = .undecided

variable {os os' : OS} {frames frames' : Frames} {pid vpn pd pt f i : ℕ} {r : Role} {memory : ℕ → ℕ}

theorem addr_div {p i : ℕ} (hi : i < 32) : (p * 32 + i) / 32 = p := by omega

theorem initPageDir_apply (memory : ℕ → ℕ) (p x : ℕ) :
    initPageDir memory p x = if x / 32 = p then 0x7f else memory x := by
  have hfold (n : ℕ) : (List.range n).foldl
      (fun memory i => Function.update memory ((p <<< pageBits) + i) 0x7f) memory x =
        if p * 32 ≤ x ∧ x < p * 32 + n then 0x7f else memory x := by
    induction n with
    | zero => rw [if_neg (by omega)]; rfl
    | succ n ih =>
        rw [List.range_succ, List.foldl_append, List.foldl_cons, List.foldl_nil,
          Nat.shiftLeft_eq, show p * 2 ^ pageBits = p * 32 from rfl]
        obtain rfl | hx := eq_or_ne x (p * 32 + n)
        · rw [Function.update_self, if_pos (by omega)]
        · rw [Function.update_of_ne hx]
          rw [Nat.shiftLeft_eq, show p * 2 ^ pageBits = p * 32 from rfl] at ih
          rw [ih]
          congr 1
          exact propext (by omega)
  rw [initPageDir, hfold]
  congr 1
  unfold pageSize
  exact propext (by omega)

/-- The page gets its use. -/
theorem Inv.assign (h : Inv os frames) (hfresh : Fresh os frames f)
    (hused : os'.usedPages = os.usedPages)
    (hframes : frames' = Function.update frames r (some f)) :
    (∀ r' g, frames' r' = some g → g < maxPageCount ∧ os'.usedPages g = true) ∧
      ∀ r' r'' g, frames' r' = some g → frames' r'' = some g → r' = r'' := by
  rw [hused, hframes]
  constructor
  · intro r' g hg
    obtain rfl | hr := eq_or_ne r' r
    · rw [Function.update_self] at hg
      obtain rfl := Option.some.inj hg
      exact ⟨hfresh.lt, hfresh.used⟩
    · rw [Function.update_of_ne hr] at hg
      exact h.used r' g hg
  · intro r' r'' g hg hg'
    obtain rfl | hr := eq_or_ne r' r
    · rw [Function.update_self] at hg
      obtain rfl := Option.some.inj hg
      obtain rfl | hr' := eq_or_ne r'' r'
      · rfl
      · rw [Function.update_of_ne hr'] at hg'
        exact absurd hg' (hfresh.unused r'')
    · rw [Function.update_of_ne hr] at hg
      obtain rfl | hr' := eq_or_ne r'' r
      · rw [Function.update_self] at hg'
        obtain rfl := Option.some.inj hg'
        exact absurd hg (hfresh.unused r')
      · rw [Function.update_of_ne hr'] at hg'
        exact h.injective r' r'' g hg hg'

/-- The new page is none of those that have a use. -/
theorem Fresh.ne (h : Fresh os frames f) {g : ℕ} (hg : frames r = some g) : g ≠ f := by
  rintro rfl
  exact h.unused r hg

theorem Inv.newDir (h : Inv os frames) (hfresh : Fresh os frames f) (hnew : os.pdbr pid = none)
    (hused : os'.usedPages = os.usedPages)
    (hpdbr : os'.pdbr = Function.update os.pdbr pid (some f))
    (hmemory : os'.memory = initPageDir os.memory f)
    (hframes : frames' = Function.update frames (.dir pid) (some f)) : Inv os' frames' := by
  obtain ⟨hpages, hinjective⟩ := h.assign hfresh hused hframes
  rw [h.pdbr] at hnew
  have htable (pid' i : ℕ) : frames' (.table pid' i) = frames (.table pid' i) := by
    rw [hframes, Function.update_of_ne (by simp)]
  have hdata (pid' vpn : ℕ) : frames' (.data pid' vpn) = frames (.data pid' vpn) := by
    rw [hframes, Function.update_of_ne (by simp)]
  have hdir {pid' : ℕ} (hne : pid' ≠ pid) : frames' (.dir pid') = frames (.dir pid') := by
    rw [hframes, Function.update_of_ne (by simp [hne])]
  have hself : frames' (.dir pid) = some f := by rw [hframes, Function.update_self]
  refine ⟨hpages, hinjective, fun pid' => ?_, fun pid' pd hpd i hi => ?_,
    fun pid' i pt hpt j hj => ?_, fun pid' i hi => ?_, fun pid' vpn hvpn => ?_⟩
  · obtain rfl | hne := eq_or_ne pid' pid
    · rw [hpdbr, Function.update_self, hself]
    · rw [hpdbr, Function.update_of_ne hne, hdir hne, h.pdbr]
  · rw [hmemory, initPageDir_apply, addr_div hi, htable]
    obtain rfl | hne := eq_or_ne pid' pid
    · obtain rfl := Option.some.inj (hself.symm.trans hpd)
      have hnone : frames (.table pid' i) = none := by
        by_contra htab
        exact h.dir_of_table pid' i htab hnew
      rw [if_pos rfl, hnone]
      rfl
    · rw [hdir hne] at hpd
      rw [if_neg (hfresh.ne hpd)]
      exact h.dirs pid' pd hpd i hi
  · rw [htable] at hpt
    rw [hmemory, initPageDir_apply, addr_div hj, hdata, if_neg (hfresh.ne hpt)]
    exact h.tables pid' i pt hpt j hj
  · rw [htable] at hi
    obtain rfl | hne := eq_or_ne pid' pid
    · simp [hself]
    · rw [hdir hne]
      exact h.dir_of_table pid' i hi
  · rw [hdata] at hvpn
    rw [htable]
    exact h.table_of_data pid' vpn hvpn

theorem Inv.newTable (h : Inv os frames) (hfresh : Fresh os frames f)
    (hpd : frames (.dir pid) = some pd) (hi : i < 32) (hnew : frames (.table pid i) = none)
    (hused : os'.usedPages = os.usedPages) (hpdbr : os'.pdbr = os.pdbr)
    (hmemory : os'.memory = initPageTablePage (setEntry os.memory (pd * 32 + i) f) f)
    (hframes : frames' = Function.update frames (.table pid i) (some f)) : Inv os' frames' := by
  obtain ⟨hpages, hinjective⟩ := h.assign hfresh hused hframes
  have hdir (pid' : ℕ) : frames' (.dir pid') = frames (.dir pid') := by
    rw [hframes, Function.update_of_ne (by simp)]
  have hdata (pid' vpn : ℕ) : frames' (.data pid' vpn) = frames (.data pid' vpn) := by
    rw [hframes, Function.update_of_ne (by simp)]
  have htable {pid' i' : ℕ} (hne : ¬ (pid' = pid ∧ i' = i)) :
      frames' (.table pid' i') = frames (.table pid' i') := by
    rw [hframes, Function.update_of_ne (by simpa using hne)]
  have hself : frames' (.table pid i) = some f := by rw [hframes, Function.update_self]
  -- away from the new page and the new entry memory is as before
  have hsame {x : ℕ} (hx : x / 32 ≠ f) (hx' : x ≠ pd * 32 + i) : os'.memory x = os.memory x := by
    rw [hmemory, initPageTablePage, initPageDir_apply, if_neg hx, setEntry,
      Function.update_of_ne hx']
  refine ⟨hpages, hinjective, fun pid' => ?_, fun pid' pd' hpd' i' hi' => ?_,
    fun pid' i' pt hpt j hj => ?_, fun pid' i' hi' => ?_, fun pid' vpn hvpn => ?_⟩
  · rw [hpdbr, hdir, h.pdbr]
  · rw [hdir] at hpd'
    have hne : (pd' * 32 + i') / 32 ≠ f := by
      rw [addr_div hi']
      exact hfresh.ne hpd'
    by_cases hsame' : pid' = pid ∧ i' = i
    · obtain ⟨rfl, rfl⟩ := hsame'
      obtain rfl := Option.some.inj (hpd'.symm.trans hpd)
      rw [hmemory, initPageTablePage, initPageDir_apply, if_neg hne, setEntry,
        Function.update_self, hself]
      rfl
    · rw [htable hsame', hsame hne, h.dirs pid' pd' hpd' i' hi']
      intro heq
      obtain rfl : pd' = pd := by omega
      have := h.injective _ _ _ hpd' hpd
      exact hsame' ⟨by simpa using this, by omega⟩
  · by_cases hsame' : pid' = pid ∧ i' = i
    · obtain ⟨rfl, rfl⟩ := hsame'
      obtain rfl := Option.some.inj (hself.symm.trans hpt)
      have hnone : frames (.data pid' (i' * 32 + j)) = none := by
        by_contra hd
        have := h.table_of_data pid' _ hd
        rw [show (i' * 32 + j) / 32 = i' by omega] at this
        exact this hnew
      rw [hmemory, initPageTablePage, initPageDir_apply, addr_div hj, if_pos rfl, hdata, hnone]
      rfl
    · rw [htable hsame'] at hpt
      have hne : pt ≠ pd := by
        rintro rfl
        have := h.injective _ _ _ hpt hpd
        cases this
      rw [hdata, hsame (by rw [addr_div hj]; exact hfresh.ne hpt) (by omega)]
      exact h.tables pid' i' pt hpt j hj
  · rw [hdir]
    by_cases hsame' : pid' = pid ∧ i' = i
    · rw [hsame'.1, hpd]
      simp
    · rw [htable hsame'] at hi'
      exact h.dir_of_table pid' i' hi'
  · rw [hdata] at hvpn
    by_cases hsame' : pid' = pid ∧ vpn / 32 = i
    · rw [hsame'.1, hsame'.2, hself]
      simp
    · rw [htable hsame']
      exact h.table_of_data pid' vpn hvpn

theorem Inv.newPage (h : Inv os frames) (hfresh : Fresh os frames f)
    (hpt : frames (.table pid (vpn / 32)) = some pt)
    (hused : os'.usedPages = os.usedPages) (hpdbr : os'.pdbr = os.pdbr)
    (hmemory : os'.memory = setEntry os.memory (pt * 32 + vpn % 32) f)
    (hframes : frames' = Function.update frames (.data pid vpn) (some f)) : Inv os' frames' := by
  obtain ⟨hpages, hinjective⟩ := h.assign hfresh hused hframes
  have hdir (pid' : ℕ) : frames' (.dir pid') = frames (.dir pid') := by
    rw [hframes, Function.update_of_ne (by simp)]
  have htable (pid' i : ℕ) : frames' (.table pid' i) = frames (.table pid' i) := by
    rw [hframes, Function.update_of_ne (by simp)]
  have hdata {pid' vpn' : ℕ} (hne : ¬ (pid' = pid ∧ vpn' = vpn)) :
      frames' (.data pid' vpn') = frames (.data pid' vpn') := by
    rw [hframes, Function.update_of_ne (by simpa using hne)]
  have hself : frames' (.data pid vpn) = some f := by rw [hframes, Function.update_self]
  refine ⟨hpages, hinjective, fun pid' => ?_, fun pid' pd hpd i hi => ?_,
    fun pid' i pt' hpt' j hj => ?_, fun pid' i hi => ?_, fun pid' vpn' hvpn => ?_⟩
  · rw [hpdbr, hdir, h.pdbr]
  · rw [hdir] at hpd
    have hne : pd ≠ pt := by
      rintro rfl
      have := h.injective _ _ _ hpd hpt
      cases this
    rw [htable, hmemory, setEntry, Function.update_of_ne (by omega)]
    exact h.dirs pid' pd hpd i hi
  · rw [htable] at hpt'
    by_cases hsame : pid' = pid ∧ i * 32 + j = vpn
    · obtain ⟨rfl, rfl⟩ := hsame
      rw [show (i * 32 + j) / 32 = i by omega] at hpt
      obtain rfl := Option.some.inj (hpt'.symm.trans hpt)
      rw [hmemory, setEntry, show (i * 32 + j) % 32 = j by omega, Function.update_self, hself]
      rfl
    · rw [hdata hsame, hmemory, setEntry, Function.update_of_ne]
      · exact h.tables pid' i pt' hpt' j hj
      · intro heq
        obtain rfl : pt' = pt := by omega
        have hrole := h.injective _ _ _ hpt' hpt
        simp only [Role.table.injEq] at hrole
        exact hsame ⟨hrole.1, by omega⟩
  · rw [htable] at hi
    rw [hdir]
    exact h.dir_of_table pid' i hi
  · rw [htable]
    by_cases hsame : pid' = pid ∧ vpn' = vpn
    · rw [hsame.1, hsame.2, hpt]
      simp
    · rw [hdata hsame] at hvpn
      exact h.table_of_data pid' vpn' hvpn

/-- What is written to a page of data concerns no directory and no table. -/
theorem Inv.writeData (h : Inv os frames) (hf : frames (.data pid vpn) = some f)
    (hused : os'.usedPages = os.usedPages) (hpdbr : os'.pdbr = os.pdbr)
    (hmemory : ∀ x, x / 32 ≠ f → os'.memory x = os.memory x) : Inv os' frames := by
  refine ⟨?_, h.injective, ?_, fun pid' pd hpd i hi => ?_, fun pid' i pt hpt j hj => ?_,
    h.dir_of_table, h.table_of_data⟩
  · rw [hused]
    exact h.used
  · rw [hpdbr]
    exact h.pdbr
  · rw [hmemory, h.dirs pid' pd hpd i hi]
    rw [addr_div hi]
    rintro rfl
    have := h.injective _ _ _ hpd hf
    cases this
  · rw [hmemory, h.tables pid' i pt hpt j hj]
    rw [addr_div hj]
    rintro rfl
    have := h.injective _ _ _ hpt hf
    cases this

/-! ## The functions -/

theorem drawUntil_safe {n : ℕ} {taken : ℕ → Bool} (hn : 0 < n) (ds : List ℕ) :
    Safe Allowed (drawUntil n taken ds) fun r => r.1 < n ∧ taken r.1 = false := by
  induction ds with
  | nil => exact Safe.error (Or.inr rfl)
  | cons d ds ih =>
      rw [drawUntil]
      split
      · exact ih
      · next hfree => exact Safe.ok ⟨Nat.mod_lt d hn, Bool.eq_false_iff.mpr hfree⟩

theorem check_safe {condition : Bool} (h : condition = true) :
    Safe Allowed (check condition) fun _ => True := by
  rw [check, h]
  exact Safe.ok trivial

/-- A free page has been found, and nothing else has changed. -/
structure Found (os : OS) (frames : Frames) (f : ℕ) (os' : OS) : Prop where
  inv : Inv os' frames
  fresh : Fresh os' frames f
  free : os.usedPages f = false
  mono : ∀ g, os.usedPages g = true → os'.usedPages g = true
  pdbr : os'.pdbr = os.pdbr

theorem findFree_safe (h : Inv os frames) :
    Safe Allowed (findFree os) fun r => Found os frames r.1 r.2 := by
  rw [findFree]
  split
  · refine (drawUntil_safe (by decide) os.random).bind fun (look, random) ⟨hlt, hfree⟩ => ?_
    have hmono (g : ℕ) (hg : os.usedPages g = true) :
        Function.update os.usedPages look true g = true := by
      obtain rfl | hne := eq_or_ne g look
      · exact Function.update_self ..
      · rwa [Function.update_of_ne hne]
    refine Safe.ok ⟨⟨fun r f hf => ?_, h.injective, h.pdbr, h.dirs, h.tables, h.dir_of_table,
      h.table_of_data⟩, ⟨hlt, Function.update_self .., fun r hr => ?_⟩, hfree, hmono, rfl⟩
    · exact ⟨(h.used r f hf).1, hmono f (h.used r f hf).2⟩
    · have := (h.used r look hr).2
      rw [hfree] at this
      cases this
  · exact Safe.error (Or.inl rfl)

/-- A page that waits for its use is not found again. -/
theorem Found.other (h : Found os frames f os') {g : ℕ} (hg : Fresh os frames g) :
    Fresh os' frames g ∧ g ≠ f := by
  refine ⟨⟨hg.lt, h.mono g hg.used, hg.unused⟩, ?_⟩
  rintro rfl
  have := h.free
  rw [hg.used] at this
  cases this

/-- What `findPageTable` gives for the entry `i` of the directory of `pid`. -/
structure TableFound (os : OS) (frames : Frames) (pid i pt : ℕ) (os' : OS) (frames' : Frames) :
    Prop where
  inv : Inv os' frames'
  table : frames' (.table pid i) = some pt
  others : ∀ r, r ≠ .table pid i → frames' r = frames r
  fresh : ∀ g, Fresh os frames g → Fresh os' frames' g

theorem findPageTable_safe (h : Inv os frames) (hpd : frames (.dir pid) = some pd) {va : ℕ}
    (hva : va < 2 ^ 15) : Safe Allowed (findPageTable os pid va) fun r =>
      ∃ frames', TableFound os frames pid (va / 1024) r.1 r.2 frames' := by
  rw [findPageTable, h.getPageDirEntry_eq hpd hva]
  refine Safe.ok_bind ?_
  cases htable : frames (.table pid (va / 1024)) with
  | none =>
      simp only [decode, if_true]
      refine (check_safe (by rfl)).bind fun _ _ => (findFree_safe h).bind ?_
      rintro ⟨f, os₁⟩ hfound
      dsimp only at hfound
      refine Safe.ok ⟨Function.update frames (.table pid (va / 1024)) (some f), ?_,
        Function.update_self .., fun r hr => Function.update_of_ne hr .., fun g hg => ?_⟩
      · exact hfound.inv.newTable hfound.fresh hpd (by omega) htable rfl rfl rfl rfl
      · obtain ⟨hfresh, hne⟩ := hfound.other hg
        refine ⟨hfresh.lt, hfresh.used, fun r hr => ?_⟩
        obtain rfl | hrole := eq_or_ne r (.table pid (va / 1024))
        · rw [Function.update_self] at hr
          exact hne (Option.some.inj hr).symm
        · rw [Function.update_of_ne hrole] at hr
          exact hfresh.unused r hr
  | some pt => exact Safe.ok ⟨frames, h, htable, fun _ _ => rfl, fun _ hg => hg⟩

/-- The page `pp` has become that of `vpn`. -/
structure PageAllocated (frames : Frames) (pid vpn pp : ℕ) (os' : OS) (frames' : Frames) :
    Prop where
  inv : Inv os' frames'
  hasPages : HasPages frames'
  data : frames' (.data pid vpn) = some pp
  others : ∀ p v, ¬ (p = pid ∧ v = vpn) → frames' (.data p v) = frames (.data p v)
  dirs : ∀ p, frames' (.dir p) = frames (.dir p)

theorem allocVirtualPage_safe (h : Inv os frames) (hpages : HasPages frames)
    (hdir : frames (.dir pid) ≠ none) (hvpn : vpn < vaPages) (hfresh : Fresh os frames f)
    (hnew : frames (.data pid vpn) = none) :
    Safe Allowed (allocVirtualPage os pid vpn f) fun os' =>
      ∃ frames', PageAllocated frames pid vpn f os' frames' := by
  obtain ⟨pd, hpd⟩ := Option.ne_none_iff_exists'.mp hdir
  have hva : vpn <<< pageBits = vpn * 32 := Nat.shiftLeft_eq vpn 5
  have hlt : vpn < 1024 := hvpn
  rw [allocVirtualPage, hva]
  refine (findPageTable_safe h hpd (show vpn * 32 < 2 ^ 15 by omega)).bind
    fun (pt, os₁) ⟨frames₁, hfound⟩ => ?_
  have hindex : vpn * 32 / 1024 = vpn / 32 := by omega
  have htable := hfound.table
  have hpte := hfound.inv.getPageTableEntry_eq htable
  have hdata : frames₁ (.data pid vpn) = none := by
    rw [← hnew]
    exact hfound.others _ (by simp)
  rw [show vpn * 32 / 32 = vpn by omega, hdata] at hpte
  simp only [hpte]
  refine (check_safe (by rfl)).bind fun _ _ => (check_safe (by rfl)).bind fun _ _ => Safe.ok ?_
  rw [hindex] at htable
  have hothers (p v : ℕ) (hne : ¬ (p = pid ∧ v = vpn)) :
      Function.update frames₁ (.data pid vpn) (some f) (.data p v) = frames (.data p v) := by
    rw [Function.update_of_ne (by simpa using hne)]
    exact hfound.others _ (by simp)
  refine ⟨Function.update frames₁ (.data pid vpn) (some f), ?_, fun p i hi => ?_,
    Function.update_self .., hothers, fun p => ?_⟩
  · exact hfound.inv.newPage (hfound.fresh f hfresh) htable rfl rfl rfl rfl
  · rw [Function.update_of_ne (by simp)] at hi
    by_cases hsame : p = pid ∧ i = vpn / 32
    · obtain ⟨rfl, rfl⟩ := hsame
      exact ⟨vpn, rfl, by simp⟩
    · have hold : frames (.table p i) ≠ none := by
        rw [← hfound.others (.table p i) (by rw [hindex]; simpa using hsame)]
        exact hi
      obtain ⟨v, hv, hd⟩ := hpages p i hold
      refine ⟨v, hv, ?_⟩
      by_cases hpage : p = pid ∧ v = vpn
      · rw [hpage.1, hpage.2]
        simp
      · rwa [hothers p v hpage]
  · rw [Function.update_of_ne (by simp)]
    exact hfound.others _ (by simp)

theorem fillPage_safe (h : Inv os frames) (hf : frames (.data pid vpn) = some f) :
    Safe Allowed (fillPage os f) fun os' => Inv os' frames := by
  refine Safe.foldlM (fun os' j hj hinv => ?_) h
  have hj : j < 32 := List.mem_range.mp hj
  refine (drawUntil_safe (by decide) os'.random).bind fun (value, random) _ => Safe.ok ?_
  refine hinv.writeData hf rfl rfl fun x hx => ?_
  dsimp only
  rw [Function.update_of_ne]
  rintro rfl
  exact hx (addr_div hj)

/-! ## Whole calls -/

/-- The process has a directory, `used` tells which virtual pages it has, and
`allocatedVPs` has each of them with its page. -/
structure Allocating (os : OS) (frames : Frames) (pid : ℕ) (used : ℕ → Bool)
    (allocatedVPs : List (ℕ × ℕ)) : Prop where
  inv : Inv os frames
  hasPages : HasPages frames
  dir : frames (.dir pid) ≠ none
  used_iff : ∀ vpn, used vpn = true ↔ frames (.data pid vpn) ≠ none
  mem_iff : ∀ vpn pp, (vpn, pp) ∈ allocatedVPs ↔ frames (.data pid vpn) = some pp
  nodup : (allocatedVPs.map Prod.fst).Nodup
  lt : ∀ page ∈ allocatedVPs, page.1 < vaPages

theorem Inv.setRandom (h : Inv os frames) (random : List ℕ) : Inv { os with random } frames :=
  ⟨h.used, h.injective, h.pdbr, h.dirs, h.tables, h.dir_of_table, h.table_of_data⟩

/-- What a call of `procAlloc` for `pid` leaves and returns. -/
structure ProcAllocated (frames : Frames) (pid : ℕ) (allocatedVPs : List (ℕ × ℕ)) (os' : OS)
    (frames' : Frames) : Prop where
  inv : Inv os' frames'
  hasPages : HasPages frames'
  mem_iff : ∀ vpn pp, (vpn, pp) ∈ allocatedVPs ↔ frames' (.data pid vpn) = some pp
  nodup : (allocatedVPs.map Prod.fst).Nodup
  lt : ∀ page ∈ allocatedVPs, page.1 < vaPages
  dir : frames' (.dir pid) ≠ none
  others : ∀ p ≠ pid, ∀ vpn, frames' (.data p vpn) = frames (.data p vpn)
  dirs : ∀ p ≠ pid, frames' (.dir p) = frames (.dir p)

theorem PageAllocated.allocating {frames₂ : Frames} {used : ℕ → Bool}
    {allocatedVPs : List (ℕ × ℕ)} (h : Allocating os frames pid used allocatedVPs)
    (hvpn : vpn < vaPages) (hunused : used vpn = false)
    (hpage : PageAllocated frames pid vpn f os' frames₂) :
    Allocating os' frames₂ pid (Function.update used vpn true) (allocatedVPs ++ [(vpn, f)]) := by
  have hnew : frames (.data pid vpn) = none := by
    by_contra hdata
    rw [(h.used_iff vpn).mpr hdata] at hunused
    cases hunused
  refine ⟨hpage.inv, hpage.hasPages, ?_, fun v => ?_, fun v pp => ?_, ?_, fun page hmem => ?_⟩
  · rw [hpage.dirs]
    exact h.dir
  · obtain rfl | hne := eq_or_ne v vpn
    · simp [hpage.data]
    · rw [Function.update_of_ne hne, h.used_iff, hpage.others pid v (by simp [hne])]
  · rw [List.mem_append, h.mem_iff, List.mem_singleton, Prod.mk.injEq]
    obtain rfl | hne := eq_or_ne v vpn
    · simp [hpage.data, hnew, eq_comm]
    · simp [hpage.others pid v (by simp [hne]), hne]
  · rw [List.map_append, List.map_singleton]
    refine h.nodup.append (List.nodup_singleton _) (List.disjoint_singleton.mpr fun hmem => ?_)
    obtain ⟨⟨v, pp⟩, hpair, rfl⟩ := List.mem_map.mp hmem
    have := (h.mem_iff v pp).mp hpair
    rw [hnew] at this
    cases this
  · obtain hold | hpair := List.mem_append.mp hmem
    · exact h.lt page hold
    · rw [List.mem_singleton.mp hpair]
      exact hvpn

theorem allocPages_safe (numPages : ℕ) {used : ℕ → Bool} {allocatedVPs : List (ℕ × ℕ)}
    (h : Allocating os frames pid used allocatedVPs) :
    Safe Allowed (allocPages pid numPages os used allocatedVPs) fun r =>
      r.1.length = allocatedVPs.length + numPages ∧
        ∃ frames', ProcAllocated frames pid r.1 r.2 frames' := by
  induction numPages generalizing os frames used allocatedVPs with
  | zero =>
      exact Safe.ok ⟨rfl, frames, h.inv, h.hasPages, h.mem_iff, h.nodup, h.lt, h.dir,
        fun _ _ _ => rfl, fun _ _ => rfl⟩
  | succ numPages ih =>
      rw [allocPages]
      refine (drawUntil_safe (by decide) os.random).bind fun (vp, random) ⟨hvp, hunused⟩ => ?_
      dsimp only at hvp hunused ⊢
      refine (check_safe (by rw [hunused]; rfl)).bind fun _ _ => ?_
      refine (findFree_safe (h.inv.setRandom random)).bind fun (pp, os₁) hfound => ?_
      dsimp only at hfound ⊢
      have hnew : frames (.data pid vp) = none := by
        by_contra hdata
        rw [(h.used_iff vp).mpr hdata] at hunused
        cases hunused
      refine (allocVirtualPage_safe hfound.inv h.hasPages h.dir hvp hfound.fresh hnew).bind
        fun os₂ ⟨frames₂, hpage⟩ => (fillPage_safe hpage.inv hpage.data).bind fun os₃ hinv => ?_
      refine (ih (PageAllocated.allocating h hvp hunused
        ⟨hinv, hpage.hasPages, hpage.data, hpage.others, hpage.dirs⟩)).mono ?_
      rintro r ⟨hlength, frames', hr⟩
      refine ⟨?_, frames', hr.inv, hr.hasPages, hr.mem_iff, hr.nodup, hr.lt, hr.dir,
        fun p hp vpn => ?_, fun p hp => (hr.dirs p hp).trans (hpage.dirs p)⟩
      · rw [hlength, List.length_append, List.length_singleton]
        omega
      · exact (hr.others p hp vpn).trans (hpage.others p vpn (by simp [hp]))

theorem procAlloc_safe (h : Inv os frames) (hpages : HasPages frames) (hnew : os.pdbr pid = none)
    (numPages : ℕ) : Safe Allowed (procAlloc os pid numPages) fun r =>
      r.1.length = numPages ∧ ∃ frames', ProcAllocated frames pid r.1 r.2 frames' := by
  rw [procAlloc]
  refine (findFree_safe h).bind fun (pageDir, os₁) hfound => ?_
  dsimp only at hfound ⊢
  have hinv : Inv { os₁ with
      pdbr := Function.update os₁.pdbr pid (some pageDir)
      memory := initPageDir os₁.memory pageDir }
        (Function.update frames (.dir pid) (some pageDir)) :=
    hfound.inv.newDir hfound.fresh (by rw [hfound.pdbr, hnew]) rfl rfl rfl rfl
  have hnone (vpn : ℕ) : frames (.data pid vpn) = none := by
    by_contra hdata
    have := h.dir_of_table pid _ (h.table_of_data pid vpn hdata)
    rw [← h.pdbr] at this
    exact this hnew
  have hdata (p vpn : ℕ) : Function.update frames (.dir pid) (some pageDir) (.data p vpn) =
      frames (.data p vpn) := Function.update_of_ne (by simp) ..
  refine (allocPages_safe numPages ⟨hinv, fun p i hi => ?_, ?_, fun vpn => ?_, fun vpn pp => ?_,
    ?_, ?_⟩).mono ?_
  · rw [Function.update_of_ne (by simp)] at hi
    obtain ⟨v, hv, hpage⟩ := hpages p i hi
    exact ⟨v, hv, by rwa [hdata]⟩
  · simp
  · simp [hnone]
  · simp [hnone]
  · exact List.nodup_nil
  · exact List.forall_mem_nil _
  · rintro r ⟨hlength, frames', hr⟩
    refine ⟨hlength.trans (Nat.zero_add _), frames', hr.inv, hr.hasPages, hr.mem_iff, hr.nodup,
      hr.lt, hr.dir, fun p hp vpn => (hr.others p hp vpn).trans (hdata p vpn), fun p hp => ?_⟩
    exact (hr.dirs p hp).trans (Function.update_of_ne (by simp [hp]) ..)

/-- A call of `procAlloc` gives as many virtual pages as it is asked for, each once. -/
structure Returns (call : ℕ × ℕ) (result : ℕ × List (ℕ × ℕ)) : Prop where
  pid : result.1 = call.1
  length : result.2.length = call.2
  nodup : (result.2.map Prod.fst).Nodup
  lt : ∀ page ∈ result.2, page.1 < vaPages

/-- A call for `pid` has allocated the page `pp` for the virtual page `vpn`. -/
def Allocated (results : List (ℕ × List (ℕ × ℕ))) (pid vpn pp : ℕ) : Prop :=
  ∃ allocatedVPs, (pid, allocatedVPs) ∈ results ∧ (vpn, pp) ∈ allocatedVPs

/-- What a sequence of calls leaves and returns. -/
structure ProcsAllocated (frames : Frames) (calls : List (ℕ × ℕ))
    (results : List (ℕ × List (ℕ × ℕ))) (os' : OS) (frames' : Frames) : Prop where
  inv : Inv os' frames'
  hasPages : HasPages frames'
  returns : List.Forall₂ Returns calls results
  allocated_iff : ∀ pid ∈ calls.map Prod.fst, ∀ vpn pp,
    Allocated results pid vpn pp ↔ frames' (.data pid vpn) = some pp
  dir : ∀ pid ∈ calls.map Prod.fst, frames' (.dir pid) ≠ none
  others : ∀ p ∉ calls.map Prod.fst, ∀ vpn, frames' (.data p vpn) = frames (.data p vpn)
  dirs : ∀ p ∉ calls.map Prod.fst, frames' (.dir p) = frames (.dir p)

theorem pids_of_returns {calls : List (ℕ × ℕ)} {results : List (ℕ × List (ℕ × ℕ))}
    (h : List.Forall₂ Returns calls results) : results.map Prod.fst = calls.map Prod.fst := by
  induction h with
  | nil => rfl
  | cons hreturn _ ih => rw [List.map_cons, List.map_cons, hreturn.pid, ih]

theorem Allocated.mem {calls : List (ℕ × ℕ)} {results : List (ℕ × List (ℕ × ℕ))} {pp : ℕ}
    (h : Allocated results pid vpn pp) (hreturns : List.Forall₂ Returns calls results) :
    pid ∈ calls.map Prod.fst := by
  obtain ⟨allocatedVPs, hresult, -⟩ := h
  rw [← pids_of_returns hreturns]
  exact List.mem_map_of_mem hresult

theorem allocated_cons {results : List (ℕ × List (ℕ × ℕ))} {allocatedVPs : List (ℕ × ℕ)}
    {p pp : ℕ} : Allocated ((p, allocatedVPs) :: results) pid vpn pp ↔
      p = pid ∧ (vpn, pp) ∈ allocatedVPs ∨ Allocated results pid vpn pp := by
  constructor
  · rintro ⟨vps, hmem, hpage⟩
    obtain heq | hmem := List.mem_cons.mp hmem
    · obtain ⟨rfl, rfl⟩ := Prod.mk.inj heq
      exact Or.inl ⟨rfl, hpage⟩
    · exact Or.inr ⟨vps, hmem, hpage⟩
  · rintro (⟨rfl, hpage⟩ | ⟨vps, hmem, hpage⟩)
    · exact ⟨allocatedVPs, List.mem_cons_self, hpage⟩
    · exact ⟨vps, List.mem_cons_of_mem _ hmem, hpage⟩

theorem procAllocs_safe (h : Inv os frames) (hpages : HasPages frames) {calls : List (ℕ × ℕ)}
    (hnew : ∀ call ∈ calls, os.pdbr call.1 = none) (hcalls : (calls.map Prod.fst).Nodup) :
    Safe Allowed (procAllocs os calls) fun r =>
      ∃ frames', ProcsAllocated frames calls r.1 r.2 frames' := by
  induction calls generalizing os frames with
  | nil =>
      exact Safe.ok ⟨frames, h, hpages, List.Forall₂.nil, List.forall_mem_nil _,
        List.forall_mem_nil _, fun _ _ _ => rfl, fun _ _ => rfl⟩
  | cons call calls ih =>
      obtain ⟨pid, numPages⟩ := call
      rw [List.map_cons, List.nodup_cons] at hcalls
      rw [procAllocs]
      refine (procAlloc_safe h hpages (hnew _ List.mem_cons_self) numPages).bind ?_
      rintro ⟨allocatedVPs, os₁⟩ ⟨hlength, frames₁, hfirst⟩
      refine Safe.bind (ih hfirst.inv hfirst.hasPages (fun call hcall => ?_) hcalls.2) ?_
      · have hne : call.1 ≠ pid := by
          intro heq
          exact hcalls.1 (List.mem_map.mpr ⟨call, hcall, heq⟩)
        rw [hfirst.inv.pdbr, hfirst.dirs _ hne, ← h.pdbr]
        exact hnew call (List.mem_cons_of_mem _ hcall)
      · rintro ⟨results, os'⟩ ⟨frames', hrest⟩
        refine Safe.ok ⟨frames', hrest.inv, hrest.hasPages,
          List.Forall₂.cons ⟨rfl, hlength, hfirst.nodup, hfirst.lt⟩ hrest.returns,
          fun p hp vpn pp => ?_, fun p hp => ?_, fun p hp vpn => ?_, fun p hp => ?_⟩
        · rw [allocated_cons]
          obtain rfl | hne := eq_or_ne p pid
          · rw [hrest.others p hcalls.1, ← hfirst.mem_iff, or_iff_left, and_iff_right rfl]
            exact fun hallocated => hcalls.1 (hallocated.mem hrest.returns)
          · have hlater := (List.mem_cons.mp hp).resolve_left hne
            rw [or_iff_right fun hfirst => hne hfirst.1.symm, hrest.allocated_iff p hlater]
        · by_cases hlater : p ∈ calls.map Prod.fst
          · exact hrest.dir p hlater
          · obtain rfl := (List.mem_cons.mp hp).resolve_right hlater
            rw [hrest.dirs p hlater]
            exact hfirst.dir
        · obtain ⟨hne, hlater⟩ := not_or.mp (List.mem_cons.not.mp hp)
          exact (hrest.others p hlater vpn).trans (hfirst.others p hne vpn)
        · obtain ⟨hne, hlater⟩ := not_or.mp (List.mem_cons.not.mp hp)
          exact (hrest.dirs p hlater).trans (hfirst.dirs p hne)

/-- An address is in a page, or its directory entry has no page at all, or it has
pages but not this one. -/
theorem Inv.translate_cases (h : Inv os frames) (hpages : HasPages frames)
    (hdir : frames (.dir pid) ≠ none) {va : ℕ} (hva : va < 2 ^ 15) :
    (∀ f, frames (.data pid (va / 32)) = some f →
      translate os pid va = .ok (f * 32 + va % 32 : ℕ)) ∧
    ((∀ vpn f, frames (.data pid vpn) = some f → vpn / 32 ≠ va / 1024) ↔
      translate os pid va = .ok (-1)) ∧
    ((∃ vpn f, frames (.data pid vpn) = some f ∧ vpn / 32 = va / 1024) →
      (∀ f, frames (.data pid (va / 32)) ≠ some f) → translate os pid va = .ok (-2)) := by
  have hindex : va / 32 / 32 = va / 1024 := by omega
  rw [h.translate_eq hdir hva]
  cases htable : frames (.table pid (va / 1024)) with
  | none =>
      have hnone (vpn f : ℕ) (hf : frames (.data pid vpn) = some f) : vpn / 32 ≠ va / 1024 := by
        intro hvpn
        have := h.table_of_data pid vpn (by simp [hf])
        rw [hvpn] at this
        exact this htable
      refine ⟨fun f hf => absurd hindex (hnone _ f hf), ⟨fun _ => rfl, fun _ => hnone⟩, ?_⟩
      rintro ⟨vpn, f, hf, hvpn⟩ -
      exact absurd hvpn (hnone vpn f hf)
  | some pt =>
      obtain ⟨vpn, hvpn, hpage⟩ := hpages pid (va / 1024) (by rw [htable]; simp)
      obtain ⟨g, hg⟩ := Option.ne_none_iff_exists'.mp hpage
      have hshared : ¬ ∀ vpn f, frames (.data pid vpn) = some f → vpn / 32 ≠ va / 1024 :=
        fun hall => hall vpn g hg hvpn
      cases hdata : frames (.data pid (va / 32)) with
      | none =>
          refine ⟨fun f hf => ?_, iff_of_false hshared (by simp), fun _ _ => rfl⟩
          cases hf
      | some f =>
          refine ⟨fun f' hf' => ?_, iff_of_false hshared ?_, fun _ hnone => ?_⟩
          · obtain rfl := Option.some.inj hf'
            rfl
          · simp only [Except.ok.injEq]
            omega
          · exact absurd rfl (hnone f)

/-- The page of a directory entry that is valid. -/
theorem Inv.table_of_getPageDirEntry (h : Inv os frames) {va addr : ℕ} (hva : va < 2 ^ 15)
    (hget : getPageDirEntry os pid va = .ok (1, f, addr)) :
    frames (.table pid (va / 1024)) = some f := by
  cases hdir : frames (.dir pid) with
  | none =>
      rw [getPageDirEntry, h.pdbr, hdir] at hget
      cases hget
  | some pd =>
      rw [h.getPageDirEntry_eq hdir hva] at hget
      cases htable : frames (.table pid (va / 1024)) with
      | none => simp [htable, decode] at hget
      | some pt =>
          simp only [htable, decode, Except.ok.injEq, Prod.mk.injEq] at hget
          rw [hget.2.1]

/-- After any allocations, `translate` tells the page of every address. -/
theorem translate_correct (random : List ℕ) (calls : List (ℕ × ℕ))
    (hcalls : (calls.map Prod.fst).Nodup) :
    match procAllocs (OS.new random) calls with
    | .error e => e = .exhausted ∨ e = .undecided
    | .ok (results, os) =>
        List.Forall₂ Returns calls results ∧
        (∀ pid ∈ calls.map Prod.fst, ∀ va < 2 ^ 15,
          (∀ pp, Allocated results pid (va / 32) pp →
            translate os pid va = .ok (pp * 32 + va % 32 : ℕ)) ∧
          ((∀ vpn pp, Allocated results pid vpn pp → vpn / 32 ≠ va / 1024) ↔
            translate os pid va = .ok (-1)) ∧
          ((∃ vpn pp, Allocated results pid vpn pp ∧ vpn / 32 = va / 1024) →
            (∀ pp, ¬ Allocated results pid (va / 32) pp) → translate os pid va = .ok (-2))) ∧
        (∀ pid vpn pid' vpn' pp, Allocated results pid vpn pp →
          Allocated results pid' vpn' pp → pid = pid' ∧ vpn = vpn') ∧
        ∀ pid vpn pp, Allocated results pid vpn pp →
          (∀ pid', os.pdbr pid' ≠ some pp) ∧
          ∀ pid' va addr, va < 2 ^ 15 → getPageDirEntry os pid' va ≠ .ok (1, pp, addr) := by
  have hsafe := procAllocs_safe (inv_new random) (fun _ _ hi => absurd rfl hi)
    (fun _ _ => rfl) hcalls
  cases hrun : procAllocs (OS.new random) calls with
  | error e => exact hsafe.of_eq_error hrun
  | ok r =>
      obtain ⟨results, os⟩ := r
      obtain ⟨frames, h⟩ := hsafe.of_eq_ok hrun
      have hdata {pid vpn pp : ℕ} (hpage : Allocated results pid vpn pp) :
          frames (.data pid vpn) = some pp :=
        (h.allocated_iff pid (hpage.mem h.returns) vpn pp).mp hpage
      refine ⟨h.returns, fun pid hpid va hva => ?_, fun pid vpn pid' vpn' pp hpage hpage' => ?_,
        fun pid vpn pp hpage => ⟨fun pid' hdir => ?_, fun pid' va addr hva hget => ?_⟩⟩
      · simp only [h.allocated_iff pid hpid]
        exact h.inv.translate_cases h.hasPages (h.dir pid hpid) hva
      · have hrole := h.inv.injective _ _ _ (hdata hpage) (hdata hpage')
        simpa using hrole
      · rw [h.inv.pdbr] at hdir
        have := h.inv.injective _ _ _ (hdata hpage) hdir
        cases this
      · have := h.inv.injective _ _ _ (hdata hpage) (h.inv.table_of_getPageDirEntry hva hget)
        cases this

/-- Two processes with three pages. -/
theorem translate_correct_two :
    ∃ results os, procAllocs (OS.new (List.range 250)) [(1, 2), (3, 1)] = .ok (results, os) ∧
      results = [(1, [(1, 2), (36, 37)]), (3, [(72, 73)])] ∧
      translate os 1 (1 * 32 + 5) = .ok (2 * 32 + 5) ∧
      translate os 1 (35 * 32 + 3) = .ok (-2) ∧ translate os 3 (36 * 32 + 3) = .ok (-1) ∧
      ∀ pid, os.pdbr pid ≠ some 73 := by
  have hpages : (procAllocs (OS.new (List.range 250)) [(1, 2), (3, 1)]).toOption.map Prod.fst =
      some [(1, [(1, 2), (36, 37)]), (3, [(72, 73)])] := by decide +kernel
  have hcorrect := translate_correct (List.range 250) [(1, 2), (3, 1)] (by decide)
  cases hrun : procAllocs (OS.new (List.range 250)) [(1, 2), (3, 1)] with
  | error e =>
      rw [hrun] at hpages
      cases hpages
  | ok r =>
      obtain ⟨results, os⟩ := r
      simp only [hrun] at hcorrect
      rw [hrun] at hpages
      obtain ⟨-, htranslate, -, hframes⟩ := hcorrect
      have hresults : results = [(1, [(1, 2), (36, 37)]), (3, [(72, 73)])] :=
        Option.some.inj hpages
      have hfirst : Allocated results 1 1 2 := by simp [Allocated, hresults]
      have hsecond : Allocated results 1 36 37 := by simp [Allocated, hresults]
      have hthird : Allocated results 3 72 73 := by simp [Allocated, hresults]
      refine ⟨results, os, rfl, hresults, ?_, ?_, ?_, (hframes 3 72 73 hthird).1⟩
      · exact (htranslate 1 (by decide) (1 * 32 + 5) (by decide)).1 2 hfirst
      · refine (htranslate 1 (by decide) (35 * 32 + 3) (by decide)).2.2 ⟨36, 37, hsecond, rfl⟩ ?_
        simp [Allocated, hresults]
      · refine (htranslate 3 (by decide) (36 * 32 + 3) (by decide)).2.1.mp ?_
        simp [Allocated, hresults]

end OsLabs.Multilevel
