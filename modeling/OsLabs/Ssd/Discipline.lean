import Mathlib
import OsLabs.Ssd.DirectWrite
import OsLabs.Ssd.PageStore

/-!
# Flash discipline

Flash pages can only be programmed after an erase. Both the direct and the
log-structured device keep to this in every session, and on the log the page
states, the cursor and the used-block map agree with each other.
-/

namespace OsLabs.Ssd

variable {c : Config} {s s' : Device} {x x' : Session}

/-! ## The direct device -/

structure DirectInv (c : Config) (s : Device) : Prop where
  disciplined : Disciplined s
  identity : ∀ page l, s.reverseMap page = some l → page = l
  physical : ∀ page l, s.reverseMap page = some l →
    l < c.numLogicalPages ∧ l / c.pagesPerBlock < c.numBlocks

theorem DirectInv.init : DirectInv c Device.init where
  disciplined := by
    intro page before h
    cases h
  identity := by
    intro page l h
    cases h
  physical := by
    intro page l h
    cases h

theorem DirectInv.setForward (hinv : DirectInv c s) (f : ℕ → Option ℕ) :
    DirectInv c { s with forwardMap := f } :=
  ⟨hinv.disciplined, hinv.identity, hinv.physical⟩

theorem DirectInv.physicalErase (hinv : DirectInv c s) (b : ℕ) :
    DirectInv c (physicalErase c s b) :=
  ⟨hinv.disciplined, hinv.identity, hinv.physical⟩

theorem reverseMap_writeDirect {a : ℕ} {d r : String}
    (hwrite : writeDirect c s a d = some (s', r)) :
    s'.reverseMap = Function.update s.reverseMap a (some a) ∧
      a / c.pagesPerBlock < c.numBlocks := by
  rw [writeDirect_eq] at hwrite
  split at hwrite
  · rename_i hblock
    obtain ⟨rfl, -⟩ := Prod.mk.inj (Option.some_inj.mp hwrite)
    have hcarry : (carryOver c s a).reverseMap = s.reverseMap := (carryOver_frame a).2.1
    refine ⟨?_, hblock⟩
    rw [← hcarry]
    rfl
  · cases hwrite

theorem DirectInv.write (hmode : c.ssdType = .direct) (hinv : DirectInv c s) {address : ℤ}
    {d r : String} (hwrite : write c s address d = some (s', r)) : DirectInv c s' := by
  unfold Ssd.write at hwrite
  split at hwrite
  · obtain ⟨rfl, -⟩ := Prod.mk.inj (Option.some_inj.mp hwrite)
    exact hinv
  · rename_i hrange
    rw [hmode] at hwrite
    have hl : address.toNat < c.numLogicalPages := by omega
    obtain ⟨hreverse, hblock⟩ := reverseMap_writeDirect hwrite
    refine ⟨hinv.disciplined.writeDirect hwrite, fun page l hpage => ?_, fun page l hpage => ?_⟩
    · rw [hreverse] at hpage
      by_cases ha : page = address.toNat
      · rw [ha, Function.update_self, Option.some_inj] at hpage
        rw [ha, hpage]
      · rw [Function.update_of_ne ha] at hpage
        exact hinv.identity page l hpage
    · rw [hreverse] at hpage
      by_cases ha : page = address.toNat
      · rw [ha, Function.update_self, Option.some_inj] at hpage
        exact hpage ▸ ⟨hl, hblock⟩
      · rw [Function.update_of_ne ha] at hpage
        exact hinv.physical page l hpage

/-- A direct write stops only at a page the device does not have. -/
theorem write_direct_none (hmode : c.ssdType = .direct) {address : ℤ} {d : String}
    (hwrite : write c s address d = none) :
    0 ≤ address ∧ address < c.numLogicalPages ∧
      ¬address.toNat / c.pagesPerBlock < c.numBlocks := by
  unfold write at hwrite
  split at hwrite
  · cases hwrite
  · rename_i hrange
    rw [hmode] at hwrite
    refine ⟨by omega, by omega, fun hblock => ?_⟩
    simp [writeDirect_eq, hblock] at hwrite

theorem DirectInv.copyLive (hmode : c.ssdType = .direct) (hinv : DirectInv c s)
    (pages : List ℕ) : ∃ s', copyLive c s pages = some s' ∧ DirectInv c s' := by
  induction pages generalizing s with
  | nil => exact ⟨s, rfl, hinv⟩
  | cons page rest ih =>
      cases hwrite : Ssd.write c s (liveAddress s page) (physicalRead s page) with
      | none =>
          obtain ⟨hpos, -, hblock⟩ := write_direct_none hmode hwrite
          cases hreverse : s.reverseMap page with
          | none => simp [liveAddress, hreverse] at hpos
          | some l =>
              have haddr : (liveAddress s page).toNat = l := by simp [liveAddress, hreverse]
              exact (hblock (haddr ▸ (hinv.physical page l hreverse).2)).elim
      | some r =>
          obtain ⟨s', hcopy, hinv'⟩ := ih (hinv.write hmode hwrite)
          exact ⟨s', by simp [copyLive_cons, hwrite, hcopy], hinv'⟩

theorem DirectInv.collectBlocks (hmode : c.ssdType = .direct) (hinv : DirectInv c s)
    (blocks : List ℕ) : ∃ s', collectBlocks c s blocks = some s' ∧ DirectInv c s' := by
  induction blocks generalizing s with
  | nil => exact ⟨s, rfl, hinv⟩
  | cons b rest ih =>
      by_cases hpass : passesOver c s b
      · obtain ⟨s', hcollect, h⟩ := ih hinv
        exact ⟨s', by simp [Ssd.collectBlocks, hpass, hcollect], h⟩
      · obtain ⟨t, hcopy, ht⟩ := hinv.copyLive hmode (livePages c s b)
        by_cases hlow : (blocksInUse c (Ssd.physicalErase c t b) : ℤ) ≤ c.lowWaterMark
        · refine ⟨{ Ssd.physicalErase c t b with gcCurrentBlock := b },
            by simp [Ssd.collectBlocks, hpass, hcopy, hlow], ?_⟩
          exact ⟨ht.disciplined, ht.identity, ht.physical⟩
        · obtain ⟨s', hcollect, h⟩ := ih (ht.physicalErase b)
          exact ⟨s', by simp [Ssd.collectBlocks, hpass, hcopy, hlow, hcollect], h⟩

theorem DirectInv.upkeep (hmode : c.ssdType = .direct) (hinv : DirectInv c s) :
    ∃ s', upkeep c s = some s' ∧ DirectInv c s' := by
  unfold Ssd.upkeep garbageCollect
  split
  · exact hinv.collectBlocks hmode _
  · exact ⟨s, rfl, hinv⟩

theorem DirectInv.step (hmode : c.ssdType = .direct) (hinv : DirectInv c x.device) {call : Call}
    (hstep : sessionStep c x call = some x') : DirectInv c x'.device := by
  cases call with
  | command cmd =>
      obtain ⟨r, hexec, -⟩ := sessionStep_command hstep
      cases cmd with
      | read address =>
          obtain ⟨h, -⟩ := Prod.mk.inj (Option.some_inj.mp hexec)
          exact h ▸ hinv
      | write address d => exact hinv.write hmode hexec
      | trim address =>
          obtain ⟨h, -⟩ : (trim c x.device address).1 = x'.device ∧ _ :=
            Prod.mk.inj (Option.some_inj.mp hexec)
          rw [← h]
          rcases trim_fst_eq (c := c) (s := x.device) address with ⟨h, -⟩ | ⟨h, -⟩
          · rw [h]
            exact hinv
          · rw [h]
            exact hinv.setForward _
  | upkeep =>
      obtain ⟨hupkeep, -⟩ := sessionStep_upkeep hstep
      obtain ⟨s', hupkeep', h⟩ := hinv.upkeep hmode
      obtain rfl := Option.some_inj.mp (hupkeep.symm.trans hupkeep')
      exact h

/-! ## The log-structured device -/

theorem LogInv.step (hmode : c.ssdType = .logging) (hinv : LogInv c x.device) {call : Call}
    (hstep : sessionStep c x call = some x') : LogInv c x'.device := by
  cases call with
  | command cmd =>
      obtain ⟨r, hexec, -⟩ := sessionStep_command hstep
      obtain ⟨s', r', hexec', hinv', -⟩ := exec_logInv hmode hinv cmd
      obtain ⟨rfl, -⟩ := Prod.mk.inj (Option.some_inj.mp (hexec.symm.trans hexec'))
      exact hinv'
  | upkeep =>
      obtain ⟨hupkeep, -⟩ := sessionStep_upkeep hstep
      obtain ⟨s', hupkeep', hcollect⟩ := upkeep_spec hmode hinv
      obtain rfl := Option.some_inj.mp (hupkeep.symm.trans hupkeep')
      exact hcollect.inv

theorem LogInv.step_isSome (hmode : c.ssdType = .logging) (hinv : LogInv c x.device)
    (call : Call) : (sessionStep c x call).isSome := by
  cases call with
  | command cmd =>
      obtain ⟨s', r, hexec, -⟩ := exec_logInv hmode hinv cmd
      simp [sessionStep, hexec]
  | upkeep =>
      obtain ⟨s', hupkeep, -⟩ := upkeep_spec hmode hinv
      simp [sessionStep, hupkeep]

theorem LogInv.filled (hinv : LogInv c s) {b : ℕ} (hb : b < c.numBlocks) :
    ∃ k ≤ c.pagesPerBlock, ∀ i < c.pagesPerBlock,
      (s.state (b * c.pagesPerBlock + i) = .valid ↔ i < k) := by
  have hfill : ∀ k, Filled c s b k → ∀ i < c.pagesPerBlock,
      (s.state (b * c.pagesPerBlock + i) = .valid ↔ i < k) := by
    intro k hk i hi
    rw [hk i hi]
    by_cases hik : i < k <;> simp [hik]
  rcases hinv.blocks b hb with (hraw | hfree | hfull) | ⟨hcurrent, hcursor⟩
  · refine ⟨0, Nat.zero_le _, fun i hi => ?_⟩
    simp [(hraw i hi).1]
  · exact ⟨0, Nat.zero_le _, hfill 0 hfree⟩
  · exact ⟨c.pagesPerBlock, le_rfl, hfill _ hfull⟩
  · obtain ⟨page, hpage⟩ := Option.ne_none_iff_exists'.mp hcursor
    obtain ⟨-, k, -, hk, -, hpart⟩ := hinv.cursor page hpage
    exact ⟨k, hk.le, hfill k (hcurrent ▸ hpart)⟩

theorem LogInv.cursor_first (hinv : LogInv c s) {page : ℕ} (hpage : s.currentPage = some page) :
    s.state page = .erased ∧ page ∈ pagesOf c s.currentBlock ∧ s.currentBlock < c.numBlocks ∧
      ∀ q ∈ pagesOf c s.currentBlock, q < page → s.state q ≠ .erased := by
  obtain ⟨hcurrent, k, -, hk, heq, hfill⟩ := hinv.cursor page hpage
  refine ⟨?_, mem_pagesOf.mpr ⟨k, hk, heq⟩, hcurrent, fun q hq hlt => ?_⟩
  · rw [heq, hfill k hk, if_neg (lt_irrefl k)]
  · obtain ⟨i, hi, rfl⟩ := mem_pagesOf.mp hq
    rw [hfill i hi, if_pos (by omega)]
    simp

theorem LogInv.written_iff (hinv : LogInv c s) {b : ℕ} (hb : b < c.numBlocks) :
    (∃ page ∈ pagesOf c b, s.state page = .valid) ↔ s.state (b * c.pagesPerBlock) = .valid := by
  obtain ⟨k, -, hk⟩ := hinv.filled hb
  constructor
  · rintro ⟨page, hpage, hvalid⟩
    obtain ⟨i, hi, rfl⟩ := mem_pagesOf.mp hpage
    have := (hk i hi).mp hvalid
    exact (hk 0 c.pagesPerBlock_pos).mpr (by omega)
  · intro hvalid
    exact ⟨_, mem_pagesOf.mpr ⟨0, c.pagesPerBlock_pos, rfl⟩, hvalid⟩

theorem LogInv.blocksInUse_eq (hinv : LogInv c s) :
    blocksInUse c s = ((Finset.range c.numBlocks).filter fun b =>
      ∃ page ∈ pagesOf c b, s.state page = .valid).card := by
  have hsum : blocksInUse c s = ∑ b ∈ Finset.range c.numBlocks, s.gcUsedBlocks b  := rfl
  rw [hsum, Finset.card_filter]
  refine Finset.sum_congr rfl fun b hb => ?_
  rw [Finset.mem_range] at hb
  rw [hinv.used b hb]
  simp only [hinv.written_iff hb]

/-! ## Sessions -/

/-- In every session of a direct or log-structured device each programmed page
was erased. A direct device stops only at a write beyond its last page. On a
log-structured device every call returns, the valid pages of a block come
first, the cursor is on the first erased page of the current block, and the
used-block map marks the written blocks. -/
theorem flash_discipline
    (hreach : Transition.Reach (sessionStep c) Transition.anyStep Session.init x) :
    (c.ssdType = .direct → Disciplined x.device ∧
      ∀ call, sessionStep c x call = none →
        ∃ address d, call = .command (.write address d) ∧ (c.numPages : ℤ) ≤ address) ∧
    (c.ssdType = .logging → Disciplined x.device ∧
      (∀ call, (sessionStep c x call).isSome) ∧
      (∀ b < c.numBlocks, ∃ k ≤ c.pagesPerBlock, ∀ i < c.pagesPerBlock,
        (x.device.state (b * c.pagesPerBlock + i) = .valid ↔ i < k)) ∧
      (∀ page, x.device.currentPage = some page →
        x.device.state page = .erased ∧ page ∈ pagesOf c x.device.currentBlock ∧
          x.device.currentBlock < c.numBlocks ∧
          ∀ q ∈ pagesOf c x.device.currentBlock, q < page → x.device.state q ≠ .erased) ∧
      (∀ b < c.numBlocks,
        (x.device.gcUsedBlocks b = 1 ↔ x.device.state (b * c.pagesPerBlock) = .valid)) ∧
      blocksInUse c x.device = ((Finset.range c.numBlocks).filter fun b =>
        ∃ page ∈ pagesOf c b, x.device.state page = .valid).card) := by
  constructor
  · intro hmode
    have hinv : DirectInv c x.device :=
      hreach.invariant (I := fun x => DirectInv c x.device) DirectInv.init
        fun _ _ _ h _ hstep => h.step hmode hstep
    refine ⟨hinv.disciplined, fun call hnone => ?_⟩
    cases call with
    | command cmd =>
        cases cmd with
        | read address => cases hnone
        | trim address => cases hnone
        | write address d =>
            obtain ⟨hpos, -, hblock⟩ :=
              write_direct_none hmode (Option.map_eq_none_iff.mp hnone)
            rw [Nat.div_lt_iff_lt_mul c.pagesPerBlock_pos] at hblock
            refine ⟨address, d, rfl, ?_⟩
            unfold Config.numPages
            omega
    | upkeep =>
        obtain ⟨s', hupkeep, -⟩ := hinv.upkeep hmode
        simp [sessionStep, hupkeep] at hnone
  · intro hmode
    have hinv : LogInv c x.device :=
      hreach.invariant (I := fun x => LogInv c x.device) init_logInv
        fun _ _ _ h _ hstep => h.step hmode hstep
    refine ⟨hinv.disciplined, hinv.step_isSome hmode, fun b hb => hinv.filled hb,
      fun page hpage => hinv.cursor_first hpage, fun b hb => ?_, hinv.blocksInUse_eq⟩
    rw [hinv.used b hb]
    split <;> simp [*]

theorem flash_discipline_overwriteEarly :
    ∃ x, Transition.run (sessionStep smallLog) Session.init overwriteEarly = some x ∧
      Disciplined x.device ∧ ∀ call, (sessionStep smallLog x call).isSome := by
  refine ⟨_, rfl, ?_⟩
  have h := (flash_discipline (c := smallLog)
    (Transition.reach_of_run_anyStep overwriteEarly rfl)).2 rfl
  exact ⟨h.1, h.2.1⟩

end OsLabs.Ssd
