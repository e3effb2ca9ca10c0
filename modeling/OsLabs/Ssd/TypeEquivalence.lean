import Mathlib
import OsLabs.Ssd.DirectWrite
import OsLabs.Ssd.PageStore

/-!
# The three device types answer alike

Each type implements the same abstract store. The direct and the ideal device
do so as long as the collector never touches them, which holds when the high
water mark is positive; the log-structured device does so until its log is
full.
-/

namespace OsLabs.Ssd

/-! ## The abstract store as a device -/

def Store.exec (n : ℕ) (m : Store) : Cmd → Store × String
  | .read address => (m, Store.read n m address)
  | .write address d =>
      if address < 0 ∨ n ≤ address then (m, "fail: illegal write address")
      else (Function.update m address.toNat (some d), "success")
  | .trim address =>
      if address < 0 ∨ n ≤ address then (m, "fail: illegal trim address")
      else if m address.toNat = none then (m, "fail: uninitialized trim")
      else (Function.update m address.toNat none, "success")

def Store.runCmds (n : ℕ) (m : Store) : List Cmd → List String
  | [] => []
  | cmd :: rest => (Store.exec n m cmd).2 :: Store.runCmds n (Store.exec n m cmd).1 rest

variable {c : Config} {s s' : Device} {m : Store}

/-- A device that implements every command and ignores upkeep answers like the store. -/
theorem runCmds_of_simulation {R : Device → Store → Prop}
    (hexec : ∀ s m cmd, R s m → ∃ s', exec c s cmd =
      some (s', (Store.exec c.numLogicalPages m cmd).2) ∧
        R s' (Store.exec c.numLogicalPages m cmd).1)
    (hupkeep : ∀ s m, R s m → ∃ s', upkeep c s = some s' ∧ R s' m) (h : R s m)
    (cmds : List Cmd) :
    ∃ s', runCmds c s cmds = some (s', Store.runCmds c.numLogicalPages m cmds) := by
  induction cmds generalizing s m with
  | nil => exact ⟨s, rfl⟩
  | cons cmd rest ih =>
      obtain ⟨t, hexec', ht⟩ := hexec s m cmd h
      obtain ⟨u, hupkeep', hu⟩ := hupkeep t _ ht
      obtain ⟨s', hrun⟩ := ih hu
      exact ⟨s', by simp [runCmds, Store.runCmds, hexec', hupkeep', hrun]⟩

theorem trim_eq_store (hcontent : content s = m) (address : ℤ) :
    (trim c s address).2 = (Store.exec c.numLogicalPages m (.trim address)).2 ∧
      content (trim c s address).1 = (Store.exec c.numLogicalPages m (.trim address)).1 ∧
      ∃ f, (trim c s address).1 = { s with forwardMap := f } ∧
        ∀ l page, f l = some page → s.forwardMap l = some page := by
  have hnone : m address.toNat = none ↔ s.forwardMap address.toNat = none := by
    rw [← hcontent, content, Option.map_eq_none_iff]
  by_cases hrange : address < 0 ∨ (c.numLogicalPages : ℤ) ≤ address
  · simp only [trim, Store.exec, if_pos hrange]
    exact ⟨trivial, hcontent, s.forwardMap, rfl, fun _ _ h => h⟩
  · by_cases hmapped : s.forwardMap address.toNat = none
    · simp only [trim, Store.exec, if_neg hrange, if_pos hmapped, if_pos (hnone.mpr hmapped)]
      exact ⟨trivial, hcontent, s.forwardMap, rfl, fun _ _ h => h⟩
    · simp only [trim, Store.exec, if_neg hrange, if_neg hmapped,
        if_neg (fun h => hmapped (hnone.mp h))]
      refine ⟨trivial, by rw [content_trim, hcontent], _, rfl, fun l page h => ?_⟩
      by_cases hl : l = address.toNat
      · simp [hl] at h
      · rwa [Function.update_of_ne hl] at h

/-! ## Devices without a log -/

/-- A direct or ideal device on which the collector has never run: each mapped
page holds its own logical page. -/
structure InPlace (s : Device) (m : Store) : Prop where
  content_eq : content s = m
  mapped : ∀ l page, s.forwardMap l = some page → page = l ∧ s.state page = .valid
  unused : ∀ b, s.gcUsedBlocks b = 0
  current : s.currentBlock = 0
  collector : s.gcCurrentBlock = 0

theorem InPlace.init : InPlace Device.init fun _ => none where
  content_eq := rfl
  mapped := by
    intro l page h
    cases h
  unused := fun _ => rfl
  current := rfl
  collector := rfl

theorem InPlace.store (h : InPlace s m) {t : Device} {a : ℕ} (d : String)
    (hforward : t.forwardMap = s.forwardMap) (hused : ∀ b, t.gcUsedBlocks b = 0)
    (hcurrent : t.currentBlock = 0) (hcollector : t.gcCurrentBlock = 0)
    (hkeep : ∀ q, q ≠ a → s.state q = .valid → t.state q = .valid ∧ t.data q = s.data q) :
    InPlace ((physicalProgram t a d).setMaps a a) (Function.update m a (some d)) := by
  have hmaps : ((physicalProgram t a d).setMaps a a).forwardMap =
      Function.update s.forwardMap a (some a) := by
    rw [← hforward]
    rfl
  have hstate : ((physicalProgram t a d).setMaps a a).state = Function.update t.state a .valid :=
    rfl
  have hdata : ((physicalProgram t a d).setMaps a a).data = Function.update t.data a d := rfl
  refine ⟨?_, fun l page hpage => ?_, hused, hcurrent, hcollector⟩
  · funext l
    unfold content
    rw [hmaps, hdata]
    by_cases hl : l = a
    · subst hl
      simp
    · rw [Function.update_of_ne hl, Function.update_of_ne hl, ← h.content_eq, content]
      cases hpage : s.forwardMap l with
      | none => rfl
      | some page =>
          obtain ⟨rfl, hvalid⟩ := h.mapped l page hpage
          simp [Function.update_of_ne hl, (hkeep page hl hvalid).2]
  · rw [hmaps] at hpage
    by_cases hl : l = a
    · subst hl
      rw [Function.update_self, Option.some_inj] at hpage
      exact ⟨hpage.symm, by rw [hstate, ← hpage, Function.update_self]⟩
    · rw [Function.update_of_ne hl] at hpage
      obtain ⟨rfl, hvalid⟩ := h.mapped l page hpage
      exact ⟨rfl, by rw [hstate, Function.update_of_ne hl]; exact (hkeep page hl hvalid).1⟩

theorem InPlace.writeDirect (h : InPlace s m) {a : ℕ} (ha : a < c.numPages) (d : String) :
    ∃ s', writeDirect c s a d = some (s', "success") ∧
      InPlace s' (Function.update m a (some d)) := by
  obtain ⟨hforward, -, hused, hcurrent, hcollector⟩ := carryOver_frame (c := c) (s := s) a
  refine ⟨_, by rw [writeDirect_eq, if_pos (blockOf_lt ha)], h.store d hforward (fun b => ?_)
    (hcurrent.trans h.current) (hcollector.trans h.collector) fun q hq hvalid =>
      carryOver_valid hq hvalid⟩
  rw [hused]
  by_cases hb : b = a / c.pagesPerBlock
  · simp [hb]
  · rw [Function.update_of_ne hb, h.unused b]

theorem InPlace.writeIdeal (h : InPlace s m) {a : ℕ} (ha : a < c.numPages) (d : String) :
    ∃ s', writeIdeal c s a d = some (s', "success") ∧
      InPlace s' (Function.update m a (some d)) :=
  ⟨_, by rw [Ssd.writeIdeal, if_pos ha], h.store d rfl h.unused h.current h.collector
    fun _ _ hvalid => ⟨hvalid, rfl⟩⟩

theorem InPlace.trim (h : InPlace s m) (address : ℤ) :
    InPlace (trim c s address).1 (Store.exec c.numLogicalPages m (.trim address)).1 := by
  obtain ⟨-, hcontent, f, heq, hsub⟩ := trim_eq_store (c := c) h.content_eq address
  rw [heq] at hcontent ⊢
  exact ⟨hcontent, fun l page hpage => h.mapped l page (hsub l page hpage), h.unused,
    h.current, h.collector⟩

theorem InPlace.exec (hgeom : c.numLogicalPages ≤ c.numPages) (hmode : c.ssdType ≠ .logging)
    (h : InPlace s m) (cmd : Cmd) :
    ∃ s', exec c s cmd = some (s', (Store.exec c.numLogicalPages m cmd).2) ∧
      InPlace s' (Store.exec c.numLogicalPages m cmd).1 := by
  cases cmd with
  | read address =>
      refine ⟨s, ?_, h⟩
      simp [Ssd.exec, Store.exec, read_eq_store_read, h.content_eq]
  | write address d =>
      by_cases hrange : address < 0 ∨ (c.numLogicalPages : ℤ) ≤ address
      · exact ⟨s, by simp [Ssd.exec, write, Store.exec, hrange], by simpa [Store.exec, hrange]⟩
      · have ha : address.toNat < c.numPages := by omega
        simp only [Ssd.exec, write, Store.exec, if_neg hrange]
        cases hty : c.ssdType with
        | direct => exact h.writeDirect ha d
        | ideal => exact h.writeIdeal ha d
        | logging => exact (hmode hty).elim
  | trim address =>
      refine ⟨(Ssd.trim c s address).1, ?_, h.trim address⟩
      rw [← (trim_eq_store (c := c) h.content_eq address).1]
      rfl

/-- With a positive high water mark, or a single block, the collector leaves
an in-place device alone. -/
theorem InPlace.upkeep (hwater : 1 ≤ c.highWaterMark ∨ c.numBlocks ≤ 1) (h : InPlace s m) :
    upkeep c s = some s := by
  have hzero : blocksInUse c s = 0 := by
    unfold blocksInUse
    rw [List.sum_eq_zero_iff]
    intro n hn
    obtain ⟨b, -, rfl⟩ := List.mem_map.mp hn
    exact h.unused b
  unfold Ssd.upkeep garbageCollect
  rw [hzero]
  split
  · rename_i hdue
    have hone : c.numBlocks ≤ 1 := by
      rcases hwater with hwater | hwater
      · exact absurd hdue (by push_cast; omega)
      · exact hwater
    have hblocks : ∀ b ∈ blocksFrom c s.gcCurrentBlock, b = s.currentBlock := by
      intro b hb
      have := lt_of_mem_blocksFrom (Or.inr h.collector) hb
      rw [h.current]
      omega
    generalize blocksFrom c s.gcCurrentBlock = blocks at hblocks
    induction blocks with
    | nil => rfl
    | cons b rest ih =>
        have hpass : passesOver c s b := Or.inl (hblocks b (by simp))
        rw [collectBlocks, if_pos hpass]
        exact ih fun b' hb' => hblocks b' (by simp [hb'])
  · rfl

/-! ## The log-structured device -/

theorem fullCount_runCmds (hmode : c.ssdType = .logging) (hinv : LogInv c s) (cmds : List Cmd) :
    ∃ s' rs, runCmds c s cmds = some (s', rs) ∧ fullCount s ≤ fullCount s' := by
  induction cmds generalizing s with
  | nil => exact ⟨s, [], rfl, le_rfl⟩
  | cons cmd rest ih =>
      obtain ⟨t, r, hexec, ht, hle⟩ := exec_logInv hmode hinv cmd
      obtain ⟨u, hupkeep, hcollect⟩ := upkeep_spec hmode ht
      obtain ⟨s', rs, hrun, hle'⟩ := ih hcollect.inv
      exact ⟨s', r :: rs, by simp [runCmds, hexec, hupkeep, hrun],
        hle.trans (hcollect.full_le.trans hle')⟩

theorem exec_log_eq_store (hmode : c.ssdType = .logging) (hinv : LogInv c s) {cmd : Cmd}
    {r : String} (hexec : exec c s cmd = some (s', r)) (hfull : fullCount s' = fullCount s)
    (hmap : MapInv c s) :
    r = (Store.exec c.numLogicalPages (content s) cmd).2 ∧
      content s' = (Store.exec c.numLogicalPages (content s) cmd).1 := by
  obtain ⟨-, hcontent⟩ := exec_content hmode hinv hmap hexec
  cases cmd with
  | read address =>
      obtain ⟨-, rfl⟩ := Prod.mk.inj (Option.some_inj.mp hexec)
      exact ⟨read_eq_store_read address, hcontent⟩
  | write address d =>
      obtain ⟨t, r', hwrite, -, hcase⟩ := write_logging hmode hinv address d
      obtain ⟨rfl, rfl⟩ := Prod.mk.inj (Option.some_inj.mp (hwrite.symm.trans hexec))
      cases hcase with
      | illegal out same =>
          rw [hcontent]
          simp [Store.exec, Store.record, out]
      | full _ _ same =>
          simp [same, fullCount] at hfull
      | appended inRange page _ =>
          rw [hcontent]
          simp only [Store.exec, if_neg inRange]
          exact ⟨trivial, rfl⟩
  | trim address =>
      have hexec : (trim c s address).1 = s' ∧ (trim c s address).2 = r :=
        Prod.mk.inj (Option.some_inj.mp hexec)
      obtain ⟨rfl, rfl⟩ := hexec
      obtain ⟨hr, hcontent', -⟩ := trim_eq_store (c := c) (s := s) rfl address
      exact ⟨hr, hcontent'⟩

theorem runCmds_log (hmode : c.ssdType = .logging) (hinv : LogInv c s) (hmap : MapInv c s)
    {cmds : List Cmd} {rs : List String} (hrun : runCmds c s cmds = some (s', rs))
    (hfull : fullCount s' = fullCount s) :
    rs = Store.runCmds c.numLogicalPages (content s) cmds := by
  induction cmds generalizing s rs with
  | nil =>
      obtain ⟨-, rfl⟩ := Prod.mk.inj (Option.some_inj.mp hrun)
      rfl
  | cons cmd rest ih =>
      obtain ⟨t, r, hexec, ht, hle⟩ := exec_logInv hmode hinv cmd
      obtain ⟨u, hupkeep, hcollect⟩ := upkeep_spec hmode ht
      obtain ⟨s'', rs', hrest, hle'⟩ := fullCount_runCmds hmode hcollect.inv rest
      have hle'' := hcollect.full_le
      simp only [runCmds, hexec, hupkeep, hrest, Option.bind_some, Option.map_some] at hrun
      obtain ⟨rfl, rfl⟩ := Prod.mk.inj (Option.some_inj.mp hrun)
      obtain ⟨hmapt, -⟩ := exec_content hmode hinv hmap hexec
      obtain ⟨hr, hcontent⟩ := exec_log_eq_store hmode hinv hexec (by omega) hmap
      obtain ⟨hmapu, hcontentu⟩ := hcollect.keeps hmapt (by omega)
      rw [Store.runCmds, hr, ih hcollect.inv hmapu hrest (by omega), hcontentu, hcontent]

/-! ## The three types -/

def Config.withType (c : Config) (ssdType : SsdType) : Config := { c with ssdType := ssdType }

/-- On the same geometry, with a positive high water mark or a single block,
the direct and the ideal device return the same results for all commands, and
the log-structured device returns them too unless its log was full. -/
theorem types_agree (hgeom : c.numLogicalPages ≤ c.numPages)
    (hwater : 1 ≤ c.highWaterMark ∨ c.numBlocks ≤ 1) (cmds : List Cmd) :
    ∃ direct ideal log results logResults,
      runCmds (c.withType .direct) Device.init cmds = some (direct, results) ∧
      runCmds (c.withType .ideal) Device.init cmds = some (ideal, results) ∧
      runCmds (c.withType .logging) Device.init cmds = some (log, logResults) ∧
      (Event.deviceFull ∉ log.history → logResults = results) := by
  have hinPlace : ∀ ty, ty ≠ SsdType.logging →
      ∃ s', runCmds (c.withType ty) Device.init cmds =
        some (s', Store.runCmds c.numLogicalPages (fun _ => none) cmds) := by
    intro ty hty
    exact runCmds_of_simulation (c := c.withType ty) (R := InPlace)
      (fun s m cmd h => InPlace.exec (c := c.withType ty) hgeom hty h cmd)
      (fun s m h => ⟨s, h.upkeep hwater, h⟩) InPlace.init cmds
  obtain ⟨direct, hdirect⟩ := hinPlace .direct (by decide)
  obtain ⟨ideal, hideal⟩ := hinPlace .ideal (by decide)
  obtain ⟨log, logResults, hlog, -⟩ :=
    fullCount_runCmds (c := c.withType .logging) rfl init_logInv cmds
  refine ⟨direct, ideal, log, _, logResults, hdirect, hideal, hlog, fun hfull => ?_⟩
  have hcount : fullCount log = fullCount Device.init := List.count_eq_zero.mpr hfull
  exact runCmds_log rfl init_logInv (Faithful.init (c := c.withType .logging)).map hlog hcount

def alwaysCollect : Config where
  ssdType := .direct
  numLogicalPages := 4
  numBlocks := 2
  pagesPerBlock := 2
  highWaterMark := 0
  lowWaterMark := 0
  pagesPerBlock_pos := Nat.zero_lt_two

def collectFromOne : Config := { alwaysCollect with highWaterMark := 1 }

theorem types_agree_collectFromOne :
    ∃ direct ideal log results logResults,
      runCmds (collectFromOne.withType .direct) Device.init [.write 3 "a", .read 3] =
        some (direct, results) ∧
      runCmds (collectFromOne.withType .ideal) Device.init [.write 3 "a", .read 3] =
        some (ideal, results) ∧
      runCmds (collectFromOne.withType .logging) Device.init [.write 3 "a", .read 3] =
        some (log, logResults) ∧
      (Event.deviceFull ∉ log.history → logResults = results) :=
  types_agree (by decide) (Or.inl (by decide)) [.write 3 "a", .read 3]

/-- With a high water mark of 0 the collector runs on every device type: it
erases the block just written by an ideal device, and passes over the same
block of a direct device, whose first page is erased. -/
theorem ideal_read_differs :
    (runCmds (alwaysCollect.withType .direct) Device.init [.write 3 "a", .read 3]).map (·.2) =
        some ["success", "a"] ∧
      (runCmds (alwaysCollect.withType .ideal) Device.init [.write 3 "a", .read 3]).map (·.2) =
        some ["success", " "] := by
  decide +kernel

end OsLabs.Ssd
