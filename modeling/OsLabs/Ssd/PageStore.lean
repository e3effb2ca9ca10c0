import Mathlib
import OsLabs.Ssd.Collector

/-!
# A log-structured device as a page store

What an SSD is for: a partial map from logical pages to data. A session on a
device records each command with its answer; replaying the answers `success`
gives the map a reader may expect. Garbage collection is invisible to readers
in every session in which the collector finds room for the first block it
cleans. Without room it erases pages it could not copy.
-/

namespace OsLabs.Ssd

/-- The abstract store: the data last written to each logical page. -/
abbrev Store := ℕ → Option String

def Store.read (n : ℕ) (m : Store) (address : ℤ) : String :=
  if address < 0 ∨ n ≤ address then "fail: illegal read address"
  else (m address.toNat).getD "fail: uninitialized read"

/-- The effect of a command, given the answer the device returned. -/
def Store.record (m : Store) : Cmd × String → Store
  | (.read _, _) => m
  | (.write address d, r) =>
      if r = "success" then Function.update m address.toNat (some d) else m
  | (.trim address, r) => if r = "success" then Function.update m address.toNat none else m

def replay (log : List (Cmd × String)) : Store := log.foldl Store.record fun _ => none

structure Session where
  device : Device
  log : List (Cmd × String)

def Session.init : Session := ⟨Device.init, []⟩

/-- One call: a command, or `upkeep`. The main loop alternates the two. -/
inductive Call
  | command (cmd : Cmd)
  | upkeep
deriving DecidableEq, Repr

def sessionStep (c : Config) (x : Session) : Call → Option Session
  | .command cmd => (exec c x.device cmd).map fun r => ⟨r.1, x.log ++ [(cmd, r.2)]⟩
  | .upkeep => (upkeep c x.device).map fun s => { x with device := s }

variable {c : Config} {s s' : Device} {x x' : Session}

theorem sessionStep_command {cmd : Cmd} (h : sessionStep c x (.command cmd) = some x') :
    ∃ r, exec c x.device cmd = some (x'.device, r) ∧ x'.log = x.log ++ [(cmd, r)] := by
  obtain ⟨⟨s, r⟩, hexec, rfl⟩ := Option.map_eq_some_iff.mp h
  exact ⟨r, hexec, rfl⟩

theorem sessionStep_upkeep (h : sessionStep c x .upkeep = some x') :
    upkeep c x.device = some x'.device ∧ x'.log = x.log := by
  obtain ⟨s, hupkeep, rfl⟩ := Option.map_eq_some_iff.mp h
  exact ⟨hupkeep, rfl⟩

@[simp] theorem replay_nil : replay [] = fun _ => none := rfl

@[simp] theorem replay_append (log : List (Cmd × String)) (e : Cmd × String) :
    replay (log ++ [e]) = (replay log).record e := by
  simp [replay]

theorem read_eq_store_read (address : ℤ) :
    read c s address = Store.read c.numLogicalPages (content s) address := by
  unfold read Store.read content
  split
  · rfl
  · cases s.forwardMap address.toNat <;> rfl

/-! ## Commands on the log -/

theorem trim_fst_eq (address : ℤ) :
    (trim c s address).1 = s ∧ (trim c s address).2 ≠ "success" ∨
      (trim c s address).1 =
          { s with forwardMap := Function.update s.forwardMap address.toNat none } ∧
        (trim c s address).2 = "success" := by
  unfold trim
  split
  · exact Or.inl ⟨rfl, by simp⟩
  · split
    · exact Or.inl ⟨rfl, by simp⟩
    · exact Or.inr ⟨rfl, rfl⟩

theorem LogInv.setForward (hinv : LogInv c s) (f : ℕ → Option ℕ) :
    LogInv c { s with forwardMap := f } where
  blocks := hinv.blocks
  cursor := hinv.cursor
  used := hinv.used
  logical := hinv.logical
  current := hinv.current
  collector := hinv.collector
  disciplined := hinv.disciplined

theorem MapInv.trim (hmap : MapInv c s) (l : ℕ) :
    MapInv c { s with forwardMap := Function.update s.forwardMap l none } := by
  intro l' page hpage
  have hpage : Function.update s.forwardMap l none l' = some page := hpage
  by_cases hl : l' = l
  · subst hl
    simp at hpage
  · rw [Function.update_of_ne hl] at hpage
    exact hmap l' page hpage

theorem content_trim (l : ℕ) :
    content { s with forwardMap := Function.update s.forwardMap l none } =
      Function.update (content s) l none := by
  funext l'
  by_cases hl : l' = l
  · subst hl
    simp [content]
  · simp [content, Function.update_of_ne hl]

theorem exec_logInv (hmode : c.ssdType = .logging) (hinv : LogInv c s) (cmd : Cmd) :
    ∃ s' r, exec c s cmd = some (s', r) ∧ LogInv c s' ∧ fullCount s ≤ fullCount s' := by
  cases cmd with
  | read address => exact ⟨s, _, rfl, hinv, le_rfl⟩
  | write address d =>
      obtain ⟨s', r, hwrite, hinv', hcase⟩ := write_logging hmode hinv address d
      exact ⟨s', r, hwrite, hinv', hcase.fullCount_le⟩
  | trim address =>
      refine ⟨(trim c s address).1, (trim c s address).2, rfl, ?_⟩
      rcases trim_fst_eq (c := c) (s := s) address with ⟨h, -⟩ | ⟨h, -⟩
      · rw [h]
        exact ⟨hinv, le_rfl⟩
      · rw [h]
        exact ⟨hinv.setForward _, le_rfl⟩

/-- In log mode a command changes the content as its answer says. -/
theorem exec_content (hmode : c.ssdType = .logging) (hinv : LogInv c s) (hmap : MapInv c s)
    {cmd : Cmd} {r : String} (hexec : exec c s cmd = some (s', r)) :
    MapInv c s' ∧ content s' = Store.record (content s) (cmd, r) := by
  cases cmd with
  | read address =>
      obtain ⟨rfl, -⟩ := Prod.mk.inj (Option.some_inj.mp hexec)
      exact ⟨hmap, rfl⟩
  | write address d =>
      obtain ⟨t, r', hwrite, -, hcase⟩ := write_logging hmode hinv address d
      obtain ⟨rfl, rfl⟩ := Prod.mk.inj (Option.some_inj.mp (hwrite.symm.trans hexec))
      cases hcase with
      | illegal _ same =>
          subst same
          exact ⟨hmap, rfl⟩
      | full _ _ same =>
          subst same
          exact ⟨hmap, rfl⟩
      | appended _ page happ => exact ⟨happ.mapInv hmap, happ.content_eq hmap⟩
  | trim address =>
      have hexec : (trim c s address).1 = s' ∧ (trim c s address).2 = r :=
        Prod.mk.inj (Option.some_inj.mp hexec)
      obtain ⟨rfl, rfl⟩ := hexec
      rcases trim_fst_eq (c := c) (s := s) address with ⟨h, hr⟩ | ⟨h, hr⟩
      · rw [h]
        exact ⟨hmap, by simp [Store.record, hr]⟩
      · rw [h]
        refine ⟨hmap.trim _, ?_⟩
        simp [Store.record, hr, content_trim]

/-! ## Reads across garbage collection -/

structure Faithful (c : Config) (x : Session) : Prop where
  inv : LogInv c x.device
  map : MapInv c x.device
  content_eq : content x.device = replay x.log

theorem Faithful.init : Faithful c Session.init where
  inv := init_logInv
  map := by
    intro l page h
    cases h
  content_eq := rfl

/-- Upkeep may run only where the collector finds room. -/
def upkeepHasRoom (c : Config) (x : Session) (call : Call) : Prop :=
  call = .upkeep → GcRoom c x.device

instance (x : Session) (call : Call) : Decidable (upkeepHasRoom c x call) :=
  inferInstanceAs (Decidable (_ → _))

theorem Faithful.upkeep (hmode : c.ssdType = .logging) (h : Faithful c x)
    (hroom : GcRoom c x.device) :
    ∃ s', Ssd.upkeep c x.device = some s' ∧ Faithful c { x with device := s' } := by
  obtain ⟨s', hupkeep, hcollect⟩ := upkeep_spec hmode h.inv
  obtain ⟨hmap, hcontent⟩ := hcollect.keeps h.map ((upkeep_room_iff hmode h.inv hupkeep).mpr hroom)
  exact ⟨s', hupkeep, hcollect.inv, hmap, hcontent.trans h.content_eq⟩

theorem Faithful.step (hmode : c.ssdType = .logging) (h : Faithful c x) {call : Call}
    (hguard : upkeepHasRoom c x call) (hstep : sessionStep c x call = some x') :
    Faithful c x' := by
  cases call with
  | command cmd =>
      obtain ⟨r, hexec, hlog⟩ := sessionStep_command hstep
      obtain ⟨s', r', hexec', hinv, -⟩ := exec_logInv hmode h.inv cmd
      obtain ⟨rfl, rfl⟩ := Prod.mk.inj (Option.some_inj.mp (hexec.symm.trans hexec'))
      obtain ⟨hmap, hcontent⟩ := exec_content hmode h.inv h.map hexec
      exact ⟨hinv, hmap, by rw [hlog, replay_append, hcontent, h.content_eq]⟩
  | upkeep =>
      obtain ⟨hupkeep, hlog⟩ := sessionStep_upkeep hstep
      obtain ⟨s', hupkeep', h'⟩ := h.upkeep hmode (hguard rfl)
      obtain rfl := Option.some_inj.mp (hupkeep.symm.trans hupkeep')
      exact ⟨h'.inv, h'.map, by rw [hlog]; exact h'.content_eq⟩

/-- In every session whose upkeep finds room, a read returns what was last
written with success, and one more upkeep that finds room changes no read. -/
theorem upkeep_preserves_reads (hmode : c.ssdType = .logging)
    (hreach : Transition.Reach (sessionStep c) (upkeepHasRoom c) Session.init x) :
    (∀ address, read c x.device address =
        Store.read c.numLogicalPages (replay x.log) address) ∧
      (GcRoom c x.device → ∃ s', upkeep c x.device = some s' ∧
        ∀ address, read c s' address = read c x.device address) := by
  have hfaithful : Faithful c x :=
    hreach.invariant Faithful.init fun _ _ _ h hguard hstep => h.step hmode hguard hstep
  refine ⟨fun address => ?_, fun hroom => ?_⟩
  · rw [read_eq_store_read, hfaithful.content_eq]
  · obtain ⟨s', hupkeep, h'⟩ := hfaithful.upkeep hmode hroom
    refine ⟨s', hupkeep, fun address => ?_⟩
    rw [read_eq_store_read, read_eq_store_read, hfaithful.content_eq, h'.content_eq]

def smallLog : Config where
  ssdType := .logging
  numLogicalPages := 3
  numBlocks := 2
  pagesPerBlock := 2
  highWaterMark := 2
  lowWaterMark := 0
  pagesPerBlock_pos := Nat.zero_lt_two

/-- The second block is opened by an overwrite: the collector moves page 1. -/
def overwriteEarly : List Call :=
  [.command (.write 0 "a"), .upkeep, .command (.write 1 "b"), .upkeep, .command (.write 0 "c")]

theorem upkeep_preserves_reads_overwriteEarly :
    ∃ x, Transition.run (sessionStep smallLog) Session.init overwriteEarly = some x ∧
      smallLog.highWaterMark ≤ blocksInUse smallLog x.device ∧
      (∀ address, read smallLog x.device address =
        Store.read smallLog.numLogicalPages (replay x.log) address) ∧
      ∃ s', upkeep smallLog x.device = some s' ∧
        ∀ address, read smallLog s' address = read smallLog x.device address := by
  refine ⟨_, rfl, by decide +kernel, ?_⟩
  have h := upkeep_preserves_reads (c := smallLog) (by rfl)
    (Transition.reach_of_run overwriteEarly
      (Transition.runMeets_of_check (by decide +kernel)) rfl)
  exact ⟨h.1, h.2 (by decide +kernel)⟩

/-- The device fills up with page 1 still live in block 0: the copy of page 1
is refused, its block is erased, and the data is gone. -/
theorem upkeep_loses_data :
    ∃ x s', Transition.Reach (sessionStep smallLog) Transition.anyStep Session.init x ∧
      upkeep smallLog x.device = some s' ∧
      read smallLog x.device 1 = "b" ∧ read smallLog s' 1 = " " := by
  refine ⟨_, _, Transition.reach_of_run_anyStep [.command (.write 0 "a"), .upkeep,
    .command (.write 1 "b"), .upkeep, .command (.write 2 "c"), .upkeep,
    .command (.write 0 "d")] rfl, rfl, ?_, ?_⟩
  · decide +kernel
  · decide +kernel

end OsLabs.Ssd
