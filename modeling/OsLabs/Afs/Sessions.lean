import Mathlib
import OsLabs.Lib.Transition
import OsLabs.Afs.Simulator
import OsLabs.Afs.Coherence

/-!
# Open sessions of a client

A client may hold several descriptors of one file. The reference count follows
them as long as no copy that is in use is fetched again.
-/

namespace OsLabs.Afs

open OsLabs.Transition

variable {n : ℕ} {s s' : State n} {i j : Fin n} {f fname : FileName} {e : Entry} {g : ℤ}

/-! ## Descriptors in use -/

/-- The descriptor an action expects to be open. -/
def Act.uses : Act → Option ℕ
  | .micro_open _ _ => none
  | .micro_read fd => some fd
  | .micro_write fd => some fd
  | .micro_close fd => some fd

def track (fds : List ℕ) : Act → List ℕ
  | .micro_open _ fd => fd :: fds
  | .micro_close fd => fds.erase fd
  | _ => fds

/-- Reads, writes and closes use descriptors that are open where they stand. -/
def wellFormed : List ℕ → List Act → Bool
  | _, [] => true
  | fds, act :: acts => (act.uses.all fun fd => fds.contains fd) && wellFormed (track fds act) acts

theorem mem_of_wellFormed {fds : List ℕ} {acts : List Act} (h : wellFormed fds acts = true)
    {k fd : ℕ}
    {act : Act} (hact : acts[k]? = some act) (huses : act.uses = some fd) :
    fd ∈ (acts.take k).foldl track fds := by
  induction acts generalizing fds k with
  | nil => exact nomatch hact
  | cons a acts ih =>
      simp only [wellFormed, Bool.and_eq_true] at h
      cases k with
      | zero =>
          obtain rfl := Option.some.inj hact
          rw [huses] at h
          exact List.contains_iff_mem.mp h.1
      | succ k => exact ih h.2 hact

theorem opened_of_mem {acts : List Act} {fds : List ℕ} {fd : ℕ} (h : fd ∈ acts.foldl track fds) :
    fd ∈ fds ∨ ∃ fname, .micro_open fname fd ∈ acts := by
  induction acts generalizing fds with
  | nil => exact Or.inl h
  | cons act acts ih =>
      obtain hfd | ⟨fname, hopen⟩ := ih h
      · cases act with
        | micro_open fname fd' =>
            obtain rfl | hfd := List.mem_cons.mp hfd
            · exact Or.inr ⟨fname, List.mem_cons_self⟩
            · exact Or.inl hfd
        | micro_read fd' => exact Or.inl hfd
        | micro_write fd' => exact Or.inl hfd
        | micro_close fd' => exact Or.inl (List.mem_of_mem_erase hfd)
      · exact Or.inr ⟨fname, List.mem_cons_of_mem _ hopen⟩

theorem unpack_spec {acts : List Act} {fd fd' : FdTable} (h : unpack fd acts = some fd') :
    (∀ k fname, fd k = some fname → fd' k = some fname) ∧
    ∀ fname k, .micro_open fname k ∈ acts → fd' k = some fname ∧ k < fdMax := by
  induction acts generalizing fd with
  | nil =>
      obtain rfl := Option.some.inj h
      exact ⟨fun _ _ hk => hk, fun _ _ hopen => nomatch hopen⟩
  | cons act acts ih =>
      cases act with
      | micro_open fname sfd =>
          obtain ⟨fd₁, halloc, h⟩ := Option.bind_eq_some_iff.mp h
          obtain ⟨hkept, hopened⟩ := ih h
          unfold FdTable.alloc at halloc
          split at halloc
          · rename_i hfree
            obtain rfl := Option.some.inj halloc
            refine ⟨fun k name hk => hkept k name ?_, fun name k hopen => ?_⟩
            · rwa [Function.update_of_ne]
              rintro rfl
              exact nomatch hfree.2.symm.trans hk
            · obtain hsame | hopen := List.mem_cons.mp hopen
              · obtain ⟨rfl, rfl⟩ := Act.micro_open.inj hsame
                exact ⟨hkept k name (Function.update_self _ _ _), hfree.1⟩
              · exact hopened name k hopen
          · exact nomatch halloc
      | micro_read k => exact ⟨(ih h).1, fun name k hopen => (ih h).2 name k (by simpa using hopen)⟩
      | micro_write k =>
          exact ⟨(ih h).1, fun name k hopen => (ih h).2 name k (by simpa using hopen)⟩
      | micro_close k =>
          exact ⟨(ih h).1, fun name k hopen => (ih h).2 name k (by simpa using hopen)⟩

/-! ## Tracked runs -/

def Client.next (me : Client) : Option Act := if me.done then none else me.acts[me.acnt]?

/-- The descriptors client `i` has open. -/
def State.fds (s : State n) (i : Fin n) : List ℕ :=
  ((s.clients i).acts.take (s.clients i).acnt).foldl track []

/-- How many of them are open on `fname`. -/
def State.opens (s : State n) (i : Fin n) (fname : FileName) : ℕ :=
  (s.fds i).countP fun fd => (s.clients i).fd fd == some fname

/-- A state with, for each client and file, the last value the client wrote and
has not closed since. -/
structure Tracked (n : ℕ) where
  state : State n
  pending : Fin n → FileName → Option ℕ

def note (s : State n) (i : Fin n) (pending : Fin n → FileName → Option ℕ) (fd : ℕ)
    (value : Option ℕ) : Fin n → FileName → Option ℕ :=
  match (s.clients i).fd fd with
  | some fname => Function.update pending i (Function.update (pending i) fname value)
  | none => pending

def recordAct (s : State n) (i : Fin n) (pending : Fin n → FileName → Option ℕ) :
    Act → Fin n → FileName → Option ℕ
  | .micro_write fd => note s i pending fd (some s.value)
  | .micro_close fd => note s i pending fd none
  | _ => pending

def record (s : State n) (i : Fin n) (pending : Fin n → FileName → Option ℕ) :
    Fin n → FileName → Option ℕ :=
  match (s.clients i).next with
  | some act => recordAct s i pending act
  | none => pending

def trackedStep (g : ℤ) (t : Tracked n) (i : Fin n) : Option (Tracked n) :=
  (step g t.state i).map fun s => ⟨s, record t.state i t.pending⟩

/-- No client opens a file again while it has it open with an invalid copy, and
the variable `i` passes the range check of `lookup`. -/
def keepsCopies (g : ℤ) (t : Tracked n) (i : Fin n) : Prop :=
  match (t.state.clients i).next with
  | some (.micro_open fname _) => g < fdMax ∧
      (0 < t.state.opens i fname → ((t.state.clients i).cache fname).any Entry.valid = true)
  | _ => True

instance (t : Tracked n) (i : Fin n) : Decidable (keepsCopies g t i) := by
  unfold keepsCopies
  split <;> infer_instance

structure SessionLaw (g : ℤ) (t : Tracked n) : Prop where
  refcnt : ∀ i f e, (t.state.clients i).cache f = some e → e.refcnt = t.state.opens i f
  kept : ∀ i f v, t.pending i f = some v →
    ∃ e, (t.state.clients i).cache f = some e ∧ e.dirty = true ∧ e.data = v
  stored : ∀ i fd f v, (t.state.clients i).next = some (.micro_close fd) →
    (t.state.clients i).fd fd = some f → t.pending i f = some v →
    ∀ t', trackedStep g t i = some t' → t'.state.server.contents f = some v
  succeeds : ∀ i act fd, (t.state.clients i).next = some act → act.uses = some fd →
    ∃ t', trackedStep g t i = some t'

/-! ## What a step leaves alone -/

def SameTasks (s s' : State n) : Prop :=
  ∀ j, (s'.clients j).acts = (s.clients j).acts ∧ (s'.clients j).fd = (s.clients j).fd ∧
    (s'.clients j).acnt = (s.clients j).acnt ∧ (s'.clients j).done = (s.clients j).done

theorem sameTasks_setCache (cache : Cache) : SameTasks s (s.setCache i cache) := by
  intro j
  unfold State.setCache
  by_cases hj : j = i
  · subst hj
    simp
  · simp [hj]

theorem sameTasks_stored (value : ℕ) : SameTasks s (s.stored i fname value) := by
  intro j
  unfold State.stored State.callback
  dsimp only
  split <;> exact ⟨rfl, rfl, rfl, rfl⟩

theorem SameTasks.trans {s'' : State n} (h : SameTasks s s') (h' : SameTasks s' s'') :
    SameTasks s s'' := fun j =>
  ⟨(h' j).1.trans (h j).1, (h' j).2.1.trans (h j).2.1, (h' j).2.2.1.trans (h j).2.2.1,
    (h' j).2.2.2.trans (h j).2.2.2⟩

theorem perform_sameTasks {act : Act} (h : perform g s i act = some s') : SameTasks s s' := by
  have hvalue : ∀ value, SameTasks s { s with value := value } := fun _ _ => ⟨rfl, rfl, rfl, rfl⟩
  have hserver : ∀ server, SameTasks s { s with server := server } :=
    fun _ _ => ⟨rfl, rfl, rfl, rfl⟩
  cases act with
  | micro_open fname fd =>
      obtain ⟨e, -, -, rfl⟩ | ⟨data, -, -, rfl⟩ := getfile_cases h
      · exact sameTasks_setCache _
      · exact (hserver _).trans (sameTasks_setCache _)
  | micro_read fd =>
      obtain ⟨_, -, h⟩ := Option.bind_eq_some_iff.mp h
      obtain ⟨_, -, h⟩ := Option.bind_eq_some_iff.mp h
      exact Option.some.inj h ▸ fun _ => ⟨rfl, rfl, rfl, rfl⟩
  | micro_write fd =>
      obtain ⟨fname, e, -, -, rfl⟩ := write_cases h
      exact (hvalue _).trans (sameTasks_setCache _)
  | micro_close fd =>
      obtain ⟨fname, e, -, -, ⟨-, -, rfl⟩ | ⟨-, rfl⟩⟩ := close_cases h
      · exact (sameTasks_stored _).trans (sameTasks_setCache _)
      · exact sameTasks_setCache _

theorem advance_client (hj : j ≠ i) : (s.advance i).clients j = s.clients j :=
  Function.update_of_ne hj _ _

theorem advance_self : (s.advance i).clients i =
    { s.clients i with acnt := (s.clients i).acnt + 1 } := Function.update_self _ _ _

theorem advance_fds {act : Act} (hsame : SameTasks s s')
    (hact : (s.clients i).acts[(s.clients i).acnt]? = some act) (j : Fin n) :
    (s'.advance i).fds j = if j = i then track (s.fds i) act else s.fds j := by
  unfold State.fds
  split
  · rename_i hj
    subst hj
    rw [advance_self]
    dsimp only
    rw [(hsame j).1, (hsame j).2.2.1, List.take_add_one, hact, Option.toList_some,
      List.foldl_append]
    rfl
  · rename_i hj
    rw [advance_client hj, (hsame j).1, (hsame j).2.2.1]

theorem advance_table (hsame : SameTasks s s') (j : Fin n) :
    ((s'.advance i).clients j).acts = (s.clients j).acts ∧
      ((s'.advance i).clients j).fd = (s.clients j).fd := by
  by_cases hj : j = i
  · subst hj
    rw [advance_self]
    exact ⟨(hsame j).1, (hsame j).2.1⟩
  · rw [advance_client hj]
    exact ⟨(hsame j).1, (hsame j).2.1⟩

theorem advance_opens {act : Act} (hsame : SameTasks s s')
    (hact : (s.clients i).acts[(s.clients i).acnt]? = some act) (j : Fin n) (f : FileName) :
    (s'.advance i).opens j f = if j = i then
      (track (s.fds i) act).countP fun fd => (s.clients i).fd fd == some f else s.opens j f := by
  unfold State.opens
  rw [advance_fds hsame hact, (advance_table hsame j).2]
  split
  · rename_i hj
    rw [hj]
  · rfl

/-! ## The invariant -/

/-- One copy against the descriptors open on it and the value not closed yet. -/
structure CopyOk (contents : Option ℕ) (copy : Option Entry) (opens : ℕ) (pending : Option ℕ) :
    Prop where
  known : ∀ e, copy = some e → contents.isSome
  counted : ∀ e, copy = some e → e.refcnt = opens
  absent : copy = none → opens = 0
  pending_open : ∀ v, pending = some v → 0 < opens
  pending_kept : ∀ v, pending = some v → ∃ e, copy = some e ∧ e.dirty = true ∧ e.data = v

section CopyOk

variable {contents : Option ℕ} {copy : Option Entry} {opens : ℕ} {pending : Option ℕ}

theorem CopyOk.hit (h : CopyOk contents copy opens pending) (he : copy = some e) :
    CopyOk contents (some { e with refcnt := e.refcnt + 1 }) (opens + 1) pending := by
  subst he
  refine ⟨fun _ _ => h.known e rfl, fun e' he' => ?_, fun hnone => (nomatch hnone),
    fun _ _ => Nat.succ_pos _, fun v hv => ?_⟩
  · obtain rfl := Option.some.inj he'
    have := h.counted e rfl
    dsimp only
    omega
  · obtain ⟨e', he', hdirty, hdata⟩ := h.pending_kept v hv
    obtain rfl := Option.some.inj he'
    exact ⟨_, rfl, hdirty, hdata⟩

/-- A fetched copy; the old one was not in use. -/
theorem CopyOk.fetched (h : CopyOk contents copy opens pending) {data : ℕ}
    (hcontents : contents = some data) (hunused : opens = 0) :
    CopyOk contents (some ⟨data, false, 1, true⟩) (opens + 1) pending := by
  subst hunused
  have hnone : ∀ v, pending ≠ some v := fun v hv => absurd (h.pending_open v hv) (Nat.lt_irrefl 0)
  refine ⟨fun _ _ => ?_, fun e' he' => ?_, fun hnone => (nomatch hnone),
    fun v hv => absurd hv (hnone v), fun v hv => absurd hv (hnone v)⟩
  · rw [hcontents]
    rfl
  · obtain rfl := Option.some.inj he'
    rfl

theorem CopyOk.written (h : CopyOk contents copy opens pending) (he : copy = some e)
    (hopen : 0 < opens) (v : ℕ) :
    CopyOk contents (some { e with data := v, dirty := true }) opens (some v) := by
  refine ⟨fun _ _ => h.known e he, fun e' he' => ?_, fun hnone => (nomatch hnone),
    fun _ _ => hopen, fun v' hv' => ?_⟩
  · obtain rfl := Option.some.inj he'
    exact h.counted e he
  · exact ⟨_, rfl, rfl, Option.some.inj hv'⟩

theorem CopyOk.closed (h : CopyOk contents copy opens pending) (he : copy = some e)
    (hopen : 0 < opens) :
    CopyOk contents (if e.valid = false ∧ e.refcnt - 1 = 0 then none
      else some { e with refcnt := e.refcnt - 1 }) (opens - 1) none := by
  have hcount := h.counted e he
  refine ⟨fun _ _ => h.known e he, fun e' he' => ?_, fun hgone => ?_, fun _ hv => (nomatch hv),
    fun _ hv => (nomatch hv)⟩
  · split at he'
    · exact nomatch he'
    · obtain rfl := Option.some.inj he'
      dsimp only
      omega
  · split at hgone
    · omega
    · exact nomatch hgone

theorem CopyOk.closedStored (h : CopyOk contents copy opens pending) (he : copy = some e)
    (hopen : 0 < opens) : CopyOk (some e.data) (some ⟨e.data, false, e.refcnt - 1, true⟩)
      (opens - 1) none := by
  have hcount := h.counted e he
  refine ⟨fun _ _ => rfl, fun e' he' => ?_, fun hgone => (nomatch hgone), fun _ hv => (nomatch hv),
    fun _ hv => (nomatch hv)⟩
  obtain rfl := Option.some.inj he'
  dsimp only
  omega

/-- A callback, and a store of the file by another client. -/
theorem CopyOk.calledBack (h : CopyOk contents copy opens pending) {copy' : Option Entry}
    {contents' : Option ℕ} (hcontents : contents.isSome → contents'.isSome)
    (hnone : copy' = none → copy = none) (hsome : ∀ e', copy' = some e' → ∃ e, copy = some e ∧
      e'.data = e.data ∧ e'.dirty = e.dirty ∧ e'.refcnt = e.refcnt) :
    CopyOk contents' copy' opens pending := by
  refine ⟨fun e' he' => ?_, fun e' he' => ?_, fun hgone => h.absent (hnone hgone), h.pending_open,
    fun v hv => ?_⟩
  · obtain ⟨e, he, -⟩ := hsome e' he'
    exact hcontents (h.known e he)
  · obtain ⟨e, he, -, -, hrefcnt⟩ := hsome e' he'
    exact hrefcnt.trans (h.counted e he)
  · obtain ⟨e, he, hdirty, hdata⟩ := h.pending_kept v hv
    cases hcopy : copy' with
    | none => exact nomatch (hnone hcopy).symm.trans he
    | some e' =>
        obtain ⟨e₁, he₁, hd, hb, -⟩ := hsome e' hcopy
        obtain rfl := Option.some.inj (he.symm.trans he₁)
        exact ⟨e', rfl, hb.trans hdirty, hd.trans hdata⟩

end CopyOk

structure Session (g : ℤ) (t : Tracked n) : Prop where
  formed : ∀ i, wellFormed [] (t.state.clients i).acts = true
  unpacked : ∀ i, unpack (fun _ => none) (t.state.clients i).acts = some (t.state.clients i).fd
  range : ∀ i, t.state.fds i ≠ [] → g < fdMax
  copies : ∀ i f, CopyOk (t.state.server.contents f) ((t.state.clients i).cache f)
    (t.state.opens i f) (t.pending i f)

variable {t t' : Tracked n} {fd : ℕ}

theorem next_eq {c : Client} {act : Act} (h : c.next = some act) :
    c.done = false ∧ c.acts[c.acnt]? = some act := by
  unfold Client.next at h
  split at h
  · exact nomatch h
  · rename_i hdone
    exact ⟨Bool.not_eq_true _ ▸ hdone, h⟩

theorem next_of {c : Client} (hdone : c.done = false) : c.next = c.acts[c.acnt]? := by
  unfold Client.next
  rw [hdone, if_neg Bool.false_ne_true]

/-- A descriptor in use is open, and `lookup` finds its file. -/
theorem Session.used (h : Session g t) (hg : 0 ≤ g) {act : Act}
    (hact : (t.state.clients i).acts[(t.state.clients i).acnt]? = some act)
    (huses : act.uses = some fd) : ∃ fname, fd ∈ t.state.fds i ∧
      (t.state.clients i).fd fd = some fname ∧
      (t.state.clients i).fd.lookup g fd = some fname ∧ 0 < t.state.opens i fname := by
  have hmem : fd ∈ t.state.fds i := mem_of_wellFormed (h.formed i) hact huses
  obtain hnil | ⟨fname, hopen⟩ := opened_of_mem hmem
  · exact absurd hnil List.not_mem_nil
  obtain ⟨htable, hmax⟩ := (unpack_spec (h.unpacked i)).2 fname fd (List.mem_of_mem_take hopen)
  have hrange := h.range i (List.ne_nil_of_mem hmem)
  refine ⟨fname, hmem, htable, ?_, List.countP_pos_iff.mpr ⟨fd, hmem, ?_⟩⟩
  · rw [FdTable.lookup, if_pos ⟨hg, hrange⟩, if_pos hmax, htable]
  · exact beq_iff_eq.mpr htable

/-- The invariant after an action, given that it holds of each copy. -/
theorem Session.advance (h : Session g t) {act : Act} (hsame : SameTasks t.state s)
    (hact : (t.state.clients i).acts[(t.state.clients i).acnt]? = some act)
    (hrange : ∀ fname fd, act = .micro_open fname fd → g < fdMax)
    {pending : Fin n → FileName → Option ℕ}
    (hself : ∀ f, CopyOk (s.server.contents f) ((s.clients i).cache f)
      ((track (t.state.fds i) act).countP fun fd => (t.state.clients i).fd fd == some f)
      (pending i f))
    (hother : ∀ j f, j ≠ i → CopyOk (s.server.contents f) ((s.clients j).cache f)
      (t.state.opens j f) (pending j f)) : Session g ⟨s.advance i, pending⟩ := by
  refine ⟨fun j => ?_, fun j => ?_, fun j hj => ?_, fun j f => ?_⟩
  · rw [(advance_table hsame j).1]
    exact h.formed j
  · rw [(advance_table hsame j).1, (advance_table hsame j).2]
    exact h.unpacked j
  · dsimp only at hj
    rw [advance_fds hsame hact] at hj
    split at hj
    · rename_i hji
      cases act with
      | micro_open fname fd => exact hrange fname fd rfl
      | micro_read fd => exact h.range i hj
      | micro_write fd => exact h.range i hj
      | micro_close fd =>
          refine h.range i fun hnil => hj ?_
          rw [track, hnil, List.erase_nil]
    · exact h.range j hj
  · dsimp only
    rw [advance_opens hsame hact, advance_cache]
    split
    · rename_i hji
      subst hji
      exact hself f
    · rename_i hji
      exact hother j f hji

/-- An action that replaces or drops the copy of `fname`. -/
theorem Session.entry (h : Session g t) {act : Act} {o : Option Entry}
    (hsame : SameTasks t.state s)
    (hact : (t.state.clients i).acts[(t.state.clients i).acnt]? = some act)
    (hrange : ∀ fname fd, act = .micro_open fname fd → g < fdMax)
    (hcontents : s.server.contents = t.state.server.contents)
    (hcache : ∀ j f, (s.clients j).cache f =
      if j = i ∧ f = fname then o else (t.state.clients j).cache f)
    {pending : Fin n → FileName → Option ℕ}
    (hpending : ∀ j f, ¬ (j = i ∧ f = fname) → pending j f = t.pending j f)
    {count : FileName → ℕ} (hcount : ∀ f, ((track (t.state.fds i) act).countP fun fd =>
      (t.state.clients i).fd fd == some f) = count f)
    (hquiet : ∀ f, f ≠ fname → count f = t.state.opens i f)
    (hcopy : CopyOk (t.state.server.contents fname) o (count fname) (pending i fname)) :
    Session g ⟨s.advance i, pending⟩ := by
  refine h.advance hsame hact hrange (fun f => ?_) fun j f hj => ?_
  · rw [hcache, hcontents, hcount]
    by_cases hf : f = fname
    · subst hf
      rwa [if_pos ⟨rfl, rfl⟩]
    · have hne : ¬ (i = i ∧ f = fname) := fun hself => hf hself.2
      rw [if_neg hne, hpending i f hne, hquiet f hf]
      exact h.copies i f
  · have hne : ¬ (j = i ∧ f = fname) := fun hself => hj hself.1
    rw [hcache, hcontents, if_neg hne, hpending j f hne]
    exact h.copies j f

theorem countP_open (h : Session g t) {fname : FileName}
    (hact : (t.state.clients i).acts[(t.state.clients i).acnt]? = some (.micro_open fname fd))
    (f : FileName) : ((track (t.state.fds i) (.micro_open fname fd)).countP fun fd =>
      (t.state.clients i).fd fd == some f) =
      if f = fname then t.state.opens i f + 1 else t.state.opens i f := by
  have htable := ((unpack_spec (h.unpacked i)).2 fname fd (List.mem_of_getElem? hact)).1
  rw [track, List.countP_cons, htable]
  by_cases hf : f = fname
  · subst hf
    rw [if_pos (beq_self_eq_true _), if_pos rfl]
    rfl
  · rw [if_neg fun hsame => hf (Option.some.inj (beq_iff_eq.mp hsame)).symm, if_neg hf]
    rfl

theorem countP_close {fname : FileName} (hmem : fd ∈ s.fds i)
    (htable : (s.clients i).fd fd = some fname) (f : FileName) :
    ((track (s.fds i) (.micro_close fd)).countP fun fd => (s.clients i).fd fd == some f) =
      if f = fname then s.opens i f - 1 else s.opens i f := by
  have hcons := (List.perm_cons_erase hmem).countP_eq fun fd => (s.clients i).fd fd == some f
  rw [List.countP_cons, htable] at hcons
  unfold State.opens
  rw [track, hcons]
  by_cases hf : f = fname
  · subst hf
    rw [if_pos (beq_self_eq_true _), if_pos rfl]
    rfl
  · rw [if_neg fun hsame => hf (Option.some.inj (beq_iff_eq.mp hsame)).symm, if_neg hf]
    rfl

theorem Session.open (h : Session g t) {fname : FileName}
    (hact : (t.state.clients i).acts[(t.state.clients i).acnt]? = some (.micro_open fname fd))
    (hrange : g < fdMax) (hvalid : 0 < t.state.opens i fname →
      ((t.state.clients i).cache fname).any Entry.valid = true)
    (hopen : getfile t.state i fname = some s) : Session g ⟨s.advance i, t.pending⟩ := by
  have hsame : SameTasks t.state s :=
    @perform_sameTasks n t.state s i g (.micro_open fname fd) hopen
  have hcopy := h.copies i fname
  obtain ⟨e, he, -, rfl⟩ | ⟨data, hdata, hstale, rfl⟩ := getfile_cases hopen
  · refine h.entry hsame hact (fun _ _ _ => hrange) rfl (setEntry_cache t.state i fname _)
      (fun _ _ _ => rfl) (countP_open h hact) (fun f hf => if_neg hf) ?_
    rw [if_pos rfl]
    exact hcopy.hit he
  · have hunused : t.state.opens i fname = 0 := by
      by_contra hopens
      have hany := hvalid (Nat.pos_of_ne_zero hopens)
      obtain ⟨e, he, hvalid⟩ := (Option.any_eq_true _ _).mp hany
      exact Bool.false_ne_true ((hstale e he).symm.trans hvalid)
    refine h.entry hsame hact (fun _ _ _ => hrange) rfl
      (setEntry_cache { t.state with server := t.state.server.register i fname } i fname _)
      (fun _ _ _ => rfl) (countP_open h hact) (fun f hf => if_neg hf) ?_
    rw [if_pos rfl]
    exact hcopy.fetched hdata hunused

theorem note_of_ne {pending : Fin n → FileName → Option ℕ} {value : Option ℕ}
    (htable : (s.clients i).fd fd = some fname) (hne : ¬ (j = i ∧ f = fname)) :
    note s i pending fd value j f = pending j f := by
  unfold note
  rw [htable]
  dsimp only
  by_cases hj : j = i
  · subst hj
    rw [Function.update_self, Function.update_of_ne fun hf => hne ⟨rfl, hf⟩]
  · rw [Function.update_of_ne hj]

theorem note_self {pending : Fin n → FileName → Option ℕ} {value : Option ℕ}
    (htable : (s.clients i).fd fd = some fname) :
    note s i pending fd value i fname = value := by
  unfold note
  rw [htable]
  dsimp only
  rw [Function.update_self, Function.update_self]

theorem Session.write (h : Session g t) (hg : 0 ≤ g)
    (hact : (t.state.clients i).acts[(t.state.clients i).acnt]? = some (.micro_write fd))
    (hwrite : perform g t.state i (.micro_write fd) = some s) :
    Session g ⟨s.advance i, note t.state i t.pending fd (some t.state.value)⟩ := by
  have hsame := perform_sameTasks hwrite
  obtain ⟨fname, -, htable, hlookup, hopen⟩ := h.used hg hact rfl
  obtain ⟨fname', e, hlookup', he, rfl⟩ := write_cases hwrite
  obtain rfl := Option.some.inj (hlookup.symm.trans hlookup')
  refine h.entry hsame hact (fun _ _ hact => (nomatch hact)) rfl
    (setEntry_cache { t.state with value := t.state.value + 1 } i fname _)
    (fun j f => note_of_ne htable) (fun _ => rfl) (fun _ _ => rfl) ?_
  rw [note_self htable]
  exact (h.copies i fname).written he hopen _

theorem stored_cache_none {value : ℕ}
    (hgone : ((s.stored i fname value).clients j).cache f = none) :
    (s.clients j).cache f = none := by
  unfold State.stored State.callback at hgone
  dsimp only at hgone
  split at hgone
  · exact invalidate_eq_none hgone
  · exact hgone

theorem Session.close (h : Session g t) (hg : 0 ≤ g)
    (hact : (t.state.clients i).acts[(t.state.clients i).acnt]? = some (.micro_close fd))
    (hclose : perform g t.state i (.micro_close fd) = some s) :
    Session g ⟨s.advance i, note t.state i t.pending fd none⟩ := by
  have hsame := perform_sameTasks hclose
  obtain ⟨fname, hmem, htable, hlookup, hopen⟩ := h.used hg hact rfl
  have hcopy := h.copies i fname
  obtain ⟨fname', e, hlookup', he, hcases⟩ := close_cases hclose
  obtain rfl := Option.some.inj (hlookup.symm.trans hlookup')
  obtain ⟨hdirty, hknown, rfl⟩ | ⟨-, rfl⟩ := hcases
  · refine h.advance hsame hact (fun _ _ hact => (nomatch hact)) (fun f => ?_) fun j f hj => ?_
    · rw [setCache_cache_self, setCache_server, stored_contents, countP_close hmem htable]
      by_cases hf : f = fname
      · subst hf
        rw [Function.update_self, Function.update_self, if_pos rfl, note_self htable]
        exact hcopy.closedStored he hopen
      · rw [Function.update_of_ne hf, Function.update_of_ne hf, if_neg hf,
          note_of_ne htable fun hself => hf hself.2]
        exact h.copies i f
    · rw [setCache_cache, if_neg hj, setCache_server, stored_contents,
        note_of_ne htable fun hself => hj hself.1]
      refine (h.copies j f).calledBack (fun hsome => ?_) (fun hgone => ?_) fun e' he' => ?_
      · by_cases hf : f = fname
        · rw [hf, Function.update_self]
          rfl
        · rwa [Function.update_of_ne hf]
      · exact stored_cache_none hgone
      · obtain ⟨e₁, he₁, rfl⟩ := stored_cache hj he'
        refine ⟨e₁, he₁, ?_⟩
        split <;> exact ⟨rfl, rfl, rfl⟩
  · refine h.entry hsame hact (fun _ _ hact => (nomatch hact)) rfl
      (setEntry_cache t.state i fname _)
      (fun j f => note_of_ne htable) (countP_close hmem htable) (fun f hf => if_neg hf) ?_
    rw [if_pos rfl, note_self htable]
    exact hcopy.closed he hopen

theorem Session.read (h : Session g t)
    (hact : (t.state.clients i).acts[(t.state.clients i).acnt]? = some (.micro_read fd))
    (hread : perform g t.state i (.micro_read fd) = some s) :
    Session g ⟨s.advance i, t.pending⟩ := by
  have hsame := perform_sameTasks hread
  obtain ⟨_, -, hread⟩ := Option.bind_eq_some_iff.mp hread
  obtain ⟨_, -, hread⟩ := Option.bind_eq_some_iff.mp hread
  obtain rfl := Option.some.inj hread
  exact h.advance hsame hact (fun _ _ hact => (nomatch hact)) (h.copies i) fun j f _ => h.copies j f

/-- Clients are marked done. -/
theorem Session.marked (h : Session g t) (hserver : s.server = t.state.server)
    (hclients : ∀ j, ∃ done, s.clients j = { t.state.clients j with done := done }) :
    Session g ⟨s, t.pending⟩ := by
  have hfds : ∀ j, s.fds j = t.state.fds j := by
    intro j
    obtain ⟨done, hj⟩ := hclients j
    unfold State.fds
    rw [hj]
  refine ⟨fun j => ?_, fun j => ?_, fun j hj => h.range j (hfds j ▸ hj), fun j f => ?_⟩
  · obtain ⟨done, hj⟩ := hclients j
    dsimp only
    rw [hj]
    exact h.formed j
  · obtain ⟨done, hj⟩ := hclients j
    dsimp only
    rw [hj]
    exact h.unpacked j
  · obtain ⟨done, hj⟩ := hclients j
    have hopens : s.opens j f = t.state.opens j f := by
      unfold State.opens
      rw [hfds, hj]
    dsimp only
    rw [hopens, hserver, hj]
    exact h.copies j f

theorem trackedStep_session (h : Session g t) (hg : 0 ≤ g) (hguard : keepsCopies g t i)
    (hstep : trackedStep g t i = some t') : Session g t' := by
  obtain ⟨s, hmove, rfl⟩ := Option.map_eq_some_iff.mp hstep
  obtain ⟨hdone, rfl⟩ | ⟨hrunning, hend, rfl⟩ | ⟨act, s, hrunning, hact, hperform, rfl⟩ :=
    step_cases hmove
  · have hnext : (t.state.clients i).next = none := if_pos hdone
    rw [record, hnext]
    exact h
  · have hnext : (t.state.clients i).next = none := (next_of hrunning).trans hend
    rw [record, hnext]
    refine h.marked rfl fun j => ?_
    by_cases hj : j = i
    · subst hj
      exact ⟨true, Function.update_self _ _ _⟩
    · exact ⟨_, Function.update_of_ne hj _ _⟩
  · have hnext : (t.state.clients i).next = some act := (next_of hrunning).trans hact
    unfold keepsCopies at hguard
    rw [record, hnext]
    rw [hnext] at hguard
    cases act with
    | micro_open fname fd => exact h.open hact hguard.1 hguard.2 hperform
    | micro_read fd => exact h.read hact hperform
    | micro_write fd => exact h.write hg hact hperform
    | micro_close fd => exact h.close hg hact hperform

/-! ## The session law -/

theorem putfile_of_known (he : (s.clients i).cache fname = some e)
    (hknown : (s.server.contents fname).isSome) {value : ℕ} :
    putfile s i fname value = some ((s.stored i fname value).setCache i
      (Function.update (s.clients i).cache fname
        (some { e with dirty := false, valid := true }))) := by
  have hput : s.serverPut i fname value = some (s.stored i fname value) := if_pos hknown
  simp [putfile, hput, State.onCache, Cache.setclean, Cache.setvalid, Cache.replace, he]

theorem perform_of_used (h : Session g t) (hg : 0 ≤ g) {act : Act}
    (hact : (t.state.clients i).acts[(t.state.clients i).acnt]? = some act)
    (huses : act.uses = some fd) : ∃ s, perform g t.state i act = some s := by
  obtain ⟨fname, -, -, hlookup, hopen⟩ := h.used hg hact huses
  have hcopy := h.copies i fname
  obtain ⟨e, he⟩ : ∃ e, (t.state.clients i).cache fname = some e :=
    Option.ne_none_iff_exists'.mp fun hnone => hopen.ne' (hcopy.absent hnone)
  cases act with
  | micro_open fname fd => exact nomatch huses
  | micro_read fd' =>
      obtain rfl := Option.some.inj huses
      exact ⟨t.state, by simp [perform, hlookup, he]⟩
  | micro_write fd' =>
      obtain rfl := Option.some.inj huses
      refine Option.isSome_iff_exists.mp ?_
      simp [perform, hlookup, he, State.onCache, Cache.update, Cache.replace]
  | micro_close fd' =>
      obtain rfl := Option.some.inj huses
      have hknown := hcopy.known e he
      refine Option.isSome_iff_exists.mp ?_
      cases hdirty : e.dirty with
      | false =>
          simp [perform, hlookup, he, hdirty, State.onCache, Cache.isdirty, Cache.decref,
            Cache.replace, Cache.checkvalid]
      | true =>
          simp [perform, hlookup, he, hdirty, putfile_of_known he hknown, State.onCache,
            Cache.isdirty, Cache.decref, Cache.replace, Cache.checkvalid]

theorem Session.law (h : Session g t) (hg : Fin n → 0 ≤ g) : SessionLaw g t := by
  refine ⟨fun i f e he => (h.copies i f).counted e he,
    fun i f v hv => (h.copies i f).pending_kept v hv, fun i fd f v hnext htable hv t' hstep => ?_,
    fun i act fd hnext huses => ?_⟩
  · obtain ⟨hrunning, hact⟩ := next_eq hnext
    obtain ⟨fname, -, htable', hlookup, -⟩ := h.used (hg i) hact rfl
    obtain rfl := Option.some.inj (htable.symm.trans htable')
    obtain ⟨s, hperform⟩ := perform_of_used h (hg i) hact rfl
    obtain ⟨s', hmove, rfl⟩ := Option.map_eq_some_iff.mp hstep
    obtain rfl := Option.some.inj ((step_of_perform hrunning hact hperform).symm.trans hmove)
    obtain ⟨e, he, hdirty, rfl⟩ := (h.copies i f).pending_kept v hv
    obtain ⟨f', e', hlookup', he', hcases⟩ := close_cases hperform
    obtain rfl := Option.some.inj (hlookup.symm.trans hlookup')
    obtain rfl := Option.some.inj (he.symm.trans he')
    obtain ⟨-, -, rfl⟩ | ⟨hclean, -⟩ := hcases
    · exact Function.update_self _ _ _
    · exact absurd (hclean.symm.trans hdirty) Bool.false_ne_true
  · obtain ⟨hrunning, hact⟩ := next_eq hnext
    obtain ⟨s, hperform⟩ := perform_of_used h (hg i) hact huses
    exact ⟨_, Option.map_eq_some_iff.mpr ⟨_, step_of_perform hrunning hact hperform, rfl⟩⟩

def Tracked.start (s : State n) : Tracked n := ⟨s, fun _ _ => none⟩

theorem init_session {c : Config n} {acts : Fin n → List Act} {s₀ : State n}
    (hformed : ∀ i, wellFormed [] (acts i) = true) (hinit : c.init acts = some s₀) :
    Session g (Tracked.start s₀) := by
  unfold Config.init at hinit
  split at hinit
  · rename_i hunpack
    obtain rfl := Option.some.inj hinit
    refine ⟨hformed, fun i => ?_, fun i hfds => absurd rfl hfds, fun i f => ?_⟩
    · obtain ⟨fd, hfd⟩ := Option.isSome_iff_exists.mp (hunpack i)
      dsimp only [Tracked.start]
      rw [hfd]
      rfl
    · exact ⟨fun _ he => (nomatch he), fun _ he => (nomatch he), fun _ => rfl,
        fun _ hv => (nomatch hv), fun _ hv => (nomatch hv)⟩
  · exact nomatch hinit

theorem Config.i_nonneg (c : Config n) (i : Fin n) : 0 ≤ c.i := by
  have := i.pos
  unfold Config.i
  split <;> omega

/-- Reference counts, unsaved values and open descriptors are kept in every run
that fetches no copy in use. -/
theorem session_law (c : Config n) (acts : Fin n → List Act)
    (hformed : ∀ i, wellFormed [] (acts i) = true) {s₀ : State n} (hinit : c.init acts = some s₀)
    (hreach : Reach (trackedStep c.i) (keepsCopies c.i) (Tracked.start s₀) t) :
    SessionLaw c.i t := by
  have hsession : Session c.i t := hreach.invariant (I := Session c.i) (init_session hformed hinit)
    fun _ i _ h hguard hstep => trackedStep_session h (c.i_nonneg i) hguard hstep
  exact hsession.law c.i_nonneg

/-- The other client stores the file before the first opens it at all. -/
theorem session_law_undisturbed : ∃ s₀ t, twoClients.init reopening = some s₀ ∧
    run (trackedStep twoClients.i) (Tracked.start s₀) [1, 1, 1, 0, 0, 1, 1, 1, 0] = some t ∧
    SessionLaw twoClients.i t := by
  have hchecked : ((twoClients.init reopening).map fun s₀ =>
      ((run (trackedStep twoClients.i) (Tracked.start s₀) [1, 1, 1, 0, 0, 1, 1, 1, 0]).isSome,
        checkRun (trackedStep twoClients.i) (keepsCopies twoClients.i) (Tracked.start s₀)
          [1, 1, 1, 0, 0, 1, 1, 1, 0])) = some (true, true) := by
    decide +kernel
  obtain ⟨s₀, hinit, hchecked⟩ := Option.map_eq_some_iff.mp hchecked
  obtain ⟨hsome, hguard⟩ := Prod.mk.inj hchecked
  obtain ⟨t, hrun⟩ := Option.isSome_iff_exists.mp hsome
  exact ⟨s₀, t, hinit, hrun, session_law twoClients reopening (by decide) hinit
    (reach_of_run _ (runMeets_of_check hguard) hrun)⟩

/-- The second open of the first client fetches the file while its first
descriptor is open; the count is one short, and its read fails. -/
theorem session_law_broken : ¬ ∀ (n : ℕ) (c : Config n) (acts : Fin n → List Act) (s₀ : State n)
    (t : Tracked n), (∀ i, wellFormed [] (acts i) = true) → c.init acts = some s₀ →
    Reach (trackedStep c.i) anyStep (Tracked.start s₀) t → SessionLaw c.i t := by
  intro hlaw
  have hfail : ((twoClients.init reopening).bind fun s₀ =>
      (run (trackedStep twoClients.i) (Tracked.start s₀) [0, 1, 1, 1, 0, 1, 1, 1, 0]).map fun t =>
        ((t.state.clients 0).next, (trackedStep twoClients.i t 0).isSome)) =
      some (some (.micro_read 2), false) := by
    decide +kernel
  obtain ⟨s₀, hinit, hfail⟩ := Option.bind_eq_some_iff.mp hfail
  obtain ⟨t, hrun, hfail⟩ := Option.map_eq_some_iff.mp hfail
  obtain ⟨hnext, hnone⟩ := Prod.mk.inj hfail
  have hlaw := hlaw 2 twoClients reopening s₀ t (by decide) hinit (reach_of_run_anyStep _ hrun)
  obtain ⟨t', ht'⟩ := hlaw.succeeds 0 (.micro_read 2) 2 hnext rfl
  rw [ht'] at hnone
  exact nomatch hnone

end OsLabs.Afs
