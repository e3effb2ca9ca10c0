import Mathlib
import OsLabs.Lib.Transition
import OsLabs.Afs.Simulator

/-!
# Coherence of the client caches

What each action does to the caches and to the server, and from it that a valid
and clean copy is never stale.
-/

namespace OsLabs.Afs

open OsLabs.Transition

variable {n : ℕ} {s s' : State n} {i j : Fin n} {f fname : FileName} {e : Entry} {g : ℤ}

/-! ## Updates of one client -/

@[simp] theorem setCache_server (cache : Cache) : (s.setCache i cache).server = s.server := rfl

theorem setCache_cache (cache : Cache) :
    ((s.setCache i cache).clients j).cache = if j = i then cache else (s.clients j).cache := by
  unfold State.setCache
  by_cases h : j = i
  · subst h
    simp
  · simp [h]

@[simp] theorem setCache_cache_self (cache : Cache) :
    ((s.setCache i cache).clients i).cache = cache := by
  rw [setCache_cache, if_pos rfl]

theorem setEntry_cache (s : State n) (i : Fin n) (fname : FileName) (o : Option Entry) (j : Fin n)
    (f : FileName) :
    ((s.setCache i (Function.update (s.clients i).cache fname o)).clients j).cache f =
      if j = i ∧ f = fname then o else (s.clients j).cache f := by
  rw [setCache_cache]
  by_cases hj : j = i
  · subst hj
    by_cases hf : f = fname
    · subst hf
      simp
    · simp [hf]
  · simp [hj]

@[simp] theorem setCache_setCache (cache cache' : Cache) :
    (s.setCache i cache).setCache i cache' = s.setCache i cache' := by
  simp [State.setCache]

theorem onCache_eq_some {method : Cache → Option Cache} :
    s.onCache i method = some s' ↔ ∃ cache, method (s.clients i).cache = some cache ∧
      s.setCache i cache = s' := by
  unfold State.onCache
  rw [Option.map_eq_some_iff]

/-- The state after `server.put`: the new contents, and the copies of the other
clients on the callback lists marked invalid. -/
def State.stored (s : State n) (i : Fin n) (fname : FileName) (value : ℕ) : State n :=
  State.callback { s with
    server.contents := Function.update s.server.contents fname (some value) } i fname

@[simp] theorem stored_contents (value : ℕ) : (s.stored i fname value).server.contents =
    Function.update s.server.contents fname (some value) := rfl

@[simp] theorem stored_self (value : ℕ) : (s.stored i fname value).clients i = s.clients i := by
  simp [State.stored, State.callback]

theorem invalidate_eq_some {cache : Cache} : cache.invalidate fname f = some e ↔
    ∃ e', cache f = some e' ∧ e = if f = fname then { e' with valid := false } else e' := by
  unfold Cache.invalidate
  by_cases h : f = fname
  · subst h
    cases hf : cache f with
    | none => simp [hf]
    | some e' => simp [eq_comm]
  · cases hf : cache fname with
    | none => simp [h]
    | some e' => simp [h]

theorem invalidate_eq_none {cache : Cache} (h : cache.invalidate fname f = none) :
    cache f = none := by
  cases hf : cache f with
  | none => rfl
  | some e => exact nomatch h.symm.trans (invalidate_eq_some.mpr ⟨e, hf, rfl⟩)

/-! ## The actions -/

def Server.register (server : Server n) (i : Fin n) (fname : FileName) : Server n :=
  { server with cache := if (server.cache i).contains fname then server.cache else
      Function.update server.cache i (server.cache i ++ [fname]) }

theorem fetch_cases (h : fetch s i fname = some s') :
    ∃ data, s.server.contents fname = some data ∧
      s' = State.setCache { s with server := s.server.register i fname } i
        ((s.clients i).cache.put fname data false 0) := by
  unfold fetch at h
  obtain ⟨⟨t, data⟩, hget, hput⟩ := Option.bind_eq_some_iff.mp h
  obtain ⟨data', hcontents, heq⟩ := Option.map_eq_some_iff.mp hget
  obtain ⟨rfl, rfl⟩ := Prod.mk.inj heq
  obtain ⟨cache, hcache, rfl⟩ := onCache_eq_some.mp hput
  exact ⟨data', hcontents, by rw [← Option.some.inj hcache]; rfl⟩

/-- An open finds a valid copy, or fetches the file. -/
theorem getfile_cases (h : getfile s i fname = some s') :
    (∃ e, (s.clients i).cache fname = some e ∧ e.valid = true ∧
      s' = s.setCache i (Function.update (s.clients i).cache fname
        (some { e with refcnt := e.refcnt + 1 }))) ∨
    (∃ data, s.server.contents fname = some data ∧
      (∀ e, (s.clients i).cache fname = some e → e.valid = false) ∧
      s' = State.setCache { s with server := s.server.register i fname } i
        (Function.update (s.clients i).cache fname (some ⟨data, false, 1, true⟩))) := by
  unfold getfile at h
  obtain ⟨t, hlocal, hincref⟩ := Option.bind_eq_some_iff.mp h
  obtain ⟨cache, hcache, rfl⟩ := onCache_eq_some.mp hincref
  obtain ⟨e', he', rfl⟩ := Option.map_eq_some_iff.mp hcache
  have hfetched : fetch s i fname = some t →
      (∀ e, (s.clients i).cache fname = some e → e.valid = false) → ∃ data,
      s.server.contents fname = some data ∧
      (∀ e, (s.clients i).cache fname = some e → e.valid = false) ∧
      t.setCache i (Function.update (t.clients i).cache fname
        (some { e' with refcnt := e'.refcnt + 1 })) =
      State.setCache { s with server := s.server.register i fname } i
        (Function.update (s.clients i).cache fname (some ⟨data, false, 1, true⟩)) := by
    intro hfetch hstale
    obtain ⟨data, hcontents, rfl⟩ := fetch_cases hfetch
    refine ⟨data, hcontents, hstale, ?_⟩
    rw [setCache_cache_self, Cache.put, Function.update_self] at he'
    obtain rfl := Option.some.inj he'
    rw [setCache_cache_self, setCache_setCache, Cache.put, Function.update_idem]
    rfl
  split at hlocal
  · rename_i item hitem
    split at hlocal
    · rename_i hvalid
      obtain rfl := Option.some.inj hlocal
      obtain rfl := Option.some.inj (hitem.symm.trans he')
      exact Or.inl ⟨item, hitem, hvalid, rfl⟩
    · rename_i hinvalid
      refine Or.inr (hfetched hlocal fun e he => ?_)
      obtain rfl := Option.some.inj (hitem.symm.trans he)
      exact Bool.not_eq_true _ ▸ hinvalid
  · rename_i hnone
    exact Or.inr (hfetched hlocal fun e he => nomatch hnone.symm.trans he)

theorem write_cases {fd : ℕ} (h : perform g s i (.micro_write fd) = some s') :
    ∃ fname e, (s.clients i).fd.lookup g fd = some fname ∧ (s.clients i).cache fname = some e ∧
      s' = State.setCache { s with value := s.value + 1 } i
        (Function.update (s.clients i).cache fname
          (some { e with data := s.value, dirty := true })) := by
  obtain ⟨fname, hlookup, h⟩ := Option.bind_eq_some_iff.mp h
  obtain ⟨e, he, h⟩ := Option.bind_eq_some_iff.mp h
  obtain ⟨cache, hcache, rfl⟩ := onCache_eq_some.mp h
  obtain ⟨e', he', rfl⟩ := Option.map_eq_some_iff.mp hcache
  obtain rfl := Option.some.inj (he.symm.trans he')
  exact ⟨fname, e, hlookup, he, rfl⟩

theorem putfile_cases {value : ℕ} (h : putfile s i fname value = some s') :
    ∃ e, (s.clients i).cache fname = some e ∧ (s.server.contents fname).isSome ∧
      s' = (s.stored i fname value).setCache i (Function.update (s.clients i).cache fname
        (some { e with dirty := false, valid := true })) := by
  obtain ⟨t, hput, h⟩ := Option.bind_eq_some_iff.mp h
  obtain ⟨u, hclean, h⟩ := Option.bind_eq_some_iff.mp h
  unfold State.serverPut at hput
  split at hput
  · rename_i hknown
    obtain rfl := Option.some.inj hput
    obtain ⟨cache, hcache, rfl⟩ := onCache_eq_some.mp hclean
    obtain ⟨cache', hcache', rfl⟩ := onCache_eq_some.mp h
    change Cache.setclean ((s.stored i fname value).clients i).cache fname = some cache at hcache
    rw [stored_self] at hcache
    obtain ⟨e, he, rfl⟩ := Option.map_eq_some_iff.mp hcache
    obtain ⟨e', he', rfl⟩ := Option.map_eq_some_iff.mp hcache'
    rw [setCache_cache_self, Function.update_self] at he'
    obtain rfl := Option.some.inj he'
    refine ⟨e, he, hknown, ?_⟩
    rw [setCache_cache_self, setCache_setCache, Function.update_idem]
    rfl
  · exact nomatch hput

/-- A close of a dirty copy stores it; the copy goes when it is invalid and was
open once. -/
theorem close_cases {fd : ℕ} (h : perform g s i (.micro_close fd) = some s') :
    ∃ fname e, (s.clients i).fd.lookup g fd = some fname ∧ (s.clients i).cache fname = some e ∧
      ((e.dirty = true ∧ (s.server.contents fname).isSome ∧
        s' = (s.stored i fname e.data).setCache i (Function.update (s.clients i).cache fname
          (some ⟨e.data, false, e.refcnt - 1, true⟩))) ∨
      (e.dirty = false ∧ s' = s.setCache i (Function.update (s.clients i).cache fname
        (if e.valid = false ∧ e.refcnt - 1 = 0 then none
          else some { e with refcnt := e.refcnt - 1 })))) := by
  obtain ⟨fname, hlookup, h⟩ := Option.bind_eq_some_iff.mp h
  obtain ⟨e, he, h⟩ := Option.bind_eq_some_iff.mp h
  obtain ⟨dirty, hdirty, h⟩ := Option.bind_eq_some_iff.mp h
  obtain ⟨t, hstore, h⟩ := Option.bind_eq_some_iff.mp h
  obtain ⟨u, hdecref, h⟩ := Option.bind_eq_some_iff.mp h
  obtain ⟨cache, hcache, rfl⟩ := onCache_eq_some.mp hdecref
  obtain ⟨cache', hcache', rfl⟩ := onCache_eq_some.mp h
  obtain ⟨e₁, he₁, rfl⟩ := Option.map_eq_some_iff.mp hcache
  obtain ⟨e₂, he₂, rfl⟩ := Option.map_eq_some_iff.mp hcache'
  rw [setCache_cache_self, Function.update_self] at he₂
  obtain rfl := Option.some.inj he₂
  rw [Cache.isdirty, he] at hdirty
  obtain rfl := Option.some.inj hdirty
  refine ⟨fname, e, hlookup, he, ?_⟩
  rw [setCache_cache_self, setCache_setCache, Function.update_idem]
  cases hd : e.dirty with
  | true =>
      rw [hd, if_pos rfl] at hstore
      obtain ⟨e', he', hknown, rfl⟩ := putfile_cases hstore
      obtain rfl := Option.some.inj (he.symm.trans he')
      rw [setCache_cache_self, Function.update_self] at he₁
      obtain rfl := Option.some.inj he₁
      refine Or.inl ⟨rfl, hknown, ?_⟩
      rw [setCache_cache_self, setCache_setCache, Function.update_idem, Function.update_idem,
        if_neg fun hgone => Bool.noConfusion hgone.1]
  | false =>
      rw [hd, if_neg Bool.false_ne_true] at hstore
      obtain rfl := Option.some.inj hstore
      obtain rfl := Option.some.inj (he.symm.trans he₁)
      obtain ⟨data, dirty, refcnt, valid⟩ := e
      obtain rfl : dirty = false := hd
      refine Or.inr ⟨rfl, ?_⟩
      split <;> rfl

/-! ## The invariant -/

/-- A callback reaches every copy, and a valid and clean copy is current. -/
structure Coherent (s : State n) : Prop where
  registered : ∀ i f e, (s.clients i).cache f = some e → f ∈ s.server.cache i
  current : ∀ i f e, (s.clients i).cache f = some e → e.valid = true → e.dirty = false →
    s.server.contents f = some e.data

/-- One client replaces or drops one copy. -/
theorem Coherent.setEntry (h : Coherent s) {o : Option Entry}
    (hregistered : ∀ e, o = some e → fname ∈ s.server.cache i)
    (hcurrent : ∀ e, o = some e → e.valid = true → e.dirty = false →
      s.server.contents fname = some e.data) :
    Coherent (s.setCache i (Function.update (s.clients i).cache fname o)) := by
  have hcopy : ∀ j f e, ((s.setCache i (Function.update (s.clients i).cache fname o)).clients
      j).cache f = some e → (j = i ∧ f = fname ∧ o = some e) ∨ (s.clients j).cache f = some e := by
    intro j f e he
    rw [setEntry_cache] at he
    split at he
    · rename_i hself
      exact Or.inl ⟨hself.1, hself.2, he⟩
    · exact Or.inr he
  refine ⟨fun j f e he => ?_, fun j f e he => ?_⟩
  · obtain ⟨rfl, rfl, ho⟩ | he := hcopy j f e he
    · exact hregistered e ho
    · exact h.registered j f e he
  · obtain ⟨rfl, rfl, ho⟩ | he := hcopy j f e he
    · exact hcurrent e ho
    · exact h.current j f e he

theorem register_cache_sub (server : Server n) {k : Fin n} (h : f ∈ server.cache k) :
    f ∈ (server.register i fname).cache k := by
  unfold Server.register
  dsimp only
  split
  · exact h
  · by_cases hk : k = i
    · subst hk
      rw [Function.update_self]
      exact List.mem_append_left _ h
    · rwa [Function.update_of_ne hk]

theorem register_self (server : Server n) : fname ∈ (server.register i fname).cache i := by
  unfold Server.register
  dsimp only
  split
  · rename_i h
    exact List.contains_iff_mem.mp h
  · rw [Function.update_self]
    exact List.mem_append_right _ List.mem_cons_self

theorem Coherent.register (h : Coherent s) :
    Coherent { s with server := s.server.register i fname } :=
  ⟨fun j f e he => register_cache_sub _ (h.registered j f e he), h.current⟩

/-- The copies of the other clients after a store. -/
theorem stored_cache {value : ℕ} (hj : j ≠ i)
    (he : ((s.stored i fname value).clients j).cache f = some e) :
    ∃ e', (s.clients j).cache f = some e' ∧
      e = if f = fname ∧ fname ∈ s.server.cache j then { e' with valid := false } else e' := by
  unfold State.stored State.callback at he
  dsimp only at he
  split at he
  · rename_i hcalled
    obtain ⟨e', he', rfl⟩ := invalidate_eq_some.mp he
    refine ⟨e', he', ?_⟩
    simp only [List.contains_iff_mem.mp hcalled.1, and_true]
  · rename_i hquiet
    refine ⟨e, he, (if_neg fun hcalled => hquiet ⟨?_, hj⟩).symm⟩
    exact List.contains_iff_mem.mpr hcalled.2

theorem Coherent.store (h : Coherent s) (hregistered : fname ∈ s.server.cache i) {value : ℕ}
    {refcnt : ℤ} : Coherent ((s.stored i fname value).setCache i
      (Function.update (s.clients i).cache fname (some ⟨value, false, refcnt, true⟩))) := by
  have hcopy : ∀ j f e, (((s.stored i fname value).setCache i (Function.update (s.clients i).cache
      fname (some ⟨value, false, refcnt, true⟩))).clients j).cache f = some e →
      (f = fname ∧ j = i ∧ e = ⟨value, false, refcnt, true⟩) ∨
      (f = fname ∧ j ≠ i ∧ fname ∈ s.server.cache j ∧ e.valid = false) ∨
      (f ≠ fname ∧ (s.clients j).cache f = some e) := by
    intro j f e he
    rw [setCache_cache] at he
    split at he
    · rename_i hj
      subst hj
      by_cases hf : f = fname
      · subst hf
        rw [Function.update_self] at he
        exact Or.inl ⟨rfl, rfl, (Option.some.inj he).symm⟩
      · rw [Function.update_of_ne hf] at he
        exact Or.inr (Or.inr ⟨hf, he⟩)
    · rename_i hj
      obtain ⟨e', he', rfl⟩ := stored_cache hj he
      by_cases hf : f = fname
      · subst hf
        have hlisted := h.registered j f e' he'
        refine Or.inr (Or.inl ⟨rfl, hj, hlisted, ?_⟩)
        rw [if_pos ⟨rfl, hlisted⟩]
      · refine Or.inr (Or.inr ⟨hf, ?_⟩)
        rwa [if_neg fun hsame => hf hsame.1]
  refine ⟨fun j f e he => ?_, fun j f e he hvalid hclean => ?_⟩
  · obtain ⟨rfl, rfl, -⟩ | ⟨rfl, -, hlisted, -⟩ | ⟨-, he⟩ := hcopy j f e he
    · exact hregistered
    · exact hlisted
    · exact h.registered j f e he
  · obtain ⟨rfl, rfl, rfl⟩ | ⟨-, -, -, hinvalid⟩ | ⟨hf, he⟩ := hcopy j f e he
    · exact Function.update_self _ _ _
    · exact absurd hvalid (by rw [hinvalid]; exact Bool.false_ne_true)
    · rw [setCache_server, stored_contents, Function.update_of_ne hf]
      exact h.current j f e he hvalid hclean

/-! ## Every step keeps it -/

theorem getfile_coherent (h : Coherent s) (hopen : getfile s i fname = some s') : Coherent s' := by
  obtain ⟨e, he, -, rfl⟩ | ⟨data, hdata, -, rfl⟩ := getfile_cases hopen
  · refine h.setEntry (fun _ _ => h.registered i fname e he) fun e' he' => ?_
    obtain rfl := Option.some.inj he'
    exact h.current i fname e he
  · refine h.register.setEntry (fun _ _ => register_self _) fun e' he' _ _ => ?_
    obtain rfl := Option.some.inj he'
    exact hdata

theorem perform_coherent {act : Act} (h : Coherent s) (hact : perform g s i act = some s') :
    Coherent s' := by
  cases act with
  | micro_open fname fd => exact getfile_coherent h hact
  | micro_read fd =>
      obtain ⟨_, -, hact⟩ := Option.bind_eq_some_iff.mp hact
      obtain ⟨_, -, hact⟩ := Option.bind_eq_some_iff.mp hact
      exact Option.some.inj hact ▸ h
  | micro_write fd =>
      obtain ⟨fname, e, -, he, rfl⟩ := write_cases hact
      have hnext : Coherent { s with value := s.value + 1 } := ⟨h.registered, h.current⟩
      refine hnext.setEntry (fun _ _ => h.registered i fname e he) fun e' he' _ hclean => ?_
      obtain rfl := Option.some.inj he'
      exact nomatch hclean
  | micro_close fd =>
      obtain ⟨fname, e, -, he, ⟨-, -, rfl⟩ | ⟨hclean, rfl⟩⟩ := close_cases hact
      · exact h.store (h.registered i fname e he)
      · refine h.setEntry (fun _ _ => h.registered i fname e he) fun e' he' hvalid _ => ?_
        split at he'
        · exact nomatch he'
        · obtain rfl := Option.some.inj he'
          exact h.current i fname e he hvalid hclean

/-- A step marks the client done or performs its next action. -/
theorem step_cases (h : step g s i = some s') :
    ((s.clients i).done = true ∧ s' = s) ∨
    ((s.clients i).done = false ∧ (s.clients i).acts[(s.clients i).acnt]? = none ∧
      s' = { s with clients := Function.update s.clients i { s.clients i with done := true } }) ∨
    ∃ act t, (s.clients i).done = false ∧ (s.clients i).acts[(s.clients i).acnt]? = some act ∧
      perform g s i act = some t ∧ s' = t.advance i := by
  obtain ⟨⟨t, rc⟩, hrc, rfl⟩ := Option.map_eq_some_iff.mp h
  unfold stepRc at hrc
  dsimp only at hrc
  split at hrc
  · rename_i hdone
    obtain ⟨rfl, -⟩ := Prod.mk.inj (Option.some.inj hrc)
    exact Or.inl ⟨hdone, rfl⟩
  · rename_i hrunning
    rw [Bool.not_eq_true] at hrunning
    split at hrc
    · rename_i hend
      obtain ⟨rfl, -⟩ := Prod.mk.inj (Option.some.inj hrc)
      exact Or.inr (Or.inl ⟨hrunning, hend, rfl⟩)
    · rename_i act hact
      obtain ⟨t, hperform, hrc⟩ := Option.bind_eq_some_iff.mp hrc
      obtain ⟨rfl, -⟩ := Prod.mk.inj (Option.some.inj hrc)
      exact Or.inr (Or.inr ⟨act, t, hrunning, hact, hperform, rfl⟩)

theorem step_of_perform {act : Act} {t : State n} (hrunning : (s.clients i).done = false)
    (hact : (s.clients i).acts[(s.clients i).acnt]? = some act)
    (hperform : perform g s i act = some t) : step g s i = some (t.advance i) := by
  simp [step, stepRc, hrunning, hact, hperform]

theorem Coherent.congr (h : Coherent s) (hserver : s'.server = s.server)
    (hcache : ∀ j, (s'.clients j).cache = (s.clients j).cache) : Coherent s' := by
  refine ⟨fun j f e he => ?_, fun j f e he => ?_⟩
  · rw [hcache] at he
    exact hserver ▸ h.registered j f e he
  · rw [hcache] at he
    exact hserver ▸ h.current j f e he

/-- A field of one client other than its cache changes. -/
theorem update_cache_congr (s : State n) {me : Client} (hme : me.cache = (s.clients i).cache)
    (j : Fin n) :
    (Function.update s.clients i me j).cache = (s.clients j).cache := by
  by_cases hj : j = i
  · subst hj
    rw [Function.update_self, hme]
  · rw [Function.update_of_ne hj]

theorem advance_cache (j : Fin n) : ((s.advance i).clients j).cache = (s.clients j).cache := by
  dsimp only [State.advance]
  exact update_cache_congr s (by rfl) j

theorem step_coherent (h : Coherent s) (hstep : step g s i = some s') : Coherent s' := by
  obtain ⟨-, rfl⟩ | ⟨-, -, rfl⟩ | ⟨act, t, -, -, hact, rfl⟩ := step_cases hstep
  · exact h
  · exact h.congr rfl (update_cache_congr s rfl)
  · exact (perform_coherent h hact).congr rfl advance_cache

theorem init_coherent {c : Config n} {acts : Fin n → List Act} (hinit : c.init acts = some s) :
    Coherent s := by
  unfold Config.init at hinit
  split at hinit
  · obtain rfl := Option.some.inj hinit
    exact ⟨fun _ _ _ he => (nomatch he), fun _ _ _ he => (nomatch he)⟩
  · exact nomatch hinit

theorem reach_coherent {c : Config n} {acts : Fin n → List Act} {s₀ : State n}
    (hinit : c.init acts = some s₀) (hreach : Reach (step c.i) anyStep s₀ s) : Coherent s :=
  hreach.invariant (init_coherent hinit) fun _ _ _ h _ hstep => step_coherent h hstep

theorem getfile_valid (he : (s.clients i).cache fname = some e) (hvalid : e.valid = true) :
    getfile s i fname = some (s.setCache i (Function.update (s.clients i).cache fname
      (some { e with refcnt := e.refcnt + 1 }))) := by
  unfold getfile
  rw [he]
  simp [hvalid, State.onCache, Cache.incref, Cache.replace, he]

/-- A valid and clean copy is current in every reached state, and an open that
uses it sees what a fetch would return. -/
theorem cache_coherent (c : Config n) (acts : Fin n → List Act) {s₀ : State n}
    (hinit : c.init acts = some s₀) (hreach : Reach (step c.i) anyStep s₀ s) :
    (∀ i f e, (s.clients i).cache f = some e → e.valid = true → e.dirty = false →
      s.server.contents f = some e.data) ∧
    ∀ i f fd e, (s.clients i).done = false →
      (s.clients i).acts[(s.clients i).acnt]? = some (.micro_open f fd) →
      (s.clients i).cache f = some e → e.valid = true → e.dirty = false →
      ∃ s' e', step c.i s i = some s' ∧ (s'.clients i).cache f = some e' ∧
        some e'.data = (s.serverGet i f).map Prod.snd := by
  have hcoherent := reach_coherent hinit hreach
  refine ⟨hcoherent.current, fun i f fd e hrunning hact he hvalid hclean => ?_⟩
  refine ⟨_, { e with refcnt := e.refcnt + 1 },
    step_of_perform hrunning hact (getfile_valid he hvalid), ?_, ?_⟩
  · rw [advance_cache, setCache_cache_self, Function.update_self]
  · rw [State.serverGet, hcoherent.current i f e he hvalid hclean]
    rfl

def twoClients : Config 2 := ⟨1, ⟨Nat.zero_lt_one, Nat.succ_le_succ (Nat.zero_le 25)⟩, true, true⟩

/-- The first client opens the same file a second time after the other stored it. -/
def reopening : Fin 2 → List Act := fun i =>
  if i = 0 then [.micro_open 'a' 1, .micro_open 'a' 2, .micro_close 1, .micro_read 2]
  else [.micro_open 'a' 1, .micro_write 1, .micro_close 1,
    .micro_open 'a' 2, .micro_write 2, .micro_close 2]

theorem cache_coherent_refetched : ∃ s₀ s e, twoClients.init reopening = some s₀ ∧
    run (step twoClients.i) s₀ [0, 1, 1, 1, 0] = some s ∧ (s.clients 0).cache 'a' = some e ∧
    s.server.contents 'a' = some e.data := by
  have hcopy : ((twoClients.init reopening).bind fun s₀ =>
      (run (step twoClients.i) s₀ [0, 1, 1, 1, 0]).bind fun s => (s.clients 0).cache 'a') =
      some ⟨1, false, 1, true⟩ := by
    decide +kernel
  obtain ⟨s₀, hinit, hcopy⟩ := Option.bind_eq_some_iff.mp hcopy
  obtain ⟨s, hrun, he⟩ := Option.bind_eq_some_iff.mp hcopy
  exact ⟨s₀, s, _, hinit, hrun, he,
    (cache_coherent twoClients reopening hinit (reach_of_run_anyStep _ hrun)).1 0 'a' _ he rfl rfl⟩

end OsLabs.Afs
