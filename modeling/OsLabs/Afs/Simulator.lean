import Mathlib

/-!
# The AFS simulator `afs.py`

`none` as the result of a method stands for a failed `assert` or `zassert` and
for a missing dictionary key; each of them ends the program.
-/

namespace OsLabs.Afs

/-- A file is named by one letter. -/
abbrev FileName := Char

/-! ## File descriptors -/

/-- The table of a `filedesc` object; `none` is the empty name of a free descriptor. -/
abbrev FdTable := ℕ → Option FileName

def fdMax : ℕ := 1024

/-- `alloc` with a given descriptor. -/
def FdTable.alloc (fd : FdTable) (fname : FileName) (sfd : ℕ) : Option FdTable :=
  if sfd < fdMax ∧ fd sfd = none then some (Function.update fd sfd (some fname)) else none

/-- The range check looks at the variable `i` of the main program, not at `sfd`. -/
def FdTable.lookup (fd : FdTable) (i : ℤ) (sfd : ℕ) : Option FileName :=
  if 0 ≤ i ∧ i < fdMax then
    if sfd < fdMax then fd sfd else none
  else none

/-! ## The client cache -/

structure Entry where
  data : ℕ
  dirty : Bool
  refcnt : ℤ
  valid : Bool
  deriving DecidableEq, Repr

abbrev Cache := FileName → Option Entry

def Cache.put (cache : Cache) (fname : FileName) (data : ℕ) (dirty : Bool) (refcnt : ℤ) : Cache :=
  Function.update cache fname (some ⟨data, dirty, refcnt, true⟩)

/-- The methods that replace the record of a cached file. -/
def Cache.replace (f : Entry → Entry) (cache : Cache) (fname : FileName) : Option Cache :=
  (cache fname).map fun e => Function.update cache fname (some (f e))

def Cache.update (cache : Cache) (fname : FileName) (data : ℕ) : Option Cache :=
  cache.replace (fun e => { e with data := data, dirty := true }) fname

def Cache.incref (cache : Cache) (fname : FileName) : Option Cache :=
  cache.replace (fun e => { e with refcnt := e.refcnt + 1 }) fname

def Cache.decref (cache : Cache) (fname : FileName) : Option Cache :=
  cache.replace (fun e => { e with refcnt := e.refcnt - 1 }) fname

def Cache.setclean (cache : Cache) (fname : FileName) : Option Cache :=
  cache.replace (fun e => { e with dirty := false }) fname

def Cache.setvalid (cache : Cache) (fname : FileName) : Option Cache :=
  cache.replace (fun e => { e with valid := true }) fname

def Cache.isdirty (cache : Cache) (fname : FileName) : Option Bool :=
  (cache fname).map Entry.dirty

def Cache.invalidate (cache : Cache) (fname : FileName) : Cache :=
  match cache fname with
  | none => cache
  | some e => Function.update cache fname (some { e with valid := false })

def Cache.checkvalid (cache : Cache) (fname : FileName) : Option Cache :=
  (cache fname).map fun e =>
    if e.valid = false ∧ e.refcnt = 0 then Function.update cache fname none else cache

/-! ## Clients and the server -/

inductive Act
  | micro_open (fname : FileName) (fd : ℕ)
  | micro_read (fd : ℕ)
  | micro_write (fd : ℕ)
  | micro_close (fd : ℕ)
  deriving DecidableEq, Repr

structure Client where
  acts : List Act
  fd : FdTable
  cache : Cache
  done : Bool
  acnt : ℕ

/-- The server's files and, for each client, the files it cached. -/
structure Server (n : ℕ) where
  contents : FileName → Option ℕ
  cache : Fin n → List FileName

structure State (n : ℕ) where
  server : Server n
  clients : Fin n → Client
  value : ℕ

variable {n : ℕ}

def State.setCache (s : State n) (i : Fin n) (cache : Cache) : State n :=
  { s with clients := Function.update s.clients i { s.clients i with cache } }

/-- A method of client `i`'s cache. -/
def State.onCache (s : State n) (i : Fin n) (method : Cache → Option Cache) : Option (State n) :=
  (method (s.clients i).cache).map (s.setCache i)

/-- `server.get` -/
def State.serverGet (s : State n) (client : Fin n) (fname : FileName) : Option (State n × ℕ) :=
  (s.server.contents fname).map fun data =>
    ({ s with server.cache := if (s.server.cache client).contains fname then s.server.cache else
        Function.update s.server.cache client (s.server.cache client ++ [fname]) }, data)

/-- The callbacks of `server.put`: one round of the loop touches no other client. -/
def State.callback (s : State n) (client : Fin n) (fname : FileName) : State n :=
  { s with clients := fun c =>
      if (s.server.cache c).contains fname ∧ c ≠ client then
        { s.clients c with cache := (s.clients c).cache.invalidate fname }
      else s.clients c }

/-- `server.put` -/
def State.serverPut (s : State n) (client : Fin n) (fname : FileName) (value : ℕ) :
    Option (State n) :=
  if (s.server.contents fname).isSome then
    some (State.callback { s with
      server.contents := Function.update s.server.contents fname (some value) } client fname)
  else none

/-- The branch of `getfile` without a local copy. -/
def fetch (s : State n) (i : Fin n) (fname : FileName) : Option (State n) := do
  let (s, data) ← s.serverGet i fname
  s.onCache i fun cache => some (cache.put fname data false 0)

def getfile (s : State n) (i : Fin n) (fname : FileName) : Option (State n) := do
  let s ← (match (s.clients i).cache fname with
    | some item => if item.valid then some s else fetch s i fname
    | none => fetch s i fname : Option (State n))
  s.onCache i (·.incref fname)

def putfile (s : State n) (i : Fin n) (fname : FileName) (value : ℕ) : Option (State n) := do
  let s ← s.serverPut i fname value
  let s ← s.onCache i (·.setclean fname)
  s.onCache i (·.setvalid fname)

/-- The body of `step` for one action; `iGlobal` is the main program's `i`. -/
def perform (iGlobal : ℤ) (s : State n) (i : Fin n) : Act → Option (State n)
  | .micro_open fname _ => getfile s i fname
  | .micro_read fd => do
      let fname ← (s.clients i).fd.lookup iGlobal fd
      let _ ← (s.clients i).cache fname
      some s
  | .micro_write fd => do
      let fname ← (s.clients i).fd.lookup iGlobal fd
      let _ ← (s.clients i).cache fname
      let v := s.value
      State.onCache { s with value := v + 1 } i (·.update fname v)
  | .micro_close fd => do
      let fname ← (s.clients i).fd.lookup iGlobal fd
      let contents ← (s.clients i).cache fname
      let dirty ← (s.clients i).cache.isdirty fname
      let s ← (if dirty then putfile s i fname contents.data else some s : Option (State n))
      let s ← s.onCache i (·.decref fname)
      s.onCache i (·.checkvalid fname)

/-- `self.acnt += 1` -/
def State.advance (s : State n) (i : Fin n) : State n :=
  let me := s.clients i
  { s with clients := Function.update s.clients i { me with acnt := me.acnt + 1 } }

/-- `client.step` with its return value. -/
def stepRc (iGlobal : ℤ) (s : State n) (i : Fin n) : Option (State n × ℤ) :=
  let me := s.clients i
  if me.done then some (s, -1)
  else match me.acts[me.acnt]? with
    | none => some ({ s with clients := Function.update s.clients i { me with done := true } }, 0)
    | some act => do
        let s ← perform iGlobal s i act
        some (s.advance i, 1)

def step (iGlobal : ℤ) (s : State n) (i : Fin n) : Option (State n) :=
  (stepRc iGlobal s i).map Prod.fst

/-! ## The main program -/

structure Config (n : ℕ) where
  numfiles : ℕ
  numfiles_ok : 0 < numfiles ∧ numfiles ≤ 26
  /-- Whether `actions` and `schedule` are given. -/
  actions : Bool
  schedule : Bool

/-- The value the variable `i` has while the schedule runs. -/
def Config.i (c : Config n) : ℤ := if c.actions && !c.schedule then n else n - 1

/-- The descriptors of a client are allocated when its actions are unpacked. -/
def unpack (fd : FdTable) : List Act → Option FdTable
  | [] => some fd
  | .micro_open fname sfd :: acts => do
      let fd ← fd.alloc fname sfd
      unpack fd acts
  | _ :: acts => unpack fd acts

/-- `list(string.ascii_lowercase)[0:numfiles]` -/
def Config.filelist (c : Config n) : List FileName :=
  "abcdefghijklmnopqrstuvwxyz".toList.take c.numfiles

def Config.init (c : Config n) (acts : Fin n → List Act) : Option (State n) :=
  if ∀ i, (unpack (fun _ => none) (acts i)).isSome then
    some {
      server := ⟨fun f => c.filelist.idxOf? f, fun _ => []⟩
      clients := fun i =>
        ⟨acts i, (unpack (fun _ => none) (acts i)).getD fun _ => none, fun _ => none, false, 0⟩
      value := c.numfiles }
  else none

end OsLabs.Afs
