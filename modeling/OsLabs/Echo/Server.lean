import Mathlib
import OsLabs.Rio.Csapp

/-!
# The event loop of `echoservers.c`

One step is one round of the loop in `main`. `none` stands for an exit of the
server, and for a descriptor that does not fit in an `fd_set`.
-/

namespace OsLabs.Echo

open OsLabs.Rio

def FD_SETSIZE : ℕ := 1024

def MAXLINE : ℕ := 8192

structure Pool where
  maxfd : ℤ
  read_set : Finset ℤ
  ready_set : Finset ℤ
  nready : ℤ
  maxi : ℤ
  clientfd : ℕ → ℤ
  clientrio : ℕ → RioT

/-- The server's end of a connection: the stream the client sends, what is read of
it, and the bytes written back. -/
structure Conn where
  stream : List Byte
  src : Source
  echoed : List Byte
  deriving DecidableEq, Repr

structure State where
  listenfd : ℤ
  pool : Pool
  conns : ℤ → Option Conn
  closed : List Conn

/-- The pool is static memory: the buffers hold zeros. -/
def initPool (listenfd : ℤ) : Pool where
  maxfd := listenfd
  read_set := {listenfd}
  ready_set := ∅
  nready := 0
  maxi := -1
  clientfd := fun _ => -1
  clientrio := fun _ => readinitb (List.replicate RIO_BUFSIZE 0)

def init (listenfd : ℤ) : State := ⟨listenfd, initPool listenfd, fun _ => none, []⟩

/-- `FD_SET` -/
def fdSet (set : Finset ℤ) (fd : ℤ) : Option (Finset ℤ) :=
  if 0 ≤ fd ∧ fd < FD_SETSIZE then some (insert fd set) else none

def addClient (connfd : ℤ) (p : Pool) : Option Pool := do
  let p := { p with nready := p.nready - 1 }
  let i ← (List.range FD_SETSIZE).find? fun i => p.clientfd i < 0
  let read_set ← fdSet p.read_set connfd
  some { p with
    clientfd := Function.update p.clientfd i connfd
    clientrio := Function.update p.clientrio i (readinitb (p.clientrio i).buf)
    read_set
    maxfd := if connfd > p.maxfd then connfd else p.maxfd
    maxi := if i > p.maxi then i else p.maxi }

/-- The body of the loop of `check_clients`. The reader works on a copy `rio` of the
buffer in the pool. -/
def checkClient (s : State) (i : ℕ) : Option State :=
  let p := s.pool
  let connfd := p.clientfd i
  let rio := p.clientrio i
  if connfd > 0 ∧ connfd ∈ p.ready_set then do
    let p := { p with nready := p.nready - 1 }
    let conn ← s.conns connfd
    let r ← Csapp.readlineb rio conn.src MAXLINE
    if r.ret < 0 then none
    else if r.ret ≠ 0 then
      let buf := r.stored ++ [0]
      let conn := { conn with src := r.src, echoed := conn.echoed ++ buf.take r.ret.toNat }
      some { s with pool := p, conns := Function.update s.conns connfd (some conn) }
    else
      some { s with
        pool := { p with
          read_set := p.read_set.erase connfd
          clientfd := Function.update p.clientfd i (-1) }
        conns := Function.update s.conns connfd none
        closed := s.closed ++ [{ conn with src := r.src }] }
  else some s

/-- The loop of `check_clients` over the slots that are left. -/
def checkFrom : List ℕ → State → Option State
  | [], s => some s
  | i :: is, s =>
      if i ≤ s.pool.maxi ∧ s.pool.nready > 0 then (checkClient s i).bind (checkFrom is) else some s

def checkClients (s : State) : Option State := checkFrom (List.range FD_SETSIZE) s

/-- What `select` reports, and the connection that `accept` returns when the listening
descriptor is ready: a fresh descriptor, the client's stream and how it arrives. -/
structure Event where
  ready : Finset ℤ
  connfd : ℤ
  stream : List Byte
  sched : List (Option ℕ)

def step (s : State) (ev : Event) : Option State := do
  let s := { s with pool := { s.pool with ready_set := ev.ready, nready := ev.ready.card } }
  let s ← (if s.listenfd ∈ s.pool.ready_set then
      (addClient ev.connfd s.pool).map fun pool =>
        { s with
          pool
          conns := Function.update s.conns ev.connfd
            (some ⟨ev.stream, ⟨ev.stream, ev.sched, []⟩, []⟩) }
    else some s : Option State)
  checkClients s

end OsLabs.Echo
