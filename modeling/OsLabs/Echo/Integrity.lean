import Mathlib
import OsLabs.Lib.Transition
import OsLabs.Rio.Csapp
import OsLabs.Echo.Server

/-!
# What the server echoes

The copy of the buffer is dropped after one line. A connection gets back exactly
what was read from it as long as no chunk goes on behind a newline.
-/

namespace OsLabs.Echo

open OsLabs.Transition OsLabs.CNumber OsLabs.Rio

variable {s s' : State} {conn : Conn}

/-! ## Streams of short lines -/

def ShortLines (stream : List Byte) : Prop :=
  ∃ lines : List (List Byte), stream = (lines.map (· ++ [newline])).flatten ∧
    ∀ l ∈ lines, newline ∉ l ∧ l.length + 1 < MAXLINE

/-- What is left of such a stream starts with the rest of a line. -/
theorem line_of_suffix {before rest : List Byte} (h : ShortLines (before ++ rest)) :
    rest = [] ∨ ∃ l s, newline ∉ l ∧ l.length + 1 < MAXLINE ∧ rest = l ++ newline :: s := by
  obtain ⟨lines, hstream, hshort⟩ := h
  induction lines generalizing before with
  | nil => exact Or.inl (List.append_eq_nil_iff.mp hstream).2
  | cons line lines ih =>
      rw [List.map_cons, List.flatten_cons, List.append_assoc, List.singleton_append] at hstream
      obtain ⟨hnewline, hlen⟩ := hshort line List.mem_cons_self
      obtain ⟨t, rfl, hrest⟩ | ⟨t, -, hrest⟩ := List.append_eq_append_iff.mp hstream
      · -- the suffix starts in the first line
        refine Or.inr ⟨t, _, fun hmem => hnewline (List.mem_append_right _ hmem), ?_, hrest⟩
        rw [List.length_append] at hlen
        omega
      · cases t with
        | nil => exact Or.inr ⟨[], _, List.not_mem_nil, by rw [List.length_nil]; omega, hrest.symm⟩
        | cons c t =>
            exact ih (List.cons.inj hrest).2.symm fun l hl => hshort l (List.mem_cons_of_mem _ hl)

/-! ## One connection -/

/-- What is echoed against what was read. -/
structure Conn.Echoes (conn : Conn) : Prop where
  stream : conn.stream = conn.src.received.flatten ++ conn.src.rest
  length_le : conn.echoed.length ≤ conn.src.received.flatten.length
  eq_iff : conn.echoed = conn.src.received.flatten ↔
    ∀ chunk ∈ conn.src.received, newline ∉ chunk.dropLast

theorem append_eq_iff {a b : List Byte} (h : a.length ≤ b.length) (x u : List Byte) :
    a ++ x = b ++ (x ++ u) ↔ a = b ∧ u = [] := by
  refine ⟨fun heq => ?_, fun ⟨hab, hu⟩ => by rw [hab, hu, List.append_nil]⟩
  have hlen := congrArg List.length heq
  simp only [List.length_append] at hlen
  have hu : u = [] := List.length_eq_zero_iff.mp (by omega)
  rw [hu, List.append_nil] at heq
  exact ⟨List.append_cancel_right heq, hu⟩

theorem MAXLINE_le : (MAXLINE : ℤ) ≤ INT_MAX := by decide

theorem echoes_start (stream : List Byte) (sched : List (Option ℕ)) :
    Conn.Echoes ⟨stream, ⟨stream, sched, []⟩, []⟩ :=
  ⟨rfl, Nat.le_refl 0, fun _ _ h => absurd h List.not_mem_nil, fun _ => rfl⟩

/-- A ready connection gets one line, or it is at its end. -/
theorem Conn.Echoes.serve (h : conn.Echoes) (hshort : ShortLines conn.stream) {rio : RioT}
    (hbounds : rio.InBounds) (hempty : rio.cnt ≤ 0) :
    ∃ r, Csapp.readlineb rio conn.src MAXLINE = some r ∧ 0 ≤ r.ret ∧
      Conn.Echoes { conn with
        src := r.src, echoed := conn.echoed ++ (r.stored ++ [0]).take r.ret.toNat } ∧
      (r.ret = 0 → r.src.rest = [] ∧ Conn.Echoes { conn with src := r.src }) := by
  obtain hend | ⟨l, s, hl, hlen, hrest⟩ := line_of_suffix (h.stream ▸ hshort)
  · obtain ⟨r, hr, hret, hrest, hreceived⟩ :=
      readlineb_end (show 1 < MAXLINE by decide) hbounds hempty hend
    have hclosed : Conn.Echoes { conn with src := r.src } := by
      have hflat : r.src.received.flatten = conn.src.received.flatten := by
        rw [hreceived, List.flatten_append]
        exact List.append_nil _
      refine ⟨?_, ?_, ?_⟩ <;> dsimp only <;> rw [hflat]
      · rw [hrest, ← hend]
        exact h.stream
      · exact h.length_le
      · rw [h.eq_iff, hreceived]
        simp [or_imp, forall_and]
    refine ⟨r, hr, hret.ge, ?_, fun _ => ⟨hrest, hclosed⟩⟩
    rw [hret, Int.toNat_zero, List.take_zero, List.append_nil]
    exact hclosed
  · obtain ⟨r, chunks, hr, hstored, hret, hleft, hreading⟩ :=
      readlineb_line MAXLINE_le hl hlen hbounds hempty hrest
    refine ⟨r, hr, by omega, ?_, fun hzero => by omega⟩
    have hline : (r.stored ++ [0]).take r.ret.toNat = l ++ [newline] := by
      rw [hstored, hret, show ((l.length : ℤ) + 1).toNat = (l ++ [newline]).length by
        rw [List.length_append, List.length_singleton]; omega, List.take_left']
      rfl
    have hflat : r.src.received.flatten =
        conn.src.received.flatten ++ (l ++ [newline] ++ r.rp.unread) := by
      rw [hreading.received, List.flatten_append, hreading.bytes]
    have hle := h.length_le
    rw [hline]
    refine ⟨?_, ?_, ?_⟩
    · dsimp only
      rw [hflat, h.stream, hrest, ← hleft, remaining]
      simp only [List.append_assoc, List.cons_append, List.nil_append]
    · dsimp only
      rw [hflat]
      simp only [List.length_append]
      omega
    · dsimp only
      rw [hflat, hreading.received, List.forall_mem_append, ← h.eq_iff,
        ← hreading.unread_eq_nil_iff hl]
      exact append_eq_iff hle _ _

/-! ## The server -/

structure Served (s : State) : Prop where
  buffers : ∀ i, (s.pool.clientrio i).cnt ≤ 0 ∧ (s.pool.clientrio i).InBounds
  conns : ∀ fd conn, s.conns fd = some conn → ShortLines conn.stream → conn.Echoes
  closed : ∀ conn ∈ s.closed, ShortLines conn.stream → conn.Echoes ∧ conn.src.rest = []

theorem init_served (listenfd : ℤ) : Served (init listenfd) := by
  refine ⟨fun i => ?_, fun fd conn hconn => ?_, fun conn hconn => absurd hconn List.not_mem_nil⟩
  · exact ⟨Int.le_refl 0, readinitb_inBounds (List.replicate RIO_BUFSIZE 0)⟩
  · simp only [init, reduceCtorEq] at hconn

theorem Served.update (h : Served s) (pool : Pool) (hrio : pool.clientrio = s.pool.clientrio)
    (fd : ℤ) (o : Option Conn) (ho : ∀ conn, o = some conn → ShortLines conn.stream → conn.Echoes) :
    Served { s with pool, conns := Function.update s.conns fd o } := by
  refine ⟨fun i => ?_, fun fd' conn hconn => ?_, h.closed⟩
  · dsimp only
    rw [hrio]
    exact h.buffers i
  · dsimp only at hconn
    by_cases hfd : fd' = fd
    · subst hfd
      rw [Function.update_self] at hconn
      exact ho conn hconn
    · rw [Function.update_of_ne hfd] at hconn
      exact h.conns fd' conn hconn

theorem addClient_served (h : Served s) {connfd : ℤ} {pool : Pool}
    (hadd : addClient connfd s.pool = some pool) (i : ℕ) :
    (pool.clientrio i).cnt ≤ 0 ∧ (pool.clientrio i).InBounds := by
  unfold addClient at hadd
  simp only [Option.bind_eq_bind, Option.bind_eq_some_iff, Option.some.injEq] at hadd
  obtain ⟨slot, -, read_set, -, rfl⟩ := hadd
  dsimp only
  by_cases hi : i = slot
  · subst hi
    rw [Function.update_self]
    exact ⟨Int.le_refl 0, readinitb_inBounds _⟩
  · rw [Function.update_of_ne hi]
    exact h.buffers i

theorem checkClient_served (h : Served s) {i : ℕ} (hcheck : checkClient s i = some s') :
    Served s' := by
  unfold checkClient at hcheck
  dsimp only at hcheck
  split at hcheck
  · obtain ⟨conn, hconn, hcheck⟩ := Option.bind_eq_some_iff.mp hcheck
    obtain ⟨r, hr, hcheck⟩ := Option.bind_eq_some_iff.mp hcheck
    obtain ⟨hempty, hbounds⟩ := h.buffers i
    -- what the line reader does for a stream of short lines
    have hserve := fun hshort : ShortLines conn.stream =>
      (h.conns _ conn hconn hshort).serve hshort hbounds hempty
    split at hcheck
    · exact nomatch hcheck
    split at hcheck
    · obtain rfl := Option.some.inj hcheck
      refine h.update { s.pool with nready := s.pool.nready - 1 } rfl _ _
        fun conn' hconn' hshort => ?_
      obtain rfl := Option.some.inj hconn'
      obtain ⟨r', hr', -, hechoes, -⟩ := hserve hshort
      obtain rfl := Option.some.inj (hr.symm.trans hr')
      exact hechoes
    · rename_i hzero
      obtain rfl := Option.some.inj hcheck
      have hconns := h.update s.pool rfl (s.pool.clientfd i) none fun _ hnone => nomatch hnone
      refine ⟨hconns.buffers, hconns.conns, fun conn' hconn' hshort => ?_⟩
      obtain hconn' | hconn' := List.mem_append.mp hconn'
      · exact h.closed conn' hconn' hshort
      · obtain rfl := List.mem_singleton.mp hconn'
        obtain ⟨r', hr', -, -, hclosed⟩ := hserve hshort
        obtain rfl := Option.some.inj (hr.symm.trans hr')
        exact (hclosed (not_not.mp hzero)).symm
  · exact Option.some.inj hcheck ▸ h

theorem checkFrom_served {is : List ℕ} (h : Served s) (hcheck : checkFrom is s = some s') :
    Served s' := by
  induction is generalizing s with
  | nil => exact Option.some.inj hcheck ▸ h
  | cons i is ih =>
      unfold checkFrom at hcheck
      split at hcheck
      · obtain ⟨t, hclient, hrest⟩ := Option.bind_eq_some_iff.mp hcheck
        exact ih (checkClient_served h hclient) hrest
      · exact Option.some.inj hcheck ▸ h

theorem step_served {ev : Event} (h : Served s) (hstep : step s ev = some s') : Served s' := by
  obtain ⟨t, haccept, hcheck⟩ := Option.bind_eq_some_iff.mp hstep
  refine checkFrom_served ?_ hcheck
  have hselect : Served { s with pool :=
      { s.pool with ready_set := ev.ready, nready := ev.ready.card } } :=
    ⟨h.buffers, h.conns, h.closed⟩
  split at haccept
  · obtain ⟨pool, hadd, rfl⟩ := Option.map_eq_some_iff.mp haccept
    have hnew := hselect.update s.pool rfl ev.connfd
      (some ⟨ev.stream, ⟨ev.stream, ev.sched, []⟩, []⟩)
      fun conn hconn _ => Option.some.inj hconn ▸ echoes_start ev.stream ev.sched
    exact ⟨addClient_served hselect hadd, hnew.conns, hnew.closed⟩
  · exact Option.some.inj haccept ▸ hselect

/-- A client with a stream of short lines gets back exactly what was read from it,
up to the end of the stream when the connection is closed, if and only if no call
of `read` returned bytes behind a newline. -/
theorem echo_intact (listenfd : ℤ) (hreach : Reach step anyStep (init listenfd) s) :
    (∀ fd conn, s.conns fd = some conn → ShortLines conn.stream →
      (conn.echoed = conn.src.received.flatten ↔
        ∀ chunk ∈ conn.src.received, newline ∉ chunk.dropLast)) ∧
    ∀ conn ∈ s.closed, ShortLines conn.stream →
      (conn.echoed = conn.stream ↔ ∀ chunk ∈ conn.src.received, newline ∉ chunk.dropLast) := by
  have hserved : Served s := hreach.invariant (init_served listenfd)
    fun _ _ _ h _ hstep => step_served h hstep
  refine ⟨fun fd conn hconn hshort => (hserved.conns fd conn hconn hshort).eq_iff,
    fun conn hconn hshort => ?_⟩
  obtain ⟨hechoes, hend⟩ := hserved.closed conn hconn hshort
  have hstream := hechoes.stream
  rw [hend, List.append_nil] at hstream
  rw [hstream]
  exact hechoes.eq_iff

/-- A client on descriptor 4 sends `a` and `b` on a line each; the connection is ready
for each line and at the end. -/
def twoLines (sched : List (Option ℕ)) : List Event :=
  [⟨{3}, 4, [97, 10, 98, 10], sched⟩, ⟨{4}, 0, [], []⟩, ⟨{4}, 0, [], []⟩, ⟨{4}, 0, [], []⟩]

theorem twoLines_short : ShortLines [97, 10, 98, 10] :=
  ⟨[[97], [98]], rfl, by decide⟩

theorem twoLines_segments : (run step (init 3) (twoLines [some 1, none, some 1])).map State.closed =
    some [⟨[97, 10, 98, 10], ⟨[], [], [[97, 10], [98, 10], []]⟩, [97, 10, 98, 10]⟩] := by
  decide +kernel

theorem twoLines_segment : (run step (init 3) ((twoLines []).take 3)).map State.closed =
    some [⟨[97, 10, 98, 10], ⟨[], [], [[97, 10, 98, 10], []]⟩, [97, 10]⟩] := by
  decide +kernel

theorem echo_intact_segments : ∃ s, run step (init 3) (twoLines [some 1, none, some 1]) = some s ∧
    ∀ conn ∈ s.closed, conn.echoed = conn.stream := by
  obtain ⟨s, hrun, hclosed⟩ := Option.map_eq_some_iff.mp twoLines_segments
  refine ⟨s, hrun, fun conn hconn => ?_⟩
  have hintact := (echo_intact 3 (reach_of_run_anyStep _ hrun)).2 conn hconn
  rw [hclosed] at hconn
  obtain rfl := List.mem_singleton.mp hconn
  exact (hintact twoLines_short).mpr (by decide)

/-- Both lines in one segment: the second is lost. -/
theorem echo_loses_line : ¬ ∀ (listenfd : ℤ) (s : State), Reach step anyStep (init listenfd) s →
    ∀ conn ∈ s.closed, ShortLines conn.stream → conn.echoed = conn.stream := by
  intro h
  obtain ⟨s, hrun, hclosed⟩ := Option.map_eq_some_iff.mp twoLines_segment
  have hlost := h 3 s (reach_of_run_anyStep _ hrun) _ (hclosed ▸ List.mem_cons_self) twoLines_short
  exact absurd hlost (by decide)

end OsLabs.Echo
