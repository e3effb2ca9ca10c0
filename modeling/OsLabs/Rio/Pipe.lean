import Mathlib
import OsLabs.Lib.Ending
import OsLabs.Rio.Buffer

/-!
# Unbuffered transfers over a pipe

One process calls `rio_writen` and another one `rio_readn` of `csapp.c` at the two
ends of a pipe. The system calls transfer as many bytes as they like, but at least
one, and may be interrupted instead.
-/

namespace OsLabs.Rio.Pipe

open OsLabs.Transition

/-- A call of `rio_writen`. The byte at `bufp` is `usrbuf[bufp]`. -/
structure Writen where
  usrbuf : List Byte
  bufp : ℕ
  nleft : ℕ
deriving DecidableEq, Repr

/-- A call of `rio_readn`, with the bytes of `usrbuf` up to `bufp`. -/
structure Readn where
  n : ℕ
  nleft : ℕ
  stored : List Byte
deriving DecidableEq, Repr

/-- The calls under way, those to come and what those before have returned. -/
structure State where
  pipe : List Byte
  closed : Bool
  writer : Option Writen
  writes : List (List Byte)
  written : List ℤ
  reader : Option Readn
  reads : List ℕ
  results : List (ℤ × List Byte)
deriving DecidableEq, Repr

inductive Action
  | callWrite
  /-- `write` returns the number of bytes that it has taken. -/
  | write (nwritten : ℕ)
  /-- `write` returns `-1` with `errno` equal to `EINTR`. -/
  | writeInterrupted
  | returnWrite
  /-- The descriptor is closed after the last call. -/
  | close
  | callRead
  | read (nread : ℕ)
  | readInterrupted
  /-- `read` returns 0. -/
  | readEnd
  | returnRead
deriving DecidableEq, Repr

def initial (writes : List (List Byte)) (reads : List ℕ) : State :=
  ⟨[], false, none, writes, [], none, reads, []⟩

/-- The body of the loop of `rio_writen`. -/
def Writen.advance (c : Writen) (nwritten : ℕ) : Writen :=
  { c with nleft := c.nleft - nwritten, bufp := c.bufp + nwritten }

def Readn.advance (c : Readn) (bytes : List Byte) : Readn :=
  { c with nleft := c.nleft - bytes.length, stored := c.stored ++ bytes }

def Readn.result (c : Readn) : ℤ × List Byte := ((c.n : ℤ) - c.nleft, c.stored)

/-- The pipe holds `capacity` bytes. A `write` waits for room in it, and a `read` for a byte in
it or the end of it. -/
def step (capacity : ℕ) (s : State) : Action → Option State
  | .callWrite =>
      match s.writer, s.writes with
      | none, buf :: writes => some { s with writer := some ⟨buf, 0, buf.length⟩, writes }
      | _, _ => none
  | .write nwritten =>
      match s.writer with
      | none => none
      | some c =>
          if 1 ≤ nwritten ∧ nwritten ≤ c.nleft ∧ s.pipe.length + nwritten ≤ capacity then
            some { s with
              pipe := s.pipe ++ (c.usrbuf.drop c.bufp).take nwritten
              writer := some (c.advance nwritten) }
          else none
  | .writeInterrupted =>
      match s.writer with
      | none => none
      | some c => if c.nleft > 0 then some { s with writer := some (c.advance 0) } else none
  | .returnWrite =>
      match s.writer with
      | none => none
      | some c =>
          if c.nleft > 0 then none
          else some { s with writer := none, written := s.written ++ [(c.usrbuf.length : ℤ)] }
  | .close =>
      match s.writer, s.writes, s.closed with
      | none, [], false => some { s with closed := true }
      | _, _, _ => none
  | .callRead =>
      match s.reader, s.reads with
      | none, n :: reads => some { s with reader := some ⟨n, n, []⟩, reads }
      | _, _ => none
  | .read nread =>
      match s.reader with
      | none => none
      | some c =>
          if 1 ≤ nread ∧ nread ≤ c.nleft ∧ nread ≤ s.pipe.length then
            some { s with
              pipe := s.pipe.drop nread
              reader := some (c.advance (s.pipe.take nread)) }
          else none
  | .readInterrupted =>
      match s.reader with
      | none => none
      | some c => if c.nleft > 0 then some { s with reader := some (c.advance []) } else none
  | .readEnd =>
      match s.reader with
      | none => none
      | some c =>
          if c.nleft > 0 ∧ s.pipe = [] ∧ s.closed = true then
            some { s with reader := none, results := s.results ++ [c.result] }
          else none
  | .returnRead =>
      match s.reader with
      | none => none
      | some c =>
          if c.nleft > 0 then none
          else some { s with reader := none, results := s.results ++ [c.result] }

/-! ## What is delivered -/

/-- The results of reads of these sizes from the bytes written, and from nothing after them. -/
def delivered : List Byte → List ℕ → List (ℤ × List Byte)
  | _, [] => []
  | data, n :: ns => (((data.take n).length : ℤ), data.take n) :: delivered (data.drop n) ns

theorem delivered_concat (data : List Byte) (ns : List ℕ) (n : ℕ) :
    delivered data (ns ++ [n]) = delivered data ns ++
      [((((data.drop ns.sum).take n).length : ℤ), (data.drop ns.sum).take n)] := by
  induction ns generalizing data with
  | nil => rfl
  | cons m ns ih =>
      rw [List.cons_append, delivered, delivered, ih, List.cons_append, List.drop_drop,
        List.sum_cons]

/-- The bytes of the calls under way and to come that are not in the pipe yet. -/
def State.unwritten (s : State) : List Byte :=
  (s.writer.elim [] fun c => c.usrbuf.drop c.bufp) ++ s.writes.flatten

def State.stored (s : State) : List Byte := s.reader.elim [] Readn.stored

/-- The reads that are done, and the bytes after them. -/
structure Inv (data : List Byte) (sizes : List ℕ) (s : State) : Prop where
  reads : ∃ done, sizes = done ++ (s.reader.elim [] fun c => [c.n]) ++ s.reads ∧
    s.results = delivered data done ∧ data.drop done.sum = s.stored ++ s.pipe ++ s.unwritten
  reader : ∀ c, s.reader = some c → c.stored.length + c.nleft = c.n
  writer : ∀ c, s.writer = some c → c.bufp + c.nleft = c.usrbuf.length
  closed : s.closed = true → s.writer = none ∧ s.writes = []

variable {capacity : ℕ} {data : List Byte} {sizes : List ℕ} {writes : List (List Byte)}
  {s s' : State} {a : Action}

theorem inv_initial (writes : List (List Byte)) (sizes : List ℕ) :
    Inv writes.flatten sizes (initial writes sizes) := by
  refine ⟨⟨[], rfl, rfl, rfl⟩, fun c hc => ?_, fun c hc => ?_, fun hclosed => ?_⟩
  · cases hc
  · cases hc
  · cases hclosed

/-- The read under way ends with what was asked for, or with all there is. -/
theorem Inv.return (h : Inv data sizes s) {c : Readn} (hreader : s.reader = some c)
    (hend : c.nleft = 0 ∨ s.pipe = [] ∧ s.closed = true) :
    Inv data sizes { s with reader := none, results := s.results ++ [c.result] } := by
  rcases h.reads with ⟨done, hsizes, hresults, hdata⟩
  have hlength := h.reader c hreader
  have hstored : s.stored = c.stored := by
    rw [State.stored, hreader]
    rfl
  rw [hstored] at hdata
  have htake : (data.drop done.sum).take c.n = c.stored := by
    rw [hdata]
    rcases hend with hfull | ⟨hempty, hclosed⟩
    · rw [List.append_assoc, List.take_left' (by omega)]
    · rcases h.closed hclosed with ⟨hwriter, hwrites⟩
      rw [State.unwritten, hwriter, hwrites, hempty]
      simp only [Option.elim_none, List.flatten_nil, List.append_nil]
      exact List.take_of_length_le (by omega)
  refine ⟨⟨done ++ [c.n], ?_, ?_, ?_⟩, fun c' hc' => ?_, h.writer, h.closed⟩
  · rw [hsizes, hreader]
    simp
  · show s.results ++ [c.result] = _
    rw [delivered_concat, htake, hresults, Readn.result]
    have hcount : (c.n : ℤ) - c.nleft = (c.stored.length : ℤ) := by omega
    rw [hcount]
  · have hrest : (data.drop done.sum).drop c.n = s.pipe ++ s.unwritten := by
      rw [hdata]
      rcases hend with hfull | ⟨hempty, hclosed⟩
      · rw [List.append_assoc, List.drop_left' (by omega)]
      · rcases h.closed hclosed with ⟨hwriter, hwrites⟩
        rw [State.unwritten, hwriter, hwrites, hempty]
        simp only [Option.elim_none, List.flatten_nil, List.append_nil]
        exact List.drop_of_length_le (by omega)
    rw [List.sum_append, List.sum_singleton, ← List.drop_drop, hrest]
    rfl
  · cases hc'

theorem Inv.step (h : Inv data sizes s) (hstep : step capacity s a = some s') :
    Inv data sizes s' := by
  rcases h.reads with ⟨done, hsizes, hresults, hdata⟩
  cases a with
  | callWrite =>
      unfold Pipe.step at hstep
      dsimp only at hstep
      split at hstep
      case h_2 => cases hstep
      case h_1 buf writes hwriter hwrites =>
          cases hstep
          refine ⟨⟨done, hsizes, hresults, ?_⟩, h.reader, fun c hc => ?_, fun hclosed => ?_⟩
          · rw [hdata, State.unwritten, hwriter, hwrites]
            rfl
          · cases hc
            exact Nat.zero_add _
          · have hnone := (h.closed hclosed).2
            rw [hwrites] at hnone
            cases hnone
  | write nwritten =>
      unfold Pipe.step at hstep
      dsimp only at hstep
      split at hstep
      case h_1 => cases hstep
      case h_2 c hwriter =>
          have hlength := h.writer c hwriter
          split at hstep
          case isFalse => cases hstep
          case isTrue hroom =>
              cases hstep
              refine ⟨⟨done, hsizes, hresults, ?_⟩, h.reader, fun c' hc' => ?_, fun hclosed => ?_⟩
              · rw [hdata, State.unwritten, hwriter]
                show s.stored ++ s.pipe ++ (c.usrbuf.drop c.bufp ++ s.writes.flatten) =
                  s.stored ++ (s.pipe ++ (c.usrbuf.drop c.bufp).take nwritten) ++
                    (c.usrbuf.drop (c.bufp + nwritten) ++ s.writes.flatten)
                rw [← List.drop_drop]
                simp only [List.append_assoc]
                rw [← List.append_assoc (List.take nwritten _), List.take_append_drop]
              · cases hc'
                show c.bufp + nwritten + (c.nleft - nwritten) = c.usrbuf.length
                omega
              · have hnone := (h.closed hclosed).1
                rw [hwriter] at hnone
                cases hnone
  | writeInterrupted =>
      unfold Pipe.step at hstep
      dsimp only at hstep
      split at hstep
      case h_1 => cases hstep
      case h_2 c hwriter =>
          split at hstep
          · have hsame : s = s' := by
              cases hstep
              cases s
              cases hwriter
              rfl
            exact hsame ▸ h
          · cases hstep
  | returnWrite =>
      unfold Pipe.step at hstep
      dsimp only at hstep
      split at hstep
      case h_1 => cases hstep
      case h_2 c hwriter =>
          have hlength := h.writer c hwriter
          split at hstep
          case isTrue => cases hstep
          case isFalse hdone =>
              cases hstep
              refine ⟨⟨done, hsizes, hresults, ?_⟩, h.reader, fun c' hc' => ?_, fun hclosed =>
                ⟨rfl, (h.closed hclosed).2⟩⟩
              · rw [hdata, State.unwritten, hwriter, Option.elim_some,
                  List.drop_of_length_le (by omega)]
                rfl
              · cases hc'
  | close =>
      unfold Pipe.step at hstep
      dsimp only at hstep
      split at hstep
      case h_2 => cases hstep
      case h_1 hwriter hwrites _ =>
          cases hstep
          exact ⟨⟨done, hsizes, hresults, hdata⟩, h.reader, h.writer, fun _ => ⟨hwriter, hwrites⟩⟩
  | callRead =>
      unfold Pipe.step at hstep
      dsimp only at hstep
      split at hstep
      case h_2 => cases hstep
      case h_1 n reads hreader hreads =>
          cases hstep
          refine ⟨⟨done, ?_, hresults, ?_⟩, fun c hc => ?_, h.writer, h.closed⟩
          · rw [hsizes, hreader, hreads]
            simp
          · rw [hdata, State.stored, hreader]
            rfl
          · cases hc
            exact Nat.zero_add _
  | read nread =>
      unfold Pipe.step at hstep
      dsimp only at hstep
      split at hstep
      case h_1 => cases hstep
      case h_2 c hreader =>
          have hlength := h.reader c hreader
          split at hstep
          case isFalse => cases hstep
          case isTrue hbytes =>
              cases hstep
              refine ⟨⟨done, ?_, hresults, ?_⟩, fun c' hc' => ?_, h.writer, h.closed⟩
              · rw [hsizes, hreader]
                rfl
              · rw [hdata, State.stored, hreader]
                show c.stored ++ s.pipe ++ s.unwritten =
                  c.stored ++ s.pipe.take nread ++ s.pipe.drop nread ++ s.unwritten
                rw [List.append_assoc c.stored (s.pipe.take nread), List.take_append_drop]
              · cases hc'
                show (c.stored ++ s.pipe.take nread).length +
                  (c.nleft - (s.pipe.take nread).length) = c.n
                rw [List.length_append, List.length_take]
                omega
  | readInterrupted =>
      unfold Pipe.step at hstep
      dsimp only at hstep
      split at hstep
      case h_1 => cases hstep
      case h_2 c hreader =>
          split at hstep
          · have hsame : s = s' := by
              cases hstep
              cases s
              cases hreader
              simp [Readn.advance]
            exact hsame ▸ h
          · cases hstep
  | readEnd =>
      unfold Pipe.step at hstep
      dsimp only at hstep
      split at hstep
      case h_1 => cases hstep
      case h_2 c hreader =>
          split at hstep
          case isFalse => cases hstep
          case isTrue hend =>
              cases hstep
              exact h.return hreader (.inr hend.2)
  | returnRead =>
      unfold Pipe.step at hstep
      dsimp only at hstep
      split at hstep
      case h_1 => cases hstep
      case h_2 c hreader =>
          split at hstep
          case isTrue => cases hstep
          case isFalse hdone =>
              cases hstep
              exact h.return hreader (.inl (by omega))

/-! ## How long it takes -/

/-- A system call that is interrupted transfers nothing. -/
def Action.transfers : Action → Bool
  | .writeInterrupted | .readInterrupted => false
  | _ => true

/-- The most steps to come, interrupted calls apart. -/
def State.ahead (s : State) : ℕ :=
  (s.writer.elim 0 fun c => 2 * c.nleft + 1) + (s.writes.map fun buf => 2 * buf.length + 2).sum +
    (if s.closed then 0 else 1) + s.pipe.length + (s.reader.elim 0 fun _ => 1) +
    2 * s.reads.length

theorem step_ahead (hstep : step capacity s a = some s') :
    s'.ahead + (if a.transfers then 1 else 0) ≤ s.ahead := by
  cases a with
  | callWrite =>
      unfold step at hstep
      dsimp only at hstep
      split at hstep
      case h_2 => cases hstep
      case h_1 buf writes hwriter hwrites =>
          cases hstep
          simp only [State.ahead, hwriter, hwrites, Option.elim_some, Option.elim_none,
            List.map_cons, List.sum_cons, Action.transfers, if_true]
          omega
  | write nwritten =>
      unfold step at hstep
      dsimp only at hstep
      split at hstep
      case h_1 => cases hstep
      case h_2 c hwriter =>
          split at hstep
          case isFalse => cases hstep
          case isTrue hroom =>
              cases hstep
              simp only [State.ahead, hwriter, Option.elim_some, Writen.advance,
                List.length_append, List.length_take, Action.transfers, if_true]
              omega
  | writeInterrupted =>
      unfold step at hstep
      dsimp only at hstep
      split at hstep
      case h_1 => cases hstep
      case h_2 c hwriter =>
          split at hstep
          · cases hstep
            simp only [State.ahead, hwriter, Option.elim_some, Writen.advance, Action.transfers,
              Bool.false_eq_true, if_false]
            omega
          · cases hstep
  | returnWrite =>
      unfold step at hstep
      dsimp only at hstep
      split at hstep
      case h_1 => cases hstep
      case h_2 c hwriter =>
          split at hstep
          · cases hstep
          · cases hstep
            simp only [State.ahead, hwriter, Option.elim_some, Option.elim_none,
              Action.transfers, if_true]
            omega
  | close =>
      unfold step at hstep
      dsimp only at hstep
      split at hstep
      case h_2 => cases hstep
      case h_1 hwriter hwrites hopen =>
          cases hstep
          simp only [State.ahead, hopen, Action.transfers, if_true, Bool.false_eq_true, if_false]
          omega
  | callRead =>
      unfold step at hstep
      dsimp only at hstep
      split at hstep
      case h_2 => cases hstep
      case h_1 n reads hreader hreads =>
          cases hstep
          simp only [State.ahead, hreader, hreads, Option.elim_some, Option.elim_none,
            List.length_cons, Action.transfers, if_true]
          omega
  | read nread =>
      unfold step at hstep
      dsimp only at hstep
      split at hstep
      case h_1 => cases hstep
      case h_2 c hreader =>
          split at hstep
          case isFalse => cases hstep
          case isTrue hbytes =>
              cases hstep
              simp only [State.ahead, hreader, Option.elim_some, List.length_drop,
                Action.transfers, if_true]
              omega
  | readInterrupted =>
      unfold step at hstep
      dsimp only at hstep
      split at hstep
      case h_1 => cases hstep
      case h_2 c hreader =>
          split at hstep
          · cases hstep
            simp only [State.ahead, hreader, Option.elim_some, Action.transfers,
              Bool.false_eq_true, if_false]
            omega
          · cases hstep
  | readEnd | returnRead =>
      unfold step at hstep
      dsimp only at hstep
      split at hstep
      case h_1 => cases hstep
      case h_2 c hreader =>
          split at hstep <;> cases hstep
          simp only [State.ahead, hreader, Option.elim_some, Option.elim_none, Action.transfers,
            if_true]
          omega

/-- Until all reads have returned, one of the processes can transfer bytes or go on. -/
theorem exists_transfer (hcapacity : 0 < capacity)
    (hunfinished : ¬ (s.reader = none ∧ s.reads = [])) :
    ∃ a, a.transfers = true ∧ (step capacity s a).isSome = true := by
  cases hreader : s.reader with
  | none =>
      cases hreads : s.reads with
      | nil => exact absurd ⟨hreader, hreads⟩ hunfinished
      | cons n reads => exact ⟨.callRead, rfl, by simp [step, hreader, hreads]⟩
  | some c =>
      by_cases hleft : c.nleft = 0
      · exact ⟨.returnRead, rfl, by simp [step, hreader, hleft]⟩
      have hleft : 1 ≤ c.nleft := Nat.one_le_iff_ne_zero.mpr hleft
      by_cases hpipe : s.pipe = []
      · -- the reader waits for the writer
        cases hwriter : s.writer with
        | some w =>
            by_cases hwleft : w.nleft = 0
            · exact ⟨.returnWrite, rfl, by simp [step, hwriter, hwleft]⟩
            · have hwleft : 1 ≤ w.nleft := Nat.one_le_iff_ne_zero.mpr hwleft
              refine ⟨.write 1, rfl, ?_⟩
              simp only [step, hwriter, hpipe]
              rw [if_pos ⟨le_rfl, hwleft, hcapacity⟩]
              rfl
        | none =>
            cases hwrites : s.writes with
            | cons buf writes => exact ⟨.callWrite, rfl, by simp [step, hwriter, hwrites]⟩
            | nil =>
                cases hclosed : s.closed with
                | false => exact ⟨.close, rfl, by simp [step, hwriter, hwrites, hclosed]⟩
                | true =>
                    refine ⟨.readEnd, rfl, ?_⟩
                    simp only [step, hreader]
                    rw [if_pos ⟨hleft, hpipe, hclosed⟩]
                    rfl
      · refine ⟨.read 1, rfl, ?_⟩
        simp only [step, hreader]
        rw [if_pos ⟨le_rfl, hleft, List.length_pos_of_ne_nil hpipe⟩]
        rfl

/-- However the calls are split and interrupted, the reads get the bytes that are written, in full
sizes up to the last one. They get them all within a number of steps that only interrupts can
exceed, and the processes do not wait for each other. -/
theorem pipe_transfer (hcapacity : 0 < capacity) (writes : List (List Byte)) (sizes : List ℕ)
    (as : List Action) (hrun : run (step capacity) (initial writes sizes) as = some s) :
    (s.reader = none ∧ s.reads = [] → s.results = delivered writes.flatten sizes) ∧
      (¬ (s.reader = none ∧ s.reads = []) →
        ∃ a, a.transfers = true ∧ (step capacity s a).isSome = true) ∧
      as.countP Action.transfers ≤
        (writes.map fun buf => 2 * buf.length + 2).sum + 1 + 2 * sizes.length := by
  have hs : Inv writes.flatten sizes s :=
    (reach_of_run_anyStep as hrun).invariant (inv_initial writes sizes)
      fun _ _ _ hs _ hstep => hs.step hstep
  refine ⟨?_, exists_transfer hcapacity, ?_⟩
  · rintro ⟨hreader, hreads⟩
    rcases hs.reads with ⟨done, hsizes, hresults, -⟩
    rw [hreader, hreads] at hsizes
    rw [hresults, hsizes]
    simp
  · have hcount := countP_add_measure_le Action.transfers (fun _ _ _ hstep => step_ahead hstep) as
      hrun
    have hinitial : (initial writes sizes).ahead =
        0 + (writes.map fun buf => 2 * buf.length + 2).sum + 1 + 0 + 0 + 2 * sizes.length := rfl
    omega

/-- Two bytes, one at a time and with an interrupt in between. -/
def twoBytes : List Action := [.callRead, .callWrite, .write 1, .readInterrupted, .read 1, .write 1,
  .returnWrite, .read 1, .close, .readEnd]

theorem pipe_transfer_twoBytes : ∃ s, run (step 1) (initial [[104, 105]] [3]) twoBytes = some s ∧
    s.results = [(2, [104, 105])] :=
  ⟨_, rfl, (pipe_transfer Nat.one_pos [[104, 105]] [3] twoBytes rfl).1 ⟨rfl, rfl⟩⟩

end OsLabs.Rio.Pipe
