import Mathlib
import OsLabs.Lib.Lines
import OsLabs.Lib.CNumber
import OsLabs.Rio.Buffer

/-!
# Line and block reads of `commIO_cd.c`

A session of `rio_readlineb` and `rio_readnb` calls delivers the stream in order.
The line reader counts with an `int`, so no line may have `INT_MAX` bytes.
-/

namespace OsLabs.Rio

open OsLabs.Lines OsLabs.CNumber

/-- `n++` on an `int`; `none` is an overflow. -/
def increment (n : ℤ) : Option ℤ := if n < INT_MAX then some (n + 1) else none

/-- What a call returns: its value, the bytes stored in the user's buffer, and
whether a null byte is stored behind them. -/
structure Result where
  ret : ℤ
  stored : List Byte
  terminated : Bool
  rp : RioT
  src : Source
  deriving DecidableEq, Repr

namespace CommIo

/-- The `for` loop of `rio_readlineb`, with the bytes stored so far. -/
def readlinebLoop (maxlen : ℕ) : ℕ → ℤ → List Byte → RioT → Source → Option Result
  | 0, _, _, _, _ => none
  | fuel + 1, n, stored, rp, src =>
      if n < maxlen then
        match rioRead rp src 1 with
        | none => none
        | some (rc, c, rp, src) =>
            if rc = 1 then
              if c = [newline] then
                (increment n).map fun n => ⟨n - 1, stored ++ c, true, rp, src⟩
              else (increment n).bind fun n => readlinebLoop maxlen fuel n (stored ++ c) rp src
            else if rc = 0 then
              if n = 1 then some ⟨0, stored, false, rp, src⟩
              else some ⟨n - 1, stored, true, rp, src⟩
            else some ⟨-1, stored, false, rp, src⟩
      else some ⟨n - 1, stored, true, rp, src⟩

def readlineb (rp : RioT) (src : Source) (maxlen : ℕ) : Option Result :=
  readlinebLoop maxlen (maxlen + 1) 1 [] rp src

/-- The `while` loop of `rio_readnb`; `n` is the number of bytes asked for. -/
def readnbLoop (n : ℕ) : ℕ → ℕ → List Byte → RioT → Source → Option Result
  | 0, _, _, _, _ => none
  | fuel + 1, nleft, stored, rp, src =>
      if 0 < nleft then
        match rioRead rp src nleft with
        | none => none
        | some (nread, bytes, rp, src) =>
            if nread < 0 then some ⟨-1, stored ++ bytes, false, rp, src⟩
            else if nread = 0 then some ⟨n - nleft, stored, false, rp, src⟩
            else readnbLoop n fuel (nleft - nread.toNat) (stored ++ bytes) rp src
      else some ⟨n - nleft, stored, false, rp, src⟩

def readnb (rp : RioT) (src : Source) (n : ℕ) : Option Result :=
  readnbLoop n (n + 1) n [] rp src

end CommIo

/-! ## One call -/

variable {rp : RioT} {src : Source} {n : ℕ}

/-- The call delivers `bytes`, and what is left is the rest of the stream. -/
structure Delivers (rp : RioT) (src : Source) (bytes : List Byte) (rp' : RioT) (src' : Source) :
    Prop where
  stream : remaining rp src = bytes ++ remaining rp' src'
  inBounds : rp'.InBounds

theorem rioRead_delivers (src : Source) (hbounds : rp.InBounds) (hn : 0 < n) :
    ∃ bytes rp' src', rioRead rp src n = some ((bytes.length : ℤ), bytes, rp', src') ∧
      Delivers rp src bytes rp' src' ∧ bytes.length ≤ n ∧ (bytes = [] → remaining rp src = []) := by
  obtain ⟨hpos, rp', hread, hin, hunread⟩ |
    ⟨hempty, chunk, rp', src', hread, hin, hunread, hrest, -, hend⟩ := rioRead_cases src hbounds n
  · refine ⟨_, rp', src, hread, ⟨?_, hin⟩, List.length_take_le _ _, fun hnil => ?_⟩
    · rw [remaining, remaining, hunread, ← List.append_assoc, List.take_append_drop]
    · have hlen := unread_length hbounds
      obtain hzero | hunread := List.take_eq_nil_iff.mp hnil
      · omega
      · rw [hunread, List.length_nil] at hlen
        omega
  · refine ⟨_, rp', src', hread, ⟨?_, hin⟩, List.length_take_le _ _, fun hnil => ?_⟩
    · rw [remaining, remaining, hunread, unread_of_empty hempty, hrest, List.nil_append,
        ← List.append_assoc, List.take_append_drop]
    · have hchunk := (List.take_eq_nil_iff.mp hnil).resolve_left hn.ne'
      rw [remaining, unread_of_empty hempty, hend hchunk, List.nil_append]

/-- One byte, or the end of the stream. -/
theorem rioRead_one (src : Source) (hbounds : rp.InBounds) :
    (∃ rp' src', rioRead rp src 1 = some (0, [], rp', src') ∧ remaining rp src = [] ∧
      Delivers rp src [] rp' src') ∨
    ∃ c rp' src', rioRead rp src 1 = some (1, [c], rp', src') ∧ Delivers rp src [c] rp' src' := by
  obtain ⟨bytes, rp', src', hread, hdelivers, hlen, hend⟩ :=
    rioRead_delivers src hbounds Nat.one_pos
  match bytes with
  | [] => exact Or.inl ⟨rp', src', hread, hend rfl, hdelivers⟩
  | [c] => exact Or.inr ⟨c, rp', src', hread, hdelivers⟩
  | _ :: _ :: _ =>
      rw [List.length_cons, List.length_cons] at hlen
      omega

/-- What `rio_readlineb` has to deliver from the stream `s`. -/
def lineOf (maxlen : ℕ) (s : List Byte) : List Byte := upTo newline (s.take (maxlen - 1))

/-- The loop delivers the rest of the line, unless its counter overflows on it. -/
def LoopOutcome (k : ℤ) (stored d : List Byte) (rp : RioT) (src : Source) (o : Option Result) :
    Prop :=
  (k + d.length ≤ INT_MAX ∧ ∃ r, o = some r ∧ r.stored = stored ++ d ∧ r.ret = k - 1 + d.length ∧
    Delivers rp src d r.rp r.src) ∨ (INT_MAX < k + d.length ∧ o = none)

theorem LoopOutcome.cons {k : ℤ} {stored d : List Byte} {c : Byte} {rp' : RioT} {src' : Source}
    {o : Option Result} (h : LoopOutcome (k + 1) (stored ++ [c]) d rp' src' o)
    (hdelivers : Delivers rp src [c] rp' src') : LoopOutcome k stored (c :: d) rp src o := by
  unfold LoopOutcome at h ⊢
  rw [List.length_cons]
  push_cast
  obtain ⟨hroom, r, ho, hstored, hret, hrest⟩ | ⟨hover, ho⟩ := h
  · refine Or.inl ⟨by omega, r, ho, ?_, by omega, ?_, hrest.inBounds⟩
    · rw [hstored, List.append_assoc, List.singleton_append]
    · rw [hdelivers.stream, hrest.stream]
      rfl
  · exact Or.inr ⟨by omega, ho⟩

theorem readlinebLoop_spec (maxlen fuel : ℕ) (k : ℤ) (stored : List Byte)
    (hbounds : rp.InBounds) (hkmax : k ≤ INT_MAX) (hpos : 0 < fuel)
    (hfuel : (maxlen : ℤ) < fuel + k) :
    LoopOutcome k stored (lineOf (((maxlen : ℤ) - k).toNat + 1) (remaining rp src)) rp src
      (CommIo.readlinebLoop maxlen fuel k stored rp src) := by
  induction fuel generalizing rp src k stored with
  | zero => exact absurd hpos (Nat.lt_irrefl 0)
  | succ fuel ih =>
      unfold CommIo.readlinebLoop lineOf
      by_cases hlt : k < maxlen
      · rw [if_pos hlt]
        obtain ⟨m, hm⟩ : ∃ m, ((maxlen : ℤ) - k).toNat = m + 1 :=
          ⟨((maxlen : ℤ) - k).toNat - 1, by omega⟩
        rw [hm, Nat.add_sub_cancel]
        obtain ⟨rp', src', hread, hend, hdelivers⟩ | ⟨c, rp', src', hread, hdelivers⟩ :=
          rioRead_one src hbounds
        · -- the end of the stream
          rw [hread, hend, List.take_nil, upTo_nil]
          refine Or.inl ⟨by simpa using hkmax, ?_⟩
          dsimp only
          by_cases hone : k = 1
          · refine ⟨_, by rw [if_neg (by decide), if_pos rfl, if_pos hone], ?_, ?_, hdelivers⟩
            · exact (List.append_nil _).symm
            · rw [hone]
              rfl
          · refine ⟨_, by rw [if_neg (by decide), if_pos rfl, if_neg hone], ?_, ?_, hdelivers⟩
            · exact (List.append_nil _).symm
            · exact (add_zero _).symm
        · rw [hread, hdelivers.stream, List.singleton_append, List.take_succ_cons]
          dsimp only
          rw [if_pos rfl]
          by_cases hnewline : c = newline
          · subst hnewline
            rw [if_pos rfl, upTo_cons_self]
            unfold increment
            by_cases hroom : k < INT_MAX
            · refine Or.inl ⟨hroom, ?_⟩
              rw [if_pos hroom, Option.map_some]
              refine ⟨_, rfl, rfl, ?_, hdelivers⟩
              rw [List.length_singleton]
              dsimp only
              omega
            · refine Or.inr ⟨by simpa using hroom, ?_⟩
              rw [if_neg hroom]
              rfl
          · rw [if_neg fun hc => hnewline (List.singleton_inj.mp hc), upTo_cons_of_ne hnewline]
            unfold increment
            by_cases hroom : k < INT_MAX
            · rw [if_pos hroom, Option.bind_some]
              have hrest := @ih rp' src' (k + 1) (stored ++ [c]) hdelivers.inBounds hroom
                (by push_cast at hfuel; omega) (by push_cast at hfuel; omega)
              rw [show ((maxlen : ℤ) - (k + 1)).toNat = m by omega, lineOf, Nat.add_sub_cancel]
                at hrest
              exact hrest.cons hdelivers
            · refine Or.inr ⟨?_, ?_⟩
              · rw [List.length_cons]
                push_cast
                omega
              · rw [if_neg hroom]
                rfl
      · rw [if_neg hlt, show ((maxlen : ℤ) - k).toNat = 0 by omega]
        refine Or.inl ⟨by simpa using hkmax, _, rfl, (List.append_nil _).symm,
          (add_zero _).symm, ?_⟩
        exact ⟨rfl, hbounds⟩

theorem readlineb_spec (src : Source) (hbounds : rp.InBounds) (maxlen : ℕ) :
    LoopOutcome 1 [] (lineOf maxlen (remaining rp src)) rp src
      (CommIo.readlineb rp src maxlen) := by
  have h := @readlinebLoop_spec rp src maxlen (maxlen + 1) 1 [] hbounds (by decide)
    (Nat.succ_pos _) (by push_cast; omega)
  rwa [lineOf, Nat.add_sub_cancel, show ((maxlen : ℤ) - 1).toNat = maxlen - 1 by omega] at h

theorem readnbLoop_spec (n fuel nleft : ℕ) (stored : List Byte) (hbounds : rp.InBounds)
    (hfuel : nleft < fuel) (hstored : stored.length + nleft = n) :
    ∃ r, CommIo.readnbLoop n fuel nleft stored rp src = some r ∧
      r.stored = stored ++ (remaining rp src).take nleft ∧ r.ret = r.stored.length ∧
      Delivers rp src ((remaining rp src).take nleft) r.rp r.src := by
  induction fuel generalizing rp src nleft stored with
  | zero => omega
  | succ fuel ih =>
      unfold CommIo.readnbLoop
      have hcount : (n : ℤ) - nleft = stored.length := by omega
      by_cases hpos : 0 < nleft
      · rw [if_pos hpos]
        obtain ⟨bytes, rp', src', hread, hdelivers, hlen, hend⟩ :=
          rioRead_delivers src hbounds hpos
        rw [hread]
        dsimp only
        rw [if_neg (Int.not_lt.mpr (Int.natCast_nonneg _))]
        by_cases hnil : bytes = []
        · subst hnil
          rw [if_pos (by rfl), hend rfl, List.take_nil, List.append_nil]
          exact ⟨_, rfl, rfl, hcount, hdelivers⟩
        · have hbytes : 0 < bytes.length := List.length_pos_iff.mpr hnil
          rw [if_neg (by omega), Int.toNat_natCast]
          obtain ⟨r, hr, hstored', hret, hrest⟩ := @ih rp' src' (nleft - bytes.length)
            (stored ++ bytes) hdelivers.inBounds (by omega) (by rw [List.length_append]; omega)
          have htake : (remaining rp src).take nleft =
              bytes ++ (remaining rp' src').take (nleft - bytes.length) := by
            rw [hdelivers.stream, List.take_append, List.take_of_length_le hlen]
          refine ⟨r, hr, ?_, hret, ?_, hrest.inBounds⟩
          · rw [hstored', htake, List.append_assoc]
          · rw [htake, List.append_assoc, ← hrest.stream]
            exact hdelivers.stream
      · have hzero : nleft = 0 := by omega
        subst hzero
        rw [if_neg hpos, List.take_zero, List.append_nil]
        exact ⟨_, rfl, rfl, hcount, rfl, hbounds⟩

theorem readnb_spec (src : Source) (hbounds : rp.InBounds) (n : ℕ) :
    ∃ r, CommIo.readnb rp src n = some r ∧ r.stored = (remaining rp src).take n ∧
      r.ret = r.stored.length ∧ Delivers rp src ((remaining rp src).take n) r.rp r.src := by
  obtain ⟨r, hr, hstored, hrest⟩ := @readnbLoop_spec rp src n (n + 1) n [] hbounds
    (Nat.lt_succ_self n) (Nat.zero_add n)
  exact ⟨r, hr, hstored.trans (List.nil_append _), hrest⟩

/-! ## Sessions -/

inductive Call
  | readlineb (maxlen : ℕ)
  | readnb (n : ℕ)
  deriving DecidableEq, Repr

def Call.perform (rp : RioT) (src : Source) : Call → Option Result
  | .readlineb maxlen => CommIo.readlineb rp src maxlen
  | .readnb n => CommIo.readnb rp src n

/-- The results of a sequence of calls on one buffer. -/
def session : List Call → RioT → Source → Option (List Result)
  | [], _, _ => some []
  | call :: calls, rp, src => do
      let r ← call.perform rp src
      let rs ← session calls r.rp r.src
      some (r :: rs)

/-- What a call has to deliver from the stream `s`: a line stops at the first
newline, at `maxlen - 1` bytes or at the end of the stream. -/
def Call.delivers (s : List Byte) : Call → List Byte
  | .readlineb maxlen => lineOf maxlen s
  | .readnb n => s.take n

def deliveries : List Call → List Byte → List (List Byte)
  | [], _ => []
  | call :: calls, s =>
      call.delivers s :: deliveries calls (s.drop (call.delivers s).length)

/-- The calls return, each stores what it has to deliver and returns the number of
bytes stored. -/
def Intact (calls : List Call) (rp : RioT) (src : Source) : Prop :=
  ∃ rs, session calls rp src = some rs ∧
    rs.map Result.stored = deliveries calls (remaining rp src) ∧
    (rs.map Result.stored).flatten <+: remaining rp src ∧
    ∀ r ∈ rs, r.ret = r.stored.length

/-- A line read may count to `INT_MAX` only: its limit, the stream or the first
newline ends it before. -/
def Call.fits (s : List Byte) : Call → Prop
  | .readlineb maxlen => (maxlen : ℤ) ≤ INT_MAX ∨ (s.length : ℤ) < INT_MAX ∨
      newline ∈ s.take (INT_MAX - 1).toNat
  | .readnb _ => True

def CallsFit : List Call → List Byte → Prop
  | [], _ => True
  | call :: calls, s => call.fits s ∧ CallsFit calls (s.drop (call.delivers s).length)

theorem lineOf_isPrefix (maxlen : ℕ) (s : List Byte) : lineOf maxlen s <+: s :=
  (upTo_isPrefix _).trans (List.take_prefix _ _)

theorem lineOf_length_lt (maxlen : ℕ) (s : List Byte) :
    1 + ((lineOf maxlen s).length : ℤ) ≤ INT_MAX ↔ (Call.readlineb maxlen).fits s := by
  have hmax : INT_MAX = ((INT_MAX - 1).toNat : ℤ) + 1 := by decide
  unfold Call.fits lineOf
  generalize (INT_MAX - 1).toNat = k at hmax ⊢
  rw [hmax]
  have hlength : (upTo newline (s.take (maxlen - 1))).length ≤ k ↔
      (maxlen - 1 ≤ k ∨ s.length ≤ k) ∨ newline ∈ s.take k := by
    rw [upTo_length_le, List.length_take, min_le_iff]
    by_cases hle : maxlen - 1 ≤ k
    · simp only [hle, true_or]
    · rw [List.take_take, Nat.min_eq_left (by omega)]
  rw [or_assoc] at hlength
  have hleft : 1 + ((upTo newline (s.take (maxlen - 1))).length : ℤ) ≤ k + 1 ↔
      (upTo newline (s.take (maxlen - 1))).length ≤ k := by
    omega
  rw [hleft, hlength]
  have hlimit : maxlen - 1 ≤ k ↔ (maxlen : ℤ) ≤ k + 1 := by omega
  have hstream : s.length ≤ k ↔ (s.length : ℤ) < k + 1 := by omega
  rw [hlimit, hstream]

theorem perform_of_fits (hbounds : rp.InBounds) {call : Call} (h : call.fits (remaining rp src)) :
    ∃ r, call.perform rp src = some r ∧ r.stored = call.delivers (remaining rp src) ∧
      r.ret = r.stored.length ∧ Delivers rp src r.stored r.rp r.src := by
  cases call with
  | readlineb maxlen =>
      have hfits := (lineOf_length_lt maxlen (remaining rp src)).mpr h
      obtain ⟨-, r, hr, hstored, hret, hrest⟩ | ⟨hover, -⟩ :=
        readlineb_spec src hbounds maxlen
      · rw [List.nil_append] at hstored
        refine ⟨r, hr, hstored, ?_, hstored ▸ hrest⟩
        rw [hret, hstored, sub_self, zero_add]
      · omega
  | readnb n =>
      obtain ⟨r, hr, hstored, hret, hrest⟩ := readnb_spec src hbounds n
      exact ⟨r, hr, hstored, hret, hstored ▸ hrest⟩

theorem perform_of_not_fits (hbounds : rp.InBounds) {call : Call}
    (h : ¬ call.fits (remaining rp src)) : call.perform rp src = none := by
  cases call with
  | readlineb maxlen =>
      have hover := mt (lineOf_length_lt maxlen (remaining rp src)).mp h
      obtain ⟨hroom, -⟩ | ⟨-, hnone⟩ := readlineb_spec src hbounds maxlen
      · exact absurd hroom hover
      · exact hnone
  | readnb n => exact absurd trivial h

theorem intact_iff (calls : List Call) (hbounds : rp.InBounds) :
    Intact calls rp src ↔ CallsFit calls (remaining rp src) := by
  induction calls generalizing rp src with
  | nil =>
      refine ⟨fun _ => trivial, fun _ => ⟨[], rfl, rfl, List.nil_prefix, fun r hr => ?_⟩⟩
      exact absurd hr List.not_mem_nil
  | cons call calls ih =>
      by_cases hfits : call.fits (remaining rp src)
      · obtain ⟨r, hr, hstored, hret, hrest⟩ := perform_of_fits hbounds hfits
        have hdrop : remaining r.rp r.src =
            (remaining rp src).drop (call.delivers (remaining rp src)).length := by
          rw [← hstored, hrest.stream, List.drop_left]
        have hstep : Intact (call :: calls) rp src ↔ Intact calls r.rp r.src := by
          refine ⟨fun h => ?_, fun h => ?_⟩
          · obtain ⟨rs, hrs, hdeliveries, hprefix, hrets⟩ := h
            rw [session, hr, Option.bind_eq_bind, Option.bind_some] at hrs
            obtain ⟨rs', hrs', hcons⟩ := Option.bind_eq_some_iff.mp hrs
            obtain rfl := Option.some.inj hcons
            rw [List.map_cons, deliveries] at hdeliveries
            rw [List.map_cons, List.flatten_cons, hrest.stream] at hprefix
            refine ⟨rs', hrs', ?_, (List.prefix_append_right_inj _).mp hprefix,
              fun r' hr' => hrets r' (List.mem_cons_of_mem _ hr')⟩
            rw [(List.cons.inj hdeliveries).2, hdrop]
          · obtain ⟨rs, hrs, hdeliveries, hprefix, hrets⟩ := h
            refine ⟨r :: rs, ?_, ?_, ?_, ?_⟩
            · rw [session, hr, Option.bind_eq_bind, Option.bind_some, hrs]
              rfl
            · rw [List.map_cons, deliveries, hdeliveries, hstored, hdrop]
            · rw [List.map_cons, List.flatten_cons, hrest.stream]
              exact (List.prefix_append_right_inj _).mpr hprefix
            · intro r' hr'
              obtain rfl | hr' := List.mem_cons.mp hr'
              · exact hret
              · exact hrets r' hr'
        rw [hstep, ih hrest.inBounds, hdrop, CallsFit]
        exact (and_iff_right hfits).symm
      · refine ⟨fun h => ?_, fun h => absurd h.1 hfits⟩
        obtain ⟨rs, hrs, -⟩ := h
        rw [session, perform_of_not_fits hbounds hfits] at hrs
        exact nomatch hrs

/-- A session on an initialised buffer delivers the stream intact exactly when no
line read counts beyond `INT_MAX`. -/
theorem session_intact (calls : List Call) (buf stream : List Byte) (sched : List (Option ℕ)) :
    Intact calls (readinitb buf) ⟨stream, sched, []⟩ ↔ CallsFit calls stream := by
  rw [intact_iff calls (readinitb_inBounds buf), remaining, unread_of_empty (Int.le_refl 0),
    List.nil_append]

/-- Short reads and an interrupt; the second line is cut by its limit. -/
example : (session [.readlineb 10, .readlineb 3, .readnb 5] (readinitb [])
    ⟨[97, 10, 98, 99, 100], [some 0, none, some 1], []⟩).map (List.map fun r => (r.ret, r.stored)) =
    some [(2, [97, 10]), (2, [98, 99]), (1, [100])] := by
  decide +kernel

/-- A line of `2 ^ 31` bytes overflows the counter, although the limit allows it. -/
theorem session_overflows : ¬ ∀ (calls : List Call) (buf stream : List Byte)
    (sched : List (Option ℕ)), Intact calls (readinitb buf) ⟨stream, sched, []⟩ := by
  intro h
  have hfits := (intact_iff [.readlineb (2 ^ 31 + 1)] (readinitb_inBounds [])).mp
    (h _ [] (List.replicate (2 ^ 31) 0) [])
  rw [remaining, unread_of_empty (Int.le_refl 0), List.nil_append] at hfits
  obtain ⟨hlimit | hlength | hmem, -⟩ := hfits
  · exact absurd hlimit (by decide)
  · rw [List.length_replicate] at hlength
    exact absurd hlength (by decide)
  · have := (List.mem_replicate.mp (List.mem_of_mem_take hmem)).2
    exact absurd this (by decide)

end OsLabs.Rio
