import Mathlib

/-!
# The read buffer of the RIO package

`rio_read` of `commIO_cd.c` and of `csapp.c`, which are the same text.
-/

namespace OsLabs.Rio

abbrev Byte := UInt8

def newline : Byte := 10

def RIO_BUFSIZE : ℕ := 8192

/-- What `read` does on the descriptor. `rest` is the stream not read yet. An entry
of `sched` is an interrupt (`none`), or the most bytes that a call returns less
one; calls after the end of `sched` return all they can. `received` records the
results of the calls that were not interrupted. -/
structure Source where
  rest : List Byte
  sched : List (Option ℕ)
  received : List (List Byte)
  deriving DecidableEq, Repr

def Source.deliver (src : Source) (count : ℕ) (sched : List (Option ℕ)) :
    ℤ × List Byte × Source :=
  let chunk := src.rest.take count
  (chunk.length, chunk, ⟨src.rest.drop count, sched, src.received ++ [chunk]⟩)

/-- The result of `read` is `-1` with `errno` equal to `EINTR`, or the number of
bytes stored; it is `0` at the end of the stream only. -/
def Source.read (src : Source) (count : ℕ) : ℤ × List Byte × Source :=
  match src.sched with
  | [] => src.deliver count []
  | some k :: sched => src.deliver (min (k + 1) count) sched
  | none :: sched => (-1, [], { src with sched })

/-- `rio_t`; `bufptr` is the offset of `rio_bufptr` in `rio_buf`. -/
structure RioT where
  cnt : ℤ
  bufptr : ℕ
  buf : List Byte
  deriving DecidableEq, Repr

/-- `rio_readinitb` on a buffer with any contents. -/
def readinitb (buf : List Byte) : RioT := ⟨0, 0, buf⟩

/-- The `while` loop of `rio_read`; the Boolean is false at the end of the stream.
Each interrupt uses up an entry of the schedule, which bounds the rounds. -/
def refill : ℕ → RioT → Source → Option (Bool × RioT × Source)
  | 0, _, _ => none
  | fuel + 1, rp, src =>
      if rp.cnt ≤ 0 then
        let (cnt, bytes, src) := src.read RIO_BUFSIZE
        let rp := { rp with cnt, buf := bytes ++ rp.buf.drop bytes.length }
        if rp.cnt < 0 then refill fuel rp src
        else if rp.cnt = 0 then some (false, rp, src)
        else refill fuel { rp with bufptr := 0 } src
      else some (true, rp, src)

/-- The end of `rio_read`: a copy of at most `n` bytes out of the buffer. -/
def copyOut (rp : RioT) (n : ℕ) : ℤ × List Byte × RioT :=
  let cnt : ℤ := if rp.cnt < n then rp.cnt else n
  (cnt, (rp.buf.drop rp.bufptr).take cnt.toNat,
    { rp with bufptr := rp.bufptr + cnt.toNat, cnt := rp.cnt - cnt })

/-- `rio_read`: the return value and the bytes copied to the user's buffer. -/
def rioRead (rp : RioT) (src : Source) (n : ℕ) : Option (ℤ × List Byte × RioT × Source) :=
  (refill (src.sched.length + 2) rp src).map fun (more, rp, src) =>
    if more then
      let (cnt, bytes, rp) := copyOut rp n
      (cnt, bytes, rp, src)
    else (0, [], rp, src)

variable {rp : RioT} {src : Source} {n : ℕ}

def RioT.unread (rp : RioT) : List Byte := (rp.buf.drop rp.bufptr).take rp.cnt.toNat

/-- The bytes still to be delivered. -/
def remaining (rp : RioT) (src : Source) : List Byte := rp.unread ++ src.rest

/-- The unread bytes lie in the buffer. -/
def RioT.InBounds (rp : RioT) : Prop := rp.bufptr + rp.cnt.toNat ≤ rp.buf.length

theorem readinitb_inBounds (buf : List Byte) : (readinitb buf).InBounds := Nat.zero_le _

theorem unread_of_empty (h : rp.cnt ≤ 0) : rp.unread = [] := by
  unfold RioT.unread
  rw [Int.toNat_of_nonpos h, List.take_zero]

theorem unread_length (h : rp.InBounds) : rp.unread.length = rp.cnt.toNat := by
  unfold RioT.unread
  unfold RioT.InBounds at h
  rw [List.length_take, List.length_drop]
  omega

theorem refill_of_unread (h : 0 < rp.cnt) (fuel : ℕ) :
    refill (fuel + 1) rp src = some (true, rp, src) := by
  unfold refill
  rw [if_neg (Int.not_le.mpr h)]

/-- What a call of `read` on an empty buffer leaves: nothing at the end of the
stream, else a chunk of the stream. -/
structure Refilled (src : Source) (more : Bool) (chunk : List Byte) (rp' : RioT) (src' : Source) :
    Prop where
  rest : src.rest = chunk ++ src'.rest
  received : src'.received = src.received ++ [chunk]
  inBounds : rp'.InBounds
  ended : more = false → src.rest = [] ∧ chunk = [] ∧ rp'.cnt = 0
  filled : more = true → chunk ≠ [] ∧ 0 < rp'.cnt ∧ rp'.unread = chunk

theorem refill_of_deliver (hbounds : rp.InBounds) (hempty : rp.cnt ≤ 0) {count fuel : ℕ}
    {sched : List (Option ℕ)}
    (hcount : 0 < count) (hread : src.read RIO_BUFSIZE = src.deliver count sched) :
    ∃ more chunk rp' src', refill (fuel + 2) rp src = some (more, rp', src') ∧
      Refilled src more chunk rp' src' := by
  set chunk := src.rest.take count
  set buf := chunk ++ rp.buf.drop chunk.length with hbuf
  set src' : Source := ⟨src.rest.drop count, sched, src.received ++ [chunk]⟩
  have hrest : src.rest = chunk ++ src'.rest := (List.take_append_drop _ _).symm
  have hround : refill (fuel + 2) rp src = if (chunk.length : ℤ) = 0
      then some (false, ⟨0, rp.bufptr, buf⟩, src')
      else refill (fuel + 1) ⟨chunk.length, 0, buf⟩ src' := by
    rw [refill, if_pos hempty, hread]
    dsimp only [Source.deliver]
    rw [if_neg (Int.not_lt.mpr (Int.natCast_nonneg _))]
    split
    · rename_i hzero
      rw [hzero]
    · rfl
  by_cases hend : src.rest = []
  · have hchunk : chunk = [] := by
      rw [show chunk = src.rest.take count from rfl, hend, List.take_nil]
    refine ⟨false, chunk, ⟨0, rp.bufptr, buf⟩, src', ?_, hrest, rfl, ?_,
      fun _ => ⟨hend, hchunk, rfl⟩, fun hmore => nomatch hmore⟩
    · rw [hround, if_pos (by rw [hchunk]; rfl)]
    · unfold RioT.InBounds at hbounds ⊢
      rw [hbuf, hchunk, List.nil_append, List.length_nil, List.drop_zero]
      dsimp only
      omega
  · have hchunk : chunk ≠ [] := by
      intro hnil
      exact (List.take_eq_nil_iff.mp hnil).elim hcount.ne' hend
    have hpos : 0 < chunk.length := List.length_pos_iff.mpr hchunk
    refine ⟨true, chunk, ⟨chunk.length, 0, buf⟩, src', ?_, hrest, rfl, ?_,
      fun hmore => (nomatch hmore), fun _ => ⟨hchunk, Int.natCast_pos.mpr hpos, ?_⟩⟩
    · rw [hround, if_neg (by omega), refill_of_unread (Int.natCast_pos.mpr hpos)]
    · simp only [RioT.InBounds, hbuf, Int.toNat_natCast, List.length_append]
      omega
    · simp only [RioT.unread, hbuf, Int.toNat_natCast, List.drop_zero, List.take_left']

theorem refill_spec (hbounds : rp.InBounds) (hempty : rp.cnt ≤ 0) {fuel : ℕ}
    (hfuel : src.sched.length + 2 ≤ fuel) :
    ∃ more chunk rp' src', refill fuel rp src = some (more, rp', src') ∧
      Refilled src more chunk rp' src' := by
  induction fuel generalizing rp src with
  | zero => omega
  | succ fuel ih =>
      obtain ⟨k, rfl⟩ : ∃ k, fuel = k + 1 := ⟨fuel - 1, by omega⟩
      obtain ⟨rest, sched, received⟩ := src
      rcases sched with _ | ⟨_ | limit, sched⟩
      · exact refill_of_deliver hbounds hempty (Nat.zero_lt_succ 8191) rfl
      · -- an interrupt: `cnt` is `-1` and the loop goes on
        dsimp only [List.length_cons] at hfuel
        have hbounds' : RioT.InBounds ⟨-1, rp.bufptr, rp.buf⟩ := by
          unfold RioT.InBounds at hbounds ⊢
          dsimp only
          omega
        have hneg : (-1 : ℤ) ≤ 0 := by decide
        obtain ⟨more, chunk, rp', src', hrefill, h⟩ :=
          @ih ⟨-1, rp.bufptr, rp.buf⟩ ⟨rest, sched, received⟩ hbounds' hneg (by dsimp only; omega)
        refine ⟨more, chunk, rp', src', ?_, h.rest, h.received, h.inBounds, h.ended, h.filled⟩
        rw [refill, if_pos hempty]
        exact hrefill
      · exact refill_of_deliver hbounds hempty
          (Nat.lt_min.mpr ⟨Nat.succ_pos _, Nat.zero_lt_succ 8191⟩) rfl

theorem copyOut_spec (hbounds : rp.InBounds) (hpos : 0 < rp.cnt) (n : ℕ) :
    ∃ rp', copyOut rp n = (((rp.unread.take n).length : ℤ), rp.unread.take n, rp') ∧
      rp'.InBounds ∧ rp'.unread = rp.unread.drop n := by
  have hlen := unread_length hbounds
  set cnt : ℤ := if rp.cnt < n then rp.cnt else n with hcnt
  have hmin : cnt.toNat = min n rp.cnt.toNat := by
    rw [hcnt]
    split <;> omega
  have hcast : cnt = ((rp.unread.take n).length : ℤ) := by
    rw [List.length_take, hlen, ← hmin]
    rw [hcnt]
    split <;> omega
  refine ⟨⟨rp.cnt - cnt, rp.bufptr + cnt.toNat, rp.buf⟩, ?_, ?_, ?_⟩
  · rw [← hcast]
    have htake : (rp.buf.drop rp.bufptr).take cnt.toNat = rp.unread.take n := by
      rw [hmin, RioT.unread, List.take_take]
    rw [← htake]
    rfl
  · unfold RioT.InBounds at hbounds ⊢
    dsimp only
    omega
  · unfold RioT.unread
    dsimp only
    rw [List.drop_take, List.drop_drop, hmin]
    obtain hle | hlt := Nat.le_total n rp.cnt.toNat
    · rw [Nat.min_eq_left hle, show (rp.cnt - cnt).toNat = rp.cnt.toNat - n by omega]
    · rw [Nat.min_eq_right hlt, show (rp.cnt - cnt).toNat = 0 by omega,
        Nat.sub_eq_zero_of_le hlt, List.take_zero, List.take_zero]

/-- The bytes of a call come from the buffer, or from a chunk read first. -/
theorem rioRead_cases (src : Source) (hbounds : rp.InBounds) (n : ℕ) :
    (0 < rp.cnt ∧ ∃ rp' : RioT, rioRead rp src n =
        some (((rp.unread.take n).length : ℤ), rp.unread.take n, rp', src) ∧
      rp'.InBounds ∧ rp'.unread = rp.unread.drop n) ∨
    (rp.cnt ≤ 0 ∧ ∃ (chunk : List Byte) (rp' : RioT) (src' : Source), rioRead rp src n =
        some (((chunk.take n).length : ℤ), chunk.take n, rp', src') ∧
      rp'.InBounds ∧ rp'.unread = chunk.drop n ∧ src.rest = chunk ++ src'.rest ∧
      src'.received = src.received ++ [chunk] ∧ (chunk = [] → src.rest = [])) := by
  obtain hempty | hpos := le_or_gt rp.cnt 0
  · obtain ⟨more, chunk, rp₁, src', hrefill, h⟩ :=
      @refill_spec rp src hbounds hempty _ (Nat.le_refl _)
    refine Or.inr ⟨hempty, chunk, ?_⟩
    cases more with
    | false =>
        obtain ⟨hend, rfl, hzero⟩ := h.ended rfl
        refine ⟨rp₁, src', ?_, h.inBounds, ?_, h.rest, h.received, fun _ => hend⟩
        · rw [rioRead, hrefill, List.take_nil]
          rfl
        · rw [unread_of_empty hzero.le, List.drop_nil]
    | true =>
        obtain ⟨hchunk, hcnt, hunread⟩ := h.filled rfl
        obtain ⟨rp', hcopy, hin', hunread'⟩ := copyOut_spec h.inBounds hcnt n
        rw [hunread] at hcopy hunread'
        refine ⟨rp', src', ?_, hin', hunread', h.rest, h.received, fun hnil => absurd hnil hchunk⟩
        rw [rioRead, hrefill, Option.map_some]
        simp only [hcopy, if_true]
  · refine Or.inl ⟨hpos, ?_⟩
    obtain ⟨rp', hcopy, hin', hunread'⟩ := copyOut_spec hbounds hpos n
    refine ⟨rp', ?_, hin', hunread'⟩
    rw [rioRead, refill_of_unread hpos, Option.map_some]
    simp only [hcopy, if_true]

end OsLabs.Rio
