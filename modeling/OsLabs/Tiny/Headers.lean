import OsLabs.Lib.CString
import OsLabs.Rio.Agreement

/-!
# The request headers of `tiny.c`

`read_requesthdrs` looks for an empty line in its buffer, which a read at the end of the
stream leaves as it was.
-/

namespace OsLabs.Tiny

open OsLabs.CString OsLabs.CNumber OsLabs.Lines OsLabs.Rio

def MAXLINE : ℕ := 8192

/-- `"\r\n"` -/
def emptyLine : List Byte := [13, newline]

/-- The user's buffer after a line read. -/
def filled (r : Result) (buf : List Byte) : List Byte :=
  let written := r.stored ++ if r.terminated then [0] else []
  written ++ buf.drop written.length

/-- The `while` loop of `read_requesthdrs`, with the lines printed so far. -/
def requesthdrsLoop : ℕ → RioT → Source → List Byte → List (List Byte) →
    Option (RioT × Source × List (List Byte))
  | 0, _, _, _, _ => none
  | fuel + 1, rp, src, buf, printed =>
      if str buf 0 ≠ emptyLine then
        (Csapp.readlineb rp src MAXLINE).bind fun r =>
          let buf := filled r buf
          requesthdrsLoop fuel r.rp r.src buf (printed ++ [str buf 0])
      else some (rp, src, printed)

/-- `read_requesthdrs`, where `buf` is what its array holds at first. -/
def read_requesthdrs (fuel : ℕ) (rp : RioT) (src : Source) (buf : List Byte) :
    Option (RioT × Source × List (List Byte)) :=
  (Csapp.readlineb rp src MAXLINE).bind fun r =>
    requesthdrsLoop fuel r.rp r.src (filled r buf) []

/-- The pieces a stream is read in: its lines, each cut where the buffer is full. -/
def pieces (s : List Byte) : List (List Byte) :=
  if lineOf MAXLINE s = [] then []
  else lineOf MAXLINE s :: pieces (s.drop (lineOf MAXLINE s).length)
termination_by s.length
decreasing_by
  have hpos := List.length_pos_of_ne_nil ‹lineOf MAXLINE s ≠ []›
  have hle := (lineOf_isPrefix MAXLINE s).length_le
  rw [List.length_drop]
  omega

variable {rp : RioT} {src : Source} {buf : List Byte}

theorem lineOf_eq_nil {s : List Byte} : lineOf MAXLINE s = [] ↔ s = [] := by
  refine ⟨fun h => ?_, fun h => ?_⟩
  · cases s with
    | nil => rfl
    | cons c s =>
        rw [lineOf, MAXLINE, List.take_succ_cons, upTo] at h
        split at h <;> cases h
  · rw [h, lineOf, List.take_nil, upTo_nil]

theorem lineOf_length_lt_MAXLINE (s : List Byte) : (lineOf MAXLINE s).length < MAXLINE := by
  have hle := (@upTo_isPrefix _ _ newline (s.take (MAXLINE - 1))).length_le
  rw [List.length_take] at hle
  exact Nat.lt_of_le_of_lt (hle.trans (Nat.min_le_left _ _)) (by decide)

theorem pieces_nil : pieces [] = [] := by
  rw [pieces, if_pos (lineOf_eq_nil.mpr rfl)]

theorem pieces_of_ne_nil {s : List Byte} (hs : s ≠ []) :
    pieces s = lineOf MAXLINE s :: pieces (s.drop (lineOf MAXLINE s).length) := by
  rw [pieces, if_neg fun h => hs (lineOf_eq_nil.mp h)]

theorem takeWhile_append_zero (l v : List Byte) :
    (l ++ 0 :: v).takeWhile (· ≠ 0) = l.takeWhile (· ≠ 0) := by
  induction l with
  | nil => rfl
  | cons c l ih => rw [List.cons_append, List.takeWhile_cons, List.takeWhile_cons, ih]

/-- A line is empty when it is so up to its first null byte. -/
theorem str_line {s v : List Byte} :
    str (lineOf MAXLINE s ++ 0 :: v) 0 = emptyLine ↔ lineOf MAXLINE s = emptyLine := by
  rw [str, List.drop_zero, takeWhile_append_zero]
  refine ⟨fun h => ?_, fun h => ?_⟩
  · have hline : emptyLine <+: lineOf MAXLINE s := h ▸ List.takeWhile_prefix _
    obtain ⟨t, ht⟩ := hline.trans (upTo_isPrefix (s.take (MAXLINE - 1)))
    -- nothing stands behind the newline of a line
    have hnewline : newline ∉ [(13 : Byte)] := by decide
    rw [lineOf, ← ht]
    exact upTo_line hnewline t
  · rw [h]
    rfl

/-- The stream holds an empty line, or is at its end and the buffer holds one. -/
def EmptyLineAhead (rp : RioT) (src : Source) (buf : List Byte) : Prop :=
  emptyLine ∈ pieces (remaining rp src) ∨ remaining rp src = [] ∧ str buf 0 = emptyLine

/-- A line read: the buffer holds it, or is left as it was at the end of the stream. -/
theorem readlineb_filled (src : Source) (hbounds : rp.InBounds) (buf : List Byte) :
    ∃ r, Csapp.readlineb rp src MAXLINE = some r ∧ r.rp.InBounds ∧
      remaining r.rp r.src = (remaining rp src).drop (lineOf MAXLINE (remaining rp src)).length ∧
      (str (filled r buf) 0 = emptyLine ↔ lineOf MAXLINE (remaining rp src) = emptyLine ∨
        remaining rp src = [] ∧ str buf 0 = emptyLine) := by
  have hlength := lineOf_length_lt_MAXLINE (remaining rp src)
  have hroom : 1 + ((lineOf MAXLINE (remaining rp src)).length : ℤ) ≤ INT_MAX := by
    have hmax : (MAXLINE : ℤ) ≤ INT_MAX := by decide
    omega
  obtain ⟨r, hr, hstored, hdelivers, hended, -⟩ := csapp_readlineb_spec src hbounds MAXLINE hroom
  rw [List.nil_append] at hstored
  refine ⟨r, hr, hdelivers.inBounds, ?_, ?_⟩
  · have hdrop := congrArg (List.drop (lineOf MAXLINE (remaining rp src)).length) hdelivers.stream
    rw [List.drop_left] at hdrop
    exact hdrop.symm
  · rw [filled, hended, hstored]
    by_cases hnil : remaining rp src = []
    · have hline := lineOf_eq_nil.mpr hnil
      have hne : ([] : List Byte) ≠ emptyLine := by decide
      have hone : 1 < MAXLINE := by decide
      rw [hline, decide_eq_true ⟨rfl, rfl, hone⟩]
      exact ⟨fun h => Or.inr ⟨hnil, h⟩, fun h => (h.resolve_left hne).2⟩
    · have hline : lineOf MAXLINE (remaining rp src) ≠ [] := fun h => hnil (lineOf_eq_nil.mp h)
      rw [decide_eq_false fun h => hline h.2.1, or_iff_left fun h => hnil h.1]
      rw [List.append_assoc]
      exact str_line

/-- What is read first decides whether the loop stops or has an empty line ahead. -/
theorem emptyLineAhead_iff (src : Source) (hbounds : rp.InBounds) (buf : List Byte) :
    ∃ r, Csapp.readlineb rp src MAXLINE = some r ∧ r.rp.InBounds ∧
      (remaining r.rp r.src).length ≤ (remaining rp src).length - 1 ∧
      (EmptyLineAhead rp src buf ↔ str (filled r buf) 0 = emptyLine ∨
        EmptyLineAhead r.rp r.src (filled r buf)) := by
  obtain ⟨r, hr, hin, hrest, hstr⟩ := readlineb_filled src hbounds buf
  refine ⟨r, hr, hin, ?_, ?_⟩
  · rw [hrest, List.length_drop]
    by_cases hnil : remaining rp src = []
    · rw [hnil, List.length_nil, Nat.zero_sub]
    · have hpos := List.length_pos_of_ne_nil (mt lineOf_eq_nil.mp hnil)
      omega
  · rw [EmptyLineAhead, EmptyLineAhead, hrest, hstr]
    by_cases hnil : remaining rp src = []
    · rw [hnil, List.drop_nil, pieces_nil, lineOf_eq_nil.mpr rfl]
      simp [emptyLine]
    · rw [pieces_of_ne_nil hnil, List.mem_cons]
      simp only [hnil, false_and, or_false]
      refine ⟨fun h => h.imp Eq.symm Or.inl, ?_⟩
      rintro (h | h | ⟨-, h⟩)
      · exact Or.inl h.symm
      · exact Or.inr h
      · exact Or.inl h.symm

/-- The loop ends when its buffer holds an empty line or there is one ahead. -/
theorem requesthdrsLoop_ends (n : ℕ) (src : Source) (hbounds : rp.InBounds) (buf : List Byte)
    (printed : List (List Byte)) (hn : (remaining rp src).length ≤ n)
    (h : str buf 0 = emptyLine ∨ EmptyLineAhead rp src buf) :
    ∃ fuel r, requesthdrsLoop fuel rp src buf printed = some r := by
  induction n generalizing rp src buf printed with
  | zero =>
      have hnil := List.eq_nil_of_length_eq_zero (Nat.le_zero.mp hn)
      have hbuf : str buf 0 = emptyLine := by
        obtain hbuf | hmem | ⟨-, hbuf⟩ := h
        · exact hbuf
        · rw [hnil, pieces_nil] at hmem
          exact absurd hmem List.not_mem_nil
        · exact hbuf
      exact ⟨1, (rp, src, printed), if_neg (not_not_intro hbuf)⟩
  | succ n ih =>
      by_cases hbuf : str buf 0 = emptyLine
      · exact ⟨1, (rp, src, printed), if_neg (not_not_intro hbuf)⟩
      · obtain ⟨r, hr, hin, hlength, hahead⟩ := emptyLineAhead_iff src hbounds buf
        obtain ⟨fuel, result, hloop⟩ := ih r.src hin (filled r buf)
          (printed ++ [str (filled r buf) 0]) (by omega) (hahead.mp (h.resolve_left hbuf))
        refine ⟨fuel + 1, result, ?_⟩
        rw [requesthdrsLoop, if_pos hbuf, hr, Option.bind_some]
        exact hloop

theorem requesthdrsLoop_needs {fuel : ℕ} {printed : List (List Byte)}
    {result : RioT × Source × List (List Byte)} (hbounds : rp.InBounds)
    (h : requesthdrsLoop fuel rp src buf printed = some result) :
    str buf 0 = emptyLine ∨ EmptyLineAhead rp src buf := by
  induction fuel generalizing rp src buf printed with
  | zero => cases h
  | succ fuel ih =>
      by_cases hbuf : str buf 0 = emptyLine
      · exact Or.inl hbuf
      · obtain ⟨r, hr, hin, -, hahead⟩ := emptyLineAhead_iff src hbounds buf
        rw [requesthdrsLoop, if_pos hbuf, hr, Option.bind_some] at h
        exact Or.inr (hahead.mpr (ih hin h))

theorem read_requesthdrs_needs {fuel : ℕ} {result : RioT × Source × List (List Byte)}
    (hbounds : rp.InBounds) (h : read_requesthdrs fuel rp src buf = some result) :
    EmptyLineAhead rp src buf := by
  obtain ⟨r, hr, hin, -, hahead⟩ := emptyLineAhead_iff src hbounds buf
  rw [read_requesthdrs, hr, Option.bind_some] at h
  exact hahead.mpr (requesthdrsLoop_needs hin h)

/-- The headers come to an end if and only if there is an empty line ahead: at the end of
the stream the loop finds what its buffer held before. -/
theorem read_requesthdrs_ends_iff (src : Source) (hbounds : rp.InBounds) (buf : List Byte) :
    (∃ fuel result, read_requesthdrs fuel rp src buf = some result) ↔
      EmptyLineAhead rp src buf := by
  refine ⟨fun ⟨_, _, h⟩ => read_requesthdrs_needs hbounds h, fun h => ?_⟩
  obtain ⟨r, hr, hin, -, hahead⟩ := emptyLineAhead_iff src hbounds buf
  obtain ⟨fuel, result, hloop⟩ := requesthdrsLoop_ends _ r.src hin _ [] le_rfl (hahead.mp h)
  exact ⟨fuel, result, by rw [read_requesthdrs, hr, Option.bind_some, hloop]⟩

/-- One header and the empty line. -/
theorem read_requesthdrs_ends_oneHeader : ∃ fuel result, read_requesthdrs fuel (readinitb [])
    ⟨[72, 58, 49, 13, 10, 13, 10], [some 2, none], []⟩ (List.replicate MAXLINE 65) =
      some result := by
  refine (read_requesthdrs_ends_iff ⟨[72, 58, 49, 13, 10, 13, 10], [some 2, none], []⟩
    (readinitb_inBounds []) (List.replicate MAXLINE 65)).mpr (Or.inl ?_)
  have hstream : remaining (readinitb []) ⟨[72, 58, 49, 13, 10, 13, 10], [some 2, none], []⟩ =
      [72, 58, 49, 13, 10, 13, 10] := rfl
  rw [hstream, pieces_of_ne_nil (by decide), pieces_of_ne_nil (by decide +kernel)]
  decide +kernel

/-- A request that ends inside its headers. -/
theorem truncated_headers_never_end : ¬ ∃ fuel result, read_requesthdrs fuel (readinitb [])
    ⟨[72, 58, 49, 13, 10], [], []⟩ (List.replicate MAXLINE 0) = some result := by
  rintro ⟨fuel, result, h⟩
  have hstream : remaining (readinitb []) ⟨[72, 58, 49, 13, 10], [], []⟩ =
      [72, 58, 49, 13, 10] := rfl
  obtain hmem | ⟨hnil, -⟩ := read_requesthdrs_needs (readinitb_inBounds []) h
  · rw [hstream, pieces_of_ne_nil (by decide)] at hmem
    have hrest : ([72, 58, 49, 13, 10] : List Byte).drop
        (lineOf MAXLINE [72, 58, 49, 13, 10]).length = [] := by
      decide +kernel
    rw [hrest, pieces_nil] at hmem
    exact absurd hmem (by decide +kernel)
  · rw [hstream] at hnil
    cases hnil

end OsLabs.Tiny
