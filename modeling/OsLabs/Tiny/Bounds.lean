import OsLabs.Tiny.Request

/-!
# How long the strings of a request are

The words of a request line fit in their arrays. The file name and the error page are
longer than the words they are made of, and do not always fit.
-/

namespace OsLabs.Tiny

open OsLabs.CString OsLabs.Rio

/-! ## Strings in arrays -/

section Strings

variable {dst src s t : List Byte} {n : ℕ}

/-- An array of `n` bytes with the string `s`. -/
structure Holds (buf : List Byte) (n : ℕ) (s : List Byte) : Prop where
  length : buf.length = n
  string : readString buf = .ok s

theorem readString_append (hs : 0 ∉ s) (v : List Byte) : readString (s ++ 0 :: v) = .ok s := by
  rw [readString, if_pos (List.mem_append_right _ List.mem_cons_self)]
  exact congrArg Except.ok (isStr_append hs [] v).str_eq

theorem readString_cases (buf : List Byte) :
    (0 ∉ buf ∧ readString buf = .error .outside) ∨
      ∃ s v, buf = s ++ 0 :: v ∧ 0 ∉ s ∧ readString buf = .ok s := by
  by_cases h : 0 ∈ buf
  · obtain ⟨s, v, rfl, hs⟩ := List.eq_append_cons_of_mem h
    exact Or.inr ⟨s, v, rfl, hs, readString_append hs v⟩
  · exact Or.inl ⟨h, if_neg h⟩

theorem zero_notMem_of_readString {buf : List Byte} (h : readString buf = .ok s) : 0 ∉ s := by
  obtain ⟨-, herror⟩ | ⟨s', v, -, hs', hok⟩ := readString_cases buf
  · rw [herror] at h
    cases h
  · obtain rfl := Except.ok.inj (hok.symm.trans h)
    exact hs'

theorem Holds.length_lt (h : Holds dst n s) : s.length < n := by
  obtain ⟨-, herror⟩ | ⟨s', v, rfl, -, hok⟩ := readString_cases dst
  · cases herror.symm.trans h.string
  · obtain rfl := Except.ok.inj (hok.symm.trans h.string)
    rw [← h.length, List.length_append, List.length_cons]
    omega

theorem writeString_fits (hdst : dst.length = n) (hs : 0 ∉ s) (hfits : s.length < n) :
    ∃ d, writeString dst s = .ok d ∧ Holds d n s := by
  refine ⟨_, if_pos (hdst ▸ hfits), ?_, readString_append hs _⟩
  simp only [List.length_append, List.length_cons, List.length_drop]
  omega

theorem writeString_overflows (hdst : dst.length = n) (hfits : n ≤ s.length) :
    writeString dst s = .error .outside :=
  if_neg (Nat.not_lt.mpr (hdst ▸ hfits))

theorem sprintfOn_fits (h : Holds dst n t) (hs : 0 ∉ s) (hfits : t.length + s.length < n) :
    ∃ d, sprintfOn dst s = .ok d ∧ Holds d n (t ++ s) := by
  have hnotMem : 0 ∉ t ++ s := by
    rw [List.mem_append, not_or]
    exact ⟨zero_notMem_of_readString h.string, hs⟩
  obtain ⟨d, hd, hholds⟩ := writeString_fits h.length hnotMem (List.length_append ▸ hfits)
  refine ⟨d, ?_, hholds⟩
  rw [sprintfOn, h.string, ok_bind, hd]

theorem sprintfOn_overflows (h : Holds dst n t) (hfits : n ≤ t.length + s.length) :
    sprintfOn dst s = .error .outside := by
  rw [sprintfOn, h.string, ok_bind, writeString_overflows h.length (List.length_append ▸ hfits)]

theorem strcat_eq (h : readString src = .ok s) : strcat dst src = sprintfOn dst s := by
  rw [strcat, sprintfOn, h]
  rfl

end Strings

/-! ## The request line -/

section Line

variable {line : List Byte} {a : Arrays}

structure Arrays.Sized (a : Arrays) : Prop where
  method : a.method.length = MAXLINE
  uri : a.uri.length = MAXLINE
  version : a.version.length = MAXLINE
  filename : a.filename.length = MAXLINE
  cgiargs : a.cgiargs.length = MAXLINE

/-- The string in an array after a word is scanned into it, or the array is left as it was. -/
def held (dst : List Byte) : Option (List Byte) → Except Fault (List Byte)
  | some w => .ok w
  | none => readString dst

def methodWord (line : List Byte) : Option (List Byte) := (nextWord line).map Prod.fst

def uriWord (line : List Byte) : Option (List Byte) :=
  (nextWord line).bind fun p => (nextWord p.2).map Prod.fst

theorem nextWord_some {s s' w : List Byte} (h : nextWord s = some (w, s')) (hs : 0 ∉ s) :
    0 ∉ w ∧ 0 ∉ s' ∧ w.length ≤ s.length ∧ s'.length ≤ s.length := by
  rw [nextWord] at h
  split at h
  · cases h
  · obtain ⟨rfl, rfl⟩ := Prod.mk.inj (Option.some.inj h)
    have hdrop := List.dropWhile_sublist isspace (l := s)
    have hword := (List.takeWhile_sublist (!isspace ·)).trans hdrop
    have hrest := (List.dropWhile_sublist (!isspace ·)).trans hdrop
    exact ⟨fun h0 => hs (hword.subset h0), fun h0 => hs (hrest.subset h0), hword.length_le,
      hrest.length_le⟩

/-- The words of a line that fits in a buffer fit in arrays of the same size. -/
theorem sscanf_spec (ha : a.Sized) (hline : 0 ∉ line) (hlength : line.length < MAXLINE) :
    ∃ a', sscanf line a = .ok a' ∧ a'.Sized ∧
      readString a'.method = held a.method (methodWord line) ∧
      readString a'.uri = held a.uri (uriWord line) := by
  rw [sscanf, methodWord, uriWord]
  cases hfirst : nextWord line with
  | none => exact ⟨a, rfl, ha, rfl, rfl⟩
  | some p =>
      obtain ⟨w₁, s₁⟩ := p
      obtain ⟨hw₁, hs₁, hlen₁, hrest₁⟩ := nextWord_some hfirst hline
      obtain ⟨method, hmethod, hm⟩ :=
        writeString_fits ha.method hw₁ (Nat.lt_of_le_of_lt hlen₁ hlength)
      dsimp only
      rw [hmethod, ok_bind, Option.bind_some]
      cases hsecond : nextWord s₁ with
      | none => exact ⟨_, rfl, { ha with method := hm.length }, hm.string, rfl⟩
      | some p =>
          obtain ⟨w₂, s₂⟩ := p
          obtain ⟨hw₂, hs₂, hlen₂, hrest₂⟩ := nextWord_some hsecond hs₁
          obtain ⟨uri, huri, hu⟩ := writeString_fits ha.uri hw₂ (by omega)
          dsimp only
          rw [huri, ok_bind]
          cases hthird : nextWord s₂ with
          | none =>
              exact ⟨_, rfl, { ha with method := hm.length, uri := hu.length }, hm.string,
                hu.string⟩
          | some p =>
              obtain ⟨w₃, s₃⟩ := p
              obtain ⟨hw₃, -, hlen₃, -⟩ := nextWord_some hthird hs₂
              obtain ⟨version, hversion, hv⟩ := writeString_fits ha.version hw₃ (by omega)
              dsimp only
              rw [hversion, ok_bind]
              have ha' : Arrays.Sized { a with method, uri, version } :=
                { ha with method := hm.length, uri := hu.length, version := hv.length }
              exact ⟨_, rfl, ha', hm.string, hu.string⟩

end Line

/-! ## The file name -/

section Filename

variable {uri filename cgiargs u : List Byte}

/-- The file name that `parse_uri` makes of the URI `u`. -/
def filenameOf (u : List Byte) : List Byte :=
  if isStatic u then
    bytes "." ++ u ++ if u.getLast? = some SLASH then bytes "home.html" else []
  else bytes "." ++ u.take (u.idxOf QUESTION)

/-- A null byte written into a string cuts it. -/
theorem readString_cut (h : Holds uri MAXLINE u) {ptr : ℕ} (hptr : ptr < u.length) :
    readString (uri.set ptr 0) = .ok (u.take ptr) := by
  have hzero := zero_notMem_of_readString h.string
  obtain ⟨-, herror⟩ | ⟨s, v, rfl, -, hok⟩ := readString_cases uri
  · cases herror.symm.trans h.string
  · obtain rfl := Except.ok.inj (hok.symm.trans h.string)
    rw [List.set_append_left _ _ hptr, List.set_eq_take_append_cons_drop, if_pos hptr,
      List.append_assoc, List.cons_append]
    exact readString_append (fun h0 => hzero (List.mem_of_mem_take h0)) _

/-- The URI is not empty and its file name fits, or `parse_uri` leaves an array. -/
theorem parse_uri_spec (huri : Holds uri MAXLINE u) (hfilename : filename.length = MAXLINE)
    (hcgiargs : cgiargs.length = MAXLINE) :
    ((u ≠ [] ∧ (filenameOf u).length < MAXLINE) ∧
      ∃ filename' cgiargs', parse_uri uri filename cgiargs =
          .ok (isStatic u, filename', cgiargs') ∧
        readString filename' = .ok (filenameOf u) ∧ ∃ args, readString cgiargs' = .ok args) ∨
    (¬ (u ≠ [] ∧ (filenameOf u).length < MAXLINE) ∧
      parse_uri uri filename cgiargs = .error .outside) := by
  have hzero := zero_notMem_of_readString huri.string
  have hdot : (0 : Byte) ∉ bytes "." := by decide
  have hhome : (0 : Byte) ∉ bytes "home.html" := by decide
  have hone : (bytes ".").length = 1 := by decide
  have hlt := huri.length_lt
  obtain ⟨dot, hdotOk, hdotHolds⟩ := writeString_fits hfilename hdot (show _ < MAXLINE by decide)
  obtain ⟨none', hnoneOk, hnoneHolds⟩ :=
    writeString_fits hcgiargs (List.not_mem_nil (a := 0)) (show _ < MAXLINE by decide)
  rw [parse_uri, huri.string, ok_bind, filenameOf]
  by_cases hstatic : isStatic u = true
  · rw [hstatic, if_pos rfl, if_pos rfl, hnoneOk, ok_bind, hdotOk, ok_bind, strcat_eq huri.string,
      List.length_append, List.length_append]
    by_cases hfits : (bytes ".").length + u.length < MAXLINE
    · obtain ⟨f, hf, hfHolds⟩ := sprintfOn_fits hdotHolds hzero hfits
      rw [hf, ok_bind]
      cases hlast : u.getLast? with
      | none =>
          have hnil := List.getLast?_eq_none_iff.mp hlast
          exact Or.inr ⟨fun h => h.1 hnil, rfl⟩
      | some last =>
          have hne : u ≠ [] := by
            rintro rfl
            cases hlast
          dsimp only
          by_cases hslash : last = SLASH
          · rw [hslash, if_pos rfl, if_pos rfl, strcat_eq (readString_append hhome [])]
            by_cases hroom : (bytes ".").length + u.length + (bytes "home.html").length < MAXLINE
            · obtain ⟨f', hf', hf'Holds⟩ :=
                sprintfOn_fits hfHolds hhome (by rwa [List.length_append])
              rw [hf', ok_bind]
              exact Or.inl ⟨⟨hne, hroom⟩, f', none', rfl, hf'Holds.string, [], hnoneHolds.string⟩
            · rw [sprintfOn_overflows hfHolds (by rw [List.length_append]; omega)]
              exact Or.inr ⟨fun h => hroom h.2, rfl⟩
          · have hlast' : ¬ some last = some SLASH := fun h => hslash (Option.some.inj h)
            rw [if_neg hslash, if_neg hlast', List.append_nil]
            exact Or.inl ⟨⟨hne, by rwa [List.length_nil]⟩, f, none', rfl, hfHolds.string, [],
              hnoneHolds.string⟩
    · rw [sprintfOn_overflows hdotHolds (Nat.not_lt.mp hfits)]
      exact Or.inr ⟨fun h => hfits (by omega), rfl⟩
  · have hne : u ≠ [] := by
      rintro rfl
      exact hstatic (by decide)
    rw [Bool.eq_false_of_not_eq_true hstatic, if_neg Bool.false_ne_true,
      if_neg Bool.false_ne_true, List.length_append]
    dsimp only
    by_cases hptr : u.idxOf QUESTION < u.length
    · -- what stands before the question mark is shorter than the string
      have hshort : (bytes ".").length + (u.take (u.idxOf QUESTION)).length < MAXLINE := by
        rw [hone, List.length_take]
        omega
      have hargs : (u.drop (u.idxOf QUESTION + 1)).length < MAXLINE := by
        rw [List.length_drop]
        omega
      obtain ⟨args, hargsOk, hargsHolds⟩ :=
        writeString_fits hcgiargs (fun h => hzero (List.mem_of_mem_drop h)) hargs
      obtain ⟨f, hf, hfHolds⟩ :=
        sprintfOn_fits hdotHolds (fun h => hzero (List.mem_of_mem_take h)) hshort
      rw [if_pos hptr, hargsOk, ok_bind, hdotOk, ok_bind, strcat_eq (readString_cut huri hptr), hf]
      exact Or.inl ⟨⟨hne, hshort⟩, f, args, rfl, hfHolds.string, _, hargsHolds.string⟩
    · have htake : u.take (u.idxOf QUESTION) = u := List.take_of_length_le (Nat.not_lt.mp hptr)
      rw [if_neg hptr, hnoneOk, ok_bind, hdotOk, ok_bind, strcat_eq huri.string, htake]
      by_cases hfits : (bytes ".").length + u.length < MAXLINE
      · obtain ⟨f, hf, hfHolds⟩ := sprintfOn_fits hdotHolds hzero hfits
        rw [hf]
        exact Or.inl ⟨⟨hne, hfits⟩, f, none', rfl, hfHolds.string, [], hnoneHolds.string⟩
      · rw [sprintfOn_overflows hdotHolds (Nat.not_lt.mp hfits)]
        exact Or.inr ⟨fun h => hfits h.2, rfl⟩

end Filename

/-! ## The error page -/

section ErrorPage

variable {cause c : List Byte} {m : ErrorMessage}

/-- The texts of a message are strings of at most 40 bytes. -/
structure ErrorMessage.Short (m : ErrorMessage) : Prop where
  errnum : 0 ∉ m.errnum ∧ m.errnum.length ≤ 40
  shortmsg : 0 ∉ m.shortmsg ∧ m.shortmsg.length ≤ 40
  longmsg : 0 ∉ m.longmsg ∧ m.longmsg.length ≤ 40

/-- How long a cause may not be: the page holds 99 bytes besides the cause and the texts. -/
def ErrorMessage.causeLimit (m : ErrorMessage) : ℕ :=
  MAXBUF - (99 + m.errnum.length + m.shortmsg.length + m.longmsg.length)

example : notImplemented.causeLimit = 8040 ∧ notFound.causeLimit = 8053 ∧
    notReadable.causeLimit = 8054 ∧ notExecutable.causeLimit = 8048 := by
  decide

theorem zero_notMem_decimal (n : ℕ) : 0 ∉ decimal n := by
  rw [decimal]
  split
  · decide
  · rw [List.mem_reverse, List.mem_map]
    rintro ⟨d, hd, hzero⟩
    have hlt := Nat.digits_lt_base (by decide : 1 < 10) hd
    have hvalue := congrArg UInt8.toNat hzero
    rw [UInt8.toNat_ofNat', Nat.mod_eq_of_lt (by omega)] at hvalue
    cases (Nat.add_eq_zero_iff.mp hvalue).1

theorem decimal_length_le {n : ℕ} (hn : n < MAXBUF) : (decimal n).length ≤ 4 := by
  rw [decimal]
  split
  · decide
  · rw [List.length_reverse, List.length_map, Nat.digits_length_le_iff (by decide)]
    exact hn.trans (by decide)

/-- The part of the page before the cause. -/
theorem errorBody_head (hm : m.Short) : ∃ line t, Holds line MAXBUF t ∧
    t.length = 58 + m.errnum.length + m.shortmsg.length ∧
    ∀ cause, errorBody cause m = readString cause >>= fun c => (do
      let body ← sprintfOn line (bytes "<p>" ++ m.longmsg ++ bytes ": " ++ c ++ bytes "\r\n")
      sprintfOn body (bytes "<hr><em>The Tiny Web server</em>\r\n")) := by
  obtain ⟨⟨herrnum, herrnumLe⟩, ⟨hshort, hshortLe⟩, -⟩ := hm
  have hpage : MAXBUF = 8192 := rfl
  have hend : (0 : Byte) ∉ bytes "\r\n" ∧ (bytes "\r\n").length = 2 := by decide
  have hcolon : (0 : Byte) ∉ bytes ": " ∧ (bytes ": ").length = 2 := by decide
  have hempty : (List.replicate MAXBUF (0 : Byte)).length = MAXBUF := List.length_replicate
  have hheadLength : (bytes "<html><title>Tiny Error</title>" ++
      bytes "<body bgcolor=ffffff>\r\n").length = 54 := by decide
  obtain ⟨title, htitle, htitleHolds⟩ := writeString_fits
    (s := bytes "<html><title>Tiny Error</title>") hempty (by decide) (by decide)
  obtain ⟨head, hhead, hheadHolds⟩ := sprintfOn_fits (s := bytes "<body bgcolor=ffffff>\r\n")
    htitleHolds (by decide) (by decide)
  obtain ⟨line, hline, hlineHolds⟩ :=
    sprintfOn_fits (s := m.errnum ++ bytes ": " ++ m.shortmsg ++ bytes "\r\n") hheadHolds
      (by simp [herrnum, hcolon, hshort, hend])
      (by rw [hheadLength]; simp only [List.length_append, hcolon, hend]; omega)
  refine ⟨line, _, hlineHolds, ?_, fun cause => ?_⟩
  · rw [List.length_append, hheadLength]
    simp only [List.length_append, hcolon, hend]
    omega
  · rw [errorBody, htitle, ok_bind, hhead, ok_bind, hline, ok_bind]

/-- The page fits in its array if and only if the cause is below the limit. -/
theorem errorBody_spec (hm : m.Short) (hcause : readString cause = .ok c) :
    (c.length < m.causeLimit ∧ ∃ body page, errorBody cause m = .ok body ∧
      Holds body MAXBUF page) ∨
      (m.causeLimit ≤ c.length ∧ errorBody cause m = .error .outside) := by
  obtain ⟨line, t, hline, hlength, hbody⟩ := errorBody_head hm
  obtain ⟨hlong, -⟩ := hm.longmsg
  have hzero := zero_notMem_of_readString hcause
  have hend : (0 : Byte) ∉ bytes "\r\n" ∧ (bytes "\r\n").length = 2 := by decide
  have hcolon : (0 : Byte) ∉ bytes ": " ∧ (bytes ": ").length = 2 := by decide
  have hopen : (0 : Byte) ∉ bytes "<p>" ∧ (bytes "<p>").length = 3 := by decide
  have hrule : (bytes "<hr><em>The Tiny Web server</em>\r\n").length = 34 := by decide
  rw [hbody, hcause, ok_bind, ErrorMessage.causeLimit]
  obtain ⟨s, hs⟩ : ∃ s, s = bytes "<p>" ++ m.longmsg ++ bytes ": " ++ c ++ bytes "\r\n" :=
    ⟨_, rfl⟩
  have hslength : s.length = 7 + m.longmsg.length + c.length := by
    simp only [hs, List.length_append, hopen, hcolon, hend]
    omega
  rw [← hs]
  by_cases hfits : t.length + s.length < MAXBUF
  · obtain ⟨body, hbody, hbodyHolds⟩ := sprintfOn_fits (s := s) hline
      (by simp [hs, hopen, hlong, hcolon, hzero, hend]) hfits
    rw [hbody, ok_bind]
    have hbodyLength := @List.length_append _ t s
    by_cases hroom : c.length <
        MAXBUF - (99 + m.errnum.length + m.shortmsg.length + m.longmsg.length)
    · obtain ⟨page, hok, hholds⟩ := sprintfOn_fits
        (s := bytes "<hr><em>The Tiny Web server</em>\r\n") hbodyHolds (by decide) (by omega)
      exact Or.inl ⟨hroom, page, _, hok, hholds⟩
    · exact Or.inr ⟨Nat.not_lt.mp hroom, sprintfOn_overflows hbodyHolds (by omega)⟩
  · refine Or.inr ⟨by omega, ?_⟩
    rw [sprintfOn_overflows hline (Nat.not_lt.mp hfits)]
    rfl

theorem clienterror_spec (hm : m.Short) (hcause : readString cause = .ok c) :
    (c.length < m.causeLimit ∧ ∃ written, clienterror cause m = .ok written) ∨
      (m.causeLimit ≤ c.length ∧ clienterror cause m = .error .outside) := by
  obtain ⟨hroom, body, page, hbody, hholds⟩ | ⟨hlimit, herror⟩ := errorBody_spec hm hcause
  · -- the other lines of the response are short
    obtain ⟨⟨herrnum, herrnumLe⟩, ⟨hshort, hshortLe⟩, -⟩ := hm
    have hline : MAXLINE = 8192 := rfl
    have hprotocol : (0 : Byte) ∉ bytes "HTTP/1.0 " ∧ (bytes "HTTP/1.0 ").length = 9 := by decide
    have hspace : (0 : Byte) ∉ bytes " " ∧ (bytes " ").length = 1 := by decide
    have hend : (0 : Byte) ∉ bytes "\r\n" ∧ (bytes "\r\n").length = 2 := by decide
    have hlength : (0 : Byte) ∉ bytes "Content-length: " ∧
        (bytes "Content-length: ").length = 16 := by
      decide
    have hends : (0 : Byte) ∉ bytes "\r\n\r\n" ∧ (bytes "\r\n\r\n").length = 4 := by decide
    have hdigits := decimal_length_le hholds.length_lt
    have hempty : (List.replicate MAXLINE (0 : Byte)).length = MAXLINE := List.length_replicate
    obtain ⟨buf₁, hbuf₁, h₁⟩ := writeString_fits
      (s := bytes "HTTP/1.0 " ++ m.errnum ++ bytes " " ++ m.shortmsg ++ bytes "\r\n") hempty
      (by simp [hprotocol, herrnum, hspace, hshort, hend])
      (by simp only [List.length_append, hprotocol, hspace, hend]; omega)
    obtain ⟨buf₂, hbuf₂, h₂⟩ := writeString_fits (s := bytes "Content-type: text/html\r\n")
      h₁.length (by decide) (by decide)
    obtain ⟨buf₃, hbuf₃, h₃⟩ := writeString_fits
      (s := bytes "Content-length: " ++ decimal page.length ++ bytes "\r\n\r\n") h₂.length
      (by simp [hlength, zero_notMem_decimal, hends])
      (by simp only [List.length_append, hlength, hends]; omega)
    refine Or.inl ⟨hroom, ?_⟩
    rw [clienterror, hbody, ok_bind, hholds.string, ok_bind, hbuf₁, ok_bind, h₁.string, ok_bind,
      hbuf₂, ok_bind, h₂.string, ok_bind, hbuf₃, ok_bind, h₃.string]
    exact ⟨_, rfl⟩
  · exact Or.inr ⟨hlimit, by rw [clienterror, herror]; rfl⟩

theorem clienterror_unread (hm : m.Short) (hcause : readString cause = .error .outside) :
    clienterror cause m = .error .outside := by
  obtain ⟨line, t, -, -, hbody⟩ := errorBody_head hm
  rw [clienterror, hbody, hcause]
  rfl

end ErrorPage

/-! ## The request -/

/-- The message with which a file is refused, if it is. -/
def refusal (stat : List Byte → Option FileStatus) (u : List Byte) : Option ErrorMessage :=
  match stat (filenameOf u) with
  | none => some notFound
  | some st =>
      if isStatic u then if !st.regular || !st.readable then some notReadable else none
      else if !st.regular || !st.executable then some notExecutable else none

/-- The file name of the URI `u` is shorter than its array, and below the limit of the error
page with which the file is refused. -/
structure FileFits (stat : List Byte → Option FileStatus) (u : List Byte) : Prop where
  nonempty : u ≠ []
  filename : (filenameOf u).length < MAXLINE
  page : ∀ m, refusal stat u = some m → (filenameOf u).length < m.causeLimit

/-- The method of a request is `GET` and its file name fits, or it is below the limit of the
error page. -/
def RequestFits (stat : List Byte → Option FileStatus) (line : List Byte) (a : Arrays) : Prop :=
  ∃ method, held a.method (methodWord line) = .ok method ∧
    if strcasecmp method (bytes "GET") then method.length < notImplemented.causeLimit
    else ∃ u, held a.uri (uriWord line) = .ok u ∧ FileFits stat u

section Doit

variable {stat : List Byte → Option FileStatus} {l junk : List Byte} {a : Arrays}

theorem notImplemented_short : notImplemented.Short := ⟨by decide, by decide, by decide⟩

theorem refusal_short {u : List Byte} {m : ErrorMessage} (h : refusal stat u = some m) :
    m.Short := by
  rw [refusal] at h
  split at h
  · obtain rfl := Option.some.inj h
    exact ⟨by decide, by decide, by decide⟩
  · split at h <;> split at h
    · obtain rfl := Option.some.inj h
      exact ⟨by decide, by decide, by decide⟩
    · cases h
    · obtain rfl := Option.some.inj h
      exact ⟨by decide, by decide, by decide⟩
    · cases h

theorem readString_eq_str {buf s : List Byte} (h : readString buf = .ok s) : str buf 0 = s := by
  rw [readString] at h
  split at h
  · exact Except.ok.inj h
  · cases h

theorem strcasecmp_of_length {s t : List Byte} (h : s.length ≠ t.length) :
    strcasecmp s t = true := by
  rw [strcasecmp, decide_eq_true_eq]
  intro heq
  have hlength := congrArg List.length heq
  rw [List.length_map, List.length_map] at hlength
  exact h hlength

/-- A refused file is answered by its error page, and any other is served. -/
theorem serve_refusal {filename cgiargs u args : List Byte}
    (hfilename : readString filename = .ok (filenameOf u))
    (hcgiargs : readString cgiargs = .ok args) :
    (∃ m, refusal stat u = some m ∧ serve stat (isStatic u) filename cgiargs =
      clienterror filename m >>= fun written => .ok (.error written)) ∨
    (refusal stat u = none ∧ ∃ response, serve stat (isStatic u) filename cgiargs =
      .ok response) := by
  rw [serve, hfilename, ok_bind, refusal]
  cases stat (filenameOf u) with
  | none => exact Or.inl ⟨_, rfl, rfl⟩
  | some st =>
      dsimp only
      by_cases hstatic : isStatic u = true
      · rw [if_pos hstatic, if_pos hstatic]
        by_cases hrefused : (!st.regular || !st.readable) = true
        · rw [if_pos hrefused, if_pos hrefused]
          exact Or.inl ⟨_, rfl, rfl⟩
        · rw [if_neg hrefused, if_neg hrefused]
          exact Or.inr ⟨rfl, _, rfl⟩
      · rw [if_neg hstatic, if_neg hstatic]
        by_cases hrefused : (!st.regular || !st.executable) = true
        · rw [if_pos hrefused, if_pos hrefused]
          exact Or.inl ⟨_, rfl, rfl⟩
        · rw [if_neg hrefused, if_neg hrefused, hcgiargs]
          exact Or.inr ⟨rfl, _, rfl⟩

/-- The error page of a refused file is below its limit, or `clienterror` leaves an array. -/
theorem serve_spec {filename cgiargs u args : List Byte}
    (hfilename : readString filename = .ok (filenameOf u))
    (hcgiargs : readString cgiargs = .ok args) :
    ((∀ m, refusal stat u = some m → (filenameOf u).length < m.causeLimit) ∧
      ∃ response, serve stat (isStatic u) filename cgiargs = .ok response) ∨
    (¬ (∀ m, refusal stat u = some m → (filenameOf u).length < m.causeLimit) ∧
      serve stat (isStatic u) filename cgiargs = .error .outside) := by
  obtain ⟨m, hm, hserve⟩ | ⟨hnone, hserved⟩ := @serve_refusal stat _ _ _ _ hfilename hcgiargs
  · rw [hserve, hm]
    obtain ⟨hroom, written, hwritten⟩ | ⟨hlimit, herror⟩ :=
      clienterror_spec (refusal_short hm) hfilename
    · exact Or.inl ⟨fun m' hm' => Option.some.inj hm' ▸ hroom, .error written,
        by rw [hwritten]; rfl⟩
    · exact Or.inr ⟨fun hall => Nat.not_lt.mpr hlimit (hall m rfl), by rw [herror]; rfl⟩
  · rw [hnone]
    exact Or.inl ⟨fun m hm => (by cases hm), hserved⟩

/-- Every string of a request fits, or `doit` leaves an array. -/
theorem doit_cases (hl : l.length < MAXLINE) (ha : a.Sized) :
    (RequestFits stat (l.takeWhile (· ≠ 0)) a ∧
      ∃ response, doit stat (l ++ 0 :: junk) a = .ok response) ∨
    (¬ RequestFits stat (l.takeWhile (· ≠ 0)) a ∧
      doit stat (l ++ 0 :: junk) a = .error .outside) := by
  have hline : readString (l ++ 0 :: junk) = .ok (l.takeWhile (· ≠ 0)) := by
    rw [readString, if_pos (List.mem_append_right _ List.mem_cons_self), str, List.drop_zero,
      takeWhile_append_zero]
  have hzero : 0 ∉ l.takeWhile (· ≠ 0) := zero_notMem_of_readString hline
  have hlength := Nat.lt_of_le_of_lt (List.takeWhile_sublist (· ≠ 0)).length_le hl
  obtain ⟨a', hscan, ha', hmethod, huri⟩ := sscanf_spec ha hzero hlength
  rw [doit, hline, ok_bind, hscan, ok_bind, RequestFits, ← hmethod]
  obtain ⟨hunread, herror⟩ | ⟨method, v, hcontents, -, hok⟩ := readString_cases a'.method
  · -- the method is not a string, and longer than "GET"
    have hlong : strcasecmp (str a'.method 0) (bytes "GET") = true := by
      refine strcasecmp_of_length ?_
      have hall : str a'.method 0 = a'.method := by
        rw [str, List.drop_zero, List.takeWhile_eq_self_iff]
        intro c hc
        exact decide_eq_true fun h0 => hunread (h0 ▸ hc)
      rw [hall, ha'.method]
      decide
    rw [if_pos hlong, clienterror_unread notImplemented_short herror, herror]
    refine Or.inr ⟨?_, rfl⟩
    rintro ⟨method, hmethod, -⟩
    cases hmethod
  · rw [readString_eq_str hok, hok]
    by_cases hget : strcasecmp method (bytes "GET") = true
    · rw [if_pos hget]
      obtain ⟨hroom, written, hwritten⟩ | ⟨hlimit, herror⟩ :=
        clienterror_spec notImplemented_short hok
      · refine Or.inl ⟨⟨method, rfl, ?_⟩, .error written, by rw [hwritten]; rfl⟩
        rwa [if_pos hget]
      · refine Or.inr ⟨?_, by rw [herror]; rfl⟩
        rintro ⟨method', hmethod', hfits⟩
        obtain rfl := Except.ok.inj hmethod'
        rw [if_pos hget] at hfits
        exact Nat.not_lt.mpr hlimit hfits
    · rw [if_neg hget]
      have hfits : (∃ method', Except.ok method = Except.ok (ε := Fault) method' ∧
          if strcasecmp method' (bytes "GET") then method'.length < notImplemented.causeLimit
          else ∃ u, held a.uri (uriWord (l.takeWhile (· ≠ 0))) = .ok u ∧ FileFits stat u) ↔
          ∃ u, readString a'.uri = .ok u ∧ FileFits stat u := by
        simp [hget, huri]
      rw [hfits]
      obtain ⟨-, herror⟩ | ⟨u, v, -, -, hu⟩ := readString_cases a'.uri
      · rw [herror, parse_uri, herror]
        refine Or.inr ⟨?_, rfl⟩
        rintro ⟨u, hu, -⟩
        cases hu
      · obtain ⟨⟨hne, hname⟩, filename, cgiargs, hparsed, hfilename, args, hargs⟩ |
          ⟨hname, herror⟩ := parse_uri_spec ⟨ha'.uri, hu⟩ ha'.filename ha'.cgiargs
        · rw [hparsed, ok_bind]
          obtain ⟨hlimits, hserved⟩ | ⟨hlimits, herror⟩ := @serve_spec stat _ _ _ _ hfilename hargs
          · exact Or.inl ⟨⟨u, hu, hne, hname, hlimits⟩, hserved⟩
          · refine Or.inr ⟨?_, herror⟩
            rintro ⟨u', hu', h⟩
            obtain rfl := Except.ok.inj (hu.symm.trans hu')
            exact hlimits h.page
        · rw [herror]
          refine Or.inr ⟨?_, rfl⟩
          rintro ⟨u', hu', h⟩
          obtain rfl := Except.ok.inj (hu.symm.trans hu')
          exact hname ⟨h.nonempty, h.filename⟩

/-- No string leaves its array if and only if the request fits. -/
theorem request_within_iff (stat : List Byte → Option FileStatus) (hl : l.length < MAXLINE)
    (junk : List Byte) (ha : a.Sized) :
    (∃ response, doit stat (l ++ 0 :: junk) a = .ok response) ↔
      RequestFits stat (l.takeWhile (· ≠ 0)) a := by
  obtain ⟨hfits, hok⟩ | ⟨hfits, herror⟩ := @doit_cases stat l junk a hl ha
  · exact iff_of_true hok hfits
  · refine iff_of_false ?_ hfits
    rintro ⟨response, hok⟩
    cases herror.symm.trans hok

def zeroArrays : Arrays where
  method := List.replicate MAXLINE 0
  uri := List.replicate MAXLINE 0
  version := List.replicate MAXLINE 0
  filename := List.replicate MAXLINE 0
  cgiargs := List.replicate MAXLINE 0

theorem zeroArrays_sized : zeroArrays.Sized :=
  ⟨List.length_replicate, List.length_replicate, List.length_replicate, List.length_replicate,
    List.length_replicate⟩

/-- `GET / HTTP/1.0` -/
theorem request_within_root : ∃ response, doit (fun _ => none)
    (bytes "GET / HTTP/1.0\r\n" ++ 0 :: []) zeroArrays = .ok response := by
  refine (request_within_iff (fun _ => none) (by decide) [] zeroArrays_sized).mpr
    ⟨bytes "GET", by decide +kernel, ?_⟩
  rw [if_neg (by decide)]
  refine ⟨bytes "/", by decide +kernel, by decide, by decide +kernel, fun m hm => ?_⟩
  obtain rfl := Option.some.inj hm
  decide +kernel

/-- A line that is one word of `n` letters. -/
theorem methodWord_letters {n : ℕ} (hn : 0 < n) :
    methodWord ((List.replicate n 65 ++ [newline]).takeWhile (· ≠ 0)) =
      some (List.replicate n 65) := by
  have hletter (c : Byte) (hc : c ∈ List.replicate n (65 : Byte)) : c = 65 :=
    List.eq_of_mem_replicate hc
  have hline : (List.replicate n 65 ++ [newline]).takeWhile (· ≠ (0 : Byte)) =
      List.replicate n 65 ++ [newline] := by
    rw [List.takeWhile_append_of_pos fun c hc => by rw [hletter c hc]; decide]
    rfl
  have hstart : (List.replicate n 65 ++ [newline]).dropWhile isspace =
      List.replicate n 65 ++ [newline] := by
    obtain ⟨k, rfl⟩ := Nat.exists_eq_succ_of_ne_zero hn.ne'
    rfl
  have hword : (List.replicate n 65 ++ [newline]).takeWhile (!isspace ·) =
      List.replicate n 65 := by
    rw [List.takeWhile_append_of_pos fun c hc => by rw [hletter c hc]; decide]
    exact List.append_nil _
  have hne : List.replicate n 65 ++ [newline] ≠ [] :=
    List.append_ne_nil_of_right_ne_nil _ (List.cons_ne_nil _ _)
  rw [hline, methodWord, nextWord, hstart, if_neg hne, Option.map_some, hword]

/-- A method of 8190 bytes and a newline: the error page has no room for it. -/
theorem long_method_overflows : doit (fun _ => none)
    (List.replicate 8190 65 ++ [newline] ++ 0 :: []) zeroArrays = .error .outside := by
  have hlength : (List.replicate 8190 (65 : Byte)).length = 8190 := List.length_replicate
  have hl : (List.replicate 8190 65 ++ [newline]).length < MAXLINE := by
    rw [List.length_append, hlength]
    decide
  obtain ⟨⟨method, hmethod, hfits⟩, -⟩ | ⟨-, herror⟩ :=
    @doit_cases (fun _ => none) _ [] _ hl zeroArrays_sized
  · rw [methodWord_letters (by decide)] at hmethod
    obtain rfl := Except.ok.inj hmethod
    have hget : strcasecmp (List.replicate 8190 65) (bytes "GET") = true :=
      strcasecmp_of_length (by rw [hlength]; decide)
    rw [if_pos hget, hlength] at hfits
    exact absurd hfits (by decide)
  · exact herror

end Doit

end OsLabs.Tiny
