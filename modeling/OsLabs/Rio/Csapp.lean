import Mathlib
import OsLabs.Lib.Lines
import OsLabs.Rio.Buffer
import OsLabs.Rio.CommIo

/-!
# Line reads of `csapp.c`

One call on an empty buffer, with the chunks it reads and the bytes it leaves in
the buffer.
-/

namespace OsLabs.Rio

open OsLabs.CNumber

namespace Csapp

/-- The `for` loop of `rio_readlineb`, with the bytes stored so far. -/
def readlinebLoop (maxlen : ℕ) : ℕ → ℤ → List Byte → RioT → Source → Option Result
  | 0, _, _, _, _ => none
  | fuel + 1, n, stored, rp, src =>
      if n < maxlen then
        match rioRead rp src 1 with
        | none => none
        | some (rc, c, rp, src) =>
            if rc = 1 then
              if c = [newline] then some ⟨n, stored ++ c, true, rp, src⟩
              else (increment n).bind fun n => readlinebLoop maxlen fuel n (stored ++ c) rp src
            else if rc = 0 then
              if n = 1 then some ⟨0, stored, false, rp, src⟩
              else some ⟨n, stored, true, rp, src⟩
            else some ⟨-1, stored, false, rp, src⟩
      else some ⟨n, stored, true, rp, src⟩

def readlineb (rp : RioT) (src : Source) (maxlen : ℕ) : Option Result :=
  readlinebLoop maxlen (maxlen + 1) 1 [] rp src

end Csapp

variable {rp rp' : RioT} {src src' : Source} {n : ℕ}

/-- The chunks read since `received₀` hold the bytes taken and the unread ones, and
the unread bytes lie behind a taken one in the last chunk. -/
structure Reading (received₀ : List (List Byte)) (taken : List Byte) (rp : RioT) (src : Source)
    (chunks : List (List Byte)) : Prop where
  inBounds : rp.InBounds
  received : src.received = received₀ ++ chunks
  bytes : chunks.flatten = taken ++ rp.unread
  behind : rp.unread ≠ [] → ∃ before used, chunks = before ++ [used ++ rp.unread] ∧
    used <:+ taken ∧ used ≠ []

theorem reading_start (hbounds : rp.InBounds) (hempty : rp.cnt ≤ 0) :
    Reading src.received [] rp src [] := by
  refine ⟨hbounds, (List.append_nil _).symm, ?_, fun h => absurd (unread_of_empty hempty) h⟩
  rw [unread_of_empty hempty]
  rfl

/-- One more byte of a stream that is not at its end. -/
theorem Reading.next {received₀ chunks : List (List Byte)} {taken : List Byte} {c : Byte}
    {s : List Byte} (h : Reading received₀ taken rp src chunks)
    (hs : remaining rp src = c :: s) : ∃ rp' src' chunks',
      rioRead rp src 1 = some (1, [c], rp', src') ∧ remaining rp' src' = s ∧
      Reading received₀ (taken ++ [c]) rp' src' chunks' := by
  obtain ⟨hpos, rp', hread, hin, hunread⟩ | ⟨hempty, chunk, rp', src', hread, hin, hunread, hrest,
    hreceived, hend⟩ := rioRead_cases src h.inBounds 1
  · -- the byte is in the buffer
    cases hu : rp.unread with
    | nil =>
        have hlen := unread_length h.inBounds
        rw [hu, List.length_nil] at hlen
        omega
    | cons c' u =>
        rw [remaining, hu, List.cons_append] at hs
        obtain ⟨rfl, htail⟩ := List.cons.inj hs
        rw [hu, List.drop_succ_cons, List.drop_zero] at hunread
        rw [hu] at hread
        obtain ⟨before, used, hchunks, hsuffix, -⟩ := h.behind (hu ▸ List.cons_ne_nil c' u)
        refine ⟨rp', src, chunks, hread, ?_, hin, h.received, ?_, fun _ => ?_⟩
        · rw [remaining, hunread]
          exact htail
        · rw [h.bytes, hu, hunread, List.append_assoc, List.singleton_append]
        · refine ⟨before, used ++ [c'], ?_, ?_,
            List.append_ne_nil_of_right_ne_nil _ (List.cons_ne_nil _ _)⟩
          · rw [hchunks, hu, hunread, List.append_assoc, List.singleton_append]
          · obtain ⟨t, rfl⟩ := hsuffix
            exact ⟨t, (List.append_assoc _ _ _).symm⟩
  · -- the byte comes with a new chunk
    have hu := unread_of_empty hempty
    rw [remaining, hu, List.nil_append, hrest] at hs
    cases chunk with
    | nil =>
        rw [← hrest, hend rfl] at hs
        exact absurd hs.symm (List.cons_ne_nil c s)
    | cons c' u =>
        obtain ⟨rfl, htail⟩ := List.cons.inj hs
        rw [List.drop_succ_cons, List.drop_zero] at hunread
        refine ⟨rp', src', chunks ++ [c' :: u], hread, ?_, hin, ?_, ?_, fun _ => ?_⟩
        · rw [remaining, hunread]
          exact htail
        · rw [hreceived, h.received, List.append_assoc]
        · rw [List.flatten_append, h.bytes, hu, hunread, List.flatten_singleton, List.append_nil,
            List.append_assoc, List.singleton_append]
        · exact ⟨chunks, [c'], by rw [hunread]; rfl, List.suffix_append _ _, List.cons_ne_nil _ _⟩

/-- A line shorter than the limit is stored whole, whatever is left in the buffer. -/
theorem readlinebLoop_line {maxlen : ℕ} (hmax : (maxlen : ℤ) ≤ INT_MAX) {l s : List Byte}
    (hl : newline ∉ l) (fuel : ℕ) (k : ℤ) (stored : List Byte)
    {received₀ chunks : List (List Byte)} (h : Reading received₀ stored rp src chunks)
    (hs : remaining rp src = l ++ newline :: s) (hfuel : l.length < fuel)
    (hk : k + l.length < maxlen) :
    ∃ r chunks', Csapp.readlinebLoop maxlen fuel k stored rp src = some r ∧
      r.stored = stored ++ l ++ [newline] ∧ r.ret = k + l.length ∧ remaining r.rp r.src = s ∧
      Reading received₀ (stored ++ l ++ [newline]) r.rp r.src chunks' := by
  induction l generalizing rp src fuel k stored chunks with
  | nil =>
      obtain ⟨fuel, rfl⟩ : ∃ m, fuel = m + 1 := ⟨fuel - 1, by omega⟩
      obtain ⟨rp', src', chunks', hread, hrest, h'⟩ := h.next hs
      rw [List.append_nil]
      rw [List.length_nil] at hk ⊢
      refine ⟨⟨k, stored ++ [newline], true, rp', src'⟩, chunks', ?_, rfl, (add_zero k).symm,
        hrest, h'⟩
      unfold Csapp.readlinebLoop
      rw [if_pos (by omega), hread]
      rfl
  | cons c l ih =>
      obtain ⟨fuel, rfl⟩ : ∃ m, fuel = m + 1 := ⟨fuel - 1, by omega⟩
      rw [List.mem_cons, not_or] at hl
      rw [List.length_cons] at hk hfuel ⊢
      push_cast at hk ⊢
      obtain ⟨rp', src', chunks', hread, hrest, h'⟩ := h.next hs
      obtain ⟨r, chunks'', hr, hstored, hret, hleft, h''⟩ :=
        ih hl.2 fuel (k + 1) (stored ++ [c]) h' hrest (by omega) (by omega)
      have hassoc : stored ++ [c] ++ l ++ [newline] = stored ++ (c :: l) ++ [newline] := by
        simp only [List.append_assoc, List.cons_append, List.nil_append]
      rw [hassoc] at hstored h''
      refine ⟨r, chunks'', ?_, hstored, by omega, hleft, h''⟩
      unfold Csapp.readlinebLoop
      rw [if_pos (by omega), hread]
      dsimp only
      rw [if_pos rfl, if_neg fun hc => hl.1 (List.singleton_inj.mp hc).symm, increment,
        if_pos (by omega), Option.bind_some]
      exact hr

theorem readlineb_line {maxlen : ℕ} (hmax : (maxlen : ℤ) ≤ INT_MAX) {l s : List Byte}
    (hl : newline ∉ l) (hlen : l.length + 1 < maxlen) (hbounds : rp.InBounds)
    (hempty : rp.cnt ≤ 0) (hs : src.rest = l ++ newline :: s) :
    ∃ r chunks, Csapp.readlineb rp src maxlen = some r ∧ r.stored = l ++ [newline] ∧
      r.ret = l.length + 1 ∧ remaining r.rp r.src = s ∧
      Reading src.received (l ++ [newline]) r.rp r.src chunks := by
  have hrem : remaining rp src = l ++ newline :: s := by
    rw [remaining, unread_of_empty hempty, List.nil_append, hs]
  obtain ⟨r, chunks, hr, hstored, hret, hrest, h⟩ := readlinebLoop_line hmax hl (maxlen + 1) 1 []
    (reading_start hbounds hempty) hrem (by omega) (by omega)
  exact ⟨r, chunks, hr, hstored, by omega, hrest, h⟩

/-- At the end of the stream nothing is stored. -/
theorem readlineb_end {maxlen : ℕ} (hmax : 1 < maxlen) (hbounds : rp.InBounds)
    (hempty : rp.cnt ≤ 0) (hs : src.rest = []) :
    ∃ r, Csapp.readlineb rp src maxlen = some r ∧ r.ret = 0 ∧ r.src.rest = [] ∧
      r.src.received = src.received ++ [[]] := by
  obtain ⟨hpos, -⟩ | ⟨-, chunk, rp', src', hread, -, -, hrest, hreceived, -⟩ :=
    rioRead_cases src hbounds 1
  · omega
  · obtain ⟨rfl, hend⟩ := List.append_eq_nil_iff.mp (hrest.symm.trans hs)
    refine ⟨⟨0, [], false, rp', src'⟩, ?_, rfl, hend, hreceived⟩
    unfold Csapp.readlineb Csapp.readlinebLoop
    rw [if_pos (by omega), hread]
    rfl

/-- A newline inside a chunk leaves bytes in the buffer, and no other chunk does. -/
theorem Reading.unread_eq_nil_iff {received₀ chunks : List (List Byte)} {l : List Byte}
    (h : Reading received₀ (l ++ [newline]) rp src chunks) (hl : newline ∉ l) :
    rp.unread = [] ↔ ∀ chunk ∈ chunks, newline ∉ chunk.dropLast := by
  refine ⟨fun hnil chunk hchunk hmem => ?_, fun hgood => ?_⟩
  · obtain ⟨before, after, rfl⟩ := List.append_of_mem hchunk
    have hbytes := h.bytes
    rw [hnil, List.append_nil, List.flatten_append, List.flatten_cons] at hbytes
    have hne : chunk ≠ [] := by
      rintro rfl
      exact absurd hmem List.not_mem_nil
    -- the newline stands before the last byte read
    have hdrop := congrArg List.dropLast hbytes
    rw [List.dropLast_concat] at hdrop
    rw [List.dropLast_append_of_ne_nil (List.append_ne_nil_of_left_ne_nil hne _)] at hdrop
    refine hl (hdrop ▸ List.mem_append_right _ ?_)
    by_cases hafter : after.flatten = []
    · rwa [hafter, List.append_nil]
    · rw [List.dropLast_append_of_ne_nil hafter]
      exact List.mem_append_left _ (List.mem_of_mem_dropLast hmem)
  · by_contra hunread
    obtain ⟨before, used, rfl, ⟨t, hsuffix⟩, hused⟩ := h.behind hunread
    refine hgood _ (List.mem_append_right _ List.mem_cons_self) ?_
    rw [List.dropLast_append_of_ne_nil hunread]
    refine List.mem_append_left _ ?_
    have hlast := congrArg List.getLast? hsuffix
    rw [List.getLast?_append_of_ne_nil _ hused, List.getLast?_concat] at hlast
    exact List.mem_of_getLast? hlast

end OsLabs.Rio
