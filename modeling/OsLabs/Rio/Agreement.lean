import OsLabs.Rio.Csapp

/-!
# Two line readers

`rio_readlineb` of `csapp.c` returns its counter, and that of `commIO_cd.c` the counter
less one. The counters differ after a newline only.
-/

namespace OsLabs.Rio

open OsLabs.Lines OsLabs.CNumber

variable {rp : RioT} {src : Source}

/-- What the loop of `csapp.c` does with the line `d`, unless its counter overflows: it
returns its counter, which counts the newline but not the end of the stream or of the
buffer, and ends what it stored unless it met the end of the stream at once. -/
def Counted (maxlen : ℕ) (k : ℤ) (stored d : List Byte) (rp : RioT) (src : Source)
    (o : Option Result) : Prop :=
  k + d.length ≤ INT_MAX → ∃ r, o = some r ∧ r.stored = stored ++ d ∧
    Delivers rp src d r.rp r.src ∧ r.terminated = !decide (k = 1 ∧ d = [] ∧ 1 < maxlen) ∧
    r.ret = if newline ∈ d then k - 1 + d.length
      else if k = 1 ∧ d = [] ∧ 1 < maxlen then 0 else k + d.length

theorem Counted.cons {maxlen : ℕ} {k : ℤ} {stored d : List Byte} {c : Byte} {rp' : RioT}
    {src' : Source} {o : Option Result} (h : Counted maxlen (k + 1) (stored ++ [c]) d rp' src' o)
    (hk : 0 < k) (hc : c ≠ newline) (hdelivers : Delivers rp src [c] rp' src') :
    Counted maxlen k stored (c :: d) rp src o := by
  intro hroom
  rw [List.length_cons] at hroom
  push_cast at hroom
  obtain ⟨r, ho, hstored, hrest, hended, hret⟩ := h (by omega)
  have hfirst : ¬ (k + 1 = 1 ∧ d = [] ∧ 1 < maxlen) := fun hand => by omega
  refine ⟨r, ho, ?_, ⟨?_, hrest.inBounds⟩, ?_, ?_⟩
  · rw [hstored, List.append_assoc, List.singleton_append]
  · rw [hdelivers.stream, hrest.stream]
    rfl
  · rw [hended, decide_eq_false hfirst]
    simp
  · have hmem : newline ∈ c :: d ↔ newline ∈ d := by
      rw [List.mem_cons, or_iff_right (Ne.symm hc)]
    rw [hret, if_neg hfirst, List.length_cons]
    simp only [hmem, List.cons_ne_nil, false_and, and_false, if_false]
    push_cast
    by_cases hnewline : newline ∈ d
    · rw [if_pos hnewline, if_pos hnewline]
      omega
    · rw [if_neg hnewline, if_neg hnewline]
      omega

theorem csapp_readlinebLoop_spec (maxlen fuel : ℕ) (k : ℤ) (stored : List Byte)
    (hbounds : rp.InBounds) (hk : 0 < k) (hpos : 0 < fuel) (hfuel : (maxlen : ℤ) < fuel + k) :
    Counted maxlen k stored (lineOf (((maxlen : ℤ) - k).toNat + 1) (remaining rp src)) rp src
      (Csapp.readlinebLoop maxlen fuel k stored rp src) := by
  induction fuel generalizing rp src k stored with
  | zero => exact absurd hpos (Nat.lt_irrefl 0)
  | succ fuel ih =>
      unfold Csapp.readlinebLoop lineOf
      by_cases hlt : k < maxlen
      · rw [if_pos hlt]
        obtain ⟨m, hm⟩ : ∃ m, ((maxlen : ℤ) - k).toNat = m + 1 :=
          ⟨((maxlen : ℤ) - k).toNat - 1, by omega⟩
        rw [hm, Nat.add_sub_cancel]
        obtain ⟨rp', src', hread, hend, hdelivers⟩ | ⟨c, rp', src', hread, hdelivers⟩ :=
          rioRead_one src hbounds
        · -- the end of the stream
          rw [hread, hend, List.take_nil, upTo_nil]
          intro _
          dsimp only
          by_cases hone : k = 1
          · refine ⟨_, by rw [if_neg (by decide), if_pos rfl, if_pos hone],
              (List.append_nil _).symm, hdelivers, ?_, ?_⟩
            · simp [hone, show 1 < maxlen by omega]
            · rw [if_neg List.not_mem_nil, if_pos ⟨hone, rfl, by omega⟩]
          · refine ⟨_, by rw [if_neg (by decide), if_pos rfl, if_neg hone],
              (List.append_nil _).symm, hdelivers, ?_, ?_⟩
            · simp [hone]
            · rw [if_neg List.not_mem_nil, if_neg fun hand => hone hand.1]
              exact (add_zero _).symm
        · rw [hread, hdelivers.stream, List.singleton_append, List.take_succ_cons]
          dsimp only
          rw [if_pos rfl]
          by_cases hnewline : c = newline
          · subst hnewline
            rw [if_pos rfl, upTo_cons_self]
            refine fun _ => ⟨_, rfl, rfl, hdelivers, by simp, ?_⟩
            rw [if_pos List.mem_cons_self, List.length_singleton]
            dsimp only
            omega
          · rw [if_neg fun hc => hnewline (List.singleton_inj.mp hc), upTo_cons_of_ne hnewline]
            unfold increment
            by_cases hroom : k < INT_MAX
            · rw [if_pos hroom, Option.bind_some]
              have hrest := @ih rp' src' (k + 1) (stored ++ [c]) hdelivers.inBounds (by omega)
                (by push_cast at hfuel; omega) (by push_cast at hfuel; omega)
              rw [show ((maxlen : ℤ) - (k + 1)).toNat = m by omega, lineOf, Nat.add_sub_cancel]
                at hrest
              exact hrest.cons hk hnewline hdelivers
            · intro hover
              rw [List.length_cons] at hover
              push_cast at hover
              omega
      · rw [if_neg hlt, show ((maxlen : ℤ) - k).toNat = 0 by omega]
        have hfirst : ¬ (k = 1 ∧ ([] : List Byte) = [] ∧ 1 < maxlen) := fun hand => by omega
        rw [List.take_zero, upTo_nil]
        refine fun _ => ⟨_, rfl, (List.append_nil _).symm, ⟨rfl, hbounds⟩, ?_, ?_⟩
        · rw [decide_eq_false hfirst]
          rfl
        · rw [if_neg List.not_mem_nil, if_neg hfirst]
          exact (add_zero _).symm

theorem csapp_readlineb_spec (src : Source) (hbounds : rp.InBounds) (maxlen : ℕ) :
    Counted maxlen 1 [] (lineOf maxlen (remaining rp src)) rp src
      (Csapp.readlineb rp src maxlen) := by
  have h := @csapp_readlinebLoop_spec rp src maxlen (maxlen + 1) 1 [] hbounds Int.one_pos
    (Nat.succ_pos _) (by push_cast; omega)
  rwa [lineOf, Nat.add_sub_cancel, show ((maxlen : ℤ) - 1).toNat = maxlen - 1 by omega] at h

/-- Both readers deliver the same bytes and return their number, which is zero at the end of
the stream only. -/
def Agree (maxlen : ℕ) (rp : RioT) (src : Source) : Prop :=
  ∃ r r', Csapp.readlineb rp src maxlen = some r ∧ CommIo.readlineb rp src maxlen = some r' ∧
    r.stored = r'.stored ∧ r.ret = r'.ret ∧ r.ret = r.stored.length ∧
    (r.ret = 0 → remaining rp src = [])

/-- A newline is met before the limit and before the counter overflows, or there is nothing
left to read. -/
def MeetsNewline (maxlen : ℕ) (s : List Byte) : Prop :=
  newline ∈ s.take (min (maxlen - 1) (INT_MAX - 1).toNat) ∨ s = [] ∧ 1 < maxlen

theorem newline_mem_lineOf {maxlen : ℕ} {s : List Byte} :
    newline ∈ lineOf maxlen s ↔ newline ∈ s.take (maxlen - 1) := by
  rw [lineOf]
  obtain ⟨-, heq⟩ | ⟨l, t, -, hs, heq⟩ := upTo_cases newline (s.take (maxlen - 1))
  · rw [heq]
  · rw [heq, hs]
    simp

/-- Where a line has its newline it is shorter than the bound exactly when the newline is. -/
theorem lineOf_room {maxlen : ℕ} {s : List Byte} (hmem : newline ∈ s.take (maxlen - 1)) :
    1 + ((lineOf maxlen s).length : ℤ) ≤ INT_MAX ↔
      newline ∈ s.take (min (maxlen - 1) (INT_MAX - 1).toNat) := by
  have hmax : INT_MAX = ((INT_MAX - 1).toNat : ℤ) + 1 := by decide
  generalize (INT_MAX - 1).toNat = n at hmax ⊢
  have hlength : 1 + ((lineOf maxlen s).length : ℤ) ≤ INT_MAX ↔ (lineOf maxlen s).length ≤ n := by
    omega
  rw [hlength, lineOf, upTo_length_le, List.take_take, Nat.min_comm n]
  refine or_iff_right_of_imp fun hshort => ?_
  rw [List.length_take] at hshort
  by_cases hle : maxlen - 1 ≤ n
  · rwa [Nat.min_eq_left hle]
  · rw [List.take_of_length_le (by omega)] at hmem
    rwa [List.take_of_length_le (by omega)]

/-- The two line readers agree where they meet a newline, or the end of the stream at once. -/
theorem readlineb_agree_iff (src : Source) (hbounds : rp.InBounds) (maxlen : ℕ) :
    Agree maxlen rp src ↔ MeetsNewline maxlen (remaining rp src) := by
  have hcsapp := csapp_readlineb_spec src hbounds maxlen
  have hmem := @newline_mem_lineOf maxlen (remaining rp src)
  constructor
  · rintro ⟨r, r', hr, hr', hstored, hret, hcount, -⟩
    obtain ⟨hroom, -⟩ | ⟨-, hnone⟩ := readlineb_spec src hbounds maxlen
    · obtain ⟨r₁, hr₁, hstored₁, -, -, hret₁⟩ := hcsapp hroom
      obtain rfl := Option.some.inj (hr.symm.trans hr₁)
      rw [List.nil_append] at hstored₁
      by_cases hnewline : newline ∈ lineOf maxlen (remaining rp src)
      · exact Or.inl ((lineOf_room (hmem.mp hnewline)).mp hroom)
      · rw [if_neg hnewline, hcount, hstored₁] at hret₁
        split at hret₁
        · next hend =>
            obtain ⟨-, hnil, hone⟩ := hend
            refine Or.inr ⟨?_, hone⟩
            rw [lineOf, upTo_of_not_mem (fun h => hnewline (hmem.mpr h))] at hnil
            exact (List.take_eq_nil_iff.mp hnil).resolve_left (by omega)
        · omega
    · rw [hnone] at hr'
      cases hr'
  · rintro (hnewline | ⟨hnil, hone⟩)
    · -- both stop at the newline
      have htake : newline ∈ (remaining rp src).take (maxlen - 1) :=
        List.take_subset_take_left _ (Nat.min_le_left _ _) hnewline
      have hroom := (lineOf_room htake).mpr hnewline
      obtain ⟨r, hr, hstored, -, -, hret⟩ := hcsapp hroom
      rw [if_pos (hmem.mpr htake), sub_self, zero_add] at hret
      rw [List.nil_append] at hstored
      obtain ⟨-, r', hr', hstored', hret', -⟩ | ⟨hover, -⟩ := readlineb_spec src hbounds maxlen
      · rw [List.nil_append] at hstored'
        refine ⟨r, r', hr, hr', hstored.trans hstored'.symm, by omega, by rw [hret, hstored],
          fun hzero => ?_⟩
        have hlen : (lineOf maxlen (remaining rp src)).length = 0 := by omega
        have hpos := List.length_pos_of_mem (hmem.mpr htake)
        omega
      · omega
    · have hline : lineOf maxlen (remaining rp src) = [] := by
        rw [hnil, lineOf, List.take_nil, upTo_nil]
      rw [hline] at hcsapp
      obtain ⟨r, hr, hstored, -, -, hret⟩ := hcsapp (by decide)
      rw [if_neg List.not_mem_nil, if_pos ⟨rfl, rfl, hone⟩] at hret
      have hspec := readlineb_spec src hbounds maxlen
      rw [hline] at hspec
      obtain ⟨-, r', hr', hstored', hret', -⟩ | ⟨hover, -⟩ := hspec
      · refine ⟨r, r', hr, hr', hstored.trans hstored'.symm, hret.trans hret'.symm, ?_,
          fun _ => hnil⟩
        rw [hret, hstored]
        rfl
      · exact absurd hover (by decide)

/-- The last line of a stream has no newline: `csapp.c` returns one more than it stores. -/
theorem readlineb_disagree :
    (Csapp.readlineb (readinitb []) ⟨[97], [], []⟩ 10).map (fun r => (r.ret, r.stored)) =
        some (2, [97]) ∧
      (CommIo.readlineb (readinitb []) ⟨[97], [], []⟩ 10).map (fun r => (r.ret, r.stored)) =
        some (1, [97]) := by
  decide +kernel

theorem readlineb_agree_short : Agree 10 (readinitb []) ⟨[97, 10, 98], [some 0], []⟩ :=
  (readlineb_agree_iff ⟨[97, 10, 98], [some 0], []⟩ (readinitb_inBounds []) 10).mpr
    (Or.inl (by decide))

end OsLabs.Rio
