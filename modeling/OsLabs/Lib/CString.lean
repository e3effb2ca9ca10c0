import Mathlib
import OsLabs.Lib.Lines

/-!
# Strings in arrays

Arrays whose accesses are checked, and strings in them that end at a terminator,
which is zero. Loops over an array take fuel, of which its length is enough.
-/

namespace OsLabs.CString

/-- Why a computation on arrays stops. -/
inductive Fault
  /-- An access outside an array. -/
  | outside
  /-- A loop that still runs when the fuel is used up. -/
  | running
deriving DecidableEq, Repr

/-! ## Checked access -/

section Access

variable {α α' : Type}

@[simp] theorem ok_bind (x : α) (f : α → Except Fault α') : (Except.ok x >>= f) = f x := rfl

@[simp] theorem error_bind (e : Fault) (f : α → Except Fault α') :
    (Except.error e >>= f) = .error e := rfl

def load (a : List α) (i : ℕ) : Except Fault α :=
  match a[i]? with
  | some x => .ok x
  | none => .error .outside

def store (a : List α) (i : ℕ) (x : α) : Except Fault (List α) :=
  if i < a.length then .ok (a.set i x) else .error .outside

theorem load_append (u : List α) (x : α) (v : List α) : load (u ++ x :: v) u.length = .ok x := by
  rw [load, List.getElem?_append_right le_rfl, Nat.sub_self]
  rfl

theorem store_append (u : List α) (x y : α) (v : List α) :
    store (u ++ x :: v) u.length y = .ok (u ++ y :: v) := by
  rw [store, if_pos (by simp), List.set_append_right _ _ le_rfl, Nat.sub_self]
  rfl

theorem store_length (a : List α) (x : α) : store a a.length x = .error .outside :=
  if_neg (Nat.lt_irrefl _)

end Access

/-! ## Scanning -/

section Scan

variable {β : Type} {test : β → Bool} {u w v : List β} {c : β} {fuel p : ℕ}

/-- `while (test(*p)) p++` -/
def scan (test : β → Bool) (buf : List β) : ℕ → ℕ → Except Fault ℕ
  | 0, _ => .error .running
  | fuel + 1, p => do
      let c ← load buf p
      if test c then scan test buf fuel (p + 1) else return p

theorem scan_append (hw : ∀ x ∈ w, test x = true) (hc : test c = false) (hfuel : w.length < fuel) :
    scan test (u ++ (w ++ c :: v)) fuel u.length = .ok (u.length + w.length) := by
  induction w generalizing u fuel with
  | nil =>
      obtain ⟨fuel, rfl⟩ := Nat.exists_eq_succ_of_ne_zero (Nat.ne_zero_of_lt hfuel)
      rw [List.nil_append, scan, load_append]
      exact if_neg (Bool.not_eq_true _ ▸ hc)
  | cons x w ih =>
      obtain ⟨fuel, rfl⟩ := Nat.exists_eq_succ_of_ne_zero (Nat.ne_zero_of_lt hfuel)
      have hrest := @ih (u ++ [x]) fuel (fun y hy => hw y (List.mem_cons_of_mem _ hy))
        (Nat.lt_of_succ_lt_succ hfuel)
      rw [List.append_assoc, List.singleton_append, List.length_append, List.length_singleton]
        at hrest
      rw [List.cons_append, scan, load_append]
      refine (if_pos (hw x List.mem_cons_self)).trans (hrest.trans ?_)
      rw [List.length_cons, Nat.add_assoc, Nat.add_comm 1]

end Scan

/-! ## Strings -/

section Strings

variable {β : Type} [Zero β] {buf s t : List β} {c : β} {p : ℕ}

/-- The string `s` stands at `p`, with its terminator. -/
def IsStr (buf : List β) (p : ℕ) (s : List β) : Prop :=
  ∃ u v, buf = u ++ (s ++ 0 :: v) ∧ u.length = p ∧ 0 ∉ s

theorem isStr_append (h : (0 : β) ∉ s) (u v : List β) :
    IsStr (u ++ (s ++ 0 :: v)) u.length s := ⟨u, v, rfl, rfl, h⟩

theorem IsStr.notMem (h : IsStr buf p s) : 0 ∉ s := by
  obtain ⟨_, _, -, -, hs⟩ := h
  exact hs

theorem IsStr.length_lt (h : IsStr buf p s) : p + s.length < buf.length := by
  obtain ⟨u, v, rfl, rfl, -⟩ := h
  simp only [List.length_append, List.length_cons]
  omega

/-- The string without a first part. -/
theorem IsStr.suffix (h : IsStr buf p (s ++ t)) : IsStr buf (p + s.length) t := by
  obtain ⟨u, v, rfl, rfl, hs⟩ := h
  refine ⟨u ++ s, v, by simp only [List.append_assoc], List.length_append, fun h0 => ?_⟩
  exact hs (List.mem_append_right _ h0)

theorem IsStr.tail (h : IsStr buf p (c :: s)) : IsStr buf (p + 1) s := by
  rw [← List.singleton_append] at h
  exact h.suffix

theorem IsStr.ne_zero (h : IsStr buf p s) (hc : c ∈ s) : c ≠ 0 := by
  rintro rfl
  exact h.notMem hc

theorem IsStr.load_cons (h : IsStr buf p (c :: s)) : load buf p = .ok c := by
  obtain ⟨u, v, rfl, rfl, -⟩ := h
  exact load_append u c _

theorem IsStr.load_nil (h : IsStr buf p []) : load buf p = .ok 0 := by
  obtain ⟨u, v, rfl, rfl, -⟩ := h
  exact load_append u 0 _

/-- A terminator in a string cuts it. -/
theorem IsStr.store_zero (h : IsStr buf p (s ++ c :: t)) :
    ∃ buf', store buf (p + s.length) 0 = .ok buf' ∧ buf'.length = buf.length ∧ IsStr buf' p s ∧
      IsStr buf' (p + s.length + 1) t ∧
      ∀ q r, q + r.length < p → IsStr buf q r → IsStr buf' q r := by
  obtain ⟨u, v, rfl, rfl, hs⟩ := h
  have hstore := store_append (u ++ s) c 0 (t ++ 0 :: v)
  simp only [List.append_assoc, List.length_append, List.cons_append] at hstore ⊢
  simp only [List.mem_append, List.mem_cons, not_or] at hs
  refine ⟨_, hstore, by simp, isStr_append hs.1 u _, ?_, ?_⟩
  · have hrest := isStr_append hs.2.2 (u ++ s ++ [0]) v
    simpa [Nat.add_assoc] using hrest
  · rintro q r hr ⟨u', v', hbuf, rfl, hr0⟩
    -- the other string is in the part before
    obtain ⟨v'', rfl⟩ : u' ++ (r ++ [0]) <+: u := by
      have hprefix : u' ++ (r ++ [0]) <+: u ++ (s ++ c :: (t ++ 0 :: v)) := by
        rw [hbuf]
        exact ⟨v', by simp⟩
      refine List.prefix_of_prefix_length_le hprefix (List.prefix_append _ _) ?_
      simp only [List.length_append, List.length_singleton]
      omega
    refine ⟨u', v'' ++ (s ++ 0 :: (t ++ 0 :: v)), ?_, rfl, hr0⟩
    simp

theorem IsStr.scan {test : β → Bool} {w : List β} (h : IsStr buf p (w ++ t))
    (hw : ∀ x ∈ w, test x = true) (hend : ∀ x ∈ t.head?, test x = false) (hzero : test 0 = false) :
    scan test buf buf.length p = .ok (p + w.length) := by
  obtain ⟨u, v, rfl, rfl, -⟩ := h
  cases t with
  | nil =>
      rw [List.append_nil]
      exact scan_append hw hzero (by simp only [List.length_append, List.length_cons]; omega)
  | cons c t =>
      rw [List.append_assoc, List.cons_append]
      exact scan_append hw (hend c rfl) (by simp only [List.length_append, List.length_cons]; omega)

/-! ## String functions -/

variable [DecidableEq β]

/-- The string at `p`. -/
def str (buf : List β) (p : ℕ) : List β := (buf.drop p).takeWhile (· ≠ 0)

def strlen (buf : List β) (p : ℕ) : Except Fault ℕ := do
  let q ← scan (· ≠ 0) buf buf.length p
  return q - p

def strchr (buf : List β) (p : ℕ) (c : β) : Except Fault (Option ℕ) := do
  let q ← scan (fun x => x ≠ 0 ∧ x ≠ c) buf buf.length p
  let x ← load buf q
  return if x = c then some q else none

def strcpy (dst src : List β) : Except Fault (List β) := do
  let n ← strlen src 0
  if n < dst.length then return src.take n ++ 0 :: dst.drop (n + 1) else .error .outside

theorem IsStr.str_eq (h : IsStr buf p s) : str buf p = s := by
  obtain ⟨u, v, rfl, rfl, hs⟩ := h
  rw [str, List.drop_left, List.takeWhile_append_of_pos]
  · simp
  · intro c hc
    exact decide_eq_true fun h0 => hs (h0 ▸ hc)

/-- A buffer with a terminator holds a string. -/
theorem isStr_str (h : 0 ∈ buf) : IsStr buf 0 (str buf 0) := by
  obtain ⟨s, v, rfl, hs⟩ := List.eq_append_cons_of_mem h
  have hstr := isStr_append hs [] v
  exact hstr.str_eq.symm ▸ hstr

theorem IsStr.strlen (h : IsStr buf p s) : strlen buf p = .ok s.length := by
  have hs := h
  rw [← List.append_nil s] at hs
  have hscan : CString.scan (· ≠ 0) buf buf.length p = .ok (p + s.length) :=
    hs.scan (fun c hc => decide_eq_true (h.ne_zero hc)) nofun (by simp)
  rw [CString.strlen, hscan]
  exact congrArg Except.ok (Nat.add_sub_cancel_left _ _)

theorem IsStr.strchr_some (h : IsStr buf p (s ++ c :: t)) (hs : c ∉ s) :
    strchr buf p c = .ok (some (p + s.length)) := by
  have hc : c ≠ 0 := h.ne_zero (List.mem_append_right _ List.mem_cons_self)
  have hscan : CString.scan (fun x => x ≠ 0 ∧ x ≠ c) buf buf.length p = .ok (p + s.length) := by
    refine h.scan (fun x hx => decide_eq_true ⟨?_, ?_⟩) ?_ (by simp)
    · exact h.ne_zero (List.mem_append_left _ hx)
    · rintro rfl
      exact hs hx
    · intro x hx
      obtain rfl := Option.some.inj hx
      simp
  rw [strchr, hscan, ok_bind, h.suffix.load_cons, ok_bind]
  exact congrArg Except.ok (if_pos rfl)

theorem IsStr.strchr_none (h : IsStr buf p s) (hs : c ∉ s) (hc : c ≠ 0) :
    strchr buf p c = .ok none := by
  have hend := h
  rw [← List.append_nil s] at hend
  have hscan : CString.scan (fun x => x ≠ 0 ∧ x ≠ c) buf buf.length p = .ok (p + s.length) := by
    refine hend.scan (fun x hx => decide_eq_true ⟨h.ne_zero hx, ?_⟩) nofun (by simp)
    rintro rfl
    exact hs hx
  rw [strchr, hscan, ok_bind, hend.suffix.load_nil, ok_bind]
  exact congrArg Except.ok (if_neg hc.symm)

theorem IsStr.strcpy {dst : List β} (h : IsStr buf 0 s) (hlen : s.length < dst.length) :
    strcpy dst buf = .ok (s ++ 0 :: dst.drop (s.length + 1)) := by
  have hstrlen := h.strlen
  obtain ⟨u, v, rfl, hu, -⟩ := h
  obtain rfl := List.eq_nil_of_length_eq_zero hu
  rw [CString.strcpy, hstrlen]
  refine (if_pos hlen).trans ?_
  rw [List.nil_append, List.take_left]
  rfl

end Strings

/-! ## Lines and argument vectors -/

section Input

variable {β : Type} [Zero β] [DecidableEq β] {buf : List β}

/-- `fgets` into the whole buffer: the next line of the stream, or what fits of it. -/
def fgets (newline : β) (buf stream : List β) : Option (List β × List β) :=
  let line := (Lines.upTo newline stream).take (buf.length - 1)
  if line = [] then none
  else some (line ++ 0 :: buf.drop (line.length + 1), stream.drop line.length)

theorem fgets_spec {newline : β} {stream buf' stream' : List β}
    (h : fgets newline buf stream = some (buf', stream')) :
    buf'.length = buf.length ∧ 0 ∈ buf' ∧ (str buf' 0).length < buf.length := by
  rw [fgets] at h
  split at h
  · cases h
  · next hline =>
      obtain ⟨rfl, -⟩ := Prod.mk.inj (Option.some.inj h)
      set line := (Lines.upTo newline stream).take (buf.length - 1) with hdef
      have hle : line.length ≤ buf.length - 1 := List.length_take_le _ _
      have hpos : 0 < line.length := List.length_pos_iff.mpr hline
      have hlength : (line ++ 0 :: buf.drop (line.length + 1)).length = buf.length := by
        simp only [List.length_append, List.length_cons, List.length_drop]
        omega
      have hzero : (0 : β) ∈ line ++ 0 :: buf.drop (line.length + 1) :=
        List.mem_append_right _ List.mem_cons_self
      refine ⟨hlength, hzero, ?_⟩
      have hlt := (isStr_str hzero).length_lt
      omega

/-- `argv` points to the words, one after another, and a null pointer follows. -/
def Arguments (buf : List β) (argv : List (Option ℕ)) (words : List (List β)) : Prop :=
  ∃ ps rest, argv = ps.map some ++ none :: rest ∧ List.Forall₂ (IsStr buf) ps words

end Input

end OsLabs.CString
