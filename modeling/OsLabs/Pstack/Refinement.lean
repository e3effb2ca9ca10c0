import OsLabs.Pstack.Program

/-!
# The persistent stack is a bounded stack

As long as the file says no more values than it has room for.
-/

namespace OsLabs.Pstack

open OsLabs.BoundedStack OsLabs.ByteMemory OsLabs.Checked OsLabs.CNumber

variable {file : BackingFile} {m : Memory} {size i j v count : ℕ} {x : ℤ} {stack : List ℤ}
  {arg : String} {args : List String}

/-! ## The number of values and the values -/

theorem element_eq (i : ℕ) : element i = 8 + i * 4 := rfl

theorem n_lt (m : Memory) : n m < 2 ^ 64 := by
  have hlow := word_lt m 0
  have hhigh := word_lt m 4
  rw [n]
  omega

theorem n_setN (hv : v < 2 ^ 64) : n (setN m v) = v := by
  rw [n, setN, word_setWord_of_disjoint (by omega), word_setWord, word_setWord]
  omega

theorem n_setValue : n (setValue m i x) = n m := by
  have hi := element_eq i
  rw [n, setValue, word_setWord_of_disjoint (by omega), word_setWord_of_disjoint (by omega)]
  rfl

theorem value_congr {m' : Memory} (h : word m' (element i) = word m (element i)) :
    value m' i = value m i :=
  congrArg (fun w : ℕ => (w : ℤ).bmod (2 ^ 32)) h

theorem value_setN : value (setN m v) i = value m i := by
  have hi := element_eq i
  refine value_congr ?_
  rw [setN, word_setWord_of_disjoint (by omega), word_setWord_of_disjoint (by omega)]

theorem value_setValue_of_ne (hij : i ≠ j) : value (setValue m i x) j = value m j := by
  have hi := element_eq i
  have hj := element_eq j
  refine value_congr ?_
  rw [setValue, word_setWord_of_disjoint (by omega)]

/-- An `int` that is stored is read back. -/
theorem value_setValue (hx : -2 ^ 31 ≤ x ∧ x < 2 ^ 31) : value (setValue m i x) i = x := by
  have hmod : ((x % 2 ^ 32).toNat % 2 ^ 32 : ℕ) = x % (2 ^ 32 : ℕ) := by omega
  have hself : x.bmod (2 ^ 32) = x := by
    rw [Int.bmod_eq_iff (by decide)]
    omega
  unfold value setValue
  rw [word_setWord, hmod, Int.emod_bmod]
  exact hself

/-! ## Refinement -/

/-- How many values the file has room for. -/
def capacity (size : ℕ) : ℕ := (size - headerSize) / intSize

/-- The operation that an argument stands for. -/
def operation (arg : String) : Op ℤ := if arg = "pop" then .pop else .push (atoi arg.toList)

/-- The memory holds a stack, the bottom of it first. -/
structure Represents (size : ℕ) (m : Memory) (stack : List ℤ) : Prop where
  n_le : n m ≤ capacity size
  values : stack.reverse = (List.range (n m)).map (value m)

theorem BackingFile.Asserted.size_eq (h : file.Asserted) :
    file.size = headerSize + capacity file.size * intSize := by
  have hheader : headerSize ≤ file.size := h.1
  have hdvd : file.size % intSize = 0 := h.2
  rw [headerSize, intSize] at *
  rw [capacity, headerSize, intSize]
  omega

theorem fits_iff (h : file.Asserted) :
    element i + intSize ≤ file.size ↔ i < capacity file.size := by
  have hsize := h.size_eq
  rw [headerSize, intSize] at hsize
  rw [element, headerSize, intSize]
  omega

theorem load_eq (h : file.Asserted) : load file.size m i =
    if i < capacity file.size then .ok (value m i) else .error .outside := by
  simp only [load, fits_iff h]

theorem store_eq (h : file.Asserted) : store file.size m i x =
    if i < capacity file.size then .ok (setValue m i x) else .error .outside := by
  simp only [store, fits_iff h]

/-- The check does not wrap around while the values are in the file. -/
theorem notFull_iff (h : file.Asserted) (hcount : count ≤ capacity file.size) :
    NotFull file.size count ↔ count < capacity file.size := by
  have hsize := h.size_eq
  have hlt := file.size_lt
  rw [headerSize, intSize] at hsize
  rw [NotFull, headerSize, intSize]
  omega

theorem Represents.length_eq (h : Represents size m stack) : stack.length = n m := by
  have hlength := congrArg List.length h.values
  simpa using hlength

theorem range_map_value_setN (k : ℕ) :
    (List.range k).map (value (setN m v)) = (List.range k).map (value m) :=
  List.map_congr_left fun _ _ => value_setN

theorem range_map_value_setValue (k : ℕ) :
    (List.range k).map (value (setValue m k x)) = (List.range k).map (value m) :=
  List.map_congr_left fun _ hi => value_setValue_of_ne (List.mem_range.mp hi).ne'

theorem Represents.pop (hfile : file.Asserted) (h : Represents file.size m stack) :
    ∃ m', perform file.size m "pop" = .ok (m', stack.head?.toList) ∧
      Represents file.size m' stack.tail := by
  have hle := h.n_le
  have hlt := n_lt m
  rcases hn : n m with _ | k
  · have hempty : stack = [] := List.length_eq_zero_iff.mp (h.length_eq.trans hn)
    subst hempty
    refine ⟨m, ?_, h⟩
    rw [perform, if_pos rfl, if_neg (by omega)]
    rfl
  · have hvalues := h.values
    rw [hn, List.range_succ, List.map_append] at hvalues
    have hstack : stack = value m k :: ((List.range k).map (value m)).reverse := by
      rw [← List.reverse_reverse stack, hvalues, List.reverse_append]
      rfl
    have hset : n (setN m k) = k := n_setN (by omega)
    refine ⟨setN m k, ?_, ⟨by omega, ?_⟩⟩
    · rw [perform, if_pos rfl, if_pos (by omega), hn, Nat.add_sub_cancel]
      dsimp only
      rw [hset, load_eq hfile, if_pos (by omega), ok_bind, value_setN, hstack]
      rfl
    · rw [hset, hstack, range_map_value_setN, List.tail_cons, List.reverse_reverse]

theorem Represents.push (hfile : file.Asserted) (h : Represents file.size m stack)
    (harg : arg ≠ "pop") :
    ∃ m', perform file.size m arg = .ok (m', []) ∧ Represents file.size m'
      (if stack.length < capacity file.size then atoi arg.toList :: stack else stack) := by
  have hle := h.n_le
  have hlt := n_lt m
  have hlength := h.length_eq
  rw [perform, if_neg harg]
  rcases lt_or_ge (n m) (capacity file.size) with hroom | hfull
  · have hsize := hfile.size_eq
    have hbound := file.size_lt
    rw [headerSize, intSize] at hsize
    have hset : n (setN m ((n m + 1) % 2 ^ 64)) = n m + 1 := by
      rw [n_setN (Nat.mod_lt _ (by decide))]
      omega
    rw [if_pos ((notFull_iff hfile hle).mpr hroom), if_pos (hlength ▸ hroom)]
    dsimp only
    rw [store_eq hfile, if_pos hroom, ok_bind]
    refine ⟨_, rfl, ⟨?_, ?_⟩⟩
    · rw [n_setValue, hset]
      exact hroom
    · rw [n_setValue, hset, List.range_succ, List.map_append, List.reverse_cons, h.values,
        range_map_value_setValue, range_map_value_setN, List.map_singleton, value_setValue atoi_mem]
  · rw [if_neg (fun hnot => hfull.not_gt ((notFull_iff hfile hle).mp hnot)),
      if_neg (by omega)]
    exact ⟨m, rfl, h⟩

theorem Represents.perform (hfile : file.Asserted) (m : Memory) (stack : List ℤ) (arg : String)
    (h : Represents file.size m stack) :
    ∃ m', Pstack.perform file.size m arg =
        .ok (m', (run (capacity file.size) stack [operation arg]).2) ∧
      Represents file.size m' (run (capacity file.size) stack [operation arg]).1 := by
  rw [run_singleton, operation]
  split
  case isTrue hpop => exact hpop ▸ h.pop hfile
  case isFalse hpush => exact h.push hfile hpush

/-- An invocation on a file that holds a stack. -/
theorem main_eq (hfile : file.Asserted) (h : Represents file.size file.bytes stack)
    (args : List String) :
    ∃ file', main file args =
        .ok (file', (run (capacity file.size) stack (args.map operation)).2) ∧
      file'.size = file.size ∧
      Represents file.size file'.bytes
        (run (capacity file.size) stack (args.map operation)).1 := by
  rcases printed_eq (Represents.perform hfile) h args with ⟨m', hprinted, hrepresents⟩
  rw [← List.map_eq_flatMap] at hprinted hrepresents
  refine ⟨{ file with bytes := m' }, ?_, rfl, hrepresents⟩
  rw [main, if_pos hfile, hprinted]
  rfl

/-- The file of that size whose bytes are all zero. -/
def BackingFile.zeroed (file : BackingFile) : BackingFile := { file with bytes := fun _ => 0 }

theorem represents_zeroed (file : BackingFile) : Represents file.size file.zeroed.bytes [] :=
  ⟨Nat.zero_le _, rfl⟩

/-- The invocations work on one bounded stack. -/
theorem printed_main (hfile : file.Asserted) (invocations : List (List String)) :
    ∃ last, printed main file.zeroed invocations = .ok (last,
      (run (capacity file.size) [] (invocations.flatMap fun args => args.map operation)).2) := by
  have hstep : ∀ (file' : BackingFile) stack args,
      file'.size = file.size ∧ Represents file.size file'.bytes stack → ∃ last,
        main file' args =
          .ok (last, (run (capacity file.size) stack (args.map operation)).2) ∧
        last.size = file.size ∧ Represents file.size last.bytes
          (run (capacity file.size) stack (args.map operation)).1 := by
    rintro file' stack args ⟨hsize, hrepresents⟩
    have hfile' : file'.Asserted := by
      rw [BackingFile.Asserted, hsize]
      exact hfile
    rw [← hsize] at hrepresents ⊢
    exact main_eq hfile' hrepresents args
  have hzero : file.zeroed.size = file.size ∧ Represents file.size file.zeroed.bytes [] :=
    ⟨rfl, represents_zeroed file⟩
  rcases printed_eq hstep hzero invocations with ⟨last, hlast, -⟩
  exact ⟨last, hlast⟩

/-! ## Files that say more than they hold -/

theorem represents_of_n_le (h : n m ≤ capacity size) :
    Represents size m ((List.range (n m)).map (value m)).reverse :=
  ⟨h, List.reverse_reverse _⟩

theorem perform_of_overfull (hfile : file.Asserted) (hover : capacity file.size < n m)
    (arg : String) : perform file.size m arg =
      if arg = "pop" ∨ NotFull file.size (n m) then .error .outside else .ok (m, []) := by
  have hlt := n_lt m
  by_cases hpop : arg = "pop"
  · have hset : n (setN m (n m - 1)) = n m - 1 := n_setN (by omega)
    rw [perform, if_pos hpop, if_pos (by omega), if_pos (.inl hpop)]
    dsimp only
    rw [hset, load_eq hfile, if_neg (by omega)]
    rfl
  · rw [perform, if_neg hpop]
    by_cases hcheck : NotFull file.size (n m)
    · rw [if_pos hcheck, if_pos (.inr hcheck)]
      dsimp only
      rw [store_eq hfile, if_neg (by omega)]
      rfl
    · rw [if_neg hcheck, if_neg (by tauto)]
      rfl

/-- The arguments find every value outside the file. -/
theorem printed_ok_iff_of_overfull (hfile : file.Asserted) (hover : capacity file.size < n m)
    (args : List String) : (∃ last, printed (perform file.size) m args = .ok last) ↔
      ∀ arg ∈ args, arg ≠ "pop" ∧ ¬ NotFull file.size (n m) := by
  induction args with
  | nil => exact iff_of_true ⟨_, rfl⟩ fun _ harg => absurd harg List.not_mem_nil
  | cons arg args ih =>
      rw [printed, perform_of_overfull hfile hover, List.forall_mem_cons, ← not_or]
      split
      case isTrue hfault =>
        refine iff_of_false ?_ fun h => h.1 hfault
        rintro ⟨_, hlast⟩
        cases hlast
      case isFalse hignored =>
        rw [ok_bind, and_iff_right hignored, ← ih]
        exact exists_bind_ok_iff _

theorem main_ok_iff (hfile : file.Asserted) (args : List String) :
    (∃ last, main file args = .ok last) ↔
      ∃ last, printed (perform file.size) file.bytes args = .ok last := by
  rw [main, if_pos hfile]
  exact exists_bind_ok_iff _

/-- The stack of a file is safe as long as the file has room for the values it says it has, or the
arguments leave it alone. From a file of zeros, the pops print what those of a bounded stack
give. -/
theorem stack_safe_iff (hfile : file.Asserted) (args : List String)
    (invocations : List (List String)) :
    ((∃ last, main file args = .ok last) ↔ n file.bytes ≤ capacity file.size ∨
      ∀ arg ∈ args, arg ≠ "pop" ∧ ¬ NotFull file.size (n file.bytes)) ∧
    ∃ last, printed main file.zeroed invocations = .ok (last,
      (run (capacity file.size) [] (invocations.flatMap fun args => args.map operation)).2) := by
  refine ⟨?_, printed_main hfile invocations⟩
  rcases le_or_gt (n file.bytes) (capacity file.size) with hle | hover
  · rcases main_eq hfile (represents_of_n_le hle) args with ⟨file', hmain, -⟩
    exact iff_of_true ⟨_, hmain⟩ (.inl hle)
  · rw [main_ok_iff hfile, printed_ok_iff_of_overfull hfile hover, or_iff_right hover.not_ge]

/-- A file of 16 bytes that holds 7 and, above it, 13. -/
def sevenThirteen : BackingFile :=
  ⟨16, by decide, fun a => if a = 0 then 2 else if a = 8 then 7 else if a = 12 then 13 else 0⟩

/-- An invocation on `sevenThirteen`, and three from zeros that push three values and pop. -/
theorem stack_safe_iff_sevenThirteen :
    (∃ last, main sevenThirteen ["pop", "47", "99", "pop"] = .ok last) ∧
    ∃ last, printed main sevenThirteen.zeroed
      [["7", "13", "47", "pop"], ["pop", "99"], ["pop", "pop"]] = .ok (last, [13, 7, 99]) := by
  have hfile : sevenThirteen.Asserted := by decide
  have hpops : (run (capacity sevenThirteen.size) [] ([["7", "13", "47", "pop"], ["pop", "99"],
      ["pop", "pop"]].flatMap fun args => args.map operation)).2 = [13, 7, 99] := by
    decide +kernel
  obtain ⟨hsafe, hstack⟩ := stack_safe_iff hfile ["pop", "47", "99", "pop"]
    [["7", "13", "47", "pop"], ["pop", "99"], ["pop", "pop"]]
  rw [hpops] at hstack
  exact ⟨hsafe.mpr (.inl (by decide +kernel)), hstack⟩

/-- A file of 8 bytes that says it holds `count` values. -/
def headerOnly (count : UInt8) : BackingFile :=
  ⟨8, by decide, fun a => if a = 0 then count else 0⟩

/-- A pop from a file that says it holds two values but has room for none. -/
theorem not_safe_pop : ¬ ∀ (file : BackingFile) (args : List String), file.Asserted →
    ∃ last, main file args = .ok last := by
  intro h
  have hfile : (headerOnly 2).Asserted := by decide
  have hargs := (printed_ok_iff_of_overfull hfile (by decide) ["pop"]).mp
    ((main_ok_iff hfile ["pop"]).mp (h (headerOnly 2) ["pop"] hfile))
  exact (hargs "pop" List.mem_cons_self).1 rfl

end OsLabs.Pstack
