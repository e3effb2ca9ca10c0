import Mathlib
import OsLabs.FreeSpace.Search
import OsLabs.FreeSpace.Conservation

/-!
# Lists in the order of their sizes

`free` sorts the list, but `malloc` leaves the rest of a split extent where the
extent was, and the coalescing pass joins extents in place. The order is kept
as long as what comes of this happens to be in its place.
-/

namespace OsLabs.FreeSpace

open OsLabs.Transition

variable {c : Config} {s s' : State} {freelist rest : List Entry} {e curr : Entry}
  {addr size request m n : ℤ} {i : ℕ}

/-- The order of the sizes that the list order asks for. -/
def Order.sizeLe : Order → ℤ → ℤ → Prop
  | .sizesortUp, m, n => m ≤ n
  | .sizesortDown, m, n => n ≤ m
  | _, _, _ => True

def Order.BySize (order : Order) : Prop := order = .sizesortUp ∨ order = .sizesortDown

/-- The free list is in the order it is declared to have. -/
def Sorted (c : Config) (freelist : List Entry) : Prop :=
  freelist.Pairwise fun e e' => c.returnPolicy.sizeLe e.2 e'.2

/-- The policy looks for the smallest extent that is large enough. -/
def Config.TakesLeast (c : Config) : Prop :=
  c.policy = .best ∨ c.policy = .first ∧ c.returnPolicy = .sizesortUp

/-- The policy looks for the largest extent. -/
def Config.TakesGreatest (c : Config) : Prop :=
  c.policy = .worst ∨ c.policy = .first ∧ c.returnPolicy = .sizesortDown

/-- The size of the extent that serves a request of `size` bytes. -/
structure Serves (c : Config) (freelist : List Entry) (size m : ℤ) : Prop where
  mem : ∃ e ∈ freelist, e.2 = m
  large : size ≤ m
  least : c.TakesLeast → ∀ e ∈ freelist, size ≤ e.2 → m ≤ e.2
  greatest : c.TakesGreatest → ∀ e ∈ freelist, size ≤ e.2 → e.2 ≤ m

/-- The extent of size `m` fits exactly, or none of the others is of a size
between that of the rest and its own. -/
def KeepsPlace (c : Config) (freelist : List Entry) (size m : ℤ) : Prop :=
  m = size ∨ ∀ e ∈ freelist.eraseP fun e => e.2 = m,
    (match c.returnPolicy with
      | .sizesortDown => e.2 ≤ m
      | _ => e.2 < m) → e.2 ≤ m - size

/-- The next extent of a list begins where this one ends. -/
def touches (e e' : Entry) : Bool := e'.1 = e.1 + e.2

def total (run : List Entry) : ℤ := (run.map Prod.snd).sum

/-- Of two runs of extents that touch, next to each other on the list, the one that
has to be smaller is of two or more extents, which are together larger. -/
def Config.Outgrows (c : Config) (run run' : List Entry) : Prop :=
  match c.returnPolicy with
  | .sizesortDown => 2 ≤ run'.length ∧ total run < total run'
  | _ => 2 ≤ run.length ∧ total run' < total run

instance (run run' : List Entry) : Decidable (c.Outgrows run run') := by
  unfold Config.Outgrows
  split <;> infer_instance

/-- The call does not break the order: a rest keeps its place, and no extents that touch
on the list, with the freed one in its place, outgrow their neighbours when they are joined. -/
def KeepsOrder (c : Config) (s : State) : Op → Prop
  | .malloc request => 0 ≤ request ∧ ∀ m, Serves c s.freelist (requestSize c request) m →
      KeepsPlace c s.freelist (requestSize c request) m
  | .free addr => ∀ size, s.sizemap.lookup addr = some size → c.coalesce = true →
      ((c.insert s.freelist (addr, size)).splitBy touches).IsChain fun run run' =>
        ¬ c.Outgrows run run'

/-! ## Sizes -/

/-- No size is negative, and together they make up the heap. -/
structure Sized (c : Config) (entries : List Entry) : Prop where
  nonneg : ∀ e ∈ entries, 0 ≤ e.2
  total : (entries.map Prod.snd).sum = c.size

theorem Sized.perm {entries entries' : List Entry} (h : Sized c entries)
    (hperm : entries.Perm entries') : Sized c entries' :=
  ⟨fun e he => h.nonneg e (hperm.mem_iff.mpr he), (hperm.map _).sum_eq.symm.trans h.total⟩

theorem Sized.le_size {entries : List Entry} (h : Sized c entries) (he : e ∈ entries) :
    e.2 ≤ c.size := by
  rw [← h.total]
  refine List.single_le_sum (fun n hn => ?_) _ (List.mem_map_of_mem he)
  obtain ⟨e', he', rfl⟩ := List.mem_map.mp hn
  exact h.nonneg e' he'

theorem takeFrom_perm (size : ℤ) (hget : freelist[i]? = some (addr, m)) : ∃ others,
    freelist.Perm ((addr, m) :: others) ∧
      (m > size → (takeFrom freelist i addr m size).Perm ((addr + size, m - size) :: others)) ∧
      (¬ m > size → takeFrom freelist i addr m size = others) := by
  obtain ⟨hi, hentry⟩ := List.getElem?_eq_some_iff.mp hget
  refine ⟨freelist.eraseIdx i, ?_, fun hsplit => ?_, fun hsplit => ?_⟩
  · rw [← hentry]
    exact (List.getElem_cons_eraseIdx_perm hi).symm
  · rw [takeFrom, if_pos hsplit]
    exact List.set_perm_cons_eraseIdx hi _
  · rw [takeFrom, if_neg hsplit]

theorem coalesceFrom_sized (others : List Entry)
    (h : Sized c (curr :: (rest ++ others))) : Sized c (coalesceFrom curr rest ++ others) := by
  induction rest generalizing curr others with
  | nil => exact h
  | cons e rest ih =>
      obtain ⟨eaddr, esize⟩ := e
      rw [coalesceFrom]
      split
      · have hcurr := h.nonneg curr (List.mem_cons_self ..)
        have hnext := h.nonneg (eaddr, esize) (List.mem_cons_of_mem _ (List.mem_cons_self ..))
        have htotal := h.total
        refine ih others ⟨fun e he => ?_, ?_⟩
        · obtain rfl | he := List.mem_cons.mp he
          · exact add_nonneg hcurr hnext
          · exact h.nonneg e (List.mem_cons_of_mem _ (List.mem_cons_of_mem _ he))
        · simp only [List.cons_append, List.map_cons, List.sum_cons] at htotal ⊢
          rw [add_assoc]
          exact htotal
      · have hdone : (curr :: ((eaddr, esize) :: rest ++ others)).Perm
            ((eaddr, esize) :: (rest ++ curr :: others)) :=
          (List.Perm.swap _ _ _).trans (List.perm_middle.symm.cons _)
        exact (ih (curr :: others) (h.perm hdone)).perm List.perm_middle

theorem malloc_sized (h : Sized c (s.freelist ++ s.sizemap)) (hreq : 0 ≤ request) {ptr : ℤ}
    {count : ℕ} (hcall : malloc c s request = some (s', ptr, count)) :
    Sized c (s'.freelist ++ s'.sizemap) := by
  have hlen := size_le_requestSize c request
  obtain ⟨-, rfl, -⟩ | ⟨i, m, hpicked, -, rfl⟩ := malloc_cases hcall
  · exact h
  · obtain ⟨others, hperm, hsplit, hfit⟩ := takeFrom_perm (requestSize c request) hpicked.get
    have hlarge := hpicked.large
    have hold := h.perm (hperm.append_right s.sizemap)
    have htotal := hold.total
    have hnew : Sized c ((ptr, requestSize c request) ::
        (takeFrom s.freelist i ptr m (requestSize c request) ++ s.sizemap)) := by
      by_cases hmore : m > requestSize c request
      · refine Sized.perm ⟨fun e he => ?_, ?_⟩
          ((hsplit hmore).append_right s.sizemap |>.symm.cons _)
        · obtain rfl | he := List.mem_cons.mp he
          · dsimp only
            omega
          obtain rfl | he := List.mem_cons.mp he
          · dsimp only
            omega
          · exact hold.nonneg e (List.mem_cons_of_mem _ he)
        · simp only [List.cons_append, List.map_cons, List.sum_cons] at htotal ⊢
          omega
      · have hexact : m = requestSize c request := by omega
        rw [hfit hmore, ← hexact]
        exact hold
    refine hnew.perm ?_
    rw [← List.append_assoc]
    exact (List.perm_append_singleton _ _).symm

theorem free_sized (h : Sized c (s.freelist ++ s.sizemap)) {rc : ℤ}
    (hcall : free c s addr = some (s', rc)) : Sized c (s'.freelist ++ s'.sizemap) := by
  rw [free] at hcall
  cases hlookup : s.sizemap.lookup addr with
  | none =>
      rw [hlookup] at hcall
      obtain ⟨rfl, -⟩ := hcall
      exact h
  | some size =>
      have hinserted := h.perm (free_perm c hlookup)
      simp only [hlookup] at hcall
      split at hcall
      · obtain ⟨curr, rest, hlist⟩ :=
          List.exists_cons_of_ne_nil (@insert_ne_nil c s.freelist (addr, size))
        rw [hlist] at hinserted hcall
        obtain ⟨rfl, -⟩ := hcall
        exact coalesceFrom_sized _ hinserted
      · obtain ⟨rfl, -⟩ := hcall
        exact hinserted

/-! ## The order of the list -/

/-- The extents other than the first of its size. -/
theorem mem_eraseP_iff (hpicked : Picked c size freelist i addr m) :
    (e ∈ freelist.eraseP fun e => e.2 = m) ↔ ∃ j ≠ i, freelist[j]? = some e := by
  obtain ⟨hi, hentry⟩ := List.getElem?_eq_some_iff.mp hpicked.get
  have hfirst : freelist.findIdx? (fun e => decide (e.2 = m)) = some i := by
    refine List.findIdx?_eq_some_iff_getElem.mpr ⟨hi, by simp [hentry], fun j hj => ?_⟩
    have hne := hpicked.earlier j hj _ (List.getElem?_eq_getElem (hj.trans hi))
    simpa using hne
  rw [List.eraseP_eq_eraseIdx, hfirst]
  exact List.mem_eraseIdx_iff_getElem?

/-- In a sorted list the extent taken is the smallest large enough, or the largest. -/
theorem Picked.serves (hpicked : Picked c size freelist i addr m) (hs : Sorted c freelist) :
    Serves c freelist size m where
  mem := ⟨_, List.mem_of_getElem? hpicked.get, rfl⟩
  large := hpicked.large
  least := by
    rintro (hbest | ⟨hfirst, horder⟩) e he hlarge
    · exact hpicked.best hbest e he hlarge
    · obtain ⟨k, hk⟩ := List.mem_iff_getElem?.mp he
      rcases lt_trichotomy k i with hlt | rfl | hgt
      · have := hpicked.first hfirst k hlt e hk
        omega
      · rw [hpicked.get] at hk
        exact (congrArg Prod.snd (Option.some.inj hk)).le
      · have hle := (pairwise_at hpicked.get hs).2 k hgt e hk
        rwa [horder] at hle
  greatest := by
    rintro (hworst | ⟨hfirst, horder⟩) e he hlarge
    · exact hpicked.worst hworst e he hlarge
    · obtain ⟨k, hk⟩ := List.mem_iff_getElem?.mp he
      rcases lt_trichotomy k i with hlt | rfl | hgt
      · have := hpicked.first hfirst k hlt e hk
        omega
      · rw [hpicked.get] at hk
        exact (congrArg Prod.snd (Option.some.inj hk)).ge
      · have hle := (pairwise_at hpicked.get hs).2 k hgt e hk
        rwa [horder] at hle

/-- The rest of an extent that is split in place is in order exactly when it
keeps its place. -/
theorem takeFrom_sorted_iff (horder : c.returnPolicy.BySize) (hs : Sorted c freelist)
    (hpicked : Picked c size freelist i addr m) (hsize : 0 ≤ size) :
    Sorted c (takeFrom freelist i addr m size) ↔ KeepsPlace c freelist size m := by
  have hlarge := hpicked.large
  obtain ⟨hbefore, hafter⟩ := pairwise_at hpicked.get hs
  by_cases hmore : m > size
  · rw [takeFrom, if_pos hmore, KeepsPlace, or_iff_right hmore.ne', Sorted,
      pairwise_set_iff _ (List.getElem?_eq_some_iff.mp hpicked.get).1 hs]
    simp only [mem_eraseP_iff hpicked]
    obtain hup | hdown := horder
    · simp only [hup, Order.sizeLe] at hbefore hafter ⊢
      constructor
      · rintro ⟨hkeep, -⟩ e ⟨j, hj, he⟩ hlt
        rcases lt_or_gt_of_ne hj with hji | hji
        · exact hkeep j hji e he
        · have := hafter j hji e he
          omega
      · intro hkeep
        refine ⟨fun j hj e he => ?_, fun j hj e he => ?_⟩
        · have := hbefore j hj e he
          exact hkeep e ⟨j, hj.ne, he⟩ (lt_of_le_of_ne this (hpicked.earlier j hj e he))
        · have := hafter j hj e he
          omega
    · simp only [hdown, Order.sizeLe] at hbefore hafter ⊢
      constructor
      · rintro ⟨-, hkeep⟩ e ⟨j, hj, he⟩ hle
        rcases lt_or_gt_of_ne hj with hji | hji
        · have := hbefore j hji e he
          have := hpicked.earlier j hji e he
          omega
        · exact hkeep j hji e he
      · intro hkeep
        refine ⟨fun j hj e he => ?_, fun j hj e he => ?_⟩
        · have := hbefore j hj e he
          omega
        · exact hkeep e ⟨j, hj.ne', he⟩ (hafter j hj e he)
  · rw [takeFrom, if_neg hmore]
    exact iff_of_true (hs.sublist (List.eraseIdx_sublist ..)) (Or.inl (by omega))

/-- The pass joins the runs of neighbours that touch; `run` with `last` has
been joined to `curr` so far. -/
theorem coalesceFrom_runs (run : List Entry) (last : Entry)
    (hchain : (run ++ [last]).IsChain fun e e' => touches e e')
    (hend : curr.1 + curr.2 = last.1 + last.2) (htotal : curr.2 = total (run ++ [last])) :
    (coalesceFrom curr rest).map Prod.snd =
      ((run ++ last :: rest).splitBy touches).map total := by
  have hne (run : List Entry) (last : Entry) : run ++ [last] ≠ [] :=
    List.append_ne_nil_of_right_ne_nil run (List.cons_ne_nil last [])
  induction rest generalizing curr run last with
  | nil =>
      rw [List.splitBy_of_isChain (hne run last) hchain, coalesceFrom, List.map_singleton,
        List.map_singleton, htotal]
  | cons e rest ih =>
      obtain ⟨eaddr, esize⟩ := e
      have hsplit : run ++ last :: (eaddr, esize) :: rest =
          (run ++ [last]) ++ (eaddr, esize) :: rest := by
        rw [List.append_assoc, List.singleton_append]
      rw [coalesceFrom, hsplit]
      split
      · next htouch =>
          refine ih (run ++ [last]) (eaddr, esize) ?_ ?_ ?_
          · refine List.isChain_append.mpr ⟨hchain, List.isChain_singleton _, ?_⟩
            intro x hx y hy
            rw [List.getLast?_concat, Option.mem_some_iff] at hx
            obtain rfl := Option.mem_some_iff.mp hy
            subst hx
            exact decide_eq_true (htouch.trans hend)
          · dsimp only
            omega
          · rw [total] at htotal ⊢
            rw [List.map_append, List.sum_append, ← htotal]
            simp
      · next hapart =>
          rw [List.splitBy_append_cons, List.splitBy_of_isChain (hne run last) hchain,
            List.map_cons, List.singleton_append, List.map_cons, htotal]
          · refine congrArg _ (ih [] (eaddr, esize) (List.isChain_singleton _) rfl ?_)
            simp [total]
          · intro x hx
            rw [List.getLast?_concat, Option.mem_some_iff] at hx
            subst hx
            exact decide_eq_false fun heq => hapart (heq.trans hend.symm)

instance (order : Order) : IsTrans ℤ order.sizeLe := by
  refine ⟨fun m n k hmn hnk => ?_⟩
  cases order with
  | sizesortUp => exact le_trans hmn hnk
  | sizesortDown => exact le_trans hnk hmn
  | _ => trivial

/-- After the pass the order is that of the runs. -/
theorem coalesceFrom_sorted_iff : Sorted c (coalesceFrom curr rest) ↔
    ((curr :: rest).splitBy touches).IsChain fun run run' =>
      c.returnPolicy.sizeLe (total run) (total run') := by
  have hruns := @coalesceFrom_runs rest curr [] curr (List.isChain_singleton _) rfl
    (by simp [total])
  rw [List.nil_append] at hruns
  rw [Sorted, ← List.pairwise_map (R := c.returnPolicy.sizeLe) (f := Prod.snd), hruns,
    ← List.isChain_iff_pairwise, List.isChain_map]

theorem le_total_of_mem {run : List Entry} (hnonneg : ∀ e ∈ run, 0 ≤ e.2) (he : e ∈ run) :
    e.2 ≤ total run := by
  refine List.single_le_sum (fun n hn => ?_) _ (List.mem_map_of_mem he)
  obtain ⟨e', he', rfl⟩ := List.mem_map.mp hn
  exact hnonneg e' he'

/-- In a sorted list only a run that is joined can be out of order. -/
theorem sizeLe_iff_not_outgrows (horder : c.returnPolicy.BySize) {run run' : List Entry}
    (hrun : run ≠ []) (hrun' : run' ≠ []) (hs : Sorted c (run ++ run'))
    (hnonneg : ∀ e ∈ run ++ run', 0 ≤ e.2) :
    c.returnPolicy.sizeLe (total run) (total run') ↔ ¬ c.Outgrows run run' := by
  have hsizes (e e' : Entry) (he : e ∈ run) (he' : e' ∈ run') :
      c.returnPolicy.sizeLe e.2 e'.2 := (List.pairwise_append.mp hs).2.2 e he e' he'
  obtain ⟨e, he⟩ := List.exists_mem_of_ne_nil run hrun
  obtain ⟨e', he'⟩ := List.exists_mem_of_ne_nil run' hrun'
  have hle := le_total_of_mem (fun e he => hnonneg e (List.mem_append_left _ he)) he
  have hle' := le_total_of_mem (fun e he => hnonneg e (List.mem_append_right _ he)) he'
  have hfirst := hsizes e e' he he'
  have hone {run : List Entry} {e : Entry} (he : e ∈ run) (hshort : run.length < 2) :
      total run = e.2 := by
    have hpos := List.length_pos_of_mem he
    obtain ⟨a, rfl⟩ := List.length_eq_one_iff.mp (show run.length = 1 by omega)
    rw [List.mem_singleton.mp he]
    exact add_zero _
  have hshort (h : run.length < 2) : total run = e.2 := hone he h
  have hshort' (h : run'.length < 2) : total run' = e'.2 := hone he' h
  obtain hup | hdown := horder
  · simp only [Config.Outgrows, hup, Order.sizeLe] at hfirst ⊢
    omega
  · simp only [Config.Outgrows, hdown, Order.sizeLe] at hfirst ⊢
    omega

/-- The runs of a sorted list are in order exactly when none outgrows its neighbours. -/
theorem isChain_sizeLe_iff (horder : c.returnPolicy.BySize) (hs : Sorted c freelist)
    (hnonneg : ∀ e ∈ freelist, 0 ≤ e.2) :
    ((freelist.splitBy touches).IsChain fun run run' =>
      c.returnPolicy.sizeLe (total run) (total run')) ↔
    (freelist.splitBy touches).IsChain fun run run' => ¬ c.Outgrows run run' := by
  simp only [List.isChain_iff_forall_rel_of_append_cons_cons]
  refine forall_congr' fun run => forall_congr' fun run' => forall_congr' fun before =>
    forall_congr' fun after => forall_congr' fun hsplit => ?_
  have hlist : freelist = before.flatten ++ ((run ++ run') ++ after.flatten) := by
    rw [← List.flatten_splitBy touches freelist, hsplit]
    simp
  have hruns : (run ++ run').Sublist freelist := by
    rw [hlist]
    exact (List.sublist_append_left _ _).trans (List.sublist_append_right _ _)
  have hmem : run ∈ freelist.splitBy touches ∧ run' ∈ freelist.splitBy touches := by
    simp [hsplit]
  exact sizeLe_iff_not_outgrows horder (List.ne_nil_of_mem_splitBy hmem.1)
    (List.ne_nil_of_mem_splitBy hmem.2) (List.Pairwise.sublist hruns hs)
    fun e he => hnonneg e (hruns.subset he)

theorem insert_sorted (horder : c.returnPolicy.BySize) (freelist : List Entry) (e : Entry) :
    Sorted c (c.insert freelist e) := by
  obtain hup | hdown := horder
  · simp only [Sorted, Config.insert, hup]
    exact List.pairwise_insertionSort (fun a b : Entry => a.2 ≤ b.2) _
  · simp only [Sorted, Config.insert, hdown]
    exact List.pairwise_insertionSort (fun a b : Entry => b.2 ≤ a.2) _

theorem free_sorted_iff (horder : c.returnPolicy.BySize) (hs : Sorted c s.freelist)
    (hsized : Sized c (s.freelist ++ s.sizemap)) {rc : ℤ}
    (hcall : free c s addr = some (s', rc)) :
    Sorted c s'.freelist ↔ KeepsOrder c s (.free addr) := by
  rw [free] at hcall
  cases hlookup : s.sizemap.lookup addr with
  | none =>
      rw [hlookup] at hcall
      obtain ⟨rfl, -⟩ := hcall
      exact iff_of_true hs fun size hsome => by rw [hlookup] at hsome; cases hsome
  | some size =>
      have hsorted := insert_sorted horder s.freelist (addr, size)
      simp only [hlookup] at hcall
      rw [KeepsOrder, hlookup]
      split at hcall
      · next hcoalesce =>
          obtain ⟨curr, rest, hlist⟩ :=
            List.exists_cons_of_ne_nil (@insert_ne_nil c s.freelist (addr, size))
          rw [hlist, coalescePass] at hcall
          obtain ⟨rfl, -⟩ := hcall
          have hnonneg (e : Entry) (he : e ∈ curr :: rest) : 0 ≤ e.2 := by
            refine (hsized.perm (free_perm c hlookup)).nonneg e (List.mem_append_left _ ?_)
            rwa [hlist]
          rw [hlist] at hsorted
          refine (coalesceFrom_sorted_iff.trans (isChain_sizeLe_iff horder hsorted hnonneg)).trans
            ⟨?_, fun hruns => ?_⟩
          · rintro hruns _ ⟨⟩ -
            rwa [hlist]
          · have := hruns size rfl hcoalesce
            rwa [hlist] at this
      · next hcoalesce =>
          obtain ⟨rfl, -⟩ := hcall
          exact iff_of_true hsorted fun _ _ hyes => absurd hyes hcoalesce

/-! ## First fit in a sorted list -/

/-- The size of the block that serves a request under a policy. -/
def sizeFound (c : Config) (policy : Policy) (s : State) (request : ℤ) : Option ℤ :=
  let b := search { c with policy } s request
  b.best.map fun _ => b.bestSize

/-- First fit finds a block of the size that best fit, or worst fit, would. -/
def FirstAgrees (c : Config) (s : State) (request : ℤ) : Prop :=
  (c.returnPolicy = .sizesortUp → sizeFound c .first s request = sizeFound c .best s request) ∧
    (c.returnPolicy = .sizesortDown → sizeFound c .first s request = sizeFound c .worst s request)

/-- Where the sizes are those of a heap a search misses only if all are too small. -/
theorem small_of_missed (hsized : ∀ e ∈ s.freelist, 0 ≤ e.2 ∧ e.2 ≤ c.size)
    (hbest : (search c s request).best = none) : ∀ e ∈ s.freelist, e.2 < requestSize c request := by
  intro e he
  obtain ⟨hnonneg, hle⟩ := hsized e he
  by_contra! hlarge
  obtain ⟨-, hbig⟩ | ⟨-, hneg⟩ :=
    (searched c (requestSize c request) s.freelist).missed hbest e he hlarge
  · exact absurd hle hbig.not_ge
  · omega

theorem sizeFound_cases (hs : Sorted c s.freelist)
    (hsized : ∀ e ∈ s.freelist, 0 ≤ e.2 ∧ e.2 ≤ c.size) (policy : Policy) (request : ℤ) :
    (sizeFound c policy s request = none ∧
        ∀ e ∈ s.freelist, e.2 < requestSize c request) ∨
      ∃ m, sizeFound c policy s request = some m ∧
        Serves { c with policy } s.freelist (requestSize c request) m := by
  have hsearch := searched { c with policy } (requestSize c request) s.freelist
  rw [sizeFound]
  cases hbest : (search { c with policy } s request).best with
  | none => exact Or.inl ⟨rfl, small_of_missed (c := { c with policy }) hsized hbest⟩
  | some found =>
      exact Or.inr ⟨_, rfl, (hsearch.found found.1 found.2 hbest).serves hs⟩

theorem Serves.not_small (h : Serves c freelist size m) : ¬ ∀ e ∈ freelist, e.2 < size := by
  intro hsmall
  obtain ⟨e, he, rfl⟩ := h.mem
  exact absurd h.large (hsmall e he).not_ge

/-- In an order by size only extents of one size serve a request. -/
theorem Serves.unique (horder : c.returnPolicy.BySize) (h : Serves c freelist size m)
    (h' : Serves c freelist size n) : m = n := by
  obtain ⟨e, he, rfl⟩ := h.mem
  obtain ⟨e', he', rfl⟩ := h'.mem
  have hkind : c.TakesLeast ∨ c.TakesGreatest := by
    cases hpolicy : c.policy with
    | best => exact Or.inl (Or.inl hpolicy)
    | worst => exact Or.inr (Or.inl hpolicy)
    | first =>
        exact horder.imp (fun hup => Or.inr ⟨hpolicy, hup⟩) fun hdown => Or.inr ⟨hpolicy, hdown⟩
  obtain hleast | hgreatest := hkind
  · exact le_antisymm (h.least hleast e' he' h'.large) (h'.least hleast e he h.large)
  · exact le_antisymm (h'.greatest hgreatest e he h.large) (h.greatest hgreatest e' he' h'.large)

/-- Two policies that look for the same kind of extent find the same size. -/
theorem sizeFound_eq {policy policy' : Policy} (hs : Sorted c s.freelist)
    (hsized : ∀ e ∈ s.freelist, 0 ≤ e.2 ∧ e.2 ≤ c.size)
    (hkind : (Config.TakesLeast { c with policy } ∧
        Config.TakesLeast { c with policy := policy' }) ∨
      Config.TakesGreatest { c with policy } ∧ Config.TakesGreatest { c with policy := policy' })
    (request : ℤ) : sizeFound c policy s request = sizeFound c policy' s request := by
  obtain ⟨hnone, hsmall⟩ | ⟨m, hm, hserves⟩ := sizeFound_cases hs hsized policy request
  · obtain ⟨hnone', -⟩ | ⟨m', -, hserves'⟩ := sizeFound_cases hs hsized policy' request
    · rw [hnone, hnone']
    · exact absurd hsmall hserves'.not_small
  · obtain ⟨-, hsmall⟩ | ⟨m', hm', hserves'⟩ := sizeFound_cases hs hsized policy' request
    · exact absurd hsmall hserves.not_small
    · obtain ⟨e, he, rfl⟩ := hserves.mem
      obtain ⟨e', he', rfl⟩ := hserves'.mem
      rw [hm, hm']
      obtain ⟨hleast, hleast'⟩ | ⟨hgreatest, hgreatest'⟩ := hkind
      · exact congrArg some (le_antisymm (hserves.least hleast e' he' hserves'.large)
          (hserves'.least hleast' e he hserves.large))
      · exact congrArg some (le_antisymm (hserves'.greatest hgreatest' e he hserves.large)
          (hserves.greatest hgreatest e' he' hserves'.large))

theorem firstAgrees (hs : Sorted c s.freelist) (hsized : ∀ e ∈ s.freelist, 0 ≤ e.2 ∧ e.2 ≤ c.size)
    (request : ℤ) : FirstAgrees c s request :=
  ⟨fun hup => sizeFound_eq hs hsized (Or.inl ⟨Or.inr ⟨rfl, hup⟩, Or.inl rfl⟩) request,
    fun hdown => sizeFound_eq hs hsized (Or.inr ⟨Or.inr ⟨rfl, hdown⟩, Or.inl rfl⟩) request⟩

/-! ## Runs -/

theorem sized_init (c : Config) : Sized c (c.init.freelist ++ c.init.sizemap) := by
  refine ⟨fun e he => ?_, ?_⟩
  · rw [List.mem_singleton.mp he]
    exact Int.natCast_nonneg _
  · exact add_zero _

theorem sorted_init (c : Config) : Sorted c c.init.freelist := List.pairwise_singleton _ _

theorem reach_sorted (horder : c.returnPolicy.BySize)
    (hreach : Reach (step c) (KeepsOrder c) c.init s) :
    Sorted c s.freelist ∧ Sized c (s.freelist ++ s.sizemap) := by
  refine hreach.invariant (I := fun s => Sorted c s.freelist ∧ Sized c (s.freelist ++ s.sizemap))
    ⟨sorted_init c, sized_init c⟩ ?_
  rintro s op s' ⟨hs, hsized⟩ hkeeps hstep
  cases op with
  | malloc request =>
      obtain ⟨⟨_, ptr, count⟩, hcall, rfl⟩ := Option.map_eq_some_iff.mp hstep
      obtain ⟨hreq, hplace⟩ := hkeeps
      refine ⟨?_, malloc_sized hsized hreq hcall⟩
      have hlen := size_le_requestSize c request
      obtain ⟨-, rfl, -⟩ | ⟨i, m, hpicked, -, rfl⟩ := malloc_cases hcall
      · exact hs
      · exact (takeFrom_sorted_iff horder hs hpicked (by omega)).mpr
          (hplace m (hpicked.serves hs))
  | free addr =>
      obtain ⟨⟨_, rc⟩, hcall, rfl⟩ := Option.map_eq_some_iff.mp hstep
      exact ⟨(free_sorted_iff horder hs hsized hcall).mpr hkeeps, free_sized hsized hcall⟩

/-- No request asks for a negative number of bytes. -/
def nonnegRequest : Op → Prop
  | .malloc request => 0 ≤ request
  | .free _ => True

/-- As long as every rest keeps its place and no joined extents outgrow their neighbours,
the list is sorted and first fit finds what best fit, or worst fit, would; any
other call breaks the order. -/
theorem order_kept_iff (c : Config) (horder : c.returnPolicy.BySize) :
    ∀ s, Reach (step c) (KeepsOrder c) c.init s →
      Sorted c s.freelist ∧ (∀ request, FirstAgrees c s request) ∧
        ∀ op s', nonnegRequest op → step c s op = some s' →
          (Sorted c s'.freelist ↔ KeepsOrder c s op) := by
  intro s hreach
  obtain ⟨hs, hall⟩ := reach_sorted horder hreach
  have hsized (e : Entry) (he : e ∈ s.freelist) : 0 ≤ e.2 ∧ e.2 ≤ c.size :=
    ⟨hall.nonneg e (List.mem_append_left _ he), hall.le_size (List.mem_append_left _ he)⟩
  refine ⟨hs, firstAgrees hs hsized, fun op s' hop hstep => ?_⟩
  cases op with
  | malloc request =>
      have hreq : 0 ≤ request := hop
      have hlen := size_le_requestSize c request
      obtain ⟨⟨_, ptr, count⟩, hcall, rfl⟩ := Option.map_eq_some_iff.mp hstep
      obtain ⟨hnone, rfl, -⟩ | ⟨i, m, hpicked, -, rfl⟩ := malloc_cases hcall
      · exact iff_of_true hs ⟨hreq, fun m hserves =>
          absurd (small_of_missed hsized hnone) hserves.not_small⟩
      · refine (takeFrom_sorted_iff horder hs hpicked (by omega)).trans
          ⟨fun hkeeps => ⟨hreq, fun n hserves => ?_⟩, fun hkeeps => hkeeps.2 m (hpicked.serves hs)⟩
        rwa [hserves.unique horder (hpicked.serves hs)]
  | free addr =>
      obtain ⟨⟨_, rc⟩, hcall, rfl⟩ := Option.map_eq_some_iff.mp hstep
      exact free_sorted_iff horder hs hall hcall

/-- Ten bytes, best fit. -/
def ascendingHeap : Config := ⟨10, 0, 0, .best, .sizesortUp, false, -1, unaligned_ok⟩

/-- The rest of the larger extent is smaller than the other free extent. -/
theorem order_broken : ∃ s, Reach (step ascendingHeap) positiveRequest ascendingHeap.init s ∧
    ¬ Sorted ascendingHeap s.freelist ∧ ¬ FirstAgrees ascendingHeap s 1 := by
  refine ⟨⟨[(0, 3), (8, 2)], [(3, 5)]⟩, ?_, ?_, ?_⟩
  · exact reach_of_run [.malloc 3, .free 0, .malloc 5] (runMeets_of_check (by decide +kernel))
      (by decide +kernel)
  · intro hs
    have hle := (List.pairwise_cons.mp hs).1 (8, 2) (List.mem_cons_self ..)
    exact absurd hle (show ¬ (3 : ℤ) ≤ 2 by decide)
  · intro hagrees
    exact absurd (hagrees.1 rfl) (by decide +kernel)

/-- Twenty bytes, best fit, and extents that touch are joined. -/
def joiningHeap : Config := ⟨20, 0, 0, .best, .sizesortUp, true, -1, unaligned_ok⟩

theorem keepsOrder_of_singleton (hreq : 0 ≤ request) (hlist : s.freelist = [e]) :
    KeepsOrder c s (.malloc request) := by
  refine ⟨hreq, fun m hserves => Or.inr fun e' he' => ?_⟩
  obtain ⟨e'', he'', rfl⟩ := hserves.mem
  rw [hlist] at he' he''
  rw [List.mem_singleton.mp he''] at he'
  simp at he'

/-- Three blocks are allocated, and the first two freed and joined. The list is in order,
but a request that leaves two bytes of the larger extent would break it. -/
theorem order_kept_joined : ∃ s, Reach (step joiningHeap) (KeepsOrder joiningHeap)
      joiningHeap.init s ∧ s.freelist = [(0, 5), (9, 11)] ∧ Sorted joiningHeap s.freelist ∧
    (∀ request, FirstAgrees joiningHeap s request) ∧ ¬ KeepsOrder joiningHeap s (.malloc 9) := by
  have hthree : Reach (step joiningHeap) (KeepsOrder joiningHeap) joiningHeap.init
      ⟨[(9, 11)], [(0, 2), (2, 3), (5, 4)]⟩ := by
    refine Reach.tail (s := ⟨[(5, 15)], [(0, 2), (2, 3)]⟩) (.malloc 4) ?_
      (keepsOrder_of_singleton (by decide) rfl) (by decide +kernel)
    refine Reach.tail (s := ⟨[(2, 18)], [(0, 2)]⟩) (.malloc 3) ?_
      (keepsOrder_of_singleton (by decide) rfl) (by decide +kernel)
    exact Reach.refl.tail (.malloc 2) (keepsOrder_of_singleton (by decide) rfl) (by decide +kernel)
  have hfree (size : ℤ) (hsize : ([(0, 2), (2, 3), (5, 4)] : List Entry).lookup 0 = some size) :
      size = 2 := (Option.some.inj hsize).symm
  have hfree' (size : ℤ) (hsize : ([(2, 3), (5, 4)] : List Entry).lookup 2 = some size) :
      size = 3 := (Option.some.inj hsize).symm
  have hjoined : Reach (step joiningHeap) (KeepsOrder joiningHeap) joiningHeap.init
      ⟨[(0, 5), (9, 11)], [(5, 4)]⟩ := by
    refine Reach.tail (s := ⟨[(0, 2), (9, 11)], [(2, 3), (5, 4)]⟩) (.free 2) ?_
      (fun size hsize _ => ?_) (by decide +kernel)
    · refine hthree.tail (.free 0) (fun size hsize _ => ?_) (by decide +kernel)
      rw [hfree size hsize]
      decide +kernel
    · rw [hfree' size hsize]
      decide +kernel
  obtain ⟨hsorted, hagrees, hexact⟩ := order_kept_iff joiningHeap (Or.inl rfl) _ hjoined
  refine ⟨_, hjoined, rfl, hsorted, hagrees, fun hkeeps => ?_⟩
  have hbroken := (hexact (.malloc 9) ⟨[(0, 5), (18, 2)], [(5, 4), (9, 9)]⟩
    (show (0 : ℤ) ≤ 9 by decide) (by decide +kernel)).mpr hkeeps
  exact absurd ((List.pairwise_cons.mp hbroken).1 (18, 2) (List.mem_cons_self ..))
    (show ¬ (5 : ℤ) ≤ 2 by decide)

end OsLabs.FreeSpace
