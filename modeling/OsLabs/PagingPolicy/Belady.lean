import Mathlib
import OsLabs.Lib.Paging
import OsLabs.PagingPolicy.Simulator

/-!
# OPT and UNOPT

Every policy of the simulator is demand paging; the searches of `OPT` and `UNOPT`
find a page of farthest and of nearest next use.
-/

namespace OsLabs.PagingPolicy

open OsLabs.Paging

variable {c : Config} {random : ℕ → ℕ} {addrList : List ℤ} {s : State} {n : ℤ}

/-! ## The searches -/

theorem whenReferencedFrom_ge (page : ℤ) {future : List ℤ} {addrCount futureIdx : ℕ}
    (hcount : futureIdx + future.length = addrCount) :
    futureIdx ≤ whenReferencedFrom addrCount page future futureIdx := by
  induction future generalizing futureIdx with
  | nil => exact Nat.le_of_eq hcount
  | cons futurePage future ih =>
      unfold whenReferencedFrom
      rw [List.length_cons] at hcount
      split
      · exact Nat.le_refl _
      · exact (Nat.le_succ _).trans (ih (by omega))

/-- The page is among the next `j` references if it is referenced before
`futureIdx + j`. -/
theorem mem_take_iff {page : ℤ} {future : List ℤ} {addrCount futureIdx : ℕ}
    (hcount : futureIdx + future.length = addrCount) (j : ℕ) :
    page ∈ future.take j ↔ whenReferencedFrom addrCount page future futureIdx < futureIdx + j ∧
      whenReferencedFrom addrCount page future futureIdx < addrCount := by
  induction future generalizing futureIdx j with
  | nil =>
      simp only [List.take_nil, List.not_mem_nil, whenReferencedFrom, false_iff]
      omega
  | cons futurePage future ih =>
      have hge := whenReferencedFrom_ge page hcount
      cases j with
      | zero =>
          simp only [List.take_zero, List.not_mem_nil, false_iff]
          omega
      | succ j =>
          rw [List.length_cons] at hcount
          unfold whenReferencedFrom
          rw [List.take_succ_cons, List.mem_cons]
          split
          · rename_i heq
            simp only [heq, true_or, true_iff]
            omega
          · rename_i hne
            rw [ih (show futureIdx + 1 + future.length = addrCount by omega)]
            simp only [hne, false_or]
            omega

theorem mem_take_mono {p q : ℤ} (hindex : s.addrIndex < addrList.length) {rest : List ℤ}
    (hrest : addrList.drop (s.addrIndex + 1) = rest)
    (hle : whenReferenced addrList s.addrIndex p ≤ whenReferenced addrList s.addrIndex q) (j : ℕ)
    (hq : q ∈ rest.take j) : p ∈ rest.take j := by
  have hcount : s.addrIndex + 1 + rest.length = addrList.length := by
    rw [← hrest, List.length_drop]
    omega
  unfold whenReferenced at hle
  rw [hrest] at hle
  rw [mem_take_iff hcount] at hq ⊢
  omega

/-- The search ends at an index that beats all others, where `beats` is what
the comparison decides. -/
theorem search_spec (memory : List ℤ) (referenced : ℤ → ℕ) (better : ℤ → ℤ → Bool) (start : ℤ)
    (beats : ℤ → ℤ → Prop) (hrefl : ∀ a, beats a a)
    (htrans : ∀ a b c, beats a b → beats b c → beats a c)
    (hbetter : ∀ a b, if better a b then beats a b else beats b a)
    (hstart : ∀ p, better (referenced p) start = true) {m : ℕ} (hm : m < memory.length) :
    ∃ i, ∃ hi : i < memory.length, search memory referenced better start (m + 1) =
      some ((referenced memory[i] : ℤ), (i : ℤ)) ∧
      ∀ p ∈ memory.take (m + 1), beats (referenced memory[i]) (referenced p) := by
  have hstep : ∀ {m best replaceIdx}, (hm : m < memory.length) →
      search memory referenced better start m = some (best, replaceIdx) →
      search memory referenced better start (m + 1) =
        if better (referenced memory[m]) best then some ((referenced memory[m] : ℤ), (m : ℤ))
        else some (best, replaceIdx) := by
    intro m best replaceIdx hm hsearch
    rw [search, hsearch, List.getElem?_eq_getElem hm]
    rfl
  induction m with
  | zero =>
      refine ⟨0, hm, ?_, ?_⟩
      · rw [hstep hm rfl, hstart]
        rfl
      · intro p hp
        rw [List.take_succ_eq_append_getElem hm, List.take_zero, List.nil_append,
          List.mem_singleton] at hp
        rw [hp]
        exact hrefl _
  | succ m ih =>
      obtain ⟨i, hi, hsearch, hbeats⟩ := ih (Nat.lt_of_succ_lt hm)
      have hnew := hbetter (referenced memory[m + 1]) (referenced memory[i])
      rw [hstep hm hsearch, List.take_succ_eq_append_getElem hm]
      split at hnew
      · rename_i htrue
        refine ⟨m + 1, hm, if_pos htrue, fun p hp => ?_⟩
        obtain hp | hp := List.mem_append.mp hp
        · exact htrans _ _ _ hnew (hbeats p hp)
        · rw [List.mem_singleton.mp hp]
          exact hrefl _
      · rename_i hfalse
        refine ⟨i, hi, if_neg hfalse, fun p hp => ?_⟩
        obtain hp | hp := List.mem_append.mp hp
        · exact hbeats p hp
        · rw [List.mem_singleton.mp hp]
          exact hnew

theorem optSearch_spec {memory : List ℤ} (hpos : 0 < memory.length) (referenced : ℤ → ℕ) :
    ∃ i, ∃ hi : i < memory.length, optSearch memory referenced memory.length =
      some ((referenced memory[i] : ℤ), (i : ℤ)) ∧
      ∀ p ∈ memory, referenced p ≤ referenced memory[i] := by
  obtain ⟨m, hm⟩ : ∃ m, memory.length = m + 1 := ⟨memory.length - 1, by omega⟩
  obtain ⟨i, hi, hsearch, hbeats⟩ := search_spec memory referenced
    (fun whenReferenced maxReplace => whenReferenced ≥ maxReplace) (-1) (fun a b => b ≤ a)
    (fun _ => le_rfl) (fun _ _ _ h h' => h'.trans h)
    (fun a b => by
      simp only [decide_eq_true_eq]
      split <;> omega)
    (fun p => by simp only [decide_eq_true_eq]; omega) (show m < memory.length by omega)
  refine ⟨i, hi, ?_, fun p hp => ?_⟩
  · rw [hm]
    exact hsearch
  · have := hbeats p (by rwa [← hm, List.take_length])
    omega

theorem unoptSearch_spec {memory : List ℤ} (hpos : 0 < memory.length) {referenced : ℤ → ℕ}
    {addrCount : ℕ} (hcount : ∀ p, referenced p ≤ addrCount) :
    ∃ i, ∃ hi : i < memory.length, unoptSearch addrCount memory referenced memory.length =
      some ((referenced memory[i] : ℤ), (i : ℤ)) ∧
      ∀ p ∈ memory, referenced memory[i] ≤ referenced p := by
  obtain ⟨m, hm⟩ : ∃ m, memory.length = m + 1 := ⟨memory.length - 1, by omega⟩
  obtain ⟨i, hi, hsearch, hbeats⟩ := search_spec memory referenced
    (fun whenReferenced minReplace => whenReferenced < minReplace) (addrCount + 1)
    (fun a b => a ≤ b)
    (fun _ => le_rfl) (fun _ _ _ h h' => h.trans h')
    (fun a b => by
      simp only [decide_eq_true_eq]
      split <;> omega)
    (fun p => by
      have := hcount p
      simp only [decide_eq_true_eq]
      omega) (show m < memory.length by omega)
  refine ⟨i, hi, ?_, fun p hp => ?_⟩
  · rw [hm]
    exact hsearch
  · have := hbeats p (by rwa [← hm, List.take_length])
    omega

theorem whenReferenced_le (hindex : s.addrIndex < addrList.length) (page : ℤ) :
    whenReferenced addrList s.addrIndex page ≤ addrList.length := by
  have hle : ∀ {future : List ℤ} {futureIdx : ℕ}, futureIdx + future.length = addrList.length →
      whenReferencedFrom addrList.length page future futureIdx ≤ addrList.length := by
    intro future
    induction future with
    | nil => exact fun _ => Nat.le_refl _
    | cons futurePage future ih =>
        intro futureIdx hcount
        rw [List.length_cons] at hcount
        unfold whenReferencedFrom
        split
        · omega
        · exact ih (by omega)
  apply hle
  rw [List.length_drop]
  omega

/-! ## The clock -/

/-- The pick of a page with a positive count takes one from the sum. -/
theorem sum_counts_lt {memory : List ℤ} (hnodup : memory.Nodup) {page : ℤ} (hpage : page ∈ memory)
    {ref : ℤ → Option ℤ} {bits : ℤ} (hbits : ref page = some bits) (hge : bits ≥ 1) :
    (memory.map fun p => ((Function.update ref page (some (bits - 1)) p).getD 0).toNat).sum <
      (memory.map fun p => ((ref p).getD 0).toNat).sum := by
  have hrest : ((memory.erase page).map fun p =>
      ((Function.update ref page (some (bits - 1)) p).getD 0).toNat) =
      (memory.erase page).map fun p => ((ref p).getD 0).toNat := by
    apply List.map_congr_left
    intro p hp
    rw [Function.update_of_ne fun heq => hnodup.not_mem_erase (heq ▸ hp)]
  rw [← List.sum_map_erase _ hpage, hrest, ← List.sum_map_erase (fun p => ((ref p).getD 0).toNat)
    hpage, Function.update_self, hbits]
  simp only [Option.getD_some]
  omega

/-- With a count for every page in memory some pick meets a victim. -/
theorem clockVictim_spec {memory : List ℤ} (hnodup : memory.Nodup) (hpos : 0 < memory.length)
    {ref : ℤ → Option ℤ} (hkeys : ∀ p ∈ memory, ref p ≠ none) {picks : ℕ}
    (hpicks : (memory.map fun page => ((ref page).getD 0).toNat).sum < picks)
    (random : ℕ → ℕ) (draws : ℕ) :
    ∃ victim ref' draws', clockVictim random memory memory.length picks ref draws =
      some (victim, ref', draws') ∧ victim ∈ memory ∧ ∀ p, ref p ≠ none → ref' p ≠ none := by
  induction picks generalizing ref draws with
  | zero => omega
  | succ picks ih =>
      have hlt := Nat.mod_lt (random draws) hpos
      have hmem := List.getElem_mem hlt
      obtain ⟨bits, hbits⟩ := Option.ne_none_iff_exists'.mp (hkeys _ hmem)
      unfold clockVictim
      rw [List.getElem?_eq_getElem hlt, Option.bind_eq_bind, Option.bind_some, hbits,
        Option.bind_some]
      generalize memory[random draws % memory.length] = page at hmem hbits
      split
      · rename_i hge
        have hkeep : ∀ p, ref p ≠ none → Function.update ref page (some (bits - 1)) p ≠ none := by
          intro p hp
          by_cases hpp : p = page
          · rw [hpp, Function.update_self]
            exact Option.some_ne_none _
          · rwa [Function.update_of_ne hpp]
        obtain ⟨victim, ref', draws', heq, hv, hkeys'⟩ :=
          ih (fun p hp => hkeep p (hkeys p hp))
            (Nat.lt_of_lt_of_le (sum_counts_lt hnodup hmem hbits hge) (Nat.le_of_lt_succ hpicks))
            (draws + 1)
        exact ⟨victim, ref', draws', heq, hv, fun p hp => hkeys' p (hkeep p hp)⟩
      · exact ⟨page, ref, draws + 1, rfl, hmem, fun _ hp => hp⟩

/-! ## Evictions -/

/-- The rule of a policy. -/
def ruleOf : Policy → Rule ℤ
  | .opt => farthest
  | .unopt => nearest
  | _ => anyRule

/-- What holds between the rounds. -/
structure MemoryOk (c : Config) (s : State) : Prop where
  count : s.count = s.memory.length
  nodup : s.memory.Nodup
  le : s.count ≤ c.cachesize
  keys : ∀ p ∈ s.memory, s.ref p ≠ none

/-- The page `v` leaves the memory. -/
structure Evicted (c : Config) (s : State) (rest : List ℤ) (e : Eviction) : Prop where
  mem : e.victim ∈ s.memory
  memory : e.memory = s.memory.erase e.victim
  keys : ∀ p, p ≠ e.victim → s.ref p ≠ none → e.ref p ≠ none
  rule : ruleOf c.policy rest s.memory.toFinset e.victim

theorem popAt_eq (hnodup : s.memory.Nodup) {i : ℕ} (hi : i < s.memory.length) :
    popAt s i = some ⟨s.memory[i], s.memory.erase s.memory[i], s.ref, s.draws⟩ := by
  unfold popAt pop
  rw [if_neg (by omega), if_neg (by omega), Int.toNat_natCast, List.getElem?_eq_getElem hi,
    hnodup.erase_getElem]
  rfl

theorem evict_spec (random : ℕ → ℕ) (hs : MemoryOk c s) (hpos : 0 < s.memory.length)
    (hindex : s.addrIndex < addrList.length) {rest : List ℤ}
    (hrest : addrList.drop (s.addrIndex + 1) = rest) :
    ∃ e, evict c random addrList s = some e ∧ Evicted c s rest e := by
  obtain ⟨hcount, hnodup, _, hkeys⟩ := hs
  have hpopped : ∀ i, (hi : i < s.memory.length) → ∀ draws,
      ruleOf c.policy rest s.memory.toFinset s.memory[i] →
      Evicted c s rest ⟨s.memory[i], s.memory.erase s.memory[i], s.ref, draws⟩ :=
    fun i hi draws hrule => ⟨List.getElem_mem hi, rfl, fun _ _ hp => hp, hrule⟩
  unfold evict
  cases hpolicy : c.policy with
  | fifo => exact ⟨_, popAt_eq hnodup hpos, hpopped 0 hpos _ (by rw [hpolicy]; trivial)⟩
  | lru => exact ⟨_, popAt_eq hnodup hpos, hpopped 0 hpos _ (by rw [hpolicy]; trivial)⟩
  | mru =>
      have hi : s.count - 1 < s.memory.length := by omega
      refine ⟨_, ?_, hpopped (s.count - 1) hi s.draws (by rw [hpolicy]; trivial)⟩
      rw [← popAt_eq hnodup hi]
      show popAt s _ = popAt s _
      congr 1
      omega
  | rand =>
      have hi : random s.draws % s.count < s.memory.length := by
        rw [← hcount]
        exact Nat.mod_lt _ (by omega)
      refine ⟨_, ?_, hpopped _ hi (s.draws + 1) (by rw [hpolicy]; trivial)⟩
      show (popAt s (random s.draws % s.count : ℕ)).map _ = _
      rw [popAt_eq hnodup hi]
      rfl
  | clock =>
      obtain ⟨victim, ref', draws', heq, hv, hkeys'⟩ :=
        clockVictim_spec hnodup hpos hkeys (Nat.lt_succ_self _) random s.draws
      refine ⟨⟨victim, s.memory.erase victim, Function.update ref' victim none, draws'⟩, ?_, hv,
        rfl,
        fun p hpv hp => ?_, by rw [hpolicy]; trivial⟩
      · show (clockVictim random s.memory s.count _ s.ref s.draws).bind _ = _
        rw [hcount, clockPicks, heq]
        rfl
      · show Function.update ref' victim none p ≠ none
        rw [Function.update_of_ne hpv]
        exact hkeys' p hp
  | opt =>
      obtain ⟨i, hi, hsearch, hbest⟩ :=
        optSearch_spec hpos (whenReferenced addrList s.addrIndex)
      refine ⟨_, ?_, hpopped i hi s.draws ?_⟩
      · show (optSearch s.memory _ s.count).bind _ = _
        rw [hcount, hsearch]
        exact popAt_eq hnodup hi
      · rw [hpolicy]
        exact fun p hp j => mem_take_mono hindex hrest (hbest p (List.mem_toFinset.mp hp)) j
  | unopt =>
      obtain ⟨i, hi, hsearch, hbest⟩ := unoptSearch_spec hpos (whenReferenced_le hindex)
      refine ⟨_, ?_, hpopped i hi s.draws ?_⟩
      · show (unoptSearch _ s.memory _ s.count).bind _ = _
        rw [hcount, hsearch]
        exact popAt_eq hnodup hi
      · rw [hpolicy]
        exact fun p hp j => mem_take_mono hindex hrest (hbest p (List.mem_toFinset.mp hp)) j

/-! ## Rounds -/

theorem touch_keys (c : Config) (ref : ℤ → Option ℤ) (n p : ℤ) (h : p = n ∨ ref p ≠ none) :
    touch c ref n p ≠ none := by
  obtain ⟨bits, hbits⟩ : ∃ bits, touch c ref n = Function.update ref n (some bits) := by
    unfold touch
    split
    · exact ⟨_, rfl⟩
    · exact ⟨_, rfl⟩
  rw [hbits]
  by_cases hpn : p = n
  · rw [hpn, Function.update_self]
    exact Option.some_ne_none _
  · rw [Function.update_of_ne hpn]
    exact h.resolve_left hpn

/-- What a round does to the set of pages, and whether it is a miss. -/
inductive Round (c : Config) (s : State) (n : ℤ) (rest : List ℤ) (s' : State) : Prop
  | hit (hn : n ∈ s.memory) (hmiss : s'.miss = s.miss)
      (hmemory : s'.memory.toFinset = s.memory.toFinset)
  | fill (hn : n ∉ s.memory) (hroom : s.memory.length < c.cachesize)
      (hmiss : s'.miss = s.miss + 1)
      (hmemory : s'.memory.toFinset = insert n s.memory.toFinset)
  | evict (v : ℤ) (hn : n ∉ s.memory) (hfull : s.memory.length = c.cachesize)
      (hv : v ∈ s.memory) (hrule : ruleOf c.policy rest s.memory.toFinset v)
      (hmiss : s'.miss = s.miss + 1)
      (hmemory : s'.memory.toFinset = insert n (s.memory.toFinset.erase v))

theorem nodup_concat {memory : List ℤ} (h : memory.Nodup) (hn : n ∉ memory) :
    (memory ++ [n]).Nodup := by
  rw [← List.concat_eq_append]
  exact h.concat hn

theorem toFinset_concat (memory : List ℤ) (n : ℤ) :
    (memory ++ [n]).toFinset = insert n memory.toFinset := by
  ext p
  simp

theorem hit_spec (hs : MemoryOk c s) (hn : n ∈ s.memory) :
    MemoryOk c { hit c s n with ref := touch c s.ref n, addrIndex := s.addrIndex + 1 } ∧
      (hit c s n).memory.toFinset = s.memory.toFinset := by
  obtain ⟨hcount, hnodup, hle, hkeys⟩ := hs
  have hmemory : (hit c s n).memory.length = s.memory.length ∧ (hit c s n).memory.Nodup ∧
      ∀ p, p ∈ (hit c s n).memory ↔ p ∈ s.memory := by
    unfold hit
    simp only
    split
    · have hpos := List.length_pos_of_mem hn
      refine ⟨?_, nodup_concat (hnodup.erase n) hnodup.not_mem_erase, fun p => ?_⟩
      · rw [List.length_append, List.length_erase_of_mem hn, List.length_singleton]
        omega
      · rw [List.mem_append, List.mem_singleton, hnodup.mem_erase_iff]
        by_cases hp : p = n
        · simp [hp, hn]
        · simp [hp]
    · exact ⟨rfl, hnodup, fun _ => Iff.rfl⟩
  obtain ⟨hlen, hnodup', hmem⟩ := hmemory
  refine ⟨⟨?_, hnodup', hle, fun p hp => ?_⟩, ?_⟩
  · show s.count = _
    rw [hlen, hcount]
  · exact touch_keys c s.ref n p (Or.inr (hkeys p ((hmem p).mp hp)))
  · ext p
    rw [List.mem_toFinset, List.mem_toFinset, hmem]

theorem replace_spec (random : ℕ → ℕ) (hs : MemoryOk c s) (hk : 1 ≤ c.cachesize) (hn : n ∉ s.memory)
    (hindex : s.addrIndex < addrList.length) {rest : List ℤ}
    (hrest : addrList.drop (s.addrIndex + 1) = rest) :
    ∃ s', replace c random addrList s n = some s' ∧ Round c s n rest s' ∧
      s'.addrIndex = s.addrIndex ∧
      MemoryOk c { s' with ref := touch c s'.ref n, addrIndex := s.addrIndex + 1 } := by
  have hs₁ : MemoryOk c { s with miss := s.miss + 1 } :=
    ⟨hs.count, hs.nodup, hs.le, hs.keys⟩
  obtain ⟨hcount, hnodup, hle, hkeys⟩ := hs
  unfold replace
  simp only
  split
  · rename_i hfull
    have hpos : 0 < s.memory.length := by omega
    obtain ⟨e, heq, hv, hmemory, hkeys', hrule⟩ :=
      evict_spec random hs₁ hpos hindex hrest
    have hnot : n ∉ e.memory := by
      rw [hmemory]
      exact fun hmem => hn (List.mem_of_mem_erase hmem)
    have hnodup' : (e.memory ++ [n]).Nodup := nodup_concat (hmemory ▸ hnodup.erase _) hnot
    have hgone : e.victim ∉ e.memory ++ [n] := by
      rw [List.mem_append, List.mem_singleton, hmemory]
      rintro (hmem | rfl)
      · exact hnodup.not_mem_erase hmem
      · exact hn hv
    rw [heq]
    simp only
    rw [if_neg fun h => hgone h.2]
    have hlen : (e.memory ++ [n]).length = s.memory.length := by
      rw [List.length_append, hmemory, List.length_erase_of_mem hv, List.length_singleton]
      show s.memory.length - 1 + 1 = s.memory.length
      omega
    refine ⟨_, rfl, .evict e.victim hn (hcount.symm.trans hfull) hv hrule rfl ?_, rfl,
      ⟨hcount.trans hlen.symm, hnodup', hle, fun p hp => ?_⟩⟩
    · show (e.memory ++ [n]).toFinset = _
      rw [toFinset_concat, hmemory]
      ext p
      simp only [Finset.mem_insert, List.mem_toFinset, Finset.mem_erase]
      rw [hnodup.mem_erase_iff]
    · apply touch_keys
      obtain hp | hp := List.mem_append.mp hp
      · right
        rw [hmemory, hnodup.mem_erase_iff] at hp
        exact hkeys' p hp.1 (hkeys p hp.2)
      · exact Or.inl (List.mem_singleton.mp hp)
  · rename_i hroom
    refine ⟨_, rfl, .fill hn (by omega) rfl (toFinset_concat _ n), rfl,
      ⟨?_, nodup_concat hnodup hn, ?_, fun p hp => ?_⟩⟩
    · show s.count + 1 = (s.memory ++ [n]).length
      rw [List.length_append, hcount]
      rfl
    · show s.count + 1 ≤ c.cachesize
      omega
    · apply touch_keys
      obtain hp | hp := List.mem_append.mp hp
      · exact Or.inr (hkeys p hp)
      · exact Or.inl (List.mem_singleton.mp hp)

theorem access_spec (random : ℕ → ℕ) (hs : MemoryOk c s) (hk : 1 ≤ c.cachesize) {rest : List ℤ}
    (hrest : addrList.drop s.addrIndex = n :: rest) :
    ∃ s', access c random addrList s n = some s' ∧ Round c s n rest s' ∧ MemoryOk c s' ∧
      addrList.drop s'.addrIndex = rest := by
  have hindex : s.addrIndex < addrList.length := by
    by_contra hge
    rw [List.drop_eq_nil_of_le (Nat.le_of_not_lt hge)] at hrest
    cases hrest
  have htail : addrList.drop (s.addrIndex + 1) = rest := by
    rw [← List.drop_drop, hrest]
    rfl
  unfold access
  by_cases hn : n ∈ s.memory
  · obtain ⟨hok, hmemory⟩ := hit_spec hs hn
    rw [if_pos (List.contains_iff_mem.mpr hn)]
    exact ⟨_, rfl, .hit hn rfl hmemory, hok, htail⟩
  · obtain ⟨s', heq, hround, haddr, hok⟩ := replace_spec random hs hk hn hindex htail
    rw [if_neg fun hc => hn (List.contains_iff_mem.mp hc), heq]
    rw [← haddr] at hok
    refine ⟨_, rfl, ?_, hok, ?_⟩
    · cases hround with
      | hit hn' hmiss hmemory => exact .hit hn' hmiss hmemory
      | fill hn' hroom hmiss hmemory => exact .fill hn' hroom hmiss hmemory
      | evict v hn' hfull hv hrule hmiss hmemory => exact .evict v hn' hfull hv hrule hmiss hmemory
    · show addrList.drop (s'.addrIndex + 1) = rest
      rw [haddr, htail]

/-- The loop is demand paging by the rule of the policy. -/
theorem loop_demand (random : ℕ → ℕ) (hk : 1 ≤ c.cachesize) {refs : List ℤ} (hs : MemoryOk c s)
    (hrefs : addrList.drop s.addrIndex = refs) :
    ∃ t m, loop c random addrList s refs = some t ∧ t.miss = s.miss + m ∧
      Demand (ruleOf c.policy) c.cachesize s.memory.toFinset refs m := by
  induction refs generalizing s with
  | nil => exact ⟨s, 0, rfl, rfl, .nil _⟩
  | cons n rest ih =>
      obtain ⟨s', heq, hround, hs', hrest⟩ := access_spec random hs hk hrefs
      obtain ⟨t, m, ht, hmiss, hdemand⟩ := ih hs' hrest
      have hloop : loop c random addrList s (n :: rest) = some t := by
        unfold loop
        rw [heq]
        exact ht
      have hcard : s.memory.toFinset.card = s.memory.length :=
        List.toFinset_card_of_nodup hs.nodup
      cases hround with
      | hit hn hm hmemory =>
          rw [hmemory] at hdemand
          exact ⟨t, m, hloop, by rw [hmiss, hm], .hit (List.mem_toFinset.mpr hn) hdemand⟩
      | fill hn hroom hm hmemory =>
          rw [hmemory] at hdemand
          exact ⟨t, m + 1, hloop, by omega, .fill (fun h => hn (List.mem_toFinset.mp h))
            (hcard ▸ hroom) hdemand⟩
      | evict v hn hfull hv hrule hm hmemory =>
          rw [hmemory] at hdemand
          exact ⟨t, m + 1, hloop, by omega, .evict v (fun h => hn (List.mem_toFinset.mp h))
            (hcard.trans hfull) (List.mem_toFinset.mpr hv) hrule hdemand⟩

theorem simulate_demand (policy : Policy) {cachesize : ℕ} (hk : 1 ≤ cachesize) (clockbits : ℤ)
    (random : ℕ → ℕ) (addrList : List ℤ) :
    ∃ t, simulate ⟨policy, cachesize, clockbits⟩ random addrList = some t ∧
      Demand (ruleOf policy) cachesize ∅ addrList t.miss := by
  have hinit : MemoryOk ⟨policy, cachesize, clockbits⟩ State.init :=
    ⟨rfl, List.nodup_nil, Nat.zero_le _, fun p hp => by cases hp⟩
  have hrefs : addrList.drop State.init.addrIndex = addrList := rfl
  obtain ⟨t, m, ht, hmiss, hdemand⟩ := loop_demand random hk hinit hrefs
  refine ⟨t, ht, ?_⟩
  rw [hmiss]
  simpa [State.init] using hdemand

/-- `OPT` misses least and `UNOPT` most. -/
theorem belady_bounds (addrList : List ℤ) (cachesize : ℕ) (hk : 1 ≤ cachesize) (clockbits : ℤ)
    (random : ℕ → ℕ) (policy : Policy) :
    ∃ best s worst, simulate ⟨.opt, cachesize, clockbits⟩ random addrList = some best ∧
      simulate ⟨policy, cachesize, clockbits⟩ random addrList = some s ∧
      simulate ⟨.unopt, cachesize, clockbits⟩ random addrList = some worst ∧
      best.miss ≤ s.miss ∧ s.miss ≤ worst.miss := by
  obtain ⟨best, hbest, hbest'⟩ := simulate_demand .opt hk clockbits random addrList
  obtain ⟨s, hs, hs'⟩ := simulate_demand policy hk clockbits random addrList
  obtain ⟨worst, hworst, hworst'⟩ := simulate_demand .unopt hk clockbits random addrList
  exact ⟨best, s, worst, hbest, hs, hworst, farthest_le hbest' hs', nearest_ge hworst' hs'⟩

/-- The default cache size, under the clock. -/
theorem belady_bounds_clock : ∃ best s worst,
    simulate ⟨.opt, 3, 2⟩ id [1, 2, 3, 4, 1, 2, 5, 1, 2, 3, 4, 5] = some best ∧
      simulate ⟨.clock, 3, 2⟩ id [1, 2, 3, 4, 1, 2, 5, 1, 2, 3, 4, 5] = some s ∧
      simulate ⟨.unopt, 3, 2⟩ id [1, 2, 3, 4, 1, 2, 5, 1, 2, 3, 4, 5] = some worst ∧
      best.miss ≤ s.miss ∧ s.miss ≤ worst.miss :=
  belady_bounds [1, 2, 3, 4, 1, 2, 5, 1, 2, 3, 4, 5] 3 (by decide) 2 id .clock

end OsLabs.PagingPolicy
