import Mathlib
import OsLabs.PagingPolicy.Belady

/-!
# The reference counts of CLOCK

The pages in memory are those that have a reference count, and the search for a
victim lowers the counts until it meets one that is zero.
-/

namespace OsLabs.PagingPolicy

variable {c : Config} {s : State} {random : ℕ → ℕ} {addrList memory : List ℤ} {n page : ℤ}
  {ref : ℤ → Option ℤ}

/-- The page has a reference count within bounds. -/
def Counted (c : Config) (ref : ℤ → Option ℤ) (page : ℤ) : Prop :=
  ∃ bits, ref page = some bits ∧ 0 ≤ bits ∧ bits ≤ c.clockbits

/-- What holds between two references. -/
structure Resident (c : Config) (s : State) : Prop where
  count : s.count = s.memory.length
  nodup : s.memory.Nodup
  le : s.memory.length ≤ c.cachesize
  counted : ∀ page ∈ s.memory, Counted c s.ref page
  absent : ∀ page ∉ s.memory, s.ref page = none

def countSum (memory : List ℤ) (ref : ℤ → Option ℤ) : ℕ :=
  (memory.map fun page => ((ref page).getD 0).toNat).sum

/-! ## The search for a victim -/

theorem Counted.update {p : ℤ} (h : Counted c ref p) {bits : ℤ} (hge : 0 ≤ bits)
    (hle : bits ≤ c.clockbits) : Counted c (Function.update ref page (some bits)) p := by
  rcases eq_or_ne p page with rfl | hne
  · exact ⟨bits, Function.update_self .., hge, hle⟩
  · obtain ⟨bits', hbits', hrange⟩ := h
    exact ⟨bits', by rw [Function.update_of_ne hne, hbits'], hrange⟩

/-- The search ends after one pick more than the counts allow, at whatever pages it looks. -/
theorem clockVictim_ends (hnodup : memory.Nodup) (hpos : 0 < memory.length)
    (hcounted : ∀ p ∈ memory, Counted c ref p) (random : ℕ → ℕ) (draws : ℕ) :
    ∃ victim ref' picks, victim ∈ memory ∧ picks ≤ countSum memory ref + 1 ∧
      (∀ fuel ≥ picks, clockVictim random memory memory.length fuel ref draws =
        some (victim, ref', draws + picks)) ∧
      (∀ p ∈ memory, Counted c ref' p) ∧ ∀ p ∉ memory, ref' p = ref p := by
  induction hsum : countSum memory ref using Nat.strong_induction_on generalizing ref draws with
  | _ total ih =>
      have hlt := Nat.mod_lt (random draws) hpos
      have hmem := List.getElem_mem hlt
      have hpage := List.getElem?_eq_getElem hlt
      generalize memory[random draws % memory.length] = page at hmem hpage
      obtain ⟨bits, hbits, hge, hle⟩ := hcounted page hmem
      have hturn (fuel : ℕ) : clockVictim random memory memory.length (fuel + 1) ref draws =
          if bits ≥ 1 then
            clockVictim random memory memory.length fuel
              (Function.update ref page (some (bits - 1))) (draws + 1)
          else some (page, ref, draws + 1) := by
        rw [clockVictim, hpage, Option.bind_eq_bind, Option.bind_some, hbits, Option.bind_some]
        rfl
      by_cases hpositive : bits ≥ 1
      · -- the page is spared, and its count falls
        have hless : countSum memory (Function.update ref page (some (bits - 1))) < total := by
          rw [← hsum]
          exact sum_counts_lt hnodup hmem hbits hpositive
        obtain ⟨victim, ref', picks, hvictim, hpicks, hends, hcounted', hothers⟩ :=
          ih _ hless (fun p hp => (hcounted p hp).update (by omega) (by omega)) (draws + 1) rfl
        refine ⟨victim, ref', picks + 1, hvictim, by omega, ?_, hcounted', ?_⟩
        · intro fuel hfuel
          obtain ⟨fuel, rfl⟩ := Nat.exists_eq_add_of_le' (Nat.lt_of_lt_of_le picks.succ_pos hfuel)
          rw [hturn, if_pos hpositive, hends fuel (by omega), Nat.add_assoc, Nat.add_comm 1]
        · intro p hp
          have hne : p ≠ page := fun heq => hp (heq ▸ hmem)
          rw [hothers p hp, Function.update_of_ne hne]
      · refine ⟨page, ref, 1, hmem, by omega, ?_, hcounted, fun _ _ => rfl⟩
        intro fuel hfuel
        obtain ⟨fuel, rfl⟩ := Nat.exists_eq_add_of_le' hfuel
        rw [hturn, if_neg hpositive]

/-! ## An access -/

/-- After a reference its page has a count, and the counts of the others are as before. -/
theorem touch_counted (hbits : 1 ≤ c.clockbits) (h : ref n = none ∨ Counted c ref n) :
    Counted c (touch c ref n) n ∧ ∀ p ≠ n, touch c ref n p = ref p := by
  rcases h with hnone | ⟨bits, hsome, hge, -⟩
  · rw [touch, hnone]
    exact ⟨⟨1, Function.update_self .., by omega, hbits⟩, fun p hne => Function.update_of_ne hne ..⟩
  · rw [touch, hsome]
    refine ⟨⟨_, Function.update_self .., ?_, ?_⟩, fun p hne => Function.update_of_ne hne ..⟩
    · split <;> omega
    · split <;> omega

/-- The reference counts once the page is in memory. -/
theorem Resident.touch (hbits : 1 ≤ c.clockbits) {s : State} (hcount : s.count = s.memory.length)
    (hnodup : s.memory.Nodup) (hle : s.memory.length ≤ c.cachesize) (hmem : n ∈ s.memory)
    (hn : s.ref n = none ∨ Counted c s.ref n)
    (hcounted : ∀ p ∈ s.memory, p ≠ n → Counted c s.ref p)
    (habsent : ∀ p ∉ s.memory, s.ref p = none) :
    Resident c { s with ref := touch c s.ref n, addrIndex := s.addrIndex + 1 } := by
  obtain ⟨hself, hothers⟩ := touch_counted hbits hn
  refine ⟨hcount, hnodup, hle, ?_, ?_⟩
  · intro p hp
    rcases eq_or_ne p n with rfl | hne
    · exact hself
    · obtain ⟨bits, hsome, hrange⟩ := hcounted p hp hne
      exact ⟨bits, (hothers p hne).trans hsome, hrange⟩
  · intro p hp
    have hne : p ≠ n := fun heq => hp (heq ▸ hmem)
    exact (hothers p hne).trans (habsent p hp)

theorem evict_clock (hpolicy : c.policy = .clock) (hs : Resident c s)
    (hfull : s.count = c.cachesize) (hsize : 1 ≤ c.cachesize) (random : ℕ → ℕ)
    (addrList : List ℤ) :
    ∃ e, evict c random addrList s = some e ∧ e.victim ∈ s.memory ∧
      e.memory = s.memory.erase e.victim ∧ (∀ p ∈ e.memory, Counted c e.ref p) ∧
      ∀ p ∉ e.memory, e.ref p = none := by
  have hpos : 0 < s.memory.length := by
    have hcount := hs.count
    omega
  obtain ⟨victim, ref', picks, hvictim, hpicks, hends, hcounted, hothers⟩ :=
    clockVictim_ends hs.nodup hpos hs.counted random s.draws
  have hsearch := hends (clockPicks s.memory s.ref) hpicks
  refine ⟨⟨victim, s.memory.erase victim, Function.update ref' victim none, s.draws + picks⟩,
    ?_, hvictim, rfl, ?_, ?_⟩
  · rw [evict, hpolicy]
    dsimp only
    rw [hs.count, hsearch]
    rfl
  · intro p hp
    obtain ⟨hne, hp⟩ := hs.nodup.mem_erase_iff.mp hp
    obtain ⟨bits, hsome, hrange⟩ := hcounted p hp
    exact ⟨bits, (Function.update_of_ne hne ..).trans hsome, hrange⟩
  · intro p hp
    rcases eq_or_ne p victim with rfl | hne
    · exact Function.update_self ..
    · have hnot : p ∉ s.memory := fun hmem => hp (hs.nodup.mem_erase_iff.mpr ⟨hne, hmem⟩)
      exact (Function.update_of_ne hne ..).trans ((hothers p hnot).trans (hs.absent p hnot))

theorem access_clock (hpolicy : c.policy = .clock) (hsize : 1 ≤ c.cachesize)
    (hbits : 1 ≤ c.clockbits) (hs : Resident c s) (random : ℕ → ℕ) (addrList : List ℤ) (n : ℤ) :
    ∃ s', access c random addrList s n = some s' ∧ Resident c s' := by
  unfold access
  by_cases hn : n ∈ s.memory
  · rw [if_pos (List.contains_iff_mem.mpr hn)]
    have hmemory : (hit c s n).memory = s.memory := by
      rw [hit, hpolicy]
      rfl
    refine ⟨_, rfl, Resident.touch hbits ?_ ?_ ?_ ?_ (Or.inr (hs.counted n hn)) ?_ ?_⟩
    · rw [hmemory]
      exact hs.count
    · rw [hmemory]
      exact hs.nodup
    · rw [hmemory]
      exact hs.le
    · rw [hmemory]
      exact hn
    · intro p hp _
      exact hs.counted p (hmemory ▸ hp)
    · intro p hp
      exact hs.absent p (hmemory ▸ hp)
  · rw [if_neg fun hc => hn (List.contains_iff_mem.mp hc), replace]
    have hcount := hs.count
    have hle := hs.le
    dsimp only
    split
    case isTrue hfull =>
      obtain ⟨e, he, hvictim, hmemory, hcounted, habsent⟩ :=
        evict_clock (s := { s with miss := s.miss + 1 }) hpolicy
          ⟨hs.count, hs.nodup, hs.le, hs.counted, hs.absent⟩ hfull hsize random addrList
      have hnot : n ∉ e.memory := by
        rw [hmemory]
        exact fun hmem => hn (List.mem_of_mem_erase hmem)
      have hgone : e.victim ∉ e.memory ++ [n] := by
        rw [List.mem_append, List.mem_singleton, hmemory]
        rintro (hmem | rfl)
        · exact hs.nodup.not_mem_erase hmem
        · exact hn hvictim
      have hlength : (e.memory ++ [n]).length = s.memory.length := by
        have hpos := List.length_pos_of_mem hvictim
        rw [List.length_append, hmemory, List.length_erase_of_mem hvictim, List.length_singleton]
        exact Nat.sub_add_cancel hpos
      rw [he]
      dsimp only
      rw [if_neg fun h => hgone h.2]
      refine ⟨_, rfl, Resident.touch hbits (hcount.trans hlength.symm) ?_ ?_ ?_
        (Or.inl (habsent n hnot)) ?_ ?_⟩
      · exact nodup_concat (hmemory ▸ hs.nodup.erase _) hnot
      · exact hlength.le.trans hle
      · exact List.mem_append_right _ (List.mem_singleton_self n)
      · intro p hp hne
        rcases List.mem_append.mp hp with hp | hp
        · exact hcounted p hp
        · exact absurd (List.mem_singleton.mp hp) hne
      · intro p hp
        exact habsent p fun hmem => hp (List.mem_append_left _ hmem)
    case isFalse hroom =>
      refine ⟨_, rfl, Resident.touch hbits ?_ (nodup_concat hs.nodup hn) ?_ ?_
        (Or.inl (hs.absent n hn)) ?_ ?_⟩
      · simp [hcount]
      · simp only [List.length_append, List.length_singleton]
        omega
      · exact List.mem_append_right _ (List.mem_singleton_self n)
      · intro p hp hne
        rcases List.mem_append.mp hp with hp | hp
        · exact hs.counted p hp
        · exact absurd (List.mem_singleton.mp hp) hne
      · intro p hp
        exact hs.absent p fun hmem => hp (List.mem_append_left _ hmem)

/-! ## The run -/

theorem resident_init (c : Config) : Resident c State.init :=
  ⟨rfl, List.nodup_nil, Nat.zero_le _, fun _ h => absurd h List.not_mem_nil, fun _ _ => rfl⟩

theorem loop_clock (hpolicy : c.policy = .clock) (hsize : 1 ≤ c.cachesize)
    (hbits : 1 ≤ c.clockbits) (random : ℕ → ℕ) (addrList refs : List ℤ)
    (hs : Resident c s) : ∃ s', loop c random addrList s refs = some s' ∧ Resident c s' := by
  induction refs generalizing s with
  | nil => exact ⟨s, rfl, hs⟩
  | cons n refs ih =>
      obtain ⟨t, ht, hresident⟩ := access_clock hpolicy hsize hbits hs random addrList n
      obtain ⟨s', hs', hresident'⟩ := ih hresident
      exact ⟨s', Option.bind_eq_some_iff.mpr ⟨t, ht, hs'⟩, hresident'⟩

theorem loop_append (past future : List ℤ) (s : State) :
    loop c random addrList s (past ++ future) =
      (loop c random addrList s past).bind fun s => loop c random addrList s future := by
  induction past generalizing s with
  | nil => rfl
  | cons n past ih =>
      rw [List.cons_append, loop, loop, Option.bind_assoc]
      exact Option.bind_congr fun t _ => ih t

/-- No reference fails, and after each the pages in memory are those with a count; where a victim
is looked for, the counts bound the picks. -/
theorem clock_correct {cachesize : ℕ} (hsize : 1 ≤ cachesize) {clockbits : ℤ}
    (hbits : 1 ≤ clockbits) (random : ℕ → ℕ) (addrList past future : List ℤ)
    (hsplit : addrList = past ++ future) :
    ∃ s s', loop ⟨.clock, cachesize, clockbits⟩ random addrList State.init past = some s ∧
      Resident ⟨.clock, cachesize, clockbits⟩ s ∧
      (s.count = cachesize → ∃ victim ref' picks, victim ∈ s.memory ∧
        picks ≤ countSum s.memory s.ref + 1 ∧
        ∀ fuel ≥ picks, clockVictim random s.memory s.count fuel s.ref s.draws =
          some (victim, ref', s.draws + picks)) ∧
      simulate ⟨.clock, cachesize, clockbits⟩ random addrList = some s' := by
  obtain ⟨s, hs, hresident⟩ := loop_clock (c := ⟨.clock, cachesize, clockbits⟩) rfl hsize hbits
    random addrList past (resident_init _)
  obtain ⟨s', hs', -⟩ := loop_clock (c := ⟨.clock, cachesize, clockbits⟩) rfl hsize hbits
    random addrList future hresident
  refine ⟨s, s', hs, hresident, ?_, ?_⟩
  · intro hfull
    have hpos : 0 < s.memory.length := by
      rw [← hresident.count, hfull]
      exact hsize
    obtain ⟨victim, ref', picks, hvictim, hpicks, hends, -⟩ :=
      clockVictim_ends hresident.nodup hpos hresident.counted random s.draws
    rw [hresident.count]
    exact ⟨victim, ref', picks, hvictim, hpicks, hends⟩
  · rw [simulate, hsplit, loop_append, ← hsplit, hs]
    exact hs'

theorem clock_correct_twoPages :
    ∃ s s', loop ⟨.clock, 2, 2⟩ id [1, 2, 1, 3] State.init [1, 2, 1] = some s ∧
      Resident ⟨.clock, 2, 2⟩ s ∧
      (s.count = 2 → ∃ victim ref' picks, victim ∈ s.memory ∧
        picks ≤ countSum s.memory s.ref + 1 ∧
        ∀ fuel ≥ picks, clockVictim id s.memory s.count fuel s.ref s.draws =
          some (victim, ref', s.draws + picks)) ∧
      simulate ⟨.clock, 2, 2⟩ id [1, 2, 1, 3] = some s' :=
  clock_correct (by decide) (by decide) id [1, 2, 1, 3] [1, 2, 1] [3] rfl

end OsLabs.PagingPolicy
