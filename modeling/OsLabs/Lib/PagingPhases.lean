import OsLabs.Lib.Paging

/-!
# Phases of misses

A cache kept as a queue evicts its oldest page. Whether or not a hit renews the
page, `k` misses after the newest page came in reference `k` pages besides it. A
cache of `h` pages that held the newest one as well has then missed `k + 1 - h`
times.
-/

namespace OsLabs.Paging

variable {α : Type*} [DecidableEq α]

/-- The queue, oldest page first, serves a reference with so many misses. -/
inductive Serves (k : ℕ) (queue : List α) (n : α) : List α → ℕ → Prop
  | hit (hn : n ∈ queue) : Serves k queue n queue 0
  | renew (hn : n ∈ queue) : Serves k queue n (queue.erase n ++ [n]) 0
  | fill (hn : n ∉ queue) (hroom : queue.length < k) : Serves k queue n (queue ++ [n]) 1
  | evict (hn : n ∉ queue) (hfull : queue.length = k) : Serves k queue n (queue.tail ++ [n]) 1

inductive Queued (k : ℕ) : List α → List α → ℕ → Prop
  | nil (queue : List α) : Queued k queue [] 0
  | cons {queue queue' rest : List α} {n : α} {x m : ℕ} (step : Serves k queue n queue' x)
      (next : Queued k queue' rest m) : Queued k queue (n :: rest) (m + x)

variable {queue queue' refs : List α} {n : α} {k h x m b : ℕ}

namespace Serves

theorem le_one (hstep : Serves k queue n queue' x) : x ≤ 1 := by
  cases hstep <;> decide

theorem nodup (hstep : Serves k queue n queue' x) (hnodup : queue.Nodup) : queue'.Nodup := by
  have hconcat : ∀ {l : List α}, l.Nodup → n ∉ l → (l ++ [n]).Nodup := by
    intro l hl hn
    rw [← List.concat_eq_append]
    exact hl.concat hn
  cases hstep with
  | hit => exact hnodup
  | renew => exact hconcat (hnodup.erase n) hnodup.not_mem_erase
  | fill hn => exact hconcat hnodup hn
  | evict hn => exact hconcat hnodup.tail fun hmem => hn (List.mem_of_mem_tail hmem)

theorem length_le (hstep : Serves k queue n queue' x) (hk : 0 < k) (hle : queue.length ≤ k) :
    queue'.length ≤ k := by
  cases hstep with
  | hit => exact hle
  | renew hn =>
      have hpos := List.length_pos_of_mem hn
      rw [List.length_append, List.length_erase_of_mem hn, List.length_singleton]
      omega
  | fill hn hroom =>
      rw [List.length_append, List.length_singleton]
      omega
  | evict hn hfull =>
      rw [List.length_append, List.length_tail, List.length_singleton]
      omega

/-- A missed page is the newest one. -/
theorem exists_concat (hstep : Serves k queue n queue' 1) : ∃ older, queue' = older ++ [n] := by
  cases hstep with
  | fill => exact ⟨queue, rfl⟩
  | evict => exact ⟨queue.tail, rfl⟩

theorem mem_of_mem (hstep : Serves k queue n queue' x) {page : α} (hpage : page ∈ queue') :
    page = n ∨ page ∈ queue := by
  cases hstep with
  | hit => exact .inr hpage
  | renew =>
      rcases List.mem_append.mp hpage with hmem | hmem
      · exact .inr (List.mem_of_mem_erase hmem)
      · exact .inl (List.mem_singleton.mp hmem)
  | fill =>
      rcases List.mem_append.mp hpage with hmem | hmem
      · exact .inr hmem
      · exact .inl (List.mem_singleton.mp hmem)
  | evict =>
      rcases List.mem_append.mp hpage with hmem | hmem
      · exact .inr (List.mem_of_mem_tail hmem)
      · exact .inl (List.mem_singleton.mp hmem)

end Serves

/-! ## The queue in a phase -/

/-- Since the phase began, `seen` was referenced: more than `k` pages, or the newer part of the
queue, which has grown at every miss. -/
def Renewed (k : ℕ) (queue : List α) (seen : Finset α) (missed : ℕ) : Prop :=
  k < seen.card ∨ ∃ older newer, queue = older ++ newer ∧ (∀ page ∈ newer, page ∈ seen) ∧
    missed < newer.length

variable {seen : Finset α} {missed : ℕ}

omit [DecidableEq α] in
theorem renewed_concat (k : ℕ) (older : List α) (n : α) : Renewed k (older ++ [n]) {n} 0 :=
  .inr ⟨older, [n], rfl, fun _ hpage => Finset.mem_singleton.mpr (List.mem_singleton.mp hpage),
    Nat.one_pos⟩

theorem Renewed.serve (hrenewed : Renewed k queue seen missed) (hnodup : queue.Nodup)
    (hstep : Serves k queue n queue' x) : Renewed k queue' (insert n seen) (missed + x) := by
  rcases hrenewed with hmany | ⟨older, newer, rfl, hseen, hmissed⟩
  · exact .inl (hmany.trans_le (Finset.card_le_card (Finset.subset_insert n seen)))
  have hkept : ∀ page ∈ newer, page ∈ insert n seen :=
    fun page hpage => Finset.mem_insert_of_mem (hseen page hpage)
  have hgrown : ∀ page ∈ newer ++ [n], page ∈ insert n seen := by
    intro page hpage
    rcases List.mem_append.mp hpage with hmem | hmem
    · exact hkept page hmem
    · exact Finset.mem_insert.mpr (.inl (List.mem_singleton.mp hmem))
  have hlength : (newer ++ [n]).length = newer.length + 1 := by simp
  cases hstep with
  | hit => exact .inr ⟨older, newer, rfl, hkept, hmissed⟩
  | renew hn =>
      by_cases hold : n ∈ older
      · refine .inr ⟨older.erase n, newer ++ [n], ?_, hgrown, by omega⟩
        rw [List.erase_append_left newer hold, List.append_assoc]
      · have hnew : n ∈ newer := (List.mem_append.mp hn).resolve_left hold
        have hpos := List.length_pos_of_mem hnew
        refine .inr ⟨older, newer.erase n ++ [n], ?_, fun page hpage => hgrown page ?_, ?_⟩
        · rw [List.erase_append_right newer hold, List.append_assoc]
        · rcases List.mem_append.mp hpage with hmem | hmem
          · exact List.mem_append_left [n] (List.mem_of_mem_erase hmem)
          · exact List.mem_append_right newer hmem
        · rw [List.length_append, List.length_erase_of_mem hnew, List.length_singleton]
          omega
  | fill =>
      exact .inr ⟨older, newer ++ [n], List.append_assoc _ _ _, hgrown, by omega⟩
  | evict hn hfull =>
      cases older with
      | nil =>
          -- all of the queue was referenced in this phase, and `n` is one page more
          left
          have hcard : (insert n newer.toFinset).card = newer.length + 1 := by
            rw [Finset.card_insert_of_notMem (by simpa using hn),
              List.toFinset_card_of_nodup (by simpa using hnodup)]
          have hsub : insert n newer.toFinset ⊆ insert n seen := by
            apply Finset.insert_subset_insert
            intro page hpage
            exact hseen page (List.mem_toFinset.mp hpage)
          have hle := Finset.card_le_card hsub
          simp only [List.nil_append] at hfull
          omega
      | cons page older =>
          exact .inr ⟨older, newer ++ [n], by simp, hgrown, by omega⟩

omit [DecidableEq α] in
theorem Renewed.card_gt (hrenewed : Renewed k queue seen k) (hle : queue.length ≤ k) :
    k < seen.card := by
  rcases hrenewed with hmany | ⟨older, newer, rfl, -, hmissed⟩
  · exact hmany
  · rw [List.length_append] at hle
    omega

/-! ## Another cache in the phase -/

variable {rule : Rule α} {cache : Finset α}

/-- Whatever was in the cache or referenced since then, counting the misses. -/
def Held (size : ℕ) (seen cache : Finset α) (missed : ℕ) : Prop :=
  ∃ held, seen ⊆ held ∧ cache ⊆ held ∧ held.card ≤ size + missed

omit [DecidableEq α] in
theorem held_singleton (hn : n ∈ cache) (hcard : cache.card ≤ h) : Held h {n} cache 0 :=
  ⟨cache, Finset.singleton_subset_iff.mpr hn, Finset.Subset.refl cache, hcard⟩

/-- What any rule makes of one reference: `x` misses, and only the page itself is new. -/
theorem Demand.next (hdemand : Demand rule h cache (n :: refs) b) (hcard : cache.card ≤ h) :
    ∃ cache' b' x, Demand rule h cache' refs b' ∧ b = b' + x ∧ cache'.card ≤ h ∧ n ∈ cache' ∧
      ∀ {size seen missed}, Held size seen cache missed →
        Held size (insert n seen) cache' (missed + x) := by
  have hnew : n ∉ cache → ∀ {cache' : Finset α}, cache' ⊆ insert n cache →
      ∀ {size seen missed}, Held size seen cache missed →
        Held size (insert n seen) cache' (missed + 1) := by
    rintro hn cache' hsub size seen missed ⟨held, hseen, hcache, hheld⟩
    refine ⟨insert n held, Finset.insert_subset_insert n hseen,
      hsub.trans (Finset.insert_subset_insert n hcache), ?_⟩
    exact (Finset.card_insert_le n held).trans (by omega)
  cases hdemand with
  | @hit _ _ _ b hn next =>
      refine ⟨cache, b, 0, next, rfl, hcard, hn, ?_⟩
      rintro size seen missed ⟨held, hseen, hcache, hheld⟩
      exact ⟨held, Finset.insert_subset (hcache hn) hseen, hcache, hheld⟩
  | @fill _ _ _ b hn hroom next =>
      refine ⟨insert n cache, b, 1, next, rfl, ?_, Finset.mem_insert_self n cache,
        hnew hn (Finset.Subset.refl _)⟩
      rw [Finset.card_insert_of_notMem hn]
      exact hroom
  | @evict _ _ _ b v hn hfull hv _ next =>
      refine ⟨insert n (cache.erase v), b, 1, next, rfl, ?_, Finset.mem_insert_self _ _,
        hnew hn (Finset.insert_subset_insert n (Finset.erase_subset v cache))⟩
      rw [card_insert_erase hn hv]
      exact hcard

/-! ## Counting the phases -/

/-- From the middle of a phase on, every full phase of the queue costs the other cache
`k + 1 - h` misses. -/
theorem phases_le (hk : 0 < k) {missed missed' : ℕ} (hqueued : Queued k queue refs m)
    (hdemand : Demand rule h cache refs b) (hnodup : queue.Nodup) (hle : queue.length ≤ k)
    (hcard : cache.card ≤ h) (hrenewed : Renewed k queue seen missed)
    (hheld : Held h seen cache missed') (hlt : missed < k) :
    (k + 1 - h) * ((missed + m) / k) ≤ missed' + b := by
  induction refs generalizing queue cache seen missed missed' m b with
  | nil =>
      cases hqueued
      rw [Nat.add_zero missed, Nat.div_eq_of_lt hlt]
      exact Nat.zero_le _
  | cons n refs ih =>
      cases hqueued with
      | @cons _ queue' _ _ x m hstep hnext =>
          rcases hdemand.next hcard with ⟨cache', b', x', hdemand', rfl, hcard', hn, hheld'⟩
          have hrenewed' := hrenewed.serve hnodup hstep
          have hnodup' := hstep.nodup hnodup
          have hle' := hstep.length_le hk hle
          have hx := hstep.le_one
          by_cases hfull : missed + x < k
          · have hrest := ih hnext hdemand' hnodup' hle' hcard' hrenewed' (hheld' hheld) hfull
            rw [show missed + (m + x) = missed + x + m by omega]
            omega
          · -- the last miss of this phase starts the next one
            have hend : missed + x = k := by omega
            obtain rfl : x = 1 := by omega
            rw [hend] at hrenewed'
            have hmany := hrenewed'.card_gt hle'
            rcases hheld' hheld with ⟨held, hseen, -, hsmall⟩
            have hpaid := Finset.card_le_card hseen
            rcases hstep.exists_concat with ⟨older, rfl⟩
            have hrest := ih hnext hdemand' hnodup' hle' hcard' (renewed_concat k older n)
              (held_singleton hn hcard') hk
            rw [Nat.zero_add, Nat.zero_add] at hrest
            rw [show missed + (m + 1) = k + m by omega, Nat.add_div_left m hk, Nat.mul_succ]
            omega

/-- The first phase starts from empty caches and has `size` misses. Up to its end the queue
evicts nothing, so that the other cache misses whenever the queue does. -/
theorem first_phase_le {size t missed' : ℕ} (hqueued : Queued k queue refs m)
    (hdemand : Demand rule h cache refs b) (hnodup : queue.Nodup) (hcard : cache.card ≤ h)
    (hheld : Held 0 queue.toFinset cache missed') (hlt : queue.length < size) (hsize : size ≤ k)
    (hm : queue.length + m = size + k * t) : size + (k + 1 - h) * t ≤ missed' + b := by
  induction refs generalizing queue cache missed' m b with
  | nil =>
      cases hqueued
      omega
  | cons n refs ih =>
      cases hqueued with
      | @cons _ queue' _ _ x m hstep hnext =>
          rcases hdemand.next hcard with ⟨cache', b', x', hdemand', rfl, hcard', hn, hheld'⟩
          have hnodup' := hstep.nodup hnodup
          have hlength : queue'.length = queue.length + x := by
            cases hstep with
            | hit => rfl
            | renew hn =>
                have hpos := List.length_pos_of_mem hn
                rw [List.length_append, List.length_erase_of_mem hn, List.length_singleton]
                omega
            | fill => simp
            | evict hn hfull => omega
          have hheld'' : Held 0 queue'.toFinset cache' (missed' + x') := by
            rcases hheld' hheld with ⟨held, hseen, hcache, hsmall⟩
            refine ⟨held, fun page hpage => hseen ?_, hcache, hsmall⟩
            rcases hstep.mem_of_mem (List.mem_toFinset.mp hpage) with rfl | hmem
            · exact Finset.mem_insert_self _ _
            · exact Finset.mem_insert_of_mem (List.mem_toFinset.mpr hmem)
          have hx := hstep.le_one
          by_cases hfull : queue'.length < size
          · have hrest := ih hnext hdemand' hnodup' hcard' hheld'' hfull (by omega)
            omega
          · obtain rfl : x = 1 := by omega
            rcases hheld'' with ⟨held, hqueue, -, hsmall⟩
            have hpaid := Finset.card_le_card hqueue
            rw [List.toFinset_card_of_nodup hnodup'] at hpaid
            rcases hstep.exists_concat with ⟨older, rfl⟩
            have hk : 0 < k := by omega
            have hrest := phases_le hk hnext hdemand' hnodup' (by omega) hcard'
              (renewed_concat k older n) (held_singleton hn hcard') hk
            rw [Nat.zero_add, Nat.zero_add, show m = k * t by omega,
              Nat.mul_div_cancel_left t hk] at hrest
            omega

/-- A queue of `k` pages against any cache of `h` pages, both empty at first. -/
theorem queued_competitive (hk : 0 < k) (hh : 0 < h) (hqueued : Queued k [] refs m)
    (hdemand : Demand rule h ∅ refs b) : (k + 1 - h) * m ≤ k * b := by
  cases m with
  | zero => simp
  | succ m =>
      have hmod := Nat.mod_lt m hk
      have hdiv := Nat.mod_add_div m k
      have hmisses : m % k + 1 + (k + 1 - h) * (m / k) ≤ 0 + b := by
        apply first_phase_le hqueued hdemand List.nodup_nil (Nat.zero_le h) ?_ (Nat.succ_pos _)
          hmod
        · rw [List.length_nil]
          omega
        · exact ⟨∅, by simp, Finset.Subset.refl _, Nat.le_refl _⟩
      have hratio : k + 1 - h ≤ k := by omega
      calc (k + 1 - h) * (m + 1)
          = (k + 1 - h) * (m % k + 1) + k * ((k + 1 - h) * (m / k)) := by
            nth_rewrite 1 [← hdiv]
            ring
        _ ≤ k * (m % k + 1) + k * ((k + 1 - h) * (m / k)) :=
            Nat.add_le_add_right (Nat.mul_le_mul_right _ hratio) _
        _ = k * (m % k + 1 + (k + 1 - h) * (m / k)) := (Nat.mul_add _ _ _).symm
        _ ≤ k * b := Nat.mul_le_mul_left k (by omega)

end OsLabs.Paging
