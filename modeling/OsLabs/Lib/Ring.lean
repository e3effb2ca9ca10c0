import Mathlib

/-!
# Ring buffers

A ring of `n` cells, of which some hold a value. The values go in at increasing
positions modulo `n` and come out in the same order, so the full cells hold what
has been put in and not yet taken out.
-/

namespace OsLabs.Ring

variable {α : Type*}

/-- The values `put` have been put in, the first of them at `start`, and those
of `taken` have been taken out. -/
structure Holds (n start : ℕ) (cells : ℕ → Option α) (put taken : List α) : Prop where
  pos : 0 < n
  order : taken <+: put
  room : put.length ≤ taken.length + n
  full : ∀ k, taken.length ≤ k → k < put.length → cells ((start + k) % n) = put[k]?
  empty : ∀ x < n, (∀ k, taken.length ≤ k → k < put.length → (start + k) % n ≠ x) →
    cells x = none

variable {n start : ℕ} {cells cells' : ℕ → Option α} {put taken : List α} {v : α}

/-- Positions that lie less than `n` apart are different cells. -/
theorem mod_ne {j k : ℕ} (hjk : j < k) (hkn : k < j + n) : (start + j) % n ≠ (start + k) % n := by
  intro heq
  have hdvd : n ∣ (start + k) - (start + j) :=
    (Nat.modEq_iff_dvd' (by omega)).mp (show start + j ≡ start + k [MOD n] from heq)
  have := Nat.le_of_dvd (by omega) hdvd
  omega

theorem Holds.init (hn : 0 < n) (hcells : ∀ x < n, cells x = none) :
    Holds n start cells [] ([] : List α) :=
  ⟨hn, List.prefix_rfl, Nat.zero_le _, fun k _ hk => absurd hk (Nat.not_lt_zero k),
    fun x hx _ => hcells x hx⟩

theorem Holds.congr (h : Holds n start cells put taken) (hcells : ∀ x < n, cells' x = cells x) :
    Holds n start cells' put taken :=
  ⟨h.pos, h.order, h.room,
    fun k hk hlt => (hcells _ (Nat.mod_lt _ h.pos)).trans (h.full k hk hlt),
    fun x hx hall => (hcells x hx).trans (h.empty x hx hall)⟩

/-- The cell for the next value is empty. -/
theorem Holds.next_empty (h : Holds n start cells put taken)
    (hroom : put.length < taken.length + n) : cells ((start + put.length) % n) = none :=
  h.empty _ (Nat.mod_lt _ h.pos) fun k hk hlt => mod_ne hlt (by omega)

theorem Holds.fill (h : Holds n start cells put taken) (hroom : put.length < taken.length + n)
    (hself : cells' ((start + put.length) % n) = some v)
    (hother : ∀ x < n, x ≠ (start + put.length) % n → cells' x = cells x) :
    Holds n start cells' (put ++ [v]) taken := by
  have hlen : (put ++ [v]).length = put.length + 1 := List.length_append
  refine ⟨h.pos, h.order.trans (List.prefix_append _ _), by omega, fun k hk hlt => ?_,
    fun x hx hall => ?_⟩
  · obtain hlt | rfl := Nat.lt_succ_iff_lt_or_eq.mp (hlen ▸ hlt)
    · rw [hother _ (Nat.mod_lt _ h.pos) (mod_ne hlt (by omega)), h.full k hk hlt,
        List.getElem?_append_left hlt]
    · rw [hself, List.getElem?_concat_length]
  · have hne : x ≠ (start + put.length) % n :=
      (hall put.length (by have := h.order.length_le; omega) (by omega)).symm
    rw [hother x hx hne]
    exact h.empty x hx fun k hk hlt => hall k hk (by omega)

/-- The next cell to be taken holds the oldest value. -/
theorem Holds.next_full (h : Holds n start cells put taken) (hne : taken.length < put.length) :
    ∃ v, cells ((start + taken.length) % n) = some v ∧ taken ++ [v] <+: put := by
  obtain ⟨rest, rfl⟩ := h.order
  cases rest with
  | nil => simp at hne
  | cons v rest =>
      refine ⟨v, ?_, rest, by simp⟩
      rw [h.full taken.length le_rfl hne]
      simp

theorem Holds.drain (h : Holds n start cells put taken) (hne : taken.length < put.length)
    (hv : cells ((start + taken.length) % n) = some v)
    (hself : cells' ((start + taken.length) % n) = none)
    (hother : ∀ x < n, x ≠ (start + taken.length) % n → cells' x = cells x) :
    Holds n start cells' put (taken ++ [v]) := by
  have hlen : (taken ++ [v]).length = taken.length + 1 := List.length_append
  obtain ⟨w, hw, horder⟩ := h.next_full hne
  obtain rfl := Option.some.inj (hv.symm.trans hw)
  have hroom := h.room
  refine ⟨h.pos, horder, by omega, fun k hk hlt => ?_, fun x hx hall => ?_⟩
  · rw [hother _ (Nat.mod_lt _ h.pos) (mod_ne (by omega) (by omega)).symm]
    exact h.full k (by omega) hlt
  · by_cases hx' : x = (start + taken.length) % n
    · rw [hx', hself]
    · rw [hother x hx hx']
      refine h.empty x hx fun k hk hlt => ?_
      obtain rfl | hk := Nat.eq_or_lt_of_le hk
      · exact Ne.symm hx'
      · exact hall k (by omega) hlt

/-- The `mark` is not in the stream before its end, and it is its last value once
it has `ended`. -/
def StreamOk (mark : α) (stream : List α) (ended : ℕ) : Prop :=
  if ended = 0 then mark ∉ stream else ∃ values, stream = values ++ [mark] ∧ mark ∉ values

variable {mark : α} {stream : List α} {ended : ℕ}

theorem StreamOk.append [DecidableEq α] (h : StreamOk mark stream 0) :
    StreamOk mark (stream ++ [v]) (if v = mark then 1 else 0) := by
  have hnone : mark ∉ stream := h
  split
  · next hv =>
      subst hv
      exact ⟨stream, rfl, hnone⟩
  · next hv =>
      have : mark ∉ stream ++ [v] := by simp [hnone, Ne.symm hv]
      exact this

theorem StreamOk.last (h : StreamOk mark stream ended) :
    mark ∉ stream.dropLast ∧ (ended = 1 → stream.getLast? = some mark) := by
  unfold StreamOk at h
  split at h
  · next hzero => exact ⟨fun hmem => h (List.dropLast_subset _ hmem), fun hone => by omega⟩
  · obtain ⟨values, rfl, hnone⟩ := h
    exact ⟨by rwa [List.dropLast_concat], fun _ => by simp⟩

end OsLabs.Ring
