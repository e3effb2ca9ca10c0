import Mathlib
import OsLabs.Lib.Ending
import OsLabs.Lib.Threads

/-!
# The dining philosophers

`dining_philosophers_no_deadlock.c` and `dining_philosophers_deadlock.c` differ in
the order in which `get_forks` waits for the two forks. The threads are the main
program, which creates and joins the philosophers, and the five philosophers.
-/

namespace OsLabs.Concurrent.Dining

open OsLabs.Transition OsLabs.Threads

def left (p : Fin 5) : Fin 5 := p

/-- `(p + 1) % 5`. -/
def right (p : Fin 5) : Fin 5 := p + 1

/-- The forks in the order of the waits. -/
abbrev Order := Fin 5 → Fin 5 × Fin 5

/-- `get_forks` of `dining_philosophers_no_deadlock.c`. -/
def NoDeadlock.get_forks : Order := fun p => if p = 4 then (right p, left p) else (left p, right p)

/-- `get_forks` of `dining_philosophers_deadlock.c`. -/
def Deadlock.get_forks : Order := fun p => (left p, right p)

/-- What a philosopher does next, in round `i` of its loop. -/
inductive Loc
  | unborn
  | test (i : ℕ)
  -- `get_forks`
  | waitFirst (i : ℕ)
  | waitSecond (i : ℕ)
  | eating (i : ℕ)
  -- `put_forks`
  | postLeft (i : ℕ)
  | postRight (i : ℕ)
  | returned
deriving DecidableEq, Repr

inductive Main
  | create (i : ℕ)
  | join (i : ℕ)
  | finished
deriving DecidableEq, Repr

structure State where
  forks : Fin 5 → ℕ
  pc : Fin 5 → Loc
  main : Main

def initial : State := ⟨fun _ => 1, fun _ => .unborn, .create 0⟩

def State.goto (s : State) (p : Fin 5) (loc : Loc) : State :=
  { s with pc := Function.update s.pc p loc }

def State.wait (s : State) (p fork : Fin 5) (loc : Loc) : Option State :=
  (semWait (s.forks fork)).map fun value =>
    { s with forks := Function.update s.forks fork value }.goto p loc

def State.post (s : State) (p fork : Fin 5) (loc : Loc) : State :=
  { s with forks := Function.update s.forks fork (semPost (s.forks fork)) }.goto p loc

def philosopher (order : Order) (num_loops : ℤ) (s : State) (p : Fin 5) : Option State :=
  match s.pc p with
  | .unborn => none
  | .test i => some (s.goto p (if (i : ℤ) < num_loops then .waitFirst i else .returned))
  | .waitFirst i => s.wait p (order p).1 (.waitSecond i)
  | .waitSecond i => s.wait p (order p).2 (.eating i)
  | .eating i => some (s.goto p (.postLeft i))
  | .postLeft i => some (s.post p (left p) (.postRight i))
  | .postRight i => some (s.post p (right p) (.test (i + 1)))
  | .returned => none

def main (s : State) : Option State :=
  match s.main with
  | .create i =>
      if h : i < 5 then some { s.goto ⟨i, h⟩ (.test 0) with main := .create (i + 1) }
      else some { s with main := .join 0 }
  | .join i =>
      if h : i < 5 then
        if s.pc ⟨i, h⟩ = .returned then some { s with main := .join (i + 1) } else none
      else some { s with main := .finished }
  | .finished => none

/-- A step of the main program or of a philosopher. -/
def step (order : Order) (num_loops : ℤ) (s : State) : Option (Fin 5) → Option State
  | none => main s
  | some p => philosopher order num_loops s p

def Unfinished (s : State) : Option (Fin 5) → Prop
  | none => s.main ≠ .finished
  | some p => s.pc p ≠ .returned

/-! ## Forks -/

/-- The number of times a philosopher at a place holds a fork. -/
def holds (order : Order) (fork : Fin 5) : Fin 5 × Loc → ℕ
  | (p, .waitSecond _) => if fork = (order p).1 then 1 else 0
  | (p, .eating _) | (p, .postLeft _) =>
      (if fork = left p then 1 else 0) + if fork = right p then 1 else 0
  | (p, .postRight _) => if fork = right p then 1 else 0
  | _ => 0

def places (s : State) : Fin 5 → Fin 5 × Loc := fun p => (p, s.pc p)

/-- Each fork lies on the table or is held. -/
def ForksOk (order : Order) (s : State) : Prop :=
  ∀ fork, s.forks fork + total (places s) (holds order fork) = 1

/-- Both orders take the two forks of the philosopher. -/
def Takes (order : Order) : Prop :=
  ∀ p, order p = (left p, right p) ∨ order p = (right p, left p)

theorem takes_noDeadlock : Takes NoDeadlock.get_forks := by
  unfold Takes
  decide

theorem takes_deadlock : Takes Deadlock.get_forks := fun _ => .inl rfl

theorem left_ne_right (p : Fin 5) : left p ≠ right p := by
  revert p
  decide

variable {order : Order} {num_loops : ℤ} {s s' : State} {p q fork : Fin 5} {i : ℕ} {loc : Loc}

theorem places_goto (s : State) (p : Fin 5) (loc : Loc) :
    places (s.goto p loc) = Function.update (places s) p (p, loc) := by
  funext q
  by_cases hq : q = p
  · subst hq
    simp [places, State.goto]
  · simp [places, State.goto, hq]

/-- A philosopher moves between a place and the table what it holds more or less. -/
theorem ForksOk.move (h : ForksOk order s) {forks : Fin 5 → ℕ}
    (hforks : ∀ fork, forks fork + holds order fork (p, loc) =
      s.forks fork + holds order fork (p, s.pc p)) :
    ForksOk order ({ s with forks }.goto p loc) := by
  intro fork
  have htotal := total_update (places s) (holds order fork) p (p, loc)
  have hone := h fork
  have hmove := hforks fork
  have hplaces : places ({ s with forks }.goto p loc) = Function.update (places s) p (p, loc) :=
    places_goto { s with forks } p loc
  have hplace : places s p = (p, s.pc p) := rfl
  rw [hplaces]
  rw [hplace] at htotal
  show forks fork + _ = 1
  omega

theorem ForksOk.goto (h : ForksOk order s)
    (hholds : ∀ fork, holds order fork (p, loc) = holds order fork (p, s.pc p)) :
    ForksOk order (s.goto p loc) :=
  h.move fun fork => by rw [hholds fork]

theorem ForksOk.wait (h : ForksOk order s) {fork : Fin 5}
    (hholds : ∀ fork', holds order fork' (p, loc) =
      holds order fork' (p, s.pc p) + if fork' = fork then 1 else 0)
    (hwait : s.wait p fork loc = some s') : ForksOk order s' := by
  rcases Option.map_eq_some_iff.mp hwait with ⟨value, hvalue, rfl⟩
  have hone := semWait_eq_some.mp hvalue
  apply h.move
  intro fork'
  rw [hholds fork']
  by_cases hfork : fork' = fork
  · subst hfork
    rw [Function.update_self, if_pos rfl]
    omega
  · rw [Function.update_of_ne hfork, if_neg hfork, Nat.add_zero]

theorem ForksOk.post (h : ForksOk order s)
    (hholds : ∀ fork', holds order fork' (p, s.pc p) =
      holds order fork' (p, loc) + if fork' = fork then 1 else 0) :
    ForksOk order (s.post p fork loc) := by
  apply h.move
  intro fork'
  rw [hholds fork']
  by_cases hfork : fork' = fork
  · subst hfork
    rw [Function.update_self, if_pos rfl, semPost]
    omega
  · rw [Function.update_of_ne hfork, if_neg hfork, Nat.add_zero]

theorem ForksOk.philosopher (h : ForksOk order s) (horder : Takes order)
    (hstep : philosopher order num_loops s p = some s') : ForksOk order s' := by
  unfold Dining.philosopher at hstep
  split at hstep
  case h_1 => cases hstep
  case h_2 i hpc =>
      cases hstep
      apply h.goto
      intro fork
      rw [hpc]
      split <;> rfl
  case h_3 i hpc =>
      apply h.wait ?_ hstep
      intro fork
      rw [hpc]
      exact (Nat.zero_add _).symm
  case h_4 i hpc =>
      apply h.wait ?_ hstep
      intro fork
      rw [hpc]
      show (if fork = left p then 1 else 0) + (if fork = right p then 1 else 0) =
        (if fork = (order p).1 then 1 else 0) + if fork = (order p).2 then 1 else 0
      rcases horder p with heq | heq
      · rw [heq]
      · rw [heq]
        exact Nat.add_comm _ _
  case h_5 i hpc =>
      cases hstep
      apply h.goto
      intro fork
      rw [hpc]
      rfl
  case h_6 i hpc =>
      cases hstep
      apply h.post
      intro fork
      rw [hpc]
      exact Nat.add_comm _ _
  case h_7 i hpc =>
      cases hstep
      apply h.post
      intro fork
      rw [hpc]
      exact (Nat.zero_add _).symm
  case h_8 => cases hstep

/-! ## The main program -/

/-- The philosophers from `i` on are to be created, or those before `i` have returned. -/
def MainOk (s : State) : Prop :=
  match s.main with
  | .create i => i ≤ 5 ∧ ∀ p : Fin 5, s.pc p = .unborn ↔ i ≤ p
  | .join i => i ≤ 5 ∧ (∀ p : Fin 5, s.pc p ≠ .unborn) ∧ ∀ p : Fin 5, p < i → s.pc p = .returned
  | .finished => ∀ p : Fin 5, s.pc p = .returned

theorem MainOk.goto (h : MainOk s) (hfrom : s.pc p ≠ .unborn) (hnot : s.pc p ≠ .returned)
    (hto : loc ≠ .unborn) : MainOk (s.goto p loc) := by
  have hpc : ∀ q, (s.goto p loc).pc q = if q = p then loc else s.pc q := by
    intro q
    show Function.update s.pc p loc q = _
    rw [Function.update_apply]
  unfold MainOk at h ⊢
  rw [show (s.goto p loc).main = s.main from rfl]
  split at h
  case h_1 i hmain =>
      refine ⟨h.1, fun q => ?_⟩
      rw [hpc q]
      split
      case isTrue heq =>
          subst heq
          exact iff_of_false hto fun hle => hfrom ((h.2 q).mpr hle)
      case isFalse => exact h.2 q
  case h_2 i hmain =>
      refine ⟨h.1, fun q => ?_, fun q hq => ?_⟩
      · rw [hpc q]
        split
        · exact hto
        · exact h.2.1 q
      · rw [hpc q, if_neg]
        · exact h.2.2 q hq
        · rintro rfl
          exact hnot (h.2.2 q hq)
  case h_3 hmain => exact absurd (h p) hnot

theorem MainOk.main (h : MainOk s) (hstep : main s = some s') : MainOk s' := by
  unfold MainOk at h
  unfold Dining.main at hstep
  split at hstep
  case h_1 i hmain =>
      rw [hmain] at h
      split at hstep
      case isTrue hi =>
          cases hstep
          refine ⟨hi, fun q => ?_⟩
          show Function.update s.pc ⟨i, hi⟩ (.test 0) q = .unborn ↔ _
          rw [Function.update_apply]
          split
          case isTrue heq =>
              subst heq
              exact iff_of_false (by simp) (Nat.not_succ_le_self i)
          case isFalse hne =>
              have hval : (q : ℕ) ≠ i := fun heq => hne (Fin.ext heq)
              rw [h.2 q]
              omega
      case isFalse hi =>
          cases hstep
          refine ⟨Nat.zero_le 5, fun q hq => ?_, fun q hq => absurd hq (Nat.not_lt_zero _)⟩
          have := (h.2 q).mp hq
          omega
  case h_2 i hmain =>
      rw [hmain] at h
      split at hstep
      case isTrue hi =>
          split at hstep
          case isTrue hreturned =>
              cases hstep
              refine ⟨hi, h.2.1, fun q hq => ?_⟩
              rcases Nat.lt_succ_iff_lt_or_eq.mp hq with hlt | heq
              · exact h.2.2 q hlt
              · rw [show q = ⟨i, hi⟩ from Fin.ext heq]
                exact hreturned
          case isFalse => cases hstep
      case isFalse hi =>
          cases hstep
          exact fun q => h.2.2 q (by omega)
  case h_3 => cases hstep

structure Inv (order : Order) (s : State) : Prop where
  forks : ForksOk order s
  main : MainOk s

theorem inv_initial (order : Order) : Inv order initial := by
  refine ⟨fun fork => ?_, by decide, fun p => ?_⟩
  · have hnone : total (places initial) (holds order fork) = 0 :=
      total_eq_zero_iff.mpr fun p => rfl
    rw [hnone]
    rfl
  · exact iff_of_true rfl (Nat.zero_le _)

theorem Inv.step (horder : Takes order) (h : Inv order s) {actor : Option (Fin 5)}
    (hstep : step order num_loops s actor = some s') : Inv order s' := by
  cases actor with
  | some p =>
      have hstep : philosopher order num_loops s p = some s' := hstep
      refine ⟨h.forks.philosopher horder hstep, ?_⟩
      have hwait : ∀ {fork loc}, loc ≠ .unborn → s.pc p ≠ .unborn → s.pc p ≠ .returned →
          s.wait p fork loc = some s' → MainOk s' := by
        intro fork loc hto hfrom hnot hwait
        rcases Option.map_eq_some_iff.mp hwait with ⟨value, -, rfl⟩
        exact MainOk.goto (s := { s with forks := Function.update s.forks fork value }) h.main
          hfrom hnot hto
      have hpost : ∀ {fork loc}, loc ≠ .unborn → s.pc p ≠ .unborn → s.pc p ≠ .returned →
          MainOk (s.post p fork loc) := by
        intro fork loc hto hfrom hnot
        exact MainOk.goto
          (s := { s with forks := Function.update s.forks fork (semPost (s.forks fork)) })
          h.main hfrom hnot hto
      unfold Dining.philosopher at hstep
      split at hstep
      case h_1 => cases hstep
      case h_2 i hpc =>
          cases hstep
          apply h.main.goto
          · simp [hpc]
          · simp [hpc]
          · split <;> simp
      case h_3 i hpc => exact hwait (by simp) (by simp [hpc]) (by simp [hpc]) hstep
      case h_4 i hpc => exact hwait (by simp) (by simp [hpc]) (by simp [hpc]) hstep
      case h_5 i hpc =>
          cases hstep
          exact h.main.goto (by simp [hpc]) (by simp [hpc]) (by simp)
      case h_6 i hpc =>
          cases hstep
          exact hpost (by simp) (by simp [hpc]) (by simp [hpc])
      case h_7 i hpc =>
          cases hstep
          exact hpost (by simp) (by simp [hpc]) (by simp [hpc])
      case h_8 => cases hstep
  | none =>
      have hstep : Dining.main s = some s' := hstep
      refine ⟨?_, h.main.main hstep⟩
      have hmain := h.main
      unfold MainOk at hmain
      unfold Dining.main at hstep
      split at hstep
      case h_1 i hcreate =>
          rw [hcreate] at hmain
          split at hstep
          case isTrue hi =>
              cases hstep
              have hunborn := (hmain.2 ⟨i, hi⟩).mpr (Nat.le_refl i)
              apply ForksOk.goto h.forks
              intro fork
              rw [hunborn]
              rfl
          case isFalse =>
              cases hstep
              exact h.forks
      case h_2 i hjoin =>
          split at hstep
          · split at hstep
            · cases hstep
              exact h.forks
            · cases hstep
          · cases hstep
            exact h.forks
      case h_3 => cases hstep

theorem inv_of_reach (horder : Takes order)
    (h : Reach (step order num_loops) anyStep initial s) : Inv order s :=
  h.invariant (inv_initial order) fun _ _ _ hs _ hstep => hs.step horder hstep

/-! ## Exclusion -/

def Eating (s : State) (p : Fin 5) : Prop := ∃ i, s.pc p = .eating i

theorem ForksOk.alone (h : ForksOk order s) (hp : 0 < holds order fork (p, s.pc p))
    (hq : 0 < holds order fork (q, s.pc q)) : p = q := by
  have hone : total (places s) (holds order fork) ≤ 1 := by
    have hfork := h fork
    omega
  exact eq_of_total_le_one hone hp hq

theorem ForksOk.exists_holder (h : ForksOk order s) (hempty : s.forks fork = 0) :
    ∃ q, 0 < holds order fork (q, s.pc q) := by
  have hpos : 0 < total (places s) (holds order fork) := by
    have hfork := h fork
    omega
  exact exists_of_total_pos hpos

/-- In either program, neighbours do not eat at the same time. -/
theorem neighbours_exclude (horder : order = NoDeadlock.get_forks ∨ order = Deadlock.get_forks)
    (num_loops : ℤ) (h : Reach (step order num_loops) anyStep initial s) (p : Fin 5) :
    ¬ (Eating s p ∧ Eating s (right p)) := by
  have htakes : Takes order := by
    rcases horder with rfl | rfl
    · exact takes_noDeadlock
    · exact takes_deadlock
  rintro ⟨⟨i, hp⟩, j, hq⟩
  have hheld : 0 < holds order (right p) (p, s.pc p) := by
    rw [hp]
    simp [holds]
  have hheld' : 0 < holds order (right p) (right p, s.pc (right p)) := by
    rw [hq]
    simp [holds, left]
  exact left_ne_right p ((inv_of_reach htakes h).forks.alone hheld hheld')

/-- All philosophers are created, and two of them take their forks. -/
def seated : List (Option (Fin 5)) :=
  List.replicate 5 none ++ [some 0, some 2, some 0, some 2, some 0, some 2]

theorem neighbours_exclude_seated :
    ∃ s, run (step NoDeadlock.get_forks 1) initial seated = some s ∧ Eating s 0 ∧ Eating s 2 ∧
      ¬ Eating s (right 0) ∧ ¬ Eating s (right 2) ∧ ¬ Eating s 4 := by
  have hplaces : (run (step NoDeadlock.get_forks 1) initial seated).map
      (fun s => (s.pc 0, s.pc 2)) = some (.eating 0, .eating 0) := by decide +kernel
  obtain ⟨s, hrun, hplace⟩ := Option.map_eq_some_iff.mp hplaces
  have hzero : Eating s 0 := ⟨0, congrArg Prod.fst hplace⟩
  have htwo : Eating s 2 := ⟨0, congrArg Prod.snd hplace⟩
  have hexclude := neighbours_exclude (.inl rfl) 1 (reach_of_run_anyStep seated hrun)
  exact ⟨s, hrun, hzero, htwo, fun h => hexclude 0 ⟨hzero, h⟩, fun h => hexclude 2 ⟨htwo, h⟩,
    fun h => hexclude 4 ⟨h, hzero⟩⟩

/-! ## Runs end -/

/-- A bound on the steps a philosopher has before it. -/
def Loc.ahead (rounds : ℕ) : Loc → ℕ
  | .test i => 7 * (rounds - i) + 1
  | .waitFirst i => 7 * (rounds - (i + 1)) + 7
  | .waitSecond i => 7 * (rounds - (i + 1)) + 6
  | .eating i => 7 * (rounds - (i + 1)) + 5
  | .postLeft i => 7 * (rounds - (i + 1)) + 4
  | .postRight i => 7 * (rounds - (i + 1)) + 3
  | .unborn | .returned => 0

def Main.ahead (rounds : ℕ) : Main → ℕ
  | .create i => (5 - i) * (7 * rounds + 2) + 7
  | .join i => 5 - i + 1
  | .finished => 0

def ahead (num_loops : ℤ) (s : State) : ℕ :=
  total s.pc (Loc.ahead num_loops.toNat) + s.main.ahead num_loops.toNat

theorem ahead_goto_lt {rounds : ℕ} (hloc : loc.ahead rounds < (s.pc p).ahead rounds) :
    total (s.goto p loc).pc (Loc.ahead rounds) < total s.pc (Loc.ahead rounds) := by
  have htotal := total_update s.pc (Loc.ahead rounds) p loc
  show total (Function.update s.pc p loc) _ < _
  omega

theorem step_ahead (actor : Option (Fin 5)) (h : step order num_loops s actor = some s') :
    ahead num_loops s' < ahead num_loops s := by
  cases actor with
  | some p =>
      have hmoved : ∀ {forks : Fin 5 → ℕ} {loc : Loc},
          loc.ahead num_loops.toNat < (s.pc p).ahead num_loops.toNat →
          ahead num_loops ({ s with forks }.goto p loc) < ahead num_loops s := by
        intro forks loc hloc
        exact Nat.add_lt_add_right (ahead_goto_lt (s := { s with forks }) hloc) _
      have hwait : ∀ {fork loc}, loc.ahead num_loops.toNat < (s.pc p).ahead num_loops.toNat →
          s.wait p fork loc = some s' → ahead num_loops s' < ahead num_loops s := by
        intro fork loc hloc hwait
        rcases Option.map_eq_some_iff.mp hwait with ⟨value, -, rfl⟩
        exact hmoved hloc
      have h : philosopher order num_loops s p = some s' := h
      unfold Dining.philosopher at h
      split at h
      case h_1 => cases h
      case h_2 i hpc =>
          cases h
          apply hmoved
          rw [hpc]
          split
          case isTrue hlt =>
              show 7 * (num_loops.toNat - (i + 1)) + 7 < 7 * (num_loops.toNat - i) + 1
              omega
          case isFalse => exact Nat.succ_pos _
      case h_3 i hpc => exact hwait (by rw [hpc]; exact Nat.lt_succ_self _) h
      case h_4 i hpc => exact hwait (by rw [hpc]; exact Nat.lt_succ_self _) h
      case h_5 i hpc =>
          cases h
          exact hmoved (by rw [hpc]; exact Nat.lt_succ_self _)
      case h_6 i hpc =>
          cases h
          exact hmoved (by rw [hpc]; exact Nat.lt_succ_self _)
      case h_7 i hpc =>
          cases h
          apply hmoved
          rw [hpc]
          show 7 * (num_loops.toNat - (i + 1)) + 1 < 7 * (num_loops.toNat - (i + 1)) + 3
          omega
      case h_8 => cases h
  | none =>
      have h : Dining.main s = some s' := h
      unfold ahead
      unfold Dining.main at h
      split at h
      case h_1 i hcreate =>
          rw [hcreate]
          split at h
          case isTrue hi =>
              cases h
              have htotal := total_update s.pc (Loc.ahead num_loops.toNat) ⟨i, hi⟩ (.test 0)
              have htest : Loc.ahead num_loops.toNat (.test 0) = 7 * num_loops.toNat + 1 := rfl
              have hmain : Main.ahead num_loops.toNat (.create i) =
                  Main.ahead num_loops.toNat (.create (i + 1)) + (7 * num_loops.toNat + 2) := by
                show (5 - i) * _ + 7 = (5 - (i + 1)) * _ + 7 + _
                rw [show 5 - i = 5 - (i + 1) + 1 by omega, Nat.succ_mul]
                omega
              rw [hmain]
              show total (Function.update s.pc ⟨i, hi⟩ (.test 0)) _ +
                Main.ahead num_loops.toNat (.create (i + 1)) < _
              omega
          case isFalse hi =>
              cases h
              apply Nat.add_lt_add_left
              show 5 - 0 + 1 < (5 - i) * _ + 7
              omega
      case h_2 i hjoin =>
          rw [hjoin]
          split at h
          case isTrue hi =>
              split at h
              · cases h
                apply Nat.add_lt_add_left
                show 5 - (i + 1) + 1 < 5 - i + 1
                omega
              · cases h
          case isFalse hi =>
              cases h
              exact Nat.add_lt_add_left (Nat.succ_pos _) _
      case h_3 => cases h

/-! ## Progress -/

/-- What a thread waits for: the number of a fork, above it whatever does not wait. -/
def waitsFor (order : Order) (s : State) : Option (Fin 5) → ℕ
  | none => match s.main with
      | .create _ => 7
      | _ => 0
  | some p => match s.pc p with
      | .waitFirst _ => (order p).1 + 1
      | .waitSecond _ => (order p).2 + 1
      | .unborn => 1
      | _ => 6

/-- Whoever holds the fork waits for a higher one, or for none. -/
theorem waitsFor_holder (hascends : ∀ p, (order p).1 < (order p).2)
    (hq : 0 < holds order fork (q, s.pc q)) :
    s.pc q ≠ .returned ∧ fork + 1 < waitsFor order s (some q) := by
  have hlt := fork.isLt
  cases hpc : s.pc q with
  | waitSecond i =>
      rw [hpc] at hq
      have hfork : fork = (order q).1 := by
        by_contra hne
        simp [holds, hne] at hq
      have := hascends q
      refine ⟨by simp, ?_⟩
      simp only [waitsFor, hpc, hfork]
      omega
  | eating i =>
      refine ⟨by simp, ?_⟩
      simp only [waitsFor, hpc]
      omega
  | postLeft i =>
      refine ⟨by simp, ?_⟩
      simp only [waitsFor, hpc]
      omega
  | postRight i =>
      refine ⟨by simp, ?_⟩
      simp only [waitsFor, hpc]
      omega
  | _ =>
      rw [hpc] at hq
      exact absurd hq (Nat.not_lt_zero _)

theorem waitsFor_pos (order : Order) (s : State) (p : Fin 5) : 0 < waitsFor order s (some p) := by
  simp only [waitsFor]
  split <;> omega

theorem wait_eq_none_iff : s.wait p fork loc = none ↔ s.forks fork = 0 := by
  unfold State.wait
  rw [Option.map_eq_none_iff, semWait_eq_none]

/-- The places at which a philosopher that has not returned may be unable to step. -/
theorem philosopher_eq_none_iff : philosopher order num_loops s p = none ↔
    s.pc p = .unborn ∨ s.pc p = .returned ∨ (∃ i, s.pc p = .waitFirst i) ∧
      s.forks (order p).1 = 0 ∨ (∃ i, s.pc p = .waitSecond i) ∧ s.forks (order p).2 = 0 := by
  unfold philosopher
  cases hpc : s.pc p <;> simp [wait_eq_none_iff]

theorem main_eq_none_iff : main s = none ↔ s.main = .finished ∨
    ∃ i, ∃ hi : i < 5, s.main = .join i ∧ s.pc ⟨i, hi⟩ ≠ .returned := by
  unfold main
  cases hmain : s.main with
  | create i => by_cases hi : i < 5 <;> simp [hi]
  | join i =>
      by_cases hi : i < 5
      · by_cases hpc : s.pc ⟨i, hi⟩ = .returned <;> simp [hi, hpc]
      · simp [hi]
  | finished => simp

theorem exists_step (hascends : ∀ p, (order p).1 < (order p).2)
    (num_loops : ℤ) (hs : Inv order s) (h : ∃ actor, Unfinished s actor) :
    ∃ actor s', step order num_loops s actor = some s' := by
  have hwaits : ∀ actor, Unfinished s actor → ¬ (∃ s', step order num_loops s actor = some s') →
      ∃ other, Unfinished s other ∧ waitsFor order s actor < waitsFor order s other := by
    intro actor hunfinished hblocked
    have hnone : step order num_loops s actor = none := by
      rw [Option.eq_none_iff_forall_ne_some]
      exact fun s' hs' => hblocked ⟨s', hs'⟩
    have hfork : ∀ {fork : Fin 5}, s.forks fork = 0 → waitsFor order s actor = fork + 1 →
        ∃ other, Unfinished s other ∧ waitsFor order s actor < waitsFor order s other := by
      intro fork hempty hrank
      rcases hs.forks.exists_holder hempty with ⟨q, hq⟩
      rcases waitsFor_holder hascends hq with ⟨hnot, hlt⟩
      exact ⟨some q, hnot, hrank ▸ hlt⟩
    have hmain := hs.main
    unfold MainOk at hmain
    cases actor with
    | some p =>
        rcases philosopher_eq_none_iff.mp hnone with hpc | hpc | ⟨⟨i, hpc⟩, hempty⟩ |
          ⟨⟨i, hpc⟩, hempty⟩
        · -- the main program has not created this one yet
          refine ⟨none, ?_, ?_⟩
          · intro hfinished
            rw [hfinished] at hmain
            exact hunfinished (hmain p)
          · split at hmain
            case h_1 i hcreate => simp [waitsFor, hpc, hcreate]
            case h_2 => exact absurd hpc (hmain.2.1 p)
            case h_3 => exact absurd (hmain p) hunfinished
        · exact absurd hpc hunfinished
        · exact hfork hempty (by simp [waitsFor, hpc])
        · exact hfork hempty (by simp [waitsFor, hpc])
    | none =>
        rcases main_eq_none_iff.mp hnone with hfinished | ⟨i, hi, hjoin, hpc⟩
        · exact absurd hfinished hunfinished
        · refine ⟨some ⟨i, hi⟩, hpc, ?_⟩
          have hrank : waitsFor order s none = 0 := by simp [waitsFor, hjoin]
          rw [hrank]
          exact waitsFor_pos order s ⟨i, hi⟩
  rcases exists_runnable (waitsFor order s) hwaits h with ⟨actor, -, s', hstep⟩
  exact ⟨actor, s', hstep⟩

/-- The program has ended with all forks on the table. -/
def Finished (s : State) : Prop :=
  (∀ actor, ¬ Unfinished s actor) ∧ ∀ fork, s.forks fork = 1

theorem Inv.finished (hs : Inv order s) (h : ∀ actor, ¬ Unfinished s actor) : Finished s := by
  refine ⟨h, fun fork => ?_⟩
  have hnone : total (places s) (holds order fork) = 0 := by
    apply total_eq_zero_iff.mpr
    intro p
    have hpc : s.pc p = .returned := not_not.mp (h (some p))
    show holds order fork (p, s.pc p) = 0
    rw [hpc]
    rfl
  have hone := hs.forks fork
  omega

theorem step_eq_none_of_finished (h : ∀ actor, ¬ Unfinished s actor) (actor : Option (Fin 5)) :
    step order num_loops s actor = none := by
  have hnot := h actor
  cases actor with
  | none => exact main_eq_none_iff.mpr (.inl (not_not.mp hnot))
  | some p => exact philosopher_eq_none_iff.mpr (.inr (.inl (not_not.mp hnot)))

/-- However the threads of `dining_philosophers_no_deadlock.c` are scheduled, the program takes a
bounded number of steps, and is only out of steps when everyone has returned. -/
theorem no_deadlock (num_loops : ℤ) (as : List (Option (Fin 5)))
    (hrun : run (step NoDeadlock.get_forks num_loops) initial as = some s) :
    as.length ≤ 35 * num_loops.toNat + 17 ∧
      ((∀ actor, step NoDeadlock.get_forks num_loops s actor = none) ↔ Finished s) := by
  have hascends : ∀ p, (NoDeadlock.get_forks p).1 < (NoDeadlock.get_forks p).2 := by decide
  have hs := inv_of_reach takes_noDeadlock (reach_of_run_anyStep as hrun)
  refine ⟨?_, fun hstuck => ?_, fun hfinished => step_eq_none_of_finished hfinished.1⟩
  · have hlength := length_add_measure_le (fun _ actor _ => step_ahead actor) as hrun
    have hinitial : ahead num_loops initial = 5 * (7 * num_loops.toNat + 2) + 7 := by
      have hnone : total initial.pc (Loc.ahead num_loops.toNat) = 0 :=
        total_eq_zero_iff.mpr fun p => rfl
      rw [ahead, hnone, Nat.zero_add]
      rfl
    omega
  · apply hs.finished
    intro actor hunfinished
    rcases exists_step hascends num_loops hs ⟨actor, hunfinished⟩ with ⟨other, s', hstep⟩
    rw [hstuck other] at hstep
    cases hstep

/-- The two eat and return, then the others do, and the main program joins them all. -/
def dinner : List (Option (Fin 5)) :=
  seated ++ [0, 2, 1, 3, 4].flatMap (fun p => List.replicate (if p = 0 ∨ p = 2 then 4 else 7)
    (some p)) ++ List.replicate 7 none

theorem no_deadlock_dinner :
    ∃ s, run (step NoDeadlock.get_forks 1) initial dinner = some s ∧ dinner.length ≤ 52 ∧
      Finished s ∧ ∀ actor, step NoDeadlock.get_forks 1 s actor = none := by
  have hends : (run (step NoDeadlock.get_forks 1) initial dinner).map
      (fun s => decide (s.main = .finished ∧ (∀ p, s.pc p = .returned) ∧
        ∀ fork, s.forks fork = 1)) = some true := by decide +kernel
  obtain ⟨s, hrun, hend⟩ := Option.map_eq_some_iff.mp hends
  obtain ⟨hmain, hreturned, hforks⟩ := of_decide_eq_true hend
  have hfinished : Finished s := by
    refine ⟨fun actor hunfinished => ?_, hforks⟩
    cases actor with
    | none => exact hunfinished hmain
    | some p => exact hunfinished (hreturned p)
  obtain ⟨hlength, hstops⟩ := no_deadlock 1 dinner hrun
  exact ⟨s, hrun, hlength, hfinished, hstops.mpr hfinished⟩

/-! ## Deadlock -/

/-- Someone is not finished, and nobody can step. -/
def Stuck (order : Order) (num_loops : ℤ) (s : State) : Prop :=
  (∃ actor, Unfinished s actor) ∧ ∀ actor, step order num_loops s actor = none

/-- Everyone waits for the fork at the right with the fork at the left in hand. -/
def Circle (s : State) : Prop := s.main = .join 0 ∧ ∀ p, ∃ i, s.pc p = .waitSecond i

theorem stuck_of_circle (hs : Inv Deadlock.get_forks s) (h : Circle s) :
    Stuck Deadlock.get_forks num_loops s := by
  have hempty : ∀ fork, s.forks fork = 0 := by
    intro fork
    rcases h.2 fork with ⟨i, hpc⟩
    have hheld : 0 < holds Deadlock.get_forks fork (fork, s.pc fork) := by
      rw [hpc]
      simp [holds, Deadlock.get_forks, left]
    have hle := le_total (places s) (holds Deadlock.get_forks fork) fork
    have hone := hs.forks fork
    have hplace : places s fork = (fork, s.pc fork) := rfl
    rw [hplace] at hle
    omega
  refine ⟨⟨none, by simp [Unfinished, h.1]⟩, fun actor => ?_⟩
  cases actor with
  | none =>
      rcases h.2 0 with ⟨i, hpc⟩
      refine main_eq_none_iff.mpr (.inr ⟨0, by decide, h.1, ?_⟩)
      show s.pc 0 ≠ _
      simp [hpc]
  | some p =>
      exact philosopher_eq_none_iff.mpr (.inr (.inr (.inr ⟨h.2 p, hempty _⟩)))

/-- A fork that a stuck philosopher lacks is in the left hand of a waiting one. -/
theorem Stuck.holder (hs : Inv Deadlock.get_forks s) (h : Stuck Deadlock.get_forks num_loops s)
    (hempty : s.forks fork = 0) : ∃ i, s.pc fork = .waitSecond i := by
  rcases hs.forks.exists_holder hempty with ⟨q, hq⟩
  have hblocked := philosopher_eq_none_iff.mp (h.2 (some q))
  rcases hblocked with hpc | hpc | ⟨⟨i, hpc⟩, -⟩ | ⟨⟨i, hpc⟩, -⟩
  · rw [hpc] at hq
    exact absurd hq (Nat.not_lt_zero _)
  · rw [hpc] at hq
    exact absurd hq (Nat.not_lt_zero _)
  · rw [hpc] at hq
    exact absurd hq (Nat.not_lt_zero _)
  · have hfork : fork = q := by
      by_contra hne
      rw [hpc] at hq
      simp [holds, Deadlock.get_forks, left, hne] at hq
    exact ⟨i, hfork ▸ hpc⟩

theorem Stuck.circle (hs : Inv Deadlock.get_forks s) (h : Stuck Deadlock.get_forks num_loops s) :
    Circle s := by
  have hmain := hs.main
  unfold MainOk at hmain
  -- from one philosopher that waits for the fork at its right to the next
  have hnext : ∀ p, (∃ i, s.pc p = .waitSecond i) → ∃ i, s.pc (right p) = .waitSecond i := by
    rintro p ⟨i, hpc⟩
    rcases philosopher_eq_none_iff.mp (h.2 (some p)) with hpc' | hpc' | ⟨⟨j, hpc'⟩, -⟩ |
      ⟨-, hempty⟩
    · simp [hpc] at hpc'
    · simp [hpc] at hpc'
    · simp [hpc] at hpc'
    · exact h.holder hs hempty
  have hall : ∀ {p}, s.pc p ≠ .unborn → s.pc p ≠ .returned →
      ∀ q, ∃ i, s.pc q = .waitSecond i := by
    intro p hborn hnot
    have hone : ∃ q, ∃ i, s.pc q = .waitSecond i := by
      rcases philosopher_eq_none_iff.mp (h.2 (some p)) with hpc | hpc | ⟨-, hempty⟩ | ⟨hpc, -⟩
      · exact absurd hpc hborn
      · exact absurd hpc hnot
      · exact ⟨_, h.holder hs hempty⟩
      · exact ⟨p, hpc⟩
    rcases hone with ⟨q, hq⟩
    have h₁ := hnext _ hq
    have h₂ := hnext _ h₁
    have h₃ := hnext _ h₂
    have h₄ := hnext _ h₃
    have hround : ∀ q p : Fin 5, p = q ∨ p = right q ∨ p = right (right q) ∨
        p = right (right (right q)) ∨ p = right (right (right (right q))) := by decide
    intro p
    rcases hround q p with rfl | rfl | rfl | rfl | rfl <;> assumption
  rcases main_eq_none_iff.mp (h.2 none) with hfinished | ⟨i, hi, hjoin, hpc⟩
  · rw [hfinished] at hmain
    rcases h.1 with ⟨actor, hunfinished⟩
    cases actor with
    | none => exact absurd hfinished hunfinished
    | some p => exact absurd (hmain p) hunfinished
  · rw [hjoin] at hmain
    have hwait := hall (hmain.2.1 ⟨i, hi⟩) hpc
    refine ⟨?_, hwait⟩
    -- nobody has returned, so that the first one is joined still
    cases i with
    | zero => exact hjoin
    | succ i =>
        rcases hwait 0 with ⟨j, hj⟩
        have hreturned := hmain.2.2 0 (Nat.succ_pos i)
        rw [hj] at hreturned
        cases hreturned

/-- The first `k` philosophers have been created. -/
def born (k : ℕ) : State := ⟨fun _ => 1, fun p => if p < k then .test 0 else .unborn, .create k⟩

/-- The first `k` philosophers have taken their left forks. -/
def reaching (k : ℕ) : State :=
  ⟨fun fork => if fork < k then 0 else 1, fun p => if p < k then .waitSecond 0 else .test 0,
    .join 0⟩

theorem reach_born (order : Order) (num_loops : ℤ) {k : ℕ} (hk : k ≤ 5) :
    Reach (step order num_loops) anyStep initial (born k) := by
  induction k with
  | zero => exact .refl
  | succ k ih =>
      apply (ih (Nat.le_of_succ_le hk)).tail none trivial
      show main (born k) = _
      rw [main, born]
      simp only [dif_pos (Nat.lt_of_succ_le hk)]
      simp only [born, State.goto, Option.some.injEq, State.mk.injEq, true_and, and_true]
      funext p
      rw [Function.update_apply]
      by_cases hp : p = ⟨k, hk⟩
      · simp [hp]
      · have hne : (p : ℕ) ≠ k := fun heq => hp (Fin.ext heq)
        rw [if_neg hp]
        simp only [show ((p : ℕ) < k + 1) = (p < k) by
          apply propext
          omega]

theorem reach_reaching (hloops : 0 < num_loops) {k : ℕ} (hk : k ≤ 5) :
    Reach (step Deadlock.get_forks num_loops) anyStep initial (reaching k) := by
  induction k with
  | zero =>
      apply (reach_born _ _ (Nat.le_refl 5)).tail none trivial
      show main (born 5) = _
      rw [main, born]
      simp only [dif_neg (Nat.lt_irrefl 5)]
      simp [reaching]
  | succ k ih =>
      have htest : step Deadlock.get_forks num_loops (reaching k) (some ⟨k, hk⟩) =
          some ((reaching k).goto ⟨k, hk⟩ (.waitFirst 0)) := by
        simp [step, philosopher, reaching, hloops]
      have hleft : step Deadlock.get_forks num_loops
          ((reaching k).goto ⟨k, hk⟩ (.waitFirst 0)) (some ⟨k, hk⟩) =
          some (reaching (k + 1)) := by
        simp only [step, philosopher, State.goto, Function.update_self, State.wait, reaching,
          Deadlock.get_forks, left, if_neg (Nat.lt_irrefl k), semWait, Option.map_some,
          Option.some.injEq, State.mk.injEq, Function.update_idem, and_true]
        have hlt : ∀ p : Fin 5, p ≠ ⟨k, hk⟩ → ((p : ℕ) < k ↔ (p : ℕ) < k + 1) := by
          intro p hp
          have hne : (p : ℕ) ≠ k := fun heq => hp (Fin.ext heq)
          omega
        constructor
        · funext fork
          rw [Function.update_apply]
          by_cases hfork : fork = ⟨k, hk⟩
          · simp [hfork]
          · rw [if_neg hfork]
            simp only [hlt fork hfork]
        · funext p
          rw [Function.update_apply]
          by_cases hp : p = ⟨k, hk⟩
          · simp [hp]
          · rw [if_neg hp]
            simp only [hlt p hp]
      exact ((ih (Nat.le_of_succ_le hk)).tail (some ⟨k, hk⟩) trivial htest).tail (some ⟨k, hk⟩)
        trivial hleft

theorem circle_reaching : Circle (reaching 5) :=
  ⟨rfl, fun p => ⟨0, if_pos p.isLt⟩⟩

/-- Without rounds nobody ever holds a fork. -/
theorem idle_of_reach (hloops : ¬ 0 < num_loops)
    (h : Reach (step order num_loops) anyStep initial s) (p : Fin 5) :
    s.pc p = .unborn ∨ s.pc p = .test 0 ∨ s.pc p = .returned := by
  refine h.invariant (I := fun s => ∀ p, s.pc p = .unborn ∨ s.pc p = .test 0 ∨
    s.pc p = .returned) (fun p => .inl rfl) ?_ p
  intro s actor s' hs _ hstep p
  have hgoto : ∀ {q loc}, loc = .test 0 ∨ loc = .returned →
      Function.update s.pc q loc p = .unborn ∨ Function.update s.pc q loc p = .test 0 ∨
        Function.update s.pc q loc p = .returned := by
    intro q loc hloc
    by_cases hp : p = q
    · subst hp
      rw [Function.update_self]
      exact .inr hloc
    · rw [Function.update_of_ne hp]
      exact hs p
  cases actor with
  | some q =>
      have hstep : philosopher order num_loops s q = some s' := hstep
      rcases hs q with hpc | hpc | hpc
      · simp [philosopher, hpc] at hstep
      · simp only [philosopher, hpc, Nat.cast_zero, if_neg hloops, Option.some.injEq] at hstep
        subst hstep
        exact hgoto (.inr rfl)
      · simp [philosopher, hpc] at hstep
  | none =>
      have hstep : main s = some s' := hstep
      unfold main at hstep
      split at hstep
      · split at hstep
        · cases hstep
          exact hgoto (.inl rfl)
        · cases hstep
          exact hs p
      · split at hstep
        · split at hstep
          · cases hstep
            exact hs p
          · cases hstep
        · cases hstep
          exact hs p
      · cases hstep

/-- `dining_philosophers_deadlock.c` gets stuck exactly when everyone holds the left fork, which
some schedule brings about unless there are no rounds at all. -/
theorem deadlock_iff_circle (num_loops : ℤ) :
    (∀ s, Reach (step Deadlock.get_forks num_loops) anyStep initial s →
      (Stuck Deadlock.get_forks num_loops s ↔ Circle s)) ∧
    ((∃ s, Reach (step Deadlock.get_forks num_loops) anyStep initial s ∧
      Stuck Deadlock.get_forks num_loops s) ↔ 0 < num_loops) := by
  have hiff : ∀ s, Reach (step Deadlock.get_forks num_loops) anyStep initial s →
      (Stuck Deadlock.get_forks num_loops s ↔ Circle s) := by
    intro s h
    have hs := inv_of_reach takes_deadlock h
    exact ⟨fun hstuck => hstuck.circle hs, stuck_of_circle hs⟩
  refine ⟨hiff, fun hexists => ?_, fun hloops => ?_⟩
  · rcases hexists with ⟨s, h, hstuck⟩
    by_contra hloops
    rcases ((hiff s h).mp hstuck).2 0 with ⟨i, hpc⟩
    rcases idle_of_reach hloops h 0 with hpc' | hpc' | hpc'
    · simp [hpc] at hpc'
    · simp [hpc] at hpc'
    · simp [hpc] at hpc'
  · have h := reach_reaching hloops (Nat.le_refl 5)
    exact ⟨reaching 5, h, (hiff _ h).mpr circle_reaching⟩

end OsLabs.Concurrent.Dining
