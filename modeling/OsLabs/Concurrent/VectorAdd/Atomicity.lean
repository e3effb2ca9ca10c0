import OsLabs.Concurrent.VectorAdd.GlobalOrder
import OsLabs.Concurrent.VectorAdd.AvoidHoldAndWait

/-!
# Vector addition without deadlock

Both ways to lock the two vectors make the calls atomic and leave no run stuck.
-/

namespace OsLabs.Concurrent.VectorAdd

open OsLabs.Transition

variable {ι : Type*} [DecidableEq ι] [Fintype ι]

/-- Any number of threads and any calls; without the global order, each with two
different vectors. -/
theorem vector_add_atomic (v : Vectors) (programs : ι → List Call) :
    (∀ s, Reach GlobalOrder.step anyStep (GlobalOrder.initial v programs) s →
      Atomic GlobalOrder.step GlobalOrder.Finished v programs s) ∧
    ((∀ t, ∀ call ∈ programs t, call.dst ≠ call.src) →
      ∀ s, Reach AvoidHoldAndWait.step anyStep (AvoidHoldAndWait.initial v programs) s →
        Atomic AvoidHoldAndWait.step AvoidHoldAndWait.Finished v programs s) :=
  ⟨fun _ h => GlobalOrder.atomic_of_reach h,
    fun hprograms _ h => AvoidHoldAndWait.atomic_of_reach hprograms h⟩

def crosswise : Fin 2 → List Call
  | 0 => [⟨0, 1⟩]
  | 1 => [⟨1, 0⟩]

/-- `vector_init` -/
def initialVectors : Vectors := fun x _ => BitVec.ofNat 32 x

/-- Each thread makes a step, and the first locks a mutex that the second waits for. -/
def lockInTurn : List (Fin 2) := [false, true, false].map finTwoEquiv.symm

theorem vector_add_atomic_lockInTurn :
    (∃ s, run GlobalOrder.step (GlobalOrder.initial initialVectors crosswise) lockInTurn = some s ∧
      s.pc 1 = .lockFirst ⟨1, 0⟩ ∧
      ∃ t, ¬ GlobalOrder.Finished s t ∧ ∃ s', GlobalOrder.step s t = some s') ∧
    (∃ s, run AvoidHoldAndWait.step (AvoidHoldAndWait.initial initialVectors crosswise)
        lockInTurn = some s ∧ s.pc 1 = .lockGlobal ⟨1, 0⟩ ∧
      ∃ t, ¬ AvoidHoldAndWait.Finished s t ∧ ∃ s', AvoidHoldAndWait.step s t = some s') := by
  constructor
  · have hrun : ((run GlobalOrder.step (GlobalOrder.initial initialVectors crosswise)
        lockInTurn).map fun s => s.pc 1) = some (.lockFirst ⟨1, 0⟩) := by decide +kernel
    obtain ⟨s, hs, hpc⟩ := Option.map_eq_some_iff.mp hrun
    have hunfinished : ¬ GlobalOrder.Finished s 1 := fun hfin => by
      rw [GlobalOrder.Finished, hpc] at hfin
      exact absurd hfin.1 (by simp)
    exact ⟨s, hs, hpc, ((vector_add_atomic initialVectors crosswise).1 s
      (reach_of_run_anyStep lockInTurn hs)).1 ⟨1, hunfinished⟩⟩
  · have hrun : ((run AvoidHoldAndWait.step (AvoidHoldAndWait.initial initialVectors crosswise)
        lockInTurn).map fun s => s.pc 1) = some (.lockGlobal ⟨1, 0⟩) := by decide +kernel
    obtain ⟨s, hs, hpc⟩ := Option.map_eq_some_iff.mp hrun
    have hunfinished : ¬ AvoidHoldAndWait.Finished s 1 := fun hfin => by
      rw [AvoidHoldAndWait.Finished, hpc] at hfin
      exact absurd hfin.1 (by simp)
    exact ⟨s, hs, hpc, ((vector_add_atomic initialVectors crosswise).2 (by decide) s
      (reach_of_run_anyStep lockInTurn hs)).1 ⟨1, hunfinished⟩⟩

end OsLabs.Concurrent.VectorAdd
