import Mathlib
import OsLabs.Mlfq.Shares

/-!
# The stay flag

With the stay flag the job that issues an I/O gets the full share of its
level. The end of the quantum is tested on a copy of `ticksLeft` made before
that, so an I/O at the last tick of a quantum still costs a part of the
allotment, or the level.
-/

namespace OsLabs.Mlfq

open OsLabs.Transition

variable {c : Config} {jobs : List JobSpec} {s s' : State} {level : ℕ → ℕ} {jb : Job} {j : ℕ}

/-- Job `j` issues an I/O in the iteration from `s` to `s'`. -/
def IssuesIo (c : Config) (s s' : State) (j : ℕ) : Prop :=
  ((schedulingPoint c s).job j).doingIo = false ∧ (s'.job j).doingIo = true

instance (c : Config) (s s' : State) (j : ℕ) : Decidable (IssuesIo c s s' j) :=
  inferInstanceAs (Decidable (_ ∧ _))

/-- The level at which a job has issued its I/O, or to which a boost has taken
it since. -/
def noteLevel (c : Config) (s s' : State) (level : ℕ → ℕ) (j : ℕ) : ℕ :=
  if IssuesIo c s s' j then ((schedulingPoint c s).job j).currPri
  else if Boosts c s then c.hiQueue
  else level j

/-- The tick does not end the quantum, or nothing is lost by its end. -/
def Job.Spared (c : Config) (jb : Job) : Prop :=
  jb.ticksLeft ≠ 1 ∨ jb.currPri = 0 ∧ c.allotment 0 = 1

instance (c : Config) (jb : Job) : Decidable (jb.Spared c) :=
  inferInstanceAs (Decidable (_ ∨ _))

/-- If the next job to run issues an I/O, its tick is not the last of a quantum. -/
def Spares (c : Config) (s : State) (_ : Unit) : Prop :=
  s.finishedJobs < s.numJobs ∧ ∀ q ∈ findQueue c (schedulingPoint c s),
    ∀ j ∈ ((schedulingPoint c s).queue q).head?,
      ((schedulingPoint c s).job j).Issues → ((schedulingPoint c s).job j).Spared c

instance (c : Config) (s : State) (u : Unit) : Decidable (Spares c s u) :=
  inferInstanceAs (Decidable (_ ∧ ∀ _ ∈ findQueue c (schedulingPoint c s), _))

/-- A job that issues an I/O gets the full share of its level exactly when its
tick is not the last of a quantum that costs something. -/
theorem ran_share_iff (hstay : c.stay = true) (time : ℕ) (hissues : jb.Issues) :
    (ran c jb.currPri time jb).share = c.fullShare jb.currPri ↔ jb.Spared c := by
  have hshare : (issued c jb.currPri (charged time jb)).share = c.fullShare jb.currPri := by
    rw [issued, hstay]
    rfl
  obtain ⟨hlevel, -, hallot⟩ := Share.mk.inj hshare
  rw [ran, if_neg hissues.1, if_pos hissues, Job.Spared]
  by_cases hlast : jb.ticksLeft = 1
  · rw [if_pos hlast]
    simp only [hlast, ne_eq, not_true_eq_false, false_or]
    set after := issued c jb.currPri (charged time jb)
    rw [ended, hallot]
    constructor
    · intro hfull
      split_ifs at hfull with hone hpos
      · have hsame : jb.currPri - 1 = jb.currPri := congrArg Share.level hfull
        omega
      · have hzero : jb.currPri = 0 := by omega
        exact ⟨hzero, by rw [hzero] at hone; omega⟩
      · have hsame : c.allotment jb.currPri - 1 = c.allotment jb.currPri :=
          congrArg Share.allot hfull
        omega
    · rintro ⟨hzero, hone⟩
      rw [hzero, if_pos (by rw [hone, sub_self]), if_neg (lt_irrefl 0)]
      rw [hzero] at hlevel
      exact congrArg (fun q : ℕ => Share.mk q (c.quantum 0) (c.allotment 0)) hlevel
  · rw [if_neg hlast]
    exact iff_of_true hshare (Or.inl hlast)

/-! ## Jobs that do I/O -/

theorem eventDone_doingIo {event : ℕ × EventType}
    (h : ((eventDone c s event).job j).doingIo = true) : (s.job j).doingIo = true := by
  rcases eq_or_ne j event.1 with rfl | hne
  · have hdone : ((eventDone c s event).job event.1).doingIo = false :=
      congrArg Job.doingIo (setJob_self ..)
    rw [hdone] at h
    cases h
  · have hsame : (eventDone c s event).job j = s.job j := setJob_of_ne _ hne
    rwa [hsame] at h

/-- Before the tick no job begins an I/O. -/
theorem schedulingPoint_doingIo (h : ((schedulingPoint c s).job j).doingIo = true) :
    (s.job j).doingIo = true := by
  have hboost : ((checkBoost c s).job j).doingIo = (s.job j).doingIo := by
    rw [checkBoost_eq_if]
    split
    · simp only [boostedState]
      split
      · exact boosted_doingIo c (s.job j)
      · rfl
    · rfl
  rw [← hboost]
  rw [schedulingPoint, checkIoDone] at h
  generalize (checkBoost c s).ioDone (checkBoost c s).currTime = events at h
  generalize checkBoost c s = t at h ⊢
  induction events generalizing t with
  | nil => exact h
  | cons event events ih => exact eventDone_doingIo (ih _ h)

theorem timeLeft_of_doingIo (h : Placed c jobs s) (hj : j < s.numJobs)
    (hio : (s.job j).doingIo = true) : 0 < (s.job j).timeLeft := by
  obtain ⟨due, h⟩ := h
  cases hdue : due j with
  | none => simp [h.notDoingIo j hj hdue] at hio
  | some t => exact (h.isDue j t hdue).1

/-- The job that issues an I/O is the one that runs. -/
theorem IssuesIo.chosen (h : IssuesIo c s s' j) (hstep : iteration c s = some s') :
    ∃ rest, findQueue c (schedulingPoint c s) = some ((schedulingPoint c s).job j).currPri ∧
      (schedulingPoint c s).queue ((schedulingPoint c s).job j).currPri = j :: rest ∧
      ((schedulingPoint c s).job j).Issues ∧
      s'.job j = ran c ((schedulingPoint c s).job j).currPri s.currTime
        ((schedulingPoint c s).job j) := by
  obtain ⟨hbefore, hafter⟩ := h
  rcases iteration_job hstep with ⟨-, hjob, -⟩ | ⟨q, k, rest, hfind, hqueue, rfl, hjob, -⟩
  · rw [hjob, hbefore] at hafter
    cases hafter
  · rcases eq_or_ne j k with rfl | hne
    · have hran : s'.job j = ran c ((schedulingPoint c s).job j).currPri s.currTime
          ((schedulingPoint c s).job j) := by rw [hjob, Function.update_self]
      rw [hran, ran_doingIo, hbefore, Bool.or_false, decide_eq_true_eq] at hafter
      exact ⟨rest, hfind, hqueue, hafter, hran⟩
    · rw [hjob, Function.update_of_ne hne, hbefore] at hafter
      cases hafter

/-- The jobs that do I/O have the full share of the level noted for them. -/
def AllFull (c : Config) (s : State) (level : ℕ → ℕ) : Prop :=
  ∀ j < s.numJobs, (s.job j).doingIo = true → (s.job j).share = c.fullShare (level j)

theorem AllFull.atPoint (h : AllFull c s level) (hplaced : Placed c jobs s) (hj : j < s.numJobs)
    (hio : (s.job j).doingIo = true) : ((schedulingPoint c s).job j).share =
      c.fullShare (if Boosts c s then c.hiQueue else level j) := by
  rw [schedulingPoint_share hj (timeLeft_of_doingIo hplaced hj hio), h j hj hio]
  split <;> rfl

theorem AllFull.next (h : AllFull c s level) (hplaced : Placed c jobs s) (hstay : c.stay = true)
    (hspares : Spares c s ()) (hstep : iteration c s = some s') :
    AllFull c s' (noteLevel c s s' level) := by
  intro j hj hio
  by_cases hissues : IssuesIo c s s' j
  · obtain ⟨rest, hfind, hqueue, htick, hran⟩ := hissues.chosen hstep
    rw [noteLevel, if_pos hissues, hran]
    exact (ran_share_iff hstay s.currTime htick).mpr
      (hspares.2 _ hfind j (by rw [hqueue]; exact rfl) htick)
  · -- the job did I/O before, and is not the one that runs
    rw [noteLevel, if_neg hissues]
    have hbefore : ((schedulingPoint c s).job j).doingIo = true := by
      by_contra hno
      exact hissues ⟨Bool.eq_false_of_not_eq_true hno, hio⟩
    have hsame : s'.job j = (schedulingPoint c s).job j ∧ s'.numJobs = s.numJobs := by
      rcases iteration_job hstep with
        ⟨-, hjob, -, hnum⟩ | ⟨q, k, rest, -, hqueue, -, hjob, -, hnum⟩
      · exact ⟨by rw [hjob], hnum⟩
      · have hne : j ≠ k := by
          rintro rfl
          obtain ⟨due, hqueued⟩ := hplaced
          have hp := hqueued.schedulingPoint
          have hw := (hp.head hqueue).1
          rw [hp.notDoingIo j hw.1 hw.2.2] at hbefore
          cases hbefore
        exact ⟨by rw [hjob, Function.update_of_ne hne], hnum⟩
    rw [hsame.1]
    exact h.atPoint hplaced (hsame.2 ▸ hj) (schedulingPoint_doingIo hbefore)

theorem allFull_load : AllFull c (load c jobs) fun _ => c.hiQueue := by
  intro j hj hio
  have hloaded := loaded c jobs
  rw [hloaded.job j (hloaded.numJobs ▸ hj)] at hio
  cases hio

/-- As long as no I/O falls on a last tick that costs something, every job
that does I/O keeps its level, unless a boost takes it to the highest, and
resumes with the full share; and at such a tick this fails. -/
theorem stay_full_iff (hstay : c.stay = true) :
    (∀ s level, ReachNoted (step c) (Spares c) (noteLevel c) (load c jobs) (fun _ => c.hiQueue)
        s level → ∀ j < jobs.length, (s.job j).doingIo = true →
      (s.job j).share = c.fullShare (level j) ∧
        ((schedulingPoint c s).job j).share =
          c.fullShare (if Boosts c s then c.hiQueue else level j)) ∧
    ∀ s s' j, Reach (step c) unfinished (load c jobs) s → step c s () = some s' →
      IssuesIo c s s' j →
        ((s'.job j).share = c.fullShare ((schedulingPoint c s).job j).currPri ↔
          ((schedulingPoint c s).job j).Spared c) := by
  constructor
  · intro s level h j hj hio
    have hplaced {s : State} (h : Reach (step c) (Spares c) (load c jobs) s) : Placed c jobs s :=
      reach_placed (h.mono fun _ _ hspares => hspares.1)
    obtain ⟨hreach, hfull⟩ := h.invariant allFull_load fun s _ _ _ hprior hs hspares hstep =>
      hs.next (hplaced hprior) hstay hspares hstep
    have hnum : s.numJobs = jobs.length := by
      obtain ⟨due, hqueued⟩ := hplaced hreach
      exact hqueued.numJobs
    exact ⟨hfull j (hnum ▸ hj) hio, hfull.atPoint (hplaced hreach) (hnum ▸ hj) hio⟩
  · intro s s' j _ hstep hio
    obtain ⟨rest, -, -, hissues, hran⟩ := hio.chosen hstep
    rw [hran]
    exact ran_share_iff hstay s.currTime hissues

/-- Two levels with quanta of two ticks, and the flag. -/
def staying : Config where
  numQueues := 2
  quantum := fun _ => 2
  allotment := fun _ => 1
  boost := 0
  ioTime := 5
  stay := true
  iobump := false
  numQueues_pos := Nat.two_pos

/-- A job of four ticks that issues an I/O after every other tick. -/
def everyOther : JobSpec := ⟨0, 4, 2, by decide⟩

/-- The I/O at the second tick, the last of the quantum, costs the job its level. -/
theorem stay_loses_level : ∃ s s', Reach (step staying) unfinished (load staying [everyOther]) s ∧
    step staying s () = some s' ∧ IssuesIo staying s s' 0 ∧
      (s'.job 0).currPri ≠ ((schedulingPoint staying s).job 0).currPri := by
  have hreach := @reach_of_run _ _ (step staying) unfinished (load staying [everyOther])
    [()] _ (runMeets_of_check (by decide)) rfl
  exact ⟨_, _, hreach, rfl, by decide, by decide⟩

/-- An I/O at the first tick of a quantum costs nothing. -/
theorem stay_full_after_first_tick : ∃ s level, ReachNoted (step staying) (Spares staying)
    (noteLevel staying) (load staying [⟨0, 4, 1, by decide⟩]) (fun _ => staying.hiQueue) s level ∧
      (s.job 0).doingIo = true ∧ (s.job 0).share = staying.fullShare (level 0) := by
  have hreach := @reach_of_run _ _ (noted (step staying) (noteLevel staying))
    (fun p => Spares staying p.1) (load staying [⟨0, 4, 1, by decide⟩], fun _ => staying.hiQueue)
    [()] _ (runMeets_of_check (by decide)) rfl
  exact ⟨_, _, hreach, by decide, ((stay_full_iff rfl).1 _ _ hreach 0 (by decide) (by decide)).1⟩

end OsLabs.Mlfq
