import Mathlib
import OsLabs.Mlfq.Shares

/-!
# Accounting for the ticks at a level

A ledger beside the run counts the ticks a job has consumed since it arrived
at its level. Without the stay flag the ticks in the ledger and those the two
countdowns still allow add up to the share of the level, whatever I/Os and
preemptions come in between.
-/

namespace OsLabs.Mlfq

open OsLabs.Transition

variable {c : Config} {jobs : List JobSpec} {s s' : State} {used : ℕ → ℕ} {share : Share}
  {jb : Job} {n q j : ℕ}

/-! ## The ledger -/

/-- The ticks of job `j` at its level after an iteration from `s` to `s'`,
before it is seen whether the job changes its level; a boost starts anew. -/
def consumed (c : Config) (s s' : State) (used : ℕ → ℕ) (j : ℕ) : ℕ :=
  (if Boosts c s then 0 else used j) + (s'.ticks j - s.ticks j)

/-- A job that arrives at another level has consumed nothing there. -/
def enter (c : Config) (s s' : State) (used : ℕ → ℕ) (j : ℕ) : ℕ :=
  if (s'.job j).currPri = ((schedulingPoint c s).job j).currPri then consumed c s s' used j else 0

/-- The states of the runs from the job list on, with the ledger kept beside them. -/
def ReachLedger (c : Config) (jobs : List JobSpec) (s : State) (used : ℕ → ℕ) : Prop :=
  ReachNoted (step c) unfinished (enter c) (load c jobs) (fun _ => 0) s used

/-! ## The balance -/

/-- Every level has at least one tick in a quantum and one quantum in its allotment. -/
structure Config.Positive (c : Config) : Prop where
  quantum : ∀ q < c.numQueues, 1 ≤ c.quantum q
  allotment : ∀ q < c.numQueues, 1 ≤ c.allotment q

/-- The ticks the countdowns still allow at the level. -/
def Share.remaining (c : Config) (share : Share) : ℤ :=
  (share.allot - 1) * c.quantum share.level + share.ticks

/-- What is consumed and what remains make up the share of the level. -/
structure Balanced (c : Config) (share : Share) (used : ℕ) : Prop where
  level : share.level < c.numQueues
  ticks : 1 ≤ share.ticks
  allot : 1 ≤ share.allot
  total : used + share.remaining c = c.quantum share.level * c.allotment share.level

theorem balanced_fullShare (hc : c.Positive) (hq : q < c.numQueues) :
    Balanced c (c.fullShare q) 0 where
  level := hq
  ticks := hc.quantum q hq
  allot := hc.allotment q hq
  total := by
    simp only [Share.remaining, Config.fullShare]
    push_cast
    ring

theorem Balanced.remaining_pos (h : Balanced c share n) (hc : c.Positive) :
    1 ≤ share.remaining c := by
  have hquantum := hc.quantum share.level h.level
  have hallot := h.allot
  have hticks := h.ticks
  have hprod : 0 ≤ (share.allot - 1) * c.quantum share.level :=
    mul_nonneg (by omega) (by omega)
  rw [Share.remaining]
  omega

/-- A balanced job has not used up its share. -/
theorem Balanced.ne_total (h : Balanced c share n) (hc : c.Positive) :
    (n : ℤ) ≠ c.quantum share.level * c.allotment share.level := by
  have hpos := h.remaining_pos hc
  have htotal := h.total
  omega

/-- What a tick makes of the share of a job that has time left afterwards. -/
def Share.tick (c : Config) (share : Share) : Share :=
  if share.ticks = 1 then
    if share.allot = 1 then c.fullShare (share.level - 1)
    else ⟨share.level, c.quantum share.level, share.allot - 1⟩
  else ⟨share.level, share.ticks - 1, share.allot⟩

theorem issued_share (hstay : c.stay = false) (q : ℕ) (jb : Job) :
    (issued c q jb).share = jb.share := by
  rw [issued, hstay]
  rfl

theorem ended_share (c : Config) (jb : Job) : (ended c jb.currPri jb).share =
    if jb.allotLeft = 1 then c.fullShare (jb.currPri - 1)
    else ⟨jb.currPri, c.quantum jb.currPri, jb.allotLeft - 1⟩ := by
  rw [ended]
  simp only [sub_eq_zero]
  split_ifs with hallot hlevel
  · rfl
  · have hzero : jb.currPri = 0 := by omega
    simp only [Job.share, Config.fullShare, hzero]
  · rfl

/-- Without the stay flag the I/Os of a job do not matter for its share. -/
theorem ran_share (hstay : c.stay = false) (time : ℕ) (hleft : jb.timeLeft ≠ 1) :
    (ran c jb.currPri time jb).share = jb.share.tick c := by
  set after := if jb.Issues then issued c jb.currPri (charged time jb) else charged time jb
    with hafter
  have hshare : after.share = ⟨jb.currPri, jb.ticksLeft - 1, jb.allotLeft⟩ := by
    rw [hafter]
    split
    · exact issued_share hstay ..
    · rfl
  obtain ⟨hlevel, -, hallot⟩ := Share.mk.inj hshare
  rw [ran, if_neg hleft, ← hafter, Share.tick]
  split
  · next hticks =>
      rw [if_pos (show jb.share.ticks = 1 from hticks), ← hlevel, ended_share, hallot, hlevel]
      rfl
  · next hticks => rw [if_neg (show jb.share.ticks ≠ 1 from hticks), hshare]; rfl

/-- A tick takes a job down a level exactly when it uses up the share of its
level; elsewhere the balance is kept. -/
theorem Balanced.tick (h : Balanced c share n) (hc : c.Positive) (hlevel : 0 < share.level) :
    (share.tick c).level =
        (if ((n + 1 : ℕ) : ℤ) = c.quantum share.level * c.allotment share.level
          then share.level - 1 else share.level) ∧
      Balanced c (share.tick c)
        (if (share.tick c).level = share.level then n + 1 else 0) := by
  obtain ⟨hlt, hticks, hallot, htotal⟩ := h
  have hquantum := hc.quantum share.level hlt
  rw [Share.remaining] at htotal
  push_cast
  rw [Share.tick]
  split
  · next hlast =>
      split
      · next hused =>
          -- the last tick of the last quantum
          have hall : (n : ℤ) + 1 = c.quantum share.level * c.allotment share.level := by
            rw [hlast, hused, sub_self, zero_mul, zero_add] at htotal
            exact htotal
          have hne : (c.fullShare (share.level - 1)).level ≠ share.level :=
            (Nat.sub_lt hlevel Nat.one_pos).ne
          rw [if_pos hall, if_neg hne]
          exact ⟨rfl, balanced_fullShare hc (by omega)⟩
      · next hmore =>
          have hrest : 0 < (share.allot - 1) * c.quantum share.level :=
            mul_pos (by omega) (by omega)
          rw [if_neg (by omega), if_pos rfl]
          refine ⟨rfl, hlt, hquantum, show 1 ≤ share.allot - 1 by omega, ?_⟩
          rw [Share.remaining]
          push_cast
          linarith
  · next hmore =>
      have hrest : 0 ≤ (share.allot - 1) * c.quantum share.level :=
        mul_nonneg (by omega) (by omega)
      rw [if_neg (by omega), if_pos rfl]
      refine ⟨rfl, hlt, show 1 ≤ share.ticks - 1 by omega, hallot, ?_⟩
      rw [Share.remaining]
      push_cast
      linarith

/-! ## The runs -/

/-- Above the lowest level every job with time left is balanced. -/
def AllBalanced (c : Config) (s : State) (used : ℕ → ℕ) : Prop :=
  ∀ j < s.numJobs, 0 < (s.job j).timeLeft → 0 < (s.job j).currPri →
    Balanced c (s.job j).share (used j)

/-- A tick never takes a job up. -/
theorem currPri_le (hstay : c.stay = false) (hstep : iteration c s = some s')
    (hleft : 0 < (s'.job j).timeLeft) :
    (s'.job j).currPri ≤ ((schedulingPoint c s).job j).currPri := by
  rcases iteration_job hstep with ⟨-, hjob, -⟩ | ⟨q, k, rest, -, -, hq, hjob, -⟩
  · rw [hjob]
  · rcases eq_or_ne j k with rfl | hne
    · rw [hjob, Function.update_self, ← hq] at hleft ⊢
      rw [ran_timeLeft] at hleft
      have hlast : ((schedulingPoint c s).job j).timeLeft ≠ 1 := by omega
      refine (congrArg Share.level (ran_share hstay s.currTime hlast)).trans_le ?_
      rw [Share.tick]
      split_ifs
      · exact Nat.sub_le ..
      · exact le_rfl
      · exact le_rfl
    · rw [hjob, Function.update_of_ne hne]

/-- At the scheduling point a job is balanced with what it has consumed so far. -/
theorem AllBalanced.atPoint (h : AllBalanced c s used) (hc : c.Positive)
    (hj : j < s.numJobs) (hleft : 0 < (s.job j).timeLeft)
    (hlevel : 0 < ((schedulingPoint c s).job j).currPri) :
    Balanced c ((schedulingPoint c s).job j).share (if Boosts c s then 0 else used j) := by
  have hshare := schedulingPoint_share (c := c) hj hleft
  rw [hshare]
  split
  · exact balanced_fullShare hc (hiQueue_lt c)
  · next hboost =>
      rw [if_neg hboost] at hshare
      have hpri : ((schedulingPoint c s).job j).currPri = (s.job j).currPri :=
        congrArg Share.level hshare
      exact h j hj hleft (hpri ▸ hlevel)

/-- An iteration takes a job down exactly when it has then consumed the share
of its level. -/
theorem AllBalanced.next (h : AllBalanced c s used) (hc : c.Positive)
    (hstay : c.stay = false) (hstep : iteration c s = some s') (hj : j < s.numJobs)
    (hleft : 0 < (s'.job j).timeLeft) (hlevel : 0 < ((schedulingPoint c s).job j).currPri) :
    (s'.job j).currPri =
        (if (consumed c s s' used j : ℤ) =
            c.quantum ((schedulingPoint c s).job j).currPri *
              c.allotment ((schedulingPoint c s).job j).currPri
          then ((schedulingPoint c s).job j).currPri - 1
          else ((schedulingPoint c s).job j).currPri) ∧
      Balanced c (s'.job j).share (enter c s s' used j) := by
  have htime := schedulingPoint_timeLeft c s j
  have hrests (hjob : s'.job j = (schedulingPoint c s).job j)
      (hticks : s'.ticks j = s.ticks j) :
      (s'.job j).currPri =
          (if (consumed c s s' used j : ℤ) =
              c.quantum ((schedulingPoint c s).job j).currPri *
                c.allotment ((schedulingPoint c s).job j).currPri
            then ((schedulingPoint c s).job j).currPri - 1
            else ((schedulingPoint c s).job j).currPri) ∧
        Balanced c (s'.job j).share (enter c s s' used j) := by
    have hbalanced := h.atPoint hc hj (by rw [hjob, htime] at hleft; exact hleft) hlevel
    have hconsumed : consumed c s s' used j = if Boosts c s then 0 else used j := by
      rw [consumed, hticks, Nat.sub_self, Nat.add_zero]
    rw [enter, hjob, if_pos rfl, hconsumed]
    exact ⟨(if_neg (hbalanced.ne_total hc)).symm, hbalanced⟩
  rcases iteration_job hstep with ⟨-, hjob, hticks, -⟩ | ⟨q, k, rest, -, -, hq, hjob, hticks, -⟩
  · exact hrests (by rw [hjob]) (by rw [hticks])
  · rcases eq_or_ne j k with rfl | hne
    · -- the job runs for a tick
      have hran : s'.job j = ran c ((schedulingPoint c s).job j).currPri s.currTime
          ((schedulingPoint c s).job j) := by
        rw [hjob, Function.update_self, hq]
      rw [hran, ran_timeLeft] at hleft
      have hbalanced := h.atPoint hc hj (by omega) hlevel
      have hconsumed : consumed c s s' used j = (if Boosts c s then 0 else used j) + 1 := by
        rw [consumed, hticks, Function.update_self, Nat.add_sub_cancel_left]
      have hshare : (s'.job j).share = ((schedulingPoint c s).job j).share.tick c := by
        rw [hran]
        exact ran_share hstay s.currTime (by omega)
      have hpri : (s'.job j).currPri =
          (((schedulingPoint c s).job j).share.tick c).level := congrArg Share.level hshare
      rw [enter, hshare, hpri, hconsumed]
      exact hbalanced.tick hc hlevel
    · exact hrests (by rw [hjob, Function.update_of_ne hne])
        (by rw [hticks, Function.update_of_ne hne])

theorem allBalanced_load (hc : c.Positive) : AllBalanced c (load c jobs) fun _ => 0 := by
  intro j hj _ _
  have hloaded := loaded c jobs
  rw [hloaded.job j (hloaded.numJobs ▸ hj)]
  exact balanced_fullShare hc (hiQueue_lt c)

theorem ReachLedger.allBalanced (hc : c.Positive) (hstay : c.stay = false)
    (h : ReachLedger c jobs s used) : AllBalanced c s used := by
  refine (ReachNoted.invariant (allBalanced_load hc) (fun s used _ s' _ hs _ hstep => ?_) h).2
  intro j hj hleft hlevel
  have hnum : s'.numJobs = s.numJobs := by
    rcases iteration_job hstep with ⟨-, -, -, hnum⟩ | ⟨_, _, _, -, -, -, -, -, hnum⟩ <;> exact hnum
  exact (hs.next hc hstay hstep (hnum ▸ hj) hleft
    (hlevel.trans_le (currPri_le hstay hstep hleft))).2

/-- Without the stay flag a job above the lowest level that does not finish
moves down, by one level, exactly when it has consumed the ticks of its
quantum times its allotment since it arrived at its level. -/
theorem moves_down_iff (hstay : c.stay = false) (hquantum : ∀ q < c.numQueues, 1 ≤ c.quantum q)
    (hallotment : ∀ q < c.numQueues, 1 ≤ c.allotment q) (h : ReachLedger c jobs s used)
    (hstep : step c s () = some s') (hj : j < jobs.length)
    (hleft : 0 < (s'.job j).timeLeft) (hlevel : 0 < ((schedulingPoint c s).job j).currPri) :
    ((s'.job j).currPri < ((schedulingPoint c s).job j).currPri ↔
        (consumed c s s' used j : ℤ) =
          c.quantum ((schedulingPoint c s).job j).currPri *
            c.allotment ((schedulingPoint c s).job j).currPri) ∧
      ((s'.job j).currPri = ((schedulingPoint c s).job j).currPri ∨
        (s'.job j).currPri + 1 = ((schedulingPoint c s).job j).currPri) := by
  have hc : c.Positive := ⟨hquantum, hallotment⟩
  have hnum : s.numJobs = jobs.length := by
    obtain ⟨due, hqueued⟩ := reach_placed h.reach
    exact hqueued.numJobs
  obtain ⟨hpri, -⟩ := (h.allBalanced hc hstay).next hc hstay hstep (hnum ▸ hj) hleft hlevel
  rw [hpri]
  split
  · next htotal => exact ⟨iff_of_true (Nat.sub_lt hlevel Nat.one_pos) htotal, Or.inr (by omega)⟩
  · next htotal => exact ⟨iff_of_false (lt_irrefl _) htotal, Or.inl rfl⟩

/-- Two levels with quanta of two ticks. -/
def twoLevels : Config where
  numQueues := 2
  quantum := fun _ => 2
  allotment := fun _ => 1
  boost := 0
  ioTime := 5
  stay := false
  iobump := false
  numQueues_pos := Nat.two_pos

/-- A job that issues an I/O after every tick. -/
def blocking : JobSpec := ⟨0, 3, 1, by decide⟩

/-- At its second tick the job has used up the share of the higher level,
although an I/O came in between. -/
theorem moves_down_after_two_ticks : ∃ s s' used,
    ReachLedger twoLevels [blocking] s used ∧ step twoLevels s () = some s' ∧
      consumed twoLevels s s' used 0 = 2 ∧
      (s'.job 0).currPri < ((schedulingPoint twoLevels s).job 0).currPri := by
  have hreach := @reach_of_run _ _ (noted (step twoLevels) (enter twoLevels))
    (fun p => unfinished p.1) (load twoLevels [blocking], fun _ => 0)
    (List.replicate 6 ()) _ (runMeets_of_check (by decide)) rfl
  refine ⟨_, _, _, hreach, rfl, by decide, ?_⟩
  exact (moves_down_iff rfl (by decide) (by decide) hreach rfl (by decide) (by decide)
    (by decide)).1.mpr (by decide)

end OsLabs.Mlfq
