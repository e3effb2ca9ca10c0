import Mathlib
import OsLabs.Lib.Loop

/-!
# The MLFQ simulator `mlfq.py`

`none` as the result of a step stands for `Abort` or a failed assertion.
-/

namespace OsLabs.Mlfq

open OsLabs.Loop

/-- The options; level `numQueues - 1` has the highest priority. Without a
positive `boost` there is none. -/
structure Config where
  numQueues : ℕ
  quantum : ℕ → ℤ
  allotment : ℕ → ℤ
  boost : ℤ
  ioTime : ℕ
  stay : Bool
  iobump : Bool
  numQueues_pos : 0 < numQueues

def Config.hiQueue (c : Config) : ℕ := c.numQueues - 1

/-- An entry of the job list. -/
structure JobSpec where
  startTime : ℕ
  runTime : ℤ
  ioFreq : ℤ
  runTime_pos : 1 ≤ runTime

inductive EventType
  | jobBegins
  | ioDone
  deriving DecidableEq, Repr

structure Job where
  currPri : ℕ
  ticksLeft : ℤ
  allotLeft : ℤ
  startTime : ℕ
  runTime : ℤ
  timeLeft : ℤ
  ioFreq : ℤ
  doingIo : Bool
  firstRun : ℤ
  endTime : Option ℕ
  deriving DecidableEq, Repr, Inhabited

/-- `ticks` records for how many ticks each job has run. -/
structure State where
  currTime : ℕ
  numJobs : ℕ
  job : ℕ → Job
  queue : ℕ → List ℕ
  ioDone : ℕ → List (ℕ × EventType)
  finishedJobs : ℕ
  ticks : ℕ → ℕ

def State.setJob (s : State) (j : ℕ) (job : Job) : State :=
  { s with job := Function.update s.job j job }

def State.setQueue (s : State) (q : ℕ) (jobs : List ℕ) : State :=
  { s with queue := Function.update s.queue q jobs }

/-- An event is added at the end of those of its time. -/
def State.addEvent (s : State) (time : ℕ) (event : ℕ × EventType) : State :=
  { s with ioDone := Function.update s.ioDone time (s.ioDone time ++ [event]) }

@[simp] theorem setJob_self (s : State) (j : ℕ) (jb : Job) : (s.setJob j jb).job j = jb :=
  Function.update_self ..

@[simp] theorem setJob_of_ne {s : State} {j k : ℕ} (jb : Job) (h : k ≠ j) :
    (s.setJob j jb).job k = s.job k :=
  Function.update_of_ne h ..

/-- A field that an update of a job keeps is the same for every job. -/
theorem setJob_congr {β : Type*} (f : Job → β) {s : State} {j : ℕ} {jb : Job}
    (h : f jb = f (s.job j)) (k : ℕ) : f ((s.setJob j jb).job k) = f (s.job k) := by
  rcases eq_or_ne k j with rfl | hne
  · rw [setJob_self, h]
  · rw [setJob_of_ne jb hne]

@[simp] theorem setQueue_self (s : State) (q : ℕ) (l : List ℕ) : (s.setQueue q l).queue q = l :=
  Function.update_self ..

@[simp] theorem setQueue_of_ne {s : State} {q p : ℕ} (l : List ℕ) (h : p ≠ q) :
    (s.setQueue q l).queue p = s.queue p :=
  Function.update_of_ne h ..

@[simp] theorem setQueue_job (s : State) (q : ℕ) (l : List ℕ) : (s.setQueue q l).job = s.job := rfl

@[simp] theorem setJob_queue (s : State) (j : ℕ) (jb : Job) : (s.setJob j jb).queue = s.queue := rfl

/-! ## The job list -/

/-- A new job starts with the priority of the highest level. -/
def newJob (c : Config) (spec : JobSpec) : Job where
  currPri := c.hiQueue
  ticksLeft := c.quantum c.hiQueue
  allotLeft := c.allotment c.hiQueue
  startTime := spec.startTime
  runTime := spec.runTime
  timeLeft := spec.runTime
  ioFreq := spec.ioFreq
  doingIo := false
  firstRun := -1
  endTime := none

def addJob (c : Config) (s : State) (spec : JobSpec) : State :=
  let jobCnt := s.numJobs
  { (s.setJob jobCnt (newJob c spec)).addEvent spec.startTime (jobCnt, .jobBegins) with
    numJobs := jobCnt + 1 }

def init : State where
  currTime := 0
  numJobs := 0
  job := fun _ => default
  queue := fun _ => []
  ioDone := fun _ => []
  finishedJobs := 0
  ticks := fun _ => 0

/-- The state before the main loop. -/
def load (c : Config) (jobs : List JobSpec) : State := jobs.foldl (addJob c) init

/-! ## The scheduling point -/

def findQueueFrom (queue : ℕ → List ℕ) : ℕ → Option ℕ
  | 0 => if (queue 0).length > 0 then some 0 else none
  | q + 1 => if (queue (q + 1)).length > 0 then some (q + 1) else findQueueFrom queue q

/-- The highest nonempty queue; `none` if all are empty. -/
def findQueue (c : Config) (s : State) : Option ℕ := findQueueFrom s.queue c.hiQueue

/-- The boost empties a lower queue into the highest. -/
def boostQueue (c : Config) (s : State) (q : ℕ) : State :=
  (s.setQueue c.hiQueue (s.queue c.hiQueue ++
    (s.queue q).filter fun j => (s.job j).doingIo = false)).setQueue q []

def boostJob (c : Config) (s : State) (j : ℕ) : State :=
  let jb := s.job j
  if jb.timeLeft > 0 then
    s.setJob j { jb with
      currPri := c.hiQueue
      ticksLeft := c.quantum c.hiQueue
      allotLeft := c.allotment c.hiQueue }
  else s

def checkBoost (c : Config) (s : State) : State :=
  if c.boost > 0 ∧ s.currTime ≠ 0 ∧ (s.currTime : ℤ) % c.boost = 0 then
    (List.range s.numJobs).foldl (boostJob c)
      ((List.range (c.numQueues - 1)).foldl (boostQueue c) s)
  else s

/-- A job that begins or has finished its I/O enters the queue of its level. -/
def eventDone (c : Config) (s : State) (event : ℕ × EventType) : State :=
  let (j, type) := event
  let q := (s.job j).currPri
  (s.setJob j { s.job j with doingIo := false }).setQueue q
    (if c.iobump = false ∨ type = .jobBegins then s.queue q ++ [j] else j :: s.queue q)

def checkIoDone (c : Config) (s : State) : State :=
  (s.ioDone s.currTime).foldl (eventDone c) s

/-- The state in which the next job is chosen. -/
def schedulingPoint (c : Config) (s : State) : State := checkIoDone c (checkBoost c s)

/-! ## Running a job -/

/-- `queue[q].pop(0)` and the assertion that it is the current job. -/
def pop (s : State) (q currJob : ℕ) : Option State :=
  match s.queue q with
  | [] => none
  | j :: rest => if j = currJob then some (s.setQueue q rest) else none

/-- The job runs for one tick. -/
def charge (s : State) (j : ℕ) : State :=
  let jb := s.job j
  { s.setJob j { jb with
      timeLeft := jb.timeLeft - 1
      ticksLeft := jb.ticksLeft - 1
      firstRun := if jb.firstRun = -1 then s.currTime else jb.firstRun } with
    ticks := Function.update s.ticks j (s.ticks j + 1) }

def finishJob (s : State) (q currJob : ℕ) : Option State :=
  pop { s.setJob currJob { s.job currJob with endTime := some s.currTime } with
    finishedJobs := s.finishedJobs + 1 } q currJob

def issueIo (c : Config) (s : State) (q currJob : ℕ) : Option State := do
  let s ← pop s q currJob
  let s := s.setJob currJob { s.job currJob with doingIo := true }
  let s := if c.stay then
    s.setJob currJob { s.job currJob with
      ticksLeft := c.quantum q
      allotLeft := c.allotment q }
    else s
  some (s.addEvent (s.currTime + c.ioTime) (currJob, .ioDone))

/-- The job goes to the end of a queue, unless it does I/O. -/
def requeue (s : State) (q currJob : ℕ) (issuedIo : Bool) : State :=
  if issuedIo = false then s.setQueue q (s.queue q ++ [currJob]) else s

def endQuantum (c : Config) (s : State) (currQueue currJob : ℕ) (issuedIo : Bool) :
    Option State := do
  let s ← (if issuedIo = false then pop s currQueue currJob else some s : Option State)
  let jb := { s.job currJob with allotLeft := (s.job currJob).allotLeft - 1 }
  if jb.allotLeft = 0 then
    if currQueue > 0 then
      let s := s.setJob currJob { jb with
        currPri := currQueue - 1
        ticksLeft := c.quantum (currQueue - 1)
        allotLeft := c.allotment (currQueue - 1) }
      some (requeue s (currQueue - 1) currJob issuedIo)
    else
      let s := s.setJob currJob { jb with
        ticksLeft := c.quantum currQueue
        allotLeft := c.allotment currQueue }
      some (requeue s currQueue currJob issuedIo)
  else
    let s := s.setJob currJob { jb with ticksLeft := c.quantum currQueue }
    some (requeue s currQueue currJob issuedIo)

def runJob (c : Config) (s : State) (currQueue : ℕ) : Option State := do
  let currJob ← (s.queue currQueue).head?
  if (s.job currJob).currPri ≠ currQueue then none
  else
    let s := charge s currJob
    let jb := s.job currJob
    if jb.timeLeft < 0 then none
    else
      let s := { s with currTime := s.currTime + 1 }
      if jb.timeLeft = 0 then finishJob s currQueue currJob
      else
        let issuedIo := decide (jb.ioFreq > 0 ∧ (jb.runTime - jb.timeLeft) % jb.ioFreq = 0)
        (if issuedIo then issueIo c s currQueue currJob else some s).bind fun s =>
          if jb.ticksLeft = 0 then endQuantum c s currQueue currJob issuedIo else some s

/-- An iteration of the main loop. -/
def iteration (c : Config) (s : State) : Option State :=
  let s := schedulingPoint c s
  match findQueue c s with
  | none => some { s with currTime := s.currTime + 1 }
  | some currQueue => runJob c s currQueue

def finished (s : State) : Bool := ¬ s.finishedJobs < s.numJobs

def mainLoop (c : Config) : ℕ → State → Option State := loop (iteration c) finished

end OsLabs.Mlfq
