import Mathlib
import OsLabs.Lib.Loop

/-!
# The multi-CPU scheduler

The simulator `multi.py`. A run takes one choice a step: what `random.choice` and
`random.shuffle` give there.
-/

namespace OsLabs.CpuSchedMulti

open OsLabs.Loop

inductive PyError
  | indexError
  | keyError
deriving DecidableEq, Repr

/-- The options, except for the job list and the affinity list. -/
structure Config where
  perCpuQueues : Bool
  peekInterval : ℤ
  numCpus : ℕ
  timeSlice : ℕ
  randomOrder : Bool
  cacheSize : ℤ
  cacheRateCold : ℤ
  cacheRateWarm : ℤ
  cacheWarmupTime : ℤ
  numCpus_pos : 0 < numCpus
  timeSlice_pos : 0 < timeSlice
  cacheSize_nonneg : 0 ≤ cacheSize
  cacheRateCold_pos : 1 ≤ cacheRateCold
  cacheRateWarm_pos : 1 ≤ cacheRateWarm

/-! ## Jobs -/

/-- An entry of the job list. -/
structure JobSpec where
  name : String
  runTime : ℤ
  workingSetSize : ℤ
  runTime_pos : 1 ≤ runTime

/-- The fields of the tuple `Job`, but for the time left, which is in the state. -/
structure Job where
  name : String
  runTime : ℤ
  workingSetSize : ℤ
  affinity : List ℕ
deriving DecidableEq, Repr, Inhabited

/-- The job may run on the CPU. -/
def Job.allows (job : Job) (cpu : ℕ) : Bool := job.affinity.length = 0 || cpu ∈ job.affinity

/-- `cpu in job`: some field of the tuple equals the number. The name and the two
lists never do. -/
def Job.contains (job : Job) (cpu : ℕ) : Bool := job.runTime = cpu || job.workingSetSize = cpu

/-- `job_name_list` and `jobs`. -/
structure Jobs where
  jobNameList : List String
  job : String → Job

/-- `none` when the name is repeated. -/
def addJob (jobs : Jobs) (entry : JobSpec) : Option Jobs :=
  if entry.name ∈ jobs.jobNameList then none
  else some ⟨jobs.jobNameList ++ [entry.name], Function.update jobs.job entry.name
    ⟨entry.name, entry.runTime, entry.workingSetSize, []⟩⟩

/-- `none` when there is no such job, or no such CPU. -/
def addAffinity (numCpus : ℕ) (jobs : Jobs) (entry : String × List ℕ) : Option Jobs :=
  if entry.1 ∈ jobs.jobNameList ∧ ∀ cpu ∈ entry.2, cpu < numCpus then
    let job := jobs.job entry.1
    some { jobs with
      job := Function.update jobs.job entry.1 { job with affinity := job.affinity ++ entry.2 } }
  else none

/-- The job list and the affinity list. -/
def readJobs (c : Config) (jobList : List JobSpec) (affinity : List (String × List ℕ)) :
    Option Jobs := do
  let jobs ← jobList.foldlM addJob ⟨[], default⟩
  affinity.foldlM (addAffinity c.numCpus) jobs

/-! ## Caches -/

structure Cache where
  cacheContents : List String
  cacheWarming : List String
  cacheWarmingCounter : String → Option ℤ

variable (c : Config) (jobs : Jobs)

def totalWorkingSet (cache : Cache) : ℤ :=
  (cache.cacheContents.map fun name => (jobs.job name).workingSetSize).sum

/-- The loop of `adjust_size`, with the contents from the last entry on. -/
def adjustLoop : List String → ℤ → Cache → Except PyError Cache
  | [], total, cache => if c.cacheSize < total then .error .indexError else .ok cache
  | jobGone :: rest, total, cache =>
      if c.cacheSize < total then
        adjustLoop rest (total - (jobs.job jobGone).workingSetSize)
          { cacheContents := rest.reverse
            cacheWarming := cache.cacheWarming ++ [jobGone]
            cacheWarmingCounter :=
              Function.update cache.cacheWarmingCounter jobGone (some c.cacheWarmupTime) }
      else .ok cache

def adjustSize (cache : Cache) : Except PyError Cache :=
  adjustLoop c jobs cache.cacheContents.reverse (totalWorkingSet jobs cache) cache

def newJob (cache : Cache) (name : String) : Except PyError Cache :=
  if name ∉ cache.cacheContents ∧ name ∉ cache.cacheWarming then
    if c.cacheWarmupTime = 0 then
      adjustSize c jobs { cache with cacheContents := name :: cache.cacheContents }
    else
      .ok { cache with
        cacheWarming := cache.cacheWarming ++ [name]
        cacheWarmingCounter :=
          Function.update cache.cacheWarmingCounter name (some c.cacheWarmupTime) }
  else .ok cache

def getRate (cache : Cache) (name : String) : ℤ :=
  if name ∈ cache.cacheContents then c.cacheRateWarm else c.cacheRateCold

def updateWarming (cache : Cache) (name : String) : Except PyError Cache :=
  if name ∈ cache.cacheWarming then
    match cache.cacheWarmingCounter name with
    | none => .error .keyError
    | some counter =>
        let cache := { cache with
          cacheWarmingCounter :=
            Function.update cache.cacheWarmingCounter name (some (counter - 1)) }
        if counter - 1 ≤ 0 then
          adjustSize c jobs { cache with
            cacheWarming := cache.cacheWarming.erase name
            cacheContents := name :: cache.cacheContents }
        else .ok cache
  else .ok cache

/-! ## The scheduler -/

/-- Where the main loop is; `stealJobs cpu` is before that iteration of its loop. -/
inductive Phase
  | handleInterrupts
  | stealJobs (cpu : ℕ)
  | assignJobs
  | runJobs
deriving DecidableEq, Repr

/-- A CPU without a current job is idle. -/
structure State where
  phase : Phase
  systemTime : ℕ
  jobsFinished : ℕ
  schedQueue : ℕ → List String
  schedCurrent : ℕ → Option String
  timeLeft : String → ℤ
  caches : ℕ → Cache

/-- The queue of a CPU. There is only one when the queue is a central one. -/
def Config.queueOf (cpu : ℕ) : ℕ := if c.perCpuQueues then cpu else 0

/-- `per_cpu_sched_queue[cpu]` -/
def State.perCpuSchedQueue (s : State) (cpu : ℕ) : List String := s.schedQueue (c.queueOf cpu)

def State.setQueue (s : State) (cpu : ℕ) (queue : List String) : State :=
  { s with schedQueue := Function.update s.schedQueue (c.queueOf cpu) queue }

def State.setCurrent (s : State) (cpu : ℕ) (name : Option String) : State :=
  { s with schedCurrent := Function.update s.schedCurrent cpu name }

/-- The first job of those not assigned yet that may run on the CPU. -/
def assignTo (s : (ℕ → List String) × List String) (cpu : ℕ) : (ℕ → List String) × List String :=
  match s.2.find? fun name => (jobs.job name).allows cpu with
  | none => s
  | some name => (Function.update s.1 cpu (s.1 cpu ++ [name]), s.2.erase name)

def assignRound (s : (ℕ → List String) × List String) : (ℕ → List String) × List String :=
  (List.range c.numCpus).foldl (assignTo jobs) s

/-- The first queues. Without an affinity a job may wait on any CPU, so a round for
each job is enough. -/
def initialQueues : Option (ℕ → List String) :=
  if c.perCpuQueues then
    (loop (fun s => some (assignRound c jobs s)) (fun s => s.2.isEmpty) jobs.jobNameList.length
      (fun _ => [], jobs.jobNameList)).map Prod.fst
  else some (Function.update (fun _ => []) 0 jobs.jobNameList)

/-- The state before the first tick. -/
def startWith (queues : ℕ → List String) : State where
  phase := .handleInterrupts
  systemTime := 0
  jobsFinished := 0
  schedQueue := queues
  schedCurrent := fun _ => none
  timeLeft := fun name => (jobs.job name).runTime
  caches := fun _ => ⟨[], [], fun _ => none⟩

def initialState : Option State := (initialQueues c jobs).map (startWith jobs)

/-- What a step may choose at random. -/
structure Choice (numCpus : ℕ) where
  other : ℕ
  order : List ℕ
  shuffled : order.Perm (List.range numCpus)

def handleOneInterrupt (interrupt : Bool) (s : State) (cpu : ℕ) : State :=
  match s.schedCurrent cpu with
  | some name =>
      if interrupt then (s.setCurrent cpu none).setQueue c cpu (s.perCpuSchedQueue c cpu ++ [name])
      else s
  | none => s

def handleInterrupts (s : State) : State :=
  (List.range c.numCpus).foldl
    (handleOneInterrupt c (s.systemTime % c.timeSlice = 0 && 0 < s.systemTime)) s

def timeToSteal (s : State) : Bool :=
  c.perCpuQueues && 0 < c.peekInterval && 0 < s.systemTime && (s.systemTime : ℤ) % c.peekInterval = 0

/-- `random.choice(other_cpu_list)`, which has nothing to choose from on one CPU. -/
def otherCpu (cpu draw : ℕ) : Option ℕ :=
  let otherCpuList := (List.range c.numCpus).erase cpu
  otherCpuList[draw % otherCpuList.length]?

/-- The job of the other queue that is stolen. -/
def examine (s : State) (cpu other : ℕ) : Option String :=
  (s.perCpuSchedQueue c other).find? fun name =>
    (jobs.job name).affinity.length = 0 || (jobs.job name).contains cpu

/-- The iteration of `steal_jobs` for the CPU. -/
def stealFor (draw : ℕ) (s : State) (cpu : ℕ) : Except PyError State :=
  if s.perCpuSchedQueue c cpu = [] then
    match otherCpu c cpu draw with
    | none => .error .indexError
    | some other =>
        match examine c jobs s cpu other with
        | none => .ok s
        | some name =>
            let s := s.setQueue c other ((s.perCpuSchedQueue c other).erase name)
            .ok (s.setQueue c cpu (s.perCpuSchedQueue c cpu ++ [name]))
  else .ok s

def getJob (s : State) (cpu : ℕ) : Except PyError State :=
  match (s.perCpuSchedQueue c cpu).find? fun name => (jobs.job name).allows cpu with
  | none => .ok s
  | some name => do
      let cache ← newJob c jobs (s.caches cpu) name
      let s := s.setQueue c cpu ((s.perCpuSchedQueue c cpu).erase name)
      return { s.setCurrent cpu (some name) with caches := Function.update s.caches cpu cache }

def assignJob (s : State) (cpu : ℕ) : Except PyError State :=
  match s.schedCurrent cpu with
  | none => getJob c jobs s cpu
  | some _ => .ok s

def assignJobs (order : List ℕ) (s : State) : Except PyError State :=
  (if c.randomOrder then order else List.range c.numCpus).foldlM (assignJob c jobs) s

def runOneTick (s : State) (cpu : ℕ) (name : String) : Except PyError State := do
  let left := s.timeLeft name - getRate c (s.caches cpu) name
  let left := if left < 0 then 0 else left
  let cache ← updateWarming c jobs (s.caches cpu) name
  let s := { s with
    timeLeft := Function.update s.timeLeft name left
    caches := Function.update s.caches cpu cache }
  if left ≤ 0 then return { s.setCurrent cpu none with jobsFinished := s.jobsFinished + 1 }
  else return s

def runJob (s : State) (cpu : ℕ) : Except PyError State :=
  match s.schedCurrent cpu with
  | some name => runOneTick c jobs s cpu name
  | none => .ok s

def runJobs (s : State) : Except PyError State :=
  (List.range c.numCpus).foldlM (runJob c jobs) s

/-- The main loop is at its test, and ends. -/
def State.done (s : State) : Bool :=
  s.phase = .handleInterrupts && !decide (s.jobsFinished < jobs.jobNameList.length)

def step (s : State) (choice : Choice c.numCpus) : Except PyError State :=
  match s.phase with
  | .handleInterrupts => .ok { handleInterrupts c s with phase := .stealJobs 0 }
  | .stealJobs cpu =>
      if timeToSteal c s ∧ cpu < c.numCpus then do
        let s ← stealFor c jobs choice.other s cpu
        return { s with phase := .stealJobs (cpu + 1) }
      else .ok { s with phase := .assignJobs }
  | .assignJobs => do
      let s ← assignJobs c jobs choice.order s
      return { s with phase := .runJobs }
  | .runJobs => do
      let s ← runJobs c jobs s
      return { s with phase := .handleInterrupts, systemTime := s.systemTime + 1 }

end OsLabs.CpuSchedMulti
