import OsLabs.FileDisks.Layout
import OsLabs.Lib.Checked
import OsLabs.Lib.FairWindow

/-!
# Scheduling the requests of the disk

The requests of `disk.py` without the graphics and the times. What the code computes from the
angle of the disk and the place of its arm with floating point numbers is given for each tick.
-/

namespace OsLabs.FileDisks

open OsLabs.Checked

/-- `STATE_NULL` to `STATE_DONE` -/
inductive RequestState
  | null
  | seek
  | rotate
  | xfer
  | done
deriving DecidableEq, Repr

inductive Policy
  | fifo
  | sstf
  | satf
  | bsatf
  | other
deriving DecidableEq, Repr

structure Config where
  layout : Layout
  policy : Policy
  window : ℤ
  requests : List ℤ
  lateRequests : List ℤ

def Config.fairWindow (c : Config) : ℤ :=
  if c.policy = .bsatf ∧ c.window ≠ -1 then c.window else -1

/-- What a turn of `Animate` finds: whether the arm has arrived, the block is below the head and
has passed it, and `totalEst` of each request. -/
structure Tick where
  doneWithSeek : Bool
  doneWithRotation : Bool
  doneWithTransfer : Bool
  totalEst : ℤ × ℕ → ℚ

/-- `currentIndex` and `currentBlock` are -1 and `armTarget` is not there until a request is
chosen. `served` has the indices of the requests in the order of `DoRequestStats`. -/
structure Disk where
  requestQueue : List (ℤ × ℕ)
  requestState : List RequestState
  requestCount : ℕ
  lateCount : ℕ
  currWindow : ℤ
  currentIndex : ℤ
  currentBlock : ℤ
  state : RequestState
  armTrack : ℕ
  armTarget : Option ℕ
  isDone : Bool
  served : List ℕ

def maxTracks : ℕ := 1000

/-! ## The queue -/

def Disk.addQueueEntry (disk : Disk) (block : ℤ) (index : ℕ) : Disk :=
  { disk with
    requestQueue := disk.requestQueue ++ [(block, index)]
    requestState := disk.requestState ++ [.null] }

def Disk.addRequest (disk : Disk) (block : ℤ) : Disk :=
  disk.addQueueEntry block disk.requestQueue.length

/-- `__init__` -/
def Config.start (c : Config) : Disk :=
  c.requests.zipIdx.foldl (fun disk request => disk.addQueueEntry request.1 request.2)
    ⟨[], [], 0, 0, c.window, -1, -1, .null, 0, none, false, []⟩

def Layout.trackOf (layout : Layout) (block : ℤ) : Except PyError ℕ :=
  match layout.blockToTrackMap block with
  | none => .error .keyError
  | some track => .ok track

/-- `items[index] = item`. A negative index counts from the end. -/
def setItem {α : Type} (items : List α) (index : ℤ) (item : α) : Except PyError (List α) :=
  let place := if index < 0 then index + items.length else index
  if 0 ≤ place ∧ place < items.length then .ok (items.set place.toNat item)
  else .error .indexError

/-! ## Moving the arm -/

def Disk.switchState (disk : Disk) (newState : RequestState) : Except PyError Disk := do
  let requestState ← setItem disk.requestState disk.currentIndex newState
  return { disk with state := newState, requestState := requestState }

def Disk.planSeek (disk : Disk) (track : ℕ) : Except PyError Disk := do
  let disk ← disk.switchState .seek
  if track = disk.armTrack then disk.switchState .rotate
  else return { disk with armTarget := some track }

/-! ## The policies -/

/-- One turn of the loop of `DoSATF` on `minBlock`, `minIndex` and `minEst`. -/
def Disk.estimate (layout : Layout) (disk : Disk) (tick : Tick) (best : ℤ × ℤ × ℚ)
    (request : ℤ × ℕ) : Except PyError (ℤ × ℤ × ℚ) :=
  match disk.requestState[request.2]? with
  | none => .error .indexError
  | some .done => .ok best
  | some _ => do
      let _ ← layout.trackOf request.1
      if best.2.2 = -1 ∨ tick.totalEst request < best.2.2 then
        return (request.1, request.2, tick.totalEst request)
      else return best

def Disk.doSATF (layout : Layout) (disk : Disk) (tick : Tick) (rList : List (ℤ × ℕ)) :
    Except PyError (ℤ × ℤ) := do
  let best ← rList.foldlM (disk.estimate layout tick) (-1, -1, -1)
  if best.1 = -1 then .error .assertionError
  else if best.2.1 = -1 then .error .assertionError
  else return (best.1, best.2.1)

/-- One turn of the loop of `DoSSTF` on `minDist` and `trackList`. -/
def Disk.nearest (layout : Layout) (disk : Disk) (best : ℤ × List (ℤ × ℕ)) (request : ℤ × ℕ) :
    Except PyError (ℤ × List (ℤ × ℕ)) :=
  match disk.requestState[request.2]? with
  | none => .error .indexError
  | some .done => .ok best
  | some _ => do
      let track ← layout.trackOf request.1
      let dist : ℤ := |(disk.armTrack : ℤ) - track|
      if dist < best.1 then return (dist, [request])
      else if dist = best.1 then return (best.1, best.2 ++ [request])
      else return best

def Disk.doSSTF (layout : Layout) (disk : Disk) (rList : List (ℤ × ℕ)) :
    Except PyError (List (ℤ × ℕ)) := do
  let best ← rList.foldlM (disk.nearest layout) (maxTracks, [])
  if best.2 = [] then .error .assertionError
  else return best.2

/-! ## The window -/

def Disk.updateWindow (c : Config) (disk : Disk) : Disk :=
  if c.fairWindow = -1 ∧ 0 < disk.currWindow ∧ disk.currWindow < disk.requestQueue.length then
    { disk with currWindow := disk.currWindow + 1 }
  else disk

/-- It may update the window as well. -/
def Disk.getWindow (c : Config) (disk : Disk) : ℤ × Disk :=
  if disk.currWindow ≤ -1 then (disk.requestQueue.length, disk)
  else if c.fairWindow ≠ -1 then
    let disk :=
      if 0 < disk.requestCount ∧ disk.requestCount % c.fairWindow = 0 then
        { disk with currWindow := disk.currWindow + c.fairWindow }
      else disk
    (disk.currWindow, disk)
  else (disk.currWindow, disk)

/-! ## One request after another -/

/-- The next block and its index. -/
def Disk.choose (c : Config) (disk : Disk) (tick : Tick) : Except PyError (Disk × ℤ × ℤ) :=
  match c.policy with
  | .fifo =>
      match disk.requestQueue[disk.requestCount]? with
      | none => .error .indexError
      | some request => do
          let _ ← disk.doSATF c.layout tick ((disk.requestQueue.drop disk.requestCount).take 1)
          return (disk, request.1, request.2)
  | .satf | .bsatf => do
      let (endIndex, disk) := disk.getWindow c
      let endIndex :=
        if endIndex > disk.requestQueue.length then (disk.requestQueue.length : ℤ) else endIndex
      return (disk, ← disk.doSATF c.layout tick (disk.requestQueue.take endIndex.toNat))
  | .sstf => do
      let (endIndex, disk) := disk.getWindow c
      let trackList ← disk.doSSTF c.layout (disk.requestQueue.take endIndex.toNat)
      return (disk, ← disk.doSATF c.layout tick trackList)
  | .other => .error .policyNotImplemented

def Disk.addLateRequest (c : Config) (disk : Disk) : Disk :=
  match c.lateRequests[disk.lateCount]? with
  | none => disk
  | some block => { disk.addRequest block with lateCount := disk.lateCount + 1 }

/-- `GetNextIO` -/
def Disk.getNextIo (c : Config) (disk : Disk) (tick : Tick) : Except PyError Disk :=
  if disk.requestCount = disk.requestQueue.length then .ok { disk with isDone := true }
  else do
    let (disk, currentBlock, currentIndex) ← disk.choose c tick
    let disk := { disk with currentBlock := currentBlock, currentIndex := currentIndex }
    let track ← c.layout.trackOf disk.currentBlock
    let disk ← disk.planSeek track
    return disk.addLateRequest c

/-! ## Animation -/

def Disk.finishSeek (disk : Disk) (tick : Tick) : Except PyError Disk :=
  if disk.state = .seek ∧ tick.doneWithSeek then
    match disk.armTarget with
    | none => .error .attributeError
    | some track => ({ disk with armTrack := track } : Disk).switchState .rotate
  else .ok disk

def Disk.finishRotation (disk : Disk) (tick : Tick) : Except PyError Disk :=
  if disk.state = .rotate ∧ tick.doneWithRotation then disk.switchState .xfer
  else .ok disk

/-- The transfer goes on when the next block follows the one that is done on the same track. -/
def Disk.stayInTransfer (layout : Layout) (disk : Disk) (currentBlock : ℤ) :
    Except PyError Disk := do
  let nextBlock := disk.currentBlock
  let track ← layout.trackOf currentBlock
  let nextTrack ← layout.trackOf nextBlock
  if track = nextTrack then
    match layout.tracksBeginEnd disk.armTrack with
    | none => .error .keyError
    | some (first, last) =>
        if (currentBlock = last ∧ nextBlock = first) ∨ currentBlock + 1 = nextBlock then
          disk.switchState .xfer
        else return disk
  else return disk

def Disk.countRequest (disk : Disk) : Disk :=
  { disk with
    requestCount := disk.requestCount + 1
    served := disk.served ++ [disk.currentIndex.toNat] }

def Disk.finishTransfer (c : Config) (disk : Disk) (tick : Tick) : Except PyError Disk :=
  if disk.state = .xfer ∧ tick.doneWithTransfer then do
    let disk ← disk.switchState .done
    let disk ← disk.countRequest.switchState .done
    let disk := disk.updateWindow c
    let currentBlock := disk.currentBlock
    let disk ← disk.getNextIo c tick
    disk.stayInTransfer c.layout currentBlock
  else .ok disk

def Disk.animate (c : Config) (disk : Disk) (tick : Tick) : Except PyError Disk := do
  let disk ← disk.finishSeek tick
  let disk ← disk.finishRotation tick
  disk.finishTransfer c tick

/-- `Go` until `n` turns of the loop are over. -/
def Config.go (c : Config) (ticks : ℕ → Tick) : ℕ → Except PyError Disk
  | 0 => c.start.getNextIo c (ticks 0)
  | n + 1 => do
      let disk ← c.go ticks n
      if disk.isDone then return disk else disk.animate c (ticks (n + 1))

end OsLabs.FileDisks
