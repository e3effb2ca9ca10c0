import Mathlib
import OsLabs.Lib.Transition

/-!
# The simulated SSD

The class `ssd` of `file-ssd/ssd.py`: page states, page data, the mapping of
logical to physical pages, the log cursor and the garbage collector, for the
three device types. The counters that only `stats` prints are left out.
-/

namespace OsLabs.Ssd

inductive SsdType
  | direct
  | logging
  | ideal
deriving DecidableEq, Repr

inductive PageState
  | invalid
  | erased
  | valid
deriving DecidableEq, Repr

/-- The arguments of the constructor that the simulation reads. A flash block
holds at least one page; with none the program divides by zero. -/
structure Config where
  ssdType : SsdType
  numLogicalPages : ℕ
  numBlocks : ℕ
  pagesPerBlock : ℕ
  highWaterMark : ℤ
  lowWaterMark : ℤ
  pagesPerBlock_pos : 0 < pagesPerBlock

def Config.numPages (c : Config) : ℕ := c.numBlocks * c.pagesPerBlock

/-- What the flash discipline is about: each programmed page with the state it
had, and each answer `failure: device full` of `write_logging`. -/
inductive Event
  | program (page : ℕ) (before : PageState)
  | deviceFull
deriving DecidableEq, Repr

/-- The fields of an `ssd` object, `-1` being `none`. The last one is a history
variable: no function reads it. -/
structure Device where
  state : ℕ → PageState
  data : ℕ → String
  currentPage : Option ℕ
  currentBlock : ℕ
  gcCurrentBlock : ℕ
  gcUsedBlocks : ℕ → ℕ
  forwardMap : ℕ → Option ℕ
  reverseMap : ℕ → Option ℕ
  history : List Event

def blank : String := " "

def Device.init : Device where
  state := fun _ => .invalid
  data := fun _ => blank
  currentPage := none
  currentBlock := 0
  gcCurrentBlock := 0
  gcUsedBlocks := fun _ => 0
  forwardMap := fun _ => none
  reverseMap := fun _ => none
  history := []

variable (c : Config)

def blocksInUse (s : Device) : ℕ := ((List.range c.numBlocks).map s.gcUsedBlocks).sum

def pagesOf (block : ℕ) : List ℕ :=
  List.range' (block * c.pagesPerBlock) c.pagesPerBlock

def physicalErase (s : Device) (block : ℕ) : Device :=
  { s with
    data := fun page => if page ∈ pagesOf c block then blank else s.data page
    state := fun page => if page ∈ pagesOf c block then .erased else s.state page
    gcUsedBlocks := Function.update s.gcUsedBlocks block 0 }

def physicalProgram (s : Device) (page : ℕ) (data : String) : Device :=
  { s with
    data := Function.update s.data page data
    state := Function.update s.state page .valid
    history := .program page (s.state page) :: s.history }

def physicalRead (s : Device) (page : ℕ) : String := s.data page

def readDirect (s : Device) (address : ℕ) : String := physicalRead s address

def Device.setMaps (s : Device) (pageAddress page : ℕ) : Device :=
  { s with
    forwardMap := Function.update s.forwardMap pageAddress (some page)
    reverseMap := Function.update s.reverseMap page (some pageAddress) }

/-- The loop over `old_list`, which leaves out the page being written. -/
def programOld (pageAddress : ℕ) (s : Device) : List (ℕ × String) → Device
  | [] => s
  | (oldPage, oldData) :: rest =>
      if oldPage = pageAddress then programOld pageAddress s rest
      else programOld pageAddress (physicalProgram s oldPage oldData) rest

/-- Beyond the last block `self.state[old_page]` raises `KeyError`. -/
def writeDirect (s : Device) (pageAddress : ℕ) (data : String) : Option (Device × String) :=
  let block := pageAddress / c.pagesPerBlock
  if block < c.numBlocks then
    let oldList := ((pagesOf c block).filter fun page => s.state page = .valid).map
      fun page => (page, physicalRead s page)
    let s := programOld pageAddress (physicalErase c s block) oldList
    let s := physicalProgram s pageAddress data
    some (s.setMaps pageAddress pageAddress, "success")
  else none

/-- Beyond the last page the write count of the block raises `KeyError`. -/
def writeIdeal (s : Device) (pageAddress : ℕ) (data : String) : Option (Device × String) :=
  if pageAddress < c.numPages then
    some ((physicalProgram s pageAddress data).setMaps pageAddress pageAddress, "success")
  else none

def enterBlock (s : Device) (block : ℕ) : Device :=
  { s with
    currentBlock := block
    currentPage := some (block * c.pagesPerBlock)
    gcUsedBlocks := Function.update s.gcUsedBlocks block 1 }

def isBlockFree (s : Device) (block : ℕ) : Device × Bool :=
  let firstPage := block * c.pagesPerBlock
  if s.state firstPage = .invalid ∨ s.state firstPage = .erased then
    let s := if s.state firstPage = .invalid then physicalErase c s block else s
    (enterBlock c s block, true)
  else (s, false)

/-- The two loops of `get_cursor` over the blocks. -/
def findFree (s : Device) : List ℕ → Device × ℤ
  | [] => (s, -1)
  | block :: rest =>
      match isBlockFree c s block with
      | (s, true) => (s, 0)
      | (s, false) => findFree s rest

def blocksFrom (start : ℕ) : List ℕ :=
  List.range' start (c.numBlocks - start) ++ List.range start

def getCursor (s : Device) : Device × ℤ :=
  match s.currentPage with
  | none => findFree c s (blocksFrom c s.currentBlock)
  | some _ => (s, 0)

def updateCursor (s : Device) : Device :=
  { s with
    currentPage := s.currentPage.bind fun page =>
      if (page + 1) % c.pagesPerBlock = 0 then none else some (page + 1) }

/-- The assertion that the page under the cursor is erased stops the program
when it fails. -/
def writeLogging (s : Device) (pageAddress : ℕ) (data : String) : Option (Device × String) :=
  match getCursor c s with
  | (s, -1) => some ({ s with history := .deviceFull :: s.history }, "failure: device full")
  | (s, _) =>
      match s.currentPage with
      | none => none
      | some page =>
          if s.state page = .erased then
            let s := (physicalProgram s page data).setMaps pageAddress page
            some (updateCursor c s, "success")
          else none

def write (s : Device) (address : ℤ) (data : String) : Option (Device × String) :=
  if address < 0 ∨ c.numLogicalPages ≤ address then some (s, "fail: illegal write address")
  else
    match c.ssdType with
    | .direct => writeDirect c s address.toNat data
    | .ideal => writeIdeal c s address.toNat data
    | .logging => writeLogging c s address.toNat data

def trim (s : Device) (address : ℤ) : Device × String :=
  if address < 0 ∨ c.numLogicalPages ≤ address then (s, "fail: illegal trim address")
  else if s.forwardMap address.toNat = none then (s, "fail: uninitialized trim")
  else ({ s with forwardMap := Function.update s.forwardMap address.toNat none }, "success")

def read (s : Device) (address : ℤ) : String :=
  if address < 0 ∨ c.numLogicalPages ≤ address then "fail: illegal read address"
  else
    match s.forwardMap address.toNat with
    | none => "fail: uninitialized read"
    | some page => readDirect s page

def isLive (s : Device) (page : ℕ) : Bool :=
  match s.reverseMap page with
  | none => false
  | some logicalPage => s.forwardMap logicalPage = some page

def livePages (s : Device) (block : ℕ) : List ℕ := (pagesOf c block).filter (isLive s)

/-- `self.write(self.reverse_map[page], data)` for each live page; what the
write returns is not looked at. -/
def copyLive (s : Device) : List ℕ → Option Device
  | [] => some s
  | page :: rest =>
      let address : ℤ := match s.reverseMap page with
        | none => -1
        | some logicalPage => logicalPage
      (write c s address (physicalRead s page)).bind fun r => copyLive r.1 rest

/-- The three tests that make the collector pass over a block. -/
def passesOver (s : Device) (block : ℕ) : Prop :=
  block = s.currentBlock ∨ s.state (block * c.pagesPerBlock) = .erased ∨
    (livePages c s block).length = c.pagesPerBlock

instance (s : Device) (block : ℕ) : Decidable (passesOver c s block) :=
  inferInstanceAs (Decidable (_ ∨ _))

def collectBlocks (s : Device) : List ℕ → Option Device
  | [] => some s
  | block :: rest =>
      if passesOver c s block then collectBlocks s rest
      else
        (copyLive c s (livePages c s block)).bind fun s =>
          let s := physicalErase c s block
          if (blocksInUse c s : ℤ) ≤ c.lowWaterMark then
            some { s with gcCurrentBlock := block }
          else collectBlocks s rest

def garbageCollect (s : Device) : Option Device :=
  collectBlocks c s (blocksFrom c s.gcCurrentBlock)

def upkeep (s : Device) : Option Device :=
  if c.highWaterMark ≤ blocksInUse c s then garbageCollect c s else some s

/-- The commands of the main loop, already parsed. -/
inductive Cmd
  | read (address : ℤ)
  | write (address : ℤ) (data : String)
  | trim (address : ℤ)
deriving DecidableEq, Repr

/-- One command and what it returns; `none` is an uncaught exception. -/
def exec (s : Device) : Cmd → Option (Device × String)
  | .read address => some (s, read c s address)
  | .write address data => write c s address data
  | .trim address => some (trim c s address)

/-- The main loop: every command is followed by `upkeep`. -/
def runCmds (s : Device) : List Cmd → Option (Device × List String)
  | [] => some (s, [])
  | cmd :: rest =>
      (exec c s cmd).bind fun r =>
        (upkeep c r.1).bind fun s =>
          (runCmds s rest).map fun q => (q.1, r.2 :: q.2)

end OsLabs.Ssd
