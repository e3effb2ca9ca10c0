import Mathlib
import OsLabs.FileRaid.Layout

/-!
# Requests at RAID levels 4 and 5

A write is carried out one stripe at a time. The blocks that are read before
are those the new parity is computed from.
-/

namespace OsLabs.FileRaid

inductive Access
  | read (disk off : ℕ)
  | write (disk off : ℕ)
deriving DecidableEq, Repr

def Access.place : Access → ℕ × ℕ
  | .read disk off => (disk, off)
  | .write disk off => (disk, off)

def Access.isRead : Access → Bool
  | .read _ _ => true
  | .write _ _ => false

def doSingleRead (p : ℕ × ℕ) : Access := .read p.1 p.2

def doSingleWrite (p : ℕ × ℕ) : Access := .write p.1 p.2

/-- `range(begin, stop)` -/
def blocks (begin stop : ℕ) : List ℕ := List.range' begin (stop - begin)

def addOff (offList : List ℕ) (off : ℕ) : List ℕ :=
  if off ∈ offList then offList else offList ++ [off]

/-- The offsets of the places, each once. -/
def offList (places : List (ℕ × ℕ)) : List ℕ := (places.map Prod.snd).foldl addOff []

/-- The blocks of one disk at these offsets. -/
def onDisk (disk : ℕ) (offs : List ℕ) : List (ℕ × ℕ) := offs.map fun off => (disk, off)

/-- The accesses of one call of `doPartialWrite`. -/
structure Part where
  stripe : ℕ
  begin : ℕ
  stop : ℕ
  reads : List Access
  writes : List Access
deriving DecidableEq, Repr

def Part.accesses (p : Part) : List Access := p.reads ++ p.writes

namespace Raid

variable (r : Raid)

/-- The mappings `enqueue45` chooses; a level without any has no other use of it. -/
def maps : Option ((ℕ → Option (ℕ × ℕ)) × (ℕ → Option ℕ)) :=
  match r.level with
  | .raid4 => some (fun b => some (r.bmap4 b), fun s => some (r.pmap4 s))
  | .raid5 raid5type => some (r.bmap5 raid5type, r.pmap5 raid5type)
  | _ => none

/-- Which parity method is chosen for so many writes in a stripe. -/
def choosesSubtractive (numWrites : ℕ) : Prop := numWrites + 1 ≤ r.blocksInStripe - numWrites

instance (numWrites : ℕ) : Decidable (r.choosesSubtractive numWrites) :=
  inferInstanceAs (Decidable (_ ≤ _))

/-- The old data and the old parity. -/
def subtractiveReads (pdisk begin stop : ℕ) (bmap : ℕ → Option (ℕ × ℕ)) : Option (List Access) := do
  let places ← (blocks begin stop).mapM bmap
  some ((places ++ onDisk pdisk (offList places)).map doSingleRead)

/-- The blocks of the stripe that are not overwritten. -/
def additiveReads (stripe begin stop : ℕ) (bmap : ℕ → Option (ℕ × ℕ)) : Option (List Access) := do
  let stripeBegin := stripe * r.blocksInStripe
  let stripeEnd := stripeBegin + r.blocksInStripe
  let places ← (blocks stripeBegin begin ++ blocks stop stripeEnd).mapM bmap
  some (places.map doSingleRead)

def doPartialWrite (stripe begin stop : ℕ) (bmap : ℕ → Option (ℕ × ℕ)) (pmap : ℕ → Option ℕ) :
    Option Part := do
  let numWrites := stop - begin
  let pdisk ← pmap stripe
  let reads ← (if r.choosesSubtractive numWrites then subtractiveReads pdisk begin stop bmap
    else r.additiveReads stripe begin stop bmap : Option (List Access))
  let places ← (blocks begin stop).mapM bmap
  let writes := (places ++ onDisk pdisk (offList places)).map doSingleWrite
  some { stripe, begin, stop, reads, writes }

end Raid

/-- The variables of the loop over the stripes, and what has been done. -/
structure WriteLoop where
  left : ℕ
  begin : ℕ
  parts : List Part

namespace Raid

variable (r : Raid)

/-- Where the part of a stripe ends. -/
def partEnd (left begin stripe : ℕ) : ℕ :=
  let endOfStripe := stripe * r.blocksInStripe + r.blocksInStripe
  let stop := if left ≥ r.blocksInStripe then begin + r.blocksInStripe else begin + left
  if stop ≥ endOfStripe then endOfStripe else stop

def writeStripe (bmap : ℕ → Option (ℕ × ℕ)) (pmap : ℕ → Option ℕ) (s : WriteLoop) (stripe : ℕ) :
    Option WriteLoop := do
  let stop := r.partEnd s.left s.begin stripe
  let part ← r.doPartialWrite stripe s.begin stop bmap pmap
  some { left := s.left - (stop - s.begin), begin := stop, parts := s.parts ++ [part] }

/-- The parts of a write request. -/
def writeParts (addr size : ℕ) : Option (List Part) := do
  let (bmap, pmap) ← r.maps
  let initStripe := addr / r.blocksInStripe
  let finalStripe := (addr + size - 1) / r.blocksInStripe
  let s ← (blocks initStripe (finalStripe + 1)).foldlM (r.writeStripe bmap pmap) ⟨size, addr, []⟩
  some s.parts

/-- The accesses to the disks that a request leads to. -/
def requests45 (addr size : ℕ) (isWrite : Bool) : Option (List Access) :=
  if isWrite = false then do
    let (bmap, _) ← r.maps
    let places ← (blocks addr (addr + size)).mapM bmap
    some (places.map doSingleRead)
  else do
    let parts ← r.writeParts addr size
    some (parts.flatMap Part.accesses)

def blocksPerDisk : ℕ := 100 * 100

/-- The disk exists and its assertion that the block is on it holds. -/
def diskAccepts (a : Access) : Prop := a.place.1 < r.numDisks ∧ a.place.2 < blocksPerDisk

instance (a : Access) : Decidable (r.diskAccepts a) := inferInstanceAs (Decidable (_ ∧ _))

/-- The request stops at the first access that a disk does not accept. -/
def enqueue45 (addr size : ℕ) (isWrite : Bool) : Option (List Access) := do
  let accesses ← r.requests45 addr size isWrite
  if ∀ a ∈ accesses, r.diskAccepts a then some accesses else none

end Raid

end OsLabs.FileRaid
