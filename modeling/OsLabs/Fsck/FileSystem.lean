import Mathlib
import OsLabs.Vsfs.FileSystem

/-!
# The file system that is corrupted

The classes of `fsck.py`; their inodes and paths are those of `vsfs.py`. Outcomes of `random` are
arguments. In an entry the inode number `-1` is `none`, and the block at the address `-1` is the
last one.
-/

namespace OsLabs.Fsck

open Vsfs (Path FType Inode maxUsed lastName getParent choose fullName)

/-! ## Random choices -/

/-- `int(low + random.random() * (hi - low + 1))`. -/
def randomRandint (low hi random : ℕ) : ℕ := low + random % (hi - low + 1)

def randomChoice {α : Type} (L : List α) (random : ℕ) : Option α :=
  L[randomRandint 0 (L.length - 1) random]?

def makeName (random : ℕ) : Path := [Char.ofNat ('a'.toNat + randomRandint 0 25 random)]

/-! ## Bitmaps -/

structure Bitmap where
  size : ℕ
  bmap : ℕ → Bool
  numAllocated : ℤ

def Bitmap.init (size : ℕ) : Bitmap := ⟨size, fun _ => false, 0⟩

/-- The map is inverted. -/
def Bitmap.corrupt (b : Bitmap) (which : ℕ) : Option Bitmap :=
  if which < b.size then
    some { b with bmap := Function.update b.bmap which (!b.bmap which) }
  else none

def Bitmap.zeros (b : Bitmap) : List ℕ := (List.range b.size).filter fun num => !b.bmap num

/-- The loop draws until it meets a zero, so that it may stop at any of them. Without one it does
not end. -/
def Bitmap.findFree (b : Bitmap) (random : ℕ) : Option (Option ℕ) :=
  if b.numAllocated = b.size then some none
  else (b.zeros[random % b.zeros.length]?).map some

def Bitmap.alloc (b : Bitmap) (random : ℕ) : Option (Bitmap × Option ℕ) :=
  if b.numAllocated = b.size then some (b, none)
  else (b.zeros[random % b.zeros.length]?).map fun num =>
    ({ b with bmap := Function.update b.bmap num true, numAllocated := b.numAllocated + 1 },
      some num)

def Bitmap.free (b : Bitmap) (num : ℕ) : Option Bitmap :=
  if num < b.size ∧ b.bmap num = true then
    some { b with bmap := Function.update b.bmap num false, numAllocated := b.numAllocated - 1 }
  else none

def Bitmap.markAllocated (b : Bitmap) (num : ℕ) : Option Bitmap :=
  if num < b.size ∧ b.bmap num = false then
    some { b with bmap := Function.update b.bmap num true, numAllocated := b.numAllocated + 1 }
  else none

/-! ## Blocks -/

/-- A name and an inode number. -/
abbrev Entry := Path × Option ℕ

structure Block where
  ftype : FType
  dirUsed : ℤ
  dirList : List Entry
  data : List Char
deriving DecidableEq, Repr

def Block.init : Block := ⟨.free, 0, [], []⟩

def Block.setType (b : Block) (ftype : FType) : Option Block :=
  if b.ftype = .free then some { b with ftype } else none

def Block.addData (b : Block) (data : List Char) : Option Block :=
  if b.ftype = .f then some { b with data } else none

def Block.getFreeEntries (b : Block) : Option ℤ :=
  if b.ftype = .d then some (maxUsed - b.dirUsed) else none

def Block.addDirEntry (b : Block) (name : Path) (inum : ℕ) : Option Block :=
  if b.ftype = .d ∧ b.dirUsed + 1 ≤ maxUsed then
    some { b with dirList := b.dirList ++ [(name, some inum)], dirUsed := b.dirUsed + 1 }
  else none

def Block.delDirEntry (b : Block) (name : Path) : Option Block :=
  if b.ftype = .d ∧ b.dirList.any (fun e => e.1 = lastName name) then
    some { b with
      dirList := b.dirList.eraseP fun e => e.1 = lastName name
      dirUsed := b.dirUsed - 1 }
  else none

def Block.dirEntryExists (b : Block) (name : Path) : Option Bool :=
  if b.ftype = .d then some (b.dirList.any fun e => name = e.1) else none

def Block.setDirEntry (b : Block) (index : ℕ) (contents : Entry) : Option Block :=
  if index < b.dirList.length then some { b with dirList := b.dirList.set index contents } else none

def Block.free (b : Block) : Option Block :=
  if b.ftype = .free ∨ b.ftype = .d ∧ b.dirUsed ≠ 2 then none
  else some { b with ftype := .free, dirUsed := if b.ftype = .d then 0 else b.dirUsed, data := [] }

/-! ## The file system -/

/-- What is on disk. -/
structure Disk where
  numInodes : ℕ
  numData : ℕ
  ibitmap : Bitmap
  inodes : ℕ → Inode
  dbitmap : Bitmap
  data : ℕ → Block

/-- The disk and the lists of the workload generator. -/
structure Fs where
  disk : Disk
  files : List Path
  dirs : List Path
  nameToInum : Path → Option ℕ

def ROOT : ℕ := 0

def Disk.inode (s : Disk) (inum : ℕ) : Option Inode :=
  if inum < s.numInodes then some (s.inodes inum) else none

def Disk.block (s : Disk) (bnum : ℕ) : Option Block :=
  if bnum < s.numData then some (s.data bnum) else none

/-- The index of the block at an address. -/
def Disk.index (s : Disk) (addr : Option ℕ) : ℕ := addr.getD (s.numData - 1)

def Disk.setInode (s : Disk) (inum : ℕ) (i : Inode) : Disk :=
  { s with inodes := Function.update s.inodes inum i }

def Disk.setBlock (s : Disk) (bnum : ℕ) (b : Block) : Disk :=
  { s with data := Function.update s.data bnum b }

/-- A method call on an element of the list of inodes. -/
def Disk.onInode (s : Disk) (inum : ℕ) (method : Inode → Inode) : Option Disk :=
  (s.inode inum).map fun i => s.setInode inum (method i)

/-- A method call on an element of the list of blocks. -/
def Disk.onBlock (s : Disk) (bnum : ℕ) (method : Block → Option Block) : Option Disk :=
  (s.block bnum).bind fun b => (method b).map (s.setBlock bnum)

def inodeFree (s : Disk) (inum : ℕ) : Option Disk := do
  let ibitmap ← s.ibitmap.free inum
  Disk.onInode { s with ibitmap } inum Inode.free

def dataFree (s : Disk) (bnum : ℕ) : Option Disk := do
  let dbitmap ← s.dbitmap.free bnum
  Disk.onBlock { s with dbitmap } bnum Block.free

/-- The first half of `deleteFile`: the last link takes the file with it. -/
def dropLink (s : Disk) (inum : ℕ) (i : Inode) : Option Disk :=
  if i.refCnt = 1 then
    match i.addr with
    | none => inodeFree s inum
    | some dblock => (dataFree s dblock).bind fun s => inodeFree s inum
  else s.onInode inum Inode.decRefCnt

def deleteFile (s : Fs) (tfile : Path) : Option (Fs × ℤ) := do
  let inum ← s.nameToInum tfile
  let i ← s.disk.inode inum
  let disk ← dropLink s.disk inum i
  let pinum ← s.nameToInum (getParent tfile)
  let pinode ← disk.inode pinum
  let pblock := disk.index pinode.addr
  let disk ← disk.onInode pinum fun pinode => if i.ftype = .d then pinode.decRefCnt else pinode
  let disk ← disk.onBlock pblock fun b => b.delDirEntry tfile
  if s.files.contains tfile then return ({ s with disk, files := s.files.erase tfile }, 0) else none

/-- Is there no room in the directory, or the name taken? -/
def entryRefused (b : Block) (name : Path) : Option Bool := do
  let freeEntries ← b.getFreeEntries
  if freeEntries ≤ 0 then return true
  else b.dirEntryExists name

/-- The inode number, or `none` for `-1`. -/
def createLink (s : Fs) (target newfile parent : Path) : Option (Disk × Option ℕ) := do
  let parentInum ← s.nameToInum parent
  let pinode ← s.disk.inode parentInum
  let pblock := s.disk.index pinode.addr
  let b ← s.disk.block pblock
  let refused ← entryRefused b newfile
  if refused then return (s.disk, none)
  else
    let tinum ← s.nameToInum target
    let disk ← s.disk.onInode tinum Inode.incRefCnt
    let disk ← disk.onBlock pblock fun b => b.addDirEntry (lastName newfile) tinum
    return (disk, some tinum)

/-- The directory block of a new directory: the disk with the block, or `none` where there is none
left. -/
def newDirBlock (s : Disk) (inum parentInum random : ℕ) : Option (Option (Disk × ℕ)) := do
  match ← s.dbitmap.alloc random with
  | (_, none) => return none
  | (dbitmap, some fblock) =>
      let s ← Disk.onBlock { s with dbitmap } fblock fun b => b.setType .d
      let s ← s.onBlock fblock fun b => b.addDirEntry ['.'] inum
      let s ← s.onBlock fblock fun b => b.addDirEntry ['.', '.'] parentInum
      return some (s, fblock)

/-- The last part of `createFile`. -/
def initInode (s : Disk) (inum parentInum pblock : ℕ) (newfile : Path) (ftype : FType)
    (fblock : Option ℕ) (refCnt : ℤ) : Option (Disk × Option ℕ) := do
  let s ← s.onInode inum fun i => i.setAll ftype fblock refCnt
  let s ← s.onInode parentInum fun i => if ftype = .d then i.incRefCnt else i
  let s ← s.onBlock pblock fun b => b.addDirEntry newfile inum
  return (s, some inum)

def createFile (s : Fs) (parent newfile : Path) (ftype : FType) (r₁ r₂ : ℕ) :
    Option (Disk × Option ℕ) := do
  let parentInum ← s.nameToInum parent
  let pinode ← s.disk.inode parentInum
  let pblock := s.disk.index pinode.addr
  let b ← s.disk.block pblock
  let refused ← entryRefused b newfile
  if refused then return (s.disk, none)
  else
    match ← s.disk.ibitmap.alloc r₁ with
    | (_, none) => return (s.disk, none)
    | (ibitmap, some inum) =>
        let disk := { s.disk with ibitmap }
        if ftype = .d then
          match ← newDirBlock disk inum parentInum r₂ with
          | none => return (← inodeFree disk inum, none)
          | some (disk, fblock) =>
              initInode disk inum parentInum pblock newfile ftype (some fblock) 2
        else initInode disk inum parentInum pblock newfile ftype none 1

def writeFile (s : Fs) (tfile : Path) (data : List Char) (random : ℕ) : Option (Disk × ℤ) := do
  let inum ← s.nameToInum tfile
  let i ← s.disk.inode inum
  if i.addr.isSome then return (s.disk, -1)
  else
    match ← s.disk.dbitmap.alloc random with
    | (_, none) => return (s.disk, -1)
    | (dbitmap, some fblock) =>
        let disk ← Disk.onBlock { s.disk with dbitmap } fblock fun b => b.setType .f
        let disk ← disk.onBlock fblock fun b => b.addData data
        let disk ← disk.onInode inum fun i => i.setAddr fblock
        return (disk, 0)

/-! ## The workload generator -/

/-- Always the first file, as `int(random.random())` is 0. -/
def doDelete (s : Fs) : Option (Fs × ℤ) :=
  match s.files with
  | [] => some (s, -1)
  | dfile :: _ => deleteFile s dfile

def doLink (s : Fs) (r₁ r₂ r₃ : ℕ) : Option (Fs × ℤ) :=
  if s.files.length = 0 then some (s, -1)
  else do
    let parent ← choose s.dirs r₁
    let nfile := makeName r₂
    let target ← choose s.files r₃
    match ← createLink s target nfile parent with
    | (disk, none) => return ({ s with disk }, -1)
    | (disk, some inum) => return ({ s with
        disk
        files := s.files ++ [fullName parent nfile]
        nameToInum := Function.update s.nameToInum (fullName parent nfile) (some inum) }, 0)

def doCreate (s : Fs) (ftype : FType) (r₁ r₂ r₃ r₄ : ℕ) : Option (Fs × ℤ) := do
  let parent ← choose s.dirs r₁
  let nfile := makeName r₂
  match ← createFile s parent nfile ftype r₃ r₄ with
  | (disk, none) => return ({ s with disk }, -1)
  | (disk, some inum) => return ({ s with
      disk
      files := if ftype = .d then s.files else s.files ++ [fullName parent nfile]
      dirs := if ftype = .d then s.dirs ++ [fullName parent nfile] else s.dirs
      nameToInum := Function.update s.nameToInum (fullName parent nfile) (some inum) }, 0)

def doAppend (s : Fs) (r₁ r₂ r₃ : ℕ) : Option (Fs × ℤ) :=
  if s.files.length = 0 then some (s, -1)
  else do
    let afile ← choose s.files r₁
    let (disk, rc) ← writeFile s afile [Char.ofNat ('a'.toNat + r₂ % 26)] r₃
    return ({ s with disk }, rc)

/-- The constructor of `fs`. -/
def Fs.init (numInodes numData : ℕ) : Option Fs := do
  let ibitmap ← (Bitmap.init numInodes).markAllocated ROOT
  let dbitmap ← (Bitmap.init numData).markAllocated ROOT
  let disk : Disk := {
    numInodes
    numData
    ibitmap
    inodes := fun _ => Inode.init
    dbitmap
    data := fun _ => Block.init }
  let disk ← disk.onInode ROOT fun i => i.setAll .d (some 0) 2
  let disk ← disk.onBlock 0 fun b => b.setType .d
  let disk ← disk.onBlock 0 fun b => b.addDirEntry ['.'] ROOT
  let disk ← disk.onBlock 0 fun b => b.addDirEntry ['.', '.'] ROOT
  return {
    disk
    files := []
    dirs := [['/']]
    nameToInum := Function.update (fun _ => none) ['/'] (some ROOT) }

/-- The requests, with the outcomes of `random`. -/
inductive Act
  | create (r₁ r₂ r₃ r₄ : ℕ)
  | mkdir (r₁ r₂ r₃ r₄ : ℕ)
  | link (r₁ r₂ r₃ : ℕ)
  | append (r₁ r₂ r₃ : ℕ)
  | delete
deriving DecidableEq, Repr

def perform (s : Fs) : Act → Option (Fs × ℤ)
  | .create r₁ r₂ r₃ r₄ => doCreate s .f r₁ r₂ r₃ r₄
  | .mkdir r₁ r₂ r₃ r₄ => doCreate s .d r₁ r₂ r₃ r₄
  | .link r₁ r₂ r₃ => doLink s r₁ r₂ r₃
  | .append r₁ r₂ r₃ => doAppend s r₁ r₂ r₃
  | .delete => doDelete s

def step (s : Fs) (a : Act) : Option Fs := (perform s a).map Prod.fst

/-! ## Corruptions -/

def pickRandom (s : Disk) (ftype : FType) (random : ℕ) : Option ℕ :=
  randomChoice ((List.range s.numInodes).filter fun i => (s.inodes i).ftype = ftype) random

def findFreeData (s : Disk) (random : ℕ) : Option ℕ :=
  randomChoice ((List.range s.numData).filter fun b => (s.data b).ftype = .free) random

def corruptDataBitmap (s : Disk) (r : ℕ) : Option Disk :=
  (s.dbitmap.corrupt (randomRandint 0 (s.numData - 1) r)).map fun dbitmap => { s with dbitmap }

def corruptInodeBitmap (s : Disk) (r : ℕ) : Option Disk :=
  (s.ibitmap.corrupt (randomRandint 0 (s.numInodes - 1) r)).map fun ibitmap => { s with ibitmap }

def corruptRefCnt (s : Disk) (ftype : FType) (r₁ r₂ : ℕ) : Option Disk := do
  let badInode ← pickRandom s ftype r₁
  if randomRandint 0 1 r₂ = 0 then s.onInode badInode Inode.incRefCnt
  else s.onInode badInode Inode.decRefCnt

/-- A new fake inode. -/
def makeOrphan (s : Disk) (ftype : FType) (r : ℕ) : Option Disk := do
  let badInode ← pickRandom s .free r
  s.onInode badInode fun i => i.setAll ftype none 1

def pointToDeadBlock (s : Disk) (ftype : FType) (r₁ r₂ : ℕ) : Option Disk := do
  let badInode ← pickRandom s ftype r₁
  let badData ← findFreeData s r₂
  s.onInode badInode fun i => i.setAddr badData

def switchType (s : Disk) (ftype newType : FType) (r : ℕ) : Option Disk := do
  let badInode ← pickRandom s ftype r
  s.onInode badInode fun i => { i with ftype := newType }

/-- One tuple of a directory block is altered. -/
def alterEntry (s : Disk) (r₁ r₂ : ℕ) (alter : Entry → Option Entry) : Option Disk := do
  let badInode ← pickRandom s .d r₁
  let i ← s.inode badInode
  let addr := s.index i.addr
  let b ← s.block addr
  let badIndex := randomRandint 0 (b.dirList.length - 1) r₂
  let badEntry ← b.dirList[badIndex]?
  let contents ← alter badEntry
  s.onBlock addr fun b => b.setDirEntry badIndex contents

/-- It refers to a bad inode. -/
def referToBadInode (s : Disk) (r₁ r₂ r₃ : ℕ) : Option Disk :=
  alterEntry s r₁ r₂ fun badEntry =>
    (s.ibitmap.findFree r₃).map fun badInodeNum => (badEntry.1, badInodeNum)

/-- It refers to a different name. -/
def referToName (s : Disk) (r₁ r₂ r₃ : ℕ) : Option Disk :=
  alterEntry s r₁ r₂ fun badEntry => some (makeName r₃, badEntry.2)

/-- The corruption that is chosen. -/
def corruption (whichCorrupt : ℤ) (r : ℕ) : ℤ :=
  if whichCorrupt ≠ -1 then whichCorrupt else randomRandint 0 11 r

/-- Without a result where an assertion fails, a list is too short or there is no such
corruption. -/
def corrupt (s : Disk) (whichCorrupt : ℤ) (random : ℕ → ℕ) : Option Disk :=
  let num := corruption whichCorrupt (random 0)
  if num = 0 then corruptDataBitmap s (random 1)
  else if num = 1 then corruptInodeBitmap s (random 1)
  else if num = 2 then corruptRefCnt s .f (random 1) (random 2)
  else if num = 8 then corruptRefCnt s .d (random 1) (random 2)
  else if num = 3 then makeOrphan s .f (random 1)
  else if num = 9 then makeOrphan s .d (random 1)
  else if num = 4 then pointToDeadBlock s .f (random 1) (random 2)
  else if num = 10 then pointToDeadBlock s .d (random 1) (random 2)
  else if num = 5 then switchType s .f .d (random 1)
  else if num = 11 then switchType s .d .f (random 1)
  else if num = 6 then referToBadInode s (random 1) (random 2) (random 3)
  else if num = 7 then referToName s (random 1) (random 2) (random 3)
  else none

end OsLabs.Fsck
