import Mathlib

/-!
# The very simple file system

The classes of `vsfs.py`. A method that may fail an assertion, miss a key or
leave a list returns an `Option`; the numbers that are `-1` for "none" are
options as well.
-/

namespace OsLabs.Vsfs

abbrev Path := List Char

inductive FType
  | d
  | f
  | free
deriving DecidableEq, Repr

/-! ## Bitmaps -/

structure Bitmap where
  size : ℕ
  bmap : ℕ → Bool
  numAllocated : ℤ

def Bitmap.init (size : ℕ) : Bitmap := ⟨size, fun _ => false, 0⟩

def Bitmap.alloc (b : Bitmap) : Bitmap × Option ℕ :=
  match (List.range b.size).find? fun num => !b.bmap num with
  | none => (b, none)
  | some num =>
      ({ b with bmap := Function.update b.bmap num true, numAllocated := b.numAllocated + 1 },
        some num)

def Bitmap.free (b : Bitmap) (num : ℕ) : Option Bitmap :=
  if num < b.size ∧ b.bmap num = true then
    some { b with bmap := Function.update b.bmap num false, numAllocated := b.numAllocated - 1 }
  else none

def Bitmap.markAllocated (b : Bitmap) (num : ℕ) : Option Bitmap :=
  if num < b.size ∧ b.bmap num = false then
    some { b with bmap := Function.update b.bmap num true, numAllocated := b.numAllocated + 1 }
  else none

/-! ## Blocks -/

structure Block where
  ftype : FType
  dirUsed : ℤ
  dirList : List (Path × ℕ)
  data : List Char
deriving DecidableEq, Repr

def maxUsed : ℤ := 32

def Block.init : Block := ⟨.free, 0, [], []⟩

def Block.setType (b : Block) (ftype : FType) : Option Block :=
  if b.ftype = .free then some { b with ftype } else none

def Block.addData (b : Block) (data : List Char) : Option Block :=
  if b.ftype = .f then some { b with data } else none

def Block.getFreeEntries (b : Block) : Option ℤ :=
  if b.ftype = .d then some (maxUsed - b.dirUsed) else none

def Block.addDirEntry (b : Block) (name : Path) (inum : ℕ) : Option Block :=
  if b.ftype = .d ∧ b.dirUsed + 1 ≤ maxUsed then
    some { b with dirList := b.dirList ++ [(name, inum)], dirUsed := b.dirUsed + 1 }
  else none

/-- The last component of a path. -/
def lastName (name : Path) : Path := (name.splitOn '/').getLastD []

def Block.delDirEntry (b : Block) (name : Path) : Option Block :=
  if b.ftype = .d ∧ b.dirList.any (fun e => e.1 = lastName name) then
    some { b with
      dirList := b.dirList.eraseP fun e => e.1 = lastName name
      dirUsed := b.dirUsed - 1 }
  else none

def Block.dirEntryExists (b : Block) (name : Path) : Option Bool :=
  if b.ftype = .d then some (b.dirList.any fun e => name = e.1) else none

def Block.free (b : Block) : Option Block :=
  if b.ftype = .free ∨ b.ftype = .d ∧ b.dirUsed ≠ 2 then none
  else some { b with ftype := .free, dirUsed := if b.ftype = .d then 0 else b.dirUsed, data := [] }

/-! ## Inodes -/

structure Inode where
  ftype : FType
  addr : Option ℕ
  refCnt : ℤ
deriving DecidableEq, Repr

def Inode.init : Inode := ⟨.free, none, 1⟩

def Inode.setAll (_ : Inode) (ftype : FType) (addr : Option ℕ) (refCnt : ℤ) : Inode :=
  ⟨ftype, addr, refCnt⟩

def Inode.incRefCnt (i : Inode) : Inode := { i with refCnt := i.refCnt + 1 }

def Inode.decRefCnt (i : Inode) : Inode := { i with refCnt := i.refCnt - 1 }

def Inode.setAddr (i : Inode) (addr : ℕ) : Inode := { i with addr := some addr }

def Inode.free (i : Inode) : Inode := { i with ftype := .free, addr := none }

/-! ## The file system -/

/-- What the file system keeps on disk. -/
structure Disk where
  numInodes : ℕ
  numData : ℕ
  ibitmap : Bitmap
  inodes : ℕ → Inode
  dbitmap : Bitmap
  data : ℕ → Block

/-- The disk and the lists of the workload generator. -/
structure Fs where
  disk : Disk
  files : List Path
  dirs : List Path
  nameToInum : Path → Option ℕ

def Disk.inode (s : Disk) (inum : ℕ) : Option Inode :=
  if inum < s.numInodes then some (s.inodes inum) else none

def Disk.block (s : Disk) (bnum : ℕ) : Option Block :=
  if bnum < s.numData then some (s.data bnum) else none

def Disk.setInode (s : Disk) (inum : ℕ) (i : Inode) : Disk :=
  { s with inodes := Function.update s.inodes inum i }

def Disk.setBlock (s : Disk) (bnum : ℕ) (b : Block) : Disk :=
  { s with data := Function.update s.data bnum b }

/-- A method call on an element of the list of inodes. -/
def Disk.onInode (s : Disk) (inum : ℕ) (method : Inode → Inode) : Option Disk :=
  (s.inode inum).map fun i => s.setInode inum (method i)

/-- A method call on an element of the list of blocks. -/
def Disk.onBlock (s : Disk) (bnum : ℕ) (method : Block → Option Block) : Option Disk :=
  (s.block bnum).bind fun b => (method b).map (s.setBlock bnum)

def inodeFree (s : Disk) (inum : ℕ) : Option Disk := do
  let ibitmap ← s.ibitmap.free inum
  Disk.onInode { s with ibitmap } inum Inode.free

def dataFree (s : Disk) (bnum : ℕ) : Option Disk := do
  let dbitmap ← s.dbitmap.free bnum
  Disk.onBlock { s with dbitmap } bnum Block.free

def getParent (name : Path) : Path :=
  let tmp := name.splitOn '/'
  if tmp.length = 2 then ['/']
  else tmp.tail.dropLast.foldl (fun pname c => pname ++ '/' :: c) []

/-- The first half of `deleteFile`: the last link takes the file with it. -/
def dropLink (s : Disk) (inum : ℕ) (i : Inode) : Option Disk :=
  if i.refCnt = 1 then
    match i.addr with
    | none => inodeFree s inum
    | some dblock => (dataFree s dblock).bind fun s => inodeFree s inum
  else s.onInode inum Inode.decRefCnt

def deleteFile (s : Fs) (tfile : Path) : Option (Fs × ℤ) := do
  let inum ← s.nameToInum tfile
  let i ← s.disk.inode inum
  let disk ← dropLink s.disk inum i
  let pinum ← s.nameToInum (getParent tfile)
  let pinode ← disk.inode pinum
  let pblock ← pinode.addr
  let disk ← disk.onInode pinum fun pinode => if i.ftype = .d then pinode.decRefCnt else pinode
  let disk ← disk.onBlock pblock fun b => b.delDirEntry tfile
  if s.files.contains tfile then return ({ s with disk, files := s.files.erase tfile }, 0) else none

/-- Is there no room in the directory, or the name taken? -/
def entryRefused (b : Block) (name : Path) : Option Bool := do
  let freeEntries ← b.getFreeEntries
  if freeEntries ≤ 0 then return true
  else b.dirEntryExists name

/-- The inode number, or `none` for `-1`. -/
def createLink (s : Fs) (target newfile parent : Path) : Option (Disk × Option ℕ) := do
  let parentInum ← s.nameToInum parent
  let pinode ← s.disk.inode parentInum
  let pblock ← pinode.addr
  let b ← s.disk.block pblock
  let refused ← entryRefused b newfile
  if refused then return (s.disk, none)
  else
    let tinum ← s.nameToInum target
    let disk ← s.disk.onInode tinum Inode.incRefCnt
    let disk ← disk.onBlock pblock fun b => b.addDirEntry (lastName newfile) tinum
    return (disk, some tinum)

/-- The directory block of a new directory: the disk with the block, or `none`
where there is none left. -/
def newDirBlock (s : Disk) (inum parentInum : ℕ) : Option (Option (Disk × ℕ)) :=
  match s.dbitmap.alloc with
  | (_, none) => some none
  | (dbitmap, some fblock) => do
      let s ← Disk.onBlock { s with dbitmap } fblock fun b => b.setType .d
      let s ← s.onBlock fblock fun b => b.addDirEntry ['.'] inum
      let s ← s.onBlock fblock fun b => b.addDirEntry ['.', '.'] parentInum
      return some (s, fblock)

/-- The last part of `createFile`. -/
def initInode (s : Disk) (inum parentInum pblock : ℕ) (newfile : Path) (ftype : FType)
    (fblock : Option ℕ) (refCnt : ℤ) : Option (Disk × Option ℕ) := do
  let s ← s.onInode inum fun i => i.setAll ftype fblock refCnt
  let s ← s.onInode parentInum fun i => if ftype = .d then i.incRefCnt else i
  let s ← s.onBlock pblock fun b => b.addDirEntry newfile inum
  return (s, some inum)

def createFile (s : Fs) (parent newfile : Path) (ftype : FType) :
    Option (Disk × Option ℕ) := do
  let parentInum ← s.nameToInum parent
  let pinode ← s.disk.inode parentInum
  let pblock ← pinode.addr
  let b ← s.disk.block pblock
  let refused ← entryRefused b newfile
  if refused then return (s.disk, none)
  else
    match s.disk.ibitmap.alloc with
    | (_, none) => return (s.disk, none)
    | (ibitmap, some inum) =>
        let disk := { s.disk with ibitmap }
        if ftype = .d then
          match ← newDirBlock disk inum parentInum with
          | none => return (← inodeFree disk inum, none)
          | some (disk, fblock) =>
              initInode disk inum parentInum pblock newfile ftype (some fblock) 2
        else initInode disk inum parentInum pblock newfile ftype none 1

def writeFile (s : Fs) (tfile : Path) (data : List Char) : Option (Disk × ℤ) := do
  let inum ← s.nameToInum tfile
  let i ← s.disk.inode inum
  if i.addr.isSome then return (s.disk, -1)
  else
    match s.disk.dbitmap.alloc with
    | (_, none) => return (s.disk, -1)
    | (dbitmap, some fblock) =>
        let disk ← Disk.onBlock { s.disk with dbitmap } fblock fun b => b.setType .f
        let disk ← disk.onBlock fblock fun b => b.addData data
        let disk ← disk.onInode inum fun i => i.setAddr fblock
        return (disk, 0)

/-! ## The workload generator -/

/-- The names `makeName` picks from. -/
def nameChars : List Path :=
  [['a'], ['b'], ['c'], ['d'], ['e'], ['f'], ['g'], ['h'], ['j'], ['k'], ['m'], ['n'], ['o'],
    ['p'], ['q'], ['r'], ['s'], ['t'], ['u'], ['v'], ['w'], ['x'], ['y'], ['z']]

/-- `list[int(random.random() * len(list))]`, for any outcome of `random`. -/
def choose (list : List Path) (random : ℕ) : Option Path := list[random % list.length]?

def fullName (parent nfile : Path) : Path :=
  if parent = ['/'] then parent ++ nfile else parent ++ '/' :: nfile

def doDelete (s : Fs) (r : ℕ) : Option (Fs × ℤ) :=
  if s.files.length = 0 then some (s, -1)
  else do
    let dfile ← choose s.files r
    deleteFile s dfile

def doLink (s : Fs) (r₁ r₂ r₃ : ℕ) : Option (Fs × ℤ) :=
  if s.files.length = 0 then some (s, -1)
  else do
    let parent ← choose s.dirs r₁
    let nfile ← choose nameChars r₂
    let target ← choose s.files r₃
    match ← createLink s target nfile parent with
    | (disk, none) => return ({ s with disk }, -1)
    | (disk, some inum) => return ({ s with
        disk
        files := s.files ++ [fullName parent nfile]
        nameToInum := Function.update s.nameToInum (fullName parent nfile) (some inum) }, 0)

def doCreate (s : Fs) (ftype : FType) (r₁ r₂ : ℕ) : Option (Fs × ℤ) := do
  let parent ← choose s.dirs r₁
  let nfile ← choose nameChars r₂
  match ← createFile s parent nfile ftype with
  | (disk, none) => return ({ s with disk }, -1)
  | (disk, some inum) => return ({ s with
      disk
      files := if ftype = .d then s.files else s.files ++ [fullName parent nfile]
      dirs := if ftype = .d then s.dirs ++ [fullName parent nfile] else s.dirs
      nameToInum := Function.update s.nameToInum (fullName parent nfile) (some inum) }, 0)

def doAppend (s : Fs) (r₁ r₂ : ℕ) : Option (Fs × ℤ) :=
  if s.files.length = 0 then some (s, -1)
  else do
    let afile ← choose s.files r₁
    let (disk, rc) ← writeFile s afile [Char.ofNat ('a'.toNat + r₂ % 26)]
    return ({ s with disk }, rc)

/-- The constructor of `fs`. -/
def Fs.init (numInodes numData : ℕ) : Option Fs := do
  let ibitmap ← (Bitmap.init numInodes).markAllocated 0
  let dbitmap ← (Bitmap.init numData).markAllocated 0
  let disk : Disk := {
    numInodes
    numData
    ibitmap
    inodes := fun _ => Inode.init
    dbitmap
    data := fun _ => Block.init }
  let disk ← disk.onInode 0 fun i => i.setAll .d (some 0) 2
  let disk ← disk.onBlock 0 fun b => b.setType .d
  let disk ← disk.onBlock 0 fun b => b.addDirEntry ['.'] 0
  let disk ← disk.onBlock 0 fun b => b.addDirEntry ['.', '.'] 0
  return {
    disk
    files := []
    dirs := [['/']]
    nameToInum := Function.update (fun _ => none) ['/'] (some 0) }

/-- The requests, with the outcomes of `random`. -/
inductive Act
  | create (r₁ r₂ : ℕ)
  | mkdir (r₁ r₂ : ℕ)
  | link (r₁ r₂ r₃ : ℕ)
  | append (r₁ r₂ : ℕ)
  | delete (r : ℕ)
deriving DecidableEq, Repr

def perform (s : Fs) : Act → Option (Fs × ℤ)
  | .create r₁ r₂ => doCreate s .f r₁ r₂
  | .mkdir r₁ r₂ => doCreate s .d r₁ r₂
  | .link r₁ r₂ r₃ => doLink s r₁ r₂ r₃
  | .append r₁ r₂ => doAppend s r₁ r₂
  | .delete r => doDelete s r

def step (s : Fs) (a : Act) : Option Fs := (perform s a).map Prod.fst

end OsLabs.Vsfs
