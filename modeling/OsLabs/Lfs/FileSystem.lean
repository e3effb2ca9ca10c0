import Mathlib

/-!
# The log-structured file system

The class `LFS` of `lfs.py`. A number that is `-1` for "none" is an option, and
so is what a function returns that may raise an exception. The state an
exception leaves behind is kept.
-/

namespace OsLabs.Lfs

abbrev Path := List Char

def addrCheckpointBlock : ℕ := 0

def numImapPtrsInCr : ℕ := 16

def numInodesPerImapChunk : ℕ := 16

def numInodePtrs : ℕ := 8

def numInodes : ℕ := numImapPtrsInCr * numInodesPerImapChunk

def rootInode : ℕ := 0

inductive InodeType
  | dir
  | reg
deriving DecidableEq, Repr

structure Inode where
  type : InodeType
  size : ℕ
  refs : ℤ
  pointers : List (Option ℕ)
deriving DecidableEq, Repr

/-- An entry of a directory block; a free one is `('-', -1)`. -/
abbrev Slot := Path × Option ℕ

inductive Block
  | checkpoint (entries : List (Option ℕ))
  | dir (entries : List Slot)
  | data (contents : List Char)
  | inode (inode : Inode)
  | imap (entries : List (Option ℕ))
deriving DecidableEq, Repr

inductive Policy
  | sequential
  | random
deriving DecidableEq, Repr

structure Config where
  useDiskCr : Bool
  noForceCheckpoints : Bool
  inodePolicy : Policy

structure LFS where
  disk : List Block
  cr : List (Option ℕ)
  inodeMap : ℕ → Option ℕ

/-! ## Blocks -/

def makeInode (itype : InodeType) (size : ℕ) (refs : ℤ) : Inode :=
  ⟨itype, size, refs, List.replicate numInodePtrs none⟩

def noEntry : Slot := (['-'], none)

def makeEmptyDirblock : List Slot := List.replicate 8 noEntry

def makeNewDirblock (parentInum currentInum : ℕ) : List Slot :=
  (makeEmptyDirblock.set 0 (['.'], some currentInum)).set 1 (['.', '.'], some parentInum)

def makeImapChunk (s : LFS) (cnum : ℕ) : Block :=
  .imap ((List.range numInodesPerImapChunk).map fun i =>
    s.inodeMap (cnum * numInodesPerImapChunk + i))

/-- The contents for the outcomes of `random`. -/
def makeRandomBlocks (num : ℤ) (random : List ℕ) : List (List Char) :=
  (List.range num.toNat).map fun i =>
    let letter := Char.ofNat ('a'.toNat + random.getD i 0 % 26)
    (List.replicate 16 (letter :: (toString i).toList)).flatten

def inumToChunk (inum : ℕ) : ℕ := inum / numInodesPerImapChunk

/-! ## The log -/

def LFS.log (s : LFS) (block : Block) : LFS × ℕ :=
  ({ s with disk := s.disk ++ [block] }, s.disk.length)

def LFS.remap (s : LFS) (inodeNumber inodeAddress : ℕ) : LFS :=
  { s with inodeMap := Function.update s.inodeMap inodeNumber (some inodeAddress) }

/-- The checkpoint region is the one block that is overwritten. -/
def LFS.crSync (s : LFS) : LFS :=
  { s with disk := s.disk.set addrCheckpointBlock (.checkpoint s.cr) }

/-- At the end of an operation. -/
def LFS.sync (c : Config) (s : LFS) : LFS := if c.noForceCheckpoints then s else s.crSync

/-- One piece of the imap is logged. -/
def LFS.logChunk (s : LFS) (cnum : ℕ) : LFS :=
  let (s, address) := s.log (makeImapChunk s cnum)
  { s with cr := s.cr.set cnum (some address) }

def updateImapFrom (s : LFS) (chunkList : List ℕ) : List ℕ → LFS
  | [] => s
  | inum :: inumList =>
      let cnum := inumToChunk inum
      if cnum ∈ chunkList then updateImapFrom s chunkList inumList
      else updateImapFrom (s.logChunk cnum) (cnum :: chunkList) inumList

def LFS.updateImap (s : LFS) (inumList : List ℕ) : LFS := updateImapFrom s [] inumList

def LFS.freeInodes (s : LFS) : List ℕ :=
  (List.range numInodes).filter fun i => (s.inodeMap i).isNone

/-- The random policy draws until it meets a free inode, so that the loop may
stop at any of them. -/
def LFS.allocateInode (c : Config) (s : LFS) (random : ℕ) : Option ℕ :=
  match c.inodePolicy with
  | .sequential => s.freeInodes.head?
  | .random => s.freeInodes[random % s.freeInodes.length]?

/-- The temporary holder until the location on disk is filled in. -/
def LFS.hold (s : LFS) (inum : ℕ) : LFS :=
  { s with inodeMap := Function.update s.inodeMap inum (some 1) }

def LFS.freeInode (s : LFS) (inum : ℕ) : Option LFS :=
  if s.inodeMap inum = none then none
  else some { s with inodeMap := Function.update s.inodeMap inum none }

/-- `self.disk[address]`, where `-1` is the last block. -/
def blockAt (disk : List Block) : Option ℕ → Option Block
  | none => disk.getLast?
  | some address => disk[address]?

def imapEntry (block : Option Block) (offset : ℕ) : Option (Option ℕ) :=
  match block with
  | some (.imap entries) => entries[offset]?
  | _ => none

def inodeAt (disk : List Block) (address : Option ℕ) : Option Inode :=
  match address with
  | none => none
  | some address =>
      match disk[address]? with
      | some (.inode inode) => some inode
      | _ => none

/-- The address by the checkpoint region and its imap piece on disk. -/
def diskPathAddress (s : LFS) (imapEntryIndex imapEntryOffset : ℕ) : Option (Option ℕ) :=
  match s.disk[addrCheckpointBlock]? with
  | some (.checkpoint entries) =>
      entries[imapEntryIndex]?.bind fun imapBlockAddress =>
        imapEntry (blockAt s.disk imapBlockAddress) imapEntryOffset
  | _ => none

def getInodeFromInumber (c : Config) (s : LFS) (inodeNumber : ℕ) : Option Inode := do
  let imapEntryIndex := inodeNumber / numInodesPerImapChunk
  let imapEntryOffset := inodeNumber % numInodesPerImapChunk
  let inodeAddress ←
    if c.useDiskCr then diskPathAddress s imapEntryIndex imapEntryOffset
    else if inodeNumber < numInodes then some (s.inodeMap inodeNumber)
    else none
  inodeAt s.disk inodeAddress

/-! ## Paths -/

/-- The entry number for a name in the blocks at some addresses. -/
def lookupFrom (disk : List Block) (name : Path) : List (Option ℕ) → Option (Option ℕ)
  | [] => some none
  | none :: pointers => lookupFrom disk name pointers
  | some address :: pointers =>
      match disk[address]? with
      | some (.dir entries) =>
          match entries.find? fun e => e.1 = name with
          | some e => some e.2
          | none => lookupFrom disk name pointers
      | _ => none

def lookup (c : Config) (s : LFS) (parentInodeNumber : ℕ) (name : Path) :
    Option (Option ℕ × Inode) := do
  let parentInode ← getInodeFromInumber c s parentInodeNumber
  if parentInode.type = .dir then
    let inodeNumber ← lookupFrom s.disk name parentInode.pointers
    return (inodeNumber, parentInode)
  else none

/-- What `__walk_path` returns; on an error the parent is `none`. -/
structure Walk where
  inodeNumber : Option ℕ
  fileName : Path
  parent : Option (ℕ × Inode)
deriving DecidableEq, Repr

def Walk.error : Walk := ⟨none, [], none⟩

/-- The loop over the directories of the path. -/
def walkDirs (c : Config) (s : LFS) : ℕ → List Path → Option (Option ℕ)
  | parentInodeNumber, [] => some (some parentInodeNumber)
  | parentInodeNumber, name :: names => do
      let (inodeNumber, inode) ← lookup c s parentInodeNumber name
      match inodeNumber with
      | none => return none
      | some inodeNumber =>
          if inode.type = .dir then walkDirs c s inodeNumber names else return none

def walkPath (c : Config) (s : LFS) (path : Path) : Option Walk := do
  let splitPath := path.splitOn '/'
  if splitPath.head? = some [] then
    match ← walkDirs c s rootInode splitPath.tail.dropLast with
    | none => return Walk.error
    | some parentInodeNumber => do
        let fileName := splitPath.getLastD []
        let (inodeNumber, parentInode) ← lookup c s parentInodeNumber fileName
        return ⟨inodeNumber, fileName, some (parentInodeNumber, parentInode)⟩
  else return Walk.error

/-! ## Entries of directories -/

def readDirblock (disk : List Block) (inode : Inode) (index : ℕ) : Option Block :=
  inode.pointers[index]?.bind (blockAt disk)

def findSlotFrom (disk : List Block) (name : Path) (inode : Inode) :
    List ℕ → Option (Option (ℕ × ℕ))
  | [] => some none
  | index :: indices =>
      match readDirblock disk inode index with
      | some (.dir entries) =>
          match entries.findIdx? fun e => e.1 = name with
          | some slot => some (some (index, slot))
          | none => findSlotFrom disk name inode indices
      | _ => none

/-- The index of the block and that of the slot, or `none` for `-1, -1`. -/
def findMatchingDirSlot (disk : List Block) (name : Path) (inode : Inode) :
    Option (Option (ℕ × ℕ)) :=
  findSlotFrom disk name inode (List.range inode.size)

/-- The pointer to update, the size of the parent and the new directory block,
or `none` where the directory is full. -/
def addDirEntry (disk : List Block) (parentInode : Inode) (fileName : Path) (inodeNumber : ℕ) :
    Option (Option (ℕ × ℕ × List Slot)) := do
  match ← findMatchingDirSlot disk ['-'] parentInode with
  | some (inodeIndex, dirblockIndex) =>
      match readDirblock disk parentInode inodeIndex with
      | some (.dir entries) =>
          return some (inodeIndex, parentInode.size,
            entries.set dirblockIndex (fileName, some inodeNumber))
      | _ => none
  | none =>
      if parentInode.size ≠ numInodePtrs then
        return some (parentInode.size, parentInode.size + 1,
          makeEmptyDirblock.set 0 (fileName, some inodeNumber))
      else return none

/-! ## Operations

Each returns the new state and the return code; there is no return code when an
exception is raised. -/

/-- The last part of `__file_create`: everything is logged. -/
def logCreate (c : Config) (s : LFS) (isFile : Bool) (parentInodeNumber newInodeNumber : ℕ)
    (parentInode : Inode) (indexToUpdate parentSize : ℕ) (newDirectoryBlock : List Slot) : LFS :=
  let (s, newDirectoryBlockAddress) := s.log (.dir newDirectoryBlock)
  let newParentInode := { parentInode with
    size := parentSize
    refs := if isFile then parentInode.refs else parentInode.refs + 1
    pointers := parentInode.pointers.set indexToUpdate (some newDirectoryBlockAddress) }
  let (s, newInode) :=
    if isFile then (s, makeInode .reg 0 1)
    else
      let (s, newDirblockAddress) := s.log (.dir (makeNewDirblock parentInodeNumber newInodeNumber))
      let newInode := makeInode .dir 1 2
      (s, { newInode with pointers := newInode.pointers.set 0 (some newDirblockAddress) })
  let (s, newParentInodeAddress) := s.log (.inode newParentInode)
  let (s, newInodeAddress) := s.log (.inode newInode)
  let s := s.remap parentInodeNumber newParentInodeAddress
  let s := s.remap newInodeNumber newInodeAddress
  (s.updateImap [parentInodeNumber, newInodeNumber]).sync c

def fileCreate (c : Config) (s : LFS) (path : Path) (isFile : Bool) (random : ℕ) :
    LFS × Option ℤ :=
  match walkPath c s path with
  | none => (s, none)
  | some ⟨some _, _, _⟩ => (s, some (-1))
  | some ⟨none, _, none⟩ => (s, some (-1))
  | some ⟨none, fileName, some (parentInodeNumber, parentInode)⟩ =>
      match s.allocateInode c random with
      | none => (s, some (-1))
      | some newInodeNumber =>
          let s := s.hold newInodeNumber
          match addDirEntry s.disk parentInode fileName newInodeNumber with
          | none => (s, none)
          | some none =>
              match s.freeInode newInodeNumber with
              | none => (s, none)
              | some s => (s, some (-1))
          | some (some (indexToUpdate, parentSize, newDirectoryBlock)) =>
              (logCreate c s isFile parentInodeNumber newInodeNumber parentInode indexToUpdate
                parentSize newDirectoryBlock, some 0)

/-- The last part of `file_link`. -/
def logLink (c : Config) (s : LFS) (srcInodeNumber : ℕ) (srcInode : Inode)
    (dstParentInodeNumber : ℕ) (dstParentInode : Inode) (dstIndexToUpdate dstParentSize : ℕ)
    (newDirectoryBlock : List Slot) : LFS :=
  let (s, newDirectoryBlockAddress) := s.log (.dir newDirectoryBlock)
  let newDstParentInode := { dstParentInode with
    size := dstParentSize
    pointers := dstParentInode.pointers.set dstIndexToUpdate (some newDirectoryBlockAddress) }
  let (s, newDstParentInodeAddress) := s.log (.inode newDstParentInode)
  let newSrcInode := { srcInode with refs := srcInode.refs + 1 }
  let (s, newSrcInodeAddress) := s.log (.inode newSrcInode)
  let s := s.remap dstParentInodeNumber newDstParentInodeAddress
  let s := s.remap srcInodeNumber newSrcInodeAddress
  (s.updateImap [dstParentInodeNumber]).sync c

def fileLink (c : Config) (s : LFS) (srcpath dstpath : Path) : LFS × Option ℤ :=
  match walkPath c s srcpath with
  | none => (s, none)
  | some ⟨none, _, _⟩ => (s, some (-1))
  | some ⟨some srcInodeNumber, _, _⟩ =>
      match getInodeFromInumber c s srcInodeNumber with
      | none => (s, none)
      | some srcInode =>
          if srcInode.type ≠ .reg then (s, some (-1))
          else
            match walkPath c s dstpath with
            | none => (s, none)
            | some ⟨some _, _, _⟩ => (s, some (-1))
            -- the parent is the empty string, which has no size
            | some ⟨none, _, none⟩ => (s, none)
            | some ⟨none, dstFileName, some (dstParentInodeNumber, dstParentInode)⟩ =>
                match addDirEntry s.disk dstParentInode dstFileName srcInodeNumber with
                | none => (s, none)
                | some none => (s, some (-1))
                | some (some (dstIndexToUpdate, dstParentSize, newDirectoryBlock)) =>
                    (logLink c s srcInodeNumber srcInode dstParentInodeNumber dstParentInode
                      dstIndexToUpdate dstParentSize newDirectoryBlock, some 0)

/-- The write list and the offset after it. -/
def potentialWrites (currentOffset currentLogPtr : ℕ) : List (List Char) → List (ℕ × ℕ) × ℕ
  | [] => ([], currentOffset)
  | _ :: contents =>
      if currentOffset < numInodePtrs then
        let (writes, offset) := potentialWrites (currentOffset + 1) (currentLogPtr + 1) contents
        ((currentOffset, currentLogPtr) :: writes, offset)
      else ([], currentOffset)

def setPointers (pointers : List (Option ℕ)) : List (ℕ × ℕ) → List (Option ℕ)
  | [] => pointers
  | (newOffset, newAddr) :: writes => setPointers (pointers.set newOffset (some newAddr)) writes

/-- The last part of `file_write`. -/
def logWrite (c : Config) (s : LFS) (inodeNumber : ℕ) (inode : Inode) (offset : ℕ)
    (contents : List (List Char)) : LFS × ℤ :=
  let (writes, currentOffset) := potentialWrites offset s.disk.length contents
  let s := { s with disk := s.disk ++ (contents.take writes.length).map Block.data }
  let newInode := { inode with
    size := max currentOffset inode.size
    pointers := setPointers inode.pointers writes }
  let (s, newInodeAddress) := s.log (.inode newInode)
  let s := s.remap inodeNumber newInodeAddress
  ((s.logChunk (inumToChunk inodeNumber)).sync c, (currentOffset : ℤ) - offset)

def fileWrite (c : Config) (s : LFS) (path : Path) (offset numBlks : ℤ) (random : List ℕ) :
    LFS × Option ℤ :=
  let contents := makeRandomBlocks numBlks random
  match walkPath c s path with
  | none => (s, none)
  | some ⟨none, _, _⟩ => (s, some (-1))
  | some ⟨some inodeNumber, _, _⟩ =>
      match getInodeFromInumber c s inodeNumber with
      | none => (s, none)
      | some inode =>
          if inode.type ≠ .reg then (s, some (-1))
          else if offset < 0 ∨ offset ≥ numInodePtrs then (s, some (-1))
          else
            let (s, written) := logWrite c s inodeNumber inode offset.toNat contents
            (s, some written)

/-- The last part of `file_delete`, after the inode may be freed. -/
def logDelete (c : Config) (s : LFS) (inodeNumber : ℕ) (inode : Inode) (parentInodeNumber : ℕ)
    (parentInode : Inode) (inodeIndex : ℕ) (newDirectoryBlock : List Slot) : LFS :=
  let (s, dirAddr) := s.log (.dir newDirectoryBlock)
  let newParentInode := { parentInode with
    pointers := parentInode.pointers.set inodeIndex (some dirAddr) }
  let (s, newParentInodeAddr) := s.log (.inode newParentInode)
  let s := s.remap parentInodeNumber newParentInodeAddr
  let s :=
    if inode.refs > 1 then
      let (s, newInodeAddr) := s.log (.inode { inode with refs := inode.refs - 1 })
      s.remap inodeNumber newInodeAddr
    else s
  (s.updateImap [inodeNumber, parentInodeNumber]).sync c

def fileDelete (c : Config) (s : LFS) (path : Path) : LFS × Option ℤ :=
  match walkPath c s path with
  | none => (s, none)
  | some ⟨none, _, _⟩ => (s, some (-1))
  | some ⟨some _, _, none⟩ => (s, none)
  | some ⟨some inodeNumber, fileName, some (parentInodeNumber, parentInode)⟩ =>
      match getInodeFromInumber c s inodeNumber with
      | none => (s, none)
      | some inode =>
          if inode.type ≠ .reg then (s, some (-1))
          else
            match if inode.refs = 1 then s.freeInode inodeNumber else some s with
            | none => (s, none)
            | some s =>
                match findMatchingDirSlot s.disk fileName parentInode with
                | none => (s, none)
                | some none => (s, none)
                | some (some (inodeIndex, dirblockIndex)) =>
                    match readDirblock s.disk parentInode inodeIndex with
                    | some (.dir entries) =>
                        (logDelete c s inodeNumber inode parentInodeNumber parentInode inodeIndex
                          (entries.set dirblockIndex noEntry), some 0)
                    | _ => (s, none)

/-! ## Runs -/

/-- The constructor. -/
def LFS.init : LFS :=
  let s : LFS := ⟨[], some 3 :: List.replicate 15 none, fun _ => none⟩
  let (s, _) := s.log (.checkpoint s.cr)
  let (s, _) := s.log (.dir (makeNewDirblock rootInode rootInode))
  let root := makeInode .dir 1 2
  let root := { root with pointers := root.pointers.set 0 (some 1) }
  let (s, rootInodeAddress) := s.log (.inode root)
  let s := s.remap rootInode rootInodeAddress
  (s.log (makeImapChunk s rootInode)).1

/-- The calls, with the outcomes of `random`. -/
inductive Act
  | create (path : Path) (random : ℕ)
  | mkdir (path : Path) (random : ℕ)
  | link (srcpath dstpath : Path)
  | write (path : Path) (offset numBlks : ℤ) (random : List ℕ)
  | delete (path : Path)
deriving DecidableEq, Repr

def perform (c : Config) (s : LFS) : Act → LFS × Option ℤ
  | .create path random => fileCreate c s path true random
  | .mkdir path random => fileCreate c s path false random
  | .link srcpath dstpath => fileLink c s srcpath dstpath
  | .write path offset numBlks random => fileWrite c s path offset numBlks random
  | .delete path => fileDelete c s path

def step (c : Config) (s : LFS) (a : Act) : Option LFS := some (perform c s a).1

end OsLabs.Lfs
