import Mathlib

/-!
# Multi-level page tables

`paging-multilevel-translate.py`: page directories, page tables and data pages
share one physical memory. A draw is what `random.random()` gives next; its
remainder stands for `int(random.random() * n)`.
-/

namespace OsLabs.Multilevel

def pageSize : ℕ := 32

def pageBits : ℕ := 5

def vaPages : ℕ := 1024

def maxPageCount : ℕ := 128

def PDE_MASK : ℕ := 0x7c00

def PDE_SHIFT : ℕ := 10

def PTE_MASK : ℕ := 0x03e0

def PTE_SHIFT : ℕ := 5

def OFFSET_MASK : ℕ := 0x1f

inductive Failure
  /-- `assert(self.usedPagesCount < self.maxPageCount)` -/
  | exhausted
  /-- The assertions on page table entries, or on `used`. -/
  | assertion
  /-- There is no page directory for the process. -/
  | keyError
  /-- No more draws: a loop that looks for a free page is still looking. -/
  | undecided
deriving DecidableEq, Repr

structure OS where
  usedPages : ℕ → Bool
  usedPagesCount : ℕ
  memory : ℕ → ℕ
  pdbr : ℕ → Option ℕ
  random : List ℕ

def OS.new (random : List ℕ) : OS :=
  ⟨fun _ => false, 0, fun _ => 0, fun _ => none, random⟩

/-- `int(random.random() * n)`, again while it is taken. -/
def drawUntil (n : ℕ) (taken : ℕ → Bool) : List ℕ → Except Failure (ℕ × List ℕ)
  | [] => .error .undecided
  | d :: ds => if taken (d % n) then drawUntil n taken ds else .ok (d % n, ds)

def findFree (os : OS) : Except Failure (ℕ × OS) :=
  if os.usedPagesCount < maxPageCount then do
    let (look, random) ← drawUntil maxPageCount os.usedPages os.random
    return (look, { os with
      random
      usedPagesCount := os.usedPagesCount + 1
      usedPages := Function.update os.usedPages look true })
  else .error .exhausted

def initPageDir (memory : ℕ → ℕ) (whichPage : ℕ) : ℕ → ℕ :=
  (List.range pageSize).foldl
    (fun memory i => Function.update memory ((whichPage <<< pageBits) + i) 0x7f) memory

def initPageTablePage (memory : ℕ → ℕ) (whichPage : ℕ) : ℕ → ℕ := initPageDir memory whichPage

/-- `(valid, pfn, pteAddr)` -/
def getPageTableEntry (os : OS) (virtualAddr ptePage : ℕ) : ℕ × ℕ × ℕ :=
  let pteBits := (virtualAddr &&& PTE_MASK) >>> PTE_SHIFT
  let pteAddr := (ptePage <<< pageBits) ||| pteBits
  let pte := os.memory pteAddr
  ((pte &&& 0x80) >>> 7, pte &&& 0x7f, pteAddr)

/-- `(valid, ptPtr, pdeAddr)` -/
def getPageDirEntry (os : OS) (pid virtualAddr : ℕ) : Except Failure (ℕ × ℕ × ℕ) :=
  match os.pdbr pid with
  | none => .error .keyError
  | some pageDir =>
      let pdeBits := (virtualAddr &&& PDE_MASK) >>> PDE_SHIFT
      let pdeAddr := (pageDir <<< pageBits) ||| pdeBits
      let pde := os.memory pdeAddr
      .ok ((pde &&& 0x80) >>> 7, pde &&& 0x7f, pdeAddr)

def setEntry (memory : ℕ → ℕ) (addr physicalPage : ℕ) : ℕ → ℕ :=
  Function.update memory addr (0x80 ||| physicalPage)

def check (condition : Bool) : Except Failure Unit :=
  if condition then .ok () else .error .assertion

/-- A page of the page table for the virtual address, which is allocated if it is
not there. -/
def findPageTable (os : OS) (pid virtualAddr : ℕ) : Except Failure (ℕ × OS) := do
  let (valid, ptPtr, pdeAddr) ← getPageDirEntry os pid virtualAddr
  if valid = 0 then do
    check (ptPtr = 127)
    let (ptePage, os) ← findFree os
    let memory := initPageTablePage (setEntry os.memory pdeAddr ptePage) ptePage
    return (ptePage, { os with memory })
  else return (ptPtr, os)

def allocVirtualPage (os : OS) (pid virtualPage physicalPage : ℕ) : Except Failure OS := do
  let virtualAddr := virtualPage <<< pageBits
  let (ptePage, os) ← findPageTable os pid virtualAddr
  let (valid, pfn, pteAddr) := getPageTableEntry os virtualAddr ptePage
  check (valid = 0)
  check (pfn = 127)
  return { os with memory := setEntry os.memory pteAddr physicalPage }

def translate (os : OS) (pid virtualAddr : ℕ) : Except Failure ℤ := do
  let (valid, ptPtr, _) ← getPageDirEntry os pid virtualAddr
  if valid = 1 then
    let (valid, pfn, _) := getPageTableEntry os virtualAddr ptPtr
    if valid = 1 then return ((pfn <<< pageBits) ||| (virtualAddr &&& OFFSET_MASK) : ℕ)
    else return -2
  else return -1

def fillByte (whichPage : ℕ) (os : OS) (j : ℕ) : Except Failure OS := do
  let (value, random) ← drawUntil 31 (fun _ => false) os.random
  return { os with
    random
    memory := Function.update os.memory (whichPage * pageSize + j) value }

def fillPage (os : OS) (whichPage : ℕ) : Except Failure OS :=
  (List.range pageSize).foldlM (fillByte whichPage) os

/-- The loop of `procAlloc`, with `numPages` iterations ahead. Each of the virtual pages
in `allocatedVPs` stands beside the page `pp` that has been found for it. -/
def allocPages (pid : ℕ) :
    ℕ → OS → (ℕ → Bool) → List (ℕ × ℕ) → Except Failure (List (ℕ × ℕ) × OS)
  | 0, os, _, allocatedVPs => .ok (allocatedVPs, os)
  | numPages + 1, os, used, allocatedVPs => do
      let (vp, random) ← drawUntil vaPages used os.random
      check (used vp = false)
      let (pp, os) ← findFree { os with random }
      let os ← allocVirtualPage os pid vp pp
      let os ← fillPage os pp
      allocPages pid numPages os (Function.update used vp true) (allocatedVPs ++ [(vp, pp)])

def procAlloc (os : OS) (pid numPages : ℕ) : Except Failure (List (ℕ × ℕ) × OS) := do
  let (pageDir, os) ← findFree os
  allocPages pid numPages { os with
    pdbr := Function.update os.pdbr pid (some pageDir)
    memory := initPageDir os.memory pageDir } (fun _ => false) []

/-- One call of `procAlloc` after the other, with the pid and the number of pages,
and what the calls return. -/
def procAllocs : OS → List (ℕ × ℕ) → Except Failure (List (ℕ × List (ℕ × ℕ)) × OS)
  | os, [] => .ok ([], os)
  | os, (pid, numPages) :: calls => do
      let (allocatedVPs, os) ← procAlloc os pid numPages
      let (results, os) ← procAllocs os calls
      return ((pid, allocatedVPs) :: results, os)

end OsLabs.Multilevel
