import Mathlib

/-!
# The simulated fast file system

The class `file_system` of `ffs.py`. Strings are lists of characters, a
dictionary is a function or an association list, and `none` is an exception, an
`exit(1)` or a loop that has not ended within the given number of iterations.
-/

namespace OsLabs.Ffs

abbrev Path := List Char

inductive InodeType
  | regular
  | directory
  | cleared
deriving DecidableEq, Repr

/-- The options that shape allocation; the sizes are at least 1. -/
structure Config where
  num_groups : ℕ
  blocks_per_group : ℕ
  inodes_per_group : ℕ
  large_file_exception : ℤ
  spread_inodes : Bool
  contig_allocation_policy : ℤ
  spread_data_blocks : Bool
  allocate_faraway : ℤ
  groups_pos : 0 < num_groups
  blocks_pos : 0 < blocks_per_group
  inodes_pos : 0 < inodes_per_group

/-- A list of rows, by group and index; `none` is `BITMAP_FREE`. -/
abbrev Bitmap := ℕ → ℕ → Option ℤ

structure FileSystem where
  data_bitmap : Bitmap
  inode_bitmap : Bitmap
  total_data_free : ℤ
  total_inodes_free : ℤ
  dir_data : ℤ → Option (List (Path × ℤ))
  inode_type : ℤ → Option InodeType
  inode_blocks : ℤ → Option (List ℤ)
  name_to_inode_map : List (Path × ℤ)
  symbol_map : ℤ → Option Path
  used_symbols : List Path
  available_symbols : List Path

/-! ## Lists of the language -/

/-- The position a list index means; negative ones count from the end. -/
def listIndex (len : ℕ) (i : ℤ) : Option ℕ :=
  if 0 ≤ i then if i < len then some i.toNat else none
  else if 0 ≤ i + len then some (i + len).toNat
  else none

def Bitmap.get (rows cols : ℕ) (bitmap : Bitmap) (group index : ℤ) : Option (Option ℤ) := do
  let g ← listIndex rows group
  let i ← listIndex cols index
  return bitmap g i

def Bitmap.set (rows cols : ℕ) (bitmap : Bitmap) (group index : ℤ) (value : Option ℤ) :
    Option Bitmap := do
  let g ← listIndex rows group
  let i ← listIndex cols index
  return fun g' i' => if g' = g ∧ i' = i then value else bitmap g' i'

/-- `range(start, stop, step)`, which raises for a step of 0. -/
def range3 (start stop step : ℤ) : Option (List ℤ) :=
  if step = 0 then none
  else
    let count := if 0 < step then (stop - start + step - 1) / step
      else (start - stop - step - 1) / -step
    some ((List.range count.toNat).map fun (i : ℕ) => start + i * step)

def range (start stop : ℤ) : List ℤ :=
  (List.range (stop - start).toNat).map fun (i : ℕ) => start + i

/-- `str.rfind` for one character. -/
def rfind (path : Path) (ch : Char) : ℤ :=
  match path.reverse.findIdx? (· = ch) with
  | none => -1
  | some i => path.length - 1 - i

/-! ## Names and symbols -/

variable (c : Config)

def get_parent (path : Path) : Path × Path :=
  let index_of_last_slash := rfind path '/'
  if index_of_last_slash = 0 then (['/'], path.drop 1)
  else if index_of_last_slash = -1 then (path.dropLast, path)
  else (path.take index_of_last_slash.toNat, path.drop (index_of_last_slash + 1).toNat)

def name_to_inode (s : FileSystem) (path : Path) : ℤ :=
  (s.name_to_inode_map.lookup path).getD (-1)

def set_name_to_inode (s : FileSystem) (path : Path) (inode_num : ℤ) : Option FileSystem :=
  if (s.name_to_inode_map.lookup path).isSome then none
  else some { s with name_to_inode_map := s.name_to_inode_map ++ [(path, inode_num)] }

def symbols : List Path :=
  "abcdefghijklmnopqrstuvwxyzABCDEFGHIJKLMOPQRSTUVWXYZ0123456789!@#%^&*()[]\x7b\x7d/.<>|".toList.map
    fun ch => [ch]

def allocate_symbol (s : FileSystem) (inode_number : ℤ) (suggested_name : Path) :
    Option FileSystem :=
  let choice := if suggested_name ∉ s.used_symbols ∧ suggested_name ∈ s.available_symbols
    then some suggested_name else s.available_symbols.head?
  choice.map fun choice => { s with
    used_symbols := s.used_symbols ++ [choice]
    available_symbols := s.available_symbols.erase choice
    symbol_map := Function.update s.symbol_map inode_number (some choice) }

def free_symbol (s : FileSystem) (inode_number : ℤ) : Option FileSystem := do
  let symbol ← s.symbol_map inode_number
  if symbol ∈ s.used_symbols then
    some { s with
      symbol_map := Function.update s.symbol_map inode_number none
      used_symbols := s.used_symbols.erase symbol
      available_symbols := s.available_symbols ++ [symbol] }
  else none

/-! ## Choosing a group -/

def get_free_count (cols : ℕ) (row : ℕ → Option ℤ) : ℤ :=
  (List.range cols).countP fun i => row i = none

def get_free_inode_count (s : FileSystem) (group : ℤ) : Option ℤ := do
  let g ← listIndex c.num_groups group
  return get_free_count c.inodes_per_group (s.inode_bitmap g)

def get_free_data_count (s : FileSystem) (group : ℤ) : Option ℤ := do
  let g ← listIndex c.num_groups group
  return get_free_count c.blocks_per_group (s.data_bitmap g)

def find_free_inodes_in_range (s : FileSystem) (group how_many : ℤ) : Option ℤ :=
  (range group (group + how_many)).foldlM (fun sum_free g => do
    return sum_free + (← get_free_inode_count c s (g % c.num_groups))) 0

/-- One loop of `find_most_free_inodes_multiple`, over `free_inodes_max` and
`target_group`. -/
def mostFreeLoop (s : FileSystem) (how_many : ℤ) (groups : List ℤ) (best : ℤ × ℤ) :
    Option (ℤ × ℤ) :=
  groups.foldlM (fun best g => do
    let sum_free ← find_free_inodes_in_range c s g how_many
    return if sum_free > best.1 then (sum_free, g) else best) best

def find_most_free_inodes_multiple (s : FileSystem) (starting_point how_many : ℤ) :
    Option ℤ := do
  let best ← mostFreeLoop c s how_many (← range3 starting_point c.num_groups how_many) (0, -1)
  let best ← mostFreeLoop c s how_many (← range3 0 starting_point how_many) best
  if best.2 = -1 then none else some best.2

def nearLoop (s : FileSystem) : ℕ → ℕ → ℤ → ℤ → Option ℤ
  | 0, _, _, _ => some 1
  | k + 1, i, grower, shrinker => do
      let current_group := if i % 2 = 0 then grower else shrinker
      if 0 < (← get_free_inode_count c s current_group) then return current_group
      if i % 2 = 0 then nearLoop s k (i + 1) ((grower + 1) % c.num_groups) shrinker
      else nearLoop s k (i + 1) grower ((shrinker - 1) % c.num_groups)

def find_free_inodes_near (s : FileSystem) (target_group : ℤ) : Option ℤ :=
  nearLoop c s (c.num_groups - 1) 0 ((target_group + 1) % c.num_groups)
    ((target_group - 1) % c.num_groups)

def pick_group (s : FileSystem) (parent : Path) (type : InodeType) : Option ℤ :=
  if type = .regular ∧ c.spread_inodes = false then do
    let parent_inode_number := name_to_inode s parent
    let target_group := parent_inode_number.tdiv c.inodes_per_group
    let num_free_inodes ← get_free_inode_count c s target_group
    if num_free_inodes = 0 then find_free_inodes_near c s target_group else some target_group
  else if type = .directory ∨ c.spread_inodes = true then
    find_most_free_inodes_multiple c s 0 c.allocate_faraway
  else none

def find_min_data_usage (s : FileSystem) : Option ℤ := do
  let best ← (range 0 c.num_groups).foldlM (fun (best : ℤ × ℤ) g => do
    let data_free ← get_free_data_count c s g
    return if data_free > best.2 then (g, data_free) else best) (-1, 0)
  return best.1

/-- The index of the first free inode of the group, or `-1`. -/
def find_free_inode (s : FileSystem) (group : ℤ) : Option ℤ := do
  let g ← listIndex c.num_groups group
  return match (List.range c.inodes_per_group).find? fun i => s.inode_bitmap g i = none with
    | none => -1
    | some i => i

/-! ## Allocating data blocks -/

def range_free (bitmap : Bitmap) (group index needed chunks_free : ℤ) : Option Bool :=
  let chunks_free := if needed < chunks_free then needed else chunks_free
  let index_end := index + chunks_free - 1
  if index_end ≥ c.blocks_per_group then some false
  else (range index (index_end + 1)).foldlM (fun ok i =>
    if ok then do
      return (← bitmap.get c.num_groups c.blocks_per_group group i) = none
    else some false) true

/-- The variables of the loop of `allocate_blocks`. -/
structure Allocation where
  bitmap : Bitmap
  allocated : List (ℤ × ℤ)
  index : ℤ
  allocated_in_group : ℤ
  current_group : ℤ
  chunks_free : ℤ

/-- The first half of an iteration: take the block at `index` if it begins a
free range. -/
def Allocation.take (a : Allocation) (size inode_number : ℤ) : Option Allocation := do
  if ← range_free c a.bitmap a.current_group a.index (size - a.allocated.length) a.chunks_free then
    let entry ← a.bitmap.get c.num_groups c.blocks_per_group a.current_group a.index
    if entry = none then
      let bitmap ← a.bitmap.set c.num_groups c.blocks_per_group a.current_group a.index
        (some inode_number)
      return { a with
        bitmap
        allocated := a.allocated ++ [(a.current_group, a.index)]
        allocated_in_group := a.allocated_in_group + 1 }
    else none
  else return a

/-- The second half: go on to the next block or the next group. -/
def Allocation.advance (a : Allocation) (target_group : ℤ) : Allocation :=
  let index := a.index + 1
  if index = c.blocks_per_group ∨
      (c.large_file_exception > 0 ∧ a.allocated_in_group = c.large_file_exception) then
    let current_group := (a.current_group + 1) % c.num_groups
    { a with
      index := 0
      allocated_in_group := 0
      current_group
      chunks_free := if current_group = target_group then 1 else a.chunks_free }
  else { a with index }

def allocate_blocks_loop (target_group size inode_number : ℤ) :
    ℕ → Allocation → Option Allocation
  | 0, _ => none
  | fuel + 1, a => do
      let a ← a.take c size inode_number
      if a.allocated.length = size then return a
      else allocate_blocks_loop target_group size inode_number fuel (a.advance c target_group)

def allocate_blocks (fuel : ℕ) (s : FileSystem) (target_group size inode_number : ℤ) :
    Option (FileSystem × List (ℤ × ℤ)) :=
  if size ≤ s.total_data_free then do
    let a ← allocate_blocks_loop c target_group size inode_number fuel
      ⟨s.data_bitmap, [], 0, 0, target_group, c.contig_allocation_policy⟩
    return ({ s with data_bitmap := a.bitmap }, a.allocated)
  else none

/-! ## Creating and deleting -/

def mark_inode_used (s : FileSystem) (group inode_index : ℤ) : Option FileSystem := do
  let inode_bitmap ← s.inode_bitmap.set c.num_groups c.inodes_per_group group inode_index
    (some (inode_index + group * c.inodes_per_group))
  return { s with inode_bitmap }

/-- The checks of `do_create`: the inode of the parent, or `none` where it
returns `-1`. -/
def createParent (s : FileSystem) (path : Path) (size : ℤ) : Option (Option ℤ) :=
  let (parent, filename) := get_parent path
  if s.total_inodes_free = 0 then some none
  else if s.total_data_free < size then some none
  else
    let parent_inode_number := name_to_inode s parent
    if parent_inode_number = -1 then some none
    else do
      let entries ← s.dir_data parent_inode_number
      if entries.any fun entry => entry.1 = filename then return none
      else return some parent_inode_number

/-- What `do_create` does once the inode and the blocks are chosen. -/
def finishCreate (s : FileSystem) (path : Path) (size : ℤ) (type : InodeType)
    (parent_inode_number group inode_index : ℤ) (allocated : List (ℤ × ℤ)) :
    Option FileSystem := do
  let filename := (get_parent path).2
  let inode_number := inode_index + group * c.inodes_per_group
  let s ← mark_inode_used c s group inode_index
  let entries ← s.dir_data parent_inode_number
  let s := { s with
    dir_data := Function.update s.dir_data parent_inode_number
      (some (entries ++ [(filename, inode_number)]))
    inode_type := Function.update s.inode_type inode_number (some type)
    inode_blocks := Function.update s.inode_blocks inode_number
      (some (allocated.map fun block => block.2 + block.1 * c.blocks_per_group)) }
  let s ← set_name_to_inode s path inode_number
  let s ← allocate_symbol s inode_number filename
  return { s with
    dir_data := if type = .directory then
        Function.update s.dir_data inode_number (some [(['.'], 0), (['.', '.'], 0)])
      else s.dir_data
    total_inodes_free := s.total_inodes_free - 1
    total_data_free := s.total_data_free - size }

/-- The group that gets the data blocks. -/
def dataGroup (s : FileSystem) (group : ℤ) : Option ℤ :=
  if c.spread_data_blocks then find_min_data_usage c s else some group

def do_create (fuel : ℕ) (s : FileSystem) (path : Path) (size : ℤ) (type : InodeType) :
    Option (FileSystem × ℤ) := do
  match ← createParent s path size with
  | none => return (s, -1)
  | some parent_inode_number =>
      let group ← pick_group c s (get_parent path).1 type
      let inode_index ← find_free_inode c s group
      let inode_number := inode_index + group * c.inodes_per_group
      let dest_block_group ← dataGroup c s group
      let (s, allocated) ← allocate_blocks c fuel s dest_block_group size inode_number
      if allocated.length = 0 then return (s, -1)
      else
        let s ← finishCreate c s path size type parent_inode_number group inode_index allocated
        return (s, 0)

/-- The checks of `do_delete`: the inodes of the parent and of the file, or
`none` where it returns `-1`. -/
def deleteTarget (s : FileSystem) (path : Path) : Option (Option (ℤ × ℤ)) :=
  let (parent, filename) := get_parent path
  let parent_inode_number := name_to_inode s parent
  if parent_inode_number = -1 then some none
  else do
    let entries ← s.dir_data parent_inode_number
    match entries.find? fun entry => entry.1 = filename with
    | none => return none
    | some entry =>
        let type ← s.inode_type entry.2
        if type = .directory then return none
        else return some (parent_inode_number, entry.2)

def do_delete (s : FileSystem) (path : Path) : Option (FileSystem × ℤ) := do
  match ← deleteTarget s path with
  | none => return (s, -1)
  | some (parent_inode_number, inode_number) =>
      let filename := (get_parent path).2
      let entries ← s.dir_data parent_inode_number
      let blocks ← s.inode_blocks inode_number
      -- both conversions divide by the number of groups
      let data_bitmap ← blocks.foldlM (fun bitmap b =>
        bitmap.set c.num_groups c.blocks_per_group (b.tdiv c.num_groups) (b % c.num_groups) none)
        s.data_bitmap
      let inode_bitmap ← s.inode_bitmap.set c.num_groups c.inodes_per_group
        (inode_number.tdiv c.num_groups) (inode_number % c.num_groups) none
      let s ← free_symbol { s with
        dir_data := Function.update s.dir_data parent_inode_number
          (some (entries.erase (filename, inode_number)))
        data_bitmap
        inode_bitmap } inode_number
      if (s.name_to_inode_map.lookup path).isSome then
        return ({ s with
          name_to_inode_map := s.name_to_inode_map.filter fun entry => entry.1 ≠ path
          total_inodes_free := s.total_inodes_free + 1
          total_data_free := s.total_data_free + blocks.length
          inode_type := Function.update s.inode_type inode_number (some .cleared)
          inode_blocks := Function.update s.inode_blocks inode_number (some []) }, 0)
      else none

/-! ## Initial state and verification -/

def setBit (bitmap : Bitmap) (group index : ℕ) (value : Option ℤ) : Bitmap :=
  fun g i => if g = group ∧ i = index then value else bitmap g i

/-- `__init__`, with the root directory in inode 0 and block 0. -/
def FileSystem.init : FileSystem where
  data_bitmap := setBit (fun _ _ => none) 0 0 (some 0)
  inode_bitmap := setBit (fun _ _ => none) 0 0 (some 0)
  total_data_free := c.blocks_per_group * c.num_groups - 1
  total_inodes_free := c.inodes_per_group * c.num_groups - 1
  dir_data := Function.update (fun _ => none) 0 (some [(['.'], 0), (['.', '.'], 0)])
  inode_type := Function.update (fun _ => none) 0 (some .directory)
  inode_blocks := Function.update (fun _ => none) 0 (some [0])
  name_to_inode_map := [(['/'], 0)]
  symbol_map := Function.update (fun _ => none) 0 (some ['/'])
  used_symbols := [['/']]
  available_symbols := symbols.erase ['/']

/-- The entries of a bitmap in the order of the nested loops. -/
def positions (rows cols : ℕ) : List (ℕ × ℕ) :=
  (List.range rows).flatMap fun g => (List.range cols).map fun i => (g, i)

def numUsed (rows cols : ℕ) (bitmap : Bitmap) : ℤ :=
  (positions rows cols).countP fun p => bitmap p.1 p.2 ≠ none

/-- Do the assertions of `do_verify` hold? -/
def do_verify (s : FileSystem) : Bool :=
  numUsed c.num_groups c.blocks_per_group s.data_bitmap + s.total_data_free =
      c.num_groups * c.blocks_per_group &&
    numUsed c.num_groups c.inodes_per_group s.inode_bitmap + s.total_inodes_free =
      c.num_groups * c.inodes_per_group &&
    s.name_to_inode_map.all fun entry =>
      match s.inode_blocks entry.2 with
      | none => false
      | some blocks => blocks.all fun b =>
          s.data_bitmap.get c.num_groups c.blocks_per_group (b.tdiv c.blocks_per_group)
            (b % c.blocks_per_group) = some (some entry.2)

/-- The operations; `create` and `mkdir` come with the number of iterations
their allocation may take. -/
inductive Act
  | create (path : Path) (size : ℤ) (fuel : ℕ)
  | mkdir (path : Path) (fuel : ℕ)
  | delete (path : Path)
deriving DecidableEq, Repr

def step (s : FileSystem) : Act → Option FileSystem
  | .create path size fuel => (do_create c fuel s path size .regular).map Prod.fst
  | .mkdir path fuel => (do_create c fuel s path 1 .directory).map Prod.fst
  | .delete path => (do_delete c s path).map Prod.fst

end OsLabs.Ffs
