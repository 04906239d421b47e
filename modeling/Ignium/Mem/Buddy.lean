import Ignium.Lib.Blocks

/-!
# The buddy allocator

The physical page allocator of `kernel/src/mem.rs`. A free block keeps the index of the next
free block of its order in its first word, so the free lists live in `ram`, and every page has
a two-byte record `PageMeta` that the code only keeps up to date for block heads.

An operation returns `none` when the code panics: the asserts of `pop` and `unlink`, or a list
walk that visits more nodes than there are pages and so never ends. The `debug_assert!` lines
are not part of the model.
-/

namespace Ignium.Mem

/-- The size of a physical page in bytes. -/
def pageSize : Nat := 4096

/-- The largest block order. -/
def maxOrder : Nat := 12

/-- The end marker of a free list, `usize::MAX`. -/
def freeNone : Nat := 2 ^ 64 - 1

/-- The capacity of the page record array. -/
def maxPages : Nat := 128 * 1024 * 1024 / pageSize

/-- The record of one page: the order of the block it heads and whether that block is
allocated. -/
structure PageMeta where
  order : Nat
  used : Bool
  deriving DecidableEq, Repr

/-- The allocator together with the two memories behind its raw pointers: the page records and
the physical words `ram`, addressed by byte address. -/
structure BuddyAllocator where
  base : Nat
  realCount : Nat
  pageCount : Nat
  pageMeta : Nat → PageMeta
  freeLists : Nat → Nat
  ram : Nat → Nat

namespace BuddyAllocator

/-- The static `ALLOCATOR` before `init`, over memory with arbitrary contents. -/
def uninit (ram : Nat → Nat) : BuddyAllocator where
  base := 0
  realCount := 0
  pageCount := 0
  pageMeta := fun _ => ⟨0, false⟩
  freeLists := fun _ => freeNone
  ram := ram

/-- The physical address of a page. -/
def blockAddr (a : BuddyAllocator) (idx : Nat) : Nat := a.base + idx * pageSize

/-- The page of a physical address. -/
def blockIndex (a : BuddyAllocator) (addr : Nat) : Nat := (addr - a.base) / pageSize

/-- A word of physical memory changes, by the hand of whoever holds the page. -/
def store (a : BuddyAllocator) (addr value : Nat) : BuddyAllocator :=
  { a with ram := Function.update a.ram addr value }

/-- Overwrite the record of one page. -/
def setMeta (a : BuddyAllocator) (idx order : Nat) (used : Bool) : BuddyAllocator :=
  { a with pageMeta := Function.update a.pageMeta idx ⟨order, used⟩ }

/-- The index stored in the first word of a page. -/
def next (a : BuddyAllocator) (idx : Nat) : Nat := a.ram (a.blockAddr idx)

/-- Write the first word of a page. -/
def setNext (a : BuddyAllocator) (idx value : Nat) : BuddyAllocator :=
  { a with ram := Function.update a.ram (a.blockAddr idx) value }

/-- Overwrite the head of one free list. -/
def setHead (a : BuddyAllocator) (order value : Nat) : BuddyAllocator :=
  { a with freeLists := Function.update a.freeLists order value }

/-- Put a block at the front of the free list of its order. -/
def push (a : BuddyAllocator) (idx order : Nat) : BuddyAllocator :=
  ((a.setNext idx (a.freeLists order)).setHead order idx).setMeta idx order false

/-- Take the first block off the free list of an order. -/
def pop (a : BuddyAllocator) (order : Nat) : Option (Option Nat × BuddyAllocator) :=
  let head := a.freeLists order
  if head = freeNone then some (none, a)
  else if head < a.pageCount then some (some head, a.setHead order (a.next head))
  else none

/-! ## Initialisation -/

/-- The scan of the reserved intervals for the block `[s, e)`: whether some interval contains
it, and whether an interval listed before that one overlaps it. The scan stops at the first
interval that contains the block. -/
def scan (s e : Nat) : List (Nat × Nat) → Bool → Bool × Bool
  | [], overlapAny => (false, overlapAny)
  | (rs, re) :: rest, overlapAny =>
    if s ≥ rs ∧ e ≤ re then (true, overlapAny)
    else scan s e rest (overlapAny || decide (e > rs ∧ s < re))

/-- Build the free lists below one block, leaving out reserved pages. A block that is split has
more than one page: a single page lies below `realCount` as soon as it starts there, and it is
inside every interval it overlaps. -/
def carve (reserved : List (Nat × Nat)) (order : Nat) (a : BuddyAllocator) (idx : Nat) :
    BuddyAllocator :=
  let halves : BuddyAllocator :=
    match order with
    | 0 => a
    | order + 1 => carve reserved order (carve reserved order a idx) (idx + 2 ^ order)
  if idx ≥ a.realCount then a
  else if idx + 2 ^ order > a.realCount then halves
  else
    let (insideAny, overlapAny) := scan idx (idx + 2 ^ order) reserved false
    if !overlapAny then a.push idx order
    else if insideAny then a.setMeta idx 255 true
    else halves

/-- Carve every block of the largest order, from `idx` on. -/
def carveAll (reserved : List (Nat × Nat)) (count idx : Nat) (a : BuddyAllocator) :
    BuddyAllocator :=
  if idx < count then
    carveAll reserved count (idx + 2 ^ maxOrder) (carve reserved maxOrder a idx)
  else a
termination_by count - idx
decreasing_by
  have := Nat.two_pow_pos maxOrder
  omega

/-- Put the blocks of the largest order from `idx` on into their free list, and return the
first page they leave over. -/
def pushWhole (count idx : Nat) (a : BuddyAllocator) : Nat × BuddyAllocator :=
  if idx + 2 ^ maxOrder ≤ count then
    pushWhole count (idx + 2 ^ maxOrder) (a.push idx maxOrder)
  else (idx, a)
termination_by count - idx
decreasing_by
  have := Nat.two_pow_pos maxOrder
  omega

/-- Put the pages from `idx` to the end into free lists, the largest blocks first. -/
def pushTail (count idx : Nat) (a : BuddyAllocator) : BuddyAllocator :=
  if idx < count then
    let order := min (count - idx).log2 maxOrder
    pushTail count (idx + 2 ^ order) (a.push idx order)
  else a
termination_by count - idx
decreasing_by
  have := Nat.two_pow_pos (min (count - idx).log2 maxOrder)
  omega

/-- Record the region, mark the padding pages as used for ever and build the free lists. The
free lists are empty before: `init` runs once, on the static allocator. -/
def init (a : BuddyAllocator) (base count : Nat) (reserved : List (Nat × Nat)) :
    BuddyAllocator :=
  let orderSize := 2 ^ maxOrder
  let padded := (count + orderSize - 1) / orderSize * orderSize
  let a : BuddyAllocator :=
    { a with
      base := base
      realCount := count
      pageCount := padded
      pageMeta := fun i =>
        if i < padded then
          if count ≤ i then ⟨maxOrder, true⟩ else ⟨0, false⟩
        else a.pageMeta i }
  if reserved.isEmpty then
    let (idx, a) := pushWhole count 0 a
    pushTail count idx a
  else carveAll reserved count 0 a

/-! ## Allocation -/

/-- Pop a block of order `o` or of the next order that has one, trying `orders` orders. -/
def findBlock : Nat → Nat → BuddyAllocator → Option (Option (Nat × Nat) × BuddyAllocator)
  | 0, _, a => some (none, a)
  | orders + 1, o, a => do
      let (head, a) ← a.pop o
      match head with
      | some idx => some (some (idx, o), a)
      | none => findBlock orders (o + 1) a

/-- Split a block of order `cur` down to `order`, returning each upper half to its free
list. -/
def splitDown (order idx : Nat) : Nat → BuddyAllocator → BuddyAllocator
  | 0, a => a
  | cur + 1, a =>
    if cur + 1 > order then splitDown order idx cur (a.push (idx + 2 ^ cur) cur) else a

/-- Allocate a block of the given order and return its address. -/
def alloc (a : BuddyAllocator) (order : Nat) : Option (Option Nat × BuddyAllocator) :=
  if order > maxOrder then some (none, a)
  else do
    let (found, a) ← findBlock (maxOrder + 1 - order) order a
    match found with
    | none => some (none, a)
    | some (idx, cur) =>
      let a := splitDown order idx cur a
      let a := a.setMeta idx order true
      some (some (a.blockAddr idx), a)

/-! ## Release -/

/-- Walk a free list from `cur` and take `target` out of it. -/
def unlinkFrom (target order : Nat) : Nat → Nat → Nat → BuddyAllocator → Option BuddyAllocator
  | 0, _, _, _ => none
  | steps + 1, prev, cur, a =>
    if cur = freeNone then some a
    else if cur < a.pageCount then
      if cur = target then
        if prev = freeNone then some (a.setHead order (a.next cur))
        else some (a.setNext prev (a.next cur))
      else unlinkFrom target order steps cur (a.next cur) a
    else none

/-- Take a block out of the free list of its order. -/
def unlink (a : BuddyAllocator) (target order : Nat) : Option BuddyAllocator :=
  unlinkFrom target order (a.pageCount + 1) freeNone (a.freeLists order) a

/-- Merge a block with its buddy as long as the buddy is a free block of the same order. -/
def mergeUp : Nat → Nat → Nat → BuddyAllocator → Option (Nat × Nat × BuddyAllocator)
  | 0, idx, order, a => some (idx, order, a)
  | orders + 1, idx, order, a =>
    let buddy := idx ^^^ 2 ^ order
    if buddy + 2 ^ order > a.pageCount then some (idx, order, a)
    else if (a.pageMeta buddy).used || (a.pageMeta buddy).order != order then
      some (idx, order, a)
    else do
      let a ← a.unlink buddy order
      mergeUp orders (min idx buddy) (order + 1) a

/-- Release the block at an address. -/
def free (a : BuddyAllocator) (addr : Nat) : Option (Except Unit Unit × BuddyAllocator) :=
  if addr < a.base ∨ addr ≥ a.base + a.realCount * pageSize ∨ addr % pageSize ≠ 0 then
    some (.error (), a)
  else
    let idx := a.blockIndex addr
    let order := (a.pageMeta idx).order
    if order > maxOrder ∨ (a.pageMeta idx).used = false then some (.error (), a)
    else if idx % 2 ^ order ≠ 0 then some (.error (), a)
    else do
      let (idx, order, a) ← mergeUp (maxOrder - order) idx order a
      some (.ok (), a.push idx order)

/-! ## Queries -/

/-- Add up the pages of one free list from `cur` on. -/
def countFrom (a : BuddyAllocator) (order : Nat) : Nat → Nat → Nat → Option Nat
  | 0, _, _ => none
  | steps + 1, cur, n =>
    if cur = freeNone then some n
    else countFrom a order steps (a.next cur) (n + 2 ^ order)

/-- The number of free pages, added up over the free lists of all orders. -/
def freePageCount (a : BuddyAllocator) : Option Nat :=
  (List.range (maxOrder + 1)).foldlM
    (fun n order => a.countFrom order (a.pageCount + 1) (a.freeLists order) n) 0

/-- Whether an address lies in the region the allocator manages. -/
def pageInRange (a : BuddyAllocator) (paddr : Nat) : Bool :=
  a.base ≤ paddr && paddr < a.base + a.realCount * pageSize

end BuddyAllocator

end Ignium.Mem
