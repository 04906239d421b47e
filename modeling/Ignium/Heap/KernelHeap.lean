import Ignium.Mem.Calls
import Mathlib.Data.Fin.VecNotation
import Mathlib.Data.Nat.Log

/-!
# The kernel heap

The slab allocator of `kernel/src/heap.rs` over the page allocator. A slab page has slots of one
class behind a header of two words, which name the next page of the chain of the class and the first
free slot; a free slot names the next one in its first word. Requests that fit no slab take a whole
block of pages, and the word before the pointer returned names the block.

The words are kept apart from memory here: chains and free lists are lists, pages go by their index. No
taken slot has such a word (`Apart`). An operation returns `none` when the code panics.
-/

namespace Ignium.Heap

open Mem Function

/-- The slot sizes of the slab classes. -/
def slabSizes : Fin 8 → Nat := ![16, 32, 64, 128, 256, 512, 1024, 2048]

/-- What a caller asks for: a size, and an alignment that is a power of two. -/
structure Layout where
  size : Nat
  align : Nat
  pow : ∃ k, align = 2 ^ k

/-- The smallest class whose slots hold `size` bytes. -/
def classIndex (size : Nat) : Option (Fin 8) :=
  (List.finRange 8).find? fun idx => max size 8 ≤ slabSizes idx

/-- The number of slots of a slab page. -/
def capacity (idx : Fin 8) : Nat := (pageSize - slabSizes idx) / slabSizes idx

/-- The class that serves a layout: `none` is a large object. -/
def Layout.slab? (layout : Layout) : Option (Fin 8) :=
  (classIndex layout.size).filter fun idx => layout.align ≤ slabSizes idx

/-- The bytes a large object takes of its block, with the room to align it and the word before it. -/
def Layout.needed (layout : Layout) : Nat := layout.size + 8 + (layout.align - 1)

/-- The order of the smallest block that a large object fits into. -/
def Layout.order (layout : Layout) : Nat := Nat.clog 2 ((layout.needed + pageSize - 1) / pageSize)

/-- The slots of a slab page, in the order in which they are linked. -/
def slotsOf (idx : Fin 8) (page : Nat) : List Nat :=
  List.range' (page + slabSizes idx) (capacity idx) (slabSizes idx)

/-- The heap with the page allocator below it. -/
structure KernelHeap where
  mem : Usage
  /-- The pages of a class, from `head` along the fields `next`. -/
  chain : Fin 8 → List Nat
  /-- The free slots of a page, from its field `free_list` on. -/
  free : Nat → List Nat
  /-- The class of a slab page: `none` is `NOT_SLAB`. -/
  pageClass : Nat → Option (Fin 8)
  /-- The word before a large object. -/
  block : Nat → Nat
  base : Nat
  bytes : Nat

namespace KernelHeap

/-- The empty heap, with the region of the page allocator recorded. -/
def init (mem : Usage) : KernelHeap where
  mem := mem
  chain := fun _ => []
  free := fun _ => []
  pageClass := fun _ => none
  block := fun _ => 0
  base := mem.allocator.base
  bytes := mem.allocator.realCount * pageSize

/-- The address of a page. -/
def addr (h : KernelHeap) (i : Nat) : Nat := h.base + i * pageSize

def setFree (h : KernelHeap) (i : Nat) (nodes : List Nat) : KernelHeap :=
  { h with free := update h.free i nodes }

/-! ## Slabs -/

/-- Give a page back when all its slots are on its free list. -/
def sweepPage (h : KernelHeap) (idx : Fin 8) (i : Nat) : Option KernelHeap :=
  if (h.free i).length = capacity idx then do
    let mem ← (h.mem.freePages (h.addr i)).expect
    some { h with
      mem := mem
      chain := update h.chain idx ((h.chain idx).erase i)
      pageClass := update h.pageClass i none }
  else some h

/-- The pages that the sweep looks at: all but the first page of each chain. -/
def scanned (h : KernelHeap) : List (Fin 8 × Nat) :=
  (List.finRange 8).flatMap fun idx => (h.chain idx).tail.map fun i => (idx, i)

def sweepEmptyPages (h : KernelHeap) : Option KernelHeap :=
  h.scanned.foldlM (fun h p => h.sweepPage p.1 p.2) h

/-- Take a page and make it a slab whose slots are all free. -/
def newSlab (h : KernelHeap) (idx : Fin 8) : Option (Nat × KernelHeap) := do
  let h ← h.sweepEmptyPages
  let (page?, mem) ← h.mem.allocPages 0
  let page ← page?
  let i := (page - h.base) / pageSize
  some (i, { h with
    mem := mem
    free := update h.free i (slotsOf idx page)
    pageClass := update h.pageClass i (some idx) })

/-- Take the first free slot of a page. -/
def popSlot (h : KernelHeap) (i : Nat) : Option (Nat × KernelHeap) :=
  match h.free i with
  | [] => none
  | slot :: rest => some (slot, h.setFree i rest)

/-- Allocate a slot, of a new page when all pages of the class are full. -/
def slabAlloc (h : KernelHeap) (idx : Fin 8) : Option (Nat × KernelHeap) :=
  match (h.chain idx).find? fun i => h.free i ≠ [] with
  | some i => h.popSlot i
  | none => do
    let (i, h) ← h.newSlab idx
    { h with chain := update h.chain idx (i :: h.chain idx) }.popSlot i

/-! ## Large objects -/

/-- Allocate a block of pages and return an aligned address in it. -/
def pageAlloc (h : KernelHeap) (layout : Layout) : Option (Nat × KernelHeap) :=
  if layout.needed ≥ 2 ^ 64 then none
  else if layout.order > maxOrder then none
  else do
    let (block?, mem) ← h.mem.allocPages layout.order
    let block ← block?
    let aligned := (block + 8 + layout.align - 1) / layout.align * layout.align
    some (aligned, { h with mem := mem, block := update h.block aligned block })

/-! ## The two calls -/

/-- Allocate memory for a layout. -/
def alloc (h : KernelHeap) (layout : Layout) : Option (Nat × KernelHeap) :=
  if layout.size = 0 then some (layout.align, h)
  else
    match layout.slab? with
    | some idx => h.slabAlloc idx
    | none => h.pageAlloc layout

/-- Release the memory at a pointer. -/
def dealloc (h : KernelHeap) (ptr : Nat) (layout : Layout) : Option KernelHeap :=
  if layout.size = 0 then some h
  else
    let page := ptr / pageSize * pageSize
    if page < h.base ∨ page - h.base ≥ h.bytes then none
    else
      let i := (page - h.base) / pageSize
      match h.pageClass i with
      | some idx =>
        let size := slabSizes idx
        let offset := ptr - page
        if offset < size ∨ offset % size ≠ 0 ∨ offset + size > pageSize then none
        else some (h.setFree i (ptr :: h.free i))
      | none => do
        let mem ← (h.mem.freePages (h.block ptr)).expect
        some { h with mem := mem }

end KernelHeap

end Ignium.Heap
