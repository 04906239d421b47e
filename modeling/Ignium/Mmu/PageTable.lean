import Ignium.Mem.Calls

/-!
# Page tables

The three-level Sv39 page tables of `kernel/src/mmu.rs`. A table is a page of 512 words in
physical memory, the tables of a root are pages from the buddy allocator that are made when they
are first needed, and the kernel reaches every table at its physical address.

A function returns `none` when the code panics: an assert, an `expect`, or a panic in the
allocator. Flushing the TLB and switching `satp` have no part in the model, and linker symbols
and board parameters are the fields of `Board`.
-/

namespace Ignium.Mmu

open Mem

/-! ## Entries -/

def pteV : Nat := 1 <<< 0
def pteR : Nat := 1 <<< 1
def pteW : Nat := 1 <<< 2
def pteX : Nat := 1 <<< 3
def pteU : Nat := 1 <<< 4
def pteA : Nat := 1 <<< 6
def pteD : Nat := 1 <<< 7
def ptePpnShift : Nat := 10

/-- The mask of a page number of 44 bits. -/
def ptePpnMask : Nat := (1 <<< 44) - 1

/-! The flags of the leaves of the kernel's own mappings. -/

def pteLeafRw : Nat := pteV ||| pteR ||| pteW ||| pteA ||| pteD
def pteLeafRx : Nat := pteV ||| pteR ||| pteX ||| pteA ||| pteD
def pteLeafR : Nat := pteV ||| pteR ||| pteA ||| pteD

/-- The size of a page that an entry of a level-1 table maps as a whole. -/
def superPage : Nat := 2 * 1024 * 1024

/-- The upper limit of user addresses. -/
def userVaLimit : Nat := 1 <<< 38

/-- The page number field of an entry. -/
def ppn (paddr : Nat) : Nat := (paddr >>> 12) &&& ptePpnMask

/-- Build an entry. -/
def pte (paddr flags : Nat) : Nat := (ppn paddr <<< ptePpnShift) ||| flags

/-- The page an entry points to. -/
def ptePaddr (entry : Nat) : Nat := ((entry >>> ptePpnShift) &&& ptePpnMask) <<< 12

/-- An entry is in use. -/
def Valid (entry : Nat) : Prop := entry &&& pteV ≠ 0

instance (entry : Nat) : Decidable (Valid entry) := inferInstanceAs (Decidable (_ ≠ _))

/-- An entry maps a page and does not point to a table. -/
def Leaf (entry : Nat) : Prop := entry &&& (pteR ||| pteW ||| pteX) ≠ 0

instance (entry : Nat) : Decidable (Leaf entry) := inferInstanceAs (Decidable (_ ≠ _))

/-- User code may use the page of an entry. -/
def User (entry : Nat) : Prop := entry &&& pteU ≠ 0

instance (entry : Nat) : Decidable (User entry) := inferInstanceAs (Decidable (_ ≠ _))

/-! The index of an address in the table of each level. -/

def l2Index (vaddr : Nat) : Nat := (vaddr >>> 30) &&& 0x1FF
def l1Index (vaddr : Nat) : Nat := (vaddr >>> 21) &&& 0x1FF
def l0Index (vaddr : Nat) : Nat := (vaddr >>> 12) &&& 0x1FF

/-- Read an entry. -/
def pteRead (m : Usage) (table idx : Nat) : Nat := m.read (table + 8 * idx)

/-- Write an entry. -/
def pteWrite (m : Usage) (table idx value : Nat) : Usage := m.write (table + 8 * idx) value

/-! ## Tables -/

/-- Return the table an entry points to, or make a cleared one. A leaf is no table. -/
def ensureTable (m : Usage) (parent idx : Nat) : Outcome Usage Unit Nat :=
  let entry := pteRead m parent idx
  if Valid entry then
    if Leaf entry then some (.error (), m) else some (.ok (ptePaddr entry), m)
  else
    match m.allocPages 0 with
    | none => none
    | some (none, m) => some (.error (), m)
    | some (some page, m) =>
      let m := m.zeroPage page
      some (.ok page, pteWrite m parent idx (pte page pteV))

/-- The same for the tables of user mappings. -/
def ensureTableUser (m : Usage) (parent idx : Nat) : Outcome Usage Unit Nat :=
  let entry := pteRead m parent idx
  if Valid entry then
    if Leaf entry then some (.error (), m) else some (.ok (ptePaddr entry), m)
  else
    match m.allocPagesZeroed 0 with
    | none => none
    | some (none, m) => some (.error (), m)
    | some (some page, m) => some (.ok page, pteWrite m parent idx (pte page pteV))

/-- Map a page of 4 KB. An entry that is there is overwritten. -/
def map4k (m : Usage) (root vaddr paddr flags : Nat) : Outcome Usage Unit Unit :=
  (ensureTable m root (l2Index vaddr)).andThen fun l1 m =>
    (ensureTable m l1 (l1Index vaddr)).andThen fun l0 m =>
      some (.ok (), pteWrite m l0 (l0Index vaddr) (pte paddr flags))

/-- The walk that `mapUserPage` and `mapDevicePage` share: an entry that is there is not
overwritten. -/
def mapUserLeaf (m : Usage) (root vaddr paddr flags : Nat) : Outcome Usage Unit Unit :=
  (ensureTableUser m root (l2Index vaddr)).andThen fun l1 m =>
    (ensureTableUser m l1 (l1Index vaddr)).andThen fun l0 m =>
      if Valid (pteRead m l0 (l0Index vaddr)) then some (.error (), m)
      else some (.ok (), pteWrite m l0 (l0Index vaddr) (pte paddr (flags ||| pteU)))

/-- Map a page of the allocator for user code. -/
def mapUserPage (m : Usage) (root vaddr paddr flags : Nat) : Outcome Usage Unit Unit :=
  if vaddr ≥ userVaLimit then some (.error (), m)
  else if paddr % 4096 ≠ 0 then some (.error (), m)
  else if !m.pageInRange paddr then some (.error (), m)
  else mapUserLeaf m root vaddr paddr flags

/-- Map a page of a device for user code. The caller vouches for the address. -/
def mapDevicePage (m : Usage) (root vaddr paddr flags : Nat) : Outcome Usage Unit Unit :=
  if vaddr ≥ userVaLimit ∨ paddr % 4096 ≠ 0 then some (.error (), m)
  else mapUserLeaf m root vaddr paddr flags

/-- Map 2 MB in one entry of a level-1 table. -/
def mapSuper (m : Usage) (root vaddr paddr flags : Nat) : Outcome Usage Unit Unit :=
  (ensureTable m root (l2Index vaddr)).andThen fun l1 m =>
    some (.ok (), pteWrite m l1 (l1Index vaddr) (pte paddr flags))

/-- The entry that maps an address, or 0. -/
def leafPte (m : Usage) (root vaddr : Nat) : Nat :=
  let e2 := pteRead m root (l2Index vaddr)
  if ¬ Valid e2 then 0
  else if Leaf e2 then e2
  else
    let e1 := pteRead m (ptePaddr e2) (l1Index vaddr)
    if ¬ Valid e1 then 0
    else if Leaf e1 then e1
    else
      let e0 := pteRead m (ptePaddr e1) (l0Index vaddr)
      if ¬ Valid e0 then 0 else e0

/-- Whether an address is mapped. -/
def isMapped (m : Usage) (root vaddr : Nat) : Bool := decide (Valid (leafPte m root vaddr))

/-- Take the mapping of a 4 KB page away. -/
def unmap4k (m : Usage) (root vaddr : Nat) : Outcome Usage Unit Unit :=
  if leafPte m root vaddr = 0 then some (.ok (), m)
  else
    (ensureTable m root (l2Index vaddr)).andThen fun l1 m =>
      (ensureTable m l1 (l1Index vaddr)).andThen fun l0 m =>
        some (.ok (), pteWrite m l0 (l0Index vaddr) 0)

/-! ## Splitting entries of 2 MB -/

/-- The bits of an entry beside its page number. -/
def pteFlags (entry : Nat) : Nat := entry &&& ((1 <<< 64) - 1 - ptePpnMask <<< ptePpnShift)

/-- Write the 512 entries of a table that map consecutive pages. -/
def fillTable (m : Usage) (table paddr flags : Nat) : Usage :=
  (List.range 512).foldl (fun m i => pteWrite m table i (pte (paddr + i * 4096) flags)) m

/-- Replace an entry of 2 MB by a table that maps the same pages. -/
def splitSuperpage (m : Usage) (root vaddr : Nat) : Outcome Usage Unit Unit :=
  (ensureTable m root (l2Index vaddr)).andThen fun l1 m =>
    let entry := pteRead m l1 (l1Index vaddr)
    if ¬ Valid entry then some (.error (), m)
    else if ¬ Leaf entry then some (.ok (), m)
    else
      match m.allocPages 0 with
      | none => none
      | some (none, m) => some (.error (), m)
      | some (some sub, m) =>
        let m := fillTable (m.zeroPage sub) sub (ptePaddr entry) (pteFlags entry)
        some (.ok (), pteWrite m l1 (l1Index vaddr) (pte sub pteV))

/-- Take the mapping of a page of the kernel away. -/
def unmapKernel4k (m : Usage) (root vaddr : Nat) : Outcome Usage Unit Unit :=
  (splitSuperpage m root vaddr).andThen fun _ m => unmap4k m root vaddr

/-- Map a page of the kernel. -/
def mapKernel4k (m : Usage) (root vaddr paddr flags : Nat) : Outcome Usage Unit Unit :=
  (splitSuperpage m root vaddr).andThen fun _ m => map4k m root vaddr paddr flags

/-- Map a page of the kernel to itself again. -/
def remapKernel4k (m : Usage) (root vaddr : Nat) : Outcome Usage Unit Unit :=
  mapKernel4k m root vaddr vaddr pteLeafRw

/-! ## The kernel's own mappings -/

/-- The addresses of the linker script and of the board. -/
structure Board where
  ramStart : Nat
  ramEnd : Nat
  kernelStart : Nat
  textStart : Nat
  rodataStart : Nat
  dataStart : Nat
  kernelEnd : Nat
  stackGuard : Nat
  trapStackBase : Nat
  trapStackTop : Nat
  idleStackBase : Nat
  idleStackTop : Nat
  uartBase : Nat
  deriving DecidableEq, Repr

/-- The distance of the stacks of two harts. -/
def trapStride : Nat := 32 * 1024

/-- The size of the guard below a stack. -/
def trapGuard : Nat := 16 * 1024

/-- The addresses a `while` loop visits that starts at `start` and goes on by `stride` below
`stop`. -/
def addresses (start stop stride : Nat) : List Nat :=
  (List.range ((stop - start + stride - 1) / stride)).map fun i => start + i * stride

/-- Map `[start, stop)` to itself, page by page. -/
def mapRegion4k (m : Usage) (root start stop flags : Nat) : Option Usage :=
  if start % 4096 ≠ 0 ∨ stop % 4096 ≠ 0 then none
  else (addresses start stop 4096).foldlM (fun m va => (map4k m root va va flags).expect) m

/-- Map the addresses from `start` on below `stop` to themselves, 2 MB at a time. -/
def mapRegionSuper (m : Usage) (root start stop flags : Nat) : Option Usage :=
  (addresses start stop superPage).foldlM (fun m va => (mapSuper m root va va flags).expect) m

/-- Take away the mapping of the guard below the stack of every hart. -/
def unmapGuardPages (m : Usage) (root base top : Nat) : Option Usage :=
  (addresses base top trapStride).foldlM
    (fun m slot =>
      (addresses slot (slot + trapGuard) 4096).foldlM
        (fun m page => (unmap4k m root page).expect) m) m

/-- The mappings that every root has: firmware, kernel image, memory and UART, without the
guard pages of the stacks. -/
def mapKernelRegion (b : Board) (m : Usage) (root : Nat) : Option Usage :=
  let kernelSuperEnd := (b.kernelEnd + superPage - 1) / superPage * superPage
  if b.ramStart % superPage ≠ 0 ∨ b.ramEnd % superPage ≠ 0 then none
  else do
    let m ← mapRegionSuper m root b.ramStart b.kernelStart pteLeafR
    let m ← mapRegion4k m root b.kernelStart b.textStart pteLeafRw
    let m ← mapRegion4k m root b.textStart b.rodataStart pteLeafRx
    let m ← mapRegion4k m root b.rodataStart b.dataStart pteLeafR
    let m ← mapRegion4k m root b.dataStart b.kernelEnd pteLeafRw
    let m ← (if b.kernelEnd < kernelSuperEnd then
        mapRegion4k m root b.kernelEnd kernelSuperEnd pteLeafRw
      else some m)
    let m ← mapRegionSuper m root kernelSuperEnd b.ramEnd pteLeafRw
    let m ← (unmap4k m root b.stackGuard).expect
    let m ← unmapGuardPages m root b.trapStackBase b.trapStackTop
    let m ← unmapGuardPages m root b.idleStackBase b.idleStackTop
    (map4k m root b.uartBase b.uartBase pteLeafRw).expect

/-! ## Address spaces -/

/-- Make the root of a new address space. -/
def createUserRoot (b : Board) (m : Usage) : Outcome Usage Unit Nat :=
  match m.allocPages 0 with
  | none => none
  | some (none, m) => some (.error (), m)
  | some (some root, m) =>
    (mapKernelRegion b (m.zeroPage root) root).map fun m => (.ok root, m)

/-- What `destroyRoot` does at an entry of a level-0 table: a page of the allocator that user
code may use is released. -/
def destroyLeaf (l0Pa : Nat) (m : Usage) (l0 : Nat) : Option Usage :=
  let e0 := pteRead m l0Pa l0
  if ¬ Valid e0 then some m
  else if User e0 then
    if m.pageInRange (ptePaddr e0) then (m.freePages (ptePaddr e0)).expect else some m
  else some m

/-- What `destroyRoot` does at an entry of a level-1 table: the table it points to is emptied
and released, and a leaf is skipped. -/
def destroyLow (l1Pa : Nat) (m : Usage) (l1 : Nat) : Option Usage :=
  let e1 := pteRead m l1Pa l1
  if ¬ Valid e1 then some m
  else if Leaf e1 then some m
  else do
    let m ← (List.range 512).foldlM (destroyLeaf (ptePaddr e1)) m
    (m.freePages (ptePaddr e1)).expect

/-- What `destroyRoot` does at an entry of the root. -/
def destroyMid (root : Nat) (m : Usage) (l2 : Nat) : Option Usage :=
  let e2 := pteRead m root l2
  if ¬ Valid e2 then some m
  else if Leaf e2 then some m
  else do
    let m ← (List.range 512).foldlM (destroyLow (ptePaddr e2)) m
    (m.freePages (ptePaddr e2)).expect

/-- Release an address space: the pages of its user mappings, its tables and its root. -/
def destroyRoot (m : Usage) (root : Nat) : Option Usage := do
  let m ← (List.range 512).foldlM (destroyMid root) m
  (m.freePages root).expect

end Ignium.Mmu
