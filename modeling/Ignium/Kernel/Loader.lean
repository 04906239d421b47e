import Ignium.Mmu.PageTable

/-!
# The program loader

The loading half of `kernel/src/elf.rs`: the pages of the segments and of the stack are allocated,
filled and mapped one by one, and a failure unmaps and releases everything that was mapped. Parsing
gives the segments.
-/

namespace Ignium.Kernel

open Mem Mmu

def userStackTop : Nat := userVaLimit - 0x10000
def userStackPages : Nat := 8
def maxArgs : Nat := 16

/-- The errors of parsing and loading a program. -/
inductive ElfError where
  | truncated
  | badMagic
  | not64
  | notExec
  | notRiscv
  | badSegment
  | overlap
  | addressTooHigh
  | noMemory
  | mapFailed
  | badProcess
  deriving DecidableEq, Repr

/-- A segment, as parsing leaves it: it ends within the user addresses, is not longer in the file
than in memory, and starts at the same offset of a page in both. -/
structure Segment where
  vaddr : Nat
  offset : Nat
  filesz : Nat
  memsz : Nat
  flags : Nat
  bound : vaddr + memsz ≤ userVaLimit
  short : filesz ≤ memsz
  aligned : vaddr % pageSize = offset % pageSize
  deriving DecidableEq

/-- A parsed program, with the bytes of its file. -/
structure ElfInfo where
  bytes : List UInt8
  entry : Nat
  segments : List Segment
  inFile : ∀ seg ∈ segments, seg.offset + seg.filesz ≤ bytes.length
  deriving DecidableEq

/-- Where a loaded program starts. -/
structure LoadedElf where
  entry : Nat
  stackTop : Nat
  argc : Nat
  argv : Nat
  deriving DecidableEq, Repr

def alignDown (v a : Nat) : Nat := v / a * a

def alignUp (v a : Nat) : Nat := (v + a - 1) / a * a

/-- The memory and the pages mapped so far, each with its address. -/
abbrev Loading := Usage × List (Nat × Nat)

/-- Undo a load: unmap and release the pages. -/
def rollback (root : Nat) (s : Loading) : Option Usage :=
  s.2.foldlM (fun m page =>
    (unmap4k m root page.1).discard.bind fun m => (m.freePages page.2).discard) s.1

/-- The flags of the pages of a segment: code, data, or read-only data. -/
def segmentFlags (flags : Nat) : Nat :=
  if flags &&& 1 ≠ 0 then 0xCB else if flags &&& 2 ≠ 0 then 0xC7 else 0xC3

/-- Write bytes from an address on. -/
def copyBytes (m : Usage) : Nat → List UInt8 → Usage
  | _, [] => m
  | addr, byte :: rest => copyBytes (m.write addr byte.toNat) (addr + 1) rest

/-- Copy what the file has for a page of a segment. -/
def fillPage (m : Usage) (pa : Nat) (bytes : List UInt8) (seg : Segment) (va : Nat) : Usage :=
  -- The first page may start before the segment, but not by more than the offset in the file.
  let base := seg.offset + va - seg.vaddr
  let copyLo := max base seg.offset
  let copyHi := min (base + pageSize) (seg.offset + seg.filesz)
  copyBytes m (pa + (copyLo - base)) ((bytes.drop copyLo).take (copyHi - copyLo))

/-- Fill and map one page of a segment. -/
def mapSegmentPage (root : Nat) (bytes : List UInt8) (seg : Segment) (s : Loading) (va : Nat) :
    Outcome Loading ElfError Unit :=
  if isMapped s.1 root va then some (.error .overlap, s)
  else
    match s.1.allocPagesZeroed 0 with
    | none => none
    | some (none, m) => some (.error .noMemory, (m, s.2))
    | some (some pa, m) =>
      match mapUserPage (fillPage m pa bytes seg va) root va pa (segmentFlags seg.flags) with
      | none => none
      | some (.error _, m) =>
        .failAfter ((m.freePages pa).discard.map fun m => (m, s.2)) .mapFailed
      | some (.ok _, m) => some (.ok (), (m, s.2 ++ [(va, pa)]))

/-- Map one page of the stack. A page that cannot be mapped is not released. -/
def mapStackPage (root : Nat) (s : Loading) (va : Nat) : Outcome Loading ElfError Unit :=
  if isMapped s.1 root va then some (.error .overlap, s)
  else
    match s.1.allocPagesZeroed 0 with
    | none => none
    | some (none, m) => some (.error .noMemory, (m, s.2))
    | some (some pa, m) =>
      match mapUserPage m root va pa 0xC7 with
      | none => none
      | some (.error _, m) => some (.error .mapFailed, (m, s.2))
      | some (.ok _, m) => some (.ok (), (m, s.2 ++ [(va, pa)]))

/-- Run a step for every item, up to the first error. -/
def mapEach {α : Type} (step : Loading → α → Outcome Loading ElfError Unit) :
    List α → Loading → Outcome Loading ElfError Unit
  | [], s => some (.ok (), s)
  | x :: rest, s => (step s x).andThen fun _ s => mapEach step rest s

/-- Map the pages of a segment. -/
def mapSegment (root : Nat) (bytes : List UInt8) (s : Loading) (seg : Segment) :
    Outcome Loading ElfError Unit :=
  mapEach (mapSegmentPage root bytes seg)
    (addresses (alignDown seg.vaddr pageSize) (alignUp (seg.vaddr + seg.memsz) pageSize) pageSize) s

/-- Map the segments in order, up to the first error. -/
def mapSegments (root : Nat) (bytes : List UInt8) :
    List Segment → Loading → Outcome Loading ElfError Unit
  | [], s => some (.ok (), s)
  | seg :: rest, s =>
    (mapSegment root bytes s seg).andThen fun _ s => mapSegments root bytes rest s

/-- The lowest address of the stack. -/
def stackBottom : Nat := userStackTop - userStackPages * pageSize

/-- Write a value at an address of the stack, whose pages are given. -/
def storeStack (stackPas : List Nat) (s : Loading) (cell : Nat × Nat) :
    Outcome Loading ElfError Unit :=
  if cell.2 < stackBottom then none
  else
    match stackPas[(cell.2 - stackBottom) / pageSize]? with
    | none => some (.error .badSegment, s)
    | some pa => some (.ok (), (s.1.write (pa + cell.2 % pageSize) cell.1, s.2))

/-- The strings of the arguments, each with a zero behind it, as bytes at their addresses. -/
def stringCells (strArea : Nat) (args : List (List UInt8)) : List (Nat × Nat) :=
  (args.flatMap fun arg => arg.map UInt8.toNat ++ [0]).zipIdx strArea

/-- Where the strings start. -/
def argStarts : Nat → List (List UInt8) → List Nat
  | _, [] => []
  | sptr, arg :: rest => sptr :: argStarts (sptr + arg.length + 1) rest

/-- The array of pointers to the strings, with a null pointer at the end. -/
def argvCells (strArea argvArray : Nat) (args : List (List UInt8)) : List (Nat × Nat) :=
  ((argStarts strArea args ++ [0]).zipIdx 0).map fun cell : Nat × Nat =>
    (cell.1, argvArray + cell.2 * 8)

/-- The length of all strings together. -/
def strTotal (args : List (List UInt8)) : Nat := (args.map (·.length + 1)).sum

/-- Where the strings of the arguments are. -/
def strArea (args : List (List UInt8)) : Nat := alignDown (userStackTop - strTotal args) 16

/-- Where the array of pointers is. -/
def argvArray (args : List (List UInt8)) : Nat :=
  alignDown (strArea args - (args.length + 1) * 8) 16

/-- The stack pointer at the start, where the number of arguments is. -/
def spFinal (args : List (List UInt8)) : Nat := alignDown (argvArray args - 8) 16

/-- Map the stack and write the arguments to it. The result is the stack pointer and the address of
the argument array. -/
def buildUserStack (root : Nat) (args : List (List UInt8)) (s : Loading) :
    Outcome Loading ElfError (Nat × Nat) :=
  let n := args.length
  if n > maxArgs then some (.error .badSegment, s)
  else if strTotal args > userStackPages * pageSize - (n + 2) * 8 - 16 then
    some (.error .badSegment, s)
  else
    (mapEach (mapStackPage root) (addresses stackBottom userStackTop pageSize) s).andThen fun _ s' =>
      let stackPas := (s'.2.drop s.2.length).map Prod.snd
      (mapEach (storeStack stackPas) (stringCells (strArea args) args) s').andThen fun _ s =>
        if argvArray args < stackBottom + 16 then some (.error .badSegment, s)
        else
          (mapEach (storeStack stackPas) (argvCells (strArea args) (argvArray args) args ++
            [(n, spFinal args)]) s).andThen fun _ s => some (.ok (spFinal args, argvArray args), s)

/-- Load a program into an address space. -/
def loadInto (m : Usage) (root : Nat) (info : ElfInfo) (args : List (List UInt8)) :
    Outcome Usage ElfError LoadedElf :=
  let mapped := (mapSegments root info.bytes info.segments (m, [])).andThen fun _ s =>
    buildUserStack root args s
  match mapped with
  | none => none
  | some (.error e, s) => .failAfter (rollback root s) e
  | some (.ok (stackTop, argv), s) => some (.ok ⟨info.entry, stackTop, args.length, argv⟩, s.1)

end Ignium.Kernel
