import Ignium.Kernel.Loader
import Ignium.Lib.Bytes
import Mathlib.Data.List.Sort

/-!
# Parsing programs

`parse` of `kernel/src/elf.rs`: the header of the file, its program headers one by one, and the
segments sorted by their address. A function returns `none` when the code panics, which is an access
outside the file or an addition that overflows: every access and every such addition is one here.
Reading a number is the same access as reading its bytes.
-/

namespace Ignium.Kernel

open Mem Mmu Bytes

/-- The result of parsing: `none` when the code panics. -/
abbrev Parsed (α : Type) := Option (Except ElfError α)

namespace Parsed

variable {α β : Type}

/-- Go on with the value, or return the error at once. -/
def andThen (x : Parsed α) (f : α → Parsed β) : Parsed β :=
  match x with
  | none => none
  | some (.error e) => some (.error e)
  | some (.ok a) => f a

end Parsed

/-- What the header of a file says: where the program starts, where its program headers are and how
many there are. -/
structure ElfHeader where
  entry : Nat
  phoff : Nat
  phnum : Nat
  deriving DecidableEq, Repr

/-- What a program header of the type `PT_LOAD` says. -/
structure ProgramHeader where
  flags : Nat
  offset : Nat
  vaddr : Nat
  filesz : Nat
  memsz : Nat
  deriving DecidableEq, Repr

/-- A segment whose bytes are in the file. -/
abbrev FileSegment (bytes : List UInt8) :=
  {seg : Segment // seg.offset + seg.filesz ≤ bytes.length}

/-- The program headers lie in the file. -/
def checkTable (len phoff phnum : Nat) : Except ElfError Unit :=
  if phnum > 0 then
    match checkedMul phnum 56 with
    | none => .error .truncated
    | some phBytes => if exceeds phoff phBytes len then .error .truncated else .ok ()
  else if phoff > len then .error .truncated
  else .ok ()

/-- Read and check the header. -/
def parseHeader (bytes : List UInt8) : Option (Except ElfError ElfHeader) :=
  if bytes.length < 64 then some (.error .truncated)
  else if bytes.take 4 ≠ [0x7f, 0x45, 0x4c, 0x46] then some (.error .badMagic)
  else do
    let cls ← bytes[4]?
    if cls ≠ 2 then some (.error .not64)
    else
      let etype ← leAt bytes 16 2
      if etype ≠ 2 then some (.error .notExec)
      else
        let machine ← leAt bytes 18 2
        if machine ≠ 243 then some (.error .notRiscv)
        else
          let entry ← leAt bytes 24 8
          let phoff ← leAt bytes 32 8
          let phnum ← leAt bytes 56 2
          match checkTable bytes.length phoff phnum with
          | .error e => some (.error e)
          | .ok _ => some (.ok ⟨entry, phoff, phnum⟩)

/-- Read a program header. Headers of other types than `PT_LOAD` are skipped. -/
def readHeader (bytes : List UInt8) (off : Nat) : Option (Option ProgramHeader) := do
  let ptype ← leAt bytes off 4
  if ptype ≠ 1 then some none
  else
    let flags ← leAt bytes (off + 4) 4
    let offset ← leAt bytes (off + 8) 8
    let vaddr ← leAt bytes (off + 16) 8
    let filesz ← leAt bytes (off + 32) 8
    let memsz ← leAt bytes (off + 40) 8
    some (some ⟨flags, offset, vaddr, filesz, memsz⟩)

theorem and_fff (v : Nat) : v &&& 0xfff = v % pageSize := Nat.and_two_pow_sub_one_eq_mod v 12

/-- Check a segment. -/
def checkSegment (bytes : List UInt8) (ph : ProgramHeader) : Except ElfError (FileSegment bytes) :=
  if ph.vaddr ≥ userVaLimit then .error .addressTooHigh
  else if hbound : exceeds ph.vaddr ph.memsz userVaLimit then .error .addressTooHigh
  else if hshort : ph.memsz < ph.filesz then .error .badSegment
  else if hfile : exceeds ph.offset ph.filesz bytes.length then .error .truncated
  else if haligned : ph.vaddr &&& 0xfff ≠ ph.offset &&& 0xfff then .error .badSegment
  else
    .ok ⟨⟨ph.vaddr, ph.offset, ph.filesz, ph.memsz, ph.flags,
        le_of_not_exceeds (Bool.eq_false_of_not_eq_true hbound), Nat.le_of_not_lt hshort,
        by rwa [not_not, and_fff, and_fff] at haligned⟩,
      le_of_not_exceeds (Bool.eq_false_of_not_eq_true hfile)⟩

/-- Read and check the program headers with the given numbers. -/
def parseSegments (bytes : List UInt8) (phoff : Nat) : List Nat → Parsed (List (FileSegment bytes))
  | [] => some (.ok [])
  | i :: rest =>
    match readHeader bytes (phoff + i * 56) with
    | none => none
    | some none => parseSegments bytes phoff rest
    | some (some ph) =>
      match checkSegment bytes ph with
      | .error e => some (.error e)
      | .ok seg =>
        (parseSegments bytes phoff rest).andThen fun segs => some (.ok (seg :: segs))

/-- `align_up`, which overflows near the end of the words. -/
def alignUpChecked (v a : Nat) : Option Nat := (checkedAdd v (a - 1)).map fun sum => sum / a * a

/-- A segment ends, rounded up to a page, behind the page on which the next one starts. -/
def overlapping : List Segment → Option Bool
  | a :: b :: rest => do
      let aMem ← checkedAdd a.vaddr a.memsz
      let aEnd ← alignUpChecked aMem pageSize
      if aEnd > alignDown b.vaddr pageSize then some true else overlapping (b :: rest)
  | _ => some false

/-- Segments in the order of their addresses. Segments with one address keep their order. -/
def sortSegments {bytes : List UInt8} (segs : List (FileSegment bytes)) : List (FileSegment bytes) :=
  segs.insertionSort fun a b => a.val.vaddr ≤ b.val.vaddr

/-- Parse a file. -/
def parse (bytes : List UInt8) : Parsed ElfInfo :=
  Parsed.andThen (parseHeader bytes) fun hdr =>
    (parseSegments bytes hdr.phoff (List.range hdr.phnum)).andThen fun segs =>
      let sorted := sortSegments segs
      match overlapping (sorted.map Subtype.val) with
      | none => none
      | some true => some (.error .overlap)
      | some false =>
        some (.ok ⟨bytes, hdr.entry, sorted.map Subtype.val, fun seg hseg => by
          obtain ⟨fileSeg, -, rfl⟩ := List.mem_map.mp hseg
          exact fileSeg.property⟩)

/-! The computations of `map_segment` on words. -/

/-- The pages that its loop goes through. -/
def segmentRange (seg : Segment) : Parsed (Nat × Nat) :=
  match checkedAdd seg.vaddr seg.memsz with
  | none => some (.error .addressTooHigh)
  | some memEnd =>
    (alignUpChecked memEnd pageSize).map fun stop => .ok (alignDown seg.vaddr pageSize, stop)

/-- Where a page starts in the file, and what is copied to it from there. -/
def segmentWindow (seg : Segment) (va : Nat) : Option (Nat × Nat × Nat) := do
  let base := wrappingAdd seg.offset (wrappingSub va seg.vaddr)
  let copyLo := max base seg.offset
  let pageEnd ← checkedAdd base pageSize
  let fileEnd ← checkedAdd seg.offset seg.filesz
  some (base, copyLo, min pageEnd fileEnd)

end Ignium.Kernel
