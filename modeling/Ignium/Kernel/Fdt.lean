import Ignium.Lib.Bytes
import Ignium.Lib.Returns

/-!
# The device tree

`kernel/src/fdt.rs`: the header of the device tree that the firmware leaves in memory, and the walk
through its blocks. A function returns `none` when it reads an address outside the range that may be
read, builds a slice that leaves it, uses an index outside an array, or computes a word that
overflows: every such access and computation is one here. A loop also returns `none` when it does
not end within the given number of rounds.

A range that may be read is a `Blob`: the 40 bytes of the header for `Fdt.new`, and the `totalSize`
bytes that the header declares for `Fdt.parse`.
-/

namespace Ignium.Kernel

open Bytes

def fdtMagic : Nat := 0xD00DFEED
def fdtBeginNode : Nat := 1
def fdtEndNode : Nat := 2
def fdtProp : Nat := 3
def fdtNop : Nat := 4
def fdtEnd : Nat := 9

/-- The largest physical address. -/
def maxPhys : Nat := 1 <<< 56 - 1

/-- Memory, of which a range may be read. -/
structure Blob where
  byte : Nat → UInt8
  base : Nat
  size : Nat

namespace Blob

/-- Read a byte. -/
def read (b : Blob) (addr : Nat) : Option UInt8 :=
  if b.base ≤ addr ∧ addr < b.base + b.size then some (b.byte addr) else none

/-- Build a slice. -/
def slice (b : Blob) (start len : Nat) : Option (List UInt8) :=
  if b.base ≤ start ∧ start + len ≤ b.base + b.size then
    some ((List.range len).map fun i => b.byte (start + i))
  else none

/-- Read a big-endian number of four bytes. -/
def be32 (b : Blob) (addr : Nat) : Option Nat := do
  let b0 ← b.read addr
  let b1 ← b.read (← checkedAdd addr 1)
  let b2 ← b.read (← checkedAdd addr 2)
  let b3 ← b.read (← checkedAdd addr 3)
  some (b0.toNat <<< 24 ||| b1.toNat <<< 16 ||| b2.toNat <<< 8 ||| b3.toNat)

/-- Read the byte at a position of the range. -/
def byteAt (b : Blob) (pos : Nat) : Option UInt8 := do
  b.read (← checkedAdd b.base pos)

/-- Read the number `k` bytes behind a position of the range. -/
def word (b : Blob) (pos k : Nat) : Option Nat := do
  b.be32 (← checkedAdd (← checkedAdd b.base pos) k)

/-- Read two numbers as the halves of a word, the high one first. -/
def word64 (b : Blob) (pos k : Nat) : Option Nat := do
  let hi ← b.word pos k
  let lo ← b.word pos (k + 4)
  some (hi <<< 32 ||| lo)

end Blob

/-- Overwrite an element of an array. -/
def setAt {α : Type} {n : Nat} (v : Vector α n) (i : Nat) (a : α) : Option (Vector α n) :=
  if h : i < n then some (v.set i a h) else none

/-- The number of reserved ranges. -/
def maxReserved : Nat := 8

/-- What the kernel needs to know of the board. -/
structure BoardParams where
  ramStart : Nat
  ramSize : Nat
  timebaseFreq : Nat
  uartBase : Nat
  uartClock : Nat
  isaString : String
  cpuCount : Nat
  reserved : Vector (Nat × Nat) maxReserved
  reservedCount : Nat
  fits : reservedCount ≤ maxReserved

namespace BoardParams

def empty : BoardParams := ⟨0, 0, 0, 0, 0, "", 0, .replicate _ (0, 0), 0, Nat.zero_le _⟩

/-- The state of the loop of `add_reserved`. -/
structure Merging where
  params : BoardParams
  addr : Nat
  size : Nat
  stop : Nat
  i : Nat

/-- Merge the new range with a reserved one that it overlaps. The last one takes its place. -/
def mergeRound (m : Merging) : Option (Round Merging Merging) :=
  if m.i < m.params.reservedCount then do
    let (rAddr, rSize) ← m.params.reserved[m.i]?
    let rEnd := saturatingAdd rAddr rSize
    if m.addr < rEnd ∧ m.stop > rAddr then do
      let addr := min m.addr rAddr
      let stop := max m.stop rEnd
      let size := stop - addr
      let last ← m.params.reserved[← checkedSub m.params.reservedCount 1]?
      let reserved ← setAt m.params.reserved m.i last
      let params := { m.params with
        reserved
        reservedCount := m.params.reservedCount - 1
        fits := Nat.le_trans (Nat.sub_le _ _) m.params.fits }
      some (.next ⟨params, addr, size, stop, m.i⟩)
    else do
      let i ← checkedAdd m.i 1
      some (.next { m with i })
  else some (.done m)

/-- Add a reserved range. Empty ranges are skipped, and overlapping ones are merged. -/
def addReserved (params : BoardParams) (addr size : Nat) : Option BoardParams :=
  if addr = 0 ∨ size = 0 then some params
  else do
    let stop := saturatingAdd addr size
    let m ← Round.loop mergeRound (params.reservedCount + 1) ⟨params, addr, size, stop, 0⟩
    if h : m.params.reservedCount < maxReserved then do
      let reserved ← setAt m.params.reserved m.params.reservedCount (m.addr, m.size)
      some { m.params with reserved, reservedCount := m.params.reservedCount + 1, fits := h }
    else some m.params

end BoardParams

/-- A device tree whose header has been checked. -/
structure Fdt where
  base : Nat
  totalSize : Nat
  offStruct : Nat
  offStrings : Nat
  offRsvmap : Nat
  sizeStruct : Nat
  sizeStrings : Nat
  fdtAddr : Nat
  bounded : base + totalSize ≤ maxPhys
  small : totalSize ≤ 16 * 1024 * 1024
  structIn : offStruct + sizeStruct ≤ totalSize
  stringsIn : offStrings + sizeStrings ≤ totalSize
  rsvmapIn : offRsvmap + 16 ≤ totalSize

/-- The size of the header. -/
def fdtHeaderSize : Nat := 40

/-- Read and check the header. -/
def Fdt.new (byte : Nat → UInt8) (fdt : Nat) : Option (Option Fdt) :=
  if fdt = 0 ∨ fdt % 8 ≠ 0 then some none
  else if exceeds fdt fdtHeaderSize maxPhys then some none
  else do
    let header : Blob := ⟨byte, fdt, fdtHeaderSize⟩
    let magic ← header.be32 fdt
    if magic ≠ fdtMagic then some none
    else do
      let total ← header.word 0 4
      let offStruct ← header.word 0 8
      let offStrings ← header.word 0 12
      let offRsvmap ← header.word 0 16
      let sizeStruct ← header.word 0 36
      let sizeStrings ← header.word 0 32
      if htotal : total < fdtHeaderSize ∨ total > 16 * 1024 * 1024 ∨ exceeds fdt total maxPhys then
        some none
      else if hblocks : saturatingAdd offStruct sizeStruct > total ∨
          saturatingAdd offStrings sizeStrings > total ∨ exceeds offRsvmap 16 total then
        some none
      else
        have hsmall : total ≤ 16 * 1024 * 1024 := by grind
        some (some ⟨fdt, total, offStruct, offStrings, offRsvmap, sizeStruct, sizeStrings, fdt,
          le_of_not_exceeds (by grind), hsmall, le_of_saturatingAdd_le (by omega) (by grind),
          le_of_saturatingAdd_le (by omega) (by grind), le_of_not_exceeds (by grind)⟩)

/-! ## Properties -/

/-- Whether a node has the given name, perhaps with an address. -/
def nodeIs (node : List UInt8) (name : String) : Bool :=
  node = name.toUTF8.data.toList || (name ++ "@").toUTF8.data.toList.isPrefixOf node

/-- The node of a serial port. -/
def isUart (node : List UInt8) : Bool := nodeIs node "uart" || nodeIs node "serial"

/-- The runs of `n` bytes of a slice. -/
def windows (bytes : List UInt8) (n : Nat) : List (List UInt8) :=
  (List.range (bytes.length + 1 - n)).map fun i => (bytes.drop i).take n

/-- The value of a hexadecimal digit. -/
def hexDigit (c : UInt8) : Option (Option Nat) :=
  if 0x30 ≤ c.toNat ∧ c.toNat ≤ 0x39 then do
    some (some (← checkedSub c.toNat 0x30))
  else if 0x61 ≤ c.toNat ∧ c.toNat ≤ 0x66 then do
    some (some ((← checkedSub c.toNat 0x61) + 10))
  else if 0x41 ≤ c.toNat ∧ c.toNat ≤ 0x46 then do
    some (some ((← checkedSub c.toNat 0x41) + 10))
  else some none

/-- Append hexadecimal digits to a number. -/
def parseDigits : List UInt8 → Nat → Option (Option Nat)
  | [], val => some (some val)
  | c :: rest, val => do
      match ← hexDigit c with
      | none => some none
      | some digit =>
        match (checkedMul val 16).bind (checkedAdd · digit) with
        | none => some none
        | some val => parseDigits rest val

/-- Parse a hexadecimal number. -/
def parseHex (s : List UInt8) : Option (Option Nat) :=
  if s.isEmpty ∨ s.length > 16 then some none else parseDigits s 0

/-- Count the bytes before the next 0, up to a limit. -/
def lengthRound (blob : Blob) (start limit len : Nat) : Option (Round Nat Nat) :=
  if len < limit then do
    let c ← blob.read (← checkedAdd start len)
    if c = 0 then some (.done len)
    else do
      some (.next (← checkedAdd len 1))
  else some (.done len)

namespace Fdt

/-- Read a name of the strings block. -/
def readString (self : Fdt) (blob : Blob) (offset : Nat) : Option (Option String) :=
  if offset ≥ self.sizeStrings then some none
  else do
    let maxLen ← checkedSub self.sizeStrings offset
    let start ← checkedAdd blob.base (← checkedAdd self.offStrings offset)
    let len ← Round.loop (lengthRound blob start maxLen) (maxLen + 1) 0
    if len = 0 then some none
    else do
      let bytes ← blob.slice start len
      some (String.fromUTF8? ⟨bytes.toArray⟩)

end Fdt

/-- `reg` of a memory node: the address and the size of the memory, in words or in half words. -/
def memoryReg (blob : Blob) (valStart propLen : Nat) (params : BoardParams) : Option BoardParams :=
  if propLen ≥ 16 then do
    let ramStart ← blob.word64 valStart 0
    let ramSize ← blob.word64 valStart 8
    some { params with ramStart, ramSize }
  else if propLen ≥ 8 then do
    let ramStart ← blob.word valStart 0
    let ramSize ← blob.word valStart 4
    some { params with ramStart, ramSize }
  else some params

/-- `compatible` of a serial port: the address is part of the name of its node. -/
def uartCompatible (blob : Blob) (node : List UInt8) (valStart propLen : Nat)
    (params : BoardParams) : Option BoardParams := do
  let compat ← blob.slice (← checkedAdd blob.base valStart) propLen
  let isNs16550 := (windows compat 7).any (· = "ns16550".toUTF8.data.toList) ||
    (windows compat 8).any (· = "ns16550a".toUTF8.data.toList)
  if isNs16550 then
    match node.findIdx? (· = 0x40) with
    | some atPos => do
        let start ← checkedAdd atPos 1
        if start ≤ node.length then do
          match ← parseHex (node.drop start) with
          | some addr => some { params with uartBase := addr }
          | none => some params
        else none
    | none => some params
  else some params

/-- `reg` of a serial port: its address, in a word or in a half word. -/
def uartReg (blob : Blob) (valStart propLen : Nat) (params : BoardParams) : Option BoardParams :=
  if propLen ≥ 8 then do
    let addr ← blob.word64 valStart 0
    if addr ≠ 0 then some { params with uartBase := addr } else some params
  else if propLen ≥ 4 then do
    let addr ← blob.word valStart 0
    if addr ≠ 0 then some { params with uartBase := addr } else some params
  else some params

/-- `riscv,isa` of a processor, of which every processor has one. -/
def cpuIsa (blob : Blob) (valStart propLen : Nat) (params : BoardParams) : Option BoardParams :=
  let params := { params with cpuCount := saturatingAdd params.cpuCount 1 }
  if params.isaString ≠ "" then some params
  else if propLen > 0 ∧ propLen < 128 then do
    let start ← checkedAdd blob.base valStart
    let len ← Round.loop (lengthRound blob start propLen) (propLen + 1) 0
    if len > 0 then do
      let bytes ← blob.slice start len
      match String.fromUTF8? ⟨bytes.toArray⟩ with
      | some isaString => some { params with isaString }
      | none => some params
    else some params
  else some params

/-- Take over a property of a node. -/
def Fdt.handleProp (self : Fdt) (blob : Blob) (node : List UInt8) (nameOff valStart propLen : Nat)
    (params : BoardParams) : Option BoardParams := do
  match ← self.readString blob nameOff with
  | none => some params
  | some name =>
    if name = "reg" ∧ nodeIs node "memory" then memoryReg blob valStart propLen params
    else if name = "timebase-frequency" ∧ nodeIs node "cpus" then
      if propLen ≥ 4 then do
        let timebaseFreq ← blob.word valStart 0
        some { params with timebaseFreq }
      else some params
    else if name = "clock-frequency" ∧ isUart node ∧ params.uartClock = 0 then
      if propLen ≥ 4 then do
        let uartClock ← blob.word valStart 0
        some { params with uartClock }
      else some params
    else if name = "compatible" then
      if isUart node ∧ params.uartBase = 0 then
        uartCompatible blob node valStart propLen params
      else some params
    else if name = "reg" ∧ isUart node ∧ params.uartBase = 0 then
      uartReg blob valStart propLen params
    else if name = "riscv,isa" ∧ "cpu@".toUTF8.data.toList.isPrefixOf node then
      cpuIsa blob valStart propLen params
    else some params

/-! ## The structure block -/

/-- How many names of nodes are kept. -/
def maxDepth : Nat := 8

/-- The room for a name of a node. -/
abbrev NodeName := Vector UInt8 64

/-- The state of the walk through the structure block: the position, the name of the current node,
the names of those around it and how many these are. -/
structure Walk where
  params : BoardParams
  pos : Nat
  node : NodeName
  nodeLen : Nat
  stack : Vector NodeName maxDepth
  stackLen : Vector Nat maxDepth
  depth : Nat
  depthExceeded : Bool

/-- Round up to a multiple of 4. -/
def padded (v : Nat) : Option Nat := do
  some ((← checkedAdd v 3) / 4 * 4)

/-- Read a byte of the name of a node. -/
def nameRound (blob : Blob) (structEnd : Nat) (s : NodeName × Nat × Nat) :
    Option (Round (NodeName × Nat × Nat) (NodeName × Nat × Nat)) :=
  let (node, len, pos) := s
  if pos < structEnd ∧ len < 63 then do
    let c ← blob.byteAt pos
    if c = 0 then some (.done (node, len, pos))
    else do
      let node ← setAt node len c
      some (.next (node, ← checkedAdd len 1, ← checkedAdd pos 1))
  else some (.done (node, len, pos))

/-- Skip a byte of a long name. -/
def skipRound (blob : Blob) (structEnd pos : Nat) : Option (Round Nat Nat) :=
  if pos < structEnd then do
    let c ← blob.byteAt pos
    let pos ← checkedAdd pos 1
    if c = 0 then some (.done pos) else some (.next pos)
  else some (.done pos)

/-- Skip the rest of a name: what does not fit, or its final 0. -/
def nameEnd (blob : Blob) (structEnd nodeLen pos : Nat) : Option Nat :=
  if nodeLen ≥ 63 then Round.loop (skipRound blob structEnd) (structEnd + 1) pos
  else checkedAdd pos 1

/-- Keep the name of a node unless there are too many. -/
def Walk.push (w : Walk) : Option Walk :=
  if w.depth < maxDepth then do
    let stack ← setAt w.stack w.depth w.node
    let stackLen ← setAt w.stackLen w.depth w.nodeLen
    some { w with stack, stackLen }
  else some w

/-- A node begins. -/
def Walk.beginNode (blob : Blob) (structEnd : Nat) (w : Walk) : Option Walk := do
  let w ← w.push
  let depth ← checkedAdd w.depth 1
  let depthExceeded := if depth > maxDepth then true else w.depthExceeded
  let (node, nodeLen, pos) ← Round.loop (nameRound blob structEnd) 64 (w.node, 0, w.pos)
  let node ← setAt node nodeLen 0
  let pos ← nameEnd blob structEnd nodeLen pos
  let pos ← padded pos
  some { w with depth, depthExceeded, node, nodeLen, pos }

/-- A node ends. -/
def Walk.endNode (w : Walk) : Option Walk := do
  let depth := w.depth - 1
  let depthExceeded := decide (depth > maxDepth)
  if depth < maxDepth then do
    let node ← w.stack[depth]?
    let nodeLen ← w.stackLen[depth]?
    some { w with depth, node, nodeLen, depthExceeded }
  else some { w with depth, depthExceeded }

/-- A property. -/
def Walk.prop (self : Fdt) (blob : Blob) (structEnd : Nat) (w : Walk) :
    Option (Round Walk BoardParams) := do
  if (← checkedAdd w.pos 8) > structEnd then some (.done w.params)
  else if w.depthExceeded = false then do
    let propLen ← blob.word w.pos 0
    let nameOff ← blob.word w.pos 4
    let pos ← checkedAdd w.pos 8
    let valStart := pos
    let len ← padded propLen
    if exceeds pos len structEnd then some (.done w.params)
    else do
      let pos ← checkedAdd pos len
      if w.nodeLen ≤ 64 then do
        let node := w.node.toList.take w.nodeLen
        let params ← self.handleProp blob node nameOff valStart propLen w.params
        some (.next { w with pos, params })
      else none
  else do
    let propLen ← blob.word w.pos 0
    let pos ← checkedAdd w.pos 8
    let len ← padded propLen
    if exceeds pos len structEnd then some (.done w.params)
    else do
      let pos ← checkedAdd pos len
      some (.next { w with pos })

/-- Read a token and what belongs to it. -/
def Walk.round (self : Fdt) (blob : Blob) (structEnd : Nat) (w : Walk) :
    Option (Round Walk BoardParams) := do
  if (← checkedAdd w.pos 4) ≤ structEnd then do
    let token ← blob.word w.pos 0
    let pos ← checkedAdd w.pos 4
    let w := { w with pos }
    if token = fdtBeginNode then do
      some (.next (← w.beginNode blob structEnd))
    else if token = fdtEndNode then do
      some (.next (← w.endNode))
    else if token = fdtProp then w.prop self blob structEnd
    else if token = fdtNop then some (.next w)
    else some (.done w.params)
  else some (.done w.params)

namespace Fdt

/-- Read an entry of the reserve map. -/
def rsvmapRound (self : Fdt) (blob : Blob) (s : BoardParams × Nat) :
    Option (Round (BoardParams × Nat) BoardParams) :=
  let (params, off) := s
  if exceeds off 16 self.totalSize then some (.done params)
  else do
    let addr ← blob.word64 off 0
    let size ← blob.word64 off 8
    let off ← checkedAdd off 16
    if addr = 0 ∧ size = 0 then some (.done params)
    else do
      let params ← params.addReserved addr size
      some (.next (params, off))

/-- Parse the device tree. -/
def parse (self : Fdt) (byte : Nat → UInt8) : Option BoardParams := do
  let blob : Blob := ⟨byte, self.base, self.totalSize⟩
  let params ← BoardParams.empty.addReserved self.fdtAddr self.totalSize
  let params ← Round.loop (self.rsvmapRound blob) (self.totalSize + 1) (params, self.offRsvmap)
  let structEnd := min (saturatingAdd self.offStruct self.sizeStruct) self.totalSize
  let name : NodeName := .replicate _ 0
  Round.loop (Walk.round self blob structEnd) (structEnd + 1)
    ⟨params, self.offStruct, name, 0, .replicate _ name, .replicate _ 0, 0, false⟩

end Fdt

end Ignium.Kernel
