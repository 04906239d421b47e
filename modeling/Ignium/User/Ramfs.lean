import Mathlib.Algebra.Group.Nat.Defs
import Mathlib.Data.List.FinRange
import Mathlib.Logic.Function.Basic

/-!
# The file server

`user/src/bin/ramfs_server.rs`: a table of four files, each with a page of the server's address
space. Requests arrive one at a time; file data goes through a page that the server shares with its
client. The server asks the memory server for the page of a new file and gives it back when the file
is deleted. What the system calls of these exchanges return is part of a request (`Calls`), and so
are the bytes of a page that is granted: the kernel and the memory server may answer anything.
-/

namespace Ignium.User

/-- Where the shared page is mapped. -/
def shmVa : Nat := 0x50000000

/-- Where the file pages are mapped. -/
def ramfsVa : Nat := 0x74000000

/-- The length of a file name. -/
def nameMax : Nat := 24

/-- The number of files. -/
def maxFiles : Nat := 4

/-! The operations of the memory server and of the file server. -/

def opAlloc : Nat := 0x04
def opFree : Nat := 0x05
def opFsOpen : Nat := 0x06
def opFsRead : Nat := 0x07
def opFsWrite : Nat := 0x08
def opFsClose : Nat := 0x09
def opFsUnlink : Nat := 0x0A

/-- Marks a reply. -/
def opReplyFlag : Nat := 0x80

def protoErr : Nat := 2 ^ 64 - 1
def errEnomem : Nat := 2 ^ 64 - 1 - 3
def userErrEinval : Nat := 2 ^ 64 - 1
def userErrEbadf : Nat := 2 ^ 64 - 1 - 4
def userErrEexist : Nat := 2 ^ 64 - 1 - 6

/-- The bytes of the server's address space. -/
abbrev Bytes := Nat → UInt8

inductive FileState where
  | free
  | opened
  | closed
  deriving DecidableEq, Repr

/-- An entry of the file table. -/
structure FileEntry where
  state : FileState
  name : Vector UInt8 nameMax
  nameLen : Nat
  size : Nat
  deriving DecidableEq

/-- An entry without a file. -/
def FileEntry.empty : FileEntry := ⟨.free, .replicate nameMax 0, 0, 0⟩

/-- A reply. The last two of its five words are 0. -/
structure Reply where
  op : Nat
  status : Nat
  value : Nat
  deriving DecidableEq, Repr

/-- The reply to an operation. -/
def answer (op status value : Nat) : Reply := ⟨op ||| opReplyFlag, status, value⟩

/-- What the system calls return that a request may need: sending to the memory server, the first
three words of what is received from it, mapping a page, with the bytes that the page holds, and
granting one. -/
structure Calls where
  send : Nat
  recv : Nat × Nat × Nat
  memMap : Nat
  page : Bytes
  memGrant : Nat

/-- A request: the words of the message, what the client has left in the shared page, and what the
system calls return. -/
structure Request where
  op : Nat
  arg1 : Nat
  arg2 : Nat
  arg3 : Nat
  arg4 : Nat
  window : Bytes
  calls : Calls

/-- The state of the server. -/
structure Server where
  table : Fin maxFiles → FileEntry
  mem : Bytes

/-- Decode a file name from three words, byte by byte. -/
def nameFromWords (w0 w1 w2 : Nat) : Vector UInt8 nameMax :=
  .ofFn fun k =>
    let word := if k.val / 8 = 0 then w0 else if k.val / 8 = 1 then w1 else w2
    UInt8.ofNat ((word >>> (k.val % 8 * 8)) &&& 0xff)

/-- Copy bytes one by one. -/
def copyBytes (src dst n : Nat) (mem : Bytes) : Bytes :=
  (List.range n).foldl (fun mem i => Function.update mem (dst + i) (mem (src + i))) mem

/-- Replace a page. -/
def mapPage (mem : Bytes) (va : Nat) (page : Bytes) : Bytes :=
  fun x => if va ≤ x ∧ x < va + 4096 then page (x - va) else mem x

/-- Where the page of a file is mapped. -/
def pageVa (fd : Nat) : Nat := ramfsVa + fd * 4096

/-- Get a page for a file from the memory server and map it. -/
def allocFilePage (calls : Calls) (fd : Nat) (mem : Bytes) : Except Nat Bytes :=
  if calls.send ≠ 0 then .error errEnomem
  else if calls.recv.1 ≠ 0 ∨ calls.recv.2.1 ≠ opAlloc ||| opReplyFlag ∨ calls.recv.2.2 ≠ 0 then
    .error errEnomem
  else if calls.memMap ≠ 0 then .error errEnomem
  else .ok (mapPage mem (pageVa fd) calls.page)

namespace Server

/-- The server when it starts. -/
def start (mem : Bytes) : Server := ⟨fun _ => .empty, mem⟩

/-- Overwrite an entry of the table. -/
def setEntry (s : Server) (fd : Fin maxFiles) (entry : FileEntry) : Server :=
  { s with table := Function.update s.table fd entry }

/-- Open a file by its name, or create it. -/
def fsOpen (s : Server) (calls : Calls) (nameLen w0 w1 w2 : Nat) : Reply × Server :=
  if nameLen = 0 ∨ nameLen > nameMax then (answer opFsOpen userErrEinval 0, s)
  else
    let name := nameFromWords w0 w1 w2
    let found := (List.finRange maxFiles).find? fun fd =>
      (s.table fd).nameLen = nameLen ∧
        (s.table fd).name.toList.take nameLen = name.toList.take nameLen
    match found with
    | some fd =>
      match (s.table fd).state with
      | .opened => (answer opFsOpen userErrEexist 0, s)
      | .closed => (answer opFsOpen 0 fd, s.setEntry fd { s.table fd with state := .opened })
      | .free => (answer opFsOpen protoErr 0, s)
    | none =>
      match (List.finRange maxFiles).find? fun fd => (s.table fd).state = .free with
      | some fd =>
        match allocFilePage calls fd s.mem with
        | .ok mem => (answer opFsOpen 0 fd, { s with mem }.setEntry fd ⟨.opened, name, nameLen, 0⟩)
        | .error e => (answer opFsOpen e 0, s)
      | none => (answer opFsOpen errEnomem 0, s)

/-- The entry of an open file. -/
def openEntry (s : Server) (fd : Nat) : Option (Fin maxFiles × FileEntry) :=
  if h : fd < maxFiles then
    if (s.table ⟨fd, h⟩).state = .opened then some (⟨fd, h⟩, s.table ⟨fd, h⟩) else none
  else none

/-- Read from a file into the shared page. -/
def fsRead (s : Server) (fd offset len : Nat) : Reply × Server :=
  match s.openEntry fd with
  | none => (answer opFsRead userErrEbadf 0, s)
  | some (_, entry) =>
    if offset ≥ entry.size then (answer opFsRead 0 0, s)
    else
      let n := min len (entry.size - offset)
      (answer opFsRead 0 n, { s with mem := copyBytes (pageVa fd + offset) shmVa n s.mem })

/-- Write from the shared page into a file. The sum of offset and length must not overflow. -/
def fsWrite (s : Server) (fd offset len : Nat) : Reply × Server :=
  match s.openEntry fd with
  | none => (answer opFsWrite userErrEbadf 0, s)
  | some (i, entry) =>
    if offset + len < 2 ^ 64 ∧ offset < 4096 ∧ offset + len ≤ 4096 then
      let s := { s with mem := copyBytes shmVa (pageVa fd + offset) len s.mem }
      (answer opFsWrite 0 len, s.setEntry i { entry with size := max entry.size (offset + len) })
    else (answer opFsWrite userErrEinval 0, s)

/-- Close a file, which keeps its page. -/
def fsClose (s : Server) (fd : Nat) : Reply × Server :=
  match s.openEntry fd with
  | none => (answer opFsClose userErrEbadf 0, s)
  | some (i, entry) => (answer opFsClose 0 0, s.setEntry i { entry with state := .closed })

/-- Delete a file and return its page to the memory server. -/
def fsUnlink (s : Server) (calls : Calls) (fd : Nat) : Reply × Server :=
  if h : fd < maxFiles then
    if (s.table ⟨fd, h⟩).state = .free then (answer opFsUnlink userErrEbadf 0, s)
    else if calls.send ≠ 0 then (answer opFsUnlink errEnomem 0, s)
    else if calls.recv.1 ≠ 0 ∨ calls.recv.2.1 ≠ opFree ||| opReplyFlag ∨ calls.recv.2.2 ≠ 0 then
      (answer opFsUnlink errEnomem 0, s)
    else if calls.memGrant ≠ 0 then (answer opFsUnlink errEnomem 0, s)
    else (answer opFsUnlink 0 0, s.setEntry ⟨fd, h⟩ .empty)
  else (answer opFsUnlink userErrEbadf 0, s)

/-- Serve a request. -/
def serve (s : Server) (req : Request) : Reply × Server :=
  if req.op = opFsOpen then s.fsOpen req.calls req.arg1 req.arg2 req.arg3 req.arg4
  else if req.op = opFsRead then s.fsRead req.arg1 req.arg2 req.arg3
  else if req.op = opFsWrite then s.fsWrite req.arg1 req.arg2 req.arg3
  else if req.op = opFsClose then s.fsClose req.arg1
  else if req.op = opFsUnlink then s.fsUnlink req.calls req.arg1
  else (answer req.op protoErr 0, s)

/-- Serve a request with what the client has left in the shared page, and return with the reply the
bytes that a read has left there. -/
def respond (s : Server) (req : Request) : (Reply × List UInt8) × Server :=
  let (reply, s) := { s with mem := mapPage s.mem shmVa req.window }.serve req
  let bytes := if req.op = opFsRead then (List.range reply.value).map fun i => s.mem (shmVa + i) else []
  ((reply, bytes), s)

/-- Serve requests in order. -/
def responses : Server → List Request → List (Reply × List UInt8)
  | _, [] => []
  | s, req :: rest => (s.respond req).1 :: responses (s.respond req).2 rest

end Server

end Ignium.User
