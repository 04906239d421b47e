import Ignium.Lib.Machine
import Ignium.User.Ramfs

/-!
# The file server refines a file store

A `Store` is what the file server is for: files that have a name and at most 4096 bytes, where bytes
below the size that were never written are 0. `responses_refine` says that the server replies as the
store does and returns the same bytes, for all requests, whatever the memory server and the client
do, as long as no write leaves a gap over bytes of the page that are not 0 (`Covers`).

The condition is needed: the server does not clear the page of a new file, and a write behind the
end of the file makes bytes part of it that some other file or process left in the page
(`not_responses_refine`).
-/

namespace Ignium.User

/-! ## Bytes -/

/-- Overwrite the bytes from `offset` on. What lies between the end and `offset` becomes 0. -/
def overwrite (data : List UInt8) (offset : Nat) (bytes : List UInt8) : List UInt8 :=
  (List.range (max data.length (offset + bytes.length))).map fun i =>
    if offset ≤ i then (bytes[i - offset]?).getD (data.getD i 0) else data.getD i 0

@[simp] theorem length_overwrite {data bytes : List UInt8} {offset : Nat} :
    (overwrite data offset bytes).length = max data.length (offset + bytes.length) := by
  simp [overwrite]

theorem getD_overwrite {data bytes : List UInt8} {offset i : Nat}
    (hi : i < max data.length (offset + bytes.length)) : (overwrite data offset bytes).getD i 0 =
      if offset ≤ i ∧ i < offset + bytes.length then bytes.getD (i - offset) 0
      else data.getD i 0 := by
  have hget : (overwrite data offset bytes).getD i 0 =
      if offset ≤ i then (bytes[i - offset]?).getD (data.getD i 0) else data.getD i 0 := by
    rw [overwrite, List.getD_eq_getElem?_getD, List.getElem?_map, List.getElem?_range hi]
    rfl
  rw [hget]
  by_cases hle : offset ≤ i
  · by_cases hlt : i < offset + bytes.length
    · have hbyte := List.getElem?_eq_getElem (show i - offset < bytes.length by omega)
      rw [if_pos hle, if_pos ⟨hle, hlt⟩]
      simp [List.getD, hbyte]
    · rw [if_pos hle, if_neg (by omega), List.getElem?_eq_none (by omega), Option.getD_none]
  · rw [if_neg hle, if_neg (by omega)]

/-- A copy between ranges that do not meet writes the destination and nothing else. -/
theorem copyBytes_apply (src dst n : Nat) (hapart : src + n ≤ dst ∨ dst + n ≤ src) (mem : Bytes)
    (x : Nat) : copyBytes src dst n mem x =
      if dst ≤ x ∧ x < dst + n then mem (src + (x - dst)) else mem x := by
  induction n generalizing x with
  | zero =>
    rw [if_neg (by omega)]
    rfl
  | succ n ih =>
    have hstep : copyBytes src dst (n + 1) mem =
        Function.update (copyBytes src dst n mem) (dst + n) (copyBytes src dst n mem (src + n)) := by
      unfold copyBytes
      rw [List.range_succ, List.foldl_append]
      rfl
    have hread : copyBytes src dst n mem (src + n) = mem (src + n) := by
      rw [ih (by omega), if_neg (by omega)]
    rw [hstep, hread]
    by_cases hx : x = dst + n
    · subst hx
      rw [Function.update_self, if_pos (by omega)]
      congr 1
      omega
    · rw [Function.update_of_ne hx, ih (by omega)]
      by_cases hin : dst ≤ x ∧ x < dst + n
      · rw [if_pos hin, if_pos (by omega)]
      · rw [if_neg hin, if_neg (by omega)]

/-! ## The store -/

/-- A file. -/
structure File where
  name : List UInt8
  isOpen : Bool
  data : List UInt8
  small : data.length ≤ 4096

/-- The files by their descriptors. -/
abbrev Store := Fin maxFiles → Option File

namespace File

/-- A new file. -/
def create (name : List UInt8) : File := ⟨name, true, [], Nat.zero_le _⟩

/-- The bytes of a file from `offset` on, `len` at most. -/
def read (file : File) (offset len : Nat) : List UInt8 := (file.data.drop offset).take len

/-- Write bytes that fit into a file. -/
def write (file : File) (offset : Nat) (bytes : List UInt8) (h : offset + bytes.length ≤ 4096) : File :=
  { file with
    data := overwrite file.data offset bytes
    small := by
      rw [length_overwrite]
      exact max_le file.small h }

end File

/-- The memory server has granted a page, and it is mapped. -/
def Calls.grantsPage (calls : Calls) : Bool :=
  calls.send = 0 ∧ calls.recv = (0, opAlloc ||| opReplyFlag, 0) ∧ calls.memMap = 0

/-- The memory server has taken a page back. -/
def Calls.takesPage (calls : Calls) : Bool :=
  calls.send = 0 ∧ calls.recv = (0, opFree ||| opReplyFlag, 0) ∧ calls.memGrant = 0

/-- The first bytes of the shared page. -/
def Request.payload (req : Request) (n : Nat) : List UInt8 := (List.range n).map req.window

namespace Store

/-- A store without files. -/
def empty : Store := fun _ => none

/-- The file behind a descriptor. -/
def file (st : Store) (fd : Nat) : Option (Fin maxFiles × File) :=
  if h : fd < maxFiles then (st ⟨fd, h⟩).map fun file => (⟨fd, h⟩, file) else none

/-- The open file behind a descriptor. -/
def openFile (st : Store) (fd : Nat) : Option (Fin maxFiles × File) :=
  (st.file fd).filter fun entry => entry.2.isOpen

/-- The file with a name. -/
def lookup (st : Store) (name : List UInt8) : Option (Fin maxFiles × File) :=
  ((List.finRange maxFiles).find? fun fd => (st fd).any fun file => file.name = name).bind
    fun fd => st.file fd

/-- The first descriptor without a file. -/
def vacant (st : Store) : Option (Fin maxFiles) :=
  (List.finRange maxFiles).find? fun fd => (st fd).isNone

/-- Set the file behind a descriptor. -/
def set (st : Store) (fd : Fin maxFiles) (file : Option File) : Store := Function.update st fd file

/-- Open a file: one that is closed is opened again, and if there is none with this name it is
created. -/
def openByName (st : Store) (name : List UInt8) (grants : Bool) : Reply × Store :=
  match st.lookup name with
  | some (fd, file) =>
    if file.isOpen then (answer opFsOpen userErrEexist 0, st)
    else (answer opFsOpen 0 fd, st.set fd (some { file with isOpen := true }))
  | none =>
    match st.vacant with
    | some fd =>
      if grants then (answer opFsOpen 0 fd, st.set fd (some (.create name)))
      else (answer opFsOpen errEnomem 0, st)
    | none => (answer opFsOpen errEnomem 0, st)

/-- Serve a request: the reply, the bytes that are returned, and the files afterwards. -/
def respond (st : Store) (req : Request) : (Reply × List UInt8) × Store :=
  if req.op = opFsOpen then
    if req.arg1 = 0 ∨ req.arg1 > nameMax then ((answer opFsOpen userErrEinval 0, []), st)
    else
      let name := (nameFromWords req.arg2 req.arg3 req.arg4).toList.take req.arg1
      let (reply, st) := st.openByName name req.calls.grantsPage
      ((reply, []), st)
  else if req.op = opFsRead then
    match st.openFile req.arg1 with
    | none => ((answer opFsRead userErrEbadf 0, []), st)
    | some (_, file) =>
      let bytes := file.read req.arg2 req.arg3
      ((answer opFsRead 0 bytes.length, bytes), st)
  else if req.op = opFsWrite then
    match st.openFile req.arg1 with
    | none => ((answer opFsWrite userErrEbadf 0, []), st)
    | some (fd, file) =>
      if h : req.arg2 < 4096 ∧ req.arg2 + (req.payload req.arg3).length ≤ 4096 then
        ((answer opFsWrite 0 req.arg3, []),
          st.set fd (some (file.write req.arg2 (req.payload req.arg3) h.2)))
      else ((answer opFsWrite userErrEinval 0, []), st)
  else if req.op = opFsClose then
    match st.openFile req.arg1 with
    | none => ((answer opFsClose userErrEbadf 0, []), st)
    | some (fd, file) => ((answer opFsClose 0 0, []), st.set fd (some { file with isOpen := false }))
  else if req.op = opFsUnlink then
    match st.file req.arg1 with
    | none => ((answer opFsUnlink userErrEbadf 0, []), st)
    | some (fd, _) =>
      if req.calls.takesPage then ((answer opFsUnlink 0 0, []), st.set fd none)
      else ((answer opFsUnlink errEnomem 0, []), st)
  else ((answer req.op protoErr 0, []), st)

/-- Serve requests in order. -/
def responses : Store → List Request → List (Reply × List UInt8)
  | _, [] => []
  | st, req :: rest => (st.respond req).1 :: responses (st.respond req).2 rest

end Store

/-! ## The simulation -/

/-- An entry of the table and the page of its file are as a file says. -/
def Shows (entry : FileEntry) (page : Bytes) : Option File → Prop
  | none => entry.state = .free ∧ entry.nameLen = 0
  | some file =>
    entry.state = (if file.isOpen then .opened else .closed) ∧
    entry.nameLen = file.name.length ∧ entry.name.toList.take entry.nameLen = file.name ∧
    entry.size = file.data.length ∧ ∀ i, i < file.data.length → page i = file.data.getD i 0

/-- The server holds the files of the store. -/
def Implements (s : Server) (st : Store) : Prop :=
  ∀ fd, Shows (s.table fd) (fun i => s.mem (pageVa fd + i)) (st fd)

/-- A write that leaves a gap behind the end of the file leaves it over zeros. -/
def Covers (s : Server) (req : Request) : Prop :=
  req.op = opFsWrite → ∀ fd entry, s.openEntry req.arg1 = some (fd, entry) →
    ∀ i, entry.size ≤ i → i < req.arg2 → i < 4096 → s.mem (pageVa fd + i) = 0

variable {s : Server} {st : Store} {fd : Fin maxFiles} {page page' mem : Bytes} {entry : FileEntry}
  {file : Option File} {req : Request} {calls : Calls}

theorem Shows.congr (h : Shows entry page file) (hpage : ∀ i, i < 4096 → page' i = page i) :
    Shows entry page' file := by
  cases file with
  | none => exact h
  | some file =>
    obtain ⟨hstate, hlen, hname, hsize, hdata⟩ := h
    refine ⟨hstate, hlen, hname, hsize, fun i hi => ?_⟩
    rw [hpage i (hi.trans_le file.small), hdata i hi]

/-- The pages of the files meet neither each other nor the shared page. -/
theorem pageVa_apart (fd : Fin maxFiles) {i : Nat} (hi : i < 4096) :
    shmVa + 4096 ≤ pageVa fd + i ∧ ∀ other : Fin maxFiles, other ≠ fd →
      ¬ (pageVa other ≤ pageVa fd + i ∧ pageVa fd + i < pageVa other + 4096) := by
  unfold pageVa shmVa ramfsVa
  refine ⟨by omega, fun other hne => ?_⟩
  have hval : other.val ≠ fd.val := fun heq => hne (Fin.ext heq)
  omega

namespace Implements

theorem start (mem : Bytes) : Implements (.start mem) .empty := fun _ => ⟨rfl, rfl⟩

section

variable (h : Implements s st)
include h

/-- One entry, its page and its file change together. -/
theorem set (hother : ∀ other : Fin maxFiles, other ≠ fd → ∀ i, i < 4096 →
      mem (pageVa other + i) = s.mem (pageVa other + i))
    (hshows : Shows entry (fun i => mem (pageVa fd + i)) file) :
    Implements ({ s with mem := mem }.setEntry fd entry) (st.set fd file) := by
  intro other
  by_cases hne : other = fd
  · subst hne
    have htable : (({ s with mem := mem } : Server).setEntry other entry).table other = entry :=
      Function.update_self _ _ _
    have hfile : st.set other file other = file := Function.update_self _ _ _
    rw [htable, hfile]
    exact hshows
  · have htable : (({ s with mem := mem } : Server).setEntry fd entry).table other = s.table other :=
      Function.update_of_ne hne _ _
    have hfile : st.set fd file other = st other := Function.update_of_ne hne _ _
    rw [htable, hfile]
    exact (h other).congr (hother other hne)

/-- The entry and the file of one descriptor change, and no page does. -/
theorem setEntry (hshows : Shows entry (fun i => s.mem (pageVa fd + i)) file) :
    Implements (s.setEntry fd entry) (st.set fd file) :=
  h.set (fun _ _ _ _ => rfl) hshows

/-- The memory changes outside of the pages of the files. -/
theorem withMem
    (hpages : ∀ fd : Fin maxFiles, ∀ i, i < 4096 → mem (pageVa fd + i) = s.mem (pageVa fd + i)) :
    Implements { s with mem := mem } st := fun fd => (h fd).congr (hpages fd)

/-- The client may write what it likes into the shared page. -/
theorem withWindow (window : Bytes) :
    Implements { s with mem := mapPage s.mem shmVa window } st := by
  refine h.withMem fun fd i hi => if_neg ?_
  have hapart := (pageVa_apart fd hi).1
  omega

/-- The server and the store have the same files open. -/
theorem openEntry_eq (fd : Nat) :
    (s.openEntry fd = none ∧ st.openFile fd = none) ∨
    ∃ (i : Fin maxFiles) (file : File), i.val = fd ∧ s.openEntry fd = some (i, s.table i) ∧
      st.openFile fd = some (i, file) ∧ file.isOpen = true ∧
      Shows (s.table i) (fun x => s.mem (pageVa i + x)) (some file) := by
  unfold Server.openEntry Store.openFile Store.file
  by_cases hlt : fd < maxFiles
  · rw [dif_pos hlt, dif_pos hlt]
    have hshows := h ⟨fd, hlt⟩
    cases hfile : st ⟨fd, hlt⟩ with
    | none =>
      rw [hfile] at hshows
      rw [hshows.1]
      exact .inl ⟨rfl, rfl⟩
    | some file =>
      rw [hfile] at hshows
      cases hopen : file.isOpen with
      | false =>
        have hstate : (s.table ⟨fd, hlt⟩).state = .closed := by
          rw [hshows.1, hopen]
          rfl
        refine .inl ⟨by rw [hstate]; rfl, ?_⟩
        simp [Option.filter, hopen]
      | true =>
        have hstate : (s.table ⟨fd, hlt⟩).state = .opened := by
          rw [hshows.1, hopen]
          rfl
        refine .inr ⟨⟨fd, hlt⟩, file, rfl, by rw [if_pos hstate], ?_, hopen, hshows⟩
        simp [Option.filter, hopen]
  · rw [dif_neg hlt, dif_neg hlt]
    exact .inl ⟨rfl, rfl⟩

/-- The names of the table are those of the store. -/
theorem find_name {n : Nat} (hpos : n ≠ 0) (hmax : n ≤ nameMax) (name : Vector UInt8 nameMax) :
    ((List.finRange maxFiles).find? fun fd => (s.table fd).nameLen = n ∧
        (s.table fd).name.toList.take n = name.toList.take n) =
      (List.finRange maxFiles).find? fun fd =>
        (st fd).any fun file => file.name = name.toList.take n := by
  congr 1
  funext fd
  have hshows := h fd
  cases hfile : st fd with
  | none =>
    rw [hfile] at hshows
    simpa [hshows.2] using fun heq => absurd heq.symm hpos
  | some file =>
    rw [hfile] at hshows
    obtain ⟨-, hlen, hname, -, -⟩ := hshows
    have hlength : (name.toList.take n).length = n := by simpa using hmax
    rw [Option.any_some]
    refine decide_eq_decide.mpr ⟨?_, fun heq => ?_⟩
    · rintro ⟨rfl, htake⟩
      rw [← hname, htake]
    · have hn : (s.table fd).nameLen = n := by rw [hlen, heq, hlength]
      refine ⟨hn, ?_⟩
      rw [hn] at hname
      rw [hname, heq]

/-- The free entries of the table are those without a file. -/
theorem find_free :
    ((List.finRange maxFiles).find? fun fd => (s.table fd).state = .free) = st.vacant := by
  unfold Store.vacant
  congr 1
  funext fd
  have hshows := h fd
  cases hfile : st fd with
  | none =>
    rw [hfile] at hshows
    simpa using hshows.1
  | some file =>
    rw [hfile] at hshows
    rw [hshows.1]
    cases file.isOpen <;> rfl

end

end Implements

/-- A page is granted and mapped, or there is no memory. -/
theorem allocFilePage_eq (calls : Calls) (fd : Nat) (mem : Bytes) : allocFilePage calls fd mem =
    if calls.grantsPage then .ok (mapPage mem (pageVa fd) calls.page) else .error errEnomem := by
  obtain ⟨send, ⟨err, op, status⟩, memMap, page, memGrant⟩ := calls
  simp only [allocFilePage, Calls.grantsPage, decide_eq_true_eq, Prod.mk.injEq]
  by_cases hsend : send = 0
  · by_cases hrecv : err = 0 ∧ op = opAlloc ||| opReplyFlag ∧ status = 0
    · by_cases hmap : memMap = 0
      · simp [hsend, hrecv, hmap]
      · simp [hsend, hrecv, hmap]
    · rw [if_neg (not_not.mpr hsend), if_pos (by tauto), if_neg (by tauto)]
  · simp [hsend]

/-- The page of a file is taken back, or there is no memory. -/
theorem fsUnlink_eq (s : Server) (calls : Calls) (fd : Fin maxFiles) : s.fsUnlink calls fd =
    if (s.table fd).state = .free then (answer opFsUnlink userErrEbadf 0, s)
    else if calls.takesPage then (answer opFsUnlink 0 0, s.setEntry fd .empty)
    else (answer opFsUnlink errEnomem 0, s) := by
  obtain ⟨send, ⟨err, op, status⟩, memMap, page, memGrant⟩ := calls
  simp only [Server.fsUnlink, fd.isLt, dite_true, Calls.takesPage, decide_eq_true_eq, Prod.mk.injEq]
  by_cases hsend : send = 0
  · by_cases hrecv : err = 0 ∧ op = opFree ||| opReplyFlag ∧ status = 0
    · by_cases hgrant : memGrant = 0
      · simp [hsend, hrecv, hgrant]
      · simp [hsend, hrecv, hgrant]
    · have hbad : err ≠ 0 ∨ op ≠ opFree ||| opReplyFlag ∨ status ≠ 0 := by tauto
      simp [hsend, hrecv, hbad]
  · simp [hsend]

namespace Implements

section

variable (h : Implements s st)
include h

/-- A request to open a file. -/
theorem fsOpen {n : Nat} (hpos : n ≠ 0) (hmax : n ≤ nameMax) (calls : Calls) (w0 w1 w2 : Nat) :
    (s.fsOpen calls n w0 w1 w2).1 =
      (st.openByName ((nameFromWords w0 w1 w2).toList.take n) calls.grantsPage).1 ∧
    Implements (s.fsOpen calls n w0 w1 w2).2
      (st.openByName ((nameFromWords w0 w1 w2).toList.take n) calls.grantsPage).2 := by
  generalize hname : nameFromWords w0 w1 w2 = name
  have hfind := h.find_name hpos hmax name
  unfold Server.fsOpen Store.openByName Store.lookup
  rw [if_neg (by omega), hname]
  dsimp only
  rw [hfind]
  cases hfound : (List.finRange maxFiles).find? fun fd =>
      (st fd).any fun file => file.name = name.toList.take n with
  | some fd =>
    have hany := List.find?_some hfound
    obtain ⟨file, hfile, -⟩ := Option.any_eq_true _ _ |>.mp hany
    have hshows := h fd
    rw [hfile] at hshows
    have hbind : (some fd).bind (fun fd => st.file fd) = some (fd, file) := by
      simp [Store.file, hfile]
    rw [hbind]
    cases hopen : file.isOpen with
    | true =>
      have hstate : (s.table fd).state = .opened := by
        rw [hshows.1, hopen]
        rfl
      simp only [hstate, hopen, if_true, true_and]
      exact h
    | false =>
      have hstate : (s.table fd).state = .closed := by
        rw [hshows.1, hopen]
        rfl
      simp only [hstate, hopen]
      exact ⟨rfl, h.setEntry ⟨rfl, hshows.2⟩⟩
  | none =>
    rw [h.find_free]
    cases hvacant : st.vacant with
    | none => exact ⟨rfl, h⟩
    | some fd =>
      dsimp only [Option.bind_none]
      rw [allocFilePage_eq]
      cases calls.grantsPage with
      | false => exact ⟨rfl, h⟩
      | true =>
        refine ⟨rfl, h.set (fun other hne i hi => if_neg ?_) ?_⟩
        · exact (pageVa_apart other hi).2 fd (Ne.symm hne)
        · have hlength : (name.toList.take n).length = n := by simpa using hmax
          exact ⟨rfl, hlength.symm, rfl, rfl, fun i hi => absurd hi (Nat.not_lt_zero i)⟩

/-- A read of an open file. -/
theorem fsRead {file : File} (hentry : s.openEntry fd = some (fd, s.table fd))
    (hshows : Shows (s.table fd) (fun i => s.mem (pageVa fd + i)) (some file)) (offset len : Nat) :
    (s.fsRead fd offset len).1 = answer opFsRead 0 (file.read offset len).length ∧
    ((List.range (file.read offset len).length).map fun i =>
      (s.fsRead fd offset len).2.mem (shmVa + i)) = file.read offset len ∧
    Implements (s.fsRead fd offset len).2 st := by
  obtain ⟨-, -, -, hsize, hdata⟩ := hshows
  have hlength : (file.read offset len).length = min len (file.data.length - offset) := by
    simp [File.read]
  unfold Server.fsRead
  rw [hentry]
  dsimp only
  by_cases hend : offset ≥ (s.table fd).size
  · have hnil : file.read offset len = [] := by
      rw [← List.length_eq_zero_iff, hlength]
      omega
    rw [if_pos hend, hnil]
    exact ⟨rfl, rfl, h⟩
  · rw [if_neg hend, hlength, hsize]
    have hsmall := file.small
    have hbelow := (pageVa_apart fd (i := 0) (by decide)).1
    have hcopy := copyBytes_apply (pageVa fd + offset) shmVa
      (min len (file.data.length - offset)) (.inr (by omega)) s.mem
    refine ⟨rfl, ?_, h.withMem fun other i hi => ?_⟩
    · dsimp only
      apply List.ext_getElem
      · simp [hlength]
      · intro i hi _
        have hlt : i < min len (file.data.length - offset) := by simpa using hi
        have hread : s.mem (pageVa fd + (offset + i)) = file.data.getD (offset + i) 0 :=
          hdata (offset + i) (by omega)
        rw [List.getElem_map, List.getElem_range, hcopy, if_pos (by omega), Nat.add_sub_cancel_left,
          Nat.add_assoc, hread]
        have hbound : offset + i < file.data.length := by omega
        simp [File.read, List.getD, List.getElem?_eq_getElem hbound]
    · have hapart := (pageVa_apart other hi).1
      rw [hcopy, if_neg (by omega)]

/-- A write of an open file that fits, where the gap it leaves is over zeros. -/
theorem fsWrite {file : File} (hentry : s.openEntry fd = some (fd, s.table fd))
    (hshows : Shows (s.table fd) (fun i => s.mem (pageVa fd + i)) (some file)) (offset len : Nat)
    (hwindow : ∀ i, i < 4096 → s.mem (shmVa + i) = req.window i)
    (hcovers : ∀ i, (s.table fd).size ≤ i → i < offset → i < 4096 → s.mem (pageVa fd + i) = 0)
    (hoffset : offset < 4096) (hfits : offset + (req.payload len).length ≤ 4096) :
    (s.fsWrite fd offset len).1 = answer opFsWrite 0 len ∧
    Implements (s.fsWrite fd offset len).2
      (st.set fd (some (file.write offset (req.payload len) hfits))) := by
  obtain ⟨hstate, hlen, hname, hsize, hdata⟩ := hshows
  have hlength : (req.payload len).length = len := by simp [Request.payload]
  have hbelow := (pageVa_apart fd (i := 0) (by decide)).1
  have hcopy := copyBytes_apply shmVa (pageVa fd + offset) len (.inl (by omega)) s.mem
  unfold Server.fsWrite
  rw [hentry]
  dsimp only
  rw [if_pos (by omega)]
  refine ⟨rfl, h.set (fun other hne i hi => ?_) ⟨hstate, hlen, hname, ?_, fun i hi => ?_⟩⟩
  · have hapart := (pageVa_apart other hi).2 fd (Ne.symm hne)
    rw [hcopy, if_neg (by omega)]
  · simp [File.write, hsize, hlength]
  · have hi : i < max file.data.length (offset + (req.payload len).length) := by
      simpa [File.write] using hi
    have hsmall := file.small
    simp only [File.write, getD_overwrite hi, hlength, hcopy]
    by_cases hin : offset ≤ i ∧ i < offset + len
    · rw [if_pos (by omega), if_pos hin, hwindow _ (by omega)]
      have hsub : pageVa fd + i - (pageVa fd + offset) = i - offset := by omega
      simp [Request.payload, List.getD, hsub, List.getElem?_range (show i - offset < len by omega)]
    · rw [if_neg (by omega), if_neg hin]
      -- Outside of what is written a byte is part of the file already, or of the gap.
      by_cases hold : i < file.data.length
      · exact hdata i hold
      · rw [hcovers i (by omega) (by omega) (by omega), List.getD_eq_getElem?_getD,
          List.getElem?_eq_none (by omega), Option.getD_none]

/-- A file is closed. -/
theorem fsClose {file : File} (hentry : s.openEntry fd = some (fd, s.table fd))
    (hshows : Shows (s.table fd) (fun i => s.mem (pageVa fd + i)) (some file)) :
    (s.fsClose fd).1 = answer opFsClose 0 0 ∧
    Implements (s.fsClose fd).2 (st.set fd (some { file with isOpen := false })) := by
  unfold Server.fsClose
  rw [hentry]
  exact ⟨rfl, h.setEntry ⟨rfl, hshows.2⟩⟩

/-- A file is deleted if the memory server takes its page. -/
theorem fsUnlink (calls : Calls) (fd : Nat) :
    (st.file fd = none ∧ s.fsUnlink calls fd = (answer opFsUnlink userErrEbadf 0, s)) ∨
    ∃ (i : Fin maxFiles) (file : File), st.file fd = some (i, file) ∧
      if calls.takesPage then (s.fsUnlink calls fd).1 = answer opFsUnlink 0 0 ∧
        Implements (s.fsUnlink calls fd).2 (st.set i none)
      else s.fsUnlink calls fd = (answer opFsUnlink errEnomem 0, s) := by
  unfold Store.file
  by_cases hlt : fd < maxFiles
  · rw [dif_pos hlt, fsUnlink_eq s calls ⟨fd, hlt⟩]
    have hshows := h ⟨fd, hlt⟩
    cases hfile : st ⟨fd, hlt⟩ with
    | none =>
      rw [hfile] at hshows
      rw [if_pos hshows.1]
      exact .inl ⟨rfl, rfl⟩
    | some file =>
      rw [hfile] at hshows
      have hused : (s.table ⟨fd, hlt⟩).state ≠ .free := by
        rw [hshows.1]
        cases file.isOpen <;> nofun
      rw [if_neg hused]
      refine .inr ⟨⟨fd, hlt⟩, file, rfl, ?_⟩
      split
      · exact ⟨rfl, h.setEntry ⟨rfl, rfl⟩⟩
      · rfl
  · rw [dif_neg hlt, Server.fsUnlink, dif_neg hlt]
    exact .inl ⟨rfl, rfl⟩

/-- A request is answered as the store answers it. -/
theorem respond (hcovers : Covers s req) :
    (s.respond req).1 = (st.respond req).1 ∧ Implements (s.respond req).2 (st.respond req).2 := by
  have hs := h.withWindow req.window
  have hwindow : ∀ i, i < 4096 → mapPage s.mem shmVa req.window (shmVa + i) = req.window i := by
    intro i hi
    rw [mapPage, if_pos (by omega), Nat.add_sub_cancel_left]
  unfold Server.respond Store.respond Server.serve
  by_cases hopen : req.op = opFsOpen
  · have hread : req.op ≠ opFsRead := by
      rw [hopen]
      decide
    simp only [if_pos hopen, if_neg hread]
    by_cases hname : req.arg1 = 0 ∨ req.arg1 > nameMax
    · rw [if_pos hname, Server.fsOpen, if_pos hname]
      exact ⟨rfl, hs⟩
    · rw [if_neg hname]
      have hsim := hs.fsOpen (n := req.arg1) (by omega) (by omega) req.calls req.arg2 req.arg3 req.arg4
      exact ⟨by rw [hsim.1], hsim.2⟩
  by_cases hread : req.op = opFsRead
  · simp only [if_neg hopen, if_pos hread]
    obtain ⟨hentry, hfile⟩ | ⟨fd, file, hfd, hentry, hfile, -, hshows⟩ := hs.openEntry_eq req.arg1
    · rw [hfile, Server.fsRead, hentry]
      exact ⟨rfl, hs⟩
    · rw [hfile, ← hfd]
      rw [← hfd] at hentry
      obtain ⟨hreply, hbytes, hsim⟩ := hs.fsRead hentry hshows req.arg2 req.arg3
      exact ⟨by rw [hreply]; exact congrArg _ hbytes, hsim⟩
  by_cases hwrite : req.op = opFsWrite
  · simp only [if_neg hopen, if_neg hread, if_pos hwrite]
    obtain ⟨hentry, hfile⟩ | ⟨fd, file, hfd, hentry, hfile, -, hshows⟩ := hs.openEntry_eq req.arg1
    · rw [hfile, Server.fsWrite, hentry]
      exact ⟨rfl, hs⟩
    · have hgap := hcovers hwrite fd (s.table fd) hentry
      rw [hfile, ← hfd]
      rw [← hfd] at hentry
      have hlength : (req.payload req.arg3).length = req.arg3 := by simp [Request.payload]
      dsimp only
      by_cases hfits : req.arg2 < 4096 ∧ req.arg2 + (req.payload req.arg3).length ≤ 4096
      · rw [dif_pos hfits]
        have hzero : ∀ i, (s.table fd).size ≤ i → i < req.arg2 → i < 4096 →
            mapPage s.mem shmVa req.window (pageVa fd + i) = 0 := by
          intro i hsize hlt hi
          have hapart := (pageVa_apart fd hi).1
          rw [mapPage, if_neg (by omega), hgap i hsize hlt hi]
        have hsim := hs.fsWrite hentry hshows req.arg2 req.arg3 hwindow hzero hfits.1 hfits.2
        exact ⟨by rw [hsim.1], hsim.2⟩
      · rw [dif_neg hfits, Server.fsWrite, hentry]
        dsimp only
        rw [if_neg (by omega)]
        exact ⟨rfl, hs⟩
  by_cases hclose : req.op = opFsClose
  · simp only [if_neg hopen, if_neg hread, if_neg hwrite, if_pos hclose]
    obtain ⟨hentry, hfile⟩ | ⟨fd, file, hfd, hentry, hfile, -, hshows⟩ := hs.openEntry_eq req.arg1
    · rw [hfile, Server.fsClose, hentry]
      exact ⟨rfl, hs⟩
    · rw [hfile, ← hfd]
      rw [← hfd] at hentry
      have hsim := hs.fsClose hentry hshows
      exact ⟨by rw [hsim.1], hsim.2⟩
  by_cases hunlink : req.op = opFsUnlink
  · simp only [if_neg hopen, if_neg hread, if_neg hwrite, if_neg hclose, if_pos hunlink]
    obtain ⟨hfile, heq⟩ | ⟨fd, file, hfile, hsim⟩ := hs.fsUnlink req.calls req.arg1
    · rw [hfile, heq]
      exact ⟨rfl, hs⟩
    · rw [hfile]
      dsimp only
      cases htakes : req.calls.takesPage with
      | true =>
        rw [if_pos htakes] at hsim
        exact ⟨by rw [hsim.1]; rfl, hsim.2⟩
      | false =>
        rw [htakes, if_neg Bool.false_ne_true] at hsim
        rw [hsim]
        exact ⟨rfl, hs⟩
  · simp only [if_neg hopen, if_neg hread, if_neg hwrite, if_neg hclose, if_neg hunlink]
    exact ⟨trivial, hs⟩

end

end Implements

namespace Server

/-- The requests as operations of a machine. -/
def step (s : Server) (req : Request) : Option Server := some (s.respond req).2

end Server

/-- A server that holds the files of a store answers all requests as the store does. -/
theorem Implements.responses_eq {requests : List Request} (h : Implements s st)
    (hcovers : Machine.Each Server.step s requests Covers) :
    s.responses requests = st.responses requests := by
  induction requests generalizing s st with
  | nil => rfl
  | cons req rest ih =>
    have hreq := h.respond (hcovers [] req rest s _ rfl rfl rfl)
    rw [Server.responses, Store.responses, hreq.1, ih hreq.2 (hcovers.tail rfl)]

/-- The replies and the returned bytes are those of the store, whatever the memory held before and
whatever the memory server answers, if no write leaves a gap over bytes that are not 0. -/
theorem responses_refine (mem : Bytes) (requests : List Request)
    (hcovers : Machine.Each Server.step (.start mem) requests Covers) :
    (Server.start mem).responses requests = Store.empty.responses requests :=
  (Implements.start mem).responses_eq hcovers

/-- A write within the file or at its end leaves no gap. -/
theorem covers_of_le (h : req.op = opFsWrite →
    (s.openEntry req.arg1).all (fun found => req.arg2 ≤ found.2.size) = true) : Covers s req := by
  intro hwrite fd entry hentry i hsize hlt _
  have hle := h hwrite
  rw [hentry, Option.all_some, decide_eq_true_eq] at hle
  dsimp only at hle
  omega

/-- A request with calls that all succeed: the page that the memory server grants holds 0xaa, and
the client has left 1, 2, 3 and so on in the shared page. -/
def sampleRequest (op arg1 arg2 arg3 : Nat) : Request :=
  ⟨op, arg1, arg2, arg3, 0, fun i => UInt8.ofNat (i + 1),
    ⟨0, (0, (if op = opFsUnlink then opFree else opAlloc) ||| opReplyFlag, 0), 0, fun _ => 0xaa, 0⟩⟩

/-- A file is written, closed, opened again, read, deleted, and created again without contents. -/
def sampleRequests : List Request :=
  [sampleRequest opFsOpen 1 97 0, sampleRequest opFsWrite 0 0 3, sampleRequest opFsClose 0 0 0,
    sampleRequest opFsOpen 1 97 0, sampleRequest opFsRead 0 1 9, sampleRequest opFsUnlink 0 0 0,
    sampleRequest opFsOpen 1 97 0, sampleRequest opFsRead 0 0 9]

set_option maxRecDepth 100000 in
theorem responses_refine_sample :
    (Server.start fun _ => 0).responses sampleRequests = Store.empty.responses sampleRequests ∧
    (Store.empty.responses sampleRequests).map (fun r => (r.1.status, r.2)) =
      [(0, []), (0, []), (0, []), (0, []), (0, [2, 3]), (0, []), (0, []), (0, [])] := by
  refine ⟨responses_refine _ _ ?_, by decide +kernel⟩
  have hmeets : Machine.meets Server.step
      (fun s req => decide (req.op = opFsWrite →
        (s.openEntry req.arg1).all (fun found => req.arg2 ≤ found.2.size) = true))
      (.start fun _ => 0) sampleRequests = true := by
    decide +kernel
  exact Machine.each_of_meets (fun _ _ h => covers_of_le (of_decide_eq_true h)) hmeets

/-- A file is created, its second byte is written, and its first one is read. -/
def gapRequests : List Request :=
  [sampleRequest opFsOpen 1 97 0, sampleRequest opFsWrite 0 1 1, sampleRequest opFsRead 0 0 1]

set_option maxRecDepth 100000 in
/-- A write of the second byte makes the first one part of the file: a read returns what the page
held when it was granted, and not 0. -/
theorem not_responses_refine :
    (Server.start fun _ => 0).responses gapRequests ≠ Store.empty.responses gapRequests ∧
    ((Server.start fun _ => 0).responses gapRequests).map Prod.snd = [[], [], [0xaa]] ∧
    (Store.empty.responses gapRequests).map Prod.snd = [[], [], [0]] := by
  decide +kernel

end Ignium.User
