import Ignium.User.FileStore

/-!
# The table of the file server

`Changes` says all that a request can do to the table: change an entry that is in use, fill a free
one, or clear one. A name has at most 24 bytes and travels as three words and a length; `nameToWords`
and `nameFromWords` keep it. `namesLaw` follows a run of requests with the files that were created
(`Traced`): files in use have different names, and a name leads to the file that was created with it
until that file is deleted.
-/

namespace Ignium.User

/-! ## Names -/

/-- Encode bytes as a word, the first one at the low end. -/
def packBytes (bytes : List UInt8) : Nat :=
  bytes.zipIdx.foldl (fun w p => w ||| p.1.toNat <<< (p.2 * 8)) 0

/-- A word of an encoded name. -/
def nameWord (name : List UInt8) (i : Nat) : Nat :=
  let n := min name.length nameMax
  let base := i * 8
  if base < n then packBytes ((name.drop base).take (min (base + 8) n - base)) else 0

/-- Encode a name in three words and its length. -/
def nameToWords (name : List UInt8) : (Nat × Nat × Nat) × Nat :=
  ((nameWord name 0, nameWord name 1, nameWord name 2), min name.length nameMax)

theorem testBit_foldl_pack (bytes : List UInt8) (k acc i : Nat) :
    ((bytes.zipIdx k).foldl (fun w p => w ||| p.1.toNat <<< (p.2 * 8)) acc).testBit i =
      (acc.testBit i || (decide (k ≤ i / 8) && (bytes.getD (i / 8 - k) 0).toNat.testBit (i % 8))) := by
  induction bytes generalizing k acc with
  | nil => simp
  | cons b rest ih =>
    rw [List.zipIdx_cons, List.foldl_cons, ih, Nat.testBit_or, Nat.testBit_shiftLeft, Bool.or_assoc]
    congr 1
    rcases Nat.lt_trichotomy (i / 8) k with hlt | heq | hgt
    · have h1 : ¬ k * 8 ≤ i := by omega
      simp [h1, show ¬ k + 1 ≤ i / 8 by omega, show ¬ k ≤ i / 8 by omega]
    · have hsub : i - k * 8 = i % 8 := by omega
      simp [hsub, show k * 8 ≤ i by omega, heq]
    · -- A byte has no bits beyond its own place.
      have hsmall : b.toNat < 2 ^ (i - k * 8) :=
        b.toNat_lt.trans_le (Nat.pow_le_pow_right (by decide) (show 8 ≤ i - k * 8 by omega))
      have hcons : i / 8 - k = i / 8 - (k + 1) + 1 := by omega
      simp [Nat.testBit_lt_two_pow hsmall, show k + 1 ≤ i / 8 by omega, show k ≤ i / 8 by omega,
        hcons]

/-- The bytes of a word come back. -/
theorem byte_packBytes (bytes : List UInt8) (j : Nat) :
    UInt8.ofNat ((packBytes bytes >>> (j * 8)) &&& 0xff) = bytes.getD j 0 := by
  have hbyte : (packBytes bytes >>> (j * 8)) &&& 0xff = (bytes.getD j 0).toNat := by
    refine Nat.eq_of_testBit_eq fun i => ?_
    have hmask : (0xff : Nat) = 2 ^ 8 - 1 := by decide
    rw [Nat.testBit_and, Nat.testBit_shiftRight, packBytes, testBit_foldl_pack, hmask,
      Nat.testBit_two_pow_sub_one]
    by_cases hi : i < 8
    · simp [hi, show (j * 8 + i) / 8 = j by omega, show (j * 8 + i) % 8 = i by omega]
    · have hsmall : (bytes.getD j 0).toNat < 2 ^ i :=
        (bytes.getD j 0).toNat_lt.trans_le (Nat.pow_le_pow_right (by decide) (by omega))
      rw [Nat.testBit_lt_two_pow hsmall]
      simp [hi]
  rw [hbyte]
  exact UInt8.ofNat_toNat

theorem byte_nameWord {name : List UInt8} (hmax : name.length ≤ nameMax) (k : Nat) :
    UInt8.ofNat ((nameWord name (k / 8) >>> (k % 8 * 8)) &&& 0xff) = name.getD k 0 := by
  unfold nameWord
  dsimp only
  rw [Nat.min_eq_left hmax]
  split
  · rw [byte_packBytes]
    by_cases hk : k < name.length
    · simp [List.getD, List.getElem?_drop, show k / 8 * 8 + k % 8 = k by omega,
        show k % 8 < min (k / 8 * 8 + 8) name.length - k / 8 * 8 by omega]
    · simp [List.getD, List.getElem?_take, List.getElem?_drop, show k / 8 * 8 + k % 8 = k by omega,
        List.getElem?_eq_none (Nat.le_of_not_lt hk)]
  · rw [List.getD, List.getElem?_eq_none (by omega)]
    simp

/-- A name comes back from its words, followed by zeros. -/
theorem nameFromWords_nameToWords {name : List UInt8} (hmax : name.length ≤ nameMax) :
    (nameFromWords (nameToWords name).1.1 (nameToWords name).1.2.1 (nameToWords name).1.2.2).toList =
      name ++ List.replicate (nameMax - name.length) 0 := by
  have hsize : nameMax = 24 := rfl
  refine List.ext_getElem (by simp; omega) fun k hk hk' => ?_
  have hlt : k < nameMax := by simpa using hk
  have hword : (if k / 8 = 0 then (nameToWords name).1.1 else if k / 8 = 1 then
      (nameToWords name).1.2.1 else (nameToWords name).1.2.2) = nameWord name (k / 8) := by
    split
    · next h => rw [h]; rfl
    · split
      · next h => rw [h]; rfl
      · rw [show k / 8 = 2 by omega]; rfl
  have hget : (name ++ List.replicate (nameMax - name.length) 0)[k] = name.getD k 0 := by
    by_cases hin : k < name.length
    · simp [List.getElem_append_left hin, List.getD, hin]
    · simp [List.getElem_append_right (Nat.le_of_not_lt hin), List.getD,
        List.getElem?_eq_none (Nat.le_of_not_lt hin)]
  rw [hget, ← byte_nameWord hmax k, ← hword]
  simp [nameFromWords]

/-! ## What a request does to the table -/

/-- The entry with a name. -/
def Server.found (s : Server) (nameLen : Nat) (name : Vector UInt8 nameMax) :
    Option (Fin maxFiles) :=
  (List.finRange maxFiles).find? fun fd => (s.table fd).nameLen = nameLen ∧
    (s.table fd).name.toList.take nameLen = name.toList.take nameLen

/-- The name that a request to open a file carries. -/
def Request.name (req : Request) : Vector UInt8 nameMax := nameFromWords req.arg2 req.arg3 req.arg4

/-- The entry for which a request asks the memory server for a page. -/
def Server.creates (s : Server) (req : Request) : Option (Fin maxFiles) :=
  if req.op = opFsOpen ∧ req.arg1 ≠ 0 ∧ req.arg1 ≤ nameMax ∧ s.found req.arg1 req.name = none then
    (List.finRange maxFiles).find? fun fd => (s.table fd).state = .free
  else none

/-- The status of the reply and the table after a request. -/
inductive Changes (s : Server) (req : Request) : Nat → (Fin maxFiles → FileEntry) → Prop where
  | same {status : Nat} (hcreates : ∀ fd, s.creates req = some fd →
        req.calls.grantsPage = false ∧ status ≠ 0)
      (hunlink : req.op = opFsUnlink → status ≠ 0 ∧ ∀ fd : Fin maxFiles, fd.val = req.arg1 →
        (s.table fd).state ≠ .free → req.calls.takesPage = false) : Changes s req status s.table
  | edit (fd : Fin maxFiles) (entry : FileEntry) (hcreates : s.creates req = none)
      (hop : req.op ≠ opFsUnlink) (hused : (s.table fd).state ≠ .free) (hstate : entry.state ≠ .free)
      (hname : entry.name = (s.table fd).name) (hlen : entry.nameLen = (s.table fd).nameLen)
      (hsize : entry.size ≤ max (s.table fd).size 4096) :
      Changes s req 0 (Function.update s.table fd entry)
  | create (fd : Fin maxFiles) (hcreates : s.creates req = some fd)
      (hgrants : req.calls.grantsPage = true) :
      Changes s req 0 (Function.update s.table fd ⟨.opened, req.name, req.arg1, 0⟩)
  | clear (fd : Fin maxFiles) (hop : req.op = opFsUnlink) (hfd : fd.val = req.arg1)
      (hused : (s.table fd).state ≠ .free) (htakes : req.calls.takesPage = true) :
      Changes s req 0 (Function.update s.table fd .empty)

section Table

variable {s : Server} {req : Request} {fd : Fin maxFiles}

/-- Only a request to open a file asks for a page. -/
theorem creates_eq_none (hop : req.op ≠ opFsOpen) : s.creates req = none := if_neg fun h => hop h.1

theorem Server.openEntry_cases (s : Server) (fd : Nat) : s.openEntry fd = none ∨
    ∃ i : Fin maxFiles, i.val = fd ∧ (s.table i).state = .opened ∧
      s.openEntry fd = some (i, s.table i) := by
  unfold openEntry
  split
  · next hlt =>
    split
    · next hopen => exact .inr ⟨⟨fd, hlt⟩, rfl, hopen, rfl⟩
    · exact .inl rfl
  · exact .inl rfl

/-- A request that leaves the table alone, and is not one to open or delete a file. -/
theorem Changes.kept {status : Nat} (hopen : req.op ≠ opFsOpen) (hunlink : req.op ≠ opFsUnlink) :
    Changes s req status s.table :=
  .same (fun fd hfd => by rw [creates_eq_none hopen] at hfd; cases hfd) fun h => absurd h hunlink

theorem changes_fsOpen (hop : req.op = opFsOpen) : Changes s req
    (s.fsOpen req.calls req.arg1 req.arg2 req.arg3 req.arg4).1.status
    (s.fsOpen req.calls req.arg1 req.arg2 req.arg3 req.arg4).2.table := by
  have hunlink : req.op ≠ opFsUnlink := by rw [hop]; decide
  have hnone : s.creates req = none → ∀ {status}, Changes s req status s.table := fun h =>
    .same (fun fd hfd => by rw [h] at hfd; cases hfd) fun heq => absurd heq hunlink
  unfold Server.fsOpen
  split
  · next hbad => exact hnone (if_neg (by omega))
  next hlen =>
  dsimp only
  split
  · next fd hfind =>
    have hfound : s.found req.arg1 req.name = some fd := hfind
    have hcreates : s.creates req = none := if_neg (by simp [hfound])
    split
    · exact hnone hcreates
    · next hclosed =>
      exact .edit fd _ hcreates hunlink (by simp [hclosed]) nofun rfl rfl (le_max_left _ _)
    · exact hnone hcreates
  · next hfind =>
    have hcreates : s.creates req =
        (List.finRange maxFiles).find? fun fd => (s.table fd).state = .free :=
      if_pos ⟨hop, by omega, by omega, hfind⟩
    split
    · next fd hfree =>
      rw [allocFilePage_eq]
      cases hgrants : req.calls.grantsPage with
      | true => exact .create fd (hcreates.trans hfree) hgrants
      | false =>
        exact .same (fun _ _ => ⟨hgrants, show errEnomem ≠ 0 by decide⟩) fun h => absurd h hunlink
    · next hfree => exact hnone (hcreates.trans hfree)

theorem serve_changes (s : Server) (req : Request) :
    Changes s req (s.serve req).1.status (s.serve req).2.table := by
  unfold Server.serve
  split
  · next hop => exact changes_fsOpen hop
  next hopen =>
  split
  · next hop =>
    have hkept : ∀ status, Changes s req status s.table := fun _ =>
      .kept hopen (by rw [hop]; decide)
    unfold Server.fsRead
    split
    · exact hkept _
    · split <;> exact hkept _
  split
  · next hop =>
    have hunlink : req.op ≠ opFsUnlink := by rw [hop]; decide
    unfold Server.fsWrite
    obtain hnone | ⟨fd, -, hstate, hentry⟩ := s.openEntry_cases req.arg1
    · rw [hnone]
      exact .kept hopen hunlink
    · rw [hentry]
      dsimp only
      split
      · refine .edit fd _ (creates_eq_none hopen) hunlink (by simp [hstate]) (by simp [hstate]) rfl rfl
          ?_
        dsimp only
        omega
      · exact .kept hopen hunlink
  split
  · next hop =>
    have hunlink : req.op ≠ opFsUnlink := by rw [hop]; decide
    unfold Server.fsClose
    obtain hnone | ⟨fd, -, hstate, hentry⟩ := s.openEntry_cases req.arg1
    · rw [hnone]
      exact .kept hopen hunlink
    · rw [hentry]
      exact .edit fd _ (creates_eq_none hopen) hunlink (by simp [hstate]) nofun rfl rfl
        (le_max_left _ _)
  split
  · next hop =>
    have hnone : ∀ fd, s.creates req ≠ some fd := fun fd => by rw [creates_eq_none hopen]; nofun
    by_cases hlt : req.arg1 < maxFiles
    · rw [fsUnlink_eq s req.calls ⟨req.arg1, hlt⟩]
      split
      · next hfree =>
        refine .same (fun fd hfd => absurd hfd (hnone fd)) fun _ =>
          ⟨show userErrEbadf ≠ 0 by decide, fun fd hfd hused => absurd ?_ hused⟩
        rwa [show fd = ⟨req.arg1, hlt⟩ from Fin.ext hfd]
      · next hused =>
        split
        · next htakes => exact .clear ⟨req.arg1, hlt⟩ hop rfl hused htakes
        · next htakes =>
          exact .same (fun fd hfd => absurd hfd (hnone fd)) fun _ =>
            ⟨show errEnomem ≠ 0 by decide, fun _ _ _ => Bool.not_eq_true _ ▸ htakes⟩
    · rw [Server.fsUnlink, dif_neg hlt]
      exact .same (fun fd hfd => absurd hfd (hnone fd)) fun _ =>
        ⟨show userErrEbadf ≠ 0 by decide, fun fd hfd => absurd (hfd ▸ fd.isLt) hlt⟩
  · next hunlink => exact .kept hopen hunlink

/-- The shared page does not matter. -/
theorem respond_changes (s : Server) (req : Request) :
    Changes s req (s.respond req).1.1.status (s.respond req).2.table := by
  have h := serve_changes { s with mem := mapPage s.mem shmVa req.window } req
  change Changes s req (Server.serve _ req).1.status (Server.serve _ req).2.table
  generalize (Server.serve _ req).1.status = status at h ⊢
  generalize (Server.serve _ req).2.table = table at h ⊢
  cases h with
  | same hcreates hunlink => exact .same hcreates hunlink
  | edit fd entry hcreates hop hused hstate hname hlen hsize =>
    exact .edit fd entry hcreates hop hused hstate hname hlen hsize
  | create fd hcreates hgrants => exact .create fd hcreates hgrants
  | clear fd hop hfd hused htakes => exact .clear fd hop hfd hused htakes

end Table

/-! ## Files and their names -/

/-- The server with the number of requests so far and, for each entry in use, the number and the name of
the OPEN that has filled it. -/
structure Traced where
  server : Server
  clock : Nat
  born : Fin maxFiles → Option (Nat × List UInt8)

/-- The name of the file that a request opens. -/
def Request.openedName (req : Request) : List UInt8 := req.name.toList.take req.arg1

namespace Traced

def start (mem : Bytes) : Traced := ⟨.start mem, 0, fun _ => none⟩

/-- A successful OPEN may fill an entry, and a successful UNLINK clears one. -/
def bornAfter (t : Traced) (req : Request) (status : Nat) (fd : Fin maxFiles) :
    Option (Nat × List UInt8) :=
  if status ≠ 0 then t.born fd
  else if t.server.creates req = some fd then some (t.clock, req.openedName)
  else if req.op = opFsUnlink ∧ fd.val = req.arg1 then none
  else t.born fd

/-- Serve a request. -/
def step (t : Traced) (req : Request) : Option Traced :=
  let ((reply, _), server) := t.server.respond req
  some ⟨server, t.clock + 1, t.bornAfter req reply.status⟩

/-- The entry that an OPEN of a name finds. -/
def finds (t : Traced) (name : List UInt8) : Option (Fin maxFiles) :=
  let words := (nameToWords name).1
  t.server.found (nameToWords name).2 (nameFromWords words.1 words.2.1 words.2.2)

end Traced

/-- The name of an entry. -/
def FileEntry.fileName (entry : FileEntry) : List UInt8 := entry.name.toList.take entry.nameLen

/-- Names identify files: an OPEN of `y` finds the entry that the `n`th request has filled with a file
`x` exactly when the names are the same and the file has not been deleted since. The OPEN is refused
if the file is open, and opens it otherwise. -/
structure NamesLaw (t : Traced) : Prop where
  distinct : ∀ fd fd', (t.server.table fd).state ≠ .free → (t.server.table fd').state ≠ .free →
    (t.server.table fd).fileName = (t.server.table fd').fileName → fd = fd'
  free : ∀ fd, (t.server.table fd).state = .free → (t.server.table fd).nameLen = 0
  reaches : ∀ y, y ≠ [] → y.length ≤ nameMax → ∀ n x,
    (∃ fd, t.finds y = some fd ∧ t.born fd = some (n, x)) ↔ x = y ∧ ∃ fd, t.born fd = some (n, x)
  answers : ∀ y, y ≠ [] → y.length ≤ nameMax → ∀ fd, t.finds y = some fd → ∀ calls,
    (t.server.fsOpen calls (nameToWords y).2 (nameToWords y).1.1 (nameToWords y).1.2.1
      (nameToWords y).1.2.2).1 =
    if (t.server.table fd).state = .opened then answer opFsOpen userErrEexist 0
    else answer opFsOpen 0 fd

/-- An entry is free, or holds a file with a name. -/
def FileEntry.Is (entry : FileEntry) : Option (Nat × List UInt8) → Prop
  | none => entry.state = .free ∧ entry.nameLen = 0
  | some (_, x) => entry.state ≠ .free ∧ entry.nameLen = x.length ∧ entry.fileName = x ∧ x ≠ []

/-- The entries in use hold the files that were created and not deleted. -/
structure Books (table : Fin maxFiles → FileEntry) (born : Fin maxFiles → Option (Nat × List UInt8)) :
    Prop where
  shows : ∀ fd, (table fd).Is (born fd)
  distinct : ∀ {fd fd' n n' x}, born fd = some (n, x) → born fd' = some (n', x) → fd = fd'

namespace Books

variable {table : Fin maxFiles → FileEntry} {born born' : Fin maxFiles → Option (Nat × List UInt8)}
  {fd : Fin maxFiles} {entry : FileEntry}

/-- One entry and its file change together. -/
theorem set (h : Books table born) (hself : entry.Is (born' fd))
    (hother : ∀ fd', fd' ≠ fd → born' fd' = born fd')
    (hnew : ∀ n x fd' n', fd' ≠ fd → born' fd = some (n, x) → born fd' ≠ some (n', x)) :
    Books (Function.update table fd entry) born' := by
  refine ⟨fun fd' => ?_, fun {a b n n' x} ha hb => ?_⟩
  · by_cases heq : fd' = fd
    · rw [heq, Function.update_self]
      exact hself
    · rw [Function.update_of_ne heq, hother fd' heq]
      exact h.shows fd'
  · by_cases hafd : a = fd
    · by_contra hne
      have hbfd : b ≠ fd := fun heq => hne (hafd.trans heq.symm)
      exact hnew n x b n' hbfd (hafd ▸ ha) (hother b hbfd ▸ hb)
    · by_cases hbfd : b = fd
      · exact absurd (hother a hafd ▸ ha) (hnew n' x a n hafd (hbfd ▸ hb))
      · exact h.distinct (hother a hafd ▸ ha) (hother b hbfd ▸ hb)

/-- A search by name finds the file with this name. -/
theorem found_iff {s : Server} (h : Books s.table born) {len : Nat} (hpos : len ≠ 0)
    {name : Vector UInt8 nameMax} : s.found len name = some fd ↔
      ∃ n, born fd = some (n, name.toList.take len) ∧ (s.table fd).nameLen = len := by
  have hmatch : ∀ fd, ((s.table fd).nameLen = len ∧
      (s.table fd).name.toList.take len = name.toList.take len) ↔
      ∃ n, born fd = some (n, name.toList.take len) ∧ (s.table fd).nameLen = len := by
    intro fd
    have hshows := h.shows fd
    rcases hborn : born fd with _ | ⟨n, x⟩
    · rw [hborn] at hshows
      simp only [hshows.2, reduceCtorEq, false_and, exists_false, iff_false]
      exact fun hlen => hpos hlen.1.symm
    · rw [hborn] at hshows
      obtain ⟨-, -, hname, -⟩ := hshows
      constructor
      · rintro ⟨rfl, htake⟩
        exact ⟨n, by rw [← hname, ← htake]; rfl, rfl⟩
      · rintro ⟨n', heq, rfl⟩
        cases heq
        exact ⟨rfl, hname⟩
  constructor
  · intro hfind
    have hyes := List.find?_some (show (List.finRange maxFiles).find? _ = some fd from hfind)
    exact (hmatch fd).mp (of_decide_eq_true hyes)
  · intro hborn
    have hsome : (s.found len name).isSome :=
      List.find?_isSome.mpr ⟨fd, List.mem_finRange fd, decide_eq_true ((hmatch fd).mpr hborn)⟩
    obtain ⟨fd', hfind⟩ := Option.isSome_iff_exists.mp hsome
    have hyes := List.find?_some (show (List.finRange maxFiles).find? _ = some fd' from hfind)
    obtain ⟨n', hborn', -⟩ := (hmatch fd').mp (of_decide_eq_true hyes)
    rw [hfind, h.distinct hborn' hborn.choose_spec.1]

end Books

namespace Traced

variable {t t' : Traced} {req : Request} {y : List UInt8} {fd : Fin maxFiles}

/-- A request that fills no entry and clears none. -/
theorem bornAfter_eq {status : Nat} (hcreates : t.server.creates req = some fd → status ≠ 0)
    (hunlink : req.op = opFsUnlink → status ≠ 0) : t.bornAfter req status fd = t.born fd := by
  unfold bornAfter
  by_cases hstatus : status = 0
  · rw [if_neg (not_not.mpr hstatus), if_neg fun h => hcreates h hstatus,
      if_neg fun h => hunlink h.1 hstatus]
  · rw [if_pos hstatus]

theorem books_changes (h : Books t.server.table t.born) {status : Nat}
    {table : Fin maxFiles → FileEntry} (hchanges : Changes t.server req status table) :
    Books table (t.bornAfter req status) := by
  cases hchanges with
  | same hcreates hunlink =>
    have hsame : t.bornAfter req status = t.born := funext fun fd =>
      bornAfter_eq (fun hfd => (hcreates fd hfd).2) fun hop => (hunlink hop).1
    rw [hsame]
    exact h
  | edit fd entry hcreates hop hused hstate hname hlen hsize =>
    have hsame : t.bornAfter req 0 = t.born := funext fun fd =>
      bornAfter_eq (fun hfd => by rw [hcreates] at hfd; cases hfd) fun hunlink => absurd hunlink hop
    rw [hsame]
    refine h.set ?_ (fun _ _ => rfl) fun n x fd' n' hne hborn hborn' =>
      hne (h.distinct hborn' hborn)
    have hshows := h.shows fd
    rcases hborn : t.born fd with _ | ⟨n, x⟩
    · rw [hborn] at hshows
      exact absurd hshows.1 hused
    · rw [hborn] at hshows
      obtain ⟨-, hlen', hname', hne⟩ := hshows
      exact ⟨hstate, hlen.trans hlen', by rw [FileEntry.fileName, hname, hlen]; exact hname', hne⟩
  | create fd hcreates hgrants =>
    obtain ⟨hopen, hpos, hmax, hnone⟩ : req.op = opFsOpen ∧ req.arg1 ≠ 0 ∧ req.arg1 ≤ nameMax ∧
        t.server.found req.arg1 req.name = none := by
      by_contra hnot
      rw [Server.creates, if_neg hnot] at hcreates
      cases hcreates
    have hunlink : req.op ≠ opFsUnlink := by rw [hopen]; decide
    have hlength : req.openedName.length = req.arg1 := by simpa [Request.openedName] using hmax
    have hself : t.bornAfter req 0 fd = some (t.clock, req.openedName) := by
      rw [bornAfter, if_neg (not_not.mpr rfl), if_pos hcreates]
    refine h.set ?_ (fun fd' hne => bornAfter_eq (fun hfd => ?_) fun heq => absurd heq hunlink)
      fun n x fd' n' hne hborn hborn' => ?_
    · rw [hself]
      refine ⟨nofun, hlength.symm, rfl, fun hnil => hpos ?_⟩
      rw [← hlength, hnil]
      rfl
    · rw [hcreates] at hfd
      exact absurd (Option.some.inj hfd).symm hne
    · rw [hself] at hborn
      cases hborn
      have hshows := h.shows fd'
      rw [hborn'] at hshows
      rw [(h.found_iff hpos).mpr ⟨n', hborn', hshows.2.1.trans hlength⟩] at hnone
      cases hnone
  | clear fd hop hfd hused htakes =>
    have hcreates : t.server.creates req = none := creates_eq_none (by rw [hop]; decide)
    have hself : t.bornAfter req 0 fd = none := by
      rw [bornAfter, if_neg (not_not.mpr rfl), hcreates, if_neg nofun, if_pos ⟨hop, hfd⟩]
    refine h.set (hself ▸ ⟨rfl, rfl⟩) (fun fd' hne => ?_) fun n x fd' n' _ hborn => ?_
    · rw [bornAfter, if_neg (not_not.mpr rfl), hcreates, if_neg nofun, if_neg]
      exact fun heq => hne (Fin.ext (heq.2.trans hfd.symm))
    · rw [hself] at hborn
      cases hborn

theorem names_of_books (h : Books t.server.table t.born) : NamesLaw t := by
  have hname : ∀ fd, (t.server.table fd).state ≠ .free →
      ∃ n, t.born fd = some (n, (t.server.table fd).fileName) := by
    intro fd hused
    have hshows := h.shows fd
    rcases hborn : t.born fd with _ | ⟨n, x⟩
    · rw [hborn] at hshows
      exact absurd hshows.1 hused
    · rw [hborn] at hshows
      exact ⟨n, by rw [hshows.2.2.1]⟩
  have hfinds : ∀ {y}, y ≠ [] → y.length ≤ nameMax → ∀ {fd}, t.finds y = some fd ↔
      ∃ n, t.born fd = some (n, y) := by
    intro y hne hmax fd
    have hlen : (nameToWords y).2 = y.length := Nat.min_eq_left hmax
    rw [finds, h.found_iff (by rw [hlen]; exact fun hzero => hne (List.length_eq_zero_iff.mp hzero)),
      nameFromWords_nameToWords hmax, hlen, List.take_left]
    refine exists_congr fun n => and_iff_left_of_imp fun hborn => ?_
    have hshows := h.shows fd
    rw [hborn] at hshows
    exact hshows.2.1
  refine ⟨fun fd fd' hfd hfd' heq => ?_, fun fd hfree => ?_, fun y hne hmax n x => ?_,
    fun y hne hmax fd hfind calls => ?_⟩
  · obtain ⟨n, hborn⟩ := hname fd hfd
    obtain ⟨n', hborn'⟩ := hname fd' hfd'
    exact h.distinct hborn (heq ▸ hborn')
  · have hshows := h.shows fd
    rcases hborn : t.born fd with _ | ⟨n, x⟩
    · rw [hborn] at hshows
      exact hshows.2
    · rw [hborn] at hshows
      exact absurd hfree hshows.1
  · simp only [hfinds hne hmax]
    constructor
    · rintro ⟨fd, ⟨n', hborn⟩, hborn'⟩
      rw [hborn] at hborn'
      cases hborn'
      exact ⟨rfl, fd, hborn⟩
    · rintro ⟨rfl, fd, hborn⟩
      exact ⟨fd, ⟨n, hborn⟩, hborn⟩
  · obtain ⟨n, hborn⟩ := (hfinds hne hmax).mp hfind
    have hshows := h.shows fd
    rw [hborn] at hshows
    have hlen : (nameToWords y).2 = y.length := Nat.min_eq_left hmax
    have hpos := List.length_pos_iff.mpr hne
    unfold Server.fsOpen
    rw [if_neg (by omega)]
    dsimp only
    split
    · next fd' hfind' =>
      obtain rfl := Option.some.inj (hfind'.symm.trans hfind)
      split
      · next hopen => rw [if_pos hopen]
      · next hclosed => rw [if_neg (by rw [hclosed]; nofun)]
      · next hfree => exact absurd hfree hshows.1
    · next hnone => cases hnone.symm.trans hfind

end Traced

/-- A request that carries a name of 1 to 24 bytes opens the file with this name. -/
def Request.Carries (req : Request) (x : List UInt8) : Prop :=
  ((req.arg2, req.arg3, req.arg4), req.arg1) = nameToWords x

end Ignium.User
