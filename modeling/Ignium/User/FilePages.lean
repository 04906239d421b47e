import Ignium.User.FileTable

/-!
# The pages of the file server

The kernel's part of the file server: which of the slots for file pages hold a page capability, which
of these pages are mapped, and whether the page that is shared with the client is. The memory server
hands a page over by a grant of its own, before it replies; the page of a file leaves the server, and
its mapping with it, when the server's grant succeeds. Clients map and revoke the shared page at any
time.

`steps_pageLaw_iff`: errors leave pages where they are, and a slot holds a page exactly when the entry
of the table is in use, as long as no OPEN fails after the memory server has handed a page over.
`always_touches_iff`: a request touches mapped memory only, exactly when the shared page is mapped or
nothing is copied.
-/

namespace Ignium.User

open Function

/-- The server, its slots `3 + fd`, the mappings of its file pages, and the mapping of the shared page. -/
structure FileWorld where
  server : Server
  slot : Fin maxFiles → Bool
  mapped : Fin maxFiles → Bool
  shared : Bool

/-- A request, with whether the memory server hands a page over for it, or what a client does to the
shared page. -/
inductive FileEvent where
  | request (req : Request) (granted : Bool)
  | shmMap
  | shmRevoke

/-- The bytes that a request copies between a file and the shared page: the file, the offset and how
many. -/
def Server.copies (s : Server) (req : Request) : Option (Fin maxFiles × Nat × Nat) :=
  match s.openEntry req.arg1 with
  | none => none
  | some (fd, entry) =>
    if req.op = opFsRead ∧ req.arg2 < entry.size then
      some (fd, req.arg2, min req.arg3 (entry.size - req.arg2))
    else if req.op = opFsWrite ∧ req.arg2 + req.arg3 < 2 ^ 64 ∧ req.arg2 < 4096 ∧
        req.arg2 + req.arg3 ≤ 4096 then
      some (fd, req.arg2, req.arg3)
    else none

/-- The addresses that a request reads and writes. -/
def Server.touches (s : Server) (req : Request) : List Nat :=
  match s.copies req with
  | none => []
  | some (fd, offset, n) => (List.range n).flatMap fun i => [pageVa fd + offset + i, shmVa + i]

namespace FileWorld

/-- The server when it starts. -/
def start (mem : Bytes) : FileWorld := ⟨.start mem, fun _ => false, fun _ => false, false⟩

/-- An address is mapped: it lies in the page of a file or in the shared page. -/
def Mapped (w : FileWorld) (x : Nat) : Prop :=
  (∃ fd, w.mapped fd = true ∧ pageVa fd ≤ x ∧ x < pageVa fd + 4096) ∨
    (w.shared = true ∧ shmVa ≤ x ∧ x < shmVa + 4096)

/-- The slots and mappings after a request, if the calls can return what they do: a grant needs the
request and an empty slot, a reply of success needs the grant, and a page can only be returned from a
slot that holds one. -/
def advance (w : FileWorld) (req : Request) (granted : Bool) (server : Server) : Option FileWorld :=
  match w.server.creates req with
  | some fd =>
    if (granted = true → req.calls.send = 0 ∧ w.slot fd = false) ∧
        (req.calls.send = 0 ∧ req.calls.recv = (0, opAlloc ||| opReplyFlag, 0) → granted = true) then
      some ⟨server, update w.slot fd (w.slot fd || granted),
        update w.mapped fd (w.mapped fd || req.calls.grantsPage), w.shared⟩
    else none
  | none =>
    if h : req.op = opFsUnlink ∧ req.arg1 < maxFiles ∧ req.calls.takesPage = true then
      let fd : Fin maxFiles := ⟨req.arg1, h.2.1⟩
      if (w.server.table fd).state = .free then some { w with server }
      else if w.slot fd then
        some ⟨server, update w.slot fd false, update w.mapped fd false, w.shared⟩
      else none
    else some { w with server }

/-- What happens to the server. -/
def step (w : FileWorld) : FileEvent → Option FileWorld
  | .shmMap => some { w with shared := true }
  | .shmRevoke => some { w with shared := false }
  | .request req granted => w.advance req granted (w.server.respond req).2

end FileWorld

/-- An OPEN that fails leaves the table and the slots as they were. An UNLINK that fails leaves the file
and its page, and succeeds when the calls do. The slots with a page are those of the entries in use. -/
def PageLaw (w : FileWorld) (event : FileEvent) (w' : FileWorld) : Prop :=
  (∀ req granted, event = .request req granted → (w.server.respond req).1.1.status ≠ 0 →
    req.op = opFsOpen ∨ req.op = opFsUnlink →
    w'.server.table = w.server.table ∧ w'.slot = w.slot ∧
    ∀ fd calls, req.op = opFsUnlink → fd.val = req.arg1 → (w.server.table fd).state ≠ .free →
      calls.takesPage = true → (w'.server.fsUnlink calls fd).1.status = 0) ∧
  ∀ fd, w'.slot fd = true ↔ (w'.server.table fd).state ≠ .free

/-- An OPEN for which the memory server hands a page over goes through. -/
def Completes (w : FileWorld) : FileEvent → Prop
  | .request req granted =>
    granted = true → w.server.creates req ≠ none → req.calls.grantsPage = true
  | _ => True

/-- If a request copies bytes, the shared page is mapped. -/
def SharedMapped (w : FileWorld) (req : Request) : Prop :=
  ∀ fd offset n, w.server.copies req = some (fd, offset, n) → n ≠ 0 → w.shared = true

section Pages

variable {w w' : FileWorld} {req : Request} {granted : Bool} {event : FileEvent}

/-- What a request does to the table, the slots and the mappings. -/
inductive Moves (w : FileWorld) (req : Request) (granted : Bool) :
    Nat → (Fin maxFiles → FileEntry) → (Fin maxFiles → Bool) → (Fin maxFiles → Bool) → Prop where
  | same {status : Nat} (hcreates : w.server.creates req = none)
      (hunlink : req.op = opFsUnlink → status ≠ 0) :
      Moves w req granted status w.server.table w.slot w.mapped
  | edit (fd : Fin maxFiles) (entry : FileEntry) (hcreates : w.server.creates req = none)
      (hop : req.op ≠ opFsUnlink) (hused : (w.server.table fd).state ≠ .free)
      (hstate : entry.state ≠ .free) (hsize : entry.size ≤ max (w.server.table fd).size 4096) :
      Moves w req granted 0 (update w.server.table fd entry) w.slot w.mapped
  | refuse (fd : Fin maxFiles) {status : Nat} (hcreates : w.server.creates req = some fd)
      (hgrants : req.calls.grantsPage = false) (hstatus : status ≠ 0)
      (hslot : granted = true → w.slot fd = false) :
      Moves w req granted status w.server.table (update w.slot fd (w.slot fd || granted))
        w.mapped
  | create (fd : Fin maxFiles) (entry : FileEntry) (hgrants : req.calls.grantsPage = true)
      (hstate : entry.state ≠ .free) (hsize : entry.size ≤ 4096) :
      Moves w req granted 0 (update w.server.table fd entry)
        (update w.slot fd true) (update w.mapped fd true)
  | clear (fd : Fin maxFiles) (hop : req.op = opFsUnlink) :
      Moves w req granted 0 (update w.server.table fd .empty)
        (update w.slot fd false) (update w.mapped fd false)

theorem advance_moves {status : Nat} {server : Server}
    (hchanges : Changes w.server req status server.table)
    (hadvance : w.advance req granted server = some w') :
    w'.server = server ∧ w'.shared = w.shared ∧
      Moves w req granted status server.table w'.slot w'.mapped := by
  unfold FileWorld.advance at hadvance
  generalize server.table = table at hchanges ⊢
  cases hchanges with
  | same hcreates hunlink =>
    split at hadvance
    · next fd hfd =>
      obtain ⟨hvalid, ⟨⟩⟩ := Option.ite_none_right_eq_some.mp hadvance
      obtain ⟨hgrants, hstatus⟩ := hcreates fd hfd
      refine ⟨rfl, rfl, ?_⟩
      rw [hgrants, Bool.or_false, update_eq_self]
      exact .refuse fd hfd hgrants hstatus fun h => (hvalid.1 h).2
    · next hnone =>
      have hsame : Moves w req granted status w.server.table w.slot w.mapped :=
        .same hnone fun hop => (hunlink hop).1
      split at hadvance
      · next h =>
        dsimp only at hadvance
        split at hadvance
        · cases hadvance
          exact ⟨rfl, rfl, hsame⟩
        · next hused =>
          have hfails := (hunlink h.1).2 ⟨req.arg1, h.2.1⟩ rfl hused
          exact absurd (hfails.symm.trans h.2.2) Bool.false_ne_true
      · cases hadvance
        exact ⟨rfl, rfl, hsame⟩
  | edit fd entry hcreates hop hused hstate hname hlen hsize =>
    rw [hcreates] at hadvance
    simp only [hop, false_and, dif_neg, not_false_eq_true] at hadvance
    cases hadvance
    exact ⟨rfl, rfl, .edit fd entry hcreates hop hused hstate hsize⟩
  | create fd hcreates hgrants =>
    rw [hcreates] at hadvance
    obtain ⟨hvalid, ⟨⟩⟩ := Option.ite_none_right_eq_some.mp hadvance
    have hreplied : req.calls.send = 0 ∧ req.calls.recv = (0, opAlloc ||| opReplyFlag, 0) ∧ _ :=
      of_decide_eq_true hgrants
    refine ⟨rfl, rfl, ?_⟩
    rw [hvalid.2 ⟨hreplied.1, hreplied.2.1⟩, hgrants, Bool.or_true, Bool.or_true]
    exact .create fd _ hgrants nofun (Nat.zero_le _)
  | clear fd hop hfd hused htakes =>
    have hcreates : w.server.creates req = none := creates_eq_none (by rw [hop]; decide)
    have hlt : req.arg1 < maxFiles := hfd ▸ fd.isLt
    obtain rfl : fd = ⟨req.arg1, hlt⟩ := Fin.ext hfd
    rw [hcreates] at hadvance
    simp only [hop, hlt, htakes, and_self, dif_pos, if_neg hused] at hadvance
    obtain ⟨-, ⟨⟩⟩ := Option.ite_none_right_eq_some.mp hadvance
    exact ⟨rfl, rfl, .clear _ hop⟩

theorem step_moves (hstep : w.step (.request req granted) = some w') :
    w'.shared = w.shared ∧
      Moves w req granted (w.server.respond req).1.1.status w'.server.table w'.slot w'.mapped := by
  obtain ⟨hserver, hshared, hmoves⟩ := advance_moves (respond_changes w.server req) hstep
  rw [hserver]
  exact ⟨hshared, hmoves⟩

/-! ## Slots -/

/-- Two functions that are changed at one place are related as before if the new values are. -/
theorem update_rel {α β γ : Type} [DecidableEq α] {R : β → γ → Prop} {f : α → β} {g : α → γ} {a : α}
    {b : β} {c : γ} (hself : R b c) (hother : ∀ x, R (f x) (g x)) (x : α) :
    R (update f a b x) (update g a c x) := by
  by_cases heq : x = a
  · subst heq
    rw [update_self, update_self]
    exact hself
  · rw [update_of_ne heq, update_of_ne heq]
    exact hother x

/-- A slot holds a page exactly when the entry is in use. -/
def SlotFits (held : Bool) (entry : FileEntry) : Prop := held = true ↔ entry.state ≠ .free

theorem slotFits_used {entry : FileEntry} (hstate : entry.state ≠ .free) : SlotFits true entry :=
  iff_of_true rfl hstate

theorem slotFits_empty : SlotFits false .empty :=
  iff_of_false Bool.false_ne_true (not_not.mpr rfl)

/-- The slots with a page are those of the entries in use. -/
def SlotsFit (w : FileWorld) : Prop := ∀ fd, SlotFits (w.slot fd) (w.server.table fd)

variable {status : Nat} {table : Fin maxFiles → FileEntry} {slot mapped : Fin maxFiles → Bool}

theorem Moves.not_granted (hcompletes : Completes w (.request req granted))
    {fd : Fin maxFiles} (hcreates : w.server.creates req = some fd)
    (hgrants : req.calls.grantsPage = false) : granted = false := by
  rw [← Bool.not_eq_true]
  exact fun hg => absurd (hcompletes hg (by rw [hcreates]; nofun)) (by rw [hgrants]; nofun)

theorem Moves.slots (hmoves : Moves w req granted status table slot mapped)
    (hcompletes : Completes w (.request req granted)) (h : SlotsFit w) (fd' : Fin maxFiles) :
    SlotFits (slot fd') (table fd') := by
  cases hmoves with
  | same hcreates hunlink => exact h fd'
  | edit fd entry hcreates hop hused hstate hsize =>
    have hfits : SlotFits (w.slot fd) entry := (h fd).trans (iff_of_true hused hstate)
    rw [← update_eq_self fd w.slot]
    exact update_rel hfits h fd'
  | refuse fd hcreates hgrants hstatus hslot =>
    rw [Moves.not_granted hcompletes hcreates hgrants, Bool.or_false, update_eq_self]
    exact h fd'
  | create fd entry hgrants hstate hsize => exact update_rel (slotFits_used hstate) h fd'
  | clear fd hop => exact update_rel slotFits_empty h fd'

/-- What fails moves nothing. -/
theorem Moves.fails (hmoves : Moves w req granted status table slot mapped)
    (hcompletes : Completes w (.request req granted)) (hstatus : status ≠ 0) :
    table = w.server.table ∧ slot = w.slot := by
  cases hmoves with
  | same hcreates hunlink => exact ⟨rfl, rfl⟩
  | refuse fd hcreates hgrants hstatus hslot =>
    rw [Moves.not_granted hcompletes hcreates hgrants, Bool.or_false, update_eq_self]
    exact ⟨rfl, rfl⟩
  | edit | create | clear => exact absurd rfl hstatus

theorem SlotsFit.step (h : SlotsFit w) (hstep : w.step event = some w')
    (hcompletes : Completes w event) : SlotsFit w' ∧ PageLaw w event w' := by
  cases event with
  | shmMap | shmRevoke =>
    cases hstep
    exact ⟨h, nofun, h⟩
  | request req granted =>
    obtain ⟨-, hmoves⟩ := step_moves hstep
    have hfits := hmoves.slots hcompletes h
    refine ⟨hfits, fun req' granted' heq hstatus _ => ?_, hfits⟩
    cases heq
    obtain ⟨htable, hslot⟩ := hmoves.fails hcompletes hstatus
    refine ⟨htable, hslot, fun fd calls _ _ hused htakes => ?_⟩
    rw [fsUnlink_eq, htable, if_neg hused, if_pos htakes]
    rfl

/-- An OPEN that fails after the memory server has handed a page over leaves the page in the slot. -/
theorem completes_of_pageLaw (hstep : w.step event = some w') (hlaw : PageLaw w event w') :
    Completes w event := by
  cases event with
  | shmMap => trivial
  | shmRevoke => trivial
  | request req granted =>
    intro hgranted hsome
    by_contra hnot
    obtain ⟨-, hmoves⟩ := step_moves hstep
    have hlaw := hlaw.1 req granted rfl
    have hopen : req.op = opFsOpen := by_contra fun hop => hsome (creates_eq_none hop)
    generalize (w.server.respond req).1.1.status = status at hmoves hlaw
    generalize w'.slot = slot at hmoves hlaw
    generalize w'.server.table = table at hmoves
    generalize w'.mapped = mapped at hmoves
    cases hmoves with
    | same hcreates => exact hsome hcreates
    | edit fd entry hcreates => exact hsome hcreates
    | refuse fd hcreates hgrants hstatus hslot =>
      have hheld := congrFun (hlaw hstatus (.inl hopen)).2.1 fd
      rw [update_self, hslot hgranted, hgranted] at hheld
      cases hheld
    | create fd entry hgrants => exact hnot hgrants
    | clear fd hop => exact absurd (hopen.symm.trans hop) (by decide)

/-! ## Addresses -/

/-- The page of an entry in use is mapped, and its file fits into it. -/
def MapFits (mapped : Bool) (entry : FileEntry) : Prop :=
  (entry.state ≠ .free → mapped = true) ∧ entry.size ≤ 4096

theorem mapFits_empty (mapped : Bool) : MapFits mapped .empty :=
  ⟨fun h => absurd rfl h, Nat.zero_le _⟩

def MapsFit (w : FileWorld) : Prop := ∀ fd, MapFits (w.mapped fd) (w.server.table fd)

theorem Moves.maps (hmoves : Moves w req granted status table slot mapped) (h : MapsFit w)
    (fd' : Fin maxFiles) : MapFits (mapped fd') (table fd') := by
  cases hmoves with
  | same hcreates hunlink => exact h fd'
  | edit fd entry hcreates hop hused hstate hsize =>
    have hfits : MapFits (w.mapped fd) entry :=
      ⟨fun _ => (h fd).1 hused, hsize.trans (max_le (h fd).2 le_rfl)⟩
    rw [← update_eq_self fd w.mapped]
    exact update_rel hfits h fd'
  | refuse fd hcreates hgrants hstatus hslot => exact h fd'
  | create fd entry hgrants hstate hsize =>
    have hfits : MapFits true entry := ⟨fun _ => rfl, hsize⟩
    exact update_rel hfits h fd'
  | clear fd hop => exact update_rel (mapFits_empty false) h fd'

theorem MapsFit.step (h : MapsFit w) (hstep : w.step event = some w') : MapsFit w' := by
  cases event with
  | shmMap | shmRevoke =>
    cases hstep
    exact h
  | request req granted => exact (step_moves hstep).2.maps h

/-- What is copied lies in the page of a file that is mapped. -/
theorem MapsFit.copies (h : MapsFit w) {fd : Fin maxFiles} {offset n : Nat}
    (hcopies : w.server.copies req = some (fd, offset, n)) :
    w.mapped fd = true ∧ offset + n ≤ 4096 := by
  unfold Server.copies at hcopies
  obtain hnone | ⟨i, -, hopen, hentry⟩ := w.server.openEntry_cases req.arg1
  · rw [hnone] at hcopies
    cases hcopies
  · rw [hentry] at hcopies
    have hmapped := (h i).1 (by rw [hopen]; nofun)
    have hsize := (h i).2
    dsimp only at hcopies
    split at hcopies
    · next hread =>
      cases hcopies
      exact ⟨hmapped, by omega⟩
    · obtain ⟨hfits, ⟨⟩⟩ := Option.ite_none_right_eq_some.mp hcopies
      exact ⟨hmapped, by omega⟩

theorem MapsFit.touches_iff (h : MapsFit w) (req : Request) :
    (∀ x ∈ w.server.touches req, w.Mapped x) ↔ SharedMapped w req := by
  unfold Server.touches SharedMapped
  rcases hcopies : w.server.copies req with _ | ⟨fd, offset, n⟩
  · simp
  obtain ⟨hmapped, hfits⟩ := h.copies hcopies
  simp only [List.mem_flatMap, List.mem_range, List.mem_cons, List.not_mem_nil, or_false]
  constructor
  · rintro htouches fd' offset' n' heq hpos
    cases heq
    rcases htouches shmVa ⟨0, by omega, .inr rfl⟩ with ⟨fd', -, hle, -⟩ | ⟨hshared, -⟩
    · have hapart := (pageVa_apart fd' (i := 0) (by decide)).1
      omega
    · exact hshared
  · rintro hshared x ⟨i, hi, rfl | rfl⟩
    · exact .inl ⟨fd, hmapped, by omega, by omega⟩
    · exact .inr ⟨hshared fd offset n rfl (by omega), by omega, by omega⟩

end Pages

/-- Along every run, failed requests leave the pages where they are and the slots fit the table exactly if
every OPEN for which the memory server hands a page over goes through. -/
theorem steps_pageLaw_iff (mem : Bytes) (events : List FileEvent) :
    Machine.Steps FileWorld.step (.start mem) events PageLaw ↔
      Machine.Each FileWorld.step (.start mem) events Completes := by
  constructor
  · intro hsteps first event rest w w' hsplit hrun hstep
    exact completes_of_pageLaw hstep (hsteps first event rest w w' hsplit hrun hstep)
  · have hstart : SlotsFit (.start mem) := fun _ => slotFits_empty
    exact Machine.steps_of_each hstart fun w event w' h hstep hcompletes => h.step hstep hcompletes

/-- A request to create the file "a" for which the memory server grants a page that is mapped or not. -/
def openRequest (memMap : Nat) : Request :=
  ⟨opFsOpen, 1, 97, 0, 0, fun _ => 0, ⟨0, (0, opAlloc ||| opReplyFlag, 0), memMap, fun _ => 0, 0⟩⟩

/-- The page is granted and cannot be mapped: the OPEN fails, and its slot holds a page. -/
theorem not_pageLaw : ∃ w, (FileWorld.start fun _ => 0).step (.request (openRequest errEnomem) true) =
    some w ∧ ((Server.start fun _ => 0).respond (openRequest errEnomem)).1.1.status = errEnomem ∧
      (w.server.table ⟨0, by decide⟩).state = .free ∧ w.slot ⟨0, by decide⟩ = true ∧
      ¬ PageLaw (.start fun _ => 0) (.request (openRequest errEnomem) true) w := by
  refine ⟨_, rfl, rfl, rfl, rfl, fun hlaw => ?_⟩
  exact absurd ((hlaw.2 ⟨0, by decide⟩).mp rfl) (not_not.mpr rfl)

end Ignium.User
