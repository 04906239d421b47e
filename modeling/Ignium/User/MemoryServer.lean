import Ignium.Kernel.PageCaps
import Ignium.User.Ramfs

/-!
# The memory server

`user/src/bin/memory_server.rs`: four pages in the slots 1 to 4 of a process, handed out by ALLOC and
given back after FREE. The server notes in an array of its own which slots are full, and notes a slot
as full when it names it to the client, before the client has granted a page to it. What the slots
really hold is in the table of the kernel, so the server runs here against the kernel's `memGrant`.

`always_allocs_iff`: whatever the client does, FREE names a slot without a page, and an ALLOC with a
valid and empty destination, of a pool that holds a page, succeeds exactly when the first slot that is
noted as full holds one.
-/

namespace Ignium.User

open Kernel Function

/-- The slot with the capability for the client. -/
def serverAcceptSlot : Nat := 0

/-- The first slot of the pool. -/
def serverPoolStart : Nat := 1

/-- Which slots of the pool the server takes to be full. -/
abbrev Pool := Fin 4 → Bool

/-- A slot of the pool. -/
def poolSlot (i : Fin 4) : Nat := serverPoolStart + i

/-- The first slot that the loops over the pool stop at. -/
def firstSlot (p : Pool) : Option (Fin 4) := (List.finRange 4).find? p

/-- Hand a page to the client. -/
def allocPage (server : Nat) (k : State) (pool : Pool) (clientDst : Nat) :
    Outcome (State × Pool) Nat Unit :=
  match firstSlot pool with
  | none => some (.error errEnomem, k, pool)
  | some i =>
    match k.memGrant server (poolSlot i) serverAcceptSlot clientDst with
    | none => none
    | some (.error rc, k) => some (.error rc, k, pool)
    | some (.ok _, k) => some (.ok (), k, update pool i false)

/-- Name an empty slot, and note it as full. -/
def freeSlot (pool : Pool) : Option Nat × Pool :=
  match firstSlot fun i => !pool i with
  | some i => (some (poolSlot i), update pool i true)
  | none => (none, pool)

/-- Serve a request. -/
def serveMemory (server : Nat) (k : State) (pool : Pool) (op arg1 : Nat) :
    Option (Reply × State × Pool) :=
  if op = opAlloc then
    match allocPage server k pool arg1 with
    | none => none
    | some (.ok _, s) => some (answer op 0 0, s)
    | some (.error e, s) => some (answer op e 0, s)
  else if op = opFree then
    match freeSlot pool with
    | (some recvSlot, pool) => some (answer op 0 recvSlot, k, pool)
    | (none, pool) => some (answer op errEnomem 0, k, pool)
  else some (answer op protoErr 0, k, pool)

/-! ## The server and its client -/

/-- The kernel, the array of the server, and the slots that FREE has named and the client has not
granted a page to since. -/
structure PoolWorld where
  k : State
  pool : Pool
  owed : Nat → Bool

/-- What the client does: it sends a request, grants a page to a slot that FREE has named, or maps one
of its own pages. -/
inductive PoolEvent where
  | request (op arg1 : Nat)
  | giveBack (src peerSlot slot : Nat)
  | map (slot va : Nat)

/-- One event. The client grants through a slot that holds the server. -/
def PoolWorld.step (server client : Nat) (w : PoolWorld) : PoolEvent → Option PoolWorld
  | .request op arg1 =>
    (serveMemory server w.k w.pool op arg1).map fun (reply, k, pool) =>
      { k := k
        pool := pool
        owed :=
          if op = opFree ∧ reply.status = 0 then update w.owed reply.value true
          else w.owed }
  | .giveBack src peerSlot slot =>
    if w.owed slot = true ∧ w.k.table.capAt client peerSlot = some (.proc server) then
      match w.k.memGrant client src peerSlot slot with
      | none => none
      | some (.error _, k) => some { w with k := k }
      | some (.ok _, k) => some { w with k := k, owed := update w.owed slot false }
    else none
  | .map slot va => (w.k.memMap client slot va).map fun r => { w with k := r.2 }

/-- A server that holds its four pages, and a client that is connected to it. Pages have one owner and
one slot, and the server maps none of its own. -/
structure Connected where
  k : State
  server : Nat
  client : Nat
  apart : client ≠ server
  alive : k.table.pidRoot client ≠ none
  accept : k.table.capAt server serverAcceptSlot = some (.proc client)
  pages : k.PageLaw
  unmapped : ∀ id rec, k.pageRecord id = some rec → rec.owner = server → rec.mapVa = none
  holds : ∀ i, ∃ id, k.table.capAt server (poolSlot i) = some (.page id)

/-- The server starts with a full pool. -/
def Connected.start (c : Connected) : PoolWorld := ⟨c.k, fun _ => true, fun _ => false⟩

/-- A slot of the server holds a page. -/
def PoolWorld.Holds (server : Nat) (w : PoolWorld) (slot : Nat) : Prop :=
  ∃ id, w.k.table.capAt server slot = some (.page id)

/-- The first slot that is noted as full holds a page. -/
def PoolWorld.FirstHolds (server : Nat) (w : PoolWorld) : Prop :=
  ∃ i, firstSlot w.pool = some i ∧ w.Holds server (poolSlot i)

/-- What a client relies on: with a valid and empty destination it gets a page while there is one, and
a slot it is told to give a page back to holds none. -/
structure PoolWorld.Serves (server client : Nat) (w : PoolWorld) : Prop where
  alloc : ∀ dst, dst < maxCaps → w.k.table.capAt client dst = none →
    (∃ i, w.Holds server (poolSlot i)) → ∃ s, allocPage server w.k w.pool dst = some (.ok (), s)
  free : ∀ slot pool, freeSlot w.pool = (some slot, pool) → ¬ w.Holds server slot

/-! ## Grants -/

variable {k k' : State} {w w' : PoolWorld} {c : Connected} {caller src peerSlot peer dst : Nat}

/-- A grant moves a page capability. -/
theorem moves_of_memGrant (hpeer : k.table.capAt caller peerSlot = some (.proc peer))
    (h : k.memGrant caller src peerSlot dst = some (.ok (), k')) :
    ∃ id, k.table.capAt caller src = some (.page id) ∧ k'.table.pidRoot = k.table.pidRoot ∧
      (∀ q s, k'.table.capAt q s = if q = caller ∧ s = src then none else
        if q = peer ∧ s = dst then some (.page id) else k.table.capAt q s) ∧
      ∀ other rec, k'.pageRecord other = some rec →
        rec.mapVa = none ∨ k.pageRecord other = some rec := by
  obtain ⟨-, hr⟩ | ⟨id, peer', rec, m, t₁, hsrc, hpeer', -, -, -, hrec, -, hw, -, rfl⟩ :=
    State.memGrant_cases h
  · exact absurd rfl hr
  obtain rfl : peer' = peer := by
    rw [hpeer] at hpeer'
    cases hpeer'
    rfl
  have hclear := t₁.writes_clearCap caller src
  refine ⟨id, hsrc, hclear.roots.trans hw.roots, fun q s => ?_, fun other rec' hrec' => ?_⟩
  · exact (hclear.caps q s).trans (by rw [hw.caps])
  · have hput := State.get_putPage (r := { rec with owner := peer', mapVa := none }) hrec rfl other
    have hrec'' := hput.symm.trans hrec'
    split at hrec''
    · cases hrec''
      exact .inl rfl
    · exact .inr hrec''

/-- A page that is not mapped goes to an empty slot of a live process. -/
theorem memGrant_of_unmapped {id : Nat} {rec : PageRecord}
    (hsrc : k.table.capAt caller src = some (.page id))
    (hpeer : k.table.capAt caller peerSlot = some (.proc peer))
    (halive : k.table.pidRoot peer ≠ none) (hslot : dst < maxCaps)
    (hempty : k.table.capAt peer dst = none) (hrec : k.pageRecord id = some rec)
    (hva : rec.mapVa = none) : ∃ k', k.memGrant caller src peerSlot dst = some (.ok (), k') := by
  have hdst : k.table.capTarget peer dst = .error .notFound := by
    rcases hcap : k.table.capTarget peer dst with e | cap
    · unfold ProcessTable.capTarget at hcap
      grind
    · rw [ProcessTable.capTarget_eq_ok.mp hcap] at hempty
      cases hempty
  have hgrant : ∃ k₁, k.pagesGrant id peer = some (.ok (), k₁) ∧ k₁.table = k.table := by
    refine ⟨{ k with pages := k.pages.put id { rec with owner := peer, mapVa := none } }, ?_, rfl⟩
    rw [State.pagesGrant, hrec]
    simp only [hva, State.unmapFrom, Option.map_some]
    rfl
  obtain ⟨k₁, hk₁, htable⟩ := hgrant
  obtain ⟨e, -, hdead | hout⟩ | ⟨t, ht, -, -⟩ := k₁.table.grantTypedCap_cases peer dst (.page id)
  · exact absurd (htable ▸ hdead) halive
  · omega
  refine ⟨{ k₁ with table := (t.clearCap caller src).2 }, ?_⟩
  rw [State.memGrant, ProcessTable.capTarget_eq_ok.mpr hsrc]
  simp only [ProcessTable.capTarget_eq_ok.mpr hpeer, if_neg halive, if_neg (Nat.not_le.mpr hslot),
    hdst, hk₁, ht]

/-! ## What the array of the server says about the table -/

/-- Slots with a page are noted as full. A slot that a page is owed to is noted as full and holds
none. -/
structure PoolWorld.Noted (server client : Nat) (w : PoolWorld) : Prop where
  alive : w.k.table.pidRoot client ≠ none
  accept : w.k.table.capAt server serverAcceptSlot = some (.proc client)
  pages : w.k.PageLaw
  unmapped : ∀ id rec, w.k.pageRecord id = some rec → rec.owner = server → rec.mapVa = none
  full : ∀ i, w.Holds server (poolSlot i) → w.pool i = true
  owed : ∀ slot, w.owed slot = true → ¬ w.Holds server slot ∧ ∃ i, slot = poolSlot i ∧ w.pool i = true

theorem poolSlot_inj {i j : Fin 4} (h : poolSlot i = poolSlot j) : i = j := by
  unfold poolSlot at h
  omega

theorem accept_ne_poolSlot (i : Fin 4) : serverAcceptSlot ≠ poolSlot i := by
  simp only [serverAcceptSlot, poolSlot, serverPoolStart]
  omega

theorem Connected.noted (c : Connected) : c.start.Noted c.server c.client where
  alive := c.alive
  accept := c.accept
  pages := c.pages
  unmapped := c.unmapped
  full _ _ := rfl
  owed _ howed := by cases howed

namespace PoolWorld

variable {server client : Nat} {pool : Pool}

section

variable (h : w.Noted server client)
include h

/-- A page of the server goes to the client. -/
theorem Noted.alloc {r : Except Nat Unit} (hne : client ≠ server)
    (hcall : allocPage server w.k w.pool dst = some (r, k', pool)) :
    Noted server client { w with k := k', pool := pool } := by
  unfold allocPage at hcall
  rcases hfirst : firstSlot w.pool with _ | i
  · rw [hfirst] at hcall
    cases hcall
    exact h
  rw [hfirst] at hcall
  rcases hgrant : w.k.memGrant server (poolSlot i) serverAcceptSlot dst with _ | ⟨_ | _, k₁⟩ <;>
    simp only [hgrant, reduceCtorEq] at hcall <;> cases hcall
  · obtain ⟨rfl, -⟩ | ⟨_, _, _, _, _, _, _, _, _, _, _, _, _, hok, -⟩ := State.memGrant_cases hgrant
    · exact h
    · cases hok
  obtain ⟨id, hsrc, hroots, hcaps, hrecs⟩ := moves_of_memGrant h.accept hgrant
  have hserver : ∀ s, k'.table.capAt server s =
      if s = poolSlot i then none else w.k.table.capAt server s := by
    intro s
    simp [hcaps, hne.symm]
  refine ⟨hroots ▸ h.alive, ?_, h.pages.memGrant hgrant, fun other rec hrec howner => ?_,
    fun j hj => ?_, fun slot howed => ?_⟩
  · rw [hserver, if_neg (accept_ne_poolSlot i)]
    exact h.accept
  · exact (hrecs other rec hrec).elim (fun hnone => hnone) fun hold => h.unmapped other rec hold howner
  · obtain ⟨other, hother⟩ := hj
    rw [hserver] at hother
    split at hother
    · cases hother
    · next hji =>
      refine (update_of_ne (fun heq => hji (congrArg poolSlot heq)) _ _).trans ?_
      exact h.full j ⟨other, hother⟩
  · obtain ⟨hempty, j, rfl, hj⟩ := h.owed slot howed
    -- The slot that the page leaves has held it, and is owed none.
    have hji : j ≠ i := by
      rintro rfl
      exact hempty ⟨id, hsrc⟩
    refine ⟨?_, j, rfl, (update_of_ne hji _ _).trans hj⟩
    rintro ⟨other, hother⟩
    rw [hserver] at hother
    split at hother
    · cases hother
    · exact hempty ⟨other, hother⟩

/-- A slot that is noted as empty holds no page. -/
theorem Noted.not_holds {slot : Nat} (hfree : freeSlot w.pool = (some slot, pool)) :
    ∃ i, slot = poolSlot i ∧ pool = update w.pool i true ∧ ¬ w.Holds server slot := by
  unfold freeSlot at hfree
  rcases hfirst : firstSlot (fun i => !w.pool i) with _ | i <;> rw [hfirst] at hfree <;> cases hfree
  refine ⟨i, rfl, rfl, fun hholds => ?_⟩
  have hempty := List.find?_some hfirst
  simp [h.full i hholds] at hempty

/-- A slot that FREE names is noted as full, and a page is owed to it. -/
theorem Noted.free {slot : Nat} (hfree : freeSlot w.pool = (some slot, pool)) :
    Noted server client { w with pool := pool, owed := update w.owed slot true } := by
  obtain ⟨i, rfl, rfl, hempty⟩ := h.not_holds hfree
  refine ⟨h.alive, h.accept, h.pages, h.unmapped, fun j hj => ?_, fun slot howed => ?_⟩
  · by_cases hji : j = i
    · exact hji ▸ update_self ..
    · exact (update_of_ne hji _ _).trans (h.full j hj)
  · by_cases hslot : slot = poolSlot i
    · subst hslot
      exact ⟨hempty, i, rfl, update_self ..⟩
    · obtain ⟨hnone, j, rfl, hj⟩ :=
        h.owed slot ((update_of_ne hslot _ _).symm.trans howed)
      refine ⟨hnone, j, rfl, ?_⟩
      exact (update_of_ne (fun heq => hslot (congrArg poolSlot heq)) _ _).trans hj

/-- A page comes back to a slot that it is owed to. -/
theorem Noted.giveBack {slot : Nat} (hne : client ≠ server)
    (howed : w.owed slot = true) (hpeer : w.k.table.capAt client peerSlot = some (.proc server))
    (hgrant : w.k.memGrant client src peerSlot slot = some (.ok (), k')) :
    Noted server client { w with k := k', owed := update w.owed slot false } := by
  obtain ⟨id, -, hroots, hcaps, hrecs⟩ := moves_of_memGrant hpeer hgrant
  obtain ⟨-, i, rfl, hi⟩ := h.owed slot howed
  have hserver : ∀ s, s ≠ poolSlot i → k'.table.capAt server s = w.k.table.capAt server s := by
    intro s hs
    simp [hcaps, hne.symm, hs]
  refine ⟨hroots ▸ h.alive, ?_, h.pages.memGrant hgrant, fun other rec hrec howner => ?_,
    fun j hj => ?_, fun other hother => ?_⟩
  · rw [hserver _ (accept_ne_poolSlot i)]
    exact h.accept
  · exact (hrecs other rec hrec).elim (fun hnone => hnone) fun hold => h.unmapped other rec hold howner
  · by_cases hji : j = i
    · exact hji ▸ hi
    · obtain ⟨other, hother⟩ := hj
      rw [hserver _ fun heq => hji (poolSlot_inj heq)] at hother
      exact h.full j ⟨other, hother⟩
  · by_cases heq : other = poolSlot i
    · simp [heq] at hother
    · obtain ⟨hnone, hnoted⟩ :=
        h.owed other ((update_of_ne heq _ _).symm.trans hother)
      refine ⟨?_, hnoted⟩
      rintro ⟨id', hid'⟩
      rw [hserver other heq] at hid'
      exact hnone ⟨id', hid'⟩

/-- The client maps its own pages only. -/
theorem Noted.map {slot va : Nat} {r : Except Nat Unit}
    (hne : client ≠ server) (hmap : w.k.memMap client slot va = some (r, k')) :
    Noted server client { w with k := k' } := by
  have hpages := h.pages.same (State.samePages_memMap hmap)
  obtain ⟨m, rfl, -⟩ | ⟨id, rec, root, m, -, -, hcap, hrec, -, -, -, -, rfl⟩ := State.memMap_cases hmap
  · exact ⟨h.alive, h.accept, hpages, h.unmapped, h.full, h.owed⟩
  refine ⟨h.alive, h.accept, hpages, fun other rec' hrec' howner => ?_, h.full, h.owed⟩
  have hput := State.get_putPage (r := { rec with mapVa := some va }) hrec rfl other
  have hrec'' := hput.symm.trans hrec'
  split at hrec''
  · cases hrec''
    obtain ⟨rec₁, hrec₁, howner₁⟩ := h.pages.live client slot id hcap
    rw [hrec] at hrec₁
    cases hrec₁
    exact absurd (howner₁.symm.trans howner) hne
  · exact h.unmapped other rec' hrec'' howner

theorem Noted.step (hne : client ≠ server) {e : PoolEvent}
    (hstep : w.step server client e = some w') : w'.Noted server client := by
  cases e with
  | request op arg1 =>
    obtain ⟨⟨reply, k', pool⟩, hserve, rfl⟩ := Option.map_eq_some_iff.mp hstep
    dsimp only
    unfold serveMemory at hserve
    by_cases halloc : op = opAlloc
    · have hop : ¬ (op = opFree ∧ reply.status = 0) := by simp [halloc, opAlloc, opFree]
      rw [if_pos halloc] at hserve
      rw [if_neg hop]
      rcases hcall : allocPage server w.k w.pool arg1 with _ | ⟨_ | _, k₁, pool₁⟩ <;>
        simp only [hcall, reduceCtorEq] at hserve <;> cases hserve <;> exact h.alloc hne hcall
    rw [if_neg halloc] at hserve
    by_cases hop : op = opFree
    · rw [if_pos hop] at hserve
      rcases hfree : freeSlot w.pool with ⟨_ | slot, pool₁⟩ <;> rw [hfree] at hserve <;> cases hserve
      · rw [if_neg (by simp [answer, errEnomem])]
        unfold freeSlot at hfree
        split at hfree <;> cases hfree
        exact h
      · rw [if_pos ⟨hop, rfl⟩]
        exact h.free hfree
    · rw [if_neg hop] at hserve
      cases hserve
      rw [if_neg fun hfree => hop hfree.1]
      exact h
  | giveBack src peerSlot slot =>
    obtain ⟨⟨howed, hpeer⟩, hcall⟩ := Option.ite_none_right_eq_some.mp hstep
    rcases hgrant : w.k.memGrant client src peerSlot slot with _ | ⟨_ | _, k₁⟩ <;>
      simp only [hgrant, reduceCtorEq] at hcall <;> cases hcall
    · obtain ⟨rfl, -⟩ | ⟨_, _, _, _, _, _, _, _, _, _, _, _, _, hok, -⟩ := State.memGrant_cases hgrant
      · exact h
      · cases hok
    · exact h.giveBack hne howed hpeer hgrant
  | map slot va =>
    obtain ⟨⟨r, k'⟩, hmap, rfl⟩ := Option.map_eq_some_iff.mp hstep
    exact h.map hne hmap

/-- Only a slot with a page can be handed out, and it can be to an empty slot of the client. -/
theorem Noted.allocs_iff (hslot : dst < maxCaps) (hempty : w.k.table.capAt client dst = none) :
    (∃ s, allocPage server w.k w.pool dst = some (.ok (), s)) ↔ w.FirstHolds server := by
  constructor
  · rintro ⟨s, hs⟩
    unfold allocPage at hs
    split at hs
    · cases hs
    next i hfirst =>
    split at hs
    · cases hs
    · cases hs
    next hgrant =>
    obtain ⟨id, hsrc, -⟩ := moves_of_memGrant h.accept hgrant
    exact ⟨i, hfirst, id, hsrc⟩
  · rintro ⟨i, hfirst, id, hsrc⟩
    obtain ⟨rec, hrec, howner⟩ := h.pages.live server (poolSlot i) id hsrc
    obtain ⟨k', hgrant⟩ := memGrant_of_unmapped hsrc h.accept h.alive hslot hempty hrec
      (h.unmapped id rec hrec howner)
    rw [allocPage, hfirst]
    simp [hgrant]

end

end PoolWorld

/-- In every run a slot that FREE names holds no page, and a client with a valid and empty destination
gets a page of the pool exactly when the first slot that is noted as full holds one. -/
theorem always_allocs_iff (c : Connected) (events : List PoolEvent) :
    Machine.Always (PoolWorld.step c.server c.client) c.start events fun w =>
      (∀ slot pool, freeSlot w.pool = (some slot, pool) → ¬ w.Holds c.server slot) ∧
      ∀ dst, dst < maxCaps → w.k.table.capAt c.client dst = none →
        (∃ i, w.Holds c.server (poolSlot i)) →
        ((∃ s, allocPage c.server w.k w.pool dst = some (.ok (), s)) ↔ w.FirstHolds c.server) := by
  have hall : Machine.Always (PoolWorld.step c.server c.client) c.start events
      (PoolWorld.Noted c.server c.client) :=
    Machine.always_of_step c.noted fun w e w' hw hstep => hw.step c.apart hstep
  intro first rest w hsplit hrun
  have hw := hall first rest w hsplit hrun
  refine ⟨fun slot pool hfree => ?_, fun dst hslot hempty _ => hw.allocs_iff hslot hempty⟩
  obtain ⟨-, -, -, hnone⟩ := hw.not_holds hfree
  exact hnone

/-- Process 0 is the server and process 1 its client. -/
def pooled : State :=
  { boot (Mem.Usage.start (fun _ => 0) 0x80300000 32 []) with
    table :=
      ⟨[⟨0, 0x80400000, fun s => if s.val = 0 then some (.proc 1) else
          if s.val ≤ 4 then some (.page (s.val - 1)) else none⟩,
        ⟨1, 0x80401000, fun _ => none⟩], []⟩
    pages := ⟨(List.range 4).map fun i => ⟨i, 0x80300000 + i * 0x1000, 0, none⟩, []⟩ }

theorem capAt_pooled {q s id : Nat} :
    pooled.table.capAt q s = some (.page id) ↔ q = 0 ∧ s = id + 1 ∧ id < 4 := by
  by_cases hs : s < maxCaps
  · rw [ProcessTable.capAt, dif_pos hs]
    rcases q with _ | _ | q
    · simp [pooled, ProcessTable.get]
      grind
    · simp [pooled, ProcessTable.get, Option.filter]
    · simp [pooled, ProcessTable.get]
  · rw [ProcessTable.capAt, dif_neg hs]
    simp [maxCaps] at hs ⊢
    omega

theorem pageRecord_pooled {id : Nat} {rec : PageRecord} :
    pooled.pageRecord id = some rec ↔ id < 4 ∧ rec = ⟨id, 0x80300000 + id * 0x1000, 0, none⟩ := by
  rw [State.pageRecord, Registry.get_eq_some]
  simp [pooled]
  grind

/-- The two processes, with the pages of the server. -/
def pooledStart : Connected where
  k := pooled
  server := 0
  client := 1
  apart := by decide
  alive := by decide +kernel
  accept := by decide +kernel
  pages :=
    { held := fun id rec hrec => by
        obtain ⟨hid, rfl⟩ := pageRecord_pooled.mp hrec
        exact ⟨id + 1, capAt_pooled.mpr ⟨rfl, rfl, hid⟩⟩
      unique := fun q s q' s' id h h' => by
        obtain ⟨rfl, rfl, -⟩ := capAt_pooled.mp h
        obtain ⟨rfl, rfl, -⟩ := capAt_pooled.mp h'
        exact ⟨rfl, rfl⟩
      live := fun q s id h => by
        obtain ⟨rfl, rfl, hid⟩ := capAt_pooled.mp h
        exact ⟨_, pageRecord_pooled.mpr ⟨hid, rfl⟩, rfl⟩ }
  unmapped _ _ hrec _ := by
    obtain ⟨-, rfl⟩ := pageRecord_pooled.mp hrec
    rfl
  holds i := ⟨i, capAt_pooled.mpr ⟨rfl, Nat.add_comm .., i.isLt⟩⟩

/-- The client takes the page of slot 1, is told to give one back to that slot, and does not: the next
ALLOC fails although three slots hold pages. -/
theorem not_always_serves :
    ¬ Machine.Always (PoolWorld.step 0 1) pooledStart.start
      [.request opAlloc 5, .request opFree 0] (PoolWorld.Serves 0 1) := by
  intro halways
  have heval : (Machine.run (PoolWorld.step 0 1) pooledStart.start
      [.request opAlloc 5, .request opFree 0]).map (fun w =>
        (w.k.table.capAt 1 6, w.k.table.capAt 0 2,
          (allocPage 0 w.k w.pool 6).map fun r => r.1.toOption)) =
      some (none, some (.page 1), some none) := by decide +kernel
  obtain ⟨w, hrun, hw⟩ := Option.map_eq_some_iff.mp heval
  obtain ⟨hempty, hw⟩ := Prod.mk.inj hw
  obtain ⟨hholds, hfails⟩ := Prod.mk.inj hw
  obtain ⟨s, hs⟩ := (halways _ [] w rfl hrun).alloc 6 (by decide) hempty ⟨1, 1, hholds⟩
  rw [hs] at hfails
  cases hfails

end Ignium.User
