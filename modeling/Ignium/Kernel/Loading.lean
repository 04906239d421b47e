import Ignium.Kernel.Loader
import Ignium.Kernel.Ownership
import Ignium.Mmu.KernelMap

/-!
# Loading a program keeps the ownership of pages

The loader fills and maps fresh pages one by one and remembers them in a list, from which
`rollback` undoes the work when a step fails. `Loads` ties the list to the address spaces: a page
on it is held, belongs to no record, is mapped nowhere but where the list says, and holds what it
was filled with. Each page step keeps it, hence the loops do, and `rollback` releases exactly the
pages on the list. `load_good` says what a load leaves behind: new mappings only of pages that hold
what the file and the arguments say (`ElfInfo.Filled`).
-/

namespace Ignium.Kernel

open Mem Mmu Function

/-! ## The loops -/

/-- What every step of a loop keeps holds after the loop, whether or not a step failed. -/
theorem mapEach_induction {α : Type} {P : Loading → Prop}
    {step : Loading → α → Outcome Loading ElfError Unit} {xs : List α}
    (hstep : ∀ {s x r s'}, x ∈ xs → P s → step s x = some (r, s') → P s')
    {s s' : Loading} {r : Except ElfError Unit} (hs : P s)
    (hloop : mapEach step xs s = some (r, s')) : P s' := by
  induction xs generalizing s with
  | nil =>
    cases hloop
    exact hs
  | cons x rest ih =>
    obtain ⟨e, hfail, -⟩ | ⟨_, s₁, hfirst, hrest⟩ := Outcome.andThen_eq_some hloop
    · exact hstep (.head _) hs hfail
    · exact ih (fun hx => hstep (.tail _ hx)) (hstep (.head _) hs hfirst) hrest

/-- A loop whose steps all succeed follows a loop over the same items. -/
theorem mapEach_foldl {α β : Type} {R : β → Loading → Prop} {g : β → α → β}
    {step : Loading → α → Outcome Loading ElfError Unit} {xs : List α}
    (hstep : ∀ {t s x s'}, R t s → step s x = some (.ok (), s') → R (g t x) s')
    {t : β} {s s' : Loading} (hs : R t s) (hloop : mapEach step xs s = some (.ok (), s')) :
    R (xs.foldl g t) s' := by
  induction xs generalizing s t with
  | nil =>
    cases hloop
    exact hs
  | cons x rest ih =>
    obtain ⟨e, -, hfail⟩ | ⟨_, s₁, hfirst, hrest⟩ := Outcome.andThen_eq_some hloop
    · cases hfail
    · exact ih (hstep hs hfirst) hrest

/-- The pages of a segment. -/
def Segment.pages (seg : Segment) : List Nat :=
  addresses (alignDown seg.vaddr pageSize) (alignUp (seg.vaddr + seg.memsz) pageSize) pageSize

/-- The pages of the stack. -/
def stackPages : List Nat := addresses stackBottom userStackTop pageSize

/-- The pages that a program asks for. -/
def ElfInfo.pages (info : ElfInfo) : List Nat := info.segments.flatMap Segment.pages ++ stackPages

theorem mapSegments_induction {P : Loading → Prop} {root : Nat} {bytes : List UInt8}
    {segs : List Segment}
    (hpage : ∀ {seg s va r s'}, seg ∈ segs → va ∈ seg.pages → P s →
      mapSegmentPage root bytes seg s va = some (r, s') → P s')
    {s s' : Loading} {r : Except ElfError Unit} (hs : P s)
    (hloop : mapSegments root bytes segs s = some (r, s')) : P s' := by
  induction segs generalizing s with
  | nil =>
    cases hloop
    exact hs
  | cons seg rest ih =>
    obtain ⟨e, hfail, -⟩ | ⟨_, s₁, hdone, hmore⟩ := Outcome.andThen_eq_some hloop
    · exact mapEach_induction (hpage (.head _)) hs hfail
    · exact ih (fun hseg => hpage (.tail _ hseg)) (mapEach_induction (hpage (.head _)) hs hdone)
        hmore

/-! ## What the pages are filled with -/

/-- The byte of a segment at an address: from the file, or zero behind it. -/
def Segment.byteAt (seg : Segment) (bytes : List UInt8) (va : Nat) : Nat :=
  if seg.vaddr ≤ va ∧ va < seg.vaddr + seg.filesz then
    (bytes.getD (seg.offset + (va - seg.vaddr)) 0).toNat
  else 0

/-- The page at an address holds a page of a segment. -/
def Segment.Fills (seg : Segment) (bytes : List UInt8) (va pa : Nat) (words : Nat → Nat) : Prop :=
  va ∈ seg.pages ∧ ∀ off < pageSize, words (pa + off) = seg.byteAt bytes (va + off)

/-- All that is written to the stack. -/
def stackCells (args : List (List UInt8)) : List (Nat × Nat) :=
  stringCells (strArea args) args ++
    (argvCells (strArea args) (argvArray args) args ++ [(args.length, spFinal args)])

/-- Write cells over what is there. -/
def overlay (cells : List (Nat × Nat)) (f : Nat → Nat) : Nat → Nat :=
  cells.foldl (fun f cell => update f cell.2 cell.1) f

/-- A page of the stack holds part of a stack. -/
def FillsStack (f : Nat → Nat) (va pa : Nat) (words : Nat → Nat) : Prop :=
  va ∈ stackPages ∧ ∀ off < pageSize, words (pa + off) = f (va + off)

/-- A page of a program holds what the file and the arguments say: a page of a segment, or a page of
the stack with the arguments. -/
def ElfInfo.Filled (info : ElfInfo) (args : List (List UInt8)) (va pa : Nat) (words : Nat → Nat) :
    Prop :=
  (∃ seg ∈ info.segments, seg.Fills info.bytes va pa words) ∨
    FillsStack (overlay (stackCells args) fun _ => 0) va pa words

/-- The words of a page after bytes were copied to it. -/
def copied (words : Nat → Nat) : Nat → List UInt8 → Nat → Nat
  | _, [] => words
  | addr, byte :: rest => copied (update words addr byte.toNat) (addr + 1) rest

theorem copied_apply (words : Nat → Nat) (addr : Nat) (bytes : List UInt8) (x : Nat) :
    copied words addr bytes x =
      if addr ≤ x ∧ x < addr + bytes.length then (bytes.getD (x - addr) 0).toNat else words x := by
  induction bytes generalizing words addr with
  | nil => exact (if_neg fun h => by simp at h; omega).symm
  | cons byte rest ih =>
    rw [copied, ih, List.length_cons]
    by_cases hx : x = addr
    · subst hx
      rw [if_neg (by omega), if_pos (by omega), update_self, Nat.sub_self]
      rfl
    · rw [update_of_ne hx]
      by_cases hin : addr ≤ x ∧ x < addr + (rest.length + 1)
      · have hidx : x - addr = x - (addr + 1) + 1 := by omega
        rw [if_pos (by omega), if_pos hin, hidx, List.getD_cons_succ]
      · rw [if_neg (by omega), if_neg hin]

theorem shows_copyBytes {m : Usage} {V : View} {page addr : Nat} {bytes : List UInt8}
    {words : Nat → Nat} (h : Shows m (V.addData page words)) (hlo : page ≤ addr)
    (hhi : addr + bytes.length ≤ page + pageSize) :
    Shows (copyBytes m addr bytes) (V.addData page (copied words addr bytes)) := by
  induction bytes generalizing m addr words with
  | nil => exact h
  | cons byte rest ih =>
    rw [List.length_cons] at hhi
    obtain ⟨place, hsees⟩ := h
    have hx : Usage.InPage page addr := ⟨hlo, by omega⟩
    have hwrite : Sees (m.write addr byte.toNat) place
        ((V.addData page words).setWord page addr byte.toNat) := hsees.write (.inl rfl) hx
    have hset : (V.addData page words).setWord page addr byte.toNat =
        V.addData page (update words addr byte.toNat) := by
      simp [View.addData, View.setWord]
    rw [hset] at hwrite
    exact ih ⟨place, hwrite⟩ (by omega) (by omega)

/-- The first page of a segment starts less than a page before it, and the file has that much before
the segment. -/
theorem Segment.le_of_mem_pages {seg : Segment} {va : Nat} (hva : va ∈ seg.pages) :
    seg.vaddr ≤ va + seg.offset ∧ seg.vaddr < va + pageSize := by
  obtain ⟨i, -, rfl⟩ := List.mem_map.mp hva
  have haligned := seg.aligned
  simp only [alignDown, pageSize] at haligned ⊢
  omega

/-! ## Pages to map -/

/-- A page that is to be mapped, and the bytes that are copied to it. -/
structure PageItem where
  va : Nat
  flags : Nat
  off : Nat
  bytes : List UInt8
  aligned : va % pageSize = 0
  bound : va < userVaLimit
  valid : Valid flags
  fits : off + bytes.length ≤ pageSize

/-- The byte of a page at an address. -/
def PageItem.byte (p : PageItem) (x : Nat) : Nat :=
  if p.va + p.off ≤ x ∧ x < p.va + p.off + p.bytes.length then
    (p.bytes.getD (x - (p.va + p.off)) 0).toNat
  else 0

/-- What a cleared page holds after the bytes were copied to it. -/
theorem copied_item (p : PageItem) (page off : Nat) :
    copied (fun _ => 0) (page + p.off) p.bytes (page + off) = p.byte (p.va + off) := by
  have hin : (page + p.off ≤ page + off ∧ page + off < page + p.off + p.bytes.length) ↔
      (p.va + p.off ≤ p.va + off ∧ p.va + off < p.va + p.off + p.bytes.length) := by omega
  have hindex : page + off - (page + p.off) = p.va + off - (p.va + p.off) := by omega
  rw [copied_apply, PageItem.byte, hindex]
  simp only [hin]

/-- Fill and map one page, and release it when it cannot be mapped, or not. -/
def mapItem (root : Nat) (release : Bool) (s : Loading) (p : PageItem) :
    Outcome Loading ElfError Unit :=
  if isMapped s.1 root p.va then some (.error .overlap, s)
  else
    match s.1.allocPagesZeroed 0 with
    | none => none
    | some (none, m) => some (.error .noMemory, (m, s.2))
    | some (some pa, m) =>
      match mapUserPage (copyBytes m (pa + p.off) p.bytes) root p.va pa p.flags with
      | none => none
      | some (.error _, m) =>
        if release then .failAfter ((m.freePages pa).discard.map fun m => (m, s.2)) .mapFailed
        else some (.error .mapFailed, (m, s.2))
      | some (.ok _, m) => some (.ok (), (m, s.2 ++ [(p.va, pa)]))

namespace Segment

variable {seg : Segment} {va x : Nat} {bytes : List UInt8}

theorem mem_pages (hva : va ∈ seg.pages) : va % pageSize = 0 ∧ va < userVaLimit := by
  obtain ⟨hle, hlt, hmod⟩ := (mem_addresses (by decide)).mp hva
  have hbound := seg.bound
  have hlimit : userVaLimit = 2 ^ 38 := by decide
  simp only [alignDown, alignUp, pageSize] at hle hlt hmod ⊢
  rw [hlimit] at hbound ⊢
  omega

theorem valid_segmentFlags (flags : Nat) : Valid (segmentFlags flags) ∧
    pteFlags (segmentFlags flags ||| pteU) = segmentFlags flags ||| pteU := by
  unfold segmentFlags
  split
  · decide
  · split <;> decide

theorem segmentFlags_lt (flags : Nat) : segmentFlags flags ||| pteU < 2 ^ ptePpnShift := by
  unfold segmentFlags
  split
  · decide
  · split <;> decide

/-- Where the file has the bytes of a page, and the offset in the page. -/
def window (seg : Segment) (va : Nat) : Nat × Nat × Nat :=
  let base := seg.offset + va - seg.vaddr
  let copyLo := max base seg.offset
  (copyLo - base, copyLo, min (base + pageSize) (seg.offset + seg.filesz))

theorem window_fits (bytes : List UInt8) (hva : va ∈ seg.pages) :
    (seg.window va).1 + ((bytes.drop (seg.window va).2.1).take
      ((seg.window va).2.2 - (seg.window va).2.1)).length ≤ pageSize := by
  obtain ⟨hbase, hfirst⟩ := seg.le_of_mem_pages hva
  have hpos : pageSize = 4096 := rfl
  rw [List.length_take]
  dsimp only [window]
  rw [hpos] at hfirst ⊢
  omega

/-- A page of a segment with its bytes. -/
def item (seg : Segment) (bytes : List UInt8) (va : Nat) (hva : va ∈ seg.pages) : PageItem where
  va := va
  flags := segmentFlags seg.flags
  off := (seg.window va).1
  bytes := (bytes.drop (seg.window va).2.1).take ((seg.window va).2.2 - (seg.window va).2.1)
  aligned := (mem_pages hva).1
  bound := (mem_pages hva).2
  valid := (valid_segmentFlags _).1
  fits := window_fits bytes hva

/-- The page holds the bytes of the segment. -/
theorem byte_item (hva : va ∈ seg.pages) (hfile : seg.offset + seg.filesz ≤ bytes.length)
    (hx : x / pageSize * pageSize = va) : (seg.item bytes va hva).byte x = seg.byteAt bytes x := by
  obtain ⟨hbase, hfirst⟩ := seg.le_of_mem_pages hva
  have hpage : pageSize = 4096 := rfl
  rw [hpage] at hfirst hx
  unfold PageItem.byte byteAt item window
  dsimp only
  set base := seg.offset + va - seg.vaddr with hdef
  set lo := max base seg.offset with hlo
  set hi := min (base + pageSize) (seg.offset + seg.filesz) with hhi
  rw [hpage] at hhi
  have hlen : ((bytes.drop lo).take (hi - lo)).length = hi - lo := by
    rw [List.length_take, List.length_drop]
    omega
  rw [hlen]
  by_cases hin : seg.vaddr ≤ x ∧ x < seg.vaddr + seg.filesz
  · have hindex : lo + (x - (va + (lo - base))) = seg.offset + (x - seg.vaddr) := by omega
    have hlt : x - (va + (lo - base)) < hi - lo := by omega
    rw [if_pos (by omega), if_pos hin, ← hindex, List.getD_eq_getElem?_getD,
      List.getD_eq_getElem?_getD, List.getElem?_take_of_lt hlt, List.getElem?_drop]
  · rw [if_neg (by omega), if_neg hin]

end Segment

/-- A page of the stack, which is cleared. -/
def stackItem (va : Nat) (hva : va ∈ stackPages) : PageItem where
  va := va
  flags := 0xC7
  off := 0
  bytes := []
  aligned := (by decide : ∀ va ∈ stackPages, va % pageSize = 0) va hva
  bound := (by decide : ∀ va ∈ stackPages, va < userVaLimit) va hva
  valid := by decide
  fits := Nat.zero_le _

/-! ## The pages on the list -/

/-- The pages that are mapped so far belong to the process that is being loaded, only the list
knows them, and they hold what they were filled with. All other mappings were there before. -/
structure Loads (L : Ledger) (before : Nat → Nat → Nat → Prop)
    (filled : Nat → Nat → (Nat → Nat) → Prop) (V : View) (pid : Nat) (done : List (Nat × Nat)) :
    Prop where
  good : L.Good V
  data : ∀ {va pa}, (va, pa) ∈ done → V.data pa
  unclaimed : ∀ {va pa}, (va, pa) ∈ done → L.Unclaimed pa
  maps : ∀ {va pa}, (va, pa) ∈ done → L.Maps V pid va pa
  only : ∀ {va pa q va'}, (va, pa) ∈ done → L.Maps V q va' pa → q = pid ∧ vpn va' = vpn va
  nodup : (done.map Prod.snd).Nodup
  old : ∀ {q va p}, L.Maps V q va p →
    before q va p ∨ (q = pid ∧ ∃ va', (va', p) ∈ done ∧ vpn va = vpn va')
  words : ∀ {va pa}, (va, pa) ∈ done → filled va pa (V.word pa)
  any : ∀ {va pa x v}, (va, pa) ∈ done → L.policy.allows pa x v

/-- The state of a load: the memory shows address spaces with which the list agrees, and pages that
are not in use may be filled with anything. -/
def Loading.Ok (L : Ledger) (before : Nat → Nat → Nat → Prop)
    (filled : Nat → Nat → (Nat → Nat) → Prop) (range : Nat → Bool) (pid : Nat) (s : Loading) : Prop :=
  ∃ V, Shows s.1 V ∧ Loads L before filled V pid s.2 ∧
    (∀ {p x v}, ¬ L.Used V p → L.policy.allows p x v) ∧ V.inRange = range

namespace Loads

variable {L : Ledger} {V V' : View} {pid root : Nat} {done : List (Nat × Nat)} {page va : Nat}
  {before : Nat → Nat → Nat → Prop} {filled filled' : Nat → Nat → (Nat → Nat) → Prop}
  {words : Nat → Nat}

theorem nil (h : L.Good V) (hbefore : ∀ {q va p}, L.Maps V q va p → before q va p) :
    Loads L before filled V pid [] where
  good := h
  data hmem := by simp at hmem
  unclaimed hmem := by simp at hmem
  maps hmem := by simp at hmem
  only hmem := by simp at hmem
  nodup := List.nodup_nil
  old hm := .inl (hbefore hm)
  words hmem := by simp at hmem
  any hmem := by simp at hmem

section

variable (h : Loads L before filled V pid done)
include h

/-- Pages of the list are held, so a fresh page is another one. -/
theorem ne_of_fresh (hfresh : ¬ V.data page) {va' pa : Nat}
    (hmem : (va', pa) ∈ done) : pa ≠ page := by
  rintro rfl
  exact hfresh (h.data hmem)

/-- The words of the list are kept while a fresh page is held. -/
theorem words_addData (hfresh : ¬ V.data page) {va' pa : Nat}
    (hmem : (va', pa) ∈ done) : filled va' pa ((V.addData page words).word pa) := by
  have hword : (V.addData page words).word pa = V.word pa :=
    update_of_ne (h.ne_of_fresh hfresh hmem) _ _
  rw [hword]
  exact h.words hmem

/-- A page that is only held stays off the list. -/
theorem addData (hfresh : ¬ V.data page) :
    Loads L before filled (V.addData page words) pid done where
  good := h.good.addData hfresh
  data hmem := .inr (h.data hmem)
  unclaimed := h.unclaimed
  maps := h.maps
  only := h.only
  nodup := h.nodup
  old := h.old
  words hmem := h.words_addData hfresh hmem
  any := h.any

/-- A fresh page is mapped and enters the list. -/
theorem map {entry : Nat} (hroot : L.roots pid = some root)
    (hfresh : ¬ V.data page) (hrange : V.inRange page = true)
    (hzero : V.leaf root (vpn va) = 0) (hva : ¬ L.policy.fixed (vpn va)) (huser : User entry)
    (hentry : ptePaddr entry = page) (hfilled : filled va page words)
    (hany : ∀ {x v}, L.policy.allows page x v) :
    Loads L before filled ((V.addData page words).setLeaf root (vpn va) entry) pid
      (done ++ [(va, page)]) := by
  obtain ⟨hunmapped, hfree⟩ := h.good.fresh hfresh hrange
  have hgood : L.Good (V.addData page words) := h.good.addData hfresh
  have hsplit : ∀ {va' pa}, (va', pa) ∈ done ++ [(va, page)] →
      (va', pa) ∈ done ∨ (va' = va ∧ pa = page) := by
    intro va' pa hmem
    simpa using hmem
  refine ⟨hgood.setLeaf hroot hzero hva hentry (.inl rfl) hrange hunmapped hfree fun _ => hany,
    fun hmem => ?_, fun hmem => ?_, fun hmem => ?_, fun hmem hm => ?_, ?_, fun {q va' p} hm => ?_,
    fun {va' pa} hmem => ?_, fun hmem => ?_⟩
  · rcases hsplit hmem with hmem | ⟨rfl, rfl⟩
    · exact .inr (h.data hmem)
    · exact .inl rfl
  · rcases hsplit hmem with hmem | ⟨rfl, rfl⟩
    · exact h.unclaimed hmem
    · exact hfree
  · rcases hsplit hmem with hmem | ⟨rfl, rfl⟩
    · have hm : L.Maps (V.addData page words) pid _ _ := h.maps hmem
      exact Ledger.maps_setLeaf_of_zero hzero hm
    · rw [← hentry]
      exact Ledger.maps_setLeaf_self hroot huser
  · rcases hsplit hmem with hmem | ⟨rfl, rfl⟩
    · rcases Ledger.maps_setLeaf hgood hroot hm with ⟨-, -, heq⟩ | hm
      · exact absurd (heq.symm.trans hentry) (h.ne_of_fresh hfresh hmem)
      · exact h.only hmem hm
    · rcases Ledger.maps_setLeaf hgood hroot hm with ⟨hpid, hva, -⟩ | hm
      · exact ⟨hpid, hva⟩
      · exact absurd hm (hunmapped _ _)
  · rw [List.map_append, List.nodup_append]
    refine ⟨h.nodup, List.nodup_singleton _, ?_⟩
    rintro pa hpa other hother rfl
    obtain ⟨⟨va', pa'⟩, hmem, rfl⟩ := List.mem_map.mp hpa
    exact h.ne_of_fresh hfresh hmem (List.mem_singleton.mp hother)
  · rcases Ledger.maps_setLeaf hgood hroot hm with ⟨hpid, hva, heq⟩ | hm
    · exact .inr ⟨hpid, va, by simp [← heq, hentry], hva⟩
    · rcases h.old hm with hbefore | ⟨hpid, va'', hmem, hva⟩
      · exact .inl hbefore
      · exact .inr ⟨hpid, va'', List.mem_append_left _ hmem, hva⟩
  · rcases hsplit hmem with hmem | ⟨rfl, rfl⟩
    · exact h.words_addData hfresh hmem
    · have hword : (V.addData pa words).word pa = words := update_self _ _ _
      exact hword.symm ▸ hfilled
  · rcases hsplit hmem with hmem | ⟨rfl, rfl⟩
    · exact h.any hmem
    · exact hany

/-- A word of a page on the list is written. -/
theorem setWord {x value : Nat} (hmem : (va, page) ∈ done)
    (hself : ∀ {w}, filled va page w → filled' va page (update w x value))
    (hother : ∀ {va' pa w}, (va', pa) ∈ done → vpn va' ≠ vpn va → filled va' pa w → filled' va' pa w) :
    Loads L before filled' (V.setWord page x value) pid done where
  good := h.good.setWord fun _ _ => h.any hmem
  data := h.data
  unclaimed := h.unclaimed
  maps := h.maps
  only := h.only
  nodup := h.nodup
  old := h.old
  words {va' pa} hmem' := by
    by_cases hpa : pa = page
    · obtain ⟨rfl, rfl⟩ : va' = va ∧ pa = page :=
        Prod.mk.inj (List.inj_on_of_nodup_map h.nodup hmem' hmem hpa)
      have hword : (V.setWord pa x value).word pa = update (V.word pa) x value :=
        update_self _ _ _
      rw [hword]
      exact hself (h.words hmem)
    · have hword : (V.setWord page x value).word pa = V.word pa := update_of_ne hpa _ _
      rw [hword]
      refine hother hmem' (fun hva => hpa ?_) (h.words hmem')
      exact Ledger.maps_unique (h.maps hmem') (h.maps hmem) hva
  any := h.any

end

/-- The first page of the list is unmapped and given back. -/
theorem undo (h : Loads L before filled V pid ((va, page) :: done)) (hroot : L.roots pid = some root)
    (hV : V.Loses V' fun r n => r = root ∧ n = vpn va) :
    Loads L before filled (V'.dropData page) pid done := by
  have hnodup := List.nodup_cons.mp h.nodup
  have hfree := h.unclaimed (.head _)
  have hleaf : User (V.leaf root (vpn va)) ∧ ptePaddr (V.leaf root (vpn va)) = page := by
    obtain ⟨r, hr, hleaf⟩ := h.maps (.head _)
    cases hroot.symm.trans hr
    exact hleaf
  obtain ⟨hgood, hunmapped, -⟩ : L.Good V' ∧ L.Unmapped V' page ∧ L.Unclaimed page := by
    refine h.good.letGo hV rfl rfl rfl (fun {id sp} => ?_) (fun hc => ⟨hc, rfl⟩) h.good.slots
      (fun hh => hfree.2 _ _ _ hh) ?_ fun {q r va'} hm hr => ?_
    · exact (and_iff_left_of_imp fun hsp => hfree.1 id sp hsp).symm
    · rintro q r n - ⟨rfl, rfl⟩
      exact hleaf
    · obtain ⟨rfl, hva⟩ := h.only (.head _) hm
      exact ⟨Option.some.inj (hr.symm.trans hroot), hva⟩
  have hmaps : ∀ {q va' p}, L.Maps V' q va' p → L.Maps V q va' p := by
    rintro q va' p ⟨r, hr, huser, hp⟩
    have hplace : ¬ (r = root ∧ vpn va' = vpn va) := fun hplace => hV.gone _ _ hplace huser
    rw [hV.leaves r _ hplace] at huser hp
    exact ⟨r, hr, huser, hp⟩
  refine ⟨hgood.dropData hunmapped hfree, fun hmem => ⟨?_, ?_⟩,
    fun hmem => h.unclaimed (.tail _ hmem), fun {va' pa} hmem => ?_,
    fun hmem hm => h.only (.tail _ hmem) (hmaps hm), hnodup.2, fun {q va' p} hm => ?_, fun hmem => ?_,
    fun hmem => h.any (.tail _ hmem)⟩
  · rintro rfl
    exact hnodup.1 (List.mem_map.mpr ⟨_, hmem, rfl⟩)
  · rw [hV.data]
    exact h.data (.tail _ hmem)
  · -- Another page of the list is mapped somewhere else.
    obtain ⟨r, hr, huser, hp⟩ := h.maps (.tail _ hmem)
    have hplace : ¬ (r = root ∧ vpn va' = vpn va) := by
      rintro ⟨rfl, hva⟩
      rw [hva, hleaf.2] at hp
      exact hnodup.1 (List.mem_map.mpr ⟨_, hmem, hp.symm⟩)
    rw [← hV.leaves r _ hplace] at huser hp
    exact ⟨r, hr, huser, hp⟩
  · rcases h.old (hmaps hm) with hbefore | ⟨hpid, va'', hmem, hva⟩
    · exact .inl hbefore
    · rcases List.mem_cons.mp hmem with heq | hmem
      · cases heq
        exact absurd hm (hunmapped _ _)
      · exact .inr ⟨hpid, va'', hmem, hva⟩
  · change filled _ _ (V'.word _)
    rw [hV.word]
    exact h.words (.tail _ hmem)

/-- So does a page that was never mapped. -/
theorem dropFresh (h : Loads L before filled V pid done) (hfresh : ¬ V.data page)
    (hrange : V.inRange page = true) :
    Loads L before filled ((V.addData page words).dropData page) pid done := by
  obtain ⟨hunmapped, hfree⟩ := h.good.fresh hfresh hrange
  refine ⟨(h.good.addData hfresh).dropData hunmapped hfree, fun hmem => ?_, h.unclaimed, h.maps,
    h.only, h.nodup, h.old, fun hmem => h.words_addData hfresh hmem, h.any⟩
  exact ⟨h.ne_of_fresh hfresh hmem, .inr (h.data hmem)⟩

end Loads

namespace Loading.Ok

variable {L : Ledger} {range : Nat → Bool} {pid root : Nat} {s s' : Loading} {va : Nat}
  {before : Nat → Nat → Nat → Prop} {filled filled' : Nat → Nat → (Nat → Nat) → Prop}

/-- The pages of the list are released one after the other. -/
theorem rollback {m : Usage} (h : s.Ok L before filled range pid) (hroot : L.roots pid = some root)
    (hrollback : Kernel.rollback root s = some m) :
    ∃ V, Shows m V ∧ Loads L before filled V pid [] ∧ V.inRange = range := by
  obtain ⟨m₀, done⟩ := s
  obtain ⟨V, hshows, hloads, -, hrange⟩ := h
  unfold Kernel.rollback at hrollback
  induction done generalizing m₀ V with
  | nil =>
    cases hrollback
    exact ⟨V, hshows, hloads, hrange⟩
  | cons first rest ih =>
    obtain ⟨va, pa⟩ := first
    simp only [List.foldlM_cons, bind, Option.bind_eq_some_iff] at hrollback
    obtain ⟨m₂, ⟨m₁, hunmap, hfree⟩, hrest⟩ := hrollback
    obtain ⟨r, hfree⟩ := Outcome.discard_eq_some hfree
    obtain ⟨V', hshows', hloses⟩ := hshows.unmap4k (hloads.good.root hroot) hunmap
    have hdata : V'.data pa := by
      rw [hloses.data]
      exact hloads.data (.head _)
    obtain ⟨-, hshows''⟩ := hshows'.freePages hdata hfree
    exact ih _ hrest _ hshows'' (hloads.undo hroot hloses) (hloses.range.trans hrange)

/-- Mapping a fresh page. -/
theorem mapUserPage {m m' : Usage} {page flags : Nat} {V : View} {words : Nat → Nat}
    {r : Except Unit Unit} (hshows : Shows m (V.addData page words))
    (hloads : Loads L before filled V pid s.2)
    (hfree : ∀ {p x v}, ¬ L.Used V p → L.policy.allows p x v) (hroot : L.roots pid = some root)
    (hfresh : ¬ V.data page) (hvalid : Valid flags) (hflags : flags ||| pteU < 2 ^ ptePpnShift)
    (hfixed : L.policy.fixed (vpn va) → L.policy.kernel (vpn va) ≠ 0) (hfilled : filled va page words)
    (hmap : Mmu.mapUserPage m root va page flags = some (r, m')) :
    (r = .error () ∧ Shows m' (V.addData page words)) ∨
      (r = .ok () ∧ Loading.Ok L before filled V.inRange pid (m', s.2 ++ [(va, page)])) := by
  have hroot' : (V.addData page words).root root := hloads.good.root hroot
  obtain hfail | ⟨hok, hzero, hshows'⟩ := hshows.mapUserPage hroot' hvalid hmap
  · exact .inl hfail
  · have hva : ¬ L.policy.fixed (vpn va) := fun hva =>
      hfixed hva ((hloads.good.fixed hroot hva).symm.trans hzero)
    have huser : User (pte page (flags ||| pteU)) := user_pte.mpr (user_or_pteU flags)
    have hrange : V.inRange page = true := hshows.inRange_of_data (.inl rfl)
    have hentry : ptePaddr (pte page (flags ||| pteU)) = page :=
      hshows.ptePaddr_of_data (.inl rfl) hflags
    obtain ⟨hunmapped, hunclaimed⟩ := hloads.good.fresh hfresh hrange
    refine .inr ⟨hok, _, hshows', hloads.map hroot hfresh hrange hzero hva huser hentry hfilled
      (hfree (Ledger.not_used hunmapped hunclaimed)), fun hunused => hfree fun hused => hunused ?_, rfl⟩
    rcases hused with ⟨hr, q, va', hm⟩ | hheld
    · have hm' : L.Maps (V.addData page words) q va' _ := hm
      exact .inl ⟨hr, q, va', Ledger.maps_setLeaf_of_zero hzero hm'⟩
    · exact .inr hheld

/-- Pages that are held but not used do not matter. -/
theorem addData {m : Usage} {page : Nat} {V : View} {words : Nat → Nat} {done : List (Nat × Nat)}
    (hshows : Shows m (V.addData page words)) (hloads : Loads L before filled V pid done)
    (hfree : ∀ {p x v}, ¬ L.Used V p → L.policy.allows p x v) (hfresh : ¬ V.data page) :
    Loading.Ok L before filled V.inRange pid (m, done) :=
  ⟨_, hshows, hloads.addData hfresh, hfree, rfl⟩

section

variable (h : s.Ok L before filled range pid)
include h

/-- A page that cannot be mapped is released or stays held: in that case it is lost, but nobody can
reach it. -/
theorem mapItem (release : Bool) {p : PageItem} {r : Except ElfError Unit}
    (hroot : L.roots pid = some root) (hflags : p.flags ||| pteU < 2 ^ ptePpnShift)
    (hfixed : L.policy.fixed (vpn p.va) → L.policy.kernel (vpn p.va) ≠ 0)
    (hfilled : ∀ {page words}, (∀ entry ∈ s.2, entry.2 ≠ page) →
      (∀ off < pageSize, words (page + off) = p.byte (p.va + off)) → filled p.va page words)
    (hpage : Kernel.mapItem root release s p = some (r, s')) : s'.Ok L before filled range pid := by
  obtain ⟨V, hshows, hloads, hfree, rfl⟩ := h
  unfold Kernel.mapItem at hpage
  split at hpage
  · cases hpage
    exact ⟨V, hshows, hloads, hfree, rfl⟩
  rcases halloc : s.1.allocPagesZeroed 0 with _ | ⟨_ | page, m₁⟩
  · simp [halloc] at hpage
  · simp only [halloc] at hpage
    cases hpage
    obtain ⟨-, rfl⟩ | ⟨page, heq, -⟩ := hshows.allocPagesZeroed halloc
    · exact ⟨V, hshows, hloads, hfree, rfl⟩
    · cases heq
  obtain ⟨heq, -⟩ | ⟨page', heq, hzeroed, hfresh⟩ := hshows.allocPagesZeroed halloc
  · cases heq
  cases heq
  have hshows₁ := shows_copyBytes hzeroed (Nat.le_add_right page p.off)
    (show page + p.off + p.bytes.length ≤ page + pageSize by have hfits := p.fits; omega)
  have hwords : filled p.va page (copied (fun _ => 0) (page + p.off) p.bytes) :=
    hfilled (fun entry hmem => hloads.ne_of_fresh hfresh hmem) fun off _ => copied_item p page off
  simp only [halloc] at hpage
  rcases hmap : Mmu.mapUserPage (copyBytes m₁ (page + p.off) p.bytes) root p.va page p.flags
    with _ | ⟨_ | _, m₂⟩
  · simp [hmap] at hpage
  · obtain ⟨-, hshows₂⟩ | ⟨heq, -⟩ :=
      mapUserPage hshows₁ hloads hfree hroot hfresh p.valid hflags hfixed hwords hmap
    swap
    · cases heq
    simp only [hmap] at hpage
    split at hpage
    · obtain ⟨hgiven, rfl⟩ := Outcome.failAfter_eq_some hpage
      obtain ⟨m₃, hdiscard, rfl⟩ := Option.map_eq_some_iff.mp hgiven
      obtain ⟨r', hgive⟩ := Outcome.discard_eq_some hdiscard
      obtain ⟨-, hshows₃⟩ := hshows₂.freePages (.inl rfl) hgive
      have hrange : V.inRange page = true := hshows₁.inRange_of_data (.inl rfl)
      exact ⟨_, hshows₃, hloads.dropFresh hfresh hrange, hfree, rfl⟩
    · cases hpage
      exact addData hshows₂ hloads hfree hfresh
  · obtain ⟨heq, -⟩ | ⟨-, hok⟩ :=
      mapUserPage hshows₁ hloads hfree hroot hfresh p.valid hflags hfixed hwords hmap
    · cases heq
    · simp only [hmap] at hpage
      cases hpage
      exact hok

/-- Writing a word of a page on the list. -/
theorem write {page x value : Nat} (hmem : (va, page) ∈ s.2) (hx : Usage.InPage page x)
    (hself : ∀ {w}, filled va page w → filled' va page (update w x value))
    (hother : ∀ {va' pa w}, (va', pa) ∈ s.2 → vpn va' ≠ vpn va → filled va' pa w → filled' va' pa w) :
    Loading.Ok L before filled' range pid (s.1.write x value, s.2) := by
  obtain ⟨V, ⟨place, hsees⟩, hloads, hfree, rfl⟩ := h
  exact ⟨_, ⟨place, hsees.write (hloads.data hmem) hx⟩, hloads.setWord hmem hself hother, hfree, rfl⟩

theorem mono (hfilled : ∀ {va pa w}, (va, pa) ∈ s.2 → filled va pa w → filled' va pa w) :
    s.Ok L before filled' range pid := by
  obtain ⟨V, hshows, hloads, hfree, hrange⟩ := h
  exact ⟨V, hshows, { hloads with words := fun hmem => hfilled hmem (hloads.words hmem) }, hfree,
    hrange⟩

theorem nodup : (s.2.map Prod.snd).Nodup := by
  obtain ⟨V, -, hloads, -⟩ := h
  exact hloads.nodup

end

end Loading.Ok

/-! ## The stack -/

/-- What the pages hold while the stack is built: those that were there before the stack are as
they were, and the others hold part of the stack. -/
def Stacked (done : List (Nat × Nat)) (filled : Nat → Nat → (Nat → Nat) → Prop) (f : Nat → Nat)
    (va pa : Nat) (words : Nat → Nat) : Prop :=
  ((va, pa) ∈ done ∧ filled va pa words) ∨
    ((∀ entry ∈ done, entry.2 ≠ pa) ∧ FillsStack f va pa words)

/-- A step adds its page to the list, unless it fails. -/
theorem mapStackPage_done {root va : Nat} {s s' : Loading} {r : Except ElfError Unit}
    (hpage : mapStackPage root s va = some (r, s')) :
    ((∃ e, r = .error e) ∧ s'.2 = s.2) ∨ ∃ pa, s'.2 = s.2 ++ [(va, pa)] := by
  unfold mapStackPage at hpage
  split at hpage
  · cases hpage
    exact .inl ⟨⟨_, rfl⟩, rfl⟩
  rcases halloc : s.1.allocPagesZeroed 0 with _ | ⟨_ | page, m₁⟩
  · simp [halloc] at hpage
  · simp only [halloc] at hpage
    cases hpage
    exact .inl ⟨⟨_, rfl⟩, rfl⟩
  simp only [halloc] at hpage
  rcases hmap : mapUserPage m₁ root va page 0xC7 with _ | ⟨_ | _, m₂⟩
  · simp [hmap] at hpage
  · simp only [hmap] at hpage
    cases hpage
    exact .inl ⟨⟨_, rfl⟩, rfl⟩
  · simp only [hmap] at hpage
    cases hpage
    exact .inr ⟨page, rfl⟩

/-- The pages of the stack enter the list in order. -/
theorem mapEach_mapStackPage_done {root : Nat} {vas : List Nat} {s s' : Loading}
    (hloop : mapEach (mapStackPage root) vas s = some (.ok (), s')) :
    ∃ pas : List Nat, pas.length = vas.length ∧ s'.2 = s.2 ++ vas.zip pas := by
  induction vas generalizing s with
  | nil =>
    cases hloop
    exact ⟨[], rfl, by simp⟩
  | cons va rest ih =>
    obtain ⟨e, -, hfail⟩ | ⟨_, s₁, hfirst, hrest⟩ := Outcome.andThen_eq_some hloop
    · cases hfail
    · obtain ⟨⟨e, he⟩, -⟩ | ⟨pa, hpa⟩ := mapStackPage_done hfirst
      · cases he
      obtain ⟨pas, hlen, hdone⟩ := ih hrest
      refine ⟨pa :: pas, by simp [hlen], ?_⟩
      rw [hdone, hpa, List.append_assoc]
      rfl

/-- The steps that write the stack know where its pages are. -/
def StackAt (done : List (Nat × Nat)) (stackPas : List Nat) (s : Loading) : Prop :=
  ∀ i pa, stackPas[i]? = some pa → (stackBottom + i * pageSize, pa) ∈ s.2 ∧
    (∀ entry ∈ done, entry.2 ≠ pa)

theorem stackAt_of_loop {root : Nat} {s s' : Loading}
    (hloop : mapEach (mapStackPage root) stackPages s = some (.ok (), s'))
    (hnodup : (s'.2.map Prod.snd).Nodup) :
    StackAt s.2 ((s'.2.drop s.2.length).map Prod.snd) s' := by
  obtain ⟨pas, hlen, hdone⟩ := mapEach_mapStackPage_done hloop
  have hpas : (s'.2.drop s.2.length).map Prod.snd = pas := by
    rw [hdone, List.drop_left, List.map_snd_zip (by omega)]
  rw [hpas]
  intro i pa hpa
  obtain ⟨hi, rfl⟩ := List.getElem?_eq_some_iff.mp hpa
  have hva : (stackPages.zip pas)[i]? = some (stackBottom + i * pageSize, pas[i]) := by
    rw [List.getElem?_zip_eq_some]
    refine ⟨?_, hpa⟩
    rw [stackPages, addresses, List.getElem?_map, List.getElem?_range]
    · rfl
    · rw [hlen, stackPages, addresses, List.length_map, List.length_range] at hi
      exact hi
  have hmem := List.mem_of_getElem? hva
  rw [hdone]
  refine ⟨List.mem_append_right _ hmem, fun entry hentry heq => ?_⟩
  rw [hdone, List.map_append, List.nodup_append] at hnodup
  exact hnodup.2.2 entry.2 (List.mem_map_of_mem hentry) pas[i] (List.mem_map_of_mem hmem) heq

section Stack

variable {L : Ledger} {range : Nat → Bool} {pid root : Nat} {s s' : Loading}
  {before : Nat → Nat → Nat → Prop} {filled : Nat → Nat → (Nat → Nat) → Prop}
  {done : List (Nat × Nat)} {stackPas : List Nat} {f : Nat → Nat} {cell : Nat × Nat}

/-- A write goes to the page at its address. -/
theorem storeStack_ok {r : Except ElfError Unit} (hat : StackAt done stackPas s)
    (h : s.Ok L before (Stacked done filled f) range pid)
    (hstore : storeStack stackPas s cell = some (r, s')) :
    StackAt done stackPas s' ∧ s'.Ok L before
      (Stacked done filled (if r = .ok () then update f cell.2 cell.1 else f)) range pid := by
  unfold storeStack at hstore
  split at hstore
  · cases hstore
  next hlow =>
  split at hstore
  · cases hstore
    rw [if_neg (by simp)]
    exact ⟨hat, h⟩
  next pa hpa =>
  cases hstore
  rw [if_pos rfl]
  obtain ⟨hmem, hnew⟩ := hat _ _ hpa
  refine ⟨hat, h.write hmem ⟨Nat.le_add_right _ _, ?_⟩ (fun {w} hw => ?_) fun {va' pa' w} hmem' hne hw => ?_⟩
  · have hmod := Nat.mod_lt cell.2 (show 0 < pageSize by decide)
    omega
  · rcases hw with ⟨hold, -⟩ | ⟨-, hpage, hw⟩
    · exact absurd rfl (hnew _ hold)
    · refine .inr ⟨hnew, hpage, fun off hoff => ?_⟩
      have haddr : pa + off = pa + cell.2 % pageSize ↔
          stackBottom + (cell.2 - stackBottom) / pageSize * pageSize + off = cell.2 := by
        have hbottom : stackBottom % 4096 = 0 := by decide
        simp only [pageSize] at hoff ⊢
        omega
      rw [update_apply, update_apply, hw off hoff]
      simp only [haddr]
  · rcases hw with hold | ⟨hnew', hpage, hw⟩
    · exact .inl hold
    · refine .inr ⟨hnew', hpage, fun off hoff => ?_⟩
      rw [update_of_ne, hw off hoff]
      -- The write goes to another page of the stack, which is at another address.
      intro heq
      obtain ⟨j, -, rfl⟩ := List.mem_map.mp hpage
      refine hne (congrArg vpn ?_)
      have hbottom : stackBottom % 4096 = 0 := by decide
      simp only [pageSize] at hoff heq ⊢
      omega

theorem stores_ok {cells : List (Nat × Nat)} {r : Except ElfError Unit}
    (hat : StackAt done stackPas s) (h : s.Ok L before (Stacked done filled f) range pid)
    (hloop : mapEach (storeStack stackPas) cells s = some (r, s')) :
    (∃ f', s'.Ok L before (Stacked done filled f') range pid) ∧
      (r = .ok () → StackAt done stackPas s' ∧
        s'.Ok L before (Stacked done filled (overlay cells f)) range pid) := by
  constructor
  · have hinv := mapEach_induction (P := fun s => StackAt done stackPas s ∧
      ∃ f, s.Ok L before (Stacked done filled f) range pid) ?_ ⟨hat, f, h⟩ hloop
    · exact hinv.2
    · rintro s x r s' - ⟨hat, f, h⟩ hstore
      obtain ⟨hat', h'⟩ := storeStack_ok hat h hstore
      exact ⟨hat', _, h'⟩
  · rintro rfl
    refine mapEach_foldl (R := fun f s => StackAt done stackPas s ∧
      s.Ok L before (Stacked done filled f) range pid) (fun hinv hstore => ?_) ⟨hat, h⟩ hloop
    exact storeStack_ok hinv.1 hinv.2 hstore

/-- Building the stack: in any case pages are only added to the list, and after success they hold
the arguments. -/
theorem buildUserStack_ok {args : List (List UInt8)} {r : Except ElfError (Nat × Nat)}
    (h : s.Ok L before filled range pid) (hroot : L.roots pid = some root)
    (hfixed : ∀ va ∈ stackPages, L.policy.fixed (vpn va) → L.policy.kernel (vpn va) ≠ 0)
    (hstack : buildUserStack root args s = some (r, s')) :
    (∃ filled', s'.Ok L before filled' range pid) ∧ ((∃ e, r = .error e) ∨
      s'.Ok L before (Stacked s.2 filled (overlay (stackCells args) fun _ => 0)) range pid) := by
  unfold buildUserStack at hstack
  dsimp only at hstack
  split at hstack
  · cases hstack
    exact ⟨⟨_, h⟩, .inl ⟨_, rfl⟩⟩
  split at hstack
  · cases hstack
    exact ⟨⟨_, h⟩, .inl ⟨_, rfl⟩⟩
  -- The pages of the stack are cleared when they are mapped.
  have hmap : ∀ {r s₁}, mapEach (mapStackPage root) stackPages s = some (r, s₁) →
      s₁.Ok L before (Stacked s.2 filled fun _ => 0) range pid := by
    intro r s₁ hloop
    have hinv := mapEach_induction (P := fun s₁ => (∃ more, s₁.2 = s.2 ++ more) ∧
      s₁.Ok L before (Stacked s.2 filled fun _ => 0) range pid) ?_
      ⟨⟨[], by simp⟩, h.mono fun hmem hw => .inl ⟨hmem, hw⟩⟩ hloop
    · exact hinv.2
    · rintro s₁ va r s₂ hva ⟨⟨more, hmore⟩, h₁⟩ hpage
      refine ⟨?_, h₁.mapItem false (p := stackItem va hva) hroot
        (show 0xC7 ||| pteU < 2 ^ ptePpnShift by decide) (hfixed va hva) (fun hne hzero => .inr ⟨fun entry hentry => ?_, hva, fun off hoff => ?_⟩) hpage⟩
      · rcases mapStackPage_done hpage with ⟨-, heq⟩ | ⟨pa, heq⟩
        · exact ⟨more, heq.trans hmore⟩
        · exact ⟨more ++ [(va, pa)], by rw [heq, hmore, List.append_assoc]⟩
      · exact hne entry (hmore ▸ List.mem_append_left _ hentry)
      · rw [hzero off hoff, PageItem.byte, if_neg (by simp [stackItem])]
  obtain ⟨e, hfail, rfl⟩ | ⟨_, s₁, hfirst, hrest⟩ := Outcome.andThen_eq_some hstack
  · exact ⟨⟨_, hmap hfail⟩, .inl ⟨e, rfl⟩⟩
  have h₁ := hmap hfirst
  have hat := stackAt_of_loop hfirst h₁.nodup
  obtain ⟨e, hfail, rfl⟩ | ⟨_, s₂, hstrings, hrest⟩ := Outcome.andThen_eq_some hrest
  · obtain ⟨⟨f', h'⟩, -⟩ := stores_ok hat h₁ hfail
    exact ⟨⟨_, h'⟩, .inl ⟨e, rfl⟩⟩
  obtain ⟨hat₂, h₂⟩ := (stores_ok hat h₁ hstrings).2 rfl
  split at hrest
  · cases hrest
    exact ⟨⟨_, h₂⟩, .inl ⟨_, rfl⟩⟩
  obtain ⟨e, hfail, rfl⟩ | ⟨_, s₃, hargv, hrest⟩ := Outcome.andThen_eq_some hrest
  · obtain ⟨⟨f', h'⟩, -⟩ := stores_ok hat₂ h₂ hfail
    exact ⟨⟨_, h'⟩, .inl ⟨e, rfl⟩⟩
  obtain ⟨-, h₃⟩ := (stores_ok hat₂ h₂ hargv).2 rfl
  cases hrest
  rw [overlay, overlay, ← List.foldl_append] at h₃
  exact ⟨⟨_, h₃⟩, .inr h₃⟩

end Stack

namespace State

variable {k k' : State} {V : View} {pid : Nat} {pol : Policy}

/-- A load keeps the discipline, and all that it maps in addition are pages of the process with the
contents that the file and the arguments give. -/
theorem load_good {info : ElfInfo} {args : List (List UInt8)} {r : Except ElfError LoadedElf}
    (hshows : Shows k.mem V) (hgood : (k.ledger pol).Good V)
    (hfixed : ∀ va ∈ info.pages, pol.fixed (vpn va) → pol.kernel (vpn va) ≠ 0)
    (hwords : ∀ p x v, ¬ k.Uses p → pol.allows p x v) (hstep : k.load pid info args = some (r, k')) :
    ∃ V', Shows k'.mem V' ∧ (k'.ledger pol).Good V' ∧ V'.inRange = V.inRange ∧
      ∀ {q va p}, (k'.ledger pol).Maps V' q va p → (k.ledger pol).Maps V q va p ∨
        (q = pid ∧ ∃ va', vpn va = vpn va' ∧ info.Filled args va' p (V'.word p)) := by
  unfold load at hstep
  rcases hroot : k.table.pidRoot pid with _ | root
  · rw [hroot] at hstep
    cases hstep
    exact ⟨V, hshows, hgood, rfl, .inl⟩
  simp only [hroot] at hstep
  obtain ⟨⟨r', m⟩, hload, ⟨⟩⟩ := Option.map_eq_some_iff.mp hstep
  let segFilled : Nat → Nat → (Nat → Nat) → Prop := fun va pa words =>
    ∃ seg ∈ info.segments, seg.Fills info.bytes va pa words
  have hstart : Loading.Ok (k.ledger pol) ((k.ledger pol).Maps V) segFilled V.inRange pid
      (k.mem, []) :=
    ⟨V, hshows, .nil hgood id, fun hunused => hwords _ _ _ fun hused =>
      hunused ((uses_iff hshows hgood).mp hused), rfl⟩
  have hsegments : ∀ {r s}, mapSegments root info.bytes info.segments (k.mem, []) = some (r, s) →
      s.Ok (k.ledger pol) ((k.ledger pol).Maps V) segFilled V.inRange pid := by
    intro r s hloop
    refine mapSegments_induction (fun {seg s va r s'} hseg hva h hpage => ?_) hstart hloop
    refine h.mapItem true (p := seg.item info.bytes va hva) hroot (Segment.segmentFlags_lt _)
      (hfixed va ?_) (fun _ hwords => ⟨seg, hseg, hva, fun off hoff => ?_⟩) hpage
    · exact List.mem_append_left _ (List.mem_flatMap.mpr ⟨seg, hseg, hva⟩)
    · rw [hwords off hoff]
      refine Segment.byte_item hva (info.inFile seg hseg) ?_
      have haligned := (Segment.mem_pages hva).1
      simp only [Segment.item, pageSize] at haligned hoff ⊢
      omega
  have hok : ∀ {r s}, ((mapSegments root info.bytes info.segments (k.mem, [])).andThen fun _ s =>
      buildUserStack root args s) = some (r, s) →
      (∃ filled, s.Ok (k.ledger pol) ((k.ledger pol).Maps V) filled V.inRange pid) ∧
      ((∃ e, r = .error e) ∨
        s.Ok (k.ledger pol) ((k.ledger pol).Maps V) (info.Filled args) V.inRange pid) := by
    intro r s hmapped
    obtain ⟨e, hfail, rfl⟩ | ⟨_, s₁, hfirst, hstack⟩ := Outcome.andThen_eq_some hmapped
    · exact ⟨⟨_, hsegments hfail⟩, .inl ⟨e, rfl⟩⟩
    · obtain ⟨hany, hdone⟩ := buildUserStack_ok (hsegments hfirst) hroot
        (fun va hva => hfixed va (List.mem_append_right _ hva)) hstack
      refine ⟨hany, hdone.imp_right fun h => h.mono fun _ hw => ?_⟩
      exact hw.imp And.right And.right
  unfold loadInto at hload
  dsimp only at hload
  split at hload
  · cases hload
  · next hmapped =>
    obtain ⟨hrollback, -⟩ := Outcome.failAfter_eq_some hload
    obtain ⟨⟨filled, h⟩, -⟩ := hok hmapped
    obtain ⟨V', hshows', hloads, hrange⟩ := h.rollback hroot hrollback
    refine ⟨V', hshows', hloads.good, hrange, fun hm => ?_⟩
    rcases hloads.old hm with hbefore | ⟨-, va', hmem, -⟩
    · exact .inl hbefore
    · simp at hmem
  · next hmapped =>
    cases hload
    obtain ⟨-, ⟨e, he⟩ | ⟨V', hshows', hloads, -, hrange⟩⟩ := hok hmapped
    · cases he
    refine ⟨V', hshows', hloads.good, hrange, fun hm => ?_⟩
    rcases hloads.old hm with hbefore | ⟨hpid, va', hmem, hva⟩
    · exact .inl hbefore
    · exact .inr ⟨hpid, va', hva, hloads.words hmem⟩

end State

end Ignium.Kernel
