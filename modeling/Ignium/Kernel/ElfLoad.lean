import Ignium.Kernel.ElfFormat
import Ignium.Kernel.UserStack

/-!
# Loading a file

`elf::load` as a whole, for every file, every list of arguments and every root: what the address space
holds after a load that succeeds (`Image`), and what is left of one that fails (`LoadClean`). The loops
of the loader are described in `Ignium.Kernel.Image` and the stack in `Ignium.Kernel.UserStack`; here
the pages of the segments are brought into that form (`Segment.items`).
-/

namespace Ignium.Kernel

open Mem Mmu
open Usage (InPage HasFree)
open Spaces (TableAt)

/-- Parse a file and load it into a process. -/
def State.elfLoad (k : State) (pid : Nat) (bytes : List UInt8) (args : List (List UInt8)) :
    Outcome State ElfError LoadedElf :=
  match parse bytes with
  | none => none
  | some (.error e) => some (.error e, k)
  | some (.ok info) => k.load pid info args

/-! ## The pages of the segments -/

namespace Segment

variable {seg : Segment} {va x : Nat} {bytes : List UInt8}

/-- An address lies in the pages of a segment. -/
def Covers (seg : Segment) (x : Nat) : Prop :=
  alignDown seg.vaddr pageSize ≤ x ∧ x < alignUp (seg.vaddr + seg.memsz) pageSize

instance (seg : Segment) (x : Nat) : Decidable (seg.Covers x) := inferInstanceAs (Decidable (_ ∧ _))

theorem covers_iff : seg.Covers x ↔ x / pageSize * pageSize ∈ seg.pages :=
  (page_mem_addresses (by decide) (Nat.mul_mod_left _ _) (Nat.mul_mod_left _ _)).symm

/-- The pages of a segment. -/
def items (bytes : List UInt8) (seg : Segment) : List PageItem :=
  seg.pages.pmap (seg.item bytes) fun _ hva => hva

theorem items_va (bytes : List UInt8) (seg : Segment) :
    (items bytes seg).map PageItem.va = seg.pages := by
  rw [items, List.map_pmap]
  exact (List.pmap_eq_map (f := id) _).trans (List.map_id _)

end Segment

/-- The pages of all segments. -/
def ElfInfo.items (info : ElfInfo) : List PageItem := info.segments.flatMap (Segment.items info.bytes)

/-- Their addresses. -/
def ElfInfo.segmentPages (info : ElfInfo) : List Nat := info.segments.flatMap Segment.pages

theorem ElfInfo.items_va (info : ElfInfo) : info.items.map PageItem.va = info.segmentPages := by
  rw [items, segmentPages, List.map_flatMap]
  simp only [Segment.items_va]

/-- The loops over segments and pages are one loop. -/
theorem mapSegments_eq (root : Nat) (bytes : List UInt8) (segs : List Segment) (s : Loading) :
    mapSegments root bytes segs s =
      mapEach (mapItem root true) (segs.flatMap (Segment.items bytes)) s := by
  induction segs generalizing s with
  | nil => rfl
  | cons seg segs ih =>
    have hfirst : ∀ s, mapSegment root bytes s seg =
        mapEach (mapItem root true) (Segment.items bytes seg) s := fun s =>
      (mapEach_pmap (f := seg.item bytes) (fun _ _ _ => rfl) (fun _ hva => hva) s).symm
    rw [List.flatMap_cons, mapEach_append, mapSegments, hfirst]
    congr 1
    funext _ s'
    exact ih s'

/-! ## A load -/

theorem allUnmapped_snoc {m : Usage} {root va : Nat} {vas : List Nat} :
    AllUnmapped m root (vas ++ [va]) ↔
      AllUnmapped m root vas ∧ leafAt m root va = none ∧ va ∉ vas := by
  induction vas with
  | nil => simp [AllUnmapped]
  | cons first vas ih =>
    rw [List.cons_append, allUnmapped_cons, allUnmapped_cons, ih, List.mem_append,
      List.mem_singleton, List.mem_cons]
    tauto

theorem tablesFor_snoc (vas : List Nat) (va : Nat) :
    tablesFor (vas ++ [va]) = tablesFor vas ∪ tablesAt va := by
  induction vas with
  | nil => simp [tablesFor]
  | cons first vas ih => rw [List.cons_append, tablesFor, ih, tablesFor, Finset.union_assoc]

namespace Loaded

variable {m₀ : Usage} {root total va : Nat} {paths : Finset (List Nat)} {entries : List Entry}
  {extra : List Nat} {content : Nat → Nat} {s : Loading} {before : List (Nat × Nat)}

/-- What is unmapped now was so before and has not been mapped since. -/
theorem leafAt_eq_none (h : Loaded m₀ before root total paths entries extra content s)
    (hva : va % pageSize = 0 ∧ va < userVaLimit) :
    leafAt s.1 root va = none ↔ leafAt m₀ root va = none ∧ va ∉ entries.map Entry.va := by
  by_cases hmem : va ∈ entries.map Entry.va
  · obtain ⟨e, he, rfl⟩ := List.mem_map.mp hmem
    rw [h.mapped e he]
    exact iff_of_false nofun fun hand => hand.2 hmem
  · rw [h.others va fun e he heq => hmem ?_, and_iff_left hmem]
    rw [(vpn_eq_iff_of_aligned hva (h.aligned e he)).mp heq]
    exact List.mem_map_of_mem he

end Loaded

/-- A page for the stack is lost in a load: all segments are mapped, and there is a page for the stack
but not for the tables that it needs. -/
def LoadLoses (m : Usage) (root total : Nat) (paths : Finset (List Nat)) (info : ElfInfo)
    (args : List (List UInt8)) : Prop :=
  ArgsFit args ∧ AllUnmapped m root (info.segmentPages ++ [stackBottom]) ∧
    (paths ∪ tablesFor info.segmentPages).card + info.segmentPages.length < total ∧
    total ≤ (paths ∪ tablesFor (info.segmentPages ++ [stackBottom])).card + info.segmentPages.length

/-- A load maps the pages of the segments and of the stack, or it unmaps all of them and holds no page
but tables, and one that is lost. -/
theorem loadInto_cases {m : Usage} {root total : Nat} {paths : Finset (List Nat)}
    (h : Shaped m root total paths (leafAt m root)) (info : ElfInfo) (args : List (List UInt8)) :
    (∃ segs stack t total' paths' done,
      loadInto m root info args =
        some (.ok ⟨info.entry, spFinal args, args.length, argvArray args⟩, t) ∧
      ¬ LoadLoses m root total paths info args ∧ ArgsFit args ∧ stackBottom + 16 ≤ argvArray args ∧
      segs.map (fun e => (e.va, e.flags)) = info.items.map (fun p => (p.va, p.flags)) ∧
      stack.map (fun e => (e.va, e.flags)) = stackPages.map (·, 0xC7) ∧
      Loaded m [] root total' paths' (segs ++ stack) []
        (overlay (stackCells args) (stackItems.foldl place (info.items.foldl place fun _ => 0)))
        (t, done)) ∨
    ∃ e t total' paths' extra content', loadInto m root info args = some (.error e, t) ∧
      (extra ≠ [] ↔ LoadLoses m root total paths info args) ∧
      Loaded m [] root total' paths' [] extra content' (t, []) := by
  have hstart : Loaded m [] root total paths [] [] (fun _ => 0) (m, []) := .start h _
  have hsafe : true = true ∨ ∀ p ∈ info.items, tablesAt p.va ⊆ paths := .inl rfl
  have hsegments := hstart.mapItems hsafe
  have hlength : info.items.length = info.segmentPages.length := by
    rw [← info.items_va, List.length_map]
  have hloop : mapEach (mapItem root true) info.items (m, []) =
      mapSegments root info.bytes info.segments (m, []) := (mapSegments_eq _ _ _ _).symm
  rw [info.items_va, hlength, hloop] at hsegments
  unfold loadInto
  dsimp only
  split at hsegments
  next hall =>
    obtain ⟨segs, s₁, hmaps, hsegs, h₁⟩ := hsegments
    rw [hmaps, Outcome.andThen_ok]
    have hvas : segs.map Entry.va = info.segmentPages := (map_va_eq hsegs).trans info.items_va
    -- What the stack finds is what the condition on the start says.
    have hlost : ArgsFit args ∧ Loaded.StackLost s₁.1 root (total - info.segmentPages.length)
        (paths ∪ tablesFor info.segmentPages) ↔ LoadLoses m root total paths info args := by
      rw [LoadLoses, Loaded.StackLost, h₁.leafAt_eq_none stackBottom_page, List.nil_append,
        hvas, allUnmapped_snoc, tablesFor_snoc, Finset.union_assoc]
      have hle := hall.2
      constructor
      · rintro ⟨hfit, ⟨hnone, hnot⟩, hroom, hshort⟩
        exact ⟨hfit, ⟨hall.1, hnone, hnot⟩, by omega, by omega⟩
      · rintro ⟨hfit, ⟨-, hnone, hnot⟩, hroom, hshort⟩
        exact ⟨hfit, ⟨hnone, hnot⟩, by omega, by omega⟩
    obtain ⟨stack, s₂, total', paths', hok, hnot, hfit, hargv, hstack, h₂⟩ |
      ⟨e, s₂, total', paths', entries', extra, content', herror, hextra, h₂⟩ :=
      h₁.buildUserStack args
    · rw [hok]
      exact .inl ⟨segs, stack, s₂.1, total', paths', s₂.2, rfl, fun hloses => hnot (hlost.mpr hloses).2,
        hfit, hargv, hsegs, hstack, h₂⟩
    · obtain ⟨t, total'', hrollback, h₃⟩ := h₂.rollback
      rw [herror]
      refine .inr ⟨e, t, total'', paths', extra, content', ?_, hextra.trans hlost, h₃⟩
      change Outcome.failAfter (rollback root s₂) e = _
      rw [hrollback]
      rfl
  next hnot =>
    obtain ⟨e, s₁, total', paths', entries', content', herror, h₁⟩ := hsegments
    obtain ⟨t, total'', hrollback, h₂⟩ := h₁.rollback
    rw [herror]
    refine .inr ⟨e, t, total'', paths', [], content', ?_, iff_of_false (fun hne => hne rfl) ?_, h₂⟩
    · change Outcome.failAfter (rollback root s₁) e = _
      rw [hrollback]
      rfl
    · rintro ⟨-, hvacant, hroom, -⟩
      exact hnot ⟨(allUnmapped_snoc.mp hvacant).1, by omega⟩

/-! ## After a load that succeeds -/

/-- The pages of a program: those of the segments and those of the stack. -/
def ElfInfo.Covers (info : ElfInfo) (x : Nat) : Prop :=
  (∃ seg ∈ info.segments, seg.Covers x) ∨ (stackBottom ≤ x ∧ x < userStackTop)

/-- The root maps a program in addition to what it mapped before. `page` gives the physical page of
every virtual page of the program. -/
structure ImageMapped (m m' : Usage) (root : Nat) (info : ElfInfo) (page : Nat → Nat) : Prop where
  segment : ∀ seg ∈ info.segments, ∀ v, seg.Covers v →
    translate m' root v =
      some (page (v / pageSize) + v % pageSize, segmentFlags seg.flags ||| pteU) ∧
      m'.read (page (v / pageSize) + v % pageSize) = seg.byteAt info.bytes v
  stack : ∀ v, stackBottom ≤ v → v < userStackTop →
    translate m' root v = some (page (v / pageSize) + v % pageSize, 0xC7 ||| pteU)
  fresh : ∀ v, info.Covers v → ¬ m.Taken (page (v / pageSize)) ∧ m'.HasPage (page (v / pageSize))
  distinct : ∀ v v', info.Covers v → info.Covers v' → page (v / pageSize) = page (v' / pageSize) →
    v / pageSize = v' / pageSize
  new : ∀ v, info.Covers v → translate m root v = none
  only : ∀ x < 2 ^ 39, ¬ info.Covers x → translate m' root x = translate m root x
  unchanged : ∀ x y, translate m root x = some y → translate m' root x = some y

/-- The physical page of a virtual page. -/
def pageOf (entries : List Entry) (n : Nat) : Nat :=
  ((entries.find? fun e => e.va = n * pageSize).map Entry.pa).getD 0

theorem pageOf_eq {entries : List Entry} {e : Entry} (hnodup : (entries.map Entry.va).Nodup)
    (he : e ∈ entries) {n : Nat} (hn : e.va = n * pageSize) : pageOf entries n = e.pa := by
  obtain ⟨e', hfind⟩ : ∃ e', (entries.find? fun e => e.va = n * pageSize) = some e' := by
    rw [← Option.isSome_iff_exists, List.find?_isSome]
    exact ⟨e, he, by simpa using hn⟩
  have hva : e'.va = n * pageSize := by simpa using List.find?_some hfind
  have hsame := List.inj_on_of_nodup_map hnodup (List.mem_of_find?_eq_some hfind) he (hva.trans hn.symm)
  rw [pageOf, hfind, hsame]
  rfl

namespace Loaded

variable {m₀ : Usage} {root total : Nat} {paths : Finset (List Nat)} {entries : List Entry}
  {extra : List Nat} {content : Nat → Nat} {s : Loading} {before : List (Nat × Nat)} {e : Entry}
  {x : Nat} (h : Loaded m₀ before root total paths entries extra content s)

include h

/-- The entry of an address. -/
theorem exists_entry (hx : x / pageSize * pageSize ∈ entries.map Entry.va) :
    ∃ e ∈ entries, e.va + x % pageSize = x ∧ pageOf entries (x / pageSize) = e.pa := by
  obtain ⟨e, he, hva⟩ := List.mem_map.mp hx
  refine ⟨e, he, ?_, pageOf_eq h.nodup he hva⟩
  rw [hva]
  exact Nat.div_add_mod' x pageSize

theorem vpn_eq (he : e ∈ entries) (hx : e.va + x % pageSize = x) : vpn x = vpn e.va := by
  obtain ⟨haligned, hbound⟩ := h.aligned e he
  have hlimit : userVaLimit = 2 ^ 38 := by decide
  have hpage : pageSize = 4096 := rfl
  rw [hlimit] at hbound
  rw [hpage] at haligned hx
  rw [vpn_eq_page (by omega) (by omega) haligned]
  omega

/-- What the hardware finds at an address of an entry. -/
theorem at_page (he : e ∈ entries) (hva : e.va = x / pageSize * pageSize)
    (hflags : pteFlags (e.flags ||| pteU) = e.flags ||| pteU) :
    Mmu.translate s.1 root x =
      some (pageOf entries (x / pageSize) + x % pageSize, e.flags ||| pteU) ∧
      s.1.read (pageOf entries (x / pageSize) + x % pageSize) = content x := by
  have hoff : x % pageSize < pageSize := Nat.mod_lt _ (by decide)
  have hsum : e.va + x % pageSize = x := by
    rw [hva]
    exact Nat.div_add_mod' x pageSize
  have htranslate := h.translate he hflags hoff
  have hword := h.words e he _ hoff
  rw [hsum] at htranslate hword
  rw [pageOf_eq h.nodup he hva]
  exact ⟨htranslate, hword⟩

end Loaded

theorem ElfInfo.mem_segmentPages {info : ElfInfo} {x : Nat} :
    x / pageSize * pageSize ∈ info.segmentPages ↔ ∃ seg ∈ info.segments, seg.Covers x := by
  simp only [segmentPages, List.mem_flatMap, Segment.covers_iff]

theorem ElfInfo.mem_items {info : ElfInfo} {seg : Segment} (hseg : seg ∈ info.segments) {va : Nat}
    (hva : va ∈ seg.pages) : seg.item info.bytes va hva ∈ info.items :=
  List.mem_flatMap.mpr ⟨seg, hseg, List.mem_pmap.mpr ⟨va, hva, rfl⟩⟩

/-- The state at the end of a load is the image of the program. -/
theorem Loaded.imageMapped {m t : Usage} {root total : Nat} {paths : Finset (List Nat)}
    {info : ElfInfo} {args : List (List UInt8)} {segs stack : List Entry} {done : List (Nat × Nat)}
    (hfit : ArgsFit args) (hargv : stackBottom + 16 ≤ argvArray args)
    (hsegs : segs.map (fun e => (e.va, e.flags)) = info.items.map fun p => (p.va, p.flags))
    (hstack : stack.map (fun e => (e.va, e.flags)) = stackPages.map (·, 0xC7))
    (h : Loaded m [] root total paths (segs ++ stack) []
      (overlay (stackCells args) (stackItems.foldl place (info.items.foldl place fun _ => 0)))
      (t, done)) : ImageMapped m t root info (pageOf (segs ++ stack)) := by
  have hvas : segs.map Entry.va = info.segmentPages := (map_va_eq hsegs).trans info.items_va
  have hstackVas := map_va_stack hstack
  have hapart : ∀ {va}, va ∈ info.segmentPages → va ∉ stackPages := by
    intro va hseg hst
    have hnodup := h.nodup
    rw [List.map_append, hvas, hstackVas, List.nodup_append] at hnodup
    exact hnodup.2.2 va hseg va hst rfl
  have hcovers : ∀ x, info.Covers x ↔ x / pageSize * pageSize ∈ (segs ++ stack).map Entry.va :=
    fun x => by
      rw [List.map_append, hvas, hstackVas, List.mem_append, info.mem_segmentPages, mem_stackPages_iff]
      rfl
  have hentry : ∀ {x}, info.Covers x → ∃ e ∈ segs ++ stack, e.va + x % pageSize = x ∧
      pageOf (segs ++ stack) (x / pageSize) = e.pa := fun hx => h.exists_entry ((hcovers _).mp hx)
  constructor
  · intro seg hseg v hv
    have hva : v / pageSize * pageSize ∈ seg.pages := seg.covers_iff.mp hv
    have hitem := info.mem_items hseg hva
    have hmem : (v / pageSize * pageSize, segmentFlags seg.flags) ∈
        segs.map fun e => (e.va, e.flags) := by
      rw [hsegs]
      exact List.mem_map_of_mem hitem
    obtain ⟨e, he, heq⟩ := List.mem_map.mp hmem
    obtain ⟨hva', hflags⟩ := Prod.mk.inj heq
    have he' := List.mem_append_left stack he
    obtain ⟨htranslate, hword⟩ := h.at_page he' hva' (by rw [hflags]; exact (Segment.valid_segmentFlags _).2)
    rw [hflags] at htranslate
    refine ⟨htranslate, hword.trans ?_⟩
    have hpages : v / pageSize * pageSize ∈ info.segmentPages := List.mem_flatMap.mpr ⟨seg, hseg, hva⟩
    have hitems : (info.items.map PageItem.va).Nodup := by
      have hnodup := h.nodup
      rw [List.map_append, List.nodup_append, hvas, ← info.items_va] at hnodup
      exact hnodup.1
    -- Neither the cells of the stack nor its pages are in the segment.
    rw [overlay_of_notMem, foldl_place_of_notMem, foldl_place_of_mem _ hitems hitem rfl,
      Segment.byte_item hva (info.inFile seg hseg) rfl]
    · rw [stackItems_va']
      exact hapart hpages
    · intro hmem
      obtain ⟨cell, hcell, rfl⟩ := List.mem_map.mp hmem
      exact hapart hpages (mem_stackPages_iff.mpr (stackCells_inside hfit hargv hcell))
  · intro v hlow hhigh
    have hmem : (v / pageSize * pageSize, 0xC7) ∈ stack.map fun e => (e.va, e.flags) := by
      rw [hstack]
      exact List.mem_map_of_mem (mem_stackPages_iff.mpr ⟨hlow, hhigh⟩)
    obtain ⟨e, he, heq⟩ := List.mem_map.mp hmem
    obtain ⟨hva, hflags⟩ := Prod.mk.inj heq
    have htranslate := (h.at_page (List.mem_append_right segs he) hva (by rw [hflags]; decide)).1
    rw [hflags] at htranslate
    exact htranslate
  · intro v hv
    obtain ⟨e, he, -, hpage⟩ := hentry hv
    rw [hpage]
    exact ⟨h.grown.fresh _ (mem_owned he), h.grown.held _ (mem_owned he)⟩
  · intro v v' hv hv' hsame
    obtain ⟨e, he, hsum, hpage⟩ := hentry hv
    obtain ⟨e', he', hsum', hpage'⟩ := hentry hv'
    rw [hpage, hpage'] at hsame
    have hnodup := (List.nodup_append.mp h.grown.nodup).1
    obtain rfl := List.inj_on_of_nodup_map hnodup he he' hsame
    have haligned := (h.aligned e he).1
    have hsize : pageSize = 4096 := rfl
    rw [hsize] at haligned hsum hsum' ⊢
    omega
  · intro v hv
    obtain ⟨e, he, hsum, -⟩ := hentry hv
    rw [Mmu.translate, leafAt_of_vpn (h.vpn_eq he hsum), h.unmapped e he]
    rfl
  · intro x hx hnot
    refine translate_congr (h.others x fun e he heq => hnot ?_)
    obtain ⟨haligned, hbound⟩ := h.aligned e he
    have hlimit : userVaLimit = 2 ^ 38 := by decide
    rw [hlimit] at hbound
    rw [hcovers]
    have hpage : x / pageSize * pageSize = e.va := (vpn_eq_page hx (by omega) haligned).mp heq
    rw [hpage]
    exact List.mem_map_of_mem he
  · intro x y hx
    rw [← hx]
    refine translate_congr (h.others x fun e he heq => ?_)
    rw [Mmu.translate, leafAt_of_vpn heq, h.unmapped e he] at hx
    cases hx

/-- The segments are read from the file that is parsed. -/
theorem parse_bytes {bytes : List UInt8} {info : ElfInfo} (h : parse bytes = some (.ok info)) :
    info.bytes = bytes := by
  obtain ⟨hdr, -, hrest⟩ := Parsed.andThen_eq_ok.mp h
  obtain ⟨segs, -, hlast⟩ := Parsed.andThen_eq_ok.mp hrest
  dsimp only at hlast
  split at hlast
  · cases hlast
  · cases hlast
  · cases hlast
    rfl

theorem State.elfLoad_eq {k : State} {pid root : Nat} {bytes : List UInt8} {info : ElfInfo}
    (hparse : parse bytes = some (.ok info)) (hroot : k.table.pidRoot pid = some root)
    (args : List (List UInt8)) : k.elfLoad pid bytes args =
      (loadInto k.mem root info args).map fun r => (r.1, k.withMem r.2) := by
  simp only [elfLoad, hparse, load, hroot]

/-- The pages that are mapped after a load that succeeds. -/
theorem State.loaded_of_elfLoad {k k' : State} {pid root : Nat} {bytes : List UInt8}
    {args : List (List UInt8)} {loaded : LoadedElf} (hroot : k.table.pidRoot pid = some root)
    (htree : Tree k.mem root) (hload : k.elfLoad pid bytes args = some (.ok loaded, k')) :
    ∃ info segs stack total paths done, parse bytes = some (.ok info) ∧ ArgsFit args ∧
      stackBottom + 16 ≤ argvArray args ∧
      segs.map (fun e => (e.va, e.flags)) = info.items.map (fun p => (p.va, p.flags)) ∧
      stack.map (fun e => (e.va, e.flags)) = stackPages.map (·, 0xC7) ∧
      Loaded k.mem [] root total paths (segs ++ stack) []
        (overlay (stackCells args) (stackItems.foldl place (info.items.foldl place fun _ => 0)))
        (k'.mem, done) := by
  rcases hparse : parse bytes with _ | e | info
  · rw [elfLoad, hparse] at hload
    cases hload
  · rw [elfLoad, hparse] at hload
    cases hload
  rw [elfLoad_eq hparse hroot] at hload
  obtain ⟨total, paths, hshaped⟩ := htree.exists_shaped
  obtain ⟨segs, stack, t, total', paths', done, hok, -, hrest⟩ |
    ⟨e, t, total', paths', extra, content', herror, -, -⟩ := loadInto_cases hshaped info args
  · rw [hok] at hload
    cases hload
    exact ⟨info, segs, stack, total', paths', done, rfl, hrest⟩
  · rw [herror] at hload
    cases hload

/-- The root of the first process is a tree. -/
theorem State.tree_of_create {base count q pid root : Nat} (hregion : Region base count)
    {ram : Nat → Nat} {reserved : List (Nat × Nat)} {b : Board} {k : State}
    (hcreate : (boot (Usage.start ram base count reserved)).create b = some (.ok pid, k))
    (hroot : k.table.pidRoot q = some root) : Tree k.mem root := by
  have hstart : Spaces.Sound (Spaces.start (Usage.start ram base count reserved)) :=
    ⟨_, _, hregion.sees _ _, fun r => by simp [View.bare, Spaces.start]⟩
  unfold create at hcreate
  split at hcreate
  · cases hcreate
  next hlive =>
  split at hcreate
  · cases hcreate
  · cases hcreate
  next root' m hmade =>
    cases hcreate
    have hcall : (Spaces.start (Usage.start ram base count reserved)).call b .create =
        some (.ok (), ⟨m, [root']⟩) := by
      have hmade' : createUserRoot b (Usage.start ram base count reserved) = some (.ok root', m) :=
        hmade
      simp only [Spaces.call, Spaces.start, hmade']
    have htree := (hstart.call (show Spaces.Admits _ .create from trivial) hcall).2.tree (.head _)
    have henter : ProcessTable.Enters ⟨[], []⟩ (ProcessTable.enter ⟨[], []⟩ root').2
        (ProcessTable.enter ⟨[], []⟩ root').1 root' :=
      (sound_boot (Usage.start ram base count reserved)).table.enter (Nat.lt_of_not_ge hlive)
    have hroots := (henter.roots q).symm.trans hroot
    split at hroots
    · cases hroots
      exact htree
    · cases hroots

/-- After a load that succeeds, the root maps the segments of the file and the stack, each page to a
page of its own with the bytes of the file, and all other addresses as before. -/
theorem elfLoad_imageMapped {k k' : State} {pid root : Nat} {bytes : List UInt8}
    {args : List (List UInt8)} {loaded : LoadedElf} (hroot : k.table.pidRoot pid = some root)
    (htree : Tree k.mem root) (hload : k.elfLoad pid bytes args = some (.ok loaded, k')) :
    ∃ info page, parse bytes = some (.ok info) ∧ info.bytes = bytes ∧
      ImageMapped k.mem k'.mem root info page := by
  obtain ⟨info, segs, stack, total, paths, done, hparse, hfit, hargv, hsegs, hstack, h⟩ :=
    State.loaded_of_elfLoad hroot htree hload
  exact ⟨info, _, hparse, parse_bytes hparse, h.imageMapped hfit hargv hsegs hstack⟩

set_option maxRecDepth 100000 in
/-- A program of one page with one argument in the first process of the small board. -/
theorem elfLoad_imageMapped_small : ∃ (k k' : State) (loaded : LoadedElf) (info : ElfInfo)
    (page : Nat → Nat),
    k.elfLoad 0 (sampleHeader 1 1 ++ sampleLoad 0x10000 4096) [[104]] = some (.ok loaded, k') ∧
      ImageMapped k.mem k'.mem 0x80300000 info page := by
  obtain ⟨k, hexpect, heval⟩ : ∃ k, ((boot smallMem).create smallBoard).expect = some k ∧
      decide (k.table.pidRoot 0 = some 0x80300000 ∧
        (k.elfLoad 0 (sampleHeader 1 1 ++ sampleLoad 0x10000 4096) [[104]]).expect.isSome) = true :=
    Option.map_eq_some_iff.mp (by decide +kernel)
  obtain ⟨hroot, hok⟩ := of_decide_eq_true heval
  obtain ⟨pid, hcreate⟩ := Outcome.expect_eq_some hexpect
  obtain ⟨k', hexpect'⟩ := Option.isSome_iff_exists.mp hok
  obtain ⟨loaded, hload⟩ := Outcome.expect_eq_some hexpect'
  have htree := State.tree_of_create ⟨by decide, by decide, by decide⟩ hcreate hroot
  obtain ⟨info, page, -, -, hmapped⟩ := elfLoad_imageMapped hroot htree hload
  exact ⟨k, k', loaded, info, page, hload, hmapped⟩

/-! ## After a load that fails -/

/-- Nothing is left of a load but tables: all translations are as before, pages that were held still
are, and a page that is held in addition is a table of the root. -/
def LoadClean (m m' : Usage) (root : Nat) : Prop :=
  (∀ x, translate m' root x = translate m root x) ∧ (∀ q, m.Taken q → m'.Taken q) ∧
    ∀ q, m'.Taken q → m.Taken q ∨ IsTable m' root q

/-- The number of pages that mapping addresses takes: one for each, and one for each table that is not
there. -/
def pagesNeeded (paths : Finset (List Nat)) (vas : List Nat) : Nat :=
  (tablesFor vas \ paths).card + vas.length

/-- Memory ends at the first page of the stack: there are pages for the segments and for this page, but
not for the tables that it needs. -/
def StackPageLost (m : Usage) (root : Nat) (paths : Finset (List Nat)) (free : Nat)
    (bytes : List UInt8) (args : List (List UInt8)) : Prop :=
  ∃ info, parse bytes = some (.ok info) ∧ ArgsFit args ∧
    AllUnmapped m root (info.segmentPages ++ [stackBottom]) ∧
    pagesNeeded paths info.segmentPages < free ∧
    free < pagesNeeded paths (info.segmentPages ++ [stackBottom])

theorem loadLoses_iff {m : Usage} {root free : Nat} {paths : Finset (List Nat)} {info : ElfInfo}
    {args : List (List UInt8)} :
    LoadLoses m root (free + paths.card) paths info args ↔ ArgsFit args ∧
      AllUnmapped m root (info.segmentPages ++ [stackBottom]) ∧
      pagesNeeded paths info.segmentPages < free ∧
      free < pagesNeeded paths (info.segmentPages ++ [stackBottom]) := by
  have hcard : ∀ vas, (paths ∪ tablesFor vas).card = (tablesFor vas \ paths).card + paths.card :=
    fun vas => by rw [Finset.union_comm, Finset.card_sdiff_add_card]
  rw [LoadLoses, hcard, hcard, pagesNeeded, pagesNeeded, List.length_append, List.length_singleton]
  refine and_congr_right fun _ => and_congr_right fun _ => ?_
  omega

/-- A load that fails leaves pages behind exactly when it holds one that is no table. -/
theorem Loaded.loadClean_iff {m t : Usage} {root total : Nat} {paths : Finset (List Nat)}
    {extra : List Nat} {content : Nat → Nat}
    (h : Loaded m [] root total paths [] extra content (t, [])) : LoadClean m t root ↔ extra = [] := by
  constructor
  · rintro ⟨-, -, hpages⟩
    refine List.eq_nil_iff_forall_not_mem.mpr fun q hq => ?_
    have hdata := h.grown.data (q := q) hq
    rcases hpages q hdata.1 with hold | htable
    · exact h.grown.fresh q hq hold
    · exact hdata.2 htable
  · rintro rfl
    refine ⟨fun x => translate_congr (h.others x nofun), fun q hq => ?_, fun q hq => ?_⟩
    · by_cases htable : IsTable m root q
      · obtain ⟨path, htable⟩ := htable
        exact h.shaped.tree.held rfl (h.grown.tables htable)
      · exact ((h.grown.pages q).mpr (.inl ⟨hq, htable⟩)).1
    · by_cases htable : IsTable t root q
      · exact .inr htable
      · rcases (h.grown.pages q).mp ⟨hq, htable⟩ with hold | hnew
        · exact .inl hold.1
        · cases hnew

/-- What a load that fails leaves behind. -/
theorem loadInto_clean_iff {m : Usage} {root free : Nat} {paths : Finset (List Nat)}
    (h : Shaped m root (free + paths.card) paths (leafAt m root)) (info : ElfInfo)
    (args : List (List UInt8)) :
    (∀ e t, loadInto m root info args = some (.error e, t) → LoadClean m t root) ↔
      ¬ LoadLoses m root (free + paths.card) paths info args := by
  obtain ⟨segs, stack, t, total', paths', done, hok, hnot, -⟩ |
    ⟨e, t, total', paths', extra, content', herror, hextra, hloaded⟩ := loadInto_cases h info args
  · rw [hok]
    exact iff_of_true nofun hnot
  · rw [herror, ← hextra, not_not, ← hloaded.loadClean_iff]
    constructor
    · exact fun hclean => hclean e t rfl
    · rintro hclean e' t' heq
      cases heq
      exact hclean

/-- The page below the stack. -/
def userGuard : Nat := stackBottom - pageSize

/-- The page is unmapped when its first address is. -/
theorem guard_unmapped_iff {m : Usage} {root : Nat} :
    (∀ x, userGuard ≤ x → x < stackBottom → isMapped m root x = false) ↔
      leafAt m root userGuard = none := by
  have hguard : userGuard = 274877804544 := by decide
  have hleaf : ∀ x, isMapped m root x = false ↔ leafAt m root x = none := fun x => by
    rw [Bool.eq_false_iff, Ne, Loaded.isMapped_iff, not_not]
  simp only [hleaf]
  refine ⟨fun h => h userGuard (Nat.le_refl _) (by decide), fun h x hlow hhigh => ?_⟩
  rw [stackBottom_eq] at hhigh
  rw [hguard] at hlow
  rw [leafAt_of_vpn (y := userGuard), h]
  rw [vpn_eq_page (by omega) (by decide) (by decide), hguard]
  omega

/-- The page below the stack is unmapped after a load exactly when it was unmapped before and belongs
to no segment. -/
theorem elfLoad_guard_iff {k k' : State} {pid root : Nat} {bytes : List UInt8}
    {args : List (List UInt8)} {loaded : LoadedElf} (hroot : k.table.pidRoot pid = some root)
    (htree : Tree k.mem root) (hload : k.elfLoad pid bytes args = some (.ok loaded, k')) :
    (∀ x, userGuard ≤ x → x < stackBottom → isMapped k'.mem root x = false) ↔
      (∀ x, userGuard ≤ x → x < stackBottom → isMapped k.mem root x = false) ∧
        ∀ info, parse bytes = some (.ok info) → ∀ seg ∈ info.segments, ¬ seg.Covers userGuard := by
  obtain ⟨info, segs, stack, total, paths, done, hparse, -, -, hsegs, hstack, h⟩ :=
    State.loaded_of_elfLoad hroot htree hload
  have hvas : segs.map Entry.va = info.segmentPages := (map_va_eq hsegs).trans info.items_va
  have hstackVas := map_va_stack hstack
  have hguard : userGuard / pageSize * pageSize = userGuard := by decide
  have hoff : userGuard ∉ stackPages := by decide
  have hmem : userGuard ∉ (segs ++ stack).map Entry.va ↔ ∀ seg ∈ info.segments, ¬ seg.Covers userGuard := by
    rw [List.map_append, hvas, hstackVas, List.mem_append, or_iff_left hoff]
    nth_rewrite 1 [← hguard]
    rw [info.mem_segmentPages]
    simp only [not_exists, not_and]
  rw [guard_unmapped_iff, guard_unmapped_iff, h.leafAt_eq_none ⟨by decide, by decide⟩, hmem, hparse]
  refine and_congr_right fun _ => ⟨fun hall info' heq => ?_, fun hall => hall info rfl⟩
  cases heq
  exact hall

set_option maxRecDepth 100000 in
/-- A program of one page at the low end of the addresses. -/
theorem elfLoad_guard_small : ∃ (k k' : State) (loaded : LoadedElf),
    k.elfLoad 0 (sampleHeader 1 1 ++ sampleLoad 0x10000 4096) [] = some (.ok loaded, k') ∧
      ∀ x, userGuard ≤ x → x < stackBottom → isMapped k'.mem 0x80300000 x = false := by
  obtain ⟨k, hexpect, heval⟩ : ∃ k, ((boot smallMem).create smallBoard).expect = some k ∧
      decide (k.table.pidRoot 0 = some 0x80300000 ∧ leafAt k.mem 0x80300000 userGuard = none ∧
        (k.elfLoad 0 (sampleHeader 1 1 ++ sampleLoad 0x10000 4096) []).expect.isSome) = true :=
    Option.map_eq_some_iff.mp (by decide +kernel)
  obtain ⟨hroot, hnone, hok⟩ := of_decide_eq_true heval
  obtain ⟨pid, hcreate⟩ := Outcome.expect_eq_some hexpect
  obtain ⟨k', hexpect'⟩ := Option.isSome_iff_exists.mp hok
  obtain ⟨loaded, hload⟩ := Outcome.expect_eq_some hexpect'
  have htree := State.tree_of_create ⟨by decide, by decide, by decide⟩ hcreate hroot
  refine ⟨k, k', loaded, hload, (elfLoad_guard_iff hroot htree hload).mpr
    ⟨guard_unmapped_iff.mpr hnone, fun info hparse => ?_⟩⟩
  have hall : ((parse (sampleHeader 1 1 ++ sampleLoad 0x10000 4096)).map fun r =>
      r.toOption.map fun info => decide (∀ seg ∈ info.segments, ¬ seg.Covers userGuard)) =
      some (some true) := by decide +kernel
  rw [hparse] at hall
  exact of_decide_eq_true (Option.some.inj (Option.some.inj hall))

set_option maxRecDepth 100000 in
/-- A program with a segment at the page below the stack: it is loaded, and the page is mapped. -/
theorem guard_mapped : ∃ (k k' : State) (loaded : LoadedElf),
    ((boot smallMem).create smallBoard).expect = some k ∧
    k.elfLoad 0 (sampleHeader 1 1 ++ sampleLoad userGuard 4096) [] = some (.ok loaded, k') ∧
      k'.table.pidRoot 0 = some 0x80300000 ∧ isMapped k'.mem 0x80300000 userGuard = true := by
  obtain ⟨k, hexpect, heval⟩ : ∃ k, ((boot smallMem).create smallBoard).expect = some k ∧
      decide ((k.elfLoad 0 (sampleHeader 1 1 ++ sampleLoad userGuard 4096) []).expect.map
        (fun k' => decide (k'.table.pidRoot 0 = some 0x80300000 ∧
          isMapped k'.mem 0x80300000 userGuard = true)) = some true) = true :=
    Option.map_eq_some_iff.mp (by decide +kernel)
  obtain ⟨k', hexpect', hmapped⟩ := Option.map_eq_some_iff.mp (of_decide_eq_true heval)
  obtain ⟨loaded, hload⟩ := Outcome.expect_eq_some hexpect'
  exact ⟨k, k', loaded, hexpect, hload, of_decide_eq_true hmapped⟩

end Ignium.Kernel
