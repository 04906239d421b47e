import Ignium.Kernel.Elf
import Ignium.Kernel.Loading
import Mathlib.Data.Set.List

/-!
# The file format of programs

What `parse` accepts. `HeaderOk` and `ProgramHeader.Ok` are the conditions on the header and on the
segments, and `parse_ok_iff` says that `parse` returns a program exactly for the files that meet
them and whose segments, in the order of their addresses, each end before the next one starts.

`parse_safe` is what the loader relies on: parsing never panics, the pages of any two segments are
apart, and no computation of the loader on a segment overflows or leaves the file.

The documented format asks for less and for more. It asks that the pages of segments are apart, in
any order of the program headers: a segment without pages may then lie within another one, which
`parse` refuses unless it comes first. And it asks for little-endian files, which `parse` does not
check. `documented_iff` says that these are the only differences.
-/

namespace Ignium.Kernel

open Mem Mmu Bytes

namespace Parsed

variable {α β : Type} {x : Parsed α} {f : α → Parsed β} {b : β}

theorem andThen_eq_ok :
    x.andThen f = some (.ok b) ↔ ∃ a, x = some (.ok a) ∧ f a = some (.ok b) := by
  rcases x with _ | _ | a
  · exact ⟨nofun, nofun⟩
  · exact ⟨nofun, nofun⟩
  · refine ⟨fun h => ⟨a, rfl, h⟩, fun ⟨a', h, hf⟩ => ?_⟩
    cases h
    exact hf

theorem andThen_ne_none (hx : x ≠ none) (hf : ∀ a, x = some (.ok a) → f a ≠ none) :
    x.andThen f ≠ none := by
  rcases x with _ | _ | a
  · exact absurd rfl hx
  · exact Option.some_ne_none _
  · exact hf a rfl

end Parsed

/-! ## The header -/

/-- The header of a file is one of a 64-bit RISC-V program, and its program headers are in the
file. -/
structure HeaderOk (bytes : List UInt8) (hdr : ElfHeader) : Prop where
  long : 64 ≤ bytes.length
  magic : bytes.take 4 = [0x7f, 0x45, 0x4c, 0x46]
  class64 : bytes[4]? = some 2
  exec : leAt bytes 16 2 = some 2
  riscv : leAt bytes 18 2 = some 243
  entry : leAt bytes 24 8 = some hdr.entry
  phoff : leAt bytes 32 8 = some hdr.phoff
  phnum : leAt bytes 56 2 = some hdr.phnum
  table : hdr.phoff + hdr.phnum * 56 ≤ bytes.length

variable {bytes : List UInt8} {hdr : ElfHeader} {info : ElfInfo}

theorem checkTable_eq {len phoff phnum : Nat} (hlen : len < 2 ^ 64) (hphnum : phnum < 2 ^ 16) :
    checkTable len phoff phnum =
      if phoff + phnum * 56 ≤ len then .ok () else .error .truncated := by
  unfold checkTable
  by_cases hpos : phnum > 0
  · rw [if_pos hpos, checkedMul_eq (by omega)]
    dsimp only
    by_cases hfits : phoff + phnum * 56 ≤ len
    · rw [not_exceeds hlen hfits, if_pos hfits]
      rfl
    · have hexceeds : exceeds phoff (phnum * 56) len = true := by
        by_contra hfalse
        exact hfits (le_of_not_exceeds (Bool.eq_false_of_not_eq_true hfalse))
      rw [hexceeds, if_neg hfits]
      rfl
  · obtain rfl : phnum = 0 := by omega
    rw [if_neg hpos]
    by_cases hfits : phoff ≤ len
    · rw [if_neg (by omega), if_pos (by omega)]
    · rw [if_pos (by omega), if_neg (by omega)]

/-- The numbers of the header are in the file. -/
theorem header_reads (hlong : 64 ≤ bytes.length) :
    ∃ cls etype machine entry phoff phnum, bytes[4]? = some cls ∧ leAt bytes 16 2 = some etype ∧
      leAt bytes 18 2 = some machine ∧ leAt bytes 24 8 = some entry ∧
      leAt bytes 32 8 = some phoff ∧ leAt bytes 56 2 = some phnum ∧ phnum < 2 ^ 16 := by
  obtain ⟨etype, hetype, -⟩ := leAt_some bytes 16 2 (by omega)
  obtain ⟨machine, hmachine, -⟩ := leAt_some bytes 18 2 (by omega)
  obtain ⟨entry, hentry, -⟩ := leAt_some bytes 24 8 (by omega)
  obtain ⟨phoff, hphoff, -⟩ := leAt_some bytes 32 8 (by omega)
  obtain ⟨phnum, hphnum, hlt⟩ := leAt_some bytes 56 2 (by omega)
  exact ⟨_, etype, machine, entry, phoff, phnum, List.getElem?_eq_getElem (by omega), hetype,
    hmachine, hentry, hphoff, hphnum, hlt⟩

theorem parseHeader_ne_none : parseHeader bytes ≠ none := by
  unfold parseHeader
  by_cases hlong : bytes.length < 64
  · rw [if_pos hlong]
    exact Option.some_ne_none _
  obtain ⟨cls, etype, machine, entry, phoff, phnum, hcls, hetype, hmachine, hentry, hphoff, hphnum, -⟩ :=
    header_reads (show 64 ≤ bytes.length by omega)
  simp only [if_neg hlong, hcls, hetype, hmachine, hentry, hphoff, hphnum, bind, Option.bind_some]
  repeat' split
  all_goals exact Option.some_ne_none _

theorem parseHeader_ok_iff (hlen : bytes.length < 2 ^ 64) :
    parseHeader bytes = some (.ok hdr) ↔ HeaderOk bytes hdr := by
  unfold parseHeader
  by_cases hlong : bytes.length < 64
  · rw [if_pos hlong]
    exact ⟨nofun, fun h => absurd h.long (by omega)⟩
  obtain ⟨cls, etype, machine, entry, phoff, phnum, hcls, hetype, hmachine, hentry, hphoff, hphnum, hlt⟩ :=
    header_reads (show 64 ≤ bytes.length by omega)
  simp only [if_neg hlong, hcls, hetype, hmachine, hentry, hphoff, hphnum, bind, Option.bind_some,
    checkTable_eq hlen hlt]
  constructor
  · intro h
    split at h
    · cases h
    next hmagic =>
    split at h
    · cases h
    next hclass =>
    split at h
    · cases h
    next hexec =>
    split at h
    · cases h
    next hriscv =>
    split at h
    · cases h
    next htable =>
    cases h
    obtain rfl := not_not.mp hclass
    obtain rfl := not_not.mp hexec
    obtain rfl := not_not.mp hriscv
    refine ⟨by omega, not_not.mp hmagic, hcls, hetype, hmachine, hentry, hphoff, hphnum, ?_⟩
    by_contra hout
    rw [if_neg hout] at htable
    cases htable
  · rintro ⟨-, hmagic, hclass, hexec, hriscv, hentry', hphoff', hphnum', htable⟩
    cases hcls.symm.trans hclass
    cases hetype.symm.trans hexec
    cases hmachine.symm.trans hriscv
    obtain rfl := Option.some.inj (hphoff.symm.trans hphoff')
    obtain rfl := Option.some.inj (hphnum.symm.trans hphnum')
    obtain rfl := Option.some.inj (hentry.symm.trans hentry')
    rw [if_neg (not_not.mpr hmagic), if_neg (not_not.mpr rfl), if_neg (not_not.mpr rfl),
      if_neg (not_not.mpr rfl), if_pos htable]

/-! ## The segments -/

namespace ProgramHeader

/-- A segment is not longer in the file than in memory, its bytes are in the file, it lies within the
user addresses, and it starts at the same offset of a page in both. -/
structure Ok (ph : ProgramHeader) (len : Nat) : Prop where
  low : ph.vaddr < userVaLimit
  bound : ph.vaddr + ph.memsz ≤ userVaLimit
  short : ph.filesz ≤ ph.memsz
  inFile : ph.offset + ph.filesz ≤ len
  aligned : ph.vaddr % pageSize = ph.offset % pageSize

/-- The first address of the pages of a segment. -/
def start (ph : ProgramHeader) : Nat := alignDown ph.vaddr pageSize

/-- The end of the pages of a segment. -/
def stop (ph : ProgramHeader) : Nat := alignUp (ph.vaddr + ph.memsz) pageSize

/-- An address lies in the pages of a segment. -/
def Covers (ph : ProgramHeader) (va : Nat) : Prop := ph.start ≤ va ∧ va < ph.stop

/-- The pages of two segments are apart. -/
def Apart (a b : ProgramHeader) : Prop := ∀ va, ¬ (a.Covers va ∧ b.Covers va)

/-- A segment ends before another one starts, in whole pages. -/
def Before (a b : ProgramHeader) : Prop := a.stop ≤ b.start

theorem start_le_stop (ph : ProgramHeader) : ph.start ≤ ph.stop := by
  unfold start stop alignDown alignUp pageSize
  omega

instance (a b : ProgramHeader) : Decidable (a.Before b) := inferInstanceAs (Decidable (_ ≤ _))

instance : IsTrans ProgramHeader Before :=
  ⟨fun _ b _ h h' => Nat.le_trans h (Nat.le_trans b.start_le_stop h')⟩

theorem Before.apart {a b : ProgramHeader} (h : a.Before b) : a.Apart b := by
  rintro va ⟨⟨-, hstop⟩, hstart, -⟩
  unfold Before at h
  omega

end ProgramHeader

/-- What the program header of a segment says. -/
def Segment.header (seg : Segment) : ProgramHeader :=
  ⟨seg.flags, seg.offset, seg.vaddr, seg.filesz, seg.memsz⟩

theorem Segment.header_injective : Function.Injective Segment.header := by
  rintro ⟨⟩ ⟨⟩ h
  cases h
  rfl

theorem readHeader_ne_none {off : Nat} (hin : off + 56 ≤ bytes.length) :
    readHeader bytes off ≠ none := by
  obtain ⟨ptype, hptype, -⟩ := leAt_some bytes off 4 (by omega)
  obtain ⟨flags, hflags, -⟩ := leAt_some bytes (off + 4) 4 (by omega)
  obtain ⟨offset, hoffset, -⟩ := leAt_some bytes (off + 8) 8 (by omega)
  obtain ⟨vaddr, hvaddr, -⟩ := leAt_some bytes (off + 16) 8 (by omega)
  obtain ⟨filesz, hfilesz, -⟩ := leAt_some bytes (off + 32) 8 (by omega)
  obtain ⟨memsz, hmemsz, -⟩ := leAt_some bytes (off + 40) 8 (by omega)
  simp only [readHeader, hptype, hflags, hoffset, hvaddr, hfilesz, hmemsz, bind, Option.bind_some]
  split <;> exact Option.some_ne_none _

theorem checkSegment_ok_iff (hlen : bytes.length < 2 ^ 64) {ph : ProgramHeader}
    {seg : FileSegment bytes} :
    checkSegment bytes ph = .ok seg ↔ ph.Ok bytes.length ∧ seg.val.header = ph := by
  constructor
  · intro h
    unfold checkSegment at h
    split at h
    · cases h
    next hlow =>
    split at h
    · cases h
    split at h
    · cases h
    split at h
    · cases h
    split at h
    · cases h
    cases h
    refine ⟨⟨Nat.lt_of_not_le hlow, ?_, ?_, ?_, ?_⟩, rfl⟩
    · exact le_of_not_exceeds (Bool.eq_false_of_not_eq_true ‹_›)
    · omega
    · exact le_of_not_exceeds (Bool.eq_false_of_not_eq_true ‹_›)
    · rename_i haligned
      rwa [not_not, and_fff, and_fff] at haligned
  · rintro ⟨⟨hlow, hbound, hshort, hfile, haligned⟩, rfl⟩
    have hlimit : userVaLimit < 2 ^ 64 := by decide
    unfold checkSegment
    rw [if_neg (Nat.not_le_of_lt hlow), dif_neg (by simp [not_exceeds hlimit hbound]),
      dif_neg (by omega), dif_neg (by simp [not_exceeds hlen hfile]),
      dif_neg (by rwa [not_not, and_fff, and_fff])]
    rfl

/-- Program headers that meet the conditions are those of segments. -/
theorem exists_segments {loads : List ProgramHeader} (hok : ∀ ph ∈ loads, ph.Ok bytes.length) :
    ∃ segs : List (FileSegment bytes), segs.map (·.val.header) = loads := by
  have hrange : loads ∈ Set.range (List.map fun seg : FileSegment bytes => seg.val.header) := by
    rw [Set.range_list_map]
    intro ph hph
    obtain ⟨-, hbound, hshort, hfile, haligned⟩ := hok ph hph
    exact ⟨⟨⟨_, _, _, _, ph.flags, hbound, hshort, haligned⟩, hfile⟩, rfl⟩
  exact hrange

/-- The program headers of the type `PT_LOAD` with the given numbers. -/
def loadHeadersAt (bytes : List UInt8) (phoff : Nat) (nums : List Nat) : List ProgramHeader :=
  nums.filterMap fun i => (readHeader bytes (phoff + i * 56)).join

/-- The program headers of the type `PT_LOAD` of a file. -/
def loadHeaders (bytes : List UInt8) (hdr : ElfHeader) : List ProgramHeader :=
  loadHeadersAt bytes hdr.phoff (List.range hdr.phnum)

section Segments

variable {phoff : Nat} {nums : List Nat} (hin : ∀ i ∈ nums, phoff + i * 56 + 56 ≤ bytes.length)

include hin

theorem parseSegments_ne_none : parseSegments bytes phoff nums ≠ none := by
  induction nums with
  | nil => exact Option.some_ne_none _
  | cons i rest ih =>
    have hrest := ih fun j hj => hin j (.tail _ hj)
    unfold parseSegments
    rcases hread : readHeader bytes (phoff + i * 56) with _ | _ | ph
    · exact absurd hread (readHeader_ne_none (hin i (.head _)))
    · exact hrest
    · dsimp only
      cases checkSegment bytes ph with
      | error e => exact Option.some_ne_none _
      | ok seg => exact Parsed.andThen_ne_none hrest fun _ _ => Option.some_ne_none _

theorem parseSegments_ok_iff (hlen : bytes.length < 2 ^ 64) {segs : List (FileSegment bytes)} :
    parseSegments bytes phoff nums = some (.ok segs) ↔
      (∀ ph ∈ loadHeadersAt bytes phoff nums, ph.Ok bytes.length) ∧
      segs.map (·.val.header) = loadHeadersAt bytes phoff nums := by
  induction nums generalizing segs with
  | nil =>
    refine ⟨fun h => ?_, fun h => ?_⟩
    · cases h
      exact ⟨nofun, rfl⟩
    · obtain rfl : segs = [] := List.map_eq_nil_iff.mp h.2
      rfl
  | cons i rest ih =>
    replace ih : ∀ {segs}, _ := @ih fun j hj => hin j (.tail _ hj)
    unfold parseSegments
    rcases hread : readHeader bytes (phoff + i * 56) with _ | _ | ph
    · exact absurd hread (readHeader_ne_none (hin i (.head _)))
    · have hskip : loadHeadersAt bytes phoff (i :: rest) = loadHeadersAt bytes phoff rest := by
        simp [loadHeadersAt, hread]
      rw [hskip]
      exact ih
    · have hcons : loadHeadersAt bytes phoff (i :: rest) =
          ph :: loadHeadersAt bytes phoff rest := by
        simp [loadHeadersAt, hread]
      rw [hcons]
      dsimp only
      constructor
      · intro h
        rcases hcheck : checkSegment bytes ph with e | seg
        · rw [hcheck] at h
          cases h
        rw [hcheck] at h
        obtain ⟨more, hmore, ⟨⟩⟩ := Parsed.andThen_eq_ok.mp h
        obtain ⟨hph, hheader⟩ := (checkSegment_ok_iff hlen).mp hcheck
        obtain ⟨hok, hmap⟩ := ih.mp hmore
        refine ⟨fun ph' hmem => ?_, by rw [List.map_cons, hmap, hheader]⟩
        rcases List.mem_cons.mp hmem with rfl | hmem
        · exact hph
        · exact hok ph' hmem
      · rintro ⟨hok, hmap⟩
        obtain ⟨seg, more, rfl, hheader, hmore⟩ := List.map_eq_cons_iff.mp hmap
        rw [(checkSegment_ok_iff hlen).mpr ⟨hok ph (.head _), hheader⟩]
        exact Parsed.andThen_eq_ok.mpr
          ⟨more, ih.mpr ⟨fun ph' hmem => hok ph' (.tail _ hmem), hmore⟩, rfl⟩

end Segments

/-! ## The order of the segments -/

/-- Program headers in the order of their addresses. -/
def sortHeaders (loads : List ProgramHeader) : List ProgramHeader :=
  loads.insertionSort fun a b => a.vaddr ≤ b.vaddr

theorem map_sortSegments (segs : List (FileSegment bytes)) :
    (sortSegments segs).map (·.val.header) = sortHeaders (segs.map (·.val.header)) :=
  List.map_insertionSort _ _ _ _ fun _ _ _ _ => Iff.rfl

theorem sortHeaders_perm (loads : List ProgramHeader) : (sortHeaders loads).Perm loads :=
  List.perm_insertionSort _ _

instance : Std.Total fun a b : ProgramHeader => a.vaddr ≤ b.vaddr := ⟨fun _ _ => Nat.le_total _ _⟩

instance : IsTrans ProgramHeader fun a b => a.vaddr ≤ b.vaddr := ⟨fun _ _ _ => Nat.le_trans⟩

theorem sortHeaders_sorted (loads : List ProgramHeader) :
    (sortHeaders loads).Pairwise fun a b => a.vaddr ≤ b.vaddr :=
  List.pairwise_insertionSort _ _

/-- The sums of the check stay within the user addresses. -/
theorem Segment.checkedAdd_eq (seg : Segment) :
    checkedAdd seg.vaddr seg.memsz = some (seg.vaddr + seg.memsz) ∧
      alignUpChecked (seg.vaddr + seg.memsz) pageSize = some seg.header.stop := by
  have hbound := seg.bound
  have hlimit : userVaLimit = 2 ^ 38 := by decide
  have hsize : pageSize = 4096 := rfl
  have hsum : seg.vaddr + seg.memsz + (pageSize - 1) = seg.vaddr + seg.memsz + pageSize - 1 := by
    omega
  refine ⟨Bytes.checkedAdd_eq (by omega), ?_⟩
  rw [alignUpChecked, Bytes.checkedAdd_eq (by omega), Option.map_some, hsum]
  rfl

theorem overlapping_cons (a b : Segment) (rest : List Segment) :
    overlapping (a :: b :: rest) =
      if a.header.Before b.header then overlapping (b :: rest) else some true := by
  obtain ⟨hsum, hstop⟩ := a.checkedAdd_eq
  simp only [overlapping, hsum, hstop, bind, Option.bind_some]
  by_cases hbefore : a.header.Before b.header
  · have hle : ¬ a.header.stop > alignDown b.vaddr pageSize := Nat.not_lt_of_le hbefore
    rw [if_neg hle, if_pos hbefore]
  · have hgt : a.header.stop > alignDown b.vaddr pageSize := Nat.lt_of_not_le hbefore
    rw [if_pos hgt, if_neg hbefore]

theorem overlapping_ne_none (segs : List Segment) : overlapping segs ≠ none := by
  induction segs with
  | nil => exact Option.some_ne_none _
  | cons a rest ih =>
    cases rest with
    | nil => exact Option.some_ne_none _
    | cons b rest =>
      rw [overlapping_cons]
      split
      · exact ih
      · exact Option.some_ne_none _

/-- Comparing neighbours is comparing all pairs. -/
theorem overlapping_eq_false_iff (segs : List Segment) :
    overlapping segs = some false ↔ (segs.map Segment.header).Pairwise ProgramHeader.Before := by
  rw [← List.isChain_iff_pairwise]
  induction segs with
  | nil => exact ⟨fun _ => .nil, fun _ => rfl⟩
  | cons a rest ih =>
    cases rest with
    | nil => exact ⟨fun _ => .singleton _, fun _ => rfl⟩
    | cons b rest =>
      rw [overlapping_cons, List.map_cons, List.map_cons, List.isChain_cons_cons,
        ← List.map_cons, ← ih]
      by_cases hbefore : a.header.Before b.header
      · rw [if_pos hbefore]
        exact ⟨fun h => ⟨hbefore, h⟩, And.right⟩
      · rw [if_neg hbefore]
        exact ⟨nofun, fun h => absurd h.1 hbefore⟩

/-! ## What is accepted -/

theorem HeaderOk.in_table (h : HeaderOk bytes hdr) :
    ∀ i ∈ List.range hdr.phnum, hdr.phoff + i * 56 + 56 ≤ bytes.length := by
  intro i hi
  have htable := h.table
  have hlt := List.mem_range.mp hi
  omega

/-- A program is what a file says: its segments are the program headers of the type `PT_LOAD`, in the
order of their addresses. -/
structure ElfInfo.Of (info : ElfInfo) (bytes : List UInt8) (hdr : ElfHeader) : Prop where
  bytes_eq : info.bytes = bytes
  entry_eq : info.entry = hdr.entry
  segments_eq : info.segments.map Segment.header = sortHeaders (loadHeaders bytes hdr)

theorem parse_ok_iff (hlen : bytes.length < 2 ^ 64) :
    parse bytes = some (.ok info) ↔ ∃ hdr, HeaderOk bytes hdr ∧
      (∀ ph ∈ loadHeaders bytes hdr, ph.Ok bytes.length) ∧
      (sortHeaders (loadHeaders bytes hdr)).Pairwise ProgramHeader.Before ∧ info.Of bytes hdr := by
  unfold parse
  rw [Parsed.andThen_eq_ok]
  refine exists_congr fun hdr => ?_
  rw [parseHeader_ok_iff hlen]
  refine and_congr_right fun hheader => ?_
  rw [Parsed.andThen_eq_ok]
  have hsorted : ∀ segs : List (FileSegment bytes),
      ((sortSegments segs).map Subtype.val).map Segment.header =
        sortHeaders (segs.map (·.val.header)) := fun segs => by
    rw [← map_sortSegments, List.map_map]
    rfl
  constructor
  · rintro ⟨segs, hparse, hrest⟩
    obtain ⟨hok, hmap⟩ := (parseSegments_ok_iff hheader.in_table hlen).mp hparse
    dsimp only at hrest
    split at hrest
    · cases hrest
    · cases hrest
    next hoverlap =>
    cases hrest
    rw [overlapping_eq_false_iff, hsorted, hmap] at hoverlap
    exact ⟨hok, hoverlap, rfl, rfl, by rw [hsorted, hmap]; rfl⟩
  · rintro ⟨hok, hbefore, hbytes, hentry, hsegments⟩
    obtain ⟨segs, hmap⟩ := exists_segments hok
    refine ⟨segs, (parseSegments_ok_iff hheader.in_table hlen).mpr ⟨hok, hmap⟩, ?_⟩
    dsimp only
    have hoverlap : overlapping ((sortSegments segs).map Subtype.val) = some false := by
      rw [overlapping_eq_false_iff, hsorted, hmap]
      exact hbefore
    rw [hoverlap]
    obtain ⟨infoBytes, infoEntry, infoSegments, inFile⟩ := info
    obtain rfl : infoBytes = bytes := hbytes
    obtain rfl : infoEntry = hdr.entry := hentry
    have hsame : (sortSegments segs).map Subtype.val = infoSegments := by
      apply List.map_injective_iff.mpr Segment.header_injective
      rw [hsorted, hmap]
      exact hsegments.symm
    subst hsame
    rfl

/-! ## What the loader relies on -/

/-- No computation of the loader on a segment overflows or leaves the file: its loop ends within the
user addresses, and what it copies to a page is in the file and fits into the page. The numbers are
those of `fillPage`. -/
structure Segment.Safe (seg : Segment) (bytes : List UInt8) : Prop where
  range : segmentRange seg = some (.ok (seg.header.start, seg.header.stop))
  bounded : seg.header.stop ≤ userVaLimit
  window : ∀ va ∈ seg.pages, ∃ base lo hi, segmentWindow seg va = some (base, lo, hi) ∧
    base = seg.offset + va - seg.vaddr ∧ lo = max base seg.offset ∧
    hi = min (base + pageSize) (seg.offset + seg.filesz) ∧ base ≤ lo ∧ hi ≤ bytes.length ∧
    hi ≤ base + pageSize

theorem Segment.safe {seg : Segment} (hlen : bytes.length < 2 ^ 63)
    (hfile : seg.offset + seg.filesz ≤ bytes.length) : seg.Safe bytes := by
  obtain ⟨hsum, hstop⟩ := seg.checkedAdd_eq
  have hbound := seg.bound
  have hlimit : userVaLimit = 2 ^ 38 := by decide
  have hsize : pageSize = 4096 := rfl
  refine ⟨by rw [segmentRange, hsum]; simp only [hstop]; rfl, ?_, fun va hva => ?_⟩
  · simp only [ProgramHeader.stop, Segment.header, alignUp, pageSize, userVaLimit]
    omega
  · obtain ⟨hbase, -⟩ := seg.le_of_mem_pages hva
    have hva' : va < userVaLimit := by
      obtain ⟨i, hi, rfl⟩ := List.mem_map.mp hva
      rw [List.mem_range] at hi
      simp only [alignDown, alignUp, pageSize, userVaLimit] at hi ⊢
      omega
    -- The difference may be negative, but the sum with the offset in the file is not.
    have hwrap : wrappingAdd seg.offset (wrappingSub va seg.vaddr) = seg.offset + va - seg.vaddr := by
      unfold wrappingAdd wrappingSub
      omega
    refine ⟨_, _, _, ?_, rfl, rfl, rfl, Nat.le_max_left _ _, by omega, by omega⟩
    simp only [segmentWindow, hwrap]
    rw [Bytes.checkedAdd_eq (by omega), Bytes.checkedAdd_eq (by omega)]
    rfl

theorem parse_ne_none (hlen : bytes.length < 2 ^ 64) : parse bytes ≠ none := by
  refine Parsed.andThen_ne_none parseHeader_ne_none fun hdr hheader => ?_
  rw [parseHeader_ok_iff hlen] at hheader
  refine Parsed.andThen_ne_none (parseSegments_ne_none hheader.in_table) fun segs _ => ?_
  dsimp only
  rcases hoverlap : overlapping ((sortSegments segs).map Subtype.val) with _ | _ | _
  · exact absurd hoverlap (overlapping_ne_none _)
  · exact Option.some_ne_none _
  · exact Option.some_ne_none _

/-- Parsing never panics, and what it returns can be loaded: the segments are in the order of their
addresses, each of them meets the conditions on segments, the pages of any two of them are apart, and
no computation of the loader overflows or leaves the file. -/
theorem parse_safe (bytes : Slice) :
    ∃ result, parse bytes.val = some result ∧ ∀ info, result = .ok info →
      info.segments.Pairwise (fun a b => a.vaddr ≤ b.vaddr) ∧
      (∀ seg ∈ info.segments, seg.filesz ≤ seg.memsz ∧ seg.vaddr + seg.memsz ≤ 2 ^ 38 ∧
        seg.offset + seg.filesz ≤ bytes.val.length ∧ seg.vaddr % 4096 = seg.offset % 4096 ∧
        seg.Safe bytes.val) ∧
      info.segments.Pairwise (fun a b => a.header.Apart b.header) := by
  obtain ⟨bytes, hlen⟩ := bytes
  have hlen' : bytes.length < 2 ^ 64 := by omega
  obtain ⟨result, hparse⟩ := Option.ne_none_iff_exists'.mp (parse_ne_none hlen')
  refine ⟨result, hparse, ?_⟩
  rintro info rfl
  obtain ⟨hdr, -, -, hbefore, hbytes, -, hsegments⟩ := (parse_ok_iff hlen').mp hparse
  have hsorted := sortHeaders_sorted (loadHeaders bytes hdr)
  rw [← hsegments, List.pairwise_map] at hsorted hbefore
  refine ⟨hsorted, fun seg hseg => ?_, hbefore.imp ProgramHeader.Before.apart⟩
  have hfile := info.inFile seg hseg
  rw [hbytes] at hfile
  exact ⟨seg.short, seg.bound, hfile, seg.aligned, Segment.safe hlen hfile⟩

/-! ## The documented format -/

/-- A file has the documented format and says what a program is. -/
def Documented (bytes : List UInt8) (info : ElfInfo) : Prop :=
  ∃ hdr, HeaderOk bytes hdr ∧ bytes[5]? = some 1 ∧
    (∀ ph ∈ loadHeaders bytes hdr, ph.Ok bytes.length) ∧
    (loadHeaders bytes hdr).Pairwise ProgramHeader.Apart ∧ info.Of bytes hdr

/-- A segment without pages lies where another one has pages. -/
def ProgramHeader.Hides (a b : ProgramHeader) : Prop := b.start = b.stop ∧ a.Covers b.start

/-- The file is little-endian exactly when no segment without pages comes, in the order of addresses,
behind one that has pages there. Files that have not the documented format for another reason do
not matter. -/
def Plain (bytes : List UInt8) : Prop :=
  ∀ hdr, HeaderOk bytes hdr → (∀ ph ∈ loadHeaders bytes hdr, ph.Ok bytes.length) →
    (loadHeaders bytes hdr).Pairwise ProgramHeader.Apart →
    (bytes[5]? = some 1 ↔
      (sortHeaders (loadHeaders bytes hdr)).Pairwise fun a b => ¬ a.Hides b)

namespace ProgramHeader

theorem Apart.symm {a b : ProgramHeader} (h : a.Apart b) : b.Apart a := fun va hva => h va hva.symm

/-- For two segments in the order of their addresses, the check of the parser is that their pages are
apart and that the second one is not hidden. -/
theorem before_iff {a b : ProgramHeader} (hle : a.vaddr ≤ b.vaddr) :
    a.Before b ↔ a.Apart b ∧ ¬ a.Hides b := by
  have hstart : a.start ≤ b.start := by
    unfold start alignDown
    exact Nat.mul_le_mul_right _ (Nat.div_le_div_right hle)
  constructor
  · intro h
    refine ⟨h.apart, fun hides => ?_⟩
    obtain ⟨-, -, hlt⟩ := hides
    unfold Before at h
    omega
  · rintro ⟨hapart, hhides⟩
    by_contra hbefore
    have hcovers : a.Covers b.start := ⟨hstart, Nat.lt_of_not_le hbefore⟩
    have hle := b.start_le_stop
    rcases Nat.eq_or_lt_of_le hle with hempty | hlt
    · exact hhides ⟨hempty, hcovers⟩
    · exact hapart b.start ⟨hcovers, Nat.le_refl _, hlt⟩

end ProgramHeader

theorem pairwise_before_iff (loads : List ProgramHeader) :
    (sortHeaders loads).Pairwise ProgramHeader.Before ↔
      loads.Pairwise ProgramHeader.Apart ∧
        (sortHeaders loads).Pairwise fun a b => ¬ a.Hides b := by
  have hperm : loads.Pairwise ProgramHeader.Apart ↔
      (sortHeaders loads).Pairwise ProgramHeader.Apart :=
    ((sortHeaders_perm loads).pairwise_iff ProgramHeader.Apart.symm).symm
  rw [hperm, ← List.pairwise_and_iff]
  have hsorted := sortHeaders_sorted loads
  constructor
  · intro h
    exact hsorted.imp₂ (fun a b hle => (ProgramHeader.before_iff hle).mp) h
  · intro h
    exact hsorted.imp₂ (fun a b hle => (ProgramHeader.before_iff hle).mpr) h

theorem HeaderOk.unique {hdr' : ElfHeader} (h : HeaderOk bytes hdr) (h' : HeaderOk bytes hdr') :
    hdr = hdr' := by
  obtain ⟨entry, phoff, phnum⟩ := hdr
  obtain ⟨entry', phoff', phnum'⟩ := hdr'
  obtain rfl := Option.some.inj (h.entry.symm.trans h'.entry)
  obtain rfl := Option.some.inj (h.phoff.symm.trans h'.phoff)
  obtain rfl := Option.some.inj (h.phnum.symm.trans h'.phnum)
  rfl

theorem exists_info (hdr : ElfHeader) (hok : ∀ ph ∈ loadHeaders bytes hdr, ph.Ok bytes.length) :
    ∃ info : ElfInfo, info.Of bytes hdr := by
  have hsorted : ∀ ph ∈ sortHeaders (loadHeaders bytes hdr), ph.Ok bytes.length :=
    fun ph hph => hok ph ((sortHeaders_perm _).mem_iff.mp hph)
  obtain ⟨segs, hsegs⟩ := exists_segments hsorted
  refine ⟨⟨bytes, hdr.entry, segs.map Subtype.val, fun seg hseg => ?_⟩, rfl, rfl, ?_⟩
  · obtain ⟨fileSeg, -, rfl⟩ := List.mem_map.mp hseg
    exact fileSeg.property
  · rw [List.map_map]
    exact hsegs

/-- A file is accepted exactly when it has the documented format, with the result that the format
says, if and only if it is plain. The parser does not look at the byte order that the file declares,
and it takes a segment without pages for an overlapping one if it lies, in the order of addresses,
behind one that has pages there. -/
theorem documented_iff (bytes : Slice) :
    (∀ info, parse bytes.val = some (.ok info) ↔ Documented bytes.val info) ↔ Plain bytes.val := by
  obtain ⟨bytes, hlen⟩ := bytes
  have hlen : bytes.length < 2 ^ 64 := by omega
  simp only [parse_ok_iff hlen, pairwise_before_iff]
  constructor
  · intro hall hdr hheader hok hapart
    obtain ⟨info, hinfo⟩ := exists_info hdr hok
    constructor
    · intro hdata
      obtain ⟨hdr', hheader', -, ⟨-, hhides⟩, -⟩ :=
        (hall info).mpr ⟨hdr, hheader, hdata, hok, hapart, hinfo⟩
      rwa [hheader.unique hheader']
    · intro hhides
      obtain ⟨-, -, hdata, -⟩ := (hall info).mp ⟨hdr, hheader, hok, ⟨hapart, hhides⟩, hinfo⟩
      exact hdata
  · intro hplain info
    constructor
    · rintro ⟨hdr, hheader, hok, ⟨hapart, hhides⟩, hinfo⟩
      exact ⟨hdr, hheader, (hplain hdr hheader hok hapart).mpr hhides, hok, hapart, hinfo⟩
    · rintro ⟨hdr, hheader, hdata, hok, hapart, hinfo⟩
      exact ⟨hdr, hheader, hok, ⟨hapart, (hplain hdr hheader hok hapart).mp hdata⟩, hinfo⟩

/-- A number in little-endian order. -/
def leBytes (v n : Nat) : List UInt8 := (List.range n).map fun i => UInt8.ofNat (v >>> (8 * i))

/-- The header of a program with the given byte order and number of program headers. -/
def sampleHeader (data : UInt8) (phnum : Nat) : List UInt8 :=
  [0x7f, 0x45, 0x4c, 0x46, 2, data] ++ List.replicate 10 0 ++ leBytes 2 2 ++ leBytes 243 2 ++
    leBytes 1 4 ++ leBytes 0x10000 8 ++ leBytes 64 8 ++ List.replicate 16 0 ++ leBytes phnum 2 ++
    List.replicate 6 0

/-- A program header of the type `PT_LOAD` without bytes in the file. -/
def sampleLoad (vaddr memsz : Nat) : List UInt8 :=
  leBytes 1 4 ++ leBytes 6 4 ++ leBytes 0 8 ++ leBytes vaddr 8 ++ List.replicate 16 0 ++
    leBytes memsz 8 ++ List.replicate 8 0

/-- The error of a result. -/
def Parsed.error {α : Type} (x : Parsed α) : Option (Option ElfError) :=
  x.map fun result => match result with
    | .error e => some e
    | .ok _ => none

theorem Parsed.error_eq_none {α : Type} {x : Parsed α} (h : x.error = some none) :
    ∃ a, x = some (.ok a) := by
  rcases x with _ | _ | a
  · cases h
  · cases h
  · exact ⟨a, rfl⟩

theorem Parsed.error_eq_some {α : Type} {x : Parsed α} {e : ElfError} (h : x.error = some (some e)) :
    x = some (.error e) := by
  rcases x with _ | _ | a
  · cases h
  · cases h
    rfl
  · cases h

set_option maxRecDepth 100000 in
/-- A big-endian file is accepted, and one of two files with the same program headers in different
orders is accepted and the other one refused. -/
theorem not_documented :
    (∃ info, parse (sampleHeader 2 0) = some (.ok info) ∧ ¬ Documented (sampleHeader 2 0) info) ∧
    (∃ info, parse (sampleHeader 1 2 ++ sampleLoad 0x10000 0 ++ sampleLoad 0x10000 4096) =
      some (.ok info)) ∧
    parse (sampleHeader 1 2 ++ sampleLoad 0x10000 4096 ++ sampleLoad 0x10000 0) =
      some (.error .overlap) := by
  refine ⟨?_, Parsed.error_eq_none (by decide +kernel), Parsed.error_eq_some (by decide +kernel)⟩
  obtain ⟨info, hinfo⟩ : ∃ info, parse (sampleHeader 2 0) = some (.ok info) :=
    Parsed.error_eq_none (by decide +kernel)
  refine ⟨info, hinfo, fun ⟨_, _, hdata, _⟩ => ?_⟩
  have hbig : (sampleHeader 2 0)[5]? = some 2 := by decide +kernel
  rw [hbig] at hdata
  exact absurd hdata (by decide)

end Ignium.Kernel
