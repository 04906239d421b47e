import Ignium.Mem.Count
import Ignium.Mmu.Levels
import Mathlib.Data.Set.Finite.List

/-!
# The tables of one root

A root is a `Tree`: its tables are held, and each of them is at one place. `leafAt` is the walk, and
`translate` says what the hardware makes of the leaf it finds: the physical address and all bits of
the entry but the page number.

`Shaped m root total paths leaf` says what a tree looks like: the places of its tables, the leaf of
every address, and how many tables it could have if every free page became one. The functions on
tables act on that: `Shaped.ensureTable` adds a place unless all pages are used up, and writing an
entry changes the leaves of one page or of one large page (`Shaped.writeLow`, `Shaped.writeMid`).
`DataKept` is what all of them leave alone, the pages that are held for other uses.
-/

namespace Ignium.Mmu

open Mem
open Usage (InPage Takes Gives HasFree)
open Spaces (TableAt)

/-! ## Entries -/

/-- The bits of `pteFlags`. -/
theorem testBit_flags (entry i : Nat) :
    (pteFlags entry).testBit i = (entry.testBit i && (decide (i < 10) || decide (54 ≤ i ∧ i < 64))) := by
  have hmask : ((1 <<< 64) - 1 - ptePpnMask <<< ptePpnShift).testBit i =
      (decide (i < 10) || decide (54 ≤ i ∧ i < 64)) := by
    by_cases hi : i < 64
    · have hall : ∀ j < 64, ((1 <<< 64) - 1 - ptePpnMask <<< ptePpnShift).testBit j =
          (decide (j < 10) || decide (54 ≤ j ∧ j < 64)) := by decide
      exact hall i hi
    · have hlt : (1 <<< 64) - 1 - ptePpnMask <<< ptePpnShift < 2 ^ i :=
        Nat.lt_of_lt_of_le (by decide) (Nat.pow_le_pow_right (by decide) (Nat.le_of_not_lt hi))
      rw [Nat.testBit_lt_two_pow hlt]
      simp
      omega
  rw [pteFlags, Nat.testBit_and, hmask]

theorem ppn_lt (paddr : Nat) : ppn paddr < 2 ^ 44 :=
  Nat.lt_of_le_of_lt Nat.and_le_right (by decide)

/-- The flags of an entry are read back. -/
theorem pteFlags_pte (paddr entry : Nat) : pteFlags (pte paddr (pteFlags entry)) = pteFlags entry := by
  refine Nat.eq_of_testBit_eq fun i => ?_
  rw [testBit_flags, pte, Nat.testBit_or, testBit_flags, Nat.testBit_shiftLeft]
  by_cases hhigh : 54 ≤ i
  · have hppn : (ppn paddr).testBit (i - ptePpnShift) = false :=
      Nat.testBit_lt_two_pow (Nat.lt_of_lt_of_le (ppn_lt paddr)
        (Nat.pow_le_pow_right (by decide) (by simp only [ptePpnShift]; omega)))
    rw [hppn]
    cases entry.testBit i <;> simp
  · by_cases hlow : i < 10
    · have hnot : ¬ i ≥ ptePpnShift := by simp only [ptePpnShift]; omega
      simp [hnot, hlow]
    · simp [hlow, hhigh]

/-- The page of an entry with such flags is read back. -/
theorem ptePaddr_pte_flags {paddr : Nat} (entry : Nat) (hpage : paddr % 4096 = 0)
    (hpaddr : paddr < 2 ^ 56) : ptePaddr (pte paddr (pteFlags entry)) = paddr := by
  have hmask : ptePpnMask = 2 ^ 44 - 1 := by decide
  have hnone : (pteFlags entry >>> ptePpnShift) % 2 ^ 44 = 0 := by
    refine Nat.eq_of_testBit_eq fun i => ?_
    rw [Nat.testBit_mod_two_pow, Nat.testBit_shiftRight, testBit_flags, Nat.zero_testBit]
    by_cases hi : i < 44
    · have hlow : ¬ ptePpnShift + i < 10 := by simp only [ptePpnShift]; omega
      have hhigh : ¬ 54 ≤ ptePpnShift + i := by simp only [ptePpnShift]; omega
      simp [hlow, hhigh]
    · simp [hi]
  have hppn : ppn paddr = paddr / 4096 := by
    rw [ppn, hmask, Nat.and_two_pow_sub_one_eq_mod, Nat.shiftRight_eq_div_pow,
      Nat.mod_eq_of_lt (by omega)]
  rw [ptePaddr, pte, Nat.shiftRight_or_distrib, Nat.shiftLeft_shiftRight, hmask,
    Nat.and_two_pow_sub_one_eq_mod, Nat.or_mod_two_pow, hnone, Nat.or_zero, hppn,
    Nat.mod_eq_of_lt (by omega), Nat.shiftLeft_eq]
  omega

theorem valid_pteFlags {entry : Nat} : Valid (pteFlags entry) ↔ Valid entry := by
  rw [Valid, Valid, pteFlags, Nat.and_assoc]
  rfl

/-! ## Translation -/

/-- What an entry that maps `size` bytes says of an address: the physical address and all bits of the
entry but the page number. The mapped range must be aligned. -/
def leafTarget (size entry va : Nat) : Option (Nat × Nat) :=
  if ptePaddr entry % size = 0 then some (ptePaddr entry + va % size, pteFlags entry) else none

/-- The walk of the hardware. -/
def translate (m : Usage) (root va : Nat) : Option (Nat × Nat) :=
  (leafAt m root va).bind fun leaf => leafTarget leaf.1 leaf.2 va

variable {m m' m'' : Usage} {root va table page i : Nat} {path : List Nat}

theorem translate_congr (h : leafAt m' root va = leafAt m root va) :
    translate m' root va = translate m root va := by
  rw [translate, translate, h]

/-- What a leaf says of an address whose entry was built from a page and flags. -/
theorem translate_of_leafAt {size flags : Nat} (hleaf : leafAt m root va = some (size, pte page flags))
    (hflags : pteFlags flags = flags) (hpage : page % 4096 = 0) (hlt : page < 2 ^ 56)
    (hsize : page % size = 0) : translate m root va = some (page + va % size, flags) := by
  have hread := pteFlags_pte page flags
  have hpaddr := ptePaddr_pte_flags flags hpage hlt
  rw [hflags] at hread hpaddr
  rw [translate, hleaf, Option.bind_some, leafTarget, hpaddr, hread, if_pos hsize]

/-- The leaf at an entry of 2 MB. -/
theorem leafAt_mid {mid : Nat} (hmid : TableAt m root [l2Index va] mid)
    (hvalid : Valid (pteRead m mid (l1Index va))) (hleaf : Leaf (pteRead m mid (l1Index va))) :
    leafAt m root va = some (superPage, pteRead m mid (l1Index va)) := by
  cases hmid with
  | down htop _ _ hvalid₂ hleaf₂ =>
    cases htop
    unfold leafAt
    dsimp only
    rw [if_neg (not_not.mpr hvalid₂), if_neg hleaf₂, if_neg (not_not.mpr hvalid), if_pos hleaf]

/-- A leaf is an entry that is in use. -/
theorem valid_of_leafAt {size entry : Nat} (h : leafAt m root va = some (size, entry)) :
    Valid entry := by
  unfold leafAt at h
  dsimp only at h
  split at h
  · cases h
  next hvalid₂ =>
  split at h
  · cases h
    exact not_not.mp hvalid₂
  split at h
  · cases h
  next hvalid₁ =>
  split at h
  · cases h
    exact not_not.mp hvalid₁
  split at h
  · cases h
  next hvalid₀ =>
  cases h
  exact not_not.mp hvalid₀

theorem leafPte_eq_zero_iff : leafPte m root va = 0 ↔ leafAt m root va = none := by
  rw [leafPte_eq_leafAt]
  rcases hleaf : leafAt m root va with _ | ⟨size, entry⟩
  · exact iff_of_true rfl rfl
  · refine iff_of_false (fun hzero => ?_) (Option.some_ne_none _)
    exact not_valid_zero (hzero ▸ valid_of_leafAt hleaf)

/-! ## Trees -/

/-- The tables of a root are held, and each of them is at one place. -/
structure Tree (m : Usage) (root : Nat) : Prop extends Leveled m (· = root) where
  unique : ∀ {path path' table}, TableAt m root path table → TableAt m root path' table → path = path'

/-- A page is a table of the root. -/
def IsTable (m : Usage) (root page : Nat) : Prop := ∃ path, TableAt m root path page

/-- Going from `m` to `m'` changed tables of the root only, or made new ones. -/
structure DataKept (m m' : Usage) (root : Nat) : Prop where
  region : BuddyAllocator.SameRegion m.allocator m'.allocator
  held : ∀ {q}, m.HasPage q → m'.HasPage q
  pages : ∀ q, (m'.Taken q ∧ ¬ IsTable m' root q) ↔ (m.Taken q ∧ ¬ IsTable m root q)
  words : ∀ q x, m.Taken q → ¬ IsTable m root q → InPage q x → m'.read x = m.read x
  tables : ∀ {path table}, TableAt m root path table → TableAt m' root path table

namespace DataKept

theorem refl (m : Usage) (root : Nat) : DataKept m m root :=
  ⟨.refl _, id, fun _ => Iff.rfl, fun _ _ _ _ _ => rfl, id⟩

theorem trans (h : DataKept m m' root) (h' : DataKept m' m'' root) : DataKept m m'' root := by
  refine ⟨h.region.trans h'.region, fun hq => h'.held (h.held hq),
    fun q => (h'.pages q).trans (h.pages q), fun q x hq htable hx => ?_,
    fun htable => h'.tables (h.tables htable)⟩
  obtain ⟨hq', htable'⟩ := (h.pages q).mpr ⟨hq, htable⟩
  rw [h'.words q x hq' htable' hx, h.words q x hq htable hx]

end DataKept

namespace Tree

variable (h : Tree m root)

include h

theorem not_isTable_of_takes (htakes : Takes m m' page) : ¬ IsTable m root page := by
  rintro ⟨path, htable⟩
  exact htakes.unused (h.held rfl htable)

/-! ## A new table -/

section Link

variable {parent : Nat} (hparent : TableAt m root path parent) (hi : i < 512)
  (htakes : Takes m m' page) (hlen : path.length < 2) (hunused : ¬ Valid (pteRead m parent i))
  (hzero : ∀ x, InPage page x → m'.read x = 0)

include hparent hi htakes hlen hunused hzero

theorem link_iff {path' : List Nat} {q : Nat} :
    TableAt (pteWrite m' parent i (pte page pteV)) root path' q ↔
      TableAt m root path' q ∨ (path' = i :: path ∧ q = page) := by
  rw [h.link_tableAt rfl hparent hi htakes hlen hunused hzero rfl]
  refine or_congr_right ⟨?_, ?_⟩
  · rintro ⟨path₀, rfl, hparent', rfl⟩
    exact ⟨by rw [h.unique hparent' hparent], rfl⟩
  · rintro ⟨rfl, rfl⟩
    exact ⟨path, rfl, hparent, rfl⟩

theorem link : Tree (pteWrite m' parent i (pte page pteV)) root := by
  refine ⟨h.toLeveled.link rfl hparent hi htakes hlen hunused hzero, fun htable htable' => ?_⟩
  have hiff := fun {path' : List Nat} {q : Nat} =>
    (h.link_iff hparent hi htakes hlen hunused hzero : TableAt _ root path' q ↔ _)
  rcases hiff.mp htable with hold | ⟨rfl, rfl⟩
  · rcases hiff.mp htable' with hold' | ⟨-, rfl⟩
    · exact h.unique hold hold'
    · exact absurd ⟨_, hold⟩ (h.not_isTable_of_takes htakes)
  · rcases hiff.mp htable' with hold' | ⟨rfl, -⟩
    · exact absurd ⟨_, hold'⟩ (h.not_isTable_of_takes htakes)
    · rfl

theorem dataKept_link : DataKept m (pteWrite m' parent i (pte page pteV)) root := by
  refine ⟨htakes.region, fun hq => (htakes.pages _).mpr (.inr hq), fun q => ?_,
    fun q x hq htable hx => ?_,
    fun htable => (h.link_iff hparent hi htakes hlen hunused hzero).mpr (.inl htable)⟩
  · have hsame : IsTable (pteWrite m' parent i (pte page pteV)) root q ↔
        IsTable m root q ∨ q = page := by
      constructor
      · rintro ⟨path', htable⟩
        exact ((h.link_iff hparent hi htakes hlen hunused hzero).mp htable).imp
          (fun hold => ⟨path', hold⟩) And.right
      · rintro (⟨path', htable⟩ | rfl)
        · exact ⟨path', (h.link_iff hparent hi htakes hlen hunused hzero).mpr (.inl htable)⟩
        · exact ⟨_, (h.link_iff hparent hi htakes hlen hunused hzero).mpr (.inr ⟨rfl, rfl⟩)⟩
    rw [hsame]
    change m'.Taken q ∧ _ ↔ _
    rw [htakes.taken, not_or]
    constructor
    · rintro ⟨rfl | hq, htable, hne⟩
      · exact absurd rfl hne
      · exact ⟨hq, htable⟩
    · rintro ⟨hq, htable⟩
      refine ⟨.inr hq, htable, ?_⟩
      rintro rfl
      exact htakes.unused hq
  · rw [← htakes.frame q x hq hx]
    refine Function.update_of_ne ?_ _ _
    rintro rfl
    have hsame := hq.eq_of_inPage (h.held rfl hparent) hx (inPage_entry hi)
    exact htable ⟨path, hsame ▸ hparent⟩

end Link

/-! ## Writing an entry of a table -/

/-- Writing an entry of a table that leaves the tables where they are. -/
theorem dataKept_write {value : Nat} (htable : TableAt m root path table) (hi : i < 512)
    (hsame : ∀ {path q}, TableAt (pteWrite m table i value) root path q ↔ TableAt m root path q) :
    DataKept m (pteWrite m table i value) root := by
  refine ⟨.refl _, id, fun q => ?_, fun q x hq hdata hx => ?_, fun htable => hsame.mpr htable⟩
  · exact and_congr Iff.rfl (not_congr (exists_congr fun _ => hsame))
  · refine Function.update_of_ne ?_ _ _
    rintro rfl
    have heq := hq.eq_of_inPage (h.held rfl htable) hx (inPage_entry hi)
    exact hdata ⟨path, heq ▸ htable⟩

section Low

variable {low : Nat} (value : Nat) (hlow : TableAt m root [l1Index va, l2Index va] low)

include hlow

theorem writeLow_iff {q : Nat} :
    TableAt (pteWrite m low (l0Index va) value) root path q ↔ TableAt m root path q :=
  h.low_tableAt value rfl hlow rfl (l0Index_lt va) rfl

theorem writeLow : Tree (pteWrite m low (l0Index va) value) root :=
  ⟨h.toLeveled.writeLow value rfl hlow rfl (l0Index_lt va), fun htable htable' =>
    h.unique ((h.writeLow_iff value hlow).mp htable) ((h.writeLow_iff value hlow).mp htable')⟩

theorem low_ends_iff (x : Nat) : Ends m root x low (l0Index va) ↔ vpn x = vpn va := by
  constructor
  · rintro ⟨htable, hindex⟩
    have hpath := h.unique htable hlow
    simp only [List.cons.injEq, and_true] at hpath
    simp only [vpn, hpath.1, hpath.2, hindex]
  · intro hvpn
    simp only [vpn, Prod.mk.injEq] at hvpn
    exact ⟨by rw [hvpn.1, hvpn.2.1]; exact hlow, hvpn.2.2.symm⟩

/-- Only the leaf of one page changes. -/
theorem leafAt_writeLow (x : Nat) :
    leafAt (pteWrite m low (l0Index va) value) root x =
      if vpn x = vpn va then if Valid value then some (4096, value) else none
      else leafAt m root x := by
  by_cases hvpn : vpn x = vpn va
  · rw [if_pos hvpn]
    exact h.low_leafAt_self value rfl hlow rfl (l0Index_lt va) rfl ((h.low_ends_iff hlow x).mpr hvpn)
  · rw [if_neg hvpn]
    exact h.low_leafAt_other value rfl hlow rfl (l0Index_lt va) rfl
      fun hends => hvpn ((h.low_ends_iff hlow x).mp hends)

end Low

section Mid

variable {mid value : Nat} (hmid : TableAt m root [l2Index va] mid)
  (hunused : ¬ Valid (pteRead m mid (l1Index va))) (hvalid : Valid value) (hleaf : Leaf value)

include hmid

theorem mid_read {q j : Nat} (hq : m.Taken q) (hj : j < 512) (hne : ¬ (q = mid ∧ j = l1Index va)) :
    pteRead (pteWrite m mid (l1Index va) value) q j = pteRead m q j :=
  pteRead_pteWrite_of_taken (h.held rfl hmid) hq (l1Index_lt va) hj hne

include hunused hleaf

theorem writeMid_iff {q : Nat} :
    TableAt (pteWrite m mid (l1Index va) value) root path q ↔ TableAt m root path q := by
  refine ⟨fun htable => ?_, fun htable => ?_⟩
  · induction htable with
    | top => exact .top
    | @down path table j _ hlen hj hvalid' hleaf' ih =>
      by_cases hsame : table = mid ∧ j = l1Index va
      · obtain ⟨rfl, rfl⟩ := hsame
        rw [pteRead_pteWrite_self] at hleaf'
        exact absurd hleaf hleaf'
      · rw [h.mid_read hmid (h.held rfl ih) hj hsame] at hvalid' hleaf' ⊢
        exact .down ih hlen hj hvalid' hleaf'
  · refine tableAt_mono (fun htable' _ hj hvalid' => ?_) htable
    refine h.mid_read hmid (h.held rfl htable') hj ?_
    rintro ⟨rfl, rfl⟩
    exact hunused hvalid'

theorem writeMid : Tree (pteWrite m mid (l1Index va) value) root := by
  have hiff := fun {path : List Nat} {q : Nat} =>
    (h.writeMid_iff hmid hunused hleaf : TableAt _ root path q ↔ _)
  refine ⟨⟨h.sound.writeTaken (h.held rfl hmid) (inPage_entry (l1Index_lt va)), h.small, ?_, ?_⟩,
    fun htable htable' => h.unique (hiff.mp htable) (hiff.mp htable')⟩
  · rintro r path table rfl htable
    exact h.held rfl (hiff.mp htable)
  · rintro r r' path path' table rfl rfl htable htable'
    exact h.level rfl rfl (hiff.mp htable) (hiff.mp htable')

include hvalid

/-- The leaves of one large page change. -/
theorem leafAt_writeMid (x : Nat) :
    leafAt (pteWrite m mid (l1Index va) value) root x =
      if l2Index x = l2Index va ∧ l1Index x = l1Index va then some (superPage, value)
      else leafAt m root x := by
  by_cases hsame : l2Index x = l2Index va ∧ l1Index x = l1Index va
  · rw [if_pos hsame]
    have hmid' : TableAt (pteWrite m mid (l1Index va) value) root [l2Index x] mid := by
      rw [hsame.1]
      exact (h.writeMid_iff hmid hunused hleaf).mpr hmid
    have hread : pteRead (pteWrite m mid (l1Index va) value) mid (l1Index x) = value := by
      rw [hsame.2, pteRead_pteWrite_self]
    rw [leafAt_mid hmid' (by rwa [hread]) (by rwa [hread]), hread]
  · rw [if_neg hsame]
    refine leafAt_congr fun path table j hvisits => .inl ?_
    refine h.mid_read hmid (h.held rfl hvisits.1) hvisits.lt ?_
    rintro ⟨rfl, rfl⟩
    have hpath := h.unique hvisits.1 hmid
    obtain ⟨-, ⟨rfl, -⟩ | ⟨hone, hindex⟩ | ⟨htwo, -⟩⟩ := hvisits
    · cases hpath
    · rw [hpath] at hone
      exact hsame ⟨by simpa using hone.symm, hindex.symm⟩
    · rw [htwo] at hpath
      simp at hpath

end Mid

end Tree

/-! ## The level-0 table of an address -/

/-- Find or make the level-0 table of an address, as the functions that map a page do. -/
def lowTable (m : Usage) (root vaddr : Nat) : Outcome Usage Unit Nat :=
  (ensureTable m root (l2Index vaddr)).andThen fun l1 m => ensureTable m l1 (l1Index vaddr)

theorem map4k_eq (m : Usage) (root va paddr flags : Nat) :
    map4k m root va paddr flags = (lowTable m root va).andThen fun low m =>
      some (.ok (), pteWrite m low (l0Index va) (pte paddr flags)) := by
  unfold map4k lowTable
  rcases ensureTable m root (l2Index va) with _ | ⟨_ | l1, m₁⟩
  · rfl
  · rfl
  · rfl

theorem mapUserLeaf_eq (m : Usage) (root va paddr flags : Nat) :
    mapUserLeaf m root va paddr flags = (lowTable m root va).andThen fun low m =>
      if Valid (pteRead m low (l0Index va)) then some (.error (), m)
      else some (.ok (), pteWrite m low (l0Index va) (pte paddr (flags ||| pteU))) := by
  unfold mapUserLeaf lowTable
  simp only [ensureTableUser_eq]
  rcases ensureTable m root (l2Index va) with _ | ⟨_ | l1, m₁⟩
  · rfl
  · rfl
  · rfl

/-- The places of the tables on the way to an address. -/
def tablesAt (va : Nat) : Finset (List Nat) := {[l2Index va], [l1Index va, l2Index va]}

/-! ## What a tree looks like -/

/-- The places of the tables of a root, the leaf of every address, and the number of tables that there
are when every free page is one. -/
structure Shaped (m : Usage) (root total : Nat) (paths : Finset (List Nat))
    (leaf : Nat → Option (Nat × Nat)) : Prop where
  tree : Tree m root
  places : ∀ path, path ∈ paths ↔ ∃ table, TableAt m root path table
  leaves : ∀ va, leafAt m root va = leaf va
  room : ∃ n, m.HasFree n ∧ n + paths.card = total

theorem TableAt.path_le (h : TableAt m root path table) :
    path.length ≤ 2 ∧ ∀ i ∈ path, i < 512 := by
  induction h with
  | top => exact ⟨Nat.zero_le _, nofun⟩
  | down _ hlen hi _ _ ih =>
    refine ⟨hlen, fun j hj => ?_⟩
    rcases List.mem_cons.mp hj with rfl | hj
    · exact hi
    · exact ih.2 j hj

/-- Every tree looks like something. -/
theorem Tree.exists_shaped (h : Tree m root) :
    ∃ total paths, Shaped m root total paths (leafAt m root) := by
  have hfinite : {path | ∃ table, TableAt m root path table}.Finite := by
    refine ((List.finite_length_le (Fin 512) 2).image (List.map Fin.val)).subset ?_
    rintro path ⟨table, htable⟩
    obtain ⟨hlen, hlt⟩ := TableAt.path_le htable
    refine ⟨path.pmap (fun i hi => ⟨i, hi⟩) hlt, by simpa using hlen, ?_⟩
    rw [List.map_pmap]
    simp
  obtain ⟨n, hn⟩ := h.sound.exists_hasFree
  exact ⟨_, hfinite.toFinset, h, fun path => by simp, fun _ => rfl, n, hn, rfl⟩

namespace Shaped

variable {total : Nat} {paths : Finset (List Nat)} {leaf : Nat → Option (Nat × Nat)}
  (h : Shaped m root total paths leaf)

include h

theorem card_le : paths.card ≤ total := by
  obtain ⟨n, -, hn⟩ := h.room
  omega

/-- Finding or making a table: it fails at a leaf, and when there is no page for it. -/
theorem ensureTable {parent : Nat} (hparent : TableAt m root path parent) (hlen : path.length < 2)
    (hi : i < 512) :
    if Valid (pteRead m parent i) ∧ Leaf (pteRead m parent i) ∨ total < (insert (i :: path) paths).card
    then Mmu.ensureTable m parent i = some (.error (), m)
    else ∃ child t, Mmu.ensureTable m parent i = some (.ok child, t) ∧
      Shaped t root total (insert (i :: path) paths) leaf ∧ TableAt t root (i :: path) child ∧
      DataKept m t root := by
  by_cases hvalid : Valid (pteRead m parent i)
  · by_cases hleaf : Leaf (pteRead m parent i)
    · rw [if_pos (.inl ⟨hvalid, hleaf⟩)]
      simp only [Mmu.ensureTable, if_pos hvalid, if_pos hleaf]
    · have hchild := TableAt.down hparent hlen hi hvalid hleaf
      have hmem : insert (i :: path) paths = paths :=
        Finset.insert_eq_self.mpr ((h.places _).mpr ⟨_, hchild⟩)
      have hcard := h.card_le
      rw [hmem, if_neg (by simp only [hleaf, and_false, false_or]; omega)]
      exact ⟨_, m, ensureTable_of_tableAt hparent hchild, h, hchild, .refl m root⟩
  have hnew : i :: path ∉ paths := by
    rw [h.places]
    rintro ⟨child, hchild⟩
    cases hchild with
    | down hparent' _ _ hvalid' =>
      obtain rfl := tableAt_unique hparent hparent'
      exact hvalid hvalid'
  have hcard := Finset.card_insert_of_notMem hnew
  obtain ⟨n, hfree, hn⟩ := h.room
  cases n with
  | zero =>
    rw [if_pos (.inr (by omega))]
    simp only [Mmu.ensureTable, if_neg hvalid, h.tree.sound.allocPages_zero hfree]
  | succ n =>
    rw [if_neg (by simp only [hvalid, false_and, false_or]; omega)]
    obtain ⟨page, t, halloc, htakes, hfree'⟩ := h.tree.sound.allocPages_succ hfree
    have hpage : t.HasPage page := (htakes.pages page).mpr (.inl rfl)
    have hzero : ∀ x, InPage page x → (t.zeroPage page).read x = 0 := fun _ hx =>
      Usage.read_zeroPage_of_inPage hx
    have hiff := fun {path' : List Nat} {q : Nat} =>
      (h.tree.link_iff hparent hi htakes.zeroed hlen hvalid hzero : TableAt _ root path' q ↔ _)
    refine ⟨page, pteWrite (t.zeroPage page) parent i (pte page pteV), ?_,
      ⟨h.tree.link hparent hi htakes.zeroed hlen hvalid hzero, fun path' => ?_, fun va => ?_, n, ?_, ?_⟩,
      hiff.mpr (.inr ⟨rfl, rfl⟩), h.tree.dataKept_link hparent hi htakes.zeroed hlen hvalid hzero⟩
    · simp only [Mmu.ensureTable, if_neg hvalid, halloc]
    · rw [Finset.mem_insert, h.places]
      constructor
      · rintro (rfl | ⟨table, htable⟩)
        · exact ⟨page, hiff.mpr (.inr ⟨rfl, rfl⟩)⟩
        · exact ⟨table, hiff.mpr (.inl htable)⟩
      · rintro ⟨table, htable⟩
        exact (hiff.mp htable).elim (fun hold => .inr ⟨table, hold⟩) fun hnew => .inl hnew.1
    · rw [h.tree.link_leafAt rfl hparent hi htakes.zeroed hlen hvalid hzero rfl, h.leaves]
    · have hparent' : (t.zeroPage page).Taken parent :=
        (htakes.zeroed.taken _).mpr (.inr (h.tree.held rfl hparent))
      exact (htakes.zeroed.sound.hasFree_write hparent' (inPage_entry hi)).mpr
        ((htakes.sound.hasFree_zeroPage hpage).mpr hfree')
    · omega

/-- Writing an entry of a level-0 table. -/
theorem writeLow {low : Nat} (value : Nat) (hlow : TableAt m root [l1Index va, l2Index va] low) :
    Shaped (pteWrite m low (l0Index va) value) root total paths
      (fun x => if vpn x = vpn va then if Valid value then some (4096, value) else none else leaf x) ∧
      DataKept m (pteWrite m low (l0Index va) value) root := by
  refine ⟨⟨h.tree.writeLow value hlow, fun path => ?_, fun x => ?_, ?_⟩,
    h.tree.dataKept_write hlow (l0Index_lt va) (h.tree.writeLow_iff value hlow)⟩
  · rw [h.places]
    exact exists_congr fun _ => (h.tree.writeLow_iff value hlow).symm
  · rw [h.tree.leafAt_writeLow value hlow, h.leaves]
  · obtain ⟨n, hfree, hn⟩ := h.room
    exact ⟨n, (h.tree.sound.hasFree_write (h.tree.held rfl hlow) (inPage_entry (l0Index_lt va))).mpr
      hfree, hn⟩

/-- Writing an unused entry of a level-1 table. -/
theorem writeMid {mid value : Nat} (hmid : TableAt m root [l2Index va] mid)
    (hunused : ¬ Valid (pteRead m mid (l1Index va))) (hvalid : Valid value) (hleaf : Leaf value) :
    Shaped (pteWrite m mid (l1Index va) value) root total paths
      (fun x => if l2Index x = l2Index va ∧ l1Index x = l1Index va then some (superPage, value)
        else leaf x) ∧
      DataKept m (pteWrite m mid (l1Index va) value) root := by
  refine ⟨⟨h.tree.writeMid hmid hunused hleaf, fun path => ?_, fun x => ?_, ?_⟩,
    h.tree.dataKept_write hmid (l1Index_lt va) (h.tree.writeMid_iff hmid hunused hleaf)⟩
  · rw [h.places]
    exact exists_congr fun _ => (h.tree.writeMid_iff hmid hunused hleaf).symm
  · rw [h.tree.leafAt_writeMid hmid hunused hvalid hleaf, h.leaves]
  · obtain ⟨n, hfree, hn⟩ := h.room
    exact ⟨n, (h.tree.sound.hasFree_write (h.tree.held rfl hmid) (inPage_entry (l1Index_lt va))).mpr
      hfree, hn⟩

/-- An entry of the root that is a leaf maps the address. -/
theorem leaf_top (hvalid : Valid (pteRead m root (l2Index va)))
    (hleaf : Leaf (pteRead m root (l2Index va))) :
    leaf va = some (1 <<< 30, pteRead m root (l2Index va)) := by
  rw [← h.leaves, leafAt]
  dsimp only
  rw [if_neg (not_not.mpr hvalid), if_pos hleaf]

theorem leaf_mid {mid : Nat} (hmid : TableAt m root [l2Index va] mid)
    (hvalid : Valid (pteRead m mid (l1Index va))) (hleaf : Leaf (pteRead m mid (l1Index va))) :
    leaf va = some (superPage, pteRead m mid (l1Index va)) := by
  rw [← h.leaves, leafAt_mid hmid hvalid hleaf]

/-- Finding or making the level-0 table of an address that no large page maps. -/
theorem lowTable (hsmall : ∀ size entry, leaf va = some (size, entry) → size = 4096) :
    if (paths ∪ tablesAt va).card ≤ total then
      ∃ low t, Mmu.lowTable m root va = some (.ok low, t) ∧
        Shaped t root total (paths ∪ tablesAt va) leaf ∧
        TableAt t root [l1Index va, l2Index va] low ∧ DataKept m t root
    else ∃ t paths', Mmu.lowTable m root va = some (.error (), t) ∧
      Shaped t root total paths' leaf ∧ DataKept m t root := by
  have hpaths : paths ∪ tablesAt va = insert [l1Index va, l2Index va] (insert [l2Index va] paths) := by
    ext path
    simp only [tablesAt, Finset.mem_union, Finset.mem_insert, Finset.mem_singleton]
    tauto
  rw [hpaths]
  have htop : ¬ (Valid (pteRead m root (l2Index va)) ∧ Leaf (pteRead m root (l2Index va))) :=
    fun ⟨hvalid, hleaf⟩ => absurd (hsmall _ _ (h.leaf_top hvalid hleaf)) (by decide)
  have hfirst := h.ensureTable .top (by simp) (l2Index_lt va)
  simp only [htop, false_or] at hfirst
  have hmono : (insert [l2Index va] paths).card ≤
      (insert [l1Index va, l2Index va] (insert [l2Index va] paths)).card :=
    Finset.card_le_card (Finset.subset_insert _ _)
  split at hfirst
  · rw [if_neg (by omega)]
    refine ⟨m, paths, ?_, h, .refl m root⟩
    rw [Mmu.lowTable, hfirst]
    rfl
  obtain ⟨mid, t₁, htable₁, h₁, hmid, hkept₁⟩ := hfirst
  have hmidLeaf : ¬ (Valid (pteRead t₁ mid (l1Index va)) ∧ Leaf (pteRead t₁ mid (l1Index va))) :=
    fun ⟨hvalid, hleaf⟩ => absurd (hsmall _ _ (h₁.leaf_mid hmid hvalid hleaf)) (by decide)
  have hsecond := h₁.ensureTable hmid (by simp) (l1Index_lt va)
  simp only [hmidLeaf, false_or] at hsecond
  split at hsecond
  · rw [if_neg (by omega)]
    refine ⟨t₁, _, ?_, h₁, hkept₁⟩
    rw [Mmu.lowTable, htable₁, Outcome.andThen_ok, hsecond]
  obtain ⟨low, t₂, htable₂, h₂, hlow, hkept₂⟩ := hsecond
  rw [if_pos (by omega)]
  refine ⟨low, t₂, ?_, h₂, hlow, hkept₁.trans hkept₂⟩
  rw [Mmu.lowTable, htable₁, Outcome.andThen_ok, htable₂]

end Shaped

end Ignium.Mmu
