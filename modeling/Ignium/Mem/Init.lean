import Ignium.Mem.Ops

/-!
# Building the free lists

`init` works through the region from its first page to its last. `Building a free dead next`
describes it on the way: the pages below `next` are on the lists or were carved out as the
blocks `dead`, the pages from `next` on are untouched. `init_building` describes the result for
every list of reserved intervals: the free lists hold each page exactly once, apart from the
pages that `carve` recognises as reserved. Those are not all reserved pages, because `carve`
asks first whether an interval overlaps the block only in part, and an interval that contains
the block does not count as an overlap (`Carved`).
-/

namespace Ignium.Mem

open Blocks Intrusive
open BuddyAllocator

/-! ## Pages not yet reached -/

/-- The pages from `s` up to `e`, as blocks of one page. -/
def pages (s e : Nat) : List Block := (List.range' s (e - s)).map fun p => ⟨p, 0⟩

theorem mem_pages {s e : Nat} {b : Block} : b ∈ pages s e ↔ b.order = 0 ∧ s ≤ b.idx ∧ b.idx < e := by
  simp only [pages, List.mem_map, List.mem_range'_1]
  constructor
  · rintro ⟨p, ⟨hlo, hhi⟩, rfl⟩
    exact ⟨rfl, hlo, by simp only; omega⟩
  · rintro ⟨horder, hlo, hhi⟩
    exact ⟨b.idx, ⟨hlo, by omega⟩, by cases b; simp_all⟩

theorem pages_eq_nil {s e : Nat} (h : e ≤ s) : pages s e = [] := by
  simp [pages, Nat.sub_eq_zero_of_le h]

theorem pages_cons {s e : Nat} (h : s < e) : pages s e = ⟨s, 0⟩ :: pages (s + 1) e := by
  obtain ⟨m, rfl⟩ := Nat.exists_eq_add_of_lt h
  rw [pages, pages, show s + m + 1 - s = m + 1 by omega, show s + m + 1 - (s + 1) = m by omega,
    List.range'_succ, List.map_cons]

theorem cover_pages {s e p : Nat} : cover (pages s e) p = if s ≤ p ∧ p < e then 1 else 0 := by
  by_cases hlt : s < e
  · have hpage : p ∈ (⟨s, 0⟩ : Block) ↔ p = s := by
      simp only [Block.mem_def, Block.stop]
      omega
    rw [pages_cons hlt, cover_cons, cover_pages (s := s + 1)]
    simp only [hpage]
    split <;> split <;> split <;> omega
  · rw [pages_eq_nil (by omega), cover_nil, if_neg (by omega)]
termination_by e - s

/-! ## The scan of the reserved intervals -/

section Scan

variable {reserved : List (Nat × Nat)} {s e s' e' : Nat} {found : Bool × Bool} {overlap : Bool}

/-- A page lies in some reserved interval. -/
def Reserved (reserved : List (Nat × Nat)) (p : Nat) : Prop :=
  ∃ r ∈ reserved, r.1 ≤ p ∧ p < r.2

instance (reserved : List (Nat × Nat)) (p : Nat) : Decidable (Reserved reserved p) :=
  inferInstanceAs (Decidable (∃ r ∈ reserved, _))

/-- A block that the scan finds inside an interval has only reserved pages. -/
theorem reserved_of_scan (h : (scan s e reserved overlap).1 = true) {p : Nat} (hlo : s ≤ p)
    (hhi : p < e) : Reserved reserved p := by
  induction reserved generalizing overlap with
  | nil => simp [scan] at h
  | cons r rest ih =>
    obtain ⟨rs, re⟩ := r
    rw [scan] at h
    split at h
    · next hin => exact ⟨(rs, re), by simp, by simp only; omega, by simp only; omega⟩
    · obtain ⟨r, hr, hmem⟩ := ih h
      exact ⟨r, by simp [hr], hmem⟩

/-- Once an overlap is seen it stays seen. -/
theorem scan_overlap : (scan s e reserved true).2 = true := by
  induction reserved with
  | nil => rfl
  | cons r rest ih =>
    rw [scan]
    split
    · rfl
    · simpa using ih

/-- If no interval before the first one that contains a block overlaps it, then none overlaps a
part of the block before the first one that contains the part. -/
theorem scan_part (h : (scan s e reserved false).2 = false) (hs : s ≤ s') (hlt : s' < e')
    (he : e' ≤ e) : scan s' e' reserved false ≠ (true, true) := by
  induction reserved with
  | nil => simp [scan]
  | cons r rest ih =>
    obtain ⟨rs, re⟩ := r
    rw [scan] at h ⊢
    by_cases hin : s ≥ rs ∧ e ≤ re
    · rw [if_pos (by omega)]
      simp
    · rw [if_neg hin] at h
      by_cases hover : e > rs ∧ s < re
      · simp [hover, scan_overlap] at h
      · rw [if_neg (by omega)]
        simp only [hover, decide_false, Bool.or_false] at h
        have hover' : ¬ (e' > rs ∧ s' < re) := by omega
        simp only [hover', decide_false, Bool.or_false]
        exact ih h

/-- A single page is inside every interval it overlaps. -/
theorem scan_page : scan s (s + 1) reserved false ≠ (false, true) := by
  induction reserved with
  | nil => simp [scan]
  | cons r rest ih =>
    obtain ⟨rs, re⟩ := r
    rw [scan]
    by_cases hin : s ≥ rs ∧ s + 1 ≤ re
    · rw [if_pos hin]
      simp
    · have hover : ¬ (s + 1 > rs ∧ s < re) := by omega
      simp only [if_neg hin, hover, decide_false, Bool.or_false]
      exact ih

end Scan

/-- `carve` takes a page of a region of `n` pages for reserved: some aligned block around it lies
inside an interval and overlaps another one that is listed earlier. -/
def Carved (reserved : List (Nat × Nat)) (n order p : Nat) : Prop :=
  ∃ b : Block, b.Aligned ∧ b.order ≤ order ∧ p ∈ b ∧ b.stop ≤ n ∧
    scan b.idx b.stop reserved false = (true, true)

section Carved

variable {reserved : List (Nat × Nat)} {n order i p : Nat}

theorem reserved_of_carved (h : Carved reserved n order p) : Reserved reserved p := by
  obtain ⟨b, -, -, hmem, -, hscan⟩ := h
  exact reserved_of_scan (by rw [hscan]) hmem.1 hmem.2

/-- In a block whose own scan does not settle it, only the smaller blocks count. -/
theorem carved_succ (halign : 2 ^ (order + 1) ∣ i) (hp : p ∈ (⟨i, order + 1⟩ : Block))
    (hopen : i + 2 ^ (order + 1) > n ∨
      scan i (i + 2 ^ (order + 1)) reserved false ≠ (true, true)) :
    Carved reserved n (order + 1) p ↔ Carved reserved n order p := by
  constructor
  · rintro ⟨b, hb, horder, hmem, hstop, hscan⟩
    refine ⟨b, hb, ?_, hmem, hstop, hscan⟩
    by_contra hgt
    have heq : b = ⟨i, order + 1⟩ :=
      Block.eq_of_mem hb halign (Nat.le_antisymm horder (Nat.lt_of_not_le hgt)) hmem hp
    subst heq
    rcases hopen with hlong | hother
    · exact absurd hstop (Nat.not_le.mpr hlong)
    · exact hother hscan
  · rintro ⟨b, hb, horder, hrest⟩
    exact ⟨b, hb, by omega, hrest⟩

/-- In a block that the scan finds free of partial overlaps, no page is carved. -/
theorem not_carved (halign : 2 ^ order ∣ i) (hp : p ∈ (⟨i, order⟩ : Block))
    (hscan : (scan i (i + 2 ^ order) reserved false).2 = false) :
    ¬ Carved reserved n order p := by
  rintro ⟨b, hb, horder, hmem, -, hboth⟩
  obtain ⟨hlow, hhigh⟩ := Block.bounds_of_mem (b := ⟨i, order⟩) halign hb horder hmem hp
  exact scan_part hscan hlow (Nat.lt_add_of_pos_right (Nat.two_pow_pos _)) hhigh hboth

end Carved

/-! ## The invariant of the construction -/

/-- The region while `init` works on it: the pages below `next` are on the lists or carved out
as `dead`, the pages from `next` on are untouched. -/
structure Building (reserved : List (Nat × Nat)) (a : BuddyAllocator) (free : Nat → List Nat)
    (dead : List Block) (next : Nat) : Prop where
  shape : Shape a free (dead ++ pages next a.realCount)
  dead_meta : ∀ b ∈ dead, a.pageMeta b.idx = ⟨255, true⟩
  dead_carved : ∀ b ∈ dead, ∀ p ∈ b, Carved reserved a.realCount maxOrder p
  free_uncarved : ∀ b ∈ freeBlocks free, ∀ p ∈ b, ¬ Carved reserved a.realCount maxOrder p
  unused : ∀ p < a.realCount, (a.pageMeta p).used = true → (a.pageMeta p).order = 255

namespace Building

variable {reserved : List (Nat × Nat)} {a : BuddyAllocator} {free : Nat → List Nat}
  {dead : List Block} {i k : Nat}

section

variable (h : Building reserved a free dead i)
include h

/-- The untouched pages of a block may be seen as that block. -/
theorem takeBlock (halign : 2 ^ k ∣ i) (hk : k ≤ maxOrder) (hfit : i + 2 ^ k ≤ a.realCount) :
    Shape a free (⟨i, k⟩ :: (dead ++ pages (i + 2 ^ k) a.realCount)) := by
  have htiling := h.shape.tiling
  refine h.shape.retile ⟨fun p => ?_, fun b hb => ?_, fun b hb => ?_⟩
  · have hcover := htiling.cover_eq p
    simp only [cover_append, cover_cons, cover_pages, Block.mem_def, Block.stop] at hcover ⊢
    have hpos := Nat.two_pow_pos k
    rw [← hcover]
    split_ifs <;> omega
  · simp only [List.mem_append, List.mem_cons, mem_pages] at hb
    rcases hb with hb | rfl | hb | hb
    · exact htiling.aligned b (by simp [hb])
    · exact halign
    · exact htiling.aligned b (by simp [hb])
    · simp [Block.Aligned, hb.1]
  · simp only [List.mem_append, List.mem_cons, mem_pages] at hb
    rcases hb with hb | rfl | hb | hb
    · exact htiling.order_le b (by simp [hb])
    · exact hk
    · exact htiling.order_le b (by simp [hb])
    · omega

/-- Pushing the next block. -/
theorem push (halign : 2 ^ k ∣ i) (hk : k ≤ maxOrder) (hfit : i + 2 ^ k ≤ a.realCount)
    (hcarved : ∀ p ∈ (⟨i, k⟩ : Block), ¬ Carved reserved a.realCount maxOrder p) :
    Building reserved (a.push i k) (Function.update free k (i :: free k)) dead (i + 2 ^ k) where
  shape := (h.takeBlock halign hk hfit).push
  dead_meta b hb := by
    have hne : b.idx ≠ i := (h.takeBlock halign hk hfit).idx_ne_of_mem (by simp [hb])
    rw [pageMeta_push, Function.update_of_ne hne]
    exact h.dead_meta b hb
  dead_carved := h.dead_carved
  free_uncarved b hb := by
    rw [(freeBlocks_cons_perm hk).mem_iff, List.mem_cons] at hb
    rcases hb with rfl | hb
    · exact hcarved
    · exact h.free_uncarved b hb
  unused p hp hused := by
    rw [pageMeta_push] at hused ⊢
    by_cases hsame : p = i
    · subst hsame
      rw [Function.update_self] at hused
      cases hused
    · rw [Function.update_of_ne hsame] at hused ⊢
      exact h.unused p hp hused

/-- Marking the next block as taken for ever. -/
theorem reserve (halign : 2 ^ k ∣ i) (hk : k ≤ maxOrder) (hfit : i + 2 ^ k ≤ a.realCount)
    (hcarved : ∀ p ∈ (⟨i, k⟩ : Block), Carved reserved a.realCount maxOrder p) :
    Building reserved (a.setMeta i 255 true) free (⟨i, k⟩ :: dead) (i + 2 ^ k) where
  shape := (h.takeBlock halign hk hfit).setMeta
  dead_meta b hb := by
    rw [pageMeta_setMeta]
    rcases List.mem_cons.mp hb with rfl | hb
    · exact Function.update_self _ _ _
    · have hne : b.idx ≠ i := (h.takeBlock halign hk hfit).idx_ne_of_mem (by simp [hb])
      rw [Function.update_of_ne hne]
      exact h.dead_meta b hb
  dead_carved b hb := by
    rcases List.mem_cons.mp hb with rfl | hb
    · exact hcarved
    · exact h.dead_carved b hb
  free_uncarved := h.free_uncarved
  unused p hp hused := by
    rw [pageMeta_setMeta] at hused ⊢
    by_cases hsame : p = i
    · subst hsame
      rw [Function.update_self]
    · rw [Function.update_of_ne hsame] at hused ⊢
      exact h.unused p hp hused

/-- Nothing is left to do at the end of the region. -/
theorem skip {next : Nat} (hi : a.realCount ≤ i)
    (hnext : a.realCount ≤ next) : Building reserved a free dead next := by
  have hshape := h.shape
  rw [pages_eq_nil hi, ← pages_eq_nil hnext] at hshape
  exact { h with shape := hshape }

/-- At the end the lists and the carved blocks tile the region. -/
theorem done (hi : a.realCount ≤ i) : Shape a free dead := by
  have hshape := h.shape
  rwa [pages_eq_nil hi, List.append_nil] at hshape

end

end Building

/-! ## What `carve` does -/

section CarveEquations

variable {reserved : List (Nat × Nat)} {order idx : Nat} {a : BuddyAllocator}

theorem carve_beyond (h : a.realCount ≤ idx) : carve reserved order a idx = a := by
  rw [carve.eq_def, if_pos h]

/-- A block that ends inside the region is pushed or carved out, unless intervals overlap it only
in part. -/
theorem carve_whole (hfit : idx + 2 ^ order ≤ a.realCount)
    (hscan : scan idx (idx + 2 ^ order) reserved false ≠ (false, true)) :
    carve reserved order a idx =
      if (scan idx (idx + 2 ^ order) reserved false).2 then a.setMeta idx 255 true
      else a.push idx order := by
  have hpos := Nat.two_pow_pos order
  rw [carve.eq_def, if_neg (by omega), if_neg (by omega)]
  rcases hboth : scan idx (idx + 2 ^ order) reserved false with ⟨inside, overlap⟩
  rw [hboth] at hscan
  cases inside <;> cases overlap <;> simp_all

/-- Every other block is split. -/
theorem carve_split (hidx : idx < a.realCount)
    (hopen : idx + 2 ^ (order + 1) > a.realCount ∨
      scan idx (idx + 2 ^ (order + 1)) reserved false = (false, true)) :
    carve reserved (order + 1) a idx =
      carve reserved order (carve reserved order a idx) (idx + 2 ^ order) := by
  rw [carve.eq_def, if_neg (by omega)]
  by_cases hlong : idx + 2 ^ (order + 1) > a.realCount
  · rw [if_pos hlong]
  · rw [if_neg hlong, hopen.resolve_left hlong]
    rfl

end CarveEquations

namespace Building

variable {reserved : List (Nat × Nat)} {a : BuddyAllocator} {free : Nat → List Nat}
  {dead : List Block} {i order : Nat}

/-- Carving a block whose own scan settles it. -/
theorem carve_whole (h : Building reserved a free dead i) (halign : 2 ^ order ∣ i)
    (horder : order ≤ maxOrder) (hfit : i + 2 ^ order ≤ a.realCount)
    (hopen : ∀ p ∈ (⟨i, order⟩ : Block),
      Carved reserved a.realCount maxOrder p → Carved reserved a.realCount order p)
    (hscan : scan i (i + 2 ^ order) reserved false ≠ (false, true)) :
    ∃ free' dead', Building reserved (carve reserved order a i) free' dead' (i + 2 ^ order) ∧
      SameRegion a (carve reserved order a i) := by
  rw [Mem.carve_whole hfit hscan]
  cases hoverlap : (scan i (i + 2 ^ order) reserved false).2 with
  | false =>
    refine ⟨_, _, h.push halign horder hfit fun p hp hcarved => ?_, sameRegion_push⟩
    exact not_carved halign hp hoverlap (hopen p hp hcarved)
  | true =>
    refine ⟨_, _, h.reserve halign horder hfit fun p hp => ?_, ⟨rfl, rfl, rfl⟩⟩
    refine ⟨⟨i, order⟩, halign, horder, hp, hfit, ?_⟩
    change scan i (i + 2 ^ order) reserved false = (true, true)
    rcases hboth : scan i (i + 2 ^ order) reserved false with ⟨inside, overlap⟩
    rw [hboth] at hscan hoverlap
    cases inside <;> simp_all

/-- `carve` works through the pages of its block. The hypothesis `hopen` says that no larger
block around the block has been carved out. -/
theorem carve (h : Building reserved a free dead i) (halign : 2 ^ order ∣ i)
    (horder : order ≤ maxOrder)
    (hopen : ∀ p ∈ (⟨i, order⟩ : Block),
      Carved reserved a.realCount maxOrder p → Carved reserved a.realCount order p) :
    ∃ free' dead', Building reserved (carve reserved order a i) free' dead' (i + 2 ^ order) ∧
      SameRegion a (carve reserved order a i) := by
  induction order generalizing a free dead i with
  | zero =>
    by_cases hend : a.realCount ≤ i
    · rw [carve_beyond hend]
      exact ⟨free, dead, h.skip hend (by omega), SameRegion.refl a⟩
    · exact h.carve_whole halign horder (by rw [pow_zero]; omega) hopen scan_page
  | succ order ih =>
    by_cases hend : a.realCount ≤ i
    · rw [carve_beyond hend]
      exact ⟨free, dead, h.skip hend (by omega), SameRegion.refl a⟩
    by_cases hsplit : i + 2 ^ (order + 1) > a.realCount ∨
        scan i (i + 2 ^ (order + 1)) reserved false = (false, true)
    · have hlower : ∀ p ∈ (⟨i, order + 1⟩ : Block),
          Carved reserved a.realCount maxOrder p → Carved reserved a.realCount order p := by
        intro p hp hcarved
        refine (carved_succ halign hp (hsplit.imp_right fun hscan => ?_)).mp (hopen p hp hcarved)
        rw [hscan]
        decide
      obtain ⟨free₁, dead₁, hleft, hregion⟩ :=
        ih h (Block.Aligned.lower halign) (by omega)
          fun p hp => hlower p (Block.mem_succ.mpr (.inl hp))
      have hreal := hregion.2.1
      obtain ⟨free₂, dead₂, hright, hregion'⟩ :=
        ih hleft (Block.Aligned.upper halign) (by omega) fun p hp => by
          rw [hreal]
          exact hlower p (Block.mem_succ.mpr (.inr hp))
      rw [carve_split (by omega) hsplit]
      rw [show i + 2 ^ order + 2 ^ order = i + 2 ^ (order + 1) by rw [pow_succ]; omega] at hright
      exact ⟨free₂, dead₂, hright, hregion.trans hregion'⟩
    · rw [not_or, Nat.not_lt] at hsplit
      exact h.carve_whole halign horder hsplit.1 hopen hsplit.2

/-- The carve path works through the whole region. -/
theorem carveAll {count : Nat} (h : Building reserved a free dead i) (halign : 2 ^ maxOrder ∣ i)
    (hcount : a.realCount = count) :
    ∃ free' dead' next, Building reserved (carveAll reserved count i a) free' dead' next ∧
      count ≤ next ∧ SameRegion a (carveAll reserved count i a) := by
  fun_induction BuddyAllocator.carveAll reserved count i a generalizing free dead with
  | case1 i a hlt ih =>
    obtain ⟨free₁, dead₁, hcarve, hregion⟩ := h.carve halign le_rfl fun p _ hp => hp
    obtain ⟨free₂, dead₂, next, hrest, hnext, hregion'⟩ :=
      ih hcarve ((Nat.dvd_add_right halign).mpr (dvd_refl _)) (hregion.2.1.trans hcount)
    exact ⟨free₂, dead₂, next, hrest, hnext, hregion.trans hregion'⟩
  | case2 i a hge => exact ⟨free, dead, i, h, Nat.le_of_not_lt hge, SameRegion.refl a⟩

/-- The buddy of a block reaches beyond a region of `n` pages. -/
def Unpaired (n : Nat) (b : Block) : Prop :=
  b.order < maxOrder → n < buddy b.idx b.order + 2 ^ b.order

theorem unpaired_push {n : Nat} (horder : order ≤ maxOrder)
    (h : ∀ b ∈ freeBlocks free, Unpaired n b) (hi : Unpaired n ⟨i, order⟩) :
    ∀ b ∈ freeBlocks (Function.update free order (i :: free order)), Unpaired n b := by
  intro b hb
  rcases List.mem_cons.mp ((freeBlocks_cons_perm horder).mem_iff.mp hb) with rfl | hb
  · exact hi
  · exact h b hb

/-- The plain path first pushes the blocks of the largest order. -/
theorem pushWhole {count : Nat} (h : Building reserved a free dead i) (halign : 2 ^ maxOrder ∣ i)
    (hcount : a.realCount = count) (hcarved : ∀ p, ¬ Carved reserved count maxOrder p) :
    ∃ free', Building reserved (pushWhole count i a).2 free' dead (pushWhole count i a).1 ∧
      SameRegion a (pushWhole count i a).2 ∧ 2 ^ maxOrder ∣ (pushWhole count i a).1 ∧
      count < (pushWhole count i a).1 + 2 ^ maxOrder ∧
      ((∀ b ∈ freeBlocks free, Unpaired count b) → ∀ b ∈ freeBlocks free', Unpaired count b) := by
  fun_induction BuddyAllocator.pushWhole count i a generalizing free with
  | case1 i a hfit ih =>
    have hpush := h.push halign le_rfl (hcount ▸ hfit) fun p _ => hcount ▸ hcarved p
    obtain ⟨free', hbuild, hregion, hdvd, hlt, hunpaired⟩ :=
      ih hpush ((Nat.dvd_add_right halign).mpr (dvd_refl _)) hcount
    refine ⟨free', hbuild, sameRegion_push.trans hregion, hdvd, hlt,
      fun hfree => hunpaired (unpaired_push le_rfl hfree fun hlt => ?_)⟩
    exact absurd hlt (lt_irrefl _)
  | case2 i a hlong => exact ⟨free, h, SameRegion.refl a, halign, Nat.lt_of_not_le hlong, id⟩

/-- Then it pushes the tail. Each block is the largest that fits, so what is left after it is
smaller than the block. -/
theorem pushTail {count m : Nat} (h : Building reserved a free dead i) (halign : 2 ^ m ∣ i)
    (htail : count < i + 2 ^ m) (hm : m ≤ maxOrder) (hcount : a.realCount = count)
    (hcarved : ∀ p, ¬ Carved reserved count maxOrder p) :
    ∃ free' next, Building reserved (pushTail count i a) free' dead next ∧
      count ≤ next ∧ SameRegion a (pushTail count i a) ∧
      ((∀ b ∈ freeBlocks free, Unpaired count b) → ∀ b ∈ freeBlocks free', Unpaired count b) := by
  fun_induction BuddyAllocator.pushTail count i a generalizing free m with
  | case1 i a hlt order =>
    rename_i ih
    have hne : count - i ≠ 0 := by omega
    have hlog : (count - i).log2 < m := (Nat.log2_lt hne).mpr (by omega)
    have horder : order = (count - i).log2 := Nat.min_eq_left (by omega)
    have hlow : 2 ^ order ≤ count - i := horder ▸ Nat.log2_self_le hne
    have hhigh : count - i < 2 ^ (order + 1) := horder ▸ Nat.lt_log2_self
    have hdvd : 2 ^ order ∣ i := (pow_dvd_pow 2 (by omega)).trans halign
    have hpush := h.push hdvd (by omega) (by omega) fun p _ => hcount ▸ hcarved p
    rw [pow_succ] at hhigh
    obtain ⟨free', next, hbuild, hnext, hregion, hunpaired⟩ :=
      ih hpush ((Nat.dvd_add_right hdvd).mpr (dvd_refl _)) (by omega) (by omega) hcount
    refine ⟨free', next, hbuild, hnext, sameRegion_push.trans hregion,
      fun hfree => hunpaired (unpaired_push (by omega) hfree fun _ => ?_)⟩
    -- The pages left over do not hold a block of the next order.
    have hparent : 2 ^ (order + 1) ∣ i := (pow_dvd_pow 2 (by omega)).trans halign
    change count < buddy i order + 2 ^ order
    rw [buddy_lower hparent]
    omega
  | case2 i a hge => exact ⟨free, i, h, Nat.le_of_not_lt hge, SameRegion.refl a, id⟩

end Building

/-! ## The result of `init` -/

section Init

variable {ram : Nat → Nat} {base count : Nat} {reserved : List (Nat × Nat)}

/-- The region that `init` sets up before it builds the lists. -/
theorem building_start {a : BuddyAllocator} (hcount : a.realCount ≤ maxPages)
    (hpage : a.pageCount = (a.realCount + 2 ^ maxOrder - 1) / 2 ^ maxOrder * 2 ^ maxOrder)
    (hlists : ∀ order, a.freeLists order = freeNone)
    (hmeta : ∀ i < a.pageCount,
      a.pageMeta i = if a.realCount ≤ i then ⟨maxOrder, true⟩ else ⟨0, false⟩) :
    Building reserved a (fun _ => []) [] 0 := by
  have hreal : a.realCount ≤ a.pageCount := by
    simp only [maxOrder] at hpage
    omega
  have hcap : a.pageCount ≤ maxPages := by
    simp only [maxOrder, maxPages, pageSize] at hpage hcount ⊢
    omega
  have hempty : freeBlocks (fun _ => []) ++ ([] ++ pages 0 a.realCount) = pages 0 a.realCount := by
    rw [freeBlocks_empty, List.nil_append, List.nil_append]
  refine {
    shape := {
      chain := fun order _ => hlists order
      tiling := ?_
      heads := by simp [freeBlocks_empty]
      padding := fun i hi hlt => by rw [hmeta i hlt, if_pos hi]
      whole := hpage ▸ dvd_mul_left _ _
      real_le := hreal
      capacity := hcap }
    dead_meta := by simp
    dead_carved := by simp
    free_uncarved := by simp [freeBlocks_empty]
    unused := fun p hp hused => ?_ }
  · rw [hempty]
    refine ⟨fun p => ?_, fun b hb => ?_, fun b hb => ?_⟩
    · simp [cover_pages]
    · simp [Block.Aligned, (mem_pages.mp hb).1]
    · simp [(mem_pages.mp hb).1]
  · rw [hmeta p (by omega), if_neg (by omega)] at hused
    cases hused

theorem not_carved_nil {n order p : Nat} : ¬ Carved [] n order p := by
  rintro ⟨b, -, -, -, -, hscan⟩
  simp [scan] at hscan

/-- After `init` the free lists and the carved blocks tile the region. -/
theorem init_building (ram : Nat → Nat) (base : Nat) (reserved : List (Nat × Nat))
    (hcount : count ≤ maxPages) :
    ∃ free dead next, Building reserved ((uninit ram).init base count reserved) free dead next ∧
      count ≤ next ∧ ((uninit ram).init base count reserved).base = base ∧
      ((uninit ram).init base count reserved).realCount = count ∧
      (reserved = [] → dead = [] ∧ ∀ b ∈ freeBlocks free, Building.Unpaired count b) := by
  rw [BuddyAllocator.init]
  generalize hstart : ({ uninit ram with
    base := base
    realCount := count
    pageCount := (count + 2 ^ maxOrder - 1) / 2 ^ maxOrder * 2 ^ maxOrder
    pageMeta := _ } : BuddyAllocator) = a
  have hregion : a.base = base ∧ a.realCount = count := by subst hstart; exact ⟨rfl, rfl⟩
  have hbuild : Building reserved a (fun _ => []) [] 0 := by
    subst hstart
    refine building_start hcount rfl (fun _ => rfl) fun i hi => if_pos hi
  cases reserved with
  | nil =>
    obtain ⟨free₁, hwhole, hregion₁, halign, htail, hunpaired⟩ :=
      hbuild.pushWhole (dvd_zero _) hregion.2 fun p => not_carved_nil
    obtain ⟨free₂, next, htail', hnext, hregion₂, hunpaired'⟩ :=
      hwhole.pushTail halign htail le_rfl (hregion₁.2.1.trans hregion.2) fun p => not_carved_nil
    have hall := hregion₁.trans hregion₂
    refine ⟨free₂, [], next, htail', hnext, hall.1.trans hregion.1, hall.2.1.trans hregion.2,
      fun _ => ⟨rfl, hunpaired' (hunpaired ?_)⟩⟩
    simp [freeBlocks_empty]
  | cons r rest =>
    obtain ⟨free₁, dead, next, hcarve, hnext, hregion₁⟩ :=
      hbuild.carveAll (dvd_zero _) hregion.2
    exact ⟨free₁, dead, next, hcarve, hnext, hregion₁.1.trans hregion.1,
      hregion₁.2.1.trans hregion.2, fun hnil => absurd hnil (by simp)⟩

/-- After `init` the free lists hold each page of the region once, apart from the carved
pages. -/
theorem init_lists (ram : Nat → Nat) (base : Nat) (reserved : List (Nat × Nat))
    (hcount : count ≤ maxPages) :
    ∃ free, (∀ order ≤ maxOrder,
        Chain freeNone ((uninit ram).init base count reserved).next
          (((uninit ram).init base count reserved).freeLists order) (free order)) ∧
      (∀ p, 0 < cover (freeBlocks free) p ↔ p < count ∧ ¬ Carved reserved count maxOrder p) ∧
      (∀ p, cover (freeBlocks free) p ≤ 1) ∧ ∀ b ∈ freeBlocks free, b.Aligned := by
  obtain ⟨free, dead, next, hbuild, hnext, -, hreal, -⟩ :=
    init_building ram base reserved hcount
  have hshape := hbuild.done (hreal.le.trans hnext)
  have htiling := hshape.tiling
  rw [hreal] at htiling
  refine ⟨free, hshape.chain, fun p => ⟨fun hpos => ?_, fun ⟨hlt, hcarved⟩ => ?_⟩, fun p => ?_,
    fun b hb => htiling.aligned b (List.mem_append_left _ hb)⟩
  · obtain ⟨b, hb, hp⟩ := cover_pos_iff.mp hpos
    exact ⟨htiling.lt_of_mem (List.mem_append_left _ hb) hp, hreal ▸ hbuild.free_uncarved b hb p hp⟩
  · obtain ⟨b, hb, hp⟩ := htiling.exists_mem hlt
    rcases List.mem_append.mp hb with hfree | hdead
    · exact cover_pos_iff.mpr ⟨b, hfree, hp⟩
    · exact absurd (hreal ▸ hbuild.dead_carved b hdead p hp) hcarved
  · have hle := htiling.cover_le_one p
    rw [cover_append] at hle
    omega

/-- The law of the initial free lists: they hold every page below `count` that lies in no
reserved interval in exactly one block, no other page, and only aligned blocks. -/
def InitLaw (a : BuddyAllocator) (count : Nat) (reserved : List (Nat × Nat)) : Prop :=
  ∃ free, (∀ order ≤ maxOrder, Chain freeNone a.next (a.freeLists order) (free order)) ∧
    (∀ p, cover (freeBlocks free) p = if p < count ∧ ¬ Reserved reserved p then 1 else 0) ∧
    ∀ b ∈ freeBlocks free, b.Aligned

/-- The lists threaded through memory determine the blocks. -/
theorem freeBlocks_unique {a : BuddyAllocator} {free free' : Nat → List Nat}
    (h : ∀ order ≤ maxOrder, Chain freeNone a.next (a.freeLists order) (free order))
    (h' : ∀ order ≤ maxOrder, Chain freeNone a.next (a.freeLists order) (free' order)) :
    freeBlocks free = freeBlocks free' := by
  refine List.flatMap_congr fun order horder => ?_
  have hle : order ≤ maxOrder := Nat.lt_succ_iff.mp (List.mem_range.mp horder)
  rw [(h order hle).unique (h' order hle)]

/-- Under the law every reserved page was carved out. -/
theorem carved_of_initLaw {p : Nat} (hcount : count ≤ maxPages)
    (h : InitLaw ((uninit ram).init base count reserved) count reserved) (hp : p < count)
    (hreserved : Reserved reserved p) : Carved reserved count maxOrder p := by
  obtain ⟨free, hchain, hcover, -⟩ := h
  obtain ⟨free', hchain', hpos, -, -⟩ :=
    init_lists ram base reserved hcount
  rw [← freeBlocks_unique hchain hchain'] at hpos
  by_contra hcarved
  have hlisted := (hpos p).mpr ⟨hp, hcarved⟩
  rw [hcover p, if_neg fun hfree => hfree.2 hreserved] at hlisted
  exact Nat.lt_irrefl 0 hlisted

/-- The initial free lists obey their law exactly when every reserved page lies in an aligned
block that an earlier interval overlaps and a later one contains. -/
theorem initLaw_iff_carved (ram : Nat → Nat) (base count : Nat) (reserved : List (Nat × Nat))
    (hcount : count ≤ maxPages) :
    InitLaw ((uninit ram).init base count reserved) count reserved ↔
      ∀ p < count, Reserved reserved p → Carved reserved count maxOrder p := by
  refine ⟨fun h p hp hreserved => carved_of_initLaw hcount h hp hreserved, fun hall => ?_⟩
  obtain ⟨free, hchain, hpos, hle, haligned⟩ :=
    init_lists ram base reserved hcount
  refine ⟨free, hchain, fun p => ?_, haligned⟩
  have hlisted := hpos p
  have hone := hle p
  split
  · next hp =>
    have := hlisted.mpr ⟨hp.1, fun hcarved => hp.2 (reserved_of_carved hcarved)⟩
    omega
  · next hp =>
    by_contra hne
    obtain ⟨hlt, hcarved⟩ := hlisted.mp (by omega)
    exact hp ⟨hlt, fun hreserved => hcarved (hall p hlt hreserved)⟩

/-- Two intervals, the second around the first: the block of both is carved out. -/
theorem initLaw_nested :
    InitLaw ((uninit fun _ => 0).init 0x81000000 2 [(0, 1), (0, 2)]) 2 [(0, 1), (0, 2)] := by
  refine (initLaw_iff_carved _ _ _ _ (by decide)).mpr fun p hp _ => ?_
  refine ⟨⟨0, 1⟩, dvd_zero _, by decide, ?_, le_rfl, by decide⟩
  simp only [Block.mem_def, Block.stop]
  omega

/-- A single interval carves nothing out: a block inside it is taken for disjoint. -/
theorem not_carved_singleton {r : Nat × Nat} {n order p : Nat} : ¬ Carved [r] n order p := by
  rintro ⟨b, -, -, -, -, hscan⟩
  obtain ⟨rs, re⟩ := r
  rw [scan] at hscan
  split at hscan
  · simp at hscan
  · simp [scan] at hscan

/-- With one reserved page in front, that page ends up on the free lists. -/
theorem not_initLaw_singleton :
    ¬ InitLaw ((uninit fun _ => 0).init 0x81000000 2 [(0, 1)]) 2 [(0, 1)] := by
  intro h
  have hcarved := carved_of_initLaw (p := 0) (by decide) h (by decide) (by decide)
  exact not_carved_singleton hcarved

end Init

end Ignium.Mem
