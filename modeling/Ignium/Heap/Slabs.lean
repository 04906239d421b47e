import Ignium.Heap.KernelHeap

/-!
# The slabs

A slot is taken when it is not on the free list of its page. `Slabs` is the invariant of the heap: the
class table names the pages of the chains, these pages are held, and a free list has slots of its page,
each once.
-/

namespace Ignium.Heap

open Mem Blocks Function BuddyAllocator KernelHeap

/-! ## Slots -/

variable {idx idx' : Fin 8} {page x y w i j : Nat} {b c : Block}

theorem slabSizes_bounds (idx : Fin 8) :
    16 ≤ slabSizes idx ∧ slabSizes idx ≤ 2048 ∧ slabSizes idx ∣ pageSize ∧
      slabSizes idx + capacity idx * slabSizes idx = pageSize := by
  revert idx
  decide

/-- An address lies in a slot. -/
def InSlot (idx : Fin 8) (x w : Nat) : Prop := x ≤ w ∧ w < x + slabSizes idx

theorem inSlot_self (idx : Fin 8) (x : Nat) : InSlot idx x x := by
  have := slabSizes_bounds idx
  exact ⟨le_rfl, by omega⟩

theorem nodup_slotsOf (idx : Fin 8) (page : Nat) : (slotsOf idx page).Nodup := by
  have := slabSizes_bounds idx
  exact List.nodup_range' _ (by omega)

theorem slotsOf_ne_nil (idx : Fin 8) (page : Nat) : slotsOf idx page ≠ [] := by
  have hpos : ∀ idx, capacity idx ≠ 0 := by decide
  simp [slotsOf, hpos]

/-- The slots are pointers that `dealloc` accepts. -/
theorem slot_bounds (hx : x ∈ slotsOf idx page) :
    page + slabSizes idx ≤ x ∧ x + slabSizes idx ≤ page + pageSize ∧ slabSizes idx ∣ x - page := by
  obtain ⟨hpos, -, -, hstop⟩ := slabSizes_bounds idx
  obtain ⟨k, hk, rfl⟩ := List.mem_range'.mp hx
  have hmul : slabSizes idx * (k + 1) ≤ slabSizes idx * capacity idx := Nat.mul_le_mul_left _ hk
  rw [Nat.mul_add_one, Nat.mul_comm _ (capacity idx)] at hmul
  refine ⟨by omega, by omega, ?_⟩
  rw [Nat.add_assoc, Nat.add_sub_cancel_left]
  exact dvd_add (dvd_refl _) (dvd_mul_right _ _)

/-- Two slots of a page that share a word are the same. -/
theorem slot_eq (hx : x ∈ slotsOf idx page) (hy : y ∈ slotsOf idx page) (hxw : InSlot idx x w)
    (hyw : InSlot idx y w) : x = y := by
  wlog hle : x ≤ y generalizing x y
  · exact (this hy hx hyw hxw (Nat.le_of_not_le hle)).symm
  obtain ⟨-, hxw⟩ := hxw
  obtain ⟨hyw, -⟩ := hyw
  have hlow := (slot_bounds hx).1
  have := Nat.eq_zero_of_dvd_of_lt (Nat.dvd_sub (slot_bounds hy).2.2 (slot_bounds hx).2.2)
    (by omega)
  omega

/-! ## The invariant -/

/-- An address lies in a block of a region that starts at `base`. -/
def InBlock (base : Nat) (b : Block) (w : Nat) : Prop := base ≤ w ∧ (w - base) / pageSize ∈ b

variable {h h' : KernelHeap} {m : Usage} {layout : Layout}

/-- A page as a block. -/
theorem inPage_iff : InBlock h.base ⟨i, 0⟩ w ↔ h.addr i ≤ w ∧ w < h.addr i + pageSize := by
  rw [InBlock, Block.mem_single]
  simp only [KernelHeap.addr, pageSize]
  omega

/-- A slot lies in its page behind the header. -/
theorem slot_page (hx : x ∈ slotsOf idx (h.addr i)) (hw : InSlot idx x w) :
    InBlock h.base ⟨i, 0⟩ w ∧ h.addr i + 16 ≤ w := by
  obtain ⟨hlow, hhigh⟩ := hw
  have := slot_bounds hx
  have := slabSizes_bounds idx
  exact ⟨inPage_iff.mpr ⟨by omega, by omega⟩, by omega⟩

/-- A block is held and is no slab page. -/
def KernelHeap.Other (h : KernelHeap) (b : Block) : Prop :=
  b ∈ h.mem.live ∧ (b.order = 0 → h.pageClass b.idx = none)

/-- A slot of a class is taken. -/
def KernelHeap.Taken (h : KernelHeap) (x : Nat) (idx : Fin 8) : Prop :=
  ∃ i, h.pageClass i = some idx ∧ x ∈ slotsOf idx (h.addr i) ∧ x ∉ h.free i

/-- No slot of a class is free. -/
def Full (h : KernelHeap) (idx : Fin 8) : Prop := ∀ i ∈ h.chain idx, h.free i = []

/-- The heap with a new page of a class, whose slots are all free. -/
def KernelHeap.grown (h : KernelHeap) (idx : Fin 8) (mem : Usage) (i : Nat) : KernelHeap :=
  { h with
    mem := mem
    chain := update h.chain idx (i :: h.chain idx)
    free := update h.free i (slotsOf idx (h.addr i))
    pageClass := update h.pageClass i (some idx) }

/-- A large object lies in the block `b`, behind the word that names the block. -/
structure Large (h : KernelHeap) (x : Nat) (layout : Layout) (b : Block) : Prop where
  other : h.Other b
  low : h.addr b.idx + 8 ≤ x
  high : x + layout.size ≤ h.addr b.idx + 2 ^ b.order * pageSize
  word : h.block x = h.addr b.idx

theorem Large.inBlock (hlarge : Large h x layout b) (hsize : layout.size ≠ 0) :
    InBlock h.base b x := by
  obtain ⟨-, hlow, hhigh, -⟩ := hlarge
  rw [addr] at hlow hhigh
  refine ⟨by omega, (Nat.le_div_iff_mul_le (by decide)).mpr (by omega),
    (Nat.div_lt_iff_lt_mul (by decide)).mpr ?_⟩
  rw [Block.stop, Nat.add_mul]
  omega

/-- The aligned address leaves room for the word before it and for the object. -/
theorem Layout.aligned_bounds (layout : Layout) (block : Nat) :
    block + 8 ≤ (block + 8 + layout.align - 1) / layout.align * layout.align ∧
      (block + 8 + layout.align - 1) / layout.align * layout.align + layout.size ≤
        block + 2 ^ layout.order * pageSize := by
  have hpos : 0 < layout.align := by
    obtain ⟨k, hk⟩ := layout.pow
    exact hk ▸ Nat.two_pow_pos k
  have hdiv := Nat.div_add_mod' (block + 8 + layout.align - 1) layout.align
  have hmod := Nat.mod_lt (block + 8 + layout.align - 1) hpos
  have hpages := Nat.le_pow_clog (b := 2) (by decide) ((layout.needed + pageSize - 1) / pageSize)
  change _ ≤ 2 ^ layout.order at hpages
  simp only [Layout.needed, pageSize] at *
  omega

/-- The blocks that are no slab pages stay held, and large objects keep the words before them. -/
structure Keeps (h h' : KernelHeap) : Prop where
  block : h'.block = h.block
  other : ∀ b, h.Other b → h'.Other b

theorem Keeps.trans {h'' : KernelHeap} (h₁ : Keeps h h') (h₂ : Keeps h' h'') : Keeps h h'' :=
  ⟨h₂.block.trans h₁.block, fun b hb => h₂.other b (h₁.other b hb)⟩

/-- The invariant of the heap. -/
structure Slabs (h : KernelHeap) : Prop where
  sound : h.mem.Sound
  base : h.base = h.mem.allocator.base
  bytes : h.bytes = h.mem.allocator.realCount * pageSize
  nodup : ∀ idx, (h.chain idx).Nodup
  table : ∀ i idx, i ∈ h.chain idx ↔ h.pageClass i = some idx
  held : ∀ i idx, h.pageClass i = some idx → Block.mk i 0 ∈ h.mem.live
  free : ∀ i idx, h.pageClass i = some idx →
    (h.free i).Nodup ∧ ∀ x ∈ h.free i, x ∈ slotsOf idx (h.addr i)

namespace Slabs

variable (hS : Slabs h)
include hS

/-- A slab page shares no word with other blocks. -/
theorem not_inBlock (hb : h.Other b) (hi : h.pageClass i = some idx)
    (hw : InBlock h.base ⟨i, 0⟩ w) : ¬ InBlock h.base b w := by
  intro hbw
  obtain rfl := hS.sound.block_unique hb.1 (hS.held i idx hi) hbw.2 hw.2
  exact absurd ((hb.2 rfl).symm.trans hi) (by simp)

/-- Slots of slab pages that share a word are the same. -/
theorem slot_unique (hi : h.pageClass i = some idx) (hx : x ∈ slotsOf idx (h.addr i))
    (hj : h.pageClass j = some idx') (hy : y ∈ slotsOf idx' (h.addr j))
    (hxw : InSlot idx x w) (hyw : InSlot idx' y w) : i = j ∧ x = y := by
  have hsame := hS.sound.block_unique (hS.held i idx hi) (hS.held j idx' hj)
    (slot_page hx hxw).1.2 (slot_page hy hyw).1.2
  obtain rfl : i = j := congrArg Block.idx hsame
  obtain rfl := Option.some.inj (hi.symm.trans hj)
  exact ⟨rfl, slot_eq hx hy hxw hyw⟩

/-! ## Moves of blocks -/

/-- The page allocator may change as long as the slab pages stay held. -/
theorem frame (hsound : m.Sound) (hregion : SameRegion h.mem.allocator m.allocator)
    (hheld : ∀ i idx, h.pageClass i = some idx → Block.mk i 0 ∈ m.live) :
    Slabs { h with mem := m } :=
  { hS with
    sound := hsound
    base := hS.base.trans hregion.1.symm
    bytes := hS.bytes.trans (by rw [hregion.2.1])
    held := hheld }

/-- The page allocator has no block, or there is a new one. -/
theorem take (order : Nat) :
    h.mem.allocPages order = some (none, h.mem) ∨
      ∃ i m, h.mem.allocPages order = some (some (h.addr i), m) ∧ Slabs { h with mem := m } ∧
        m.live = ⟨i, order⟩ :: h.mem.live ∧ h.pageClass i = none ∧ ∀ c ∈ h.mem.live, c.idx ≠ i := by
  rcases hS.sound.allocBlock order with hnone | ⟨i, m, halloc, hsound, hregion, hlive, hnew, -⟩
  · exact .inl hnone
  rw [blockAddr, ← hS.base] at halloc
  exact .inr ⟨i, m, halloc, hS.frame hsound hregion (fun j idx hj => by simp [hlive, hS.held j idx hj]),
    hlive, Option.eq_none_iff_forall_ne_some.mpr fun idx hidx =>
      hnew _ (hS.held i idx hidx) rfl, hnew⟩

/-- A block that is no slab page can be given back. -/
theorem give (hb : h.Other b) :
    ∃ m, h.mem.freePages (h.addr b.idx) = some (.ok (), m) ∧ Slabs { h with mem := m } ∧
      ∀ c, c ∈ m.live ↔ c ∈ h.mem.live ∧ c ≠ b := by
  obtain ⟨m, hfree, hsound, hregion, hmem, -⟩ := hS.sound.freeBlock hb.1
  rw [blockAddr, ← hS.base] at hfree
  have hmem' : ∀ c, c ∈ m.live ↔ c ∈ h.mem.live ∧ c ≠ b := fun c => by
    rw [hmem, and_comm]
    refine and_congr_right fun hc => not_congr ⟨fun heq => ?_, fun heq => heq ▸ rfl⟩
    exact hS.sound.block_unique hc hb.1 (heq ▸ Block.idx_mem c) (Block.idx_mem b)
  refine ⟨m, hfree, hS.frame hsound hregion (fun i idx hi => ?_), hmem'⟩
  refine (hmem' _).mpr ⟨hS.held i idx hi, ?_⟩
  rintro rfl
  exact absurd ((hb.2 rfl).symm.trans hi) (by simp)

/-! ## Moves of slots -/

/-- A free slot is not taken. -/
theorem not_taken (hi : h.pageClass i = some idx) (hx : x ∈ h.free i) : ¬ h.Taken x idx' := by
  rintro ⟨j, hj, hslot, hnot⟩
  obtain ⟨rfl, -⟩ := hS.slot_unique hi ((hS.free i idx hi).2 x hx) hj hslot (inSlot_self idx x)
    (inSlot_self idx' x)
  exact hnot hx

/-- A page has a new free list. -/
theorem setFree (hi : h.pageClass i = some idx) {nodes : List Nat} (hnodup : nodes.Nodup)
    (hsub : ∀ x ∈ nodes, x ∈ slotsOf idx (h.addr i)) : Slabs (h.setFree i nodes) :=
  { hS with
    free := fun j idx' (hj : h.pageClass j = some idx') => by
      have := hS.free j idx' hj
      change (update h.free i nodes j).Nodup ∧ ∀ x ∈ update h.free i nodes j, x ∈ slotsOf idx' (h.addr j)
      grind }

/-- The first free slot of a page is taken. -/
theorem pop (hi : h.pageClass i = some idx) {rest : List Nat} (hfree : h.free i = x :: rest) :
    Slabs (h.setFree i rest) ∧
      ∀ y idx', (h.setFree i rest).Taken y idx' ↔ h.Taken y idx' ∨ y = x ∧ idx' = idx := by
  obtain ⟨hnodup, hsub⟩ := hS.free i idx hi
  rw [hfree] at hnodup hsub
  refine ⟨hS.setFree hi (List.nodup_cons.mp hnodup).2 fun y hy => hsub y (List.mem_cons_of_mem _ hy),
    fun y idx' => ⟨fun ⟨j, hj, hslot, hnot⟩ => ?_, ?_⟩⟩
  · change y ∉ update h.free i rest j at hnot
    by_cases hyx : j = i ∧ y = x
    · exact .inr ⟨hyx.2, Option.some.inj (hj.symm.trans (hyx.1 ▸ hi))⟩
    · exact .inl ⟨j, hj, hslot, by grind⟩
  · rintro (⟨j, hj, hslot, hnot⟩ | ⟨rfl, rfl⟩)
    · refine ⟨j, hj, hslot, ?_⟩
      change y ∉ update h.free i rest j
      grind
    · exact ⟨i, hi, hsub y List.mem_cons_self, by
        simp [KernelHeap.setFree, (List.nodup_cons.mp hnodup).1]⟩

/-- A taken slot becomes the first free one of its page. -/
theorem push (hi : h.pageClass i = some idx) (hx : x ∈ slotsOf idx (h.addr i)) (hnot : x ∉ h.free i) :
    Slabs (h.setFree i (x :: h.free i)) ∧
      ∀ y idx', (h.setFree i (x :: h.free i)).Taken y idx' ↔ h.Taken y idx' ∧ y ≠ x := by
  obtain ⟨hnodup, hsub⟩ := hS.free i idx hi
  have hS' := hS.setFree hi (List.nodup_cons.mpr ⟨hnot, hnodup⟩) (by simpa [hx] using hsub)
  refine ⟨hS', fun y idx' => ⟨fun htaken => ⟨?_, ?_⟩, fun ⟨⟨j, hj, hslot, hnot⟩, hne⟩ =>
    ⟨j, hj, hslot, ?_⟩⟩⟩
  · obtain ⟨j, hj, hslot, hnot⟩ := htaken
    change y ∉ update h.free i _ j at hnot
    exact ⟨j, hj, hslot, by grind⟩
  · rintro rfl
    exact hS'.not_taken (i := i) hi (by simp [KernelHeap.setFree]) htaken
  · change y ∉ update h.free i _ j
    grind

/-! ## The sweep -/

/-- A page with as many free slots as it has slots has no taken one. -/
theorem mem_free (hi : h.pageClass i = some idx) (hlength : (h.free i).length = capacity idx)
    (hx : x ∈ slotsOf idx (h.addr i)) : x ∈ h.free i := by
  obtain ⟨hnodup, hsub⟩ := hS.free i idx hi
  exact ((hnodup.subperm hsub).perm_of_length_le (by simp [slotsOf, hlength])).mem_iff.mpr hx

/-- The sweep gives a page back or leaves it, and all other pages stay. -/
theorem sweepPage (hi : i ∈ h.chain idx) :
    ∃ h', h.sweepPage idx i = some h' ∧ Slabs h' ∧ Keeps h h' ∧
      h'.Taken = h.Taken ∧ ∀ idx' j, (idx', j) ≠ (idx, i) → j ∈ h.chain idx' → j ∈ h'.chain idx' := by
  by_cases hlength : (h.free i).length = capacity idx
  case neg => exact ⟨h, if_neg hlength, hS, ⟨rfl, fun _ => id⟩, rfl, fun _ _ _ => id⟩
  have hclass := (hS.table i idx).mp hi
  have hmem : ∀ idx' j, j ∈ update h.chain idx ((h.chain idx).erase i) idx' ↔
      j ∈ h.chain idx' ∧ (idx', j) ≠ (idx, i) := fun idx' j => by
    have := (hS.nodup idx).mem_erase_iff (a := j) (b := i)
    grind
  have hset : ∀ j idx', update h.pageClass i none j = some idx' ↔ j ≠ i ∧ h.pageClass j = some idx' := by
    grind
  have hS₁ : Slabs { h with chain := update h.chain idx ((h.chain idx).erase i),
                            pageClass := update h.pageClass i none } :=
    { hS with
      nodup := fun idx' => by
        have := (hS.nodup idx).erase i
        have := hS.nodup idx'
        change (update h.chain idx _ idx').Nodup
        grind
      table := fun j idx' => by
        have := hS.table j idx'
        rw [hset, hmem]
        grind
      held := fun j idx' hj => hS.held j idx' ((hset j idx').mp hj).2
      free := fun j idx' hj => hS.free j idx' ((hset j idx').mp hj).2 }
  obtain ⟨m, hfree, hS₂, hlive⟩ := hS₁.give (b := ⟨i, 0⟩)
    ⟨hS.held i idx hclass, fun _ => update_self ..⟩
  refine ⟨_, ?_, hS₂, ⟨rfl, fun b hb => ⟨(hlive b).mpr ⟨hb.1, ?_⟩, fun horder => ?_⟩⟩,
    funext₂ fun x idx' => propext (exists_congr fun j => ?_),
    fun idx' j hne hj => (hmem idx' j).mpr ⟨hj, hne⟩⟩
  · rw [KernelHeap.sweepPage, if_pos hlength]
    exact congrArg (fun r => Outcome.expect r >>= _) hfree
  · rintro rfl
    exact absurd ((hb.2 rfl).symm.trans hclass) (by simp)
  · have := hb.2 horder
    change update h.pageClass i none b.idx = none
    grind
  · -- The page itself has no taken slot.
    have := hS.mem_free (x := x) hclass hlength
    rw [hset]
    change _ ∧ x ∈ slotsOf idx' (h.addr j) ∧ x ∉ h.free j ↔ _
    grind

theorem sweepPages {list : List (Fin 8 × Nat)} (hnodup : list.Nodup)
    (hlist : ∀ p ∈ list, p.2 ∈ h.chain p.1) :
    ∃ h', list.foldlM (fun h p => h.sweepPage p.1 p.2) h = some h' ∧ Slabs h' ∧ Keeps h h' ∧
      h'.Taken = h.Taken := by
  induction list generalizing h with
  | nil => exact ⟨h, rfl, hS, ⟨rfl, fun _ => id⟩, rfl⟩
  | cons p list ih =>
    obtain ⟨hnot, hnodup⟩ := List.nodup_cons.mp hnodup
    obtain ⟨hp, hrest⟩ := List.forall_mem_cons.mp hlist
    obtain ⟨h₁, hpage, hS₁, hk₁, hsame₁, hchain⟩ := hS.sweepPage hp
    -- The pages are different ones, so the sweep still finds the others.
    obtain ⟨h', hsweep, hS', hk, hsame⟩ := ih hS₁ hnodup fun q hq =>
      hchain _ _ (fun heq : q = p => hnot (heq ▸ hq)) (hrest q hq)
    exact ⟨h', by rw [List.foldlM_cons, hpage]; exact hsweep, hS', hk₁.trans hk,
      hsame.trans hsame₁⟩

/-- The sweep never fails and changes no object. -/
theorem sweepEmptyPages :
    ∃ h', h.sweepEmptyPages = some h' ∧ Slabs h' ∧ Keeps h h' ∧ h'.Taken = h.Taken := by
  refine hS.sweepPages (List.nodup_flatMap.mpr ⟨fun idx _ => ?_, (List.nodup_finRange 8).imp ?_⟩)
    fun p hp => ?_
  · exact (hS.nodup idx).tail.map fun i j heq => (Prod.mk.inj heq).2
  · intro idx idx' hne p hp hp'
    simp only [List.mem_map] at hp hp'
    grind
  · simp only [scanned, List.mem_flatMap, List.mem_map] at hp
    obtain ⟨idx, -, i, hi, rfl⟩ := hp
    exact List.mem_of_mem_tail hi

/-! ## Allocation of slots -/

/-- A new page has all its slots on its free list and becomes the first of its class. -/
theorem grow (idx : Fin 8) :
    h.mem.allocPages 0 = some (none, h.mem) ∨
      ∃ i m, h.mem.allocPages 0 = some (some (h.addr i), m) ∧ Slabs (h.grown idx m i) ∧
        Keeps h (h.grown idx m i) ∧ (h.grown idx m i).Taken = h.Taken := by
  rcases hS.take 0 with hnone | ⟨i, m, halloc, hS₁, hlive, hclass, hnew⟩
  · exact .inl hnone
  -- The new page was in no table, so no slot of it counts as taken.
  have hset : ∀ j idx', (h.grown idx m i).pageClass j = some idx' ↔
      (j = i ∧ idx' = idx) ∨ h.pageClass j = some idx' := by
    unfold grown
    grind
  have hfree : ∀ j, (h.grown idx m i).free j = if j = i then slotsOf idx (h.addr i) else h.free j :=
    fun j => update_apply ..
  refine .inr ⟨i, m, halloc, { hS₁ with
      nodup := fun idx' => ?_
      table := fun j idx' => ?_
      held := fun j idx' hj => ?_
      free := fun j idx' hj => ?_ }, ⟨rfl, fun b hb => ⟨?_, fun horder => ?_⟩⟩,
    funext₂ fun x idx' => propext (exists_congr fun j => ?_)⟩
  · have := hS.nodup idx'
    have := hS.table i idx'
    unfold grown
    grind
  · have := hS.table j idx'
    rw [hset]
    unfold grown
    grind
  · rcases (hset j idx').mp hj with ⟨rfl, -⟩ | hj
    · change _ ∈ m.live
      simp [hlive]
    · exact hS₁.held j idx' hj
  · have := hS.free j idx'
    have := nodup_slotsOf idx (h.addr i)
    rw [hset] at hj
    rw [hfree]
    change _ ∧ ∀ x ∈ _, x ∈ slotsOf idx' (h.addr j)
    grind
  · change b ∈ m.live
    simp [hlive, hb.1]
  · exact (update_of_ne (hnew b hb.1) _ _).trans (hb.2 horder)
  · rw [hset, hfree]
    change _ ∧ x ∈ slotsOf idx' (h.addr j) ∧ _ ↔ _
    grind

/-- The slot that `slabAlloc` takes, from a page with a free one or from a new page. -/
theorem slabAlloc (idx : Fin 8) :
    (h.slabAlloc idx = none ∧ Full h idx ∧ ∃ h', h.sweepEmptyPages = some h' ∧
      h'.mem.allocPages 0 = some (none, h'.mem)) ∨
    ∃ x h', h.slabAlloc idx = some (x, h') ∧ Slabs h' ∧ (∀ idx', ¬ h.Taken x idx') ∧
      (∀ y idx', h'.Taken y idx' ↔ h.Taken y idx' ∨ y = x ∧ idx' = idx) ∧ Keeps h h' ∧
      (h'.chain = h.chain ∨ Full h idx) := by
  rw [KernelHeap.slabAlloc]
  cases hfind : (h.chain idx).find? fun i => h.free i ≠ [] with
  | some i =>
    have hi := (hS.table i idx).mp (List.mem_of_find?_eq_some hfind)
    obtain ⟨x, rest, hfree⟩ := List.exists_cons_of_ne_nil (by simpa using List.find?_some hfind)
    obtain ⟨hS', htaken⟩ := hS.pop hi hfree
    exact .inr ⟨x, _, by simp [popSlot, hfree], hS', fun _ => hS.not_taken hi (by simp [hfree]), htaken,
      ⟨rfl, fun _ => id⟩, .inl rfl⟩
  | none =>
    have hfull : Full h idx := fun i hi => by simpa using List.find?_eq_none.mp hfind i hi
    obtain ⟨h₁, hsweep, hS₁, hk₁, hsame₁⟩ := hS.sweepEmptyPages
    rcases hS₁.grow idx with hnone | ⟨i, m, halloc, hS₂, hk₂, hsame₂⟩
    · exact .inl ⟨by simp [newSlab, hsweep, hnone], hfull, h₁, hsweep, hnone⟩
    obtain ⟨x, rest, hslots⟩ := List.exists_cons_of_ne_nil (slotsOf_ne_nil idx (h₁.addr i))
    have hi : (h₁.grown idx m i).pageClass i = some idx := update_self ..
    have hfree : (h₁.grown idx m i).free i = x :: rest := (update_self ..).trans hslots
    obtain ⟨hS', htaken⟩ := hS₂.pop hi hfree
    refine .inr ⟨x, _, ?_, hS', fun idx' hx => ?_, fun y idx' => ?_,
      hk₁.trans (hk₂.trans ⟨rfl, fun _ => id⟩), .inr hfull⟩
    · have hindex : (h₁.addr i - h₁.base) / pageSize = i := by simp [addr, pageSize]
      simp only [newSlab, hsweep, Option.bind_eq_bind, Option.bind_some, halloc, hindex]
      change (h₁.grown idx m i).popSlot i = _
      rw [popSlot, hfree]
    · rw [← hsame₁, ← hsame₂] at hx
      exact hS₂.not_taken hi (by simp [hfree]) hx
    · rw [htaken, hsame₂, hsame₁]

/-! ## Large objects and release -/

/-- A large object is no taken slot. -/
theorem not_taken_large (hsize : layout.size ≠ 0) (hlarge : Large h x layout b) :
    ¬ h.Taken x idx := by
  rintro ⟨i, hi, hslot, -⟩
  exact hS.not_inBlock hlarge.other hi (slot_page hslot (inSlot_self idx x)).1 (hlarge.inBlock hsize)

/-- There is no block for a large object, or it gets a new one that it fits into. -/
theorem pageAlloc (layout : Layout) :
    (h.pageAlloc layout = none ∧ (2 ^ 64 ≤ layout.needed ∨ maxOrder < layout.order ∨
      h.mem.allocPages layout.order = some (none, h.mem))) ∨
    ∃ x h' b, h.pageAlloc layout = some (x, h') ∧ Slabs h' ∧ h'.chain = h.chain ∧
      b ∉ h.mem.live ∧ Large h' x layout b ∧ layout.align ∣ x ∧
      h'.Taken = h.Taken ∧ (∀ b, h.Other b → h'.Other b) ∧ ∀ y ≠ x, h'.block y = h.block y := by
  rw [KernelHeap.pageAlloc]
  by_cases hneeded : 2 ^ 64 ≤ layout.needed
  · exact .inl ⟨if_pos hneeded, .inl hneeded⟩
  by_cases horder : maxOrder < layout.order
  · exact .inl ⟨by rw [if_neg hneeded, if_pos horder], .inr (.inl horder)⟩
  rw [if_neg hneeded, if_neg horder]
  rcases hS.take layout.order with hnone | ⟨i, m, halloc, hS₁, hlive, hclass, hnew⟩
  · exact .inl ⟨by simp [hnone], .inr (.inr hnone)⟩
  simp only [halloc, Option.bind_eq_bind, Option.bind_some]
  obtain ⟨hlow, hhigh⟩ := layout.aligned_bounds (h.addr i)
  exact .inr ⟨_, _, ⟨i, layout.order⟩, rfl, { hS₁ with }, rfl, fun hmem => hnew _ hmem rfl,
    ⟨⟨by simp [hlive], fun _ => hclass⟩, hlow, hhigh, update_self ..⟩, Nat.dvd_mul_left ..,
    rfl, fun b hb => ⟨by simp [hlive, hb.1], hb.2⟩, fun y hne => update_of_ne hne ..⟩

/-- The page of an address in a block that is held passes the checks of `dealloc`. -/
theorem page_bounds (hb : b ∈ h.mem.live) (hx : InBlock h.base b x) :
    ¬ (x / pageSize * pageSize < h.base ∨ x / pageSize * pageSize - h.base ≥ h.bytes) ∧
      (x / pageSize * pageSize - h.base) / pageSize = (x - h.base) / pageSize ∧
      pageSize ∣ h.base := by
  obtain ⟨free, dead, hheld, hbase⟩ := hS.sound
  have hlt := hheld.shape.tiling.lt_of_mem (b := b) (by simp [hb]) hx.2
  have hlow := hx.1
  rw [← hS.base] at hbase
  rw [hS.bytes]
  simp only [pageSize] at *
  omega

/-- A taken slot can be released. It lies at a multiple of its size, as its page does. -/
theorem dealloc_slot (hx : h.Taken x idx) : slabSizes idx ∣ x ∧
    ∃ h', Slabs h' ∧ h'.chain = h.chain ∧ (∀ y idx', h'.Taken y idx' ↔ h.Taken y idx' ∧ y ≠ x) ∧
      Keeps h h' ∧ ∀ layout : Layout, layout.size ≠ 0 → h.dealloc x layout = some h' := by
  obtain ⟨i, hi, hslot, hnot⟩ := hx
  obtain ⟨hpos, -, hdvd, -⟩ := slabSizes_bounds idx
  obtain ⟨hlow, hhigh, hoffset⟩ := slot_bounds hslot
  have hin := (slot_page hslot (inSlot_self idx x)).1
  obtain ⟨hrange, hindex, hbase⟩ := hS.page_bounds (hS.held i idx hi) hin
  have hpage : x / pageSize * pageSize = h.addr i ∧ (x - h.base) / pageSize = i := by
    have := inPage_iff.mp hin
    simp only [addr, pageSize] at *
    omega
  obtain ⟨hS', htaken⟩ := hS.push hi hslot hnot
  refine ⟨?_, _, hS', rfl, htaken, ⟨rfl, fun _ => id⟩, fun layout hsize => ?_⟩
  · rw [← Nat.sub_add_cancel (show h.addr i ≤ x by omega)]
    exact dvd_add hoffset (dvd_add (hdvd.trans hbase) (hdvd.mul_left _))
  · rw [KernelHeap.dealloc, if_neg hsize]
    dsimp only
    rw [if_neg hrange, hindex, hpage.2, hi]
    dsimp only
    rw [if_neg]
    rw [hpage.1, Ne, Nat.mod_eq_zero_of_dvd hoffset]
    omega

/-- Releasing a large object gives its block back. -/
theorem dealloc_large (hsize : layout.size ≠ 0) (hlarge : Large h x layout b) :
    h.dealloc x layout = (h.mem.freePages (h.addr b.idx)).expect.bind fun mem =>
      some { h with mem := mem } := by
  have hin := hlarge.inBlock hsize
  obtain ⟨hrange, hpage, -⟩ := hS.page_bounds hlarge.other.1 hin
  have hclass : h.pageClass ((x - h.base) / pageSize) = none :=
    Option.eq_none_iff_forall_ne_some.mpr fun idx hidx =>
      hS.not_inBlock hlarge.other hidx ⟨hin.1, Block.idx_mem _⟩ hin
  rw [KernelHeap.dealloc, if_neg hsize]
  dsimp only
  rw [if_neg hrange, hpage, hclass, hlarge.word]
  rfl

end Slabs

end Ignium.Heap
