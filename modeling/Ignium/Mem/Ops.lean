import Ignium.Mem.Shape

/-!
# Allocation and release

What `alloc`, `free` and `freePageCount` do to the shape of the free lists. `Shape.alloc` and
`Shape.free_live` say that the code never panics on a well-formed allocator, that `alloc` moves
an aligned block off the lists and that `free` of a block off the lists puts its pages back,
merged with free neighbours. The merge reads the record of the buddy page: by
`Tiling.exists_buddy_tile` that page heads a tile, so the record is never a stale one.
-/

namespace Ignium.Mem

open Blocks Intrusive
open BuddyAllocator

/-- One round of the merge loop: it goes on exactly when the record of the buddy page says that
the buddy is a free block of the same order. -/
theorem BuddyAllocator.mergeUp_succ {a : BuddyAllocator} {orders i k : Nat} :
    mergeUp (orders + 1) i k a =
      if buddy i k + 2 ^ k ≤ a.pageCount ∧ a.pageMeta (buddy i k) = ⟨k, false⟩ then
        (a.unlink (buddy i k) k).bind (mergeUp orders (min i (buddy i k)) (k + 1))
      else some (i, k, a) := by
  rw [mergeUp]
  change (if buddy i k + 2 ^ k > a.pageCount then _ else
    if (a.pageMeta (buddy i k)).used || (a.pageMeta (buddy i k)).order != k then _ else
      (a.unlink (buddy i k) k).bind (mergeUp orders (min i (buddy i k)) (k + 1))) = _
  obtain ⟨order, used⟩ := a.pageMeta (buddy i k)
  by_cases hpage : buddy i k + 2 ^ k > a.pageCount
  · simp [hpage, Nat.not_le.mpr hpage]
  · by_cases horder : order = k <;> cases used <;> simp [hpage, Nat.le_of_not_gt hpage, horder]

namespace Shape

variable {a : BuddyAllocator} {free : Nat → List Nat} {rest : List Block}
  {i k order cur orders steps n : Nat} {used : Bool}

/-- The record of a block off the lists may hold anything. -/
theorem setMeta (h : Shape a free (⟨i, k⟩ :: rest)) :
    Shape (a.setMeta i order used) free (⟨i, k⟩ :: rest) :=
  { h with
    chain := h.chain
    heads := fun b hb => by
      have hne : b.idx ≠ i := h.idx_ne_of_mem (List.mem_append_left _ hb)
      exact (Function.update_of_ne hne _ _).trans (h.heads b hb)
    padding := fun j hreal hpage => by
      have hne : j ≠ i := Nat.ne_of_gt (Nat.lt_of_lt_of_le h.idx_lt hreal)
      exact (congrArg PageMeta.used (Function.update_of_ne hne _ _)).trans
        (h.padding j hreal hpage) }

/-! ## Allocation -/

/-- The search for a block takes one off a list, or finds all lists from `order` on empty. -/
theorem findBlock (h : Shape a free rest) (horders : order + orders = maxOrder + 1) :
    (findBlock orders order a = some (none, a) ∧ ∀ j ≤ maxOrder, order ≤ j → free j = []) ∨
    ∃ i cur a' free', order ≤ cur ∧ findBlock orders order a = some (some (i, cur), a') ∧
      Shape a' free' (⟨i, cur⟩ :: rest) ∧ a'.pageMeta = a.pageMeta ∧
      (∀ kept, Frame a a' kept) ∧ (freeBlocks free).Perm (⟨i, cur⟩ :: freeBlocks free') := by
  induction orders generalizing order with
  | zero => exact .inl ⟨rfl, fun j hj hle => by omega⟩
  | succ orders ih =>
    have horder : order ≤ maxOrder := by omega
    cases hlist : free order with
    | nil =>
      have hpop := h.pop_nil horder hlist
      have hnext : order + 1 + orders = maxOrder + 1 := by omega
      rcases ih hnext with ⟨hnone, hempty⟩ | hfound
      · refine .inl ⟨by simp [BuddyAllocator.findBlock, hpop, hnone], fun j hj hle => ?_⟩
        rcases Nat.eq_or_lt_of_le hle with rfl | hlt
        · exact hlist
        · exact hempty j hj hlt
      · obtain ⟨i, cur, a', free', hle, hfind, hrest⟩ := hfound
        exact .inr ⟨i, cur, a', free', by omega,
          by simp [BuddyAllocator.findBlock, hpop, hfind], hrest⟩
    | cons i tail =>
      obtain ⟨hpop, hshape⟩ := h.pop_cons horder hlist
      exact .inr ⟨i, order, _, _, le_rfl, by simp [BuddyAllocator.findBlock, hpop], hshape, rfl,
        fun kept => frame_setHead, freeBlocks_perm horder (by rw [hlist])⟩

/-- Splitting a block keeps its lowest part off the lists and returns the rest. -/
theorem splitDown (h : Shape a free (⟨i, cur⟩ :: rest)) (hle : order ≤ cur) :
    ∃ free', Shape (splitDown order i cur a) free' (⟨i, order⟩ :: rest) ∧
      Frame a (splitDown order i cur a) (⟨i, order⟩ :: rest) ∧
      (Separated maxOrder (freeBlocks free) → Separated maxOrder (freeBlocks free')) := by
  induction cur generalizing a free with
  | zero =>
    obtain rfl : order = 0 := by omega
    exact ⟨free, h, Frame.refl a _, id⟩
  | succ cur ih =>
    rw [BuddyAllocator.splitDown]
    by_cases hgt : cur + 1 > order
    · rw [if_pos hgt]
      have hcur : cur ≤ maxOrder :=
        Nat.le_of_succ_le (h.tiling.order_le ⟨i, cur + 1⟩ (by simp))
      have hupper := h.split.perm (List.Perm.swap _ _ _)
      have hout : i + 2 ^ cur ∉ (⟨i, order⟩ : Block) := by
        have hpow : 2 ^ order ≤ 2 ^ cur := Nat.pow_le_pow_right (by decide) (by omega)
        simp only [Block.mem_def, Block.stop]
        omega
      have hcover : cover (⟨i, order⟩ :: rest) (i + 2 ^ cur) = 0 := by
        have hzero := hupper.cover_tail_eq_zero (p := i + 2 ^ cur) (Block.idx_mem _)
        rw [cover_cons] at hzero ⊢
        rw [if_neg hout]
        omega
      obtain ⟨free', hshape, hframe, hmerged⟩ := ih hupper.push (by omega)
      refine ⟨free', hshape, Frame.trans (frame_push hupper.idx_lt hcover) hframe,
        fun hsep => hmerged (separated_push hcur hsep fun _ => ?_)⟩
      rw [buddy_upper (h.tiling.aligned ⟨i, cur + 1⟩ (by simp))]
      exact h.not_mem_free (Block.idx_mem _) hcur
    · obtain rfl : order = cur + 1 := by omega
      rw [if_neg hgt]
      exact ⟨free, h, Frame.refl a _, id⟩

/-- `alloc` fails and changes nothing, or it moves an aligned block of the order asked for off
the lists and marks its head page. -/
theorem alloc (h : Shape a free rest) (order : Nat) :
    a.alloc order = some (none, a) ∨
    ∃ i a' free', a.alloc order = some (some (a.blockAddr i), a'.setMeta i order true) ∧
      Shape (a'.setMeta i order true) free' (⟨i, order⟩ :: rest) ∧
      Frame a a' (⟨i, order⟩ :: rest) ∧
      (Separated maxOrder (freeBlocks free) → Separated maxOrder (freeBlocks free')) := by
  rw [BuddyAllocator.alloc]
  by_cases horder : order > maxOrder
  · exact .inl (if_pos horder)
  · rw [if_neg horder]
    have horders : order + (maxOrder + 1 - order) = maxOrder + 1 := by omega
    rcases h.findBlock horders with
      ⟨hnone, -⟩ | ⟨i, cur, a₁, free₁, hle, hfind, hshape, -, hframe, hperm⟩
    · exact .inl (by simp [hnone])
    · obtain ⟨free', hsplit, hframe', hmerged⟩ := hshape.splitDown hle
      have hall := (hframe _).trans hframe'
      refine .inr ⟨i, BuddyAllocator.splitDown order i cur a₁, free', ?_, hsplit.setMeta, hall,
        fun hsep => hmerged (hsep.of_subset fun b hb => ?_)⟩
      · have haddr : ((BuddyAllocator.splitDown order i cur a₁).setMeta i order true).blockAddr i =
            a.blockAddr i := hall.region.blockAddr_eq
        simp [hfind, haddr]
      · exact hperm.mem_iff.mpr (List.mem_cons_of_mem _ hb)

/-- `alloc` returns nothing exactly when every free block is too small. -/
theorem alloc_none_iff (h : Shape a free rest) (horder : order ≤ maxOrder) :
    ∃ found a', a.alloc order = some (found, a') ∧
      (found = none ↔ ∀ b ∈ freeBlocks free, b.order < order) := by
  rw [BuddyAllocator.alloc, if_neg (Nat.not_lt.mpr horder)]
  have horders : order + (maxOrder + 1 - order) = maxOrder + 1 := by omega
  rcases h.findBlock horders with
    ⟨hnone, hempty⟩ | ⟨i, cur, a₁, free₁, hle, hfind, -, -, -, hperm⟩
  · refine ⟨none, a, by simp [hnone], iff_of_true rfl fun b hb => ?_⟩
    obtain ⟨hb, hmem⟩ := mem_freeBlocks.mp hb
    by_contra hge
    rw [hempty b.order hb (Nat.le_of_not_lt hge)] at hmem
    cases hmem
  · refine ⟨some _, _, by simp only [hfind]; rfl, iff_of_false (by simp) fun hsmall => ?_⟩
    exact Nat.not_lt.mpr hle (hsmall ⟨i, cur⟩ (hperm.mem_iff.mpr List.mem_cons_self))

/-! ## Release -/

/-- A buddy page whose record says it heads a free block of the same order does head one: it
heads a tile no larger than the block, and the tiles off the lists are all marked used. -/
theorem buddy_mem_free (h : Shape a free (⟨i, k⟩ :: rest))
    (hrest : ∀ b ∈ rest, (a.pageMeta b.idx).used = true) (hpage : buddy i k + 2 ^ k ≤ a.pageCount)
    (hmeta : a.pageMeta (buddy i k) = ⟨k, false⟩) : buddy i k ∈ free k := by
  have hpos := Nat.two_pow_pos k
  have hreal : buddy i k < a.realCount := by
    by_contra hge
    have hused := h.padding (buddy i k) (by omega) (by omega)
    rw [hmeta] at hused
    cases hused
  obtain ⟨c, hc, hidx, -⟩ := h.tiling.exists_buddy_tile (b := ⟨i, k⟩) (by simp) hreal
  rw [List.mem_append, List.mem_cons] at hc
  rcases hc with hfree | rfl | hoff
  · have hhead := h.heads c hfree
    rw [hidx, hmeta] at hhead
    have horder : k = c.order := congrArg PageMeta.order hhead
    have hmem := (mem_freeBlocks.mp hfree).2
    rwa [← horder, hidx] at hmem
  · exact absurd hidx.symm (buddy_ne i k)
  · have hused := hrest c hoff
    rw [hidx, hmeta] at hused
    cases hused

/-- The merge loop ends with a block off the lists that contains the block it started with. -/
theorem mergeUp (h : Shape a free (⟨i, k⟩ :: rest)) (horders : k + orders = maxOrder)
    (hrest : ∀ b ∈ rest, (a.pageMeta b.idx).used = true) :
    ∃ i' k' a' free', mergeUp orders i k a = some (i', k', a') ∧
      Shape a' free' (⟨i', k'⟩ :: rest) ∧ a'.pageMeta = a.pageMeta ∧ Frame a a' rest ∧
      (∀ b ∈ freeBlocks free', b ∈ freeBlocks free) ∧
      (k' < maxOrder → buddy i' k' ∉ free' k') := by
  induction orders generalizing i k a free with
  | zero =>
    obtain rfl : k = maxOrder := horders
    exact ⟨i, maxOrder, a, free, rfl, h, rfl, Frame.refl a _, fun b hb => hb,
      fun hlt => absurd hlt (lt_irrefl _)⟩
  | succ orders ih =>
    rw [BuddyAllocator.mergeUp_succ]
    by_cases hmerge : buddy i k + 2 ^ k ≤ a.pageCount ∧ a.pageMeta (buddy i k) = ⟨k, false⟩
    · rw [if_pos hmerge]
      have hbuddy := h.buddy_mem_free hrest hmerge.1 hmerge.2
      obtain ⟨a₁, tail, hperm, hunlink, hshape, hsame, hframe⟩ := h.unlink (by omega) hbuddy
      have hmerged := (hshape.perm (List.Perm.swap _ _ _)).merge (by omega)
      obtain ⟨i', k', a', free', hloop, hshape', hsame', hframe', hsub, hlast⟩ :=
        ih hmerged (by omega) (by rw [hsame]; exact hrest)
      refine ⟨i', k', a', free', by rw [hunlink]; exact hloop, hshape', hsame'.trans hsame, ?_,
        fun b hb => ?_, hlast⟩
      · refine Frame.trans (hframe.mono fun p hp => ?_) hframe'
        rw [cover_cons] at hp
        omega
      · exact (freeBlocks_perm (by omega) hperm).mem_iff.mpr (List.mem_cons_of_mem _ (hsub b hb))
    · refine ⟨i, k, a, free, if_neg hmerge, h, rfl, Frame.refl a _, fun b hb => hb,
        fun _ hbuddy => hmerge ?_⟩
      -- The record of a free buddy says so, so the loop would not have stopped here.
      have hk : k ≤ maxOrder := by omega
      have hblock : (⟨buddy i k, k⟩ : Block) ∈ freeBlocks free := mem_freeBlocks.mpr ⟨hk, hbuddy⟩
      exact ⟨(h.tiling.stop_le (List.mem_append_left _ hblock)).trans h.real_le,
        h.heads _ hblock⟩

/-- The address of a page lies in the region and leads back to the page. -/
theorem blockIndex_blockAddr : a.blockIndex (a.blockAddr i) = i := by
  rw [blockIndex, blockAddr, Nat.add_sub_cancel_left]
  exact Nat.mul_div_cancel _ (by decide)

/-- `free` of a block off the lists that is marked used succeeds: its pages go back to the
lists, merged with free neighbours. -/
theorem free_live (h : Shape a free (⟨i, k⟩ :: rest)) (hbase : pageSize ∣ a.base)
    (hmeta : a.pageMeta i = ⟨k, true⟩) (hrest : ∀ b ∈ rest, (a.pageMeta b.idx).used = true) :
    ∃ i' k' a' free', BuddyAllocator.mergeUp (maxOrder - k) i k a = some (i', k', a') ∧
      a.free (a.blockAddr i) = some (.ok (), a'.push i' k') ∧ a'.pageMeta = a.pageMeta ∧
      Shape (a'.push i' k') free' rest ∧ Frame a (a'.push i' k') rest ∧
      (Separated maxOrder (freeBlocks free) → Separated maxOrder (freeBlocks free')) := by
  have hk : k ≤ maxOrder := h.tiling.order_le ⟨i, k⟩ (by simp)
  have halign : 2 ^ k ∣ i := h.tiling.aligned ⟨i, k⟩ (by simp)
  have hi : i < a.realCount := h.idx_lt
  have horders : k + (maxOrder - k) = maxOrder := by omega
  obtain ⟨i', k', a', free', hloop, hshape, hsame, hframe, hsub, hlast⟩ := h.mergeUp horders hrest
  have hk' : k' ≤ maxOrder := hshape.tiling.order_le ⟨i', k'⟩ (by simp)
  refine ⟨i', k', a', _, hloop, ?_, hsame, hshape.push, hframe.trans ?_,
    fun hsep => separated_push hk' (hsep.of_subset hsub) hlast⟩
  · have hrange : ¬ (a.blockAddr i < a.base ∨ a.blockAddr i ≥ a.base + a.realCount * pageSize ∨
        a.blockAddr i % pageSize ≠ 0) := by
      have hpage : a.blockAddr i % pageSize = 0 :=
        Nat.mod_eq_zero_of_dvd (dvd_add hbase (dvd_mul_left _ _))
      have hlt : i * pageSize < a.realCount * pageSize :=
        Nat.mul_lt_mul_of_pos_right hi (by decide)
      simp only [blockAddr] at hpage ⊢
      omega
    have hmod : i % 2 ^ k = 0 := Nat.mod_eq_zero_of_dvd halign
    rw [BuddyAllocator.free, if_neg hrange]
    simp [blockIndex_blockAddr, hmeta, hmod, hloop, Nat.not_lt.mpr hk]
  · exact frame_push hshape.idx_lt (hshape.cover_tail_eq_zero (Block.idx_mem _))

/-! ## Counting -/

/-- Walking one list adds up the sizes of its blocks. -/
theorem countFrom_eq {nodes : List Nat} (h : Chain freeNone a.next cur nodes)
    (hsteps : nodes.length < steps) :
    a.countFrom order steps cur n =
      some (n + total (nodes.map fun idx => (⟨idx, order⟩ : Block))) := by
  induction nodes generalizing cur steps n with
  | nil =>
    obtain ⟨steps, rfl⟩ := Nat.exists_eq_add_of_lt hsteps
    rw [chain_nil] at h
    simp [countFrom, h]
  | cons x nodes ih =>
    obtain ⟨rfl, hne, hrest⟩ := h
    obtain ⟨steps, rfl⟩ : ∃ m, steps = m + 1 := ⟨steps - 1, by omega⟩
    rw [countFrom, if_neg hne, ih hrest (by simpa using hsteps)]
    simp [Block.size, Nat.add_assoc]

/-- `freePageCount` returns the number of pages on the lists. -/
theorem freePageCount (h : Shape a free rest) :
    a.freePageCount = some (total (freeBlocks free)) := by
  have hfold : ∀ (orders : List Nat) (n : Nat), (∀ order ∈ orders, order ≤ maxOrder) →
      orders.foldlM
        (fun n order => a.countFrom order (a.pageCount + 1) (a.freeLists order) n) n =
        some (n + total (orders.flatMap fun order =>
          (free order).map fun idx => (⟨idx, order⟩ : Block))) := by
    intro orders
    induction orders with
    | nil => simp
    | cons order orders ih =>
      intro n hle
      have horder : order ≤ maxOrder := hle order (by simp)
      have hlen := h.length_free_le horder
      rw [List.foldlM_cons, countFrom_eq (h.chain order horder) (by omega)]
      simp only [Option.bind_eq_bind, Option.bind_some]
      rw [ih _ fun o ho => hle o (by simp [ho])]
      simp [Nat.add_assoc]
  rw [BuddyAllocator.freePageCount, hfold]
  · simp [freeBlocks]
  · exact fun order horder => Nat.lt_succ_iff.mp (List.mem_range.mp horder)

end Shape

end Ignium.Mem
