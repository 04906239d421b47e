import Ignium.Mem.Runs

/-!
# Which addresses `free` accepts

`free` decides by the record of the page whether it heads a block that is held. The record is
only written for heads, so a release that merges a block into its lower neighbour leaves the
record of the released page behind, and `free` accepts that page a second time. The theorem
`always_freeLaw_iff` says that this is the only way in which `free` goes wrong: it accepts exactly
the blocks that are held, all along a run, exactly when no release in the run merges downwards.
-/

namespace Ignium.Mem

open Blocks Intrusive
open BuddyAllocator

/-- Releasing a block of order `k` at `i` never merges it into a lower neighbour: as long as the
record of the buddy lets the merge go on, the buddy is the upper one. -/
def staysLower (a : BuddyAllocator) : Nat → Nat → Nat → Prop
  | 0, _, _ => True
  | orders + 1, i, k =>
    buddy i k + 2 ^ k ≤ a.pageCount ∧ a.pageMeta (buddy i k) = ⟨k, false⟩ →
      i < buddy i k ∧ staysLower a orders i (k + 1)

instance staysLower.decidable (a : BuddyAllocator) :
    (orders i k : Nat) → Decidable (staysLower a orders i k)
  | 0, _, _ => inferInstanceAs (Decidable True)
  | orders + 1, i, k =>
    let _ := staysLower.decidable a orders i (k + 1)
    inferInstanceAs (Decidable
      (buddy i k + 2 ^ k ≤ a.pageCount ∧ a.pageMeta (buddy i k) = ⟨k, false⟩ →
        i < buddy i k ∧ staysLower a orders i (k + 1)))

/-- A release that keeps the head of the block it releases. -/
def KeepsHead (s : Usage) : UsageOp → Prop
  | .free addr => ∀ b ∈ s.live, s.allocator.blockAddr b.idx = addr →
      staysLower s.allocator (maxOrder - b.order) b.idx b.order
  | _ => True

instance (s : Usage) : (op : UsageOp) → Decidable (KeepsHead s op)
  | .free addr => inferInstanceAs (Decidable (∀ b ∈ s.live, s.allocator.blockAddr b.idx = addr → _))
  | .alloc _ => inferInstanceAs (Decidable True)
  | .store _ _ => inferInstanceAs (Decidable True)

/-- The law of `free`: it accepts the blocks that are held, and refuses every other address
without a change; so a page inside a block that is held is refused as well. -/
structure FreeLaw (s : Usage) : Prop where
  accepts : ∀ b ∈ s.live, ∃ a, s.allocator.free (s.allocator.blockAddr b.idx) = some (.ok (), a)
  refuses : ∀ addr, ¬ s.IsLive addr → s.allocator.free addr = some (.error (), s.allocator)
  inside : ∀ b ∈ s.live, ∀ p ∈ b, p ≠ b.idx →
    s.allocator.free (s.allocator.blockAddr p) = some (.error (), s.allocator)

/-! ## The merge loop and its condition -/

section Merge

variable {a a' : BuddyAllocator} {target order steps prev cur orders i k i' k' : Nat}

/-- Taking a block off a list touches neither the region nor the records. -/
theorem unlinkFrom_keeps (h : unlinkFrom target order steps prev cur a = some a') :
    a'.pageMeta = a.pageMeta ∧ a'.pageCount = a.pageCount := by
  induction steps generalizing prev cur with
  | zero => cases h
  | succ steps ih =>
    rw [unlinkFrom] at h
    split_ifs at h
    · cases h
      exact ⟨rfl, rfl⟩
    · cases h
      exact ⟨rfl, rfl⟩
    · cases h
      exact ⟨rfl, rfl⟩
    · exact ih h

theorem staysLower_congr (hmeta : a'.pageMeta = a.pageMeta) (hpage : a'.pageCount = a.pageCount) :
    staysLower a' orders i k ↔ staysLower a orders i k := by
  induction orders generalizing i k with
  | zero => exact Iff.rfl
  | succ orders ih => rw [staysLower, staysLower, hmeta, hpage, ih]

/-- The merge only ever moves the head down. -/
theorem mergeUp_le (h : mergeUp orders i k a = some (i', k', a')) : i' ≤ i := by
  induction orders generalizing i k a with
  | zero =>
    cases h
    exact le_rfl
  | succ orders ih =>
    rw [mergeUp_succ] at h
    split at h
    · obtain ⟨a₁, -, hloop⟩ := Option.bind_eq_some_iff.mp h
      exact (ih hloop).trans (Nat.min_le_left _ _)
    · cases h
      exact le_rfl

/-- The head stays where it is exactly if no merge goes down. -/
theorem mergeUp_eq_iff (h : mergeUp orders i k a = some (i', k', a')) :
    i' = i ↔ staysLower a orders i k := by
  induction orders generalizing i k a with
  | zero =>
    cases h
    exact ⟨fun _ => trivial, fun _ => rfl⟩
  | succ orders ih =>
    rw [mergeUp_succ] at h
    rw [staysLower]
    split at h
    · next hmerge =>
      obtain ⟨a₁, hunlink, hloop⟩ := Option.bind_eq_some_iff.mp h
      obtain ⟨hmeta, hpage⟩ := unlinkFrom_keeps hunlink
      rw [forall_prop_of_true hmerge]
      rcases Nat.lt_or_ge i (buddy i k) with hlt | hge
      · rw [Nat.min_eq_left hlt.le] at hloop
        rw [ih hloop, staysLower_congr hmeta hpage, and_iff_right hlt]
      · have hlower : buddy i k < i := lt_of_le_of_ne hge (buddy_ne i k)
        have hle := mergeUp_le hloop
        rw [Nat.min_eq_right hge] at hle
        exact ⟨fun heq => by omega, fun hstay => by omega⟩
    · next hstop =>
      cases h
      exact ⟨fun _ hmerge => absurd hmerge hstop, fun _ => rfl⟩

end Merge

/-! ## The checks of `free` -/

/-- The record of a page passes the checks of `free`. -/
def Releasable (a : BuddyAllocator) (p : Nat) : Prop :=
  p < a.realCount ∧ (a.pageMeta p).used = true ∧ (a.pageMeta p).order ≤ maxOrder ∧
    2 ^ (a.pageMeta p).order ∣ p

section Checks

variable {a : BuddyAllocator} {addr p : Nat}

/-- An address that `free` does not refuse is that of a page whose record passes the checks. -/
theorem free_refused_or_releasable (hbase : pageSize ∣ a.base) :
    a.free addr = some (.error (), a) ∨ ∃ p, addr = a.blockAddr p ∧ Releasable a p := by
  rw [free]
  dsimp only
  split_ifs with hrange hrecord halign
  · exact .inl rfl
  · exact .inl rfl
  · exact .inl rfl
  · refine .inr ⟨a.blockIndex addr, ?_, ?_, ?_, ?_, Nat.dvd_of_mod_eq_zero (not_ne_iff.mp halign)⟩
    · have hdvd : pageSize ∣ addr - a.base := Nat.dvd_sub (Nat.dvd_of_mod_eq_zero (by omega)) hbase
      rw [blockAddr, blockIndex, Nat.div_mul_cancel hdvd]
      omega
    · rw [blockIndex, Nat.div_lt_iff_lt_mul (by decide)]
      omega
    · simpa using (not_or.mp hrecord).2
    · omega

/-- `free` does not refuse a page whose record passes the checks. -/
theorem Releasable.not_refused {a' : BuddyAllocator} (h : Releasable a p)
    (hbase : pageSize ∣ a.base) : a.free (a.blockAddr p) ≠ some (.error (), a') := by
  obtain ⟨hlt, hused, horder, halign⟩ := h
  have hrange : ¬ (a.blockAddr p < a.base ∨ a.blockAddr p ≥ a.base + a.realCount * pageSize ∨
      a.blockAddr p % pageSize ≠ 0) := by
    have hpage : a.blockAddr p % pageSize = 0 :=
      Nat.mod_eq_zero_of_dvd (dvd_add hbase (dvd_mul_left _ _))
    have hend : p * pageSize < a.realCount * pageSize := Nat.mul_lt_mul_of_pos_right hlt (by decide)
    simp only [blockAddr] at hpage ⊢
    omega
  rw [free, if_neg hrange]
  simp only [Shape.blockIndex_blockAddr]
  rw [if_neg (by simp [hused, horder]), if_neg (by simp [Nat.mod_eq_zero_of_dvd halign])]
  cases mergeUp (maxOrder - (a.pageMeta p).order) p (a.pageMeta p).order a <;> simp

end Checks

/-! ## The invariant -/

/-- Only heads of blocks that are held have a record that passes the checks of `free`. -/
def Clean (s : Usage) : Prop :=
  ∀ p, Releasable s.allocator p → ⟨p, (s.allocator.pageMeta p).order⟩ ∈ s.live

section Clean

variable {s t : Usage} {free : Nat → List Nat} {dead : List Block} {op : UsageOp} {addr : Nat}

/-- In a clean state `free` refuses every address that is not live. -/
theorem Clean.refuses (h : Clean s) (hbase : pageSize ∣ s.allocator.base)
    (hlive : ¬ s.IsLive addr) : s.allocator.free addr = some (.error (), s.allocator) := by
  refine (free_refused_or_releasable hbase).resolve_right ?_
  rintro ⟨p, rfl, hp⟩
  exact hlive ⟨_, h p hp, rfl⟩

/-- A clean state obeys the law of `free`. -/
theorem Clean.freeLaw (h : Clean s) (hheld : Held s free dead)
    (hbase : pageSize ∣ s.allocator.base) : FreeLaw s where
  accepts b hb := by
    obtain ⟨i', k', a₁, a, free', -, hfree, -⟩ := hheld.free_live (hheld.perm_eraseP hb) hbase
    exact ⟨a, hfree⟩
  refuses addr hlive := h.refuses hbase hlive
  inside b hb p hp hne := by
    refine h.refuses hbase ?_
    rintro ⟨c, hc, haddr⟩
    obtain rfl : c.idx = p := blockAddr_injective haddr
    have hcb : c = b := hheld.shape.tiling.eq_of_mem (by simp [hc]) (by simp [hb])
      (Block.idx_mem c) hp
    exact hne (congrArg Block.idx hcb)

/-- What a release leaves behind: the record of the block that is released changes exactly when
the head stays. -/
theorem Held.free_step {b : Block} (h : Held s free dead) (hb : b ∈ s.live)
    (hbase : pageSize ∣ s.allocator.base)
    (hstep : s.step (.free (s.allocator.blockAddr b.idx)) = some t) :
    s.live.Perm (b :: t.live) ∧ SameRegion s.allocator t.allocator ∧
      (∃ free', Held t free' dead) ∧
      ∃ i' k', t.allocator.pageMeta = Function.update s.allocator.pageMeta i' ⟨k', false⟩ ∧
        (i' = b.idx ↔ staysLower s.allocator (maxOrder - b.order) b.idx b.order) := by
  have hperm := h.perm_eraseP hb
  obtain ⟨i', k', a₁, a, free', hmerge, hfree, hmeta, hregion, hheld, -⟩ :=
    h.free_live hperm hbase
  simp only [Usage.step, hfree, bind, Option.bind_some] at hstep
  cases hstep
  exact ⟨hperm, hregion, ⟨free', hheld⟩, i', k', hmeta, mergeUp_eq_iff hmerge⟩

/-- A step that keeps the head of what it releases keeps the state clean. -/
theorem Clean.step (h : Clean s) (hheld : Held s free dead) (hbase : pageSize ∣ s.allocator.base)
    (hstep : s.step op = some t) (hop : KeepsHead s op) :
    Clean t ∧ SameRegion s.allocator t.allocator ∧ ∃ free', Held t free' dead := by
  cases op with
  | alloc order =>
    rcases hheld.alloc order with hnone | ⟨i, a, free', halloc, hregion, hheld', hmeta, -⟩
    · simp only [Usage.step, hnone, bind, Option.bind_some] at hstep
      cases hstep
      exact ⟨h, SameRegion.refl _, free, hheld⟩
    · have hidx : a.blockIndex (s.allocator.blockAddr i) = i := by
        rw [← hregion.blockAddr_eq]
        exact Shape.blockIndex_blockAddr
      simp only [Usage.step, halloc, bind, Option.bind_some, hidx] at hstep
      cases hstep
      refine ⟨fun p hp => ?_, hregion, free', hheld'⟩
      by_cases hpi : p = i
      · have hrecord : a.pageMeta i = ⟨order, true⟩ :=
          hheld'.live_meta ⟨i, order⟩ List.mem_cons_self
        rw [hpi]
        simp [hrecord]
      · rcases hmeta p hpi with hsame | hunused
        · refine List.mem_cons_of_mem _ ?_
          obtain ⟨hlt, hrest⟩ := hp
          rw [hsame] at hrest ⊢
          exact h p ⟨hregion.2.1 ▸ hlt, hrest⟩
        · rw [Releasable, hunused] at hp
          simp at hp
  | free addr =>
    by_cases hlive : s.IsLive addr
    · obtain ⟨b, hb, rfl⟩ := hlive
      obtain ⟨hperm, hregion, hheld', i', k', hmeta, hiff⟩ := hheld.free_step hb hbase hstep
      obtain rfl := hiff.mpr (hop b hb rfl)
      refine ⟨fun p hp => ?_, hregion, hheld'⟩
      obtain ⟨hlt, hused, hrest⟩ := hp
      have hne : p ≠ b.idx := by
        rintro rfl
        simp [hmeta] at hused
      rw [hmeta, Function.update_of_ne hne] at hused hrest ⊢
      have hmem := hperm.mem_iff.mp (h p ⟨hregion.2.1 ▸ hlt, hused, hrest⟩)
      rcases List.mem_cons.mp hmem with heq | hmem
      · exact absurd (congrArg Block.idx heq) hne
      · exact hmem
    · simp only [Usage.step, h.refuses hbase hlive, bind, Option.bind_some] at hstep
      cases hstep
      exact ⟨h, SameRegion.refl _, free, hheld⟩
  | store addr value =>
    rw [Usage.step] at hstep
    split at hstep
    · next hholds =>
      cases hstep
      exact ⟨h, ⟨rfl, rfl, rfl⟩, free, hheld.store hholds⟩
    · cases hstep
      exact ⟨h, SameRegion.refl _, free, hheld⟩

/-- After a release that merges downwards `free` accepts the released page once more. -/
theorem not_freeLaw_of_merge_down (hheld : Held s free dead) (hbase : pageSize ∣ s.allocator.base)
    (hstep : s.step op = some t) (hop : ¬ KeepsHead s op) : ¬ FreeLaw t := by
  intro hlaw
  cases op with
  | alloc order => exact hop trivial
  | store addr value => exact hop trivial
  | free addr =>
    simp only [KeepsHead, not_forall] at hop
    obtain ⟨b, hb, rfl, hdown⟩ := hop
    obtain ⟨hperm, hregion, ⟨free', hheld'⟩, i', k', hmeta, hiff⟩ :=
      hheld.free_step hb hbase hstep
    have hshape := hheld.shape.perm (hperm.append_right dead)
    have hstale : t.allocator.pageMeta b.idx = ⟨b.order, true⟩ := by
      rw [hmeta, Function.update_of_ne fun heq => hdown (hiff.mp heq.symm), hheld.live_meta b hb]
    have hreleasable : Releasable t.allocator b.idx := by
      rw [Releasable, hstale, hregion.2.1]
      exact ⟨hshape.idx_lt, rfl, hshape.tiling.order_le b (by simp),
        hshape.tiling.aligned b (by simp)⟩
    have hnotlive : ¬ t.IsLive (t.allocator.blockAddr b.idx) := by
      rintro ⟨c, hc, haddr⟩
      exact hshape.idx_ne_of_mem (by simp [hc]) (blockAddr_injective haddr)
    exact hreleasable.not_refused (hregion.1 ▸ hbase) (hlaw.refuses _ hnotlive)

end Clean

/-! ## Runs with arbitrary frees -/

/-- The reserved pages are refused. -/
def RefusesReserved (reserved : List (Nat × Nat)) (s : Usage) : Prop :=
  ∀ p < s.allocator.realCount, Reserved reserved p →
    s.allocator.free (s.allocator.blockAddr p) = some (.error (), s.allocator)

/-- All along a run with arbitrary frees, `free` accepts exactly the blocks that are held if and
only if no release in the run merges a block into its lower neighbour. In such a run reserved
pages are refused as well, provided that `init` carved them out. -/
theorem always_freeLaw_iff (ram : Nat → Nat) (base count : Nat) (reserved : List (Nat × Nat))
    (hbase : pageSize ∣ base) (hcount : count ≤ maxPages) (ops : List UsageOp) :
    (Machine.Always Usage.step (Usage.start ram base count reserved) ops FreeLaw ↔
      Machine.Each Usage.step (Usage.start ram base count reserved) ops KeepsHead) ∧
    ((∀ p < count, Reserved reserved p → Carved reserved count maxOrder p) →
      Machine.Each Usage.step (Usage.start ram base count reserved) ops KeepsHead →
      Machine.Always Usage.step (Usage.start ram base count reserved) ops
        (RefusesReserved reserved)) := by
  obtain ⟨free, dead, hheld, hbase₀, hreal, hdead, hunused⟩ := held_start ram base reserved hcount
  let Inv (s : Usage) : Prop := Clean s ∧ s.allocator.base = base ∧
    s.allocator.realCount = count ∧ ∃ free', Held s free' dead
  have hinit : Inv (Usage.start ram base count reserved) := by
    refine ⟨fun p hp => ?_, hbase₀, hreal, free, hheld⟩
    obtain ⟨hlt, hused, horder, -⟩ := hp
    rw [hunused p (hreal ▸ hlt) hused] at horder
    exact absurd horder (by decide)
  have hstep : ∀ s op t, Inv s → s.step op = some t → KeepsHead s op → Inv t := by
    rintro s op t ⟨hclean, hsbase, hsreal, free', hs⟩ hst hop
    obtain ⟨hclean', hregion, hheld'⟩ := hclean.step hs (hsbase ▸ hbase) hst hop
    exact ⟨hclean', hregion.1.trans hsbase, hregion.2.1.trans hsreal, hheld'⟩
  refine ⟨Machine.always_iff_each hinit ?_ hstep ?_, fun hcarved hops => ?_⟩
  · rintro s ⟨hclean, hsbase, -, free', hs⟩
    exact hclean.freeLaw hs (hsbase ▸ hbase)
  · rintro s op t ⟨-, hsbase, -, free', hs⟩ hst hop
    exact not_freeLaw_of_merge_down hs (hsbase ▸ hbase) hst hop
  · intro first rest t hsplit hrun p hp hreserved
    obtain ⟨hclean, htbase, htreal, free', ht⟩ :=
      Machine.always_of_each hinit hstep hops first rest t hsplit hrun
    refine hclean.refuses (htbase ▸ hbase) ?_
    rintro ⟨b, hb, haddr⟩
    obtain rfl := blockAddr_injective haddr
    -- A carved page lies in a block of `dead`, which no block that is held meets.
    have hpos := hdead _ (htreal ▸ hp) (hcarved _ (htreal ▸ hp) hreserved)
    have hlive : 0 < cover t.live b.idx := cover_pos_iff.mpr ⟨b, hb, Block.idx_mem b⟩
    have hle := ht.shape.tiling.cover_le_one b.idx
    simp only [cover_append] at hle
    omega

/-- Two pages allocated and released from the upper one down: the second release merges, and
upwards. -/
theorem freeLaw_upper_first :
    Machine.Always Usage.step (Usage.start (fun _ => 0) 0x81000000 2 [])
      [.alloc 0, .alloc 0, .free 0x81001000, .free 0x81000000] FreeLaw := by
  have hfirst : ∀ t ∈ Machine.run Usage.step (Usage.start (fun _ => 0) 0x81000000 2 [])
      [.alloc 0, .alloc 0], KeepsHead t (.free 0x81001000) := by decide +kernel
  have hsecond : ∀ t ∈ Machine.run Usage.step (Usage.start (fun _ => 0) 0x81000000 2 [])
      [.alloc 0, .alloc 0, .free 0x81001000], KeepsHead t (.free 0x81000000) := by decide +kernel
  refine (always_freeLaw_iff _ _ _ _ (by decide) (by decide) _).1.mpr (Machine.Reached.each ?_)
  refine Machine.reached_cons trivial fun s hs => Machine.reached_cons trivial fun t ht =>
    Machine.reached_cons (hfirst t (by simp [hs, ht])) fun u hu =>
      Machine.reached_cons (hsecond u (by simp [hs, ht, hu])) fun _ _ => Machine.reached_nil

/-- Two pages allocated and released from the lower one up: the second release merges downwards,
and the upper page can be released once more. -/
theorem not_freeLaw_lower_first :
    ¬ Machine.Always Usage.step (Usage.start (fun _ => 0) 0x81000000 2 [])
      [.alloc 0, .alloc 0, .free 0x81000000, .free 0x81001000] FreeLaw := by
  intro halways
  have hend : ∀ t ∈ Machine.run Usage.step (Usage.start (fun _ => 0) 0x81000000 2 [])
      [.alloc 0, .alloc 0, .free 0x81000000, .free 0x81001000],
      ¬ t.IsLive 0x81001000 ∧ (t.allocator.free 0x81001000).map (·.1.toBool) = some true := by
    decide +kernel
  obtain ⟨t, ht⟩ := Option.isSome_iff_exists.mp
    (by decide +kernel : (Machine.run Usage.step (Usage.start (fun _ => 0) 0x81000000 2 [])
      [.alloc 0, .alloc 0, .free 0x81000000, .free 0x81001000]).isSome)
  obtain ⟨hlive, haccepted⟩ := hend t ht
  have hrefused := (halways _ [] t (by simp) ht).refuses _ hlive
  rw [hrefused] at haccepted
  simp [Except.toBool] at haccepted

end Ignium.Mem
