import Ignium.Kernel.Calls
import Ignium.Mmu.Teardown

/-!
# Who owns a page

The abstract state that decides who may release a page: the capabilities of all processes, their
roots, the live records of the two registries and the claim on the device, next to the address
spaces of `View`. `Good L V` is the ownership discipline. Most of it is a statement about each page
on its own (`At`), so that an operation on one page only has to account for that page; for all
others `At.mono` applies. A page of the allocator that user code can reach is
* shared: a live record names it, and only the two recorded owners map it, at `shmVa`;
* owned: a slot names its record, and only the owner maps it, at the recorded address;
* private: one process maps it at one address.
The rest says where records and leaves meet: owners map the pages that the records say they map,
and a `Policy` is kept: the virtual pages that it fixes have the leaves of the kernel, and it allows
the words of the pages that are in use.
-/

namespace Ignium.Kernel

open Mem Mmu

/-- What is asked of all address spaces: virtual pages whose leaves are those of the kernel, and
what a word of a page may be that user code can reach or owns, given the page and the address. -/
structure Policy where
  fixed : Nat × Nat × Nat → Prop
  kernel : PageMap
  plain : ∀ {n}, fixed n → ¬ User (kernel n)
  allows : Nat → Nat → Nat → Prop

/-- The records that decide about pages. -/
structure Ledger where
  caps : Nat → Nat → Option Cap
  roots : Nat → Option Nat
  shm : Nat → Option SharedPage
  pages : Nat → Option PageRecord
  claim : Option (Nat × Nat)
  policy : Policy

namespace Ledger

variable {L L' : Ledger} {V V' : View} {p pid va root : Nat}

/-- A live process has a page mapped for user code. -/
def Maps (L : Ledger) (V : View) (pid va page : Nat) : Prop :=
  ∃ root, L.roots pid = some root ∧ User (V.leaf root (vpn va)) ∧
    ptePaddr (V.leaf root (vpn va)) = page

/-- A process has a capability for a page whose record is live. -/
def HoldsPage (L : Ledger) (q id : Nat) (rec : PageRecord) : Prop :=
  (∃ s, L.caps q s = some (.page id)) ∧ L.pages id = some rec

/-- A page of the allocator is mapped, or a process has a capability for it. -/
def Used (L : Ledger) (V : View) (p : Nat) : Prop :=
  (V.inRange p = true ∧ ∃ pid va, L.Maps V pid va p) ∨ ∃ q id rec, L.HoldsPage q id rec ∧ rec.paddr = p

/-- The discipline for one page. -/
structure At (L : Ledger) (V : View) (p : Nat) : Prop where
  mapped : ∀ {pid va}, L.Maps V pid va p → V.inRange p = true → V.data p
  once : ∀ {pid va pid' va'}, L.Maps V pid va p → L.Maps V pid' va' p → V.inRange p = true →
    (pid = pid' ∧ vpn va = vpn va') ∨ ∃ id sp, L.shm id = some sp ∧ sp.paddr = p
  device : ∀ {pid va}, L.Maps V pid va p → V.inRange p = false → ∃ va', L.claim = some (pid, va')
  shared : ∀ {id sp}, L.shm id = some sp → sp.paddr = p → V.data p ∧
    ∀ {pid va}, L.Maps V pid va p → vpn va = vpn shmVa ∧ (pid = sp.first.1 ∨ pid = sp.second.1)
  sharedOnce : ∀ {id sp id' sp'}, L.shm id = some sp → L.shm id' = some sp' → sp.paddr = p →
    sp'.paddr = p → id = id'
  owned : ∀ {q id rec}, L.HoldsPage q id rec → rec.paddr = p → V.data p ∧
    ∀ {pid va}, L.Maps V pid va p → pid = q ∧ ∃ va', rec.mapVa = some va' ∧ vpn va = vpn va'
  ownedOnce : ∀ {q id rec q' id' rec'}, L.HoldsPage q id rec → L.HoldsPage q' id' rec' →
    rec.paddr = p → rec'.paddr = p → id = id'
  apart : ∀ {q id rec id' sp}, L.HoldsPage q id rec → L.shm id' = some sp → rec.paddr = p →
    sp.paddr ≠ p
  words : ∀ {x}, L.Used V p → Usage.InPage p x → L.policy.allows p x (V.word p x)

/-- The discipline: processes have address spaces of their own, the slots that a shared page
records hold its capability, a page has one slot, every page is in order, owners map the pages that
are recorded as mapped, and fixed pages have the leaves of the kernel. -/
structure Good (L : Ledger) (V : View) : Prop where
  root : ∀ {pid r}, L.roots pid = some r → V.root r
  rootInj : ∀ {pid pid' r}, L.roots pid = some r → L.roots pid' = some r → pid = pid'
  slots : ∀ {id sp}, L.shm id = some sp → L.caps sp.first.1 sp.first.2 = some (.shm id) ∧
    L.caps sp.second.1 sp.second.2 = some (.shm id)
  live : ∀ {q s id}, L.caps q s = some (.page id) → ∃ rec, L.pages id = some rec ∧ rec.owner = q
  unique : ∀ {q s q' s' id}, L.caps q s = some (.page id) → L.caps q' s' = some (.page id) →
    q = q' ∧ s = s'
  at_ : ∀ p, At L V p
  shown : ∀ {id sp}, L.shm id = some sp → L.Maps V sp.first.1 shmVa sp.paddr ∧
    L.Maps V sp.second.1 shmVa sp.paddr
  placed : ∀ {q id rec va}, L.HoldsPage q id rec → rec.mapVa = some va → L.Maps V q va rec.paddr
  fixed : ∀ {pid r n}, L.roots pid = some r → L.policy.fixed n → V.leaf r n = L.policy.kernel n

/-- No record names a page. -/
def Unclaimed (L : Ledger) (p : Nat) : Prop :=
  (∀ id sp, L.shm id = some sp → sp.paddr ≠ p) ∧ ∀ q id rec, L.HoldsPage q id rec → rec.paddr ≠ p

/-- No process maps a page. -/
def Unmapped (L : Ledger) (V : View) (p : Nat) : Prop := ∀ pid va, ¬ L.Maps V pid va p

/-! ## One page at a time -/

/-- A page stays in order when it gains no mapping and no record and keeps its words. -/
theorem At.mono (h : At L V p) (hmaps : ∀ {pid va}, L'.Maps V' pid va p → L.Maps V pid va p)
    (hrange : V'.inRange = V.inRange) (hdata : V.data p → V'.data p)
    (hword : V.data p → V'.word p = V.word p) (hpolicy : L'.policy = L.policy)
    (hshm : ∀ {id sp}, sp.paddr = p → (L'.shm id = some sp ↔ L.shm id = some sp))
    (hpages : ∀ {q id rec}, rec.paddr = p → L'.HoldsPage q id rec → L.HoldsPage q id rec)
    (hclaim : ∀ {pid va va'}, L'.Maps V' pid va p → L.claim = some (pid, va') →
      ∃ va'', L'.claim = some (pid, va'')) : At L' V' p where
  mapped hm hr := hdata (h.mapped (hmaps hm) (hrange ▸ hr))
  once hm hm' hr := by
    rcases h.once (hmaps hm) (hmaps hm') (hrange ▸ hr) with heq | ⟨id, sp, hsp, hp⟩
    · exact .inl heq
    · exact .inr ⟨id, sp, (hshm hp).mpr hsp, hp⟩
  device hm hr := by
    obtain ⟨va', hva'⟩ := h.device (hmaps hm) (hrange ▸ hr)
    exact hclaim hm hva'
  shared hsp hp := by
    obtain ⟨hd, honly⟩ := h.shared ((hshm hp).mp hsp) hp
    exact ⟨hdata hd, fun hm => honly (hmaps hm)⟩
  sharedOnce hsp hsp' hp hp' := h.sharedOnce ((hshm hp).mp hsp) ((hshm hp').mp hsp') hp hp'
  owned hh hp := by
    obtain ⟨hd, honly⟩ := h.owned (hpages hp hh) hp
    exact ⟨hdata hd, fun hm => honly (hmaps hm)⟩
  ownedOnce hh hh' hp hp' := h.ownedOnce (hpages hp hh) (hpages hp' hh') hp hp'
  apart hh hsp hp hp' := h.apart (hpages hp hh) ((hshm hp').mp hsp) hp hp'
  words hused hx := by
    have hused' : L.Used V p ∧ V.data p := by
      rcases hused with ⟨hr, pid, va, hm⟩ | ⟨q, id, rec, hh, hp⟩
      · rw [hrange] at hr
        exact ⟨.inl ⟨hr, pid, va, hmaps hm⟩, h.mapped (hmaps hm) hr⟩
      · exact ⟨.inr ⟨q, id, rec, hpages hp hh, hp⟩, (h.owned (hpages hp hh) hp).1⟩
    rw [hpolicy, hword hused'.2]
    exact h.words hused'.1 hx

/-- A page that nobody maps and no record names is in order. -/
theorem at_of_unmapped (hmaps : L.Unmapped V p) (hfree : L.Unclaimed p) : At L V p where
  mapped hm := absurd hm (hmaps _ _)
  once hm := absurd hm (hmaps _ _)
  device hm := absurd hm (hmaps _ _)
  shared hsp hp := absurd hp (hfree.1 _ _ hsp)
  sharedOnce hsp _ hp := absurd hp (hfree.1 _ _ hsp)
  owned hh hp := absurd hp (hfree.2 _ _ _ hh)
  ownedOnce hh _ hp := absurd hp (hfree.2 _ _ _ hh)
  apart hh _ hp := absurd hp (hfree.2 _ _ _ hh)
  words hused _ := by
    rcases hused with ⟨-, pid, va, hm⟩ | ⟨q, id, rec, hh, hp⟩
    · exact absurd hm (hmaps pid va)
    · exact absurd hp (hfree.2 q id rec hh)

/-- A page that one process maps at one address and no record names is in order. -/
theorem at_of_private (pid₀ va₀ : Nat) (hdata : V.data p) (hrange : V.inRange p = true)
    (hmaps : ∀ {pid va}, L.Maps V pid va p → pid = pid₀ ∧ vpn va = vpn va₀) (hfree : L.Unclaimed p)
    (hwords : ∀ {x}, Usage.InPage p x → L.policy.allows p x (V.word p x)) : At L V p where
  mapped _ _ := hdata
  once hm hm' _ := by
    obtain ⟨h₁, h₂⟩ := hmaps hm
    obtain ⟨h₁', h₂'⟩ := hmaps hm'
    exact .inl ⟨h₁.trans h₁'.symm, h₂.trans h₂'.symm⟩
  device _ hr := by
    rw [hrange] at hr
    cases hr
  shared hsp hp := absurd hp (hfree.1 _ _ hsp)
  sharedOnce hsp _ hp := absurd hp (hfree.1 _ _ hsp)
  owned hh hp := absurd hp (hfree.2 _ _ _ hh)
  ownedOnce hh _ hp := absurd hp (hfree.2 _ _ _ hh)
  apart hh _ hp := absurd hp (hfree.2 _ _ _ hh)
  words _ hx := hwords hx

/-- A leaf maps one page. -/
theorem maps_unique {va' p' : Nat} (hm : L.Maps V pid va p) (hm' : L.Maps V pid va' p')
    (hva : vpn va = vpn va') : p = p' := by
  obtain ⟨r, hr, -, rfl⟩ := hm
  obtain ⟨r', hr', -, rfl⟩ := hm'
  cases hr.symm.trans hr'
  rw [hva]

/-- The words of a page with a capability are allowed. -/
theorem Good.words_of_holds {q id x : Nat} {rec : PageRecord} (h : Good L V)
    (hh : L.HoldsPage q id rec) (hx : Usage.InPage rec.paddr x) :
    L.policy.allows rec.paddr x (V.word rec.paddr x) :=
  (h.at_ rec.paddr).words (.inr ⟨q, id, rec, hh, rfl⟩) hx

theorem not_used (hunmapped : L.Unmapped V p) (hfree : L.Unclaimed p) : ¬ L.Used V p := by
  rintro (⟨-, pid, va, hm⟩ | ⟨q, id, rec, hh, hp⟩)
  · exact hunmapped pid va hm
  · exact hfree.2 q id rec hh hp

/-- Another policy that fixes no page and allows what is there. -/
theorem Good.withPolicy (h : Good L V) (pol : Policy) (hfixed : ∀ n, ¬ pol.fixed n)
    (hwords : ∀ {p x}, L.Used V p → Usage.InPage p x → pol.allows p x (V.word p x)) :
    Good { L with policy := pol } V where
  root := h.root
  rootInj := h.rootInj
  slots := h.slots
  live := h.live
  unique := h.unique
  at_ p := { h.at_ p with words := hwords }
  shown := h.shown
  placed := h.placed
  fixed _ hn := absurd hn (hfixed _)

/-! ## Changes of the address spaces -/

/-- Holding more pages keeps the discipline. -/
theorem Good.resize (h : Good L V) (hroot : V'.root = V.root) (hleaf : V'.leaf = V.leaf)
    (hrange : V'.inRange = V.inRange) (hdata : ∀ p, V.data p → V'.data p)
    (hword : ∀ p, V.data p → V'.word p = V.word p) : Good L V' := by
  have hmaps : ∀ {pid va p}, L.Maps V' pid va p ↔ L.Maps V pid va p := by
    intro pid va p
    unfold Maps
    rw [hleaf]
  refine ⟨fun hr => hroot ▸ h.root hr, h.rootInj, h.slots, h.live, h.unique, fun p => ?_,
    fun hsp => ?_, fun hh hva => hmaps.mpr (h.placed hh hva), fun hr hn => hleaf ▸ h.fixed hr hn⟩
  · exact (h.at_ p).mono hmaps.mp hrange (hdata p) (hword p) rfl (fun _ => Iff.rfl)
      (fun _ hh => hh) fun _ hva => ⟨_, hva⟩
  · exact ⟨hmaps.mpr (h.shown hsp).1, hmaps.mpr (h.shown hsp).2⟩

theorem Good.addData {page : Nat} {words : Nat → Nat} (h : Good L V) (hnew : ¬ V.data page) :
    Good L (V.addData page words) := by
  refine h.resize rfl rfl rfl (fun _ => .inr) fun p hp => Function.update_of_ne ?_ _ _
  rintro rfl
  exact hnew hp

/-- A page can be given back when nobody maps it and no record names it. -/
theorem Good.dropData {page : Nat} (h : Good L V) (hmaps : L.Unmapped V page)
    (hfree : L.Unclaimed page) : Good L (V.dropData page) where
  root := h.root
  rootInj := h.rootInj
  slots := h.slots
  live := h.live
  unique := h.unique
  at_ p := by
    by_cases hp : p = page
    · rw [hp]
      exact at_of_unmapped hmaps hfree
    · exact (h.at_ p).mono (fun hm => hm) rfl (fun hd => ⟨hp, hd⟩) (fun _ => rfl) rfl
        (fun _ => Iff.rfl) (fun _ hh => hh) fun _ hva => ⟨_, hva⟩
  shown := h.shown
  placed := h.placed
  fixed := h.fixed

/-- Writing a word of a page that may hold anything. -/
theorem Good.setWord {page x value : Nat} (h : Good L V)
    (hany : ∀ y v, L.policy.allows page y v) : Good L (V.setWord page x value) where
  root := h.root
  rootInj := h.rootInj
  slots := h.slots
  live := h.live
  unique := h.unique
  at_ p := by
    by_cases hp : p = page
    · rw [hp]
      exact { h.at_ page with words := fun _ _ => hany _ _ }
    · exact (h.at_ p).mono (fun hm => hm) rfl (fun hd => hd) (fun _ => Function.update_of_ne hp _ _)
        rfl (fun _ => Iff.rfl) (fun _ hh => hh) fun _ hva => ⟨_, hva⟩
  shown := h.shown
  placed := h.placed
  fixed := h.fixed

/-- A page that is not held is not mapped, and no record names it. -/
theorem Good.fresh (h : Good L V) (hdata : ¬ V.data p) (hrange : V.inRange p = true) :
    L.Unmapped V p ∧ L.Unclaimed p := by
  refine ⟨fun pid va hm => hdata ((h.at_ p).mapped hm hrange), fun id sp hsp hp => ?_,
    fun q id rec hh hp => ?_⟩
  · exact hdata ((h.at_ p).shared hsp hp).1
  · exact hdata ((h.at_ p).owned hh hp).1

/-- A leaf that was unset takes no mapping away. -/
theorem maps_setLeaf_of_zero {n : Nat × Nat × Nat} {entry : Nat} (hzero : V.leaf root n = 0)
    (hm : L.Maps V pid va p) : L.Maps (V.setLeaf root n entry) pid va p := by
  obtain ⟨r, hr, huser, hp⟩ := hm
  have hleaf : (V.setLeaf root n entry).leaf r (vpn va) = V.leaf r (vpn va) := by
    refine if_neg ?_
    rintro ⟨rfl, hn⟩
    rw [hn, hzero] at huser
    exact not_user_zero huser
  refine ⟨r, hr, ?_⟩
  rw [hleaf]
  exact ⟨huser, hp⟩

theorem maps_setLeaf {entry pid' va' : Nat} (h : Good L V) (hroot : L.roots pid = some root)
    (hm : L.Maps (V.setLeaf root (vpn va) entry) pid' va' p) :
    (pid' = pid ∧ vpn va' = vpn va ∧ ptePaddr entry = p) ∨ L.Maps V pid' va' p := by
  obtain ⟨r, hr, huser, hp⟩ := hm
  dsimp only [View.setLeaf] at huser hp
  split at huser
  · next heq =>
    rw [if_pos heq] at hp
    exact .inl ⟨h.rootInj hr (heq.1 ▸ hroot), heq.2, hp⟩
  · next hne =>
    rw [if_neg hne] at hp
    exact .inr ⟨r, hr, huser, hp⟩

/-- The process maps the page of its new leaf. -/
theorem maps_setLeaf_self {entry : Nat} (hroot : L.roots pid = some root) (huser : User entry) :
    L.Maps (V.setLeaf root (vpn va) entry) pid va (ptePaddr entry) := by
  refine ⟨root, hroot, ?_⟩
  rw [show (V.setLeaf root (vpn va) entry).leaf root (vpn va) = entry from if_pos ⟨rfl, rfl⟩]
  exact ⟨huser, rfl⟩

/-- A new leaf at a page that is not fixed. -/
theorem fixed_setLeaf {entry : Nat} (h : Good L V) (hfree : ¬ L.policy.fixed (vpn va)) {pid r : Nat}
    {n : Nat × Nat × Nat} (hr : L.roots pid = some r) (hn : L.policy.fixed n) :
    (V.setLeaf root (vpn va) entry).leaf r n = L.policy.kernel n := by
  rw [← h.fixed hr hn]
  refine if_neg ?_
  rintro ⟨-, rfl⟩
  exact hfree hn

/-- A held page that nobody maps and no record names can be mapped once. -/
theorem Good.setLeaf {entry page : Nat} (h : Good L V) (hroot : L.roots pid = some root)
    (hzero : V.leaf root (vpn va) = 0) (hva : ¬ L.policy.fixed (vpn va))
    (hentry : ptePaddr entry = page) (hdata : V.data page) (hrange : V.inRange page = true)
    (hmaps : L.Unmapped V page) (hfree : L.Unclaimed page)
    (hwords : ∀ {x}, Usage.InPage page x → L.policy.allows page x (V.word page x)) :
    Good L (V.setLeaf root (vpn va) entry) where
  root := h.root
  rootInj := h.rootInj
  slots := h.slots
  live := h.live
  unique := h.unique
  at_ p := by
    by_cases hp : p = page
    · rw [hp]
      refine at_of_private pid va hdata hrange (fun hm => ?_) hfree hwords
      rcases maps_setLeaf h hroot hm with ⟨hpid, hva, -⟩ | hm
      · exact ⟨hpid, hva⟩
      · exact absurd hm (hmaps _ _)
    · refine (h.at_ p).mono (fun hm => ?_) rfl (fun hd => hd) (fun _ => rfl) rfl (fun _ => Iff.rfl)
        (fun _ hh => hh) fun _ hva => ⟨_, hva⟩
      rcases maps_setLeaf h hroot hm with ⟨-, -, heq⟩ | hm
      · exact absurd (heq.symm.trans hentry) hp
      · exact hm
  shown hsp := ⟨maps_setLeaf_of_zero hzero (h.shown hsp).1, maps_setLeaf_of_zero hzero (h.shown hsp).2⟩
  placed hh hva := maps_setLeaf_of_zero hzero (h.placed hh hva)
  fixed hr hn := fixed_setLeaf h hva hr hn

/-! ## Changes of the slots -/

/-- Slots may change as long as those that shared pages record stay, and none names a new page. -/
theorem Good.recap (h : Good L V) (hroots : L'.roots = L.roots) (hshm : L'.shm = L.shm)
    (hpages : L'.pages = L.pages) (hclaim : L'.claim = L.claim) (hpolicy : L'.policy = L.policy)
    (hslots : ∀ {id sp}, L.shm id = some sp → L'.caps sp.first.1 sp.first.2 = some (.shm id) ∧
      L'.caps sp.second.1 sp.second.2 = some (.shm id))
    (hcaps : ∀ {q s id}, L'.caps q s = some (.page id) → L.caps q s = some (.page id)) :
    Good L' V := by
  have hmaps : ∀ {pid va p}, L'.Maps V pid va p ↔ L.Maps V pid va p := by
    intro pid va p
    unfold Maps
    rw [hroots]
  have hholds : ∀ {q id rec}, L'.HoldsPage q id rec → L.HoldsPage q id rec := by
    intro q id rec hh
    obtain ⟨⟨s, hs⟩, hrec⟩ := hh
    exact ⟨⟨s, hcaps hs⟩, hpages ▸ hrec⟩
  refine ⟨fun hr => h.root (hroots ▸ hr), fun hr hr' => h.rootInj (hroots ▸ hr) (hroots ▸ hr'),
    fun hsp => hslots (hshm ▸ hsp), fun hcap => ?_, fun hcap hcap' => h.unique (hcaps hcap)
      (hcaps hcap'), fun p => ?_, fun hsp => ?_, fun hh hva => hmaps.mpr (h.placed (hholds hh) hva),
    fun hr hn => ?_⟩
  · rw [hpages]
    exact h.live (hcaps hcap)
  · exact (h.at_ p).mono hmaps.mp rfl (fun hd => hd) (fun _ => rfl) hpolicy (fun _ => by rw [hshm])
      (fun _ hh => hholds hh) fun _ hva => ⟨_, by rw [hclaim, hva]⟩
  · have hsp' := h.shown (hshm ▸ hsp)
    exact ⟨hmaps.mpr hsp'.1, hmaps.mpr hsp'.2⟩
  · rw [hpolicy] at hn ⊢
    exact h.fixed (hroots ▸ hr) hn

/-! ## Pages that are let go -/

/-- A page is taken out of all address spaces and out of the records. Nothing else is mapped where
it was mapped, so all that is said about other pages stays. -/
theorem Good.letGo {places : Nat → Nat × Nat × Nat → Prop} {page : Nat} (h : Good L V)
    (hV : V.Loses V' places) (hroots : L'.roots = L.roots) (hclaim : L'.claim = L.claim)
    (hpolicy : L'.policy = L.policy)
    (hshm : ∀ {id sp}, L'.shm id = some sp ↔ L.shm id = some sp ∧ sp.paddr ≠ page)
    (hcaps : ∀ {q s id}, L'.caps q s = some (.page id) → L.caps q s = some (.page id) ∧
      L'.pages id = L.pages id)
    (hslots : ∀ {id sp}, L'.shm id = some sp → L'.caps sp.first.1 sp.first.2 = some (.shm id) ∧
      L'.caps sp.second.1 sp.second.2 = some (.shm id))
    (hholds : ∀ {q id rec}, L'.HoldsPage q id rec → rec.paddr ≠ page)
    (hthere : ∀ {q r n}, L.roots q = some r → places r n → User (V.leaf r n) ∧
      ptePaddr (V.leaf r n) = page)
    (hgone : ∀ {q r va}, L.Maps V q va page → L.roots q = some r → places r (vpn va)) :
    Good L' V' ∧ L'.Unmapped V' page ∧ L'.Unclaimed page := by
  have hback : ∀ {q va p}, L'.Maps V' q va p → L.Maps V q va p ∧ p ≠ page := by
    intro q va p hm
    obtain ⟨r, hr, huser, hp⟩ := hm
    rw [hroots] at hr
    have hplace : ¬ places r (vpn va) := fun hplace => hV.gone r _ hplace huser
    rw [hV.leaves r _ hplace] at huser hp
    refine ⟨⟨r, hr, huser, hp⟩, ?_⟩
    rintro rfl
    exact hplace (hgone ⟨r, hr, huser, hp⟩ hr)
  have hforth : ∀ {q va p}, L.Maps V q va p → p ≠ page → L'.Maps V' q va p := by
    intro q va p hm hp
    obtain ⟨r, hr, huser, rfl⟩ := hm
    have hplace : ¬ places r (vpn va) := fun hplace => hp (hthere hr hplace).2
    rw [← hV.leaves r _ hplace] at huser ⊢
    exact ⟨r, hroots ▸ hr, huser, rfl⟩
  have hold : ∀ {q id rec}, L'.HoldsPage q id rec → L.HoldsPage q id rec := by
    intro q id rec hh
    obtain ⟨⟨s, hs⟩, hrec⟩ := hh
    obtain ⟨hs', heq⟩ := hcaps hs
    exact ⟨⟨s, hs'⟩, heq ▸ hrec⟩
  have hunmapped : L'.Unmapped V' page := fun q va hm => (hback hm).2 rfl
  have hunclaimed : L'.Unclaimed page :=
    ⟨fun id sp hsp => (hshm.mp hsp).2, fun q id rec hh => hholds hh⟩
  refine ⟨⟨fun hr => ?_, fun hr hr' => h.rootInj (hroots ▸ hr) (hroots ▸ hr'), hslots, fun hc => ?_,
    fun hc hc' => h.unique (hcaps hc).1 (hcaps hc').1, fun p => ?_, fun hsp => ?_, fun hh hva => ?_,
    fun {q r n} hr hn => ?_⟩, hunmapped, hunclaimed⟩
  · rw [hV.roots]
    exact h.root (hroots ▸ hr)
  · obtain ⟨hc', heq⟩ := hcaps hc
    rw [heq]
    exact h.live hc'
  · by_cases hp : p = page
    · rw [hp]
      exact at_of_unmapped hunmapped hunclaimed
    · refine (h.at_ p).mono (fun hm => (hback hm).1) hV.range (fun hd => by rwa [hV.data])
        (fun _ => by rw [hV.word]) hpolicy (fun heq => ?_) (fun _ hh => hold hh) fun _ hva => ⟨_, by rw [hclaim, hva]⟩
      rw [hshm, and_iff_left]
      rintro rfl
      exact hp heq.symm
  · obtain ⟨hsp', hne⟩ := hshm.mp hsp
    exact ⟨hforth (h.shown hsp').1 hne, hforth (h.shown hsp').2 hne⟩
  · exact hforth (h.placed (hold hh) hva) (hholds hh)
  · rw [hroots] at hr
    rw [hpolicy] at hn ⊢
    rw [hV.leaves r n, h.fixed hr hn]
    intro hplace
    obtain ⟨huser, -⟩ := hthere hr hplace
    rw [h.fixed hr hn] at huser
    exact L.policy.plain hn huser

/-- A shared page loses its record, the slots it records and its mappings. -/
theorem Good.dropShm {id : Nat} {sp : SharedPage} (h : Good L V) (hsp : L.shm id = some sp)
    (hV : V.Loses V' fun r n => n = vpn shmVa ∧
      (L.roots sp.first.1 = some r ∨ L.roots sp.second.1 = some r))
    (hroots : L'.roots = L.roots) (hshm : ∀ x, L'.shm x = if x = id then none else L.shm x)
    (hpages : L'.pages = L.pages) (hclaim : L'.claim = L.claim) (hpolicy : L'.policy = L.policy)
    (hkept : ∀ q s, (q, s) ≠ sp.first → (q, s) ≠ sp.second → L'.caps q s = L.caps q s)
    (hcaps : ∀ {q s c}, L'.caps q s = some c → L.caps q s = some c) :
    Good L' V' ∧ L'.Unmapped V' sp.paddr ∧ L'.Unclaimed sp.paddr := by
  obtain ⟨-, honly⟩ := (h.at_ sp.paddr).shared hsp rfl
  have hold : ∀ {x sp'}, L'.shm x = some sp' → x ≠ id ∧ L.shm x = some sp' := by
    intro x sp' hx
    rw [hshm] at hx
    split at hx
    · cases hx
    · next hne => exact ⟨hne, hx⟩
  refine h.letGo hV hroots hclaim hpolicy (fun {x sp'} => ⟨fun hx => ?_, fun hx => ?_⟩)
    (fun hc => ⟨hcaps hc, by rw [hpages]⟩) (fun {x sp'} hx => ?_) (fun {q x rec} hh => ?_)
    (fun hr hplace => ?_) fun hm hr => ?_
  · obtain ⟨hne, hx⟩ := hold hx
    exact ⟨hx, fun hp => hne ((h.at_ sp.paddr).sharedOnce hx hsp hp rfl)⟩
  · rw [hshm, if_neg, hx.1]
    rintro rfl
    cases hsp.symm.trans hx.1
    exact hx.2 rfl
  · -- The slots of another record hold another capability than those that are cleared.
    obtain ⟨hne, hx⟩ := hold hx
    obtain ⟨hfirst, hsecond⟩ := h.slots hx
    obtain ⟨hf, hs⟩ := h.slots hsp
    have hother : ∀ q s, L.caps q s = some (.shm x) → L'.caps q s = some (.shm x) := by
      intro q s hslot
      rw [hkept, hslot]
      · intro heq
        rw [← heq, hslot] at hf
        cases hf
        exact hne rfl
      · intro heq
        rw [← heq, hslot] at hs
        cases hs
        exact hne rfl
    exact ⟨hother _ _ hfirst, hother _ _ hsecond⟩
  · obtain ⟨⟨s, hs⟩, hrec⟩ := hh
    have hheld : L.HoldsPage q x rec := ⟨⟨s, hcaps hs⟩, hpages ▸ hrec⟩
    exact fun hp => (h.at_ sp.paddr).apart hheld hsp hp rfl
  · obtain ⟨⟨r₁, hr₁, hleaf₁⟩, r₂, hr₂, hleaf₂⟩ := h.shown hsp
    obtain ⟨rfl, hfirst | hsecond⟩ := hplace
    · cases hr₁.symm.trans hfirst
      exact hleaf₁
    · cases hr₂.symm.trans hsecond
      exact hleaf₂
  · obtain ⟨hva, rfl | rfl⟩ := honly hm
    · exact ⟨hva, .inl hr⟩
    · exact ⟨hva, .inr hr⟩

/-- A page loses its record, its slot and its mapping. -/
theorem Good.dropPage {q s id : Nat} {rec : PageRecord} (h : Good L V)
    (hcap : L.caps q s = some (.page id)) (hrec : L.pages id = some rec)
    (hV : V.Loses V' fun r n => L.roots q = some r ∧ ∃ va, rec.mapVa = some va ∧ n = vpn va)
    (hroots : L'.roots = L.roots) (hshm : L'.shm = L.shm)
    (hpages : ∀ x, L'.pages x = if x = id then none else L.pages x) (hclaim : L'.claim = L.claim)
    (hpolicy : L'.policy = L.policy)
    (hcaps : ∀ q' s', L'.caps q' s' = if q' = q ∧ s' = s then none else L.caps q' s') :
    Good L' V' ∧ L'.Unmapped V' rec.paddr ∧ L'.Unclaimed rec.paddr := by
  have hheld : L.HoldsPage q id rec := ⟨⟨s, hcap⟩, hrec⟩
  obtain ⟨-, honly⟩ := (h.at_ rec.paddr).owned hheld rfl
  have hold : ∀ {q' s' c}, L'.caps q' s' = some c → L.caps q' s' = some c := by
    intro q' s' c hc
    rw [hcaps] at hc
    split at hc
    · cases hc
    · exact hc
  have hother : ∀ {q' s' x}, L'.caps q' s' = some (.page x) → x ≠ id := by
    intro q' s' x hc
    rintro rfl
    obtain ⟨rfl, rfl⟩ := h.unique (hold hc) hcap
    rw [hcaps, if_pos ⟨rfl, rfl⟩] at hc
    cases hc
  refine h.letGo hV hroots hclaim hpolicy (fun {x sp} => ?_)
    (fun {q' s' x} hc => ⟨hold hc, by rw [hpages, if_neg (hother hc)]⟩) (fun {x sp} hx => ?_)
    (fun {q' x rec'} hh hp => ?_) (fun {q' r n} hr hplace => ?_) fun {q' r va} hm hr => ?_
  · rw [hshm]
    refine (and_iff_left_of_imp fun hx => ?_).symm
    exact (h.at_ rec.paddr).apart hheld hx rfl
  · obtain ⟨hfirst, hsecond⟩ := h.slots (hshm ▸ hx)
    have hkept : ∀ q' s', L.caps q' s' = some (.shm x) → L'.caps q' s' = some (.shm x) := by
      intro q' s' hslot
      rw [hcaps, if_neg, hslot]
      rintro ⟨rfl, rfl⟩
      rw [hcap] at hslot
      cases hslot
    exact ⟨hkept _ _ hfirst, hkept _ _ hsecond⟩
  · obtain ⟨⟨s', hs'⟩, hrec'⟩ := hh
    rw [hpages, if_neg (hother hs')] at hrec'
    exact hother hs' ((h.at_ rec.paddr).ownedOnce ⟨⟨s', hold hs'⟩, hrec'⟩ hheld hp rfl)
  · obtain ⟨hq, va, hva, rfl⟩ := hplace
    obtain ⟨r', hr', hleaf⟩ := h.placed hheld hva
    cases hq.symm.trans hr'
    exact hleaf
  · obtain ⟨rfl, va', hva', hvpn⟩ := honly hm
    exact ⟨hr, va', hva', hvpn⟩

/-- The records without a page. -/
def without (L : Ledger) (q s id : Nat) : Ledger :=
  { L with
    caps := fun q' s' => if q' = q ∧ s' = s then none else L.caps q' s'
    pages := fun x => if x = id then none else L.pages x }

theorem Good.without {q s id : Nat} {rec : PageRecord} (h : Good L V)
    (hcap : L.caps q s = some (.page id)) (hrec : L.pages id = some rec)
    (hV : V.Loses V' fun r n => L.roots q = some r ∧ ∃ va, rec.mapVa = some va ∧ n = vpn va) :
    Good (L.without q s id) V' ∧ (L.without q s id).Unmapped V' rec.paddr ∧
      (L.without q s id).Unclaimed rec.paddr :=
  h.dropPage hcap hrec hV rfl rfl (fun _ => rfl) rfl rfl fun _ _ => rfl

/-! ## Records that come -/

/-- A page that only its owner-to-be maps gets a record and a slot. -/
theorem Good.addPage (h : Good L V) (q s id : Nat) (rec : PageRecord) (hempty : L.caps q s = none)
    (hdead : L.pages id = none) (howner : rec.owner = q) (hdata : V.data rec.paddr)
    (hrange : V.inRange rec.paddr = true)
    (honly : ∀ {pid va}, L.Maps V pid va rec.paddr →
      pid = q ∧ ∃ va', rec.mapVa = some va' ∧ vpn va = vpn va')
    (hplaced : ∀ va, rec.mapVa = some va → L.Maps V q va rec.paddr) (hfree : L.Unclaimed rec.paddr)
    (hwords : ∀ {x}, Usage.InPage rec.paddr x → L.policy.allows rec.paddr x (V.word rec.paddr x))
    (hroots : L'.roots = L.roots) (hshm : L'.shm = L.shm)
    (hpages : ∀ x, L'.pages x = if x = id then some rec else L.pages x)
    (hclaim : L'.claim = L.claim) (hpolicy : L'.policy = L.policy)
    (hcaps : ∀ q' s', L'.caps q' s' = if q' = q ∧ s' = s then some (.page id) else L.caps q' s') :
    Good L' V := by
  -- No slot names the id yet, since its record is dead.
  have hunnamed : ∀ {q' s'}, L.caps q' s' ≠ some (.page id) := by
    intro q' s' hc
    obtain ⟨rec', hrec', -⟩ := h.live hc
    rw [hdead] at hrec'
    cases hrec'
  have hpage : ∀ {q' s' x}, L'.caps q' s' = some (.page x) →
      (q' = q ∧ s' = s ∧ x = id) ∨ (x ≠ id ∧ L.caps q' s' = some (.page x)) := by
    intro q' s' x hc
    rw [hcaps] at hc
    split at hc
    · next heq =>
      cases hc
      exact .inl ⟨heq.1, heq.2, rfl⟩
    · refine .inr ⟨?_, hc⟩
      rintro rfl
      exact hunnamed hc
  have hholds : ∀ {q' x rec'}, L'.HoldsPage q' x rec' →
      (q' = q ∧ x = id ∧ rec' = rec) ∨ (x ≠ id ∧ L.HoldsPage q' x rec') := by
    intro q' x rec' hh
    obtain ⟨⟨s', hs'⟩, hrec'⟩ := hh
    rw [hpages] at hrec'
    rcases hpage hs' with ⟨rfl, -, rfl⟩ | ⟨hne, hs'⟩
    · rw [if_pos rfl] at hrec'
      exact .inl ⟨rfl, rfl, (Option.some.inj hrec').symm⟩
    · rw [if_neg hne] at hrec'
      exact .inr ⟨hne, ⟨s', hs'⟩, hrec'⟩
  have hmaps : ∀ {pid va p}, L'.Maps V pid va p ↔ L.Maps V pid va p := by
    intro pid va p
    unfold Maps
    rw [hroots]
  refine ⟨fun hr => h.root (hroots ▸ hr), fun hr hr' => h.rootInj (hroots ▸ hr) (hroots ▸ hr'),
    fun {x sp} hx => ?_, fun hc => ?_, fun hc hc' => ?_, fun p => ?_, fun hx => ?_,
    fun {q' x rec' va} hh hva => ?_, fun hr hn => ?_⟩
  · obtain ⟨hfirst, hsecond⟩ := h.slots (hshm ▸ hx)
    have hkept : ∀ q' s', L.caps q' s' = some (.shm x) → L'.caps q' s' = some (.shm x) := by
      intro q' s' hslot
      rw [hcaps, if_neg, hslot]
      rintro ⟨rfl, rfl⟩
      rw [hempty] at hslot
      cases hslot
    exact ⟨hkept _ _ hfirst, hkept _ _ hsecond⟩
  · rcases hpage hc with ⟨rfl, -, rfl⟩ | ⟨hne, hc⟩
    · exact ⟨rec, by rw [hpages, if_pos rfl], howner⟩
    · rw [hpages, if_neg hne]
      exact h.live hc
  · rcases hpage hc with ⟨rfl, rfl, rfl⟩ | ⟨hne, hc⟩
    · rcases hpage hc' with ⟨rfl, rfl, -⟩ | ⟨hne, -⟩
      · exact ⟨rfl, rfl⟩
      · exact absurd rfl hne
    · rcases hpage hc' with ⟨-, -, heq⟩ | ⟨-, hc'⟩
      · exact absurd heq hne
      · exact h.unique hc hc'
  · by_cases hp : p = rec.paddr
    · subst hp
      refine ⟨fun _ _ => hdata, fun hm hm' hr => ?_, fun _ hr => ?_, fun hx hp => ?_,
        fun hx _ hp => ?_, fun hh hp => ?_, fun hh hh' hp hp' => ?_, fun hh hx hp hp' => ?_,
        fun _ hx => hpolicy ▸ hwords hx⟩
      · rcases (h.at_ _).once (hmaps.mp hm) (hmaps.mp hm') hr with heq | ⟨x, sp, hx, hp⟩
        · exact .inl heq
        · exact absurd hp (hfree.1 x sp hx)
      · rw [hrange] at hr
        cases hr
      · exact absurd hp (hfree.1 _ _ (hshm ▸ hx))
      · exact absurd hp (hfree.1 _ _ (hshm ▸ hx))
      · rcases hholds hh with ⟨rfl, rfl, rfl⟩ | ⟨-, hh⟩
        · exact ⟨hdata, fun hm => honly (hmaps.mp hm)⟩
        · exact absurd hp (hfree.2 _ _ _ hh)
      · rcases hholds hh with ⟨-, rfl, -⟩ | ⟨-, hh⟩
        · rcases hholds hh' with ⟨-, rfl, -⟩ | ⟨-, hh'⟩
          · rfl
          · exact absurd hp' (hfree.2 _ _ _ hh')
        · exact absurd hp (hfree.2 _ _ _ hh)
      · exact hfree.1 _ _ (hshm ▸ hx) hp'
    · refine (h.at_ p).mono hmaps.mp rfl (fun hd => hd) (fun _ => rfl) hpolicy
        (fun _ => by rw [hshm]) (fun hp' hh => ?_) fun _ hva => ⟨_, by rw [hclaim, hva]⟩
      rcases hholds hh with ⟨-, -, rfl⟩ | ⟨-, hh⟩
      · exact absurd hp'.symm hp
      · exact hh
  · have hx' := h.shown (hshm ▸ hx)
    exact ⟨hmaps.mpr hx'.1, hmaps.mpr hx'.2⟩
  · rcases hholds hh with ⟨rfl, -, rfl⟩ | ⟨-, hh⟩
    · exact hmaps.mpr (hplaced va hva)
    · exact hmaps.mpr (h.placed hh hva)
  · rw [hpolicy] at hn ⊢
    exact h.fixed (hroots ▸ hr) hn

/-- A held page is mapped in two processes and recorded as shared. The slots that are written must
not be recorded for other shared pages. -/
theorem Good.share {rootA rootB entry id : Nat} (h : Good L V) (sp : SharedPage)
    (hA : L.roots sp.first.1 = some rootA) (hB : L.roots sp.second.1 = some rootB)
    (hzeroA : V.leaf rootA (vpn shmVa) = 0)
    (hzeroB : (V.setLeaf rootA (vpn shmVa) entry).leaf rootB (vpn shmVa) = 0)
    (hva : ¬ L.policy.fixed (vpn shmVa)) (huser : User entry)
    (hentry : ptePaddr entry = sp.paddr) (hdata : V.data sp.paddr)
    (hrange : V.inRange sp.paddr = true) (hunmapped : L.Unmapped V sp.paddr)
    (hfree : L.Unclaimed sp.paddr)
    (hwords : ∀ {x}, Usage.InPage sp.paddr x → L.policy.allows sp.paddr x (V.word sp.paddr x))
    (hdead : L.shm id = none)
    (hslots : ∀ {x sp'}, L.shm x = some sp' → sp'.first ≠ sp.first ∧ sp'.first ≠ sp.second ∧
      sp'.second ≠ sp.first ∧ sp'.second ≠ sp.second)
    (hroots : L'.roots = L.roots) (hshm : ∀ x, L'.shm x = if x = id then some sp else L.shm x)
    (hpages : L'.pages = L.pages) (hclaim : L'.claim = L.claim) (hpolicy : L'.policy = L.policy)
    (hcaps : ∀ q s, L'.caps q s =
      if (q, s) = sp.first ∨ (q, s) = sp.second then some (.shm id) else L.caps q s) :
    Good L' ((V.setLeaf rootA (vpn shmVa) entry).setLeaf rootB (vpn shmVa) entry) := by
  have hfirst : Good L (V.setLeaf rootA (vpn shmVa) entry) :=
    h.setLeaf hA hzeroA hva hentry hdata hrange hunmapped hfree hwords
  have hforth : ∀ {pid va p}, L.Maps V pid va p →
      L'.Maps ((V.setLeaf rootA (vpn shmVa) entry).setLeaf rootB (vpn shmVa) entry) pid va p := by
    intro pid va p hm
    obtain ⟨r, hr, hleaf⟩ := maps_setLeaf_of_zero hzeroB (maps_setLeaf_of_zero hzeroA hm)
    exact ⟨r, hroots ▸ hr, hleaf⟩
  have hmaps : ∀ {pid va p},
      L'.Maps ((V.setLeaf rootA (vpn shmVa) entry).setLeaf rootB (vpn shmVa) entry) pid va p →
      (p = sp.paddr ∧ vpn va = vpn shmVa ∧ (pid = sp.first.1 ∨ pid = sp.second.1)) ∨
        L.Maps V pid va p := by
    intro pid va p hm
    obtain ⟨r, hr, huser⟩ := hm
    have hm : L.Maps ((V.setLeaf rootA (vpn shmVa) entry).setLeaf rootB (vpn shmVa) entry) pid va p :=
      ⟨r, hroots ▸ hr, huser⟩
    rcases maps_setLeaf hfirst hB hm with ⟨hpid, hva, hp⟩ | hm
    · exact .inl ⟨hp.symm.trans hentry, hva, .inr hpid⟩
    · rcases maps_setLeaf h hA hm with ⟨hpid, hva, hp⟩ | hm
      · exact .inl ⟨hp.symm.trans hentry, hva, .inl hpid⟩
      · exact .inr hm
  have hpage : ∀ {q s x}, L'.caps q s = some (.page x) → L.caps q s = some (.page x) := by
    intro q s x hc
    rw [hcaps] at hc
    split at hc
    · cases hc
    · exact hc
  have hholds : ∀ {q x rec}, L'.HoldsPage q x rec → L.HoldsPage q x rec := by
    intro q x rec hh
    obtain ⟨⟨s, hs⟩, hrec⟩ := hh
    exact ⟨⟨s, hpage hs⟩, hpages ▸ hrec⟩
  have hnew : ∀ {x sp'}, L'.shm x = some sp' → (x = id ∧ sp' = sp) ∨ L.shm x = some sp' := by
    intro x sp' hx
    rw [hshm] at hx
    split at hx
    · next heq => exact .inl ⟨heq, (Option.some.inj hx).symm⟩
    · exact .inr hx
  refine ⟨fun hr => h.root (hroots ▸ hr), fun hr hr' => h.rootInj (hroots ▸ hr) (hroots ▸ hr'),
    fun {x sp'} hx => ?_, fun hc => ?_, fun hc hc' => h.unique (hpage hc) (hpage hc'), fun p => ?_,
    fun {x sp'} hx => ?_, fun hh hva => hforth (h.placed (hholds hh) hva), fun {q r n} hr hn => ?_⟩
  · rcases hnew hx with ⟨rfl, rfl⟩ | hx
    · exact ⟨by rw [hcaps, if_pos (.inl rfl)], by rw [hcaps, if_pos (.inr rfl)]⟩
    · obtain ⟨h₁, h₂, h₃, h₄⟩ := hslots hx
      obtain ⟨hf, hs⟩ := h.slots hx
      refine ⟨?_, ?_⟩
      · rw [hcaps, if_neg (not_or.mpr ⟨h₁, h₂⟩), hf]
      · rw [hcaps, if_neg (not_or.mpr ⟨h₃, h₄⟩), hs]
  · rw [hpages]
    exact h.live (hpage hc)
  · by_cases hp : p = sp.paddr
    · subst hp
      have hone : L'.shm id = some sp := by rw [hshm, if_pos rfl]
      refine ⟨fun _ _ => hdata, fun _ _ _ => .inr ⟨id, sp, hone, rfl⟩, fun _ hr => ?_,
        fun hx hp => ?_, fun hx hx' hp hp' => ?_, fun hh hp => ?_, fun hh _ hp => ?_,
        fun hh _ hp => ?_, fun _ hx => hpolicy ▸ hwords hx⟩
      · change V.inRange sp.paddr = false at hr
        rw [hrange] at hr
        cases hr
      · rcases hnew hx with ⟨rfl, rfl⟩ | hx
        · refine ⟨hdata, fun hm => ?_⟩
          rcases hmaps hm with ⟨-, honly⟩ | hm
          · exact honly
          · exact absurd hm (hunmapped _ _)
        · exact absurd hp (hfree.1 _ _ hx)
      · rcases hnew hx with ⟨rfl, -⟩ | hx
        · rcases hnew hx' with ⟨rfl, -⟩ | hx'
          · rfl
          · exact absurd hp' (hfree.1 _ _ hx')
        · exact absurd hp (hfree.1 _ _ hx)
      · exact absurd hp (hfree.2 _ _ _ (hholds hh))
      · exact absurd hp (hfree.2 _ _ _ (hholds hh))
      · exact absurd hp (hfree.2 _ _ _ (hholds hh))
    · refine (h.at_ p).mono (fun hm => ?_) rfl (fun hd => hd) (fun _ => rfl) hpolicy
        (fun {x sp'} hp' => ?_) (fun _ hh => hholds hh) fun _ hva => ⟨_, by rw [hclaim, hva]⟩
      · rcases hmaps hm with ⟨heq, -⟩ | hm
        · exact absurd heq hp
        · exact hm
      · refine ⟨fun hx => ?_, fun hx => ?_⟩
        · rcases hnew hx with ⟨-, rfl⟩ | hx
          · exact absurd hp'.symm hp
          · exact hx
        · rw [hshm, if_neg, hx]
          rintro rfl
          rw [hdead] at hx
          cases hx
  · rcases hnew hx with ⟨rfl, rfl⟩ | hx
    · obtain ⟨r₁, hr₁, hleaf₁⟩ := maps_setLeaf_of_zero hzeroB (maps_setLeaf_self hA huser)
      obtain ⟨r₂, hr₂, hleaf₂⟩ := maps_setLeaf_self hB huser
      rw [hentry] at hleaf₁ hleaf₂
      exact ⟨⟨r₁, hroots ▸ hr₁, hleaf₁⟩, r₂, hroots ▸ hr₂, hleaf₂⟩
    · exact ⟨hforth (h.shown hx).1, hforth (h.shown hx).2⟩
  · rw [hpolicy] at hn ⊢
    exact fixed_setLeaf hfirst hva (hroots ▸ hr) hn

/-! ## Processes and the device -/

/-- The first claim on the device. -/
theorem Good.claimDevice {entry device : Nat} (h : Good L V) (hroot : L.roots pid = some root)
    (hzero : V.leaf root (vpn va) = 0) (hva : ¬ L.policy.fixed (vpn va))
    (hentry : ptePaddr entry = device) (hrange : V.inRange device = false)
    (hdata : ¬ V.data device) (hnone : L.claim = none) (hcaps : L'.caps = L.caps)
    (hroots : L'.roots = L.roots) (hshm : L'.shm = L.shm) (hpages : L'.pages = L.pages)
    (hclaim : L'.claim = some (pid, va)) (hpolicy : L'.policy = L.policy) : Good L' (V.setLeaf root (vpn va) entry) := by
  have hmaps : ∀ {pid' va' p}, L'.Maps (V.setLeaf root (vpn va) entry) pid' va' p →
      (pid' = pid ∧ p = device) ∨ L.Maps V pid' va' p := by
    intro pid' va' p hm
    obtain ⟨r, hr, huser⟩ := hm
    rcases maps_setLeaf h hroot ⟨r, hroots ▸ hr, huser⟩ with ⟨hpid, -, hp⟩ | hm
    · exact .inl ⟨hpid, hp.symm.trans hentry⟩
    · exact .inr hm
  have hforth : ∀ {pid' va' p}, L.Maps V pid' va' p →
      L'.Maps (V.setLeaf root (vpn va) entry) pid' va' p := by
    intro pid' va' p hm
    obtain ⟨r, hr, hleaf⟩ := maps_setLeaf_of_zero hzero hm
    exact ⟨r, hroots ▸ hr, hleaf⟩
  have hholds : ∀ {q x rec}, L'.HoldsPage q x rec → L.HoldsPage q x rec := by
    intro q x rec hh
    obtain ⟨⟨s, hs⟩, hrec⟩ := hh
    exact ⟨⟨s, hcaps ▸ hs⟩, hpages ▸ hrec⟩
  refine ⟨fun hr => h.root (hroots ▸ hr), fun hr hr' => h.rootInj (hroots ▸ hr) (hroots ▸ hr'),
    fun hx => ?_, fun hc => ?_, fun hc hc' => h.unique (hcaps ▸ hc) (hcaps ▸ hc'), fun p => ?_,
    fun hx => ?_, fun hh hva => hforth (h.placed (hholds hh) hva), fun hr hn => ?_⟩
  · rw [hcaps]
    exact h.slots (hshm ▸ hx)
  · rw [hpages]
    exact h.live (hcaps ▸ hc)
  · by_cases hp : p = device
    · subst hp
      -- The page of the device belongs to no record, for it is not held.
      have hfree : L'.Unclaimed p := by
        refine ⟨fun x sp hx hp => hdata ((h.at_ p).shared (hshm ▸ hx) hp).1,
          fun q x rec hh hp => hdata ((h.at_ p).owned (hholds hh) hp).1⟩
      refine ⟨fun _ hr => ?_, fun _ _ hr => ?_, fun hm _ => ?_, fun hx hp => ?_, fun hx _ hp => ?_,
        fun hh hp => ?_, fun hh _ hp => ?_, fun hh _ hp => ?_, fun hused _ => ?_⟩
      · rw [show V.inRange p = true from hr] at hrange
        cases hrange
      · rw [show V.inRange p = true from hr] at hrange
        cases hrange
      · rcases hmaps hm with ⟨rfl, -⟩ | hm
        · exact ⟨va, hclaim⟩
        · obtain ⟨va', hva'⟩ := (h.at_ p).device hm hrange
          rw [hnone] at hva'
          cases hva'
      · exact absurd hp (hfree.1 _ _ hx)
      · exact absurd hp (hfree.1 _ _ hx)
      · exact absurd hp (hfree.2 _ _ _ hh)
      · exact absurd hp (hfree.2 _ _ _ hh)
      · exact absurd hp (hfree.2 _ _ _ hh)
      · rcases hused with ⟨hr, -⟩ | ⟨q, id, rec, hh, hp⟩
        · rw [show V.inRange p = true from hr] at hrange
          cases hrange
        · exact absurd hp (hfree.2 _ _ _ hh)
    · refine (h.at_ p).mono (fun hm => ?_) rfl (fun hd => hd) (fun _ => rfl) hpolicy
        (fun _ => by rw [hshm]) (fun _ hh => hholds hh) fun _ hva => ?_
      · rcases hmaps hm with ⟨-, heq⟩ | hm
        · exact absurd heq hp
        · exact hm
      · rw [hnone] at hva
        cases hva
  · have hx' := h.shown (hshm ▸ hx)
    exact ⟨hforth hx'.1, hforth hx'.2⟩
  · rw [hpolicy] at hn ⊢
    exact fixed_setLeaf h hva (hroots ▸ hr) hn

/-- A new process with an address space that maps nothing for user code. -/
theorem Good.addProcess (h : Good L V) (hdead : L.roots pid = none) (hnew : ¬ V.root root)
    (hgrows : (V.addRoot root).Grows V' root)
    (hkernel : ∀ {n}, L.policy.fixed n → V'.leaf root n = L.policy.kernel n)
    (hcaps : L'.caps = L.caps) (hroots : ∀ q, L'.roots q = if q = pid then some root else L.roots q)
    (hshm : L'.shm = L.shm) (hpages : L'.pages = L.pages) (hclaim : L'.claim = L.claim)
    (hpolicy : L'.policy = L.policy) : Good L' V' := by
  have hold : ∀ {q r}, L'.roots q = some r → (q = pid ∧ r = root) ∨ (r ≠ root ∧ L.roots q = some r) := by
    intro q r hr
    rw [hroots] at hr
    split at hr
    · next heq => exact .inl ⟨heq, (Option.some.inj hr).symm⟩
    · refine .inr ⟨?_, hr⟩
      rintro rfl
      exact hnew (h.root hr)
  have hleaf : ∀ {r}, r ≠ root → V'.leaf r = V.leaf r := by
    intro r hne
    rw [hgrows.leaves r hne]
    funext n
    exact if_neg hne
  have hmaps : ∀ {q va p}, L'.Maps V' q va p → L.Maps V q va p := by
    intro q va p hm
    obtain ⟨r, hr, huser, hp⟩ := hm
    rcases hold hr with ⟨-, rfl⟩ | ⟨hne, hr⟩
    · exact absurd huser (hgrows.plain _)
    · rw [hleaf hne] at huser hp
      exact ⟨r, hr, huser, hp⟩
  have hforth : ∀ {q va p}, L.Maps V q va p → L'.Maps V' q va p := by
    intro q va p hm
    obtain ⟨r, hr, huser⟩ := hm
    have hne : r ≠ root := by
      rintro rfl
      exact hnew (h.root hr)
    refine ⟨r, ?_, hleaf hne ▸ huser⟩
    rw [hroots, if_neg, hr]
    rintro rfl
    rw [hdead] at hr
    cases hr
  have hholds : ∀ {q x rec}, L'.HoldsPage q x rec → L.HoldsPage q x rec := by
    intro q x rec hh
    obtain ⟨⟨s, hs⟩, hrec⟩ := hh
    exact ⟨⟨s, hcaps ▸ hs⟩, hpages ▸ hrec⟩
  refine ⟨fun hr => ?_, fun hr hr' => ?_, fun hx => ?_, fun hc => ?_,
    fun hc hc' => h.unique (hcaps ▸ hc) (hcaps ▸ hc'), fun p => ?_, fun hx => ?_,
    fun hh hva => hforth (h.placed (hholds hh) hva), fun {q r n} hr hn => ?_⟩
  · rw [hgrows.roots]
    rcases hold hr with ⟨-, rfl⟩ | ⟨-, hr⟩
    · exact .inl rfl
    · exact .inr (h.root hr)
  · rcases hold hr with ⟨rfl, rfl⟩ | ⟨hne, hr⟩
    · rcases hold hr' with ⟨rfl, -⟩ | ⟨hne, -⟩
      · rfl
      · exact absurd rfl hne
    · rcases hold hr' with ⟨-, rfl⟩ | ⟨-, hr'⟩
      · exact absurd rfl hne
      · exact h.rootInj hr hr'
  · rw [hcaps]
    exact h.slots (hshm ▸ hx)
  · rw [hpages]
    exact h.live (hcaps ▸ hc)
  · exact (h.at_ p).mono hmaps hgrows.range (hgrows.data p) (hgrows.word p) hpolicy
      (fun _ => by rw [hshm]) (fun _ hh => hholds hh) fun _ hva => ⟨_, by rw [hclaim, hva]⟩
  · have hx' := h.shown (hshm ▸ hx)
    exact ⟨hforth hx'.1, hforth hx'.2⟩
  · rw [hpolicy] at hn ⊢
    rcases hold hr with ⟨-, rfl⟩ | ⟨hne, hr⟩
    · exact hkernel hn
    · rw [hleaf hne]
      exact h.fixed hr hn

/-- A process that shares no page goes, and the pages it maps go with it. -/
theorem Good.dropProcess (h : Good L V) (hroot : L.roots pid = some root)
    (halone : ∀ {id sp}, L.shm id = some sp → pid ≠ sp.first.1 ∧ pid ≠ sp.second.1)
    (hcaps : ∀ q s, L'.caps q s = if q = pid then none else L.caps q s)
    (hroots : ∀ q, L'.roots q = if q = pid then none else L.roots q)
    (hshm : L'.shm = L.shm) (hpages : L'.pages = L.pages)
    (hclaim : L'.claim = L.claim.filter fun c => c.1 ≠ pid) (hpolicy : L'.policy = L.policy) :
    Good L' (V.dropRoot root) := by
  have hold : ∀ {q r}, L'.roots q = some r → q ≠ pid ∧ L.roots q = some r := by
    intro q r hr
    rw [hroots] at hr
    split at hr
    · cases hr
    · next hne => exact ⟨hne, hr⟩
  have hcap : ∀ {q s c}, L'.caps q s = some c → q ≠ pid ∧ L.caps q s = some c := by
    intro q s c hc
    rw [hcaps] at hc
    split at hc
    · cases hc
    · next hne => exact ⟨hne, hc⟩
  have hmaps : ∀ {q va p}, L'.Maps (V.dropRoot root) q va p → q ≠ pid ∧ L.Maps V q va p := by
    intro q va p hm
    obtain ⟨r, hr, huser⟩ := hm
    obtain ⟨hne, hr⟩ := hold hr
    exact ⟨hne, r, hr, huser⟩
  have hforth : ∀ {q va p}, q ≠ pid → L.Maps V q va p → L'.Maps (V.dropRoot root) q va p := by
    intro q va p hne hm
    obtain ⟨r, hr, huser⟩ := hm
    exact ⟨r, by rw [hroots, if_neg hne, hr], huser⟩
  have hholds : ∀ {q x rec}, L'.HoldsPage q x rec → q ≠ pid ∧ L.HoldsPage q x rec := by
    intro q x rec hh
    obtain ⟨⟨s, hs⟩, hrec⟩ := hh
    exact ⟨(hcap hs).1, ⟨s, (hcap hs).2⟩, hpages ▸ hrec⟩
  refine ⟨fun hr => ?_, fun hr hr' => h.rootInj (hold hr).2 (hold hr').2, fun {x sp} hx => ?_,
    fun hc => ?_, fun hc hc' => h.unique (hcap hc).2 (hcap hc').2, fun p => ?_, fun hx => ?_,
    fun hh hva => hforth (hholds hh).1 (h.placed (hholds hh).2 hva), fun hr hn => ?_⟩
  · obtain ⟨hne, hr⟩ := hold hr
    refine ⟨?_, h.root hr⟩
    rintro rfl
    exact hne (h.rootInj hr hroot)
  · obtain ⟨hf, hs⟩ := halone (hshm ▸ hx)
    rw [hcaps, hcaps, if_neg hf.symm, if_neg hs.symm]
    exact h.slots (hshm ▸ hx)
  · rw [hpages]
    exact h.live (hcap hc).2
  · by_cases hgone : ∃ va, V.MapsPage root (vpn va) p
    · -- Only the process that goes maps the page.
      obtain ⟨va, huser, hrange, hp⟩ := hgone
      have hm₀ : L.Maps V pid va p := ⟨root, hroot, huser, hp⟩
      have hshared : ∀ {x sp}, L.shm x = some sp → sp.paddr ≠ p := by
        intro x sp hx hp'
        obtain ⟨-, honly⟩ := (h.at_ p).shared hx hp'
        obtain ⟨hf, hs⟩ := halone hx
        exact (honly hm₀).2.elim hf hs
      refine at_of_unmapped (fun q va' hm => ?_) ⟨fun x sp hx => hshared (hshm ▸ hx),
        fun q x rec hh hp' => ?_⟩
      · obtain ⟨hne, hm⟩ := hmaps hm
        rcases (h.at_ p).once hm hm₀ (hp ▸ hrange) with ⟨heq, -⟩ | ⟨x, sp, hx, hp'⟩
        · exact hne heq
        · exact hshared hx hp'
      · obtain ⟨hne, hh⟩ := hholds hh
        exact hne ((((h.at_ p).owned hh hp').2 hm₀).1).symm
    · refine (h.at_ p).mono (fun hm => (hmaps hm).2) rfl
        (fun hd => ⟨hd, fun va hm => hgone ⟨va, hm⟩⟩) (fun _ => rfl) hpolicy (fun _ => by rw [hshm])
        (fun _ hh => (hholds hh).2) fun {q va va'} hm hva => ⟨va', ?_⟩
      rw [hclaim, hva]
      exact if_pos (decide_eq_true (hmaps hm).1)
  · obtain ⟨hf, hs⟩ := halone (hshm ▸ hx)
    have hx' := h.shown (hshm ▸ hx)
    exact ⟨hforth hf.symm hx'.1, hforth hs.symm hx'.2⟩
  · rw [hpolicy] at hn ⊢
    exact h.fixed (hold hr).2 hn

end Ledger

end Ignium.Kernel
