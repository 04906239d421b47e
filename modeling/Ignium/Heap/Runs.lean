import Ignium.Heap.Slabs
import Ignium.Lib.Machine

/-!
# Runs of the heap

Objects are allocated and released, and other code uses the page allocator in between.
-/

namespace Ignium.Heap

open Mem Blocks Function Machine

/-- A call of the heap, or calls of the page allocator by other code. -/
inductive HeapOp where
  | alloc (layout : Layout)
  | dealloc (ptr : Nat) (layout : Layout)
  | pages (mem : Usage)

namespace KernelHeap

def step (h : KernelHeap) : HeapOp → Option KernelHeap
  | .alloc layout => (h.alloc layout).map Prod.snd
  | .dealloc ptr layout => h.dealloc ptr layout
  | .pages mem => some { h with mem := mem }

/-- Only taken slots and large objects are released, and other code leaves the slab pages held. -/
def Fair (h : KernelHeap) : HeapOp → Prop
  | .alloc _ => True
  | .dealloc ptr layout =>
    layout.size = 0 ∨ (∃ idx, h.Taken ptr idx) ∨ ∃ b, Large h ptr layout b
  | .pages mem => mem.Sound ∧ h.mem.allocator.SameRegion mem.allocator ∧
    ∀ i idx, h.pageClass i = some idx → Block.mk i 0 ∈ mem.live

/-- There is no memory for a layout: no slot of its class is free and there is no free page even
after the sweep, or there is no block of the order it needs. -/
def NoMemory (h : KernelHeap) (layout : Layout) : Prop :=
  match layout.slab? with
  | some idx => Full h idx ∧ ∃ h', h.sweepEmptyPages = some h' ∧
      h'.mem.allocPages 0 = some (none, h'.mem)
  | none => 2 ^ 64 ≤ layout.needed ∨ maxOrder < layout.order ∨
      h.mem.allocPages layout.order = some (none, h.mem)

/-- What an allocation at `x` does. A slot is large enough, was not taken before and is the only one
that becomes taken; a class gets a new page only when it has no free slot. A large object lies in a
new block. The other blocks stay held, with the words before other large objects. -/
def Allocates (h : KernelHeap) (layout : Layout) (x : Nat) (h' : KernelHeap) : Prop :=
  layout.align ∣ x ∧ (∀ idx, ¬ h.Taken x idx) ∧
  (∀ y idx, h'.Taken y idx ↔ h.Taken y idx ∨ y = x ∧ layout.slab? = some idx) ∧
  (∀ b, h.Other b → h'.Other b) ∧ (∀ y ≠ x, h'.block y = h.block y) ∧
  match layout.slab? with
  | some idx => layout.size ≤ slabSizes idx ∧ (h'.chain = h.chain ∨ Full h idx)
  | none => h'.chain = h.chain ∧ ∃ b, b ∉ h.mem.live ∧ Large h' x layout b

/-- What the release of `ptr` does: its slot is not taken any more, and blocks without it stay held. -/
def Releases (h : KernelHeap) (ptr : Nat) (h' : KernelHeap) : Prop :=
  h'.chain = h.chain ∧ (∀ y idx, h'.Taken y idx ↔ h.Taken y idx ∧ y ≠ ptr) ∧
    h'.block = h.block ∧ ∀ b, h.Other b → ¬ InBlock h.base b ptr → h'.Other b

/-- What a call does: only an allocation fails, for lack of memory. The invariant is kept. -/
def Effect (h : KernelHeap) : HeapOp → Prop
  | .alloc layout => h.alloc layout = none ∧ layout.size ≠ 0 ∧ h.NoMemory layout ∨
      ∃ x h', h.alloc layout = some (x, h') ∧ Slabs h' ∧
        (layout.size = 0 ∧ h' = h ∨ h.Allocates layout x h')
  | .dealloc ptr layout => ∃ h', h.dealloc ptr layout = some h' ∧ Slabs h' ∧
      (layout.size = 0 ∧ h' = h ∨ h.Releases ptr h')
  | .pages mem => Slabs { h with mem := mem }

/-- The slots that are taken lie at multiples of their sizes behind the header of a page that is held,
and share no byte with each other, with free slots or with other blocks. -/
structure Apart (h : KernelHeap) : Prop where
  aligned : ∀ x idx, h.Taken x idx → slabSizes idx ∣ x
  held : ∀ x idx w, h.Taken x idx → InSlot idx x w →
    ∃ i ∈ h.chain idx, Block.mk i 0 ∈ h.mem.live ∧ InBlock h.base ⟨i, 0⟩ w ∧ h.addr i + 16 ≤ w
  slots : ∀ x y idx idx' w, h.Taken x idx → h.Taken y idx' → InSlot idx x w →
    InSlot idx' y w → x = y
  free : ∀ x idx i idx' w, h.Taken x idx → InSlot idx x w → i ∈ h.chain idx' →
    ∀ y ∈ h.free i, ¬ InSlot idx' y w
  other : ∀ x idx w b, h.Taken x idx → InSlot idx x w → h.Other b → ¬ InBlock h.base b w

variable {h : KernelHeap} {x : Nat} {layout : Layout} {idx : Fin 8} {mem : Usage} {ops : List HeapOp}

theorem slab?_spec (hslab : layout.slab? = some idx) :
    layout.size ≤ slabSizes idx ∧ layout.align ∣ slabSizes idx := by
  obtain ⟨hclass, halign⟩ := Option.filter_eq_some_iff.mp hslab
  have hsize : max layout.size 8 ≤ slabSizes idx := by simpa using List.find?_some hclass
  have hpow : ∀ idx, slabSizes idx = 2 ^ (idx.val + 4) := by decide
  obtain ⟨k, hk⟩ := layout.pow
  refine ⟨by omega, ?_⟩
  simp only [hk, hpow, decide_eq_true_eq] at halign ⊢
  exact pow_dvd_pow 2 ((Nat.pow_le_pow_iff_right (by decide)).mp halign)

theorem effect_alloc (hS : Slabs h) (layout : Layout) : h.Effect (.alloc layout) := by
  rw [Effect, alloc]
  by_cases hsize : layout.size = 0
  · exact .inr ⟨_, _, if_pos hsize, hS, .inl ⟨hsize, rfl⟩⟩
  rw [if_neg hsize, NoMemory]
  unfold Allocates
  cases hslab : layout.slab? with
  | some idx =>
    obtain ⟨hfits, halign⟩ := slab?_spec hslab
    rcases hS.slabAlloc idx with ⟨hnone, hstuck⟩ | ⟨x, h', hsome, hS', hnew, htaken, hk, hchain⟩
    · exact .inl ⟨hnone, hsize, hstuck⟩
    have hdvd := (hS'.dealloc_slot ((htaken x idx).mpr (.inr ⟨rfl, rfl⟩))).1
    refine .inr ⟨x, h', hsome, hS', .inr ⟨halign.trans hdvd, hnew, fun y idx' => ?_,
      hk.other, fun y _ => congrFun hk.block y, hfits, hchain⟩⟩
    rw [htaken, Option.some_inj, eq_comm (a := idx)]
  | none =>
    rcases hS.pageAlloc layout with ⟨hnone, hstuck⟩ |
      ⟨x, h', b, hsome, hS', hchain, hnew, hlarge, hdvd, htaken, hother, hblock⟩
    · exact .inl ⟨hnone, hsize, hstuck⟩
    exact .inr ⟨x, h', hsome, hS', .inr ⟨hdvd,
      fun idx hx => hS'.not_taken_large hsize hlarge (htaken ▸ hx), by simp [htaken], hother, hblock,
      hchain, b, hnew, hlarge⟩⟩

theorem effect_dealloc (hS : Slabs h) (hfair : h.Fair (.dealloc x layout)) :
    h.Effect (.dealloc x layout) := by
  by_cases hsize : layout.size = 0
  · exact ⟨h, if_pos hsize, hS, .inl ⟨hsize, rfl⟩⟩
  rcases hfair.resolve_left hsize with ⟨idx, hx⟩ | ⟨b, hlarge⟩
  · obtain ⟨-, h', hS', hchain, htaken, hk, hcall⟩ := hS.dealloc_slot hx
    exact ⟨h', hcall layout hsize, hS', .inr ⟨hchain, htaken, hk.block,
      fun b hb _ => hk.other b hb⟩⟩
  · obtain ⟨m, hfree, hS', hlive⟩ := hS.give hlarge.other
    refine ⟨{ h with mem := m }, by rw [hS.dealloc_large hsize hlarge, hfree]; rfl, hS',
      .inr ⟨rfl, fun y idx => ⟨fun hy => ⟨hy, ?_⟩, And.left⟩, rfl,
        fun c hc hnot => ⟨(hlive c).mpr ⟨hc.1, ?_⟩, hc.2⟩⟩⟩
    · rintro rfl
      exact hS.not_taken_large hsize hlarge hy
    · rintro rfl
      exact hnot (hlarge.inBlock hsize)

theorem effect (hS : Slabs h) : (op : HeapOp) → h.Fair op → h.Effect op
  | .alloc layout, _ => effect_alloc hS layout
  | .dealloc _ _, hfair => effect_dealloc hS hfair
  | .pages _, ⟨hsound, hregion, hheld⟩ => hS.frame hsound hregion hheld

theorem Effect.slabs {op : HeapOp} {h' : KernelHeap} (heffect : h.Effect op)
    (hstep : h.step op = some h') : Slabs h' := by
  cases op with
  | alloc layout =>
    rw [step] at hstep
    rcases heffect with ⟨hnone, -⟩ | ⟨x, t, hsome, hS, -⟩
    · simp [hnone] at hstep
    · exact Option.some.inj (hsome ▸ hstep) ▸ hS
  | dealloc ptr layout =>
    obtain ⟨t, hsome, hS, -⟩ := heffect
    exact Option.some.inj (hsome.symm.trans hstep) ▸ hS
  | pages mem => exact Option.some.inj hstep ▸ heffect

theorem slabs_of_run (hmem : mem.Sound) (hops : Reached step (init mem) ops Fair) :
    Always step (init mem) ops Slabs := by
  refine always_of_each ?_ (fun h op h' hS hstep hfair => (effect hS op hfair).slabs hstep) hops.each
  exact ⟨hmem, rfl, rfl, by simp [init], by simp [init], by simp [init], by simp [init]⟩

/-- In every run the invariant holds and the slots that are taken are apart. -/
theorem always_apart (hmem : mem.Sound) (hops : Reached step (init mem) ops Fair) :
    Always step (init mem) ops fun h => Slabs h ∧ Apart h := by
  intro first rest h hsplit hrun
  have hS := slabs_of_run hmem hops first rest h hsplit hrun
  refine ⟨hS, fun x idx hx => (hS.dealloc_slot hx).1, ?_, ?_, ?_, ?_⟩
  · rintro x idx w ⟨j, hj, hslot, -⟩ hw
    exact ⟨j, (hS.table j idx).mpr hj, hS.held j idx hj, slot_page hslot hw⟩
  · rintro x y idx idx' w ⟨j, hj, hslot, -⟩ ⟨k, hk, hslot', -⟩ hxw hyw
    exact (hS.slot_unique hj hslot hk hslot' hxw hyw).2
  · rintro x idx i idx' w ⟨j, hj, hslot, hnot⟩ hw hi y hy hyw
    have hi' := (hS.table i idx').mp hi
    obtain ⟨rfl, rfl⟩ := hS.slot_unique hj hslot hi' ((hS.free i idx' hi').2 y hy) hw hyw
    exact hnot hy
  · rintro x idx w b ⟨j, hj, hslot, -⟩ hw hb
    exact hS.not_inBlock hb hj (slot_page hslot hw).1

/-- In every run each call has its effect. -/
theorem reached_effect (hmem : mem.Sound) (hops : Reached step (init mem) ops Fair) :
    Reached step (init mem) ops Effect := fun first op rest h hsplit hrun =>
  effect (slabs_of_run hmem hops first (op :: rest) h hsplit hrun) op (hops first op rest h hsplit hrun)

/-! ## A run -/

def small : Usage := Usage.start (fun _ => 0) 4096 8 []

theorem sound_small : small.Sound := by
  obtain ⟨free, dead, hheld, hbase, -⟩ :=
    held_start (fun _ => 0) 4096 [] (show 8 ≤ maxPages by decide)
  exact ⟨free, dead, hheld, by rw [small, hbase]; decide⟩

/-- A slot is allocated and released. -/
def smallOps : List HeapOp := [.alloc ⟨24, 8, 3, rfl⟩, .dealloc 4128 ⟨24, 8, 3, rfl⟩]

theorem fair_small : Reached step (init small) smallOps Fair := by
  refine reached_cons trivial fun h hh => reached_cons (.inr (.inl ⟨1, 0, ?_⟩)) fun _ _ => reached_nil
  have heval : ((init small).step (.alloc ⟨24, 8, 3, rfl⟩)).map (fun h => (h.pageClass 0 = some 1 ∧
      4128 ∈ slotsOf 1 (h.addr 0) ∧ 4128 ∉ h.free 0 : Bool)) = some true := by decide +kernel
  rw [hh] at heval
  simpa using heval

theorem always_apart_small : Always step (init small) smallOps fun h => Slabs h ∧ Apart h :=
  always_apart sound_small fair_small

theorem reached_effect_small : Reached step (init small) smallOps Effect :=
  reached_effect sound_small fair_small

end KernelHeap

end Ignium.Heap
