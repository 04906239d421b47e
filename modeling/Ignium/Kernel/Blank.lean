import Ignium.Kernel.UseAfterFree

/-!
# What a process finds in a new page

A page that the allocator hands out holds whatever was in it before. The loader and `mmapShare`
clear the pages they take, `pagesAlloc` does not. `Watched` records which of the held pages user
code has been able to reach since they were taken, and `Fresh` says of a step that a page that is
reached for the first time holds nothing old: zeros, or what the loader copied from the file and
the arguments. `steps_fresh` proves it for all runs in which `pagesAlloc` only gets pages that are
blank already (`Blanks`). In `not_fresh_reuse` one process finds in a new page what another one
wrote.
-/

namespace Ignium.Kernel

open Mem Mmu

/-- The kernel, and the held pages that user code has been able to reach since they were taken. No
call releases a page and takes it again. -/
structure Watched where
  kernel : State
  seen : Nat → Prop

namespace State

variable {k k' : State} {b : Board} {op : KernelOp} {range : Nat → Bool} {V : View}

/-- User code can reach a page of the allocator. -/
def Reaches (k : State) (p : Nat) : Prop := k.mem.pageInRange p = true ∧ ∃ pid va, k.UserMaps pid va p

/-- A process has a capability for a page. -/
def Owns (k : State) (p : Nat) : Prop :=
  ∃ q s id rec, k.table.capAt q s = some (.page id) ∧ k.pageRecord id = some rec ∧ rec.paddr = p

/-- All words of a page are zero. -/
def Blank (k : State) (p : Nat) : Prop := ∀ x, Usage.InPage p x → k.mem.read x = 0

end State

/-- What a page may hold that an operation lets a process reach at an address. -/
def KernelOp.Fills (op : KernelOp) (pid va p : Nat) (words : Nat → Nat) : Prop :=
  match op with
  | .load pid' info args => pid = pid' ∧ ∃ va', vpn va = vpn va' ∧ info.Filled args va' p words
  | _ => ∀ x, Usage.InPage p x → words x = 0

namespace Watched

/-- The kernel moves on: released pages are forgotten and pages that can be reached are added. -/
def moveTo (w : Watched) (k : State) : Watched :=
  ⟨k, fun p => k.mem.HasPage p ∧ (k.Reaches p ∨ w.seen p)⟩

/-- One operation. -/
def step (b : Board) (w : Watched) (op : KernelOp) : Option Watched :=
  (w.kernel.step b op).map w.moveTo

/-- A page that is reached for the first time holds nothing old. -/
def Fresh (w : Watched) (op : KernelOp) (w' : Watched) : Prop :=
  ∀ pid va p, w'.kernel.UserMaps pid va p → w'.kernel.mem.pageInRange p = true → ¬ w.seen p →
    op.Fills pid va p w'.kernel.mem.read

/-- `pagesAlloc` gets a blank page, and a grant overwrites no slot that a live shared page
records. -/
structure Blanks (w : Watched) (op : KernelOp) : Prop where
  taken : ∀ pid slot, op = .grantPage pid slot → ∀ page m,
    w.kernel.mem.allocPages 0 = some (some page, m) → ∀ x, Usage.InPage page x → m.read x = 0
  recorded : w.kernel.KeepsRecorded op

/-- Before the first process is created. -/
def boot (mem : Usage) : Watched := ⟨Kernel.boot mem, fun _ => False⟩

end Watched

/-! ## What a step does to pages -/

/-- The words of the pages that are owned but cannot be reached stay, and a page that comes into use
is blank, unless the loader filled it. -/
def Policy.keep (k : State) (op : KernelOp) : Policy :=
  { Policy.free with
    allows := fun p x v => (k.Uses p → k.Reaches p ∨ v = k.mem.read x) ∧
      (¬ k.Uses p → v = 0 ∨ ∃ pid info args, op = .load pid info args) }

namespace State

variable {k k' : State} {b : Board} {op : KernelOp} {range : Nat → Bool} {V : View}

theorem uses_of_userMaps {pid va p : Nat} (hm : k.UserMaps pid va p)
    (hrange : k.mem.pageInRange p = true) : k.Uses p := .inl ⟨hrange, pid, va, hm⟩

/-- A page in use is held, and the view knows its words. -/
theorem data_of_uses {pol : Policy} {p : Nat} (hgood : (k.ledger pol).Good V)
    (hused : (k.ledger pol).Used V p) : V.data p := by
  rcases hused with ⟨hrange, pid, va, hm⟩ | ⟨q, id, rec, hh, hp⟩
  · exact (hgood.at_ p).mapped hm hrange
  · exact ((hgood.at_ p).owned hh hp).1

theorem hasPage_of_uses {pol : Policy} {p : Nat} (h : InOrder range k.mem (k.ledger pol))
    (hused : k.Uses p) : k.mem.HasPage p := by
  obtain ⟨V, hshows, hgood, -⟩ := h
  have hdata := data_of_uses hgood ((uses_iff hshows hgood).mp hused)
  obtain ⟨place, hsees⟩ := hshows
  exact (hsees.data.mp hdata).1

/-- What the discipline says about the words of a page in use. -/
theorem allows_of_uses {pol : Policy} {p x : Nat} (h : InOrder range k.mem (k.ledger pol))
    (hused : k.Uses p) (hx : Usage.InPage p x) : pol.allows p x (k.mem.read x) := by
  obtain ⟨V, hshows, hgood, -⟩ := h
  have hused' := (uses_iff hshows hgood).mp hused
  have hdata := data_of_uses hgood hused'
  have hwords := (hgood.at_ p).words hused' hx
  obtain ⟨place, hsees⟩ := hshows
  rw [hsees.words hdata hx]
  exact hwords

/-- A page that the allocator hands out is not in use. -/
theorem not_uses_of_alloc {pol : Policy} {page : Nat} {m : Usage}
    (h : InOrder range k.mem (k.ledger pol)) (halloc : k.mem.allocPages 0 = some (some page, m)) :
    ¬ k.Uses page := by
  obtain ⟨V, hshows, hgood, -⟩ := h
  obtain ⟨heq, -⟩ | ⟨page', heq, hshows', hfresh⟩ := hshows.allocPages halloc
  · cases heq
  cases heq
  obtain ⟨hunmapped, hfree, -⟩ := fresh_page hshows' hgood hfresh
  exact fun hused => Ledger.not_used hunmapped hfree ((uses_iff hshows hgood).mp hused)

/-- A page that its owner has not mapped cannot be reached. -/
theorem not_reaches_of_mapVa {pol : Policy} {q s id : Nat} {rec : PageRecord}
    (h : InOrder range k.mem (k.ledger pol)) (hcap : k.table.capAt q s = some (.page id))
    (hrec : k.pageRecord id = some rec) (hnone : rec.mapVa = none) : ¬ k.Reaches rec.paddr := by
  rintro ⟨-, pid, va, hm⟩
  obtain ⟨V, hshows, hgood, -⟩ := h
  obtain ⟨-, hmaps⟩ := (hgood.at_ rec.paddr).owned ⟨⟨s, hcap⟩, hrec⟩ rfl
  obtain ⟨-, va', hsome, -⟩ := hmaps ((userMaps_iff hshows hgood).mp hm)
  rw [hnone] at hsome
  cases hsome

/-- The words that are there are allowed. -/
theorem inOrder_keep (h : InOrder range k.mem (k.ledger .free)) (op : KernelOp) :
    InOrder range k.mem (k.ledger (.keep k op)) := by
  obtain ⟨V, hshows, hgood, hrange⟩ := h
  refine ⟨V, hshows, hgood.withPolicy (.keep k op) (fun _ h => h) fun {p x} hused hx => ?_, hrange⟩
  have hdata := data_of_uses hgood hused
  have hused' := (uses_iff hshows hgood).mpr hused
  obtain ⟨place, hsees⟩ := hshows
  exact ⟨fun _ => .inr (hsees.words hdata hx).symm, fun hunused => absurd hused' hunused⟩

theorem permits_keep {w : Watched} (h : InOrder range w.kernel.mem (w.kernel.ledger .free))
    (hcond : w.Blanks op) : Permits b (.keep w.kernel op) w.kernel op where
  kernel hn := hn.elim
  mapped _ _ hn := hn.elim
  taken pid slot hop page m halloc x hx :=
    ⟨fun hused => absurd hused (not_uses_of_alloc h halloc), fun _ =>
      .inl (hcond.taken pid slot hop page m halloc x hx)⟩
  cleared _ _ hunused := ⟨fun hused => absurd hused hunused, fun _ => .inl rfl⟩
  loaded pid info args hop _ _ _ hunused :=
    ⟨fun hused => absurd hused hunused, fun _ => .inr ⟨pid, info, args, hop⟩⟩
  stored pid va _ _ _ hm hrange _ _ :=
    ⟨fun _ => .inl ⟨hrange, pid, va, hm⟩, fun hunused => absurd (uses_of_userMaps hm hrange) hunused⟩

/-- A load hands out no capability. -/
theorem owns_of_load {pid p : Nat} {info : ElfInfo} {args : List (List UInt8)}
    (hstep : k.step b (.load pid info args) = some k') (howns : k'.Owns p) : k.Owns p := by
  obtain ⟨r, hcall⟩ := Outcome.discard_eq_some hstep
  obtain ⟨m, rfl⟩ := load_eq hcall
  exact howns

/-- What a program maps in addition to what was mapped before is filled. -/
theorem filled_of_load {pid : Nat} {info : ElfInfo} {args : List (List UInt8)}
    (h : InOrder range k.mem (k.ledger .free)) (hstep : k.step b (.load pid info args) = some k')
    {q va p : Nat} (hm : k'.UserMaps q va p) (hrange : k'.mem.pageInRange p = true) :
    k.UserMaps q va p ∨ (KernelOp.load pid info args).Fills q va p k'.mem.read := by
  obtain ⟨r, hcall⟩ := Outcome.discard_eq_some hstep
  obtain ⟨V, hshows, hgood, -⟩ := h
  obtain ⟨V', hshows', hgood', -, hnew⟩ := load_good hshows hgood (fun _ _ hn => hn.elim)
    (fun _ _ _ _ => trivial) hcall
  have hm' := (userMaps_iff hshows' hgood').mp hm
  rcases hnew hm' with hold | ⟨hpid, va', hva, hfilled⟩
  · exact .inl ((userMaps_iff hshows hgood).mpr hold)
  · refine .inr ⟨hpid, va', hva, ?_⟩
    have hused := (uses_iff hshows' hgood').mp (uses_of_userMaps hm hrange)
    have hdata := data_of_uses hgood' hused
    obtain ⟨place, hsees⟩ := hshows'
    have hread : ∀ off < pageSize, k'.mem.read (p + off) = V'.word p (p + off) := fun off hoff =>
      hsees.words hdata ⟨Nat.le_add_right _ _, by omega⟩
    rcases hfilled with ⟨seg, hseg, hpage, hwords⟩ | ⟨hpage, hwords⟩
    · exact .inl ⟨seg, hseg, hpage, fun off hoff => (hread off hoff).trans (hwords off hoff)⟩
    · exact .inr ⟨hpage, fun off hoff => (hread off hoff).trans (hwords off hoff)⟩

end State

/-! ## Runs -/

namespace Watched

open State

variable {w w' : Watched} {b : Board} {op : KernelOp} {range : Nat → Bool} {base count : Nat}

theorem step_of_kernel {k : State} (hstep : w.kernel.step b op = some k) :
    w.step b op = some (w.moveTo k) := Option.map_eq_some_iff.mpr ⟨k, hstep, rfl⟩

theorem kernel_step (hstep : w.step b op = some w') : w.kernel.step b op = some w'.kernel := by
  obtain ⟨k, hkernel, rfl⟩ := Option.map_eq_some_iff.mp hstep
  exact hkernel

/-- A run of the kernel can be watched, and only pages that are held are remembered. -/
theorem run_watched {k : State} {ops : List KernelOp}
    (hheld : ∀ p, w.seen p → w.kernel.mem.HasPage p)
    (hrun : Machine.run (State.step b) w.kernel ops = some k) :
    ∃ seen, Machine.run (step b) w ops = some ⟨k, seen⟩ ∧ ∀ p, seen p → k.mem.HasPage p := by
  induction ops generalizing w with
  | nil =>
    cases hrun
    exact ⟨w.seen, rfl, hheld⟩
  | cons op ops ih =>
    obtain ⟨k₁, hstep, hrest⟩ := Option.bind_eq_some_iff.mp hrun
    obtain ⟨seen, hrun', hseen⟩ := ih (w := w.moveTo k₁) (fun p hp => hp.1) hrest
    refine ⟨seen, ?_, hseen⟩
    rw [Machine.run_cons, step_of_kernel hstep]
    exact hrun'

/-- What is kept along runs: pages that can be reached have been seen, and pages that have an owner
and were never reached are blank. -/
structure Inv (range : Nat → Bool) (w : Watched) : Prop where
  orderly : Orderly .free range w.kernel
  reached : ∀ p, w.kernel.Reaches p → w.seen p
  blank : ∀ p, w.kernel.Owns p → ¬ w.seen p → w.kernel.Blank p

/-- A page in use that was not seen before the step and is not part of a program is blank. -/
theorem Inv.blank_of_uses {k : State} {p : Nat} (h : w.Inv range)
    (hkeep : InOrder range k.mem (k.ledger (.keep w.kernel op))) (hused : k.Uses p)
    (hseen : ¬ w.seen p) (hload : ¬ w.kernel.Uses p → ¬ ∃ pid info args, op = .load pid info args) :
    k.Blank p := by
  intro x hx
  obtain ⟨hold, hnew⟩ := allows_of_uses hkeep hused hx
  have hunreached : ¬ w.kernel.Reaches p := fun hr => hseen (h.reached p hr)
  by_cases hused' : w.kernel.Uses p
  · rw [(hold hused').resolve_left hunreached]
    exact h.blank p (hused'.resolve_left hunreached) hseen x hx
  · exact (hnew hused').resolve_right (hload hused')

theorem Inv.step (h : w.Inv range) (hout : range b.uartBase = false) (hlt : b.uartBase < 2 ^ 56)
    (hcond : w.Blanks op) (hstep : w.step b op = some w') : w'.Inv range ∧ w.Fresh op w' := by
  obtain ⟨k, hkernel, rfl⟩ := Option.map_eq_some_iff.mp hstep
  have horderly : Orderly .free range k :=
    h.orderly.step hout hlt permits_free hcond.recorded hkernel
  have hkeep : InOrder range k.mem (k.ledger (.keep w.kernel op)) :=
    inOrder_step ⟨h.orderly.sound, h.orderly.served, inOrder_keep h.orderly.inOrder op⟩ hout hlt
      (permits_keep h.orderly.inOrder hcond) hcond.recorded hkernel
  refine ⟨⟨horderly, fun p hreach => ?_, fun p howns hseen => ?_⟩, fun pid va p hm hrange hseen => ?_⟩
  · exact ⟨hasPage_of_uses horderly.inOrder (.inl hreach), .inl hreach⟩
  · have hheld := hasPage_of_uses horderly.inOrder (.inr howns)
    refine h.blank_of_uses hkeep (.inr howns) (fun hold => hseen ⟨hheld, .inr hold⟩) ?_
    rintro hunused ⟨pid, info, args, rfl⟩
    exact hunused (.inr (owns_of_load hkernel howns))
  · have hused := uses_of_userMaps hm hrange
    cases op with
    | load pid' info args =>
      rcases filled_of_load h.orderly.inOrder hkernel hm hrange with hold | hfills
      · have hpage := hasPage_of_uses horderly.inOrder hused
        refine absurd (h.reached p ⟨?_, pid, va, hold⟩) hseen
        obtain ⟨V, ⟨place, hsees⟩, -, hV⟩ := h.orderly.inOrder
        obtain ⟨V', ⟨place', hsees'⟩, -, hV'⟩ := horderly.inOrder
        rw [hsees.range, hV, ← hV', ← hsees'.range]
        exact hrange
      · exact hfills
    | _ => exact h.blank_of_uses hkeep hused hseen fun _ ⟨_, _, _, hop⟩ => by cases hop

/-- In every run in which `pagesAlloc` gets blank pages only, a page that user code reaches for the
first time since it was taken holds nothing but zeros and what the loader copied. -/
theorem steps_fresh (h : Fits b base count) (ram : Nat → Nat) (reserved : List (Nat × Nat))
    (ops : List KernelOp)
    (hblanks : Machine.Each (step b) (boot (Usage.start ram base count reserved)) ops Blanks) :
    Machine.Steps (step b) (boot (Usage.start ram base count reserved)) ops Fresh := by
  have hboot : (boot (Usage.start ram base count reserved)).Inv
      (Usage.start ram base count reserved).pageInRange := by
    refine ⟨orderly_boot (h.sees ram reserved), ?_, ?_⟩
    · rintro p ⟨-, pid, va, root, hroot, -⟩
      cases hroot
    · rintro p ⟨q, s, id, rec, -, hrec, -⟩
      cases hrec
  exact Machine.steps_of_each hboot (fun w op w' hinv hstep hcond =>
    hinv.step h.uart_out h.uartSmall hcond hstep) hblanks

set_option maxRecDepth 100000 in
/-- A process maps the last page but one of a region of six pages, whose link is the index of the
last one, which is zero. -/
theorem steps_fresh_six :
    Fits smallBoard 0x80300000 6 ∧ Machine.Steps (step smallBoard)
      (boot (Usage.start (fun _ => 0) 0x80300000 6 [(1, 2), (3, 4), (5, 6)]))
      [.create, .grantPage 0 0, .memMap 0 0 0x10000] Fresh := by
  have hfits : Fits smallBoard 0x80300000 6 := by
    refine ⟨⟨?_, ?_, ?_⟩, ?_, ?_⟩ <;> decide
  refine ⟨hfits, steps_fresh hfits _ _ _ ?_⟩
  have heval : ((State.step smallBoard
      (Kernel.boot (Usage.start (fun _ => 0) 0x80300000 6 [(1, 2), (3, 4), (5, 6)])) .create).bind
        fun k => k.mem.allocPages 0).map (fun r => r.1.map fun page =>
          (List.range pageSize).all fun off => r.2.read (page + off) == 0) = some (some true) := by
    decide +kernel
  intro first op rest w w' hops hrun hstep
  rcases first with _ | ⟨o₁, _ | ⟨o₂, _ | ⟨o₃, first⟩⟩⟩ <;>
    simp only [List.nil_append, List.cons_append, List.cons.injEq] at hops
  · obtain ⟨rfl, -⟩ := hops
    exact ⟨fun _ _ hop => (by cases hop), by simp [KeepsRecorded, overwritten]⟩
  · obtain ⟨rfl, rfl, -⟩ := hops
    refine ⟨fun _ _ _ page m halloc x hx => ?_, by simp [KeepsRecorded, overwritten]⟩
    obtain ⟨w₁, hcreate, ⟨⟩⟩ := Option.bind_eq_some_iff.mp hrun
    have hkernel : State.step smallBoard (Kernel.boot (Usage.start (fun _ => 0) 0x80300000 6
        [(1, 2), (3, 4), (5, 6)])) .create = some w.kernel := kernel_step hcreate
    rw [hkernel, Option.bind_some, halloc, Option.map_some, Option.map_some] at heval
    have hall := List.all_eq_true.mp (Option.some.inj (Option.some.inj heval))
    have hoff := hall (x - page) (List.mem_range.mpr (by have := hx.1; have := hx.2; omega))
    rw [Nat.add_sub_cancel' hx.1] at hoff
    exact eq_of_beq hoff
  · obtain ⟨-, -, rfl, -⟩ := hops
    exact ⟨fun _ _ hop => (by cases hop), by simp [KeepsRecorded, overwritten]⟩
  · obtain ⟨-, -, -, hnil⟩ := hops
    simp at hnil

/-- Process 0 writes to its page and gives it back, and process 1 gets a page. -/
def reuse : List KernelOp :=
  [.create, .create, .grantPage 0 0, .memMap 0 0 0x10000, .store 0 0x10008 42, .capRevoke 0 0]

theorem reuse_keepsRecorded (k : State) {op : KernelOp} (hop : op ∈ reuse ++ [.grantPage 1 0]) :
    k.KeepsRecorded op := by
  simp only [reuse, List.cons_append, List.nil_append, List.mem_cons, List.not_mem_nil, or_false] at hop
  rcases hop with rfl | rfl | rfl | rfl | rfl | rfl | rfl <;> simp [KeepsRecorded, overwritten]

set_option maxRecDepth 100000 in
/-- Process 0 writes to its page and gives it back. Process 1 gets the page and finds the word. -/
theorem not_fresh_reuse :
    ¬ Machine.Steps (step smallBoard) (boot smallMem)
      (reuse ++ [.grantPage 1 0, .memMap 1 0 0x10000]) Fresh := by
  intro hsteps
  have hfits : Fits smallBoard 0x80300000 32 := by
    refine ⟨⟨?_, ?_, ?_⟩, ?_, ?_⟩ <;> decide
  have heval : (Machine.run (State.step smallBoard) (Kernel.boot smallMem) reuse).bind (fun k₁ =>
      (k₁.step smallBoard (.grantPage 1 0)).bind fun k₂ =>
        (k₂.step smallBoard (.memMap 1 0 0x10000)).bind fun k₃ => (k₃.table.pidRoot 1).map fun root =>
          let entry := leafPte k₃.mem root 0x10000
          [k₁.mem.live.all fun block => k₁.mem.allocator.blockAddr block.idx != 0x80308000,
            k₂.table.capAt 1 0 = some (.page 0), k₂.pageRecord 0 = some ⟨0, 0x80308000, 1, none⟩,
            decide (User entry), ptePaddr entry = 0x80308000, k₃.mem.pageInRange 0x80308000,
            k₃.mem.read 0x80308008 = 42]) =
      some [true, true, true, true, true, true, true] := by
    decide +kernel
  obtain ⟨k₁, hrun₁, hk₁⟩ := Option.bind_eq_some_iff.mp heval
  obtain ⟨k₂, hstep₂, hk₂⟩ := Option.bind_eq_some_iff.mp hk₁
  obtain ⟨k₃, hstep₃, hk₃⟩ := Option.bind_eq_some_iff.mp hk₂
  obtain ⟨root, hroot, hlist⟩ := Option.map_eq_some_iff.mp hk₃
  simp only [List.cons.injEq, decide_eq_true_eq, and_true] at hlist
  obtain ⟨hfree, hcap, hrec, huser, hpaddr, hrange, hword⟩ := hlist
  have horderly : Orderly .free _ k₂ := Machine.always_of_each (orderly_boot (hfits.sees _ _))
    (fun k op k' hinv hstep hcond =>
      hinv.step hfits.uart_out hfits.uartSmall permits_free hcond hstep)
    (fun first op rest k k' hops _ _ => reuse_keepsRecorded k (by rw [hops]; simp))
    _ [] k₂ (List.append_nil _).symm (Machine.run_snoc hrun₁ hstep₂)
  obtain ⟨seen, hwrun, hheld⟩ := run_watched (w := boot smallMem) (fun _ h => h.elim) hrun₁
  -- Nobody reaches the page between the release and the second mapping.
  have hunseen : ¬ (k₂.mem.HasPage 0x80308000 ∧ (k₂.Reaches 0x80308000 ∨ seen 0x80308000)) := by
    rintro ⟨-, hreach | hseen⟩
    · exact not_reaches_of_mapVa horderly.inOrder hcap hrec rfl hreach
    · obtain ⟨i, hpage, hlive⟩ := hheld _ hseen
      have hne := List.all_eq_true.mp hfree _ hlive
      rw [hpage] at hne
      simp at hne
  have hzero := hsteps (reuse ++ [.grantPage 1 0]) _ [] _ _ rfl
    (Machine.run_snoc hwrun (step_of_kernel hstep₂)) (step_of_kernel hstep₃) 1 0x10000 0x80308000 ⟨root, hroot, huser, hpaddr⟩
    hrange hunseen
  have hcontra := hzero 0x80308008 ⟨by decide, by decide⟩
  change k₃.mem.read 0x80308008 = 0 at hcontra
  rw [hword] at hcontra
  cases hcontra

end Watched

/-! ## Words in use -/

namespace State

variable {b : Board} {base count : Nat}

/-- A word of a page in use may change when a process that maps the page stores to it. -/
def Guarded (k : State) (op : KernelOp) (p x v : Nat) : Prop :=
  k.Uses p → v = k.mem.read x ∨ ∃ pid va value, op = .store pid va value ∧ k.UserMaps pid va p

/-- In every run in which no grant overwrites a slot that a live shared page records, only stores
change the words of a page that stays in use. -/
theorem steps_guarded (h : Fits b base count) (ram : Nat → Nat) (reserved : List (Nat × Nat))
    (ops : List KernelOp)
    (hkeeps : Machine.Each (step b) (boot (Usage.start ram base count reserved)) ops KeepsRecorded) :
    Machine.Steps (step b) (boot (Usage.start ram base count reserved)) ops fun k op k' =>
      ∀ p x, k'.Uses p → Usage.InPage p x → k.Guarded op p x (k'.mem.read x) := by
  have hboot : Orderly .free _ (boot (Usage.start ram base count reserved)) :=
    orderly_boot (h.sees ram reserved)
  refine Machine.steps_of_each hboot (fun k op k' hinv hstep hcond =>
    ⟨hinv.step h.uart_out h.uartSmall permits_free hcond hstep, fun p x hused hx => ?_⟩) hkeeps
  -- The step is taken once more under a policy that allows what the words may become.
  have hpermits : Permits b { Policy.free with allows := k.Guarded op } k op :=
    { kernel := fun hn => hn.elim
      mapped := fun _ _ hn => hn.elim
      taken := fun _ _ _ _ _ halloc _ _ hold => absurd hold (not_uses_of_alloc hinv.inOrder halloc)
      cleared := fun _ _ hunused hold => absurd hold hunused
      loaded := fun _ _ _ _ _ _ _ hunused hold => absurd hold hunused
      stored := fun pid va value hop _ hm _ _ _ _ => .inr ⟨pid, va, value, hop, hm⟩ }
  obtain ⟨V, hshows, hgood, hrange⟩ := hinv.inOrder
  refine allows_of_uses (inOrder_step ⟨hinv.sound, hinv.served, V, hshows, hgood.withPolicy _
    (fun _ h => h) fun hold hx _ => .inl ?_, hrange⟩ h.uart_out h.uartSmall hpermits hcond hstep) hused hx
  obtain ⟨place, hsees⟩ := hshows
  exact (hsees.words (data_of_uses hgood hold) hx).symm

/-- Two processes share a page and one of them stores to it. -/
theorem steps_guarded_share :
    Machine.Steps (step smallBoard) (boot smallMem)
      [.create, .create, .serviceRegister 1 1, .serviceConnect 0 1 0 1, .shmMap 0 0 0 4096,
        .store 0 shmVa 42]
      fun k op k' => ∀ p x, k'.Uses p → Usage.InPage p x → k.Guarded op p x (k'.mem.read x) :=
  steps_guarded (by refine ⟨⟨?_, ?_, ?_⟩, ?_, ?_⟩ <;> decide) _ _ _
    (each_keepsRecorded_share.snoc (.store 0 shmVa 42) fun _ hgrants => False.elim hgrants)

end State

end Ignium.Kernel
