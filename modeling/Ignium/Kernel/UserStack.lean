import Ignium.Kernel.Image
import Ignium.Mmu.Split

/-!
# The first stack of a program

`build_user_stack` places the strings of the arguments, the array of pointers to them and their number
from the top of the stack downwards, each area rounded down to 16 bytes. One check on the size comes
first and one on the array of pointers later. `ArgsFit.layout` and `spFinal_layout` say where the
areas are; `ArgsFit.cells` says that every write between and after the checks stays in the stack.
`Loaded.buildUserStack` says when the stack is built and what it then holds.
-/

namespace Ignium.Kernel

open Mem Mmu
open Usage (InPage)

variable {args : List (List UInt8)}

/-! ## The areas -/

/-- The arguments pass the check on their number and size. -/
def ArgsFit (args : List (List UInt8)) : Prop :=
  args.length ≤ maxArgs ∧ strTotal args ≤ userStackPages * pageSize - (args.length + 2) * 8 - 16

instance (args : List (List UInt8)) : Decidable (ArgsFit args) := inferInstanceAs (Decidable (_ ∧ _))

theorem userStackTop_eq : userStackTop = 274877841408 := by decide

theorem stackBottom_eq : stackBottom = 274877808640 := by decide

/-- The strings and, below them, the array of pointers. No subtraction goes below 0. -/
theorem ArgsFit.layout (h : ArgsFit args) :
    stackBottom ≤ strArea args ∧ strArea args + strTotal args ≤ userStackTop ∧
      argvArray args + (args.length + 1) * 8 ≤ strArea args ∧ argvArray args % 16 = 0 := by
  obtain ⟨hargs, htotal⟩ := h
  simp only [maxArgs, userStackPages, pageSize] at hargs htotal
  unfold argvArray strArea alignDown
  rw [userStackTop_eq, stackBottom_eq]
  omega

/-- The number of arguments, below the array. -/
theorem spFinal_layout (h : ArgsFit args) (hargv : stackBottom + 16 ≤ argvArray args) :
    stackBottom ≤ spFinal args ∧ spFinal args + 16 = argvArray args ∧ spFinal args % 16 = 0 := by
  obtain ⟨-, -, -, haligned⟩ := h.layout
  rw [stackBottom_eq] at hargv ⊢
  unfold spFinal alignDown
  omega

/-! ## The cells -/

/-- The bytes of a string, with a zero behind them. -/
def cString (arg : List UInt8) : List Nat := arg.map UInt8.toNat ++ [0]

theorem stringCells_cons (a : Nat) (arg : List UInt8) (rest : List (List UInt8)) :
    stringCells a (arg :: rest) =
      (cString arg).zipIdx a ++ stringCells (a + arg.length + 1) rest := by
  have hlen : (cString arg).length = arg.length + 1 := by simp [cString]
  rw [stringCells, List.flatMap_cons, List.zipIdx_append]
  change (cString arg).zipIdx a ++ List.zipIdx _ (a + (cString arg).length) = _
  rw [hlen]
  rfl

theorem strTotal_cons (arg : List UInt8) (rest : List (List UInt8)) :
    strTotal (arg :: rest) = arg.length + 1 + strTotal rest := by
  simp [strTotal]

/-- The strings fill their area. -/
theorem stringCells_addresses (a : Nat) (args : List (List UInt8)) :
    (stringCells a args).map Prod.snd = List.range' a (strTotal args) := by
  induction args generalizing a with
  | nil => rfl
  | cons arg rest ih =>
    have hlen : (cString arg).length = arg.length + 1 := by simp [cString]
    rw [stringCells_cons, List.map_append, ih, List.zipIdx_map_snd, hlen, strTotal_cons,
      Nat.add_assoc, List.range'_append_1]

theorem argvCells_addresses (a b : Nat) (args : List (List UInt8)) :
    (argvCells a b args).map Prod.snd =
      (List.range' 0 (args.length + 1)).map fun i => b + i * 8 := by
  have hlen : ∀ (args : List (List UInt8)) (a : Nat), (argStarts a args).length = args.length := by
    intro args
    induction args with
    | nil => exact fun _ => rfl
    | cons arg rest ih => exact fun a => congrArg (· + 1) (ih _)
  rw [argvCells, List.map_map]
  change List.map ((fun i => b + i * 8) ∘ Prod.snd) _ = _
  rw [← List.map_map, List.zipIdx_map_snd, List.length_append, hlen]
  rfl

/-- A pointer leads to its string. -/
theorem mem_stringCells {i : Nat} {arg : List UInt8} (a : Nat) (harg : args[i]? = some arg) :
    ∃ addr, (argStarts a args)[i]? = some addr ∧
      ∀ j v, (cString arg)[j]? = some v → (v, addr + j) ∈ stringCells a args := by
  induction args generalizing a i with
  | nil => cases harg
  | cons first rest ih =>
    rw [stringCells_cons]
    cases i with
    | zero =>
      cases harg
      refine ⟨a, rfl, fun j v hv => List.mem_append_left _ ?_⟩
      exact List.mk_add_mem_zipIdx_iff_getElem?.mpr hv
    | succ i =>
      obtain ⟨addr, haddr, hcells⟩ := ih (a + first.length + 1) harg
      exact ⟨addr, haddr, fun j v hv => List.mem_append_right _ (hcells j v hv)⟩

theorem mem_argvCells {i addr : Nat} (a b : Nat)
    (h : (argStarts a args ++ [0])[i]? = some addr) : (addr, b + i * 8) ∈ argvCells a b args := by
  refine List.mem_map.mpr ⟨(addr, i), ?_, rfl⟩
  exact List.mk_mem_zipIdx_iff_getElem?.mpr h

/-- Every write goes to an address of the stack. -/
theorem ArgsFit.cells (h : ArgsFit args) :
    (∀ cell ∈ stringCells (strArea args) args, stackBottom ≤ cell.2 ∧ cell.2 < userStackTop) ∧
      (stackBottom + 16 ≤ argvArray args →
        ∀ cell ∈ argvCells (strArea args) (argvArray args) args ++ [(args.length, spFinal args)],
          stackBottom ≤ cell.2 ∧ cell.2 + 8 ≤ userStackTop ∧ cell.2 % 8 = 0) := by
  obtain ⟨hlow, hhigh, hargv, haligned⟩ := h.layout
  refine ⟨fun cell hcell => ?_, fun hbottom cell hcell => ?_⟩
  · have hmem := List.mem_map_of_mem (f := Prod.snd) hcell
    rw [stringCells_addresses, List.mem_range'_1] at hmem
    omega
  · obtain ⟨hsp, hspArgv, hspAligned⟩ := spFinal_layout h hbottom
    rcases List.mem_append.mp hcell with hcell | hcell
    · have hmem := List.mem_map_of_mem (f := Prod.snd) hcell
      rw [argvCells_addresses] at hmem
      obtain ⟨i, hi, heq⟩ := List.mem_map.mp hmem
      rw [List.mem_range'_1] at hi
      omega
    · obtain rfl := List.mem_singleton.mp hcell
      dsimp only
      omega

theorem stackCells_inside (h : ArgsFit args) (hargv : stackBottom + 16 ≤ argvArray args)
    {cell : Nat × Nat} (hcell : cell ∈ stackCells args) :
    stackBottom ≤ cell.2 ∧ cell.2 < userStackTop := by
  obtain ⟨hstrings, hwords⟩ := h.cells
  rcases List.mem_append.mp hcell with hcell | hcell
  · exact hstrings cell hcell
  · have hin := hwords hargv cell hcell
    omega

/-- No address is written twice. -/
theorem nodup_stackCells (h : ArgsFit args) (hargv : stackBottom + 16 ≤ argvArray args) :
    ((stackCells args).map Prod.snd).Nodup := by
  obtain ⟨-, -, hstrings, -⟩ := h.layout
  obtain ⟨-, hsp, -⟩ := spFinal_layout h hargv
  have hargvMem : ∀ x ∈ (argvCells (strArea args) (argvArray args) args).map Prod.snd,
      argvArray args ≤ x ∧ x < strArea args := by
    intro x hx
    rw [argvCells_addresses] at hx
    obtain ⟨i, hi, rfl⟩ := List.mem_map.mp hx
    rw [List.mem_range'_1] at hi
    omega
  rw [stackCells, List.map_append, List.map_append, List.nodup_append, List.nodup_append]
  refine ⟨?_, ⟨?_, List.nodup_singleton _, fun x hx y hy => ?_⟩, fun x hx y hy => ?_⟩
  · rw [stringCells_addresses]
    exact List.nodup_range'
  · rw [argvCells_addresses]
    have hnodup : (List.range' 0 (args.length + 1)).Nodup := List.nodup_range'
    exact hnodup.map fun i j hij => by omega
  · have hargv := hargvMem x hx
    rw [List.map_singleton, List.mem_singleton] at hy
    omega
  · rw [stringCells_addresses, List.mem_range'_1] at hx
    rcases List.mem_append.mp hy with hy | hy
    · have hargv := hargvMem y hy
      omega
    · rw [List.map_singleton, List.mem_singleton] at hy
      omega

theorem overlay_of_notMem {cells : List (Nat × Nat)} {x : Nat} (f : Nat → Nat)
    (h : x ∉ cells.map Prod.snd) : overlay cells f x = f x := by
  induction cells generalizing f with
  | nil => rfl
  | cons cell cells ih =>
    rw [List.map_cons, List.mem_cons, not_or] at h
    change overlay cells (Function.update f cell.2 cell.1) x = _
    rw [ih _ h.2, Function.update_of_ne h.1]

theorem overlay_of_mem {cells : List (Nat × Nat)} {v x : Nat} (f : Nat → Nat)
    (hnodup : (cells.map Prod.snd).Nodup) (hmem : (v, x) ∈ cells) : overlay cells f x = v := by
  induction cells generalizing f with
  | nil => cases hmem
  | cons cell cells ih =>
    obtain ⟨hfirst, hnodup⟩ := List.nodup_cons.mp hnodup
    change overlay cells (Function.update f cell.2 cell.1) x = v
    rcases List.mem_cons.mp hmem with rfl | hmem
    · rw [overlay_of_notMem _ hfirst, Function.update_self]
    · exact ih _ hnodup hmem

theorem overlay_congr {cells : List (Nat × Nat)} {f g : Nat → Nat} {x : Nat} (h : f x = g x) :
    overlay cells f x = overlay cells g x := by
  induction cells generalizing f g with
  | nil => exact h
  | cons cell cells ih =>
    refine ih ?_
    simp only [Function.update_apply, h]

/-! ## The pages -/

theorem mem_stackPages {va : Nat} (h : va ∈ stackPages) :
    va % pageSize = 0 ∧ va < userVaLimit ∧ tablesAt va = tablesAt stackBottom := by
  have hall : ∀ va ∈ stackPages, va % pageSize = 0 ∧ va < userVaLimit ∧
      l2Index va = l2Index stackBottom ∧ l1Index va = l1Index stackBottom := by decide
  obtain ⟨haligned, hbound, hl2, hl1⟩ := hall va h
  exact ⟨haligned, hbound, by rw [tablesAt, tablesAt, hl2, hl1]⟩

theorem mem_stackPages_iff {x : Nat} :
    x / pageSize * pageSize ∈ stackPages ↔ stackBottom ≤ x ∧ x < userStackTop :=
  page_mem_addresses (by decide) (by decide) (by decide)

theorem stackBottom_page : stackBottom % pageSize = 0 ∧ stackBottom < userVaLimit := by decide

def stackItems : List PageItem := stackPages.pmap stackItem fun _ hva => hva

theorem stackItems_va : stackItems.map (fun p => (p.va, p.flags)) = stackPages.map (·, 0xC7) := by
  rw [stackItems, List.map_pmap]
  exact List.pmap_eq_map (f := fun va => (va, 0xC7)) _

theorem stackItems_va' : stackItems.map PageItem.va = stackPages := by
  have hfst := congrArg (List.map Prod.fst) stackItems_va
  simpa [List.map_map, Function.comp_def] using hfst

theorem map_va_stack {new : List Entry}
    (h : new.map (fun e => (e.va, e.flags)) = stackPages.map (·, 0xC7)) :
    new.map Entry.va = stackPages := by
  rw [← stackItems_va] at h
  rw [map_va_eq h, stackItems_va']

/-- The loop over the pages of the stack does not release a page that it cannot map. -/
theorem mapStackPages_eq (root : Nat) (s : Loading) :
    mapEach (mapStackPage root) stackPages s = mapEach (mapItem root false) stackItems s :=
  (mapEach_pmap (f := stackItem) (fun _ _ _ => rfl) (fun _ hva => hva) s).symm

theorem buildUserStack_of_not_fit {root : Nat} {s : Loading} (h : ¬ ArgsFit args) :
    buildUserStack root args s = some (.error .badSegment, s) := by
  unfold ArgsFit at h
  unfold buildUserStack
  dsimp only
  split
  · rfl
  · rw [if_pos (by omega)]

theorem buildUserStack_of_fit {root : Nat} {s : Loading} (h : ArgsFit args) :
    buildUserStack root args s =
      (mapEach (mapStackPage root) stackPages s).andThen fun _ s' =>
        (mapEach (storeStack ((s'.2.drop s.2.length).map Prod.snd))
          (stringCells (strArea args) args) s').andThen fun _ s₁ =>
          if argvArray args < stackBottom + 16 then some (.error .badSegment, s₁)
          else (mapEach (storeStack ((s'.2.drop s.2.length).map Prod.snd))
            (argvCells (strArea args) (argvArray args) args ++ [(args.length, spFinal args)])
            s₁).andThen fun _ s₂ => some (.ok (spFinal args, argvArray args), s₂) := by
  obtain ⟨hargs, htotal⟩ := h
  unfold buildUserStack
  dsimp only
  rw [if_neg (by omega), if_neg (by omega)]
  rfl

namespace Loaded

variable {m₀ : Usage} {root total : Nat} {paths : Finset (List Nat)} {entries new : List Entry}
  {content : Nat → Nat} {s : Loading} {before : List (Nat × Nat)} {cell : Nat × Nat}

/-- A write goes to the page that is mapped at its address. -/
theorem storeStack (h : Loaded m₀ before root total paths (entries ++ new) [] content s)
    (hnew : new.map Entry.va = stackPages) (hcell : stackBottom ≤ cell.2 ∧ cell.2 < userStackTop) :
    ∃ s', Kernel.storeStack (new.map Entry.pa) s cell = some (.ok (), s') ∧
      Loaded m₀ before root total paths (entries ++ new) []
        (Function.update content cell.2 cell.1) s' := by
  have hpage : pageSize = 4096 := rfl
  rw [stackBottom_eq, userStackTop_eq] at hcell
  have hlen : new.length = 8 := by
    rw [← List.length_map (f := Entry.va), hnew]
    decide
  have hindex : (cell.2 - stackBottom) / pageSize < new.length := by
    rw [hlen, stackBottom_eq, hpage]
    omega
  obtain ⟨e, he⟩ : ∃ e, new[(cell.2 - stackBottom) / pageSize]? = some e :=
    ⟨_, List.getElem?_eq_getElem hindex⟩
  have hva : e.va = stackBottom + (cell.2 - stackBottom) / pageSize * pageSize := by
    have hget : (new.map Entry.va)[(cell.2 - stackBottom) / pageSize]? = some e.va := by
      rw [List.getElem?_map, he]
      rfl
    rw [hnew, stackPages, addresses, List.getElem?_map] at hget
    obtain ⟨i, hi, heq⟩ := Option.map_eq_some_iff.mp hget
    rw [List.getElem?_range (by rw [hlen] at hindex; exact hindex)] at hi
    cases hi
    exact heq.symm
  have hpa : e.pa + cell.2 % pageSize = e.pa + (cell.2 - e.va) := by
    rw [hva, stackBottom_eq, hpage]
    omega
  have hoff : cell.2 - e.va < pageSize := by
    rw [hva, stackBottom_eq, hpage]
    omega
  have hsum : e.va + (cell.2 - e.va) = cell.2 := by
    rw [hva, stackBottom_eq, hpage]
    omega
  have hstore := h.store (List.mem_append_right entries (List.mem_of_getElem? he)) hoff cell.1
  rw [hsum, ← hpa] at hstore
  refine ⟨_, ?_, hstore⟩
  rw [Kernel.storeStack, if_neg (by rw [stackBottom_eq]; omega), List.getElem?_map, he]
  rfl

/-- All writes go to the stack. -/
theorem stores {cells : List (Nat × Nat)}
    (h : Loaded m₀ before root total paths (entries ++ new) [] content s)
    (hnew : new.map Entry.va = stackPages)
    (hcells : ∀ cell ∈ cells, stackBottom ≤ cell.2 ∧ cell.2 < userStackTop) :
    ∃ s', mapEach (Kernel.storeStack (new.map Entry.pa)) cells s = some (.ok (), s') ∧
      Loaded m₀ before root total paths (entries ++ new) [] (overlay cells content) s' := by
  induction cells generalizing s content with
  | nil => exact ⟨s, rfl, h⟩
  | cons cell cells ih =>
    obtain ⟨s₁, hstore, h₁⟩ := h.storeStack hnew (hcells cell (.head _))
    obtain ⟨s₂, hrest, h₂⟩ := ih h₁ fun cell' hcell' => hcells cell' (.tail _ hcell')
    refine ⟨s₂, ?_, h₂⟩
    rw [mapEach, hstore]
    exact hrest

/-- A page for the stack is lost: it is taken, but there is no page for a table that it needs. -/
def StackLost (m : Usage) (root total : Nat) (paths : Finset (List Nat)) : Prop :=
  leafAt m root stackBottom = none ∧ paths.card < total ∧ total ≤ (paths ∪ tablesAt stackBottom).card

/-- The pages of the stack are mapped, or what has been mapped is on the list. All of them need the
same tables, so that only the first can be lost. -/
theorem mapStackPages (h : Loaded m₀ before root total paths entries [] content s) :
    (∃ new s' total' paths', mapEach (mapStackPage root) stackPages s = some (.ok (), s') ∧
      ¬ StackLost s.1 root total paths ∧
      new.map (fun e => (e.va, e.flags)) = stackPages.map (·, 0xC7) ∧
      Loaded m₀ before root total' paths' (entries ++ new) [] (stackItems.foldl place content) s') ∨
    ∃ e s' total' paths' entries' extra content',
      mapEach (mapStackPage root) stackPages s = some (.error e, s') ∧
      (extra ≠ [] ↔ StackLost s.1 root total paths) ∧
      Loaded m₀ before root total' paths' entries' extra content' s' := by
  rw [mapStackPages_eq]
  have hvas := stackItems_va
  have htables : ∀ p ∈ stackItems, tablesAt p.va = tablesAt stackBottom := fun p hp => by
    have hmem : (p.va, p.flags) ∈ stackPages.map (·, 0xC7) := hvas ▸ List.mem_map_of_mem hp
    obtain ⟨va, hva, heq⟩ := List.mem_map.mp hmem
    rw [← (Prod.mk.inj heq).1]
    exact (mem_stackPages hva).2.2
  have hfirst : (stackItems.map fun p => (p.va, p.flags)).head? = some (stackBottom, 0xC7) := by
    rw [hvas]
    decide
  rcases hitems : stackItems with _ | ⟨p, items⟩
  · rw [hitems] at hfirst
    cases hfirst
  rw [hitems] at hvas htables hfirst
  obtain ⟨hva, -⟩ := Prod.mk.inj (Option.some.inj hfirst)
  have hmono : paths.card ≤ (paths ∪ tablesAt stackBottom).card :=
    Finset.card_le_card Finset.subset_union_left
  have hstep := h.mapItem false p
  rw [hva] at hstep
  rw [mapEach]
  split at hstep
  next hcan =>
    obtain ⟨pa, s₁, hok, -, h₁⟩ := hstep
    have hlost : ¬ StackLost s.1 root total paths := fun hlost => by
      have hlast := hlost.2.2
      omega
    rw [hok, Outcome.andThen_ok]
    have hsafe : false = true ∨ ∀ q ∈ items, tablesAt q.va ⊆ paths ∪ tablesAt stackBottom :=
      .inr fun q hq => by
        rw [htables q (.tail _ hq)]
        exact Finset.subset_union_right
    have hrest := h₁.mapItems hsafe
    split at hrest
    next =>
      obtain ⟨new, s₂, hmaps, hnew, h₂⟩ := hrest
      rw [List.append_assoc] at h₂
      refine .inl ⟨⟨stackBottom, pa, p.flags⟩ :: new, s₂, _, _, hmaps, hlost, ?_, h₂⟩
      rw [← hvas, List.map_cons, List.map_cons, hnew, hva]
    next =>
      obtain ⟨e, s₂, total', paths', entries', content', herror, h₂⟩ := hrest
      exact .inr ⟨e, s₂, total', paths', entries', [], content', herror,
        iff_of_false (fun hne => hne rfl) hlost, h₂⟩
  next hcannot =>
    obtain ⟨e, s₁, total', paths', extra, herror, h₁, hextra⟩ := hstep
    rw [herror]
    refine .inr ⟨e, s₁, total', paths', entries, extra, content, rfl, hextra.trans ?_, h₁⟩
    unfold StackLost
    constructor
    · rintro ⟨-, hnone, hroom⟩
      refine ⟨hnone, hroom, ?_⟩
      by_contra hlt
      exact hcannot ⟨hnone, by omega⟩
    · rintro ⟨hnone, hroom, -⟩
      exact ⟨rfl, hnone, hroom⟩

/-- The stack is built, or what has been mapped is on the list, and no other page is held unless the
first page of the stack is lost. -/
theorem buildUserStack (h : Loaded m₀ before root total paths entries [] content s)
    (args : List (List UInt8)) :
    (∃ new s' total' paths',
      Kernel.buildUserStack root args s = some (.ok (spFinal args, argvArray args), s') ∧
      ¬ StackLost s.1 root total paths ∧ ArgsFit args ∧ stackBottom + 16 ≤ argvArray args ∧
      new.map (fun e => (e.va, e.flags)) = stackPages.map (·, 0xC7) ∧
      Loaded m₀ before root total' paths' (entries ++ new) []
        (overlay (stackCells args) (stackItems.foldl place content)) s') ∨
    ∃ e s' total' paths' entries' extra content',
      Kernel.buildUserStack root args s = some (.error e, s') ∧
      (extra ≠ [] ↔ ArgsFit args ∧ StackLost s.1 root total paths) ∧
      Loaded m₀ before root total' paths' entries' extra content' s' := by
  by_cases hfit : ArgsFit args
  swap
  · rw [buildUserStack_of_not_fit hfit]
    exact .inr ⟨_, s, total, paths, entries, [], content, rfl,
      iff_of_false (fun hne => hne rfl) fun hand => hfit hand.1, h⟩
  rw [buildUserStack_of_fit hfit]
  obtain ⟨hstrings, hwords⟩ := hfit.cells
  obtain ⟨new, s₁, total', paths', hmaps, hlost, hnew, h₁⟩ |
    ⟨e, s₁, total', paths', entries', extra, content', herror, hextra, h₁⟩ := h.mapStackPages
  swap
  · rw [herror]
    exact .inr ⟨e, s₁, total', paths', entries', extra, content', rfl,
      hextra.trans (and_iff_right hfit).symm, h₁⟩
  have hva := map_va_stack hnew
  have hpas : (s₁.2.drop s.2.length).map Prod.snd = new.map Entry.pa := by
    rw [h₁.done, h.done, List.map_append, ← List.append_assoc, List.drop_left, List.map_map]
    rfl
  have hnone : ([] : List Nat) ≠ [] ↔ ArgsFit args ∧ StackLost s.1 root total paths :=
    iff_of_false (fun hne => hne rfl) fun hand => hlost hand.2
  rw [hmaps, Outcome.andThen_ok, hpas]
  obtain ⟨s₂, hstores, h₂⟩ := h₁.stores hva hstrings
  rw [hstores, Outcome.andThen_ok]
  by_cases hargv : argvArray args < stackBottom + 16
  · rw [if_pos hargv]
    exact .inr ⟨_, s₂, total', paths', _, [], _, rfl, hnone, h₂⟩
  have hargv' : stackBottom + 16 ≤ argvArray args := Nat.le_of_not_lt hargv
  obtain ⟨s₃, hstores', h₃⟩ := h₂.stores hva fun cell hcell => by
    have hcell := hwords hargv' cell hcell
    omega
  rw [if_neg hargv, hstores', Outcome.andThen_ok]
  rw [overlay, overlay, ← List.foldl_append] at h₃
  exact .inl ⟨new, s₃, total', paths', rfl, hlost, hfit, hargv', hnew, h₃⟩

end Loaded

/-! ## What a program finds -/

/-- No subtraction of addresses goes below 0, and no index of a page leaves the array of the pages. -/
def StackSafe (args : List (List UInt8)) : Prop :=
  (args.length ≤ maxArgs → (args.length + 2) * 8 + 16 ≤ userStackPages * pageSize) ∧
    (ArgsFit args → strTotal args ≤ userStackTop ∧ (args.length + 1) * 8 ≤ strArea args ∧
      (∀ cell ∈ stringCells (strArea args) args,
        stackBottom ≤ cell.2 ∧ (cell.2 - stackBottom) / pageSize < userStackPages) ∧
      (stackBottom + 16 ≤ argvArray args → 8 ≤ argvArray args ∧
        ∀ cell ∈ argvCells (strArea args) (argvArray args) args ++ [(args.length, spFinal args)],
          stackBottom ≤ cell.2 ∧ (cell.2 - stackBottom) / pageSize < userStackPages))

theorem stackSafe (args : List (List UInt8)) : StackSafe args := by
  have hpage : pageSize = 4096 := rfl
  have hpages : userStackPages = 8 := rfl
  have hindex : ∀ {x}, stackBottom ≤ x → x < userStackTop →
      stackBottom ≤ x ∧ (x - stackBottom) / pageSize < userStackPages := by
    intro x hlow hhigh
    rw [stackBottom_eq] at hlow ⊢
    rw [userStackTop_eq] at hhigh
    rw [hpage, hpages]
    omega
  refine ⟨fun hargs => ?_, fun hfit => ?_⟩
  · have hmax : maxArgs = 16 := rfl
    rw [hmax] at hargs
    rw [hpage, hpages]
    omega
  · obtain ⟨hlow, hhigh, hargv, -⟩ := hfit.layout
    obtain ⟨hstrings, hwords⟩ := hfit.cells
    refine ⟨by omega, by omega, fun cell hcell => ?_, fun hbottom => ⟨by omega, fun cell hcell => ?_⟩⟩
    · exact hindex (hstrings cell hcell).1 (hstrings cell hcell).2
    · obtain ⟨hlow', hhigh', -⟩ := hwords hbottom cell hcell
      exact hindex hlow' (by omega)

/-- What the stack is like for a program: the number of arguments at the stack pointer, the pointers
to the strings with a null pointer behind them, and the strings. The areas do not overlap, words do not
cross a page, and beside the pages of the stack no memory is written. -/
structure StackLayout (m m' : Usage) (root : Nat) (args : List (List UInt8)) (sp argv : Nat)
    (starts : List Nat) : Prop where
  aligned : sp % 16 = 0 ∧ argv % 8 = 0
  argc : Holds m' root sp args.length
  length : starts.length = args.length
  pointer : ∀ i addr, starts[i]? = some addr → Holds m' root (argv + i * 8) addr
  null : Holds m' root (argv + args.length * 8) 0
  string : ∀ (i addr : Nat) (arg : List UInt8), starts[i]? = some addr → args[i]? = some arg →
    ∀ j v, (cString arg)[j]? = some v → Holds m' root (addr + j) v
  inside : ∀ (i addr : Nat) (arg : List UInt8), starts[i]? = some addr → args[i]? = some arg →
    argv + (args.length + 1) * 8 ≤ addr ∧ addr + arg.length + 1 ≤ userStackTop
  apart : ∀ (i j addr addr' : Nat) (arg : List UInt8), i < j → starts[i]? = some addr → starts[j]? = some addr' →
    args[i]? = some arg → addr + arg.length + 1 ≤ addr'
  order : stackBottom ≤ sp ∧ sp + 8 ≤ argv ∧ argv + (args.length + 1) * 8 ≤ userStackTop
  backed : ∀ x, stackBottom ≤ x → x < userStackTop →
    Holds m' root x (overlay (stackCells args) (fun _ => 0) x)
  kept : ∀ q x, m.Taken q → ¬ IsTable m root q → InPage q x → m'.read x = m.read x

theorem argStarts_length (a : Nat) (args : List (List UInt8)) :
    (argStarts a args).length = args.length := by
  induction args generalizing a with
  | nil => rfl
  | cons arg rest ih => exact congrArg (· + 1) (ih _)

/-- Strings start behind the start of their area and end before the end. -/
theorem argStarts_inside {a i addr : Nat} {arg : List UInt8}
    (haddr : (argStarts a args)[i]? = some addr) (harg : args[i]? = some arg) :
    a ≤ addr ∧ addr + arg.length + 1 ≤ a + strTotal args := by
  induction args generalizing a i with
  | nil => cases harg
  | cons first rest ih =>
    rw [strTotal_cons]
    cases i with
    | zero =>
      cases harg
      cases haddr
      omega
    | succ i =>
      have hrest := ih haddr harg
      omega

/-- A string ends before the next one. -/
theorem argStarts_apart {a i j addr addr' : Nat} {arg : List UInt8} (hij : i < j)
    (haddr : (argStarts a args)[i]? = some addr) (haddr' : (argStarts a args)[j]? = some addr')
    (harg : args[i]? = some arg) : addr + arg.length + 1 ≤ addr' := by
  induction args generalizing a i j with
  | nil => cases harg
  | cons first rest ih =>
    cases j with
    | zero => omega
    | succ j =>
      cases i with
      | zero =>
        cases harg
        cases haddr
        have hnext : (argStarts (addr + arg.length + 1) rest)[j]? = some addr' := haddr'
        have hlt : j < rest.length := by
          rw [← argStarts_length (addr + arg.length + 1) rest]
          exact (List.getElem?_eq_some_iff.mp hnext).1
        exact (argStarts_inside hnext (List.getElem?_eq_getElem hlt)).1
      | succ i => exact ih (by omega) haddr haddr' harg

/-- The stack pages are cleared before anything is written to them. -/
theorem foldl_place_stack (content : Nat → Nat) {x : Nat} (hlow : stackBottom ≤ x)
    (hhigh : x < userStackTop) : stackItems.foldl place content x = 0 := by
  have hmem : x / pageSize * pageSize ∈ stackItems.map PageItem.va := by
    rw [stackItems_va']
    exact mem_stackPages_iff.mpr ⟨hlow, hhigh⟩
  obtain ⟨p, hp, hx⟩ := List.mem_map.mp hmem
  have hnodup : (stackItems.map PageItem.va).Nodup := by
    rw [stackItems_va']
    decide
  obtain ⟨va, hva, rfl⟩ := List.mem_pmap.mp hp
  rw [foldl_place_of_mem content hnodup hp hx.symm]
  exact if_neg fun hand => Nat.not_lt.mpr hand.1 hand.2

/-- Every address of the stack is mapped and holds what was written there last. -/
theorem Loaded.holds_stack {m₀ : Usage} {root total : Nat} {paths : Finset (List Nat)}
    {entries new : List Entry} {content : Nat → Nat} {s : Loading} {before : List (Nat × Nat)}
    (h : Loaded m₀ before root total paths (entries ++ new) [] content s)
    (hnew : new.map (fun e => (e.va, e.flags)) = stackPages.map (·, 0xC7)) {x : Nat}
    (hlow : stackBottom ≤ x) (hhigh : x < userStackTop) : Holds s.1 root x (content x) := by
  have hmem : (x / pageSize * pageSize, 0xC7) ∈ new.map fun e => (e.va, e.flags) := by
    rw [hnew]
    exact List.mem_map_of_mem (mem_stackPages_iff.mpr ⟨hlow, hhigh⟩)
  obtain ⟨e, he, heq⟩ := List.mem_map.mp hmem
  obtain ⟨hva, hflags⟩ := Prod.mk.inj heq
  have hoff : x % pageSize < pageSize := Nat.mod_lt _ (by decide)
  have hsum : e.va + x % pageSize = x := by
    rw [hva]
    exact Nat.div_add_mod' x pageSize
  have he' : e ∈ entries ++ new := List.mem_append_right _ he
  have htranslate := h.translate he' (by rw [hflags]; decide) hoff
  have hword := h.words e he' _ hoff
  rw [hsum] at htranslate hword
  exact ⟨_, _, htranslate, hword⟩

/-- Building a stack computes with addresses of the stack only, whatever the arguments are, and when it
succeeds the program finds its arguments. -/
theorem buildUserStack_layout {m : Usage} {root : Nat} (htree : Tree m root)
    (args : List (List UInt8)) (mapped : List (Nat × Nat)) :
    (∃ result, buildUserStack root args (m, mapped) = some result) ∧ StackSafe args ∧
      ∀ sp argv s', buildUserStack root args (m, mapped) = some (.ok (sp, argv), s') →
        ∃ starts, StackLayout m s'.1 root args sp argv starts := by
  obtain ⟨total, paths, hshaped⟩ := htree.exists_shaped
  have hstart : Loaded m mapped root total paths [] [] (fun _ => 0) (m, mapped) := .start hshaped _
  obtain ⟨new, t, total', paths', hok, -, hfit, hargv, hnew, hloaded⟩ |
    ⟨e, t, total', paths', entries', extra, content', herror, -, -⟩ := hstart.buildUserStack args
  swap
  · rw [herror]
    exact ⟨⟨_, rfl⟩, stackSafe args, nofun⟩
  rw [hok]
  refine ⟨⟨_, rfl⟩, stackSafe args, fun sp argv s' heq => ⟨argStarts (strArea args) args, ?_⟩⟩
  cases heq
  obtain ⟨-, hhigh, hstrings, hargvAligned⟩ := hfit.layout
  obtain ⟨hspLow, hspArgv, hspAligned⟩ := spFinal_layout hfit hargv
  have hnodup := nodup_stackCells hfit hargv
  have hbacked : ∀ x, stackBottom ≤ x → x < userStackTop →
      Holds t.1 root x (overlay (stackCells args) (fun _ => 0) x) := fun x hlow hhigh => by
    have hzero := foldl_place_stack (fun _ => 0) hlow hhigh
    rw [← overlay_congr (g := fun _ => 0) hzero]
    exact hloaded.holds_stack hnew hlow hhigh
  have hcell : ∀ v x, (v, x) ∈ stackCells args → Holds t.1 root x v := fun v x hmem => by
    have hin := stackCells_inside hfit hargv hmem
    rw [← overlay_of_mem (fun _ => 0) hnodup hmem]
    exact hbacked x hin.1 hin.2
  have hpointer : ∀ i addr, (argStarts (strArea args) args ++ [0])[i]? = some addr →
      Holds t.1 root (argvArray args + i * 8) addr := fun i addr haddr =>
    hcell _ _ (List.mem_append_right _ (List.mem_append_left _ (mem_argvCells _ _ haddr)))
  have hlength := argStarts_length (strArea args) args
  refine ⟨⟨hspAligned, by omega⟩, ?_, hlength, fun i addr haddr => hpointer i addr ?_,
    hpointer _ 0 ?_, fun i addr arg haddr harg j v hv => ?_, fun i addr arg haddr harg => ?_,
    fun i j addr addr' arg hij haddr haddr' harg => argStarts_apart hij haddr haddr' harg,
    ⟨hspLow, by omega, by omega⟩, hbacked, hloaded.grown.words⟩
  · exact hcell _ _ (List.mem_append_right _ (List.mem_append_right _ (.head _)))
  · rw [List.getElem?_append_left (List.getElem?_eq_some_iff.mp haddr).1]
    exact haddr
  · rw [List.getElem?_append_right (by omega), hlength, Nat.sub_self]
    rfl
  · obtain ⟨addr', haddr', hcells⟩ := mem_stringCells (strArea args) harg
    rw [haddr] at haddr'
    cases haddr'
    exact hcell _ _ (List.mem_append_left _ (hcells j v hv))
  · have hinside := argStarts_inside haddr harg
    omega

set_option maxRecDepth 100000 in
/-- The stack of two arguments in the first address space of the small board. -/
theorem buildUserStack_layout_small : ∃ m root sp argv s' starts,
    buildUserStack root [[104, 105], []] (m, []) = some (.ok (sp, argv), s') ∧
      StackLayout m s'.1 root [[104, 105], []] sp argv starts := by
  obtain ⟨⟨r, s⟩, hcall, heval⟩ : ∃ r, (Spaces.start smallMem).call smallBoard .create = some r ∧
      decide (0x80300000 ∈ r.2.roots ∧
        (buildUserStack 0x80300000 [[104, 105], []] (r.2.mem, [])).expect.isSome) = true :=
    Option.map_eq_some_iff.mp (by decide +kernel)
  obtain ⟨hroot, hok⟩ := of_decide_eq_true heval
  have hregion : Region 0x80300000 32 := ⟨by decide, by decide, by decide⟩
  have hstart : Spaces.Sound (Spaces.start smallMem) :=
    ⟨_, _, hregion.sees _ _, fun r => by simp [View.bare, Spaces.start]⟩
  have hadmits : (Spaces.start smallMem).Admits .create := trivial
  have htree : Tree s.mem 0x80300000 := (hstart.call hadmits hcall).2.tree hroot
  obtain ⟨-, -, hlayout⟩ := buildUserStack_layout htree [[104, 105], []] []
  obtain ⟨t, hexpect⟩ := Option.isSome_iff_exists.mp hok
  obtain ⟨pair, hbuild⟩ := Outcome.expect_eq_some hexpect
  obtain ⟨starts, hstarts⟩ := hlayout pair.1 pair.2 t hbuild
  exact ⟨s.mem, _, pair.1, pair.2, t, starts, hbuild, hstarts⟩

end Ignium.Kernel
