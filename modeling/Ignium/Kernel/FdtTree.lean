import Ignium.Kernel.FdtSafe
import Mathlib.Data.List.Forall2

/-!
# Device trees

What parsing makes of the tokens of a structure block. The calls of `handleProp` are read off the
states that the walk visits (`Fdt.calls`), and `walk_tokens` says what they are for tokens in any
order.

`attributed_iff`: a property is taken for one of the node it lies in exactly when, for every property
directly in a node of depth 8, the last node that began before it has the name of that node.
`parse_tree`: for a tree in which the properties of a node come before its children, the calls are
those for the properties of the nodes of depth 8 at most, in the order of the tree.
-/

namespace Ignium.Kernel

open Bytes

/-- A property with the name of a node. -/
structure PropSite where
  node : List UInt8
  nameOff : Nat
  value : List UInt8
  deriving DecidableEq

/-- A call is one for a property, with its value, and the given name of a node. -/
structure PropSite.Called (blob : Blob) (c : PropCall) (s : PropSite) : Prop where
  node : c.node = s.node
  nameOff : c.nameOff = s.nameOff
  value : blob.slice (blob.base + c.valStart) c.propLen = some s.value

/-- The name of the node that a property lies in. -/
def innermost (opened : List (List UInt8)) (_begun : List UInt8) : List UInt8 := opened.headD []

/-- The properties of the nodes of depth 8 at most, with names that depend on the open nodes and on the
node that began last. -/
def sites (named : List (List UInt8) → List UInt8 → List UInt8) :
    List (List UInt8) → List UInt8 → List Token → List PropSite
  | _, _, [] => []
  | opened, begun, tok :: rest =>
    (match tok with
      | .prop nameOff value =>
        if opened.length ≤ maxDepth then [⟨cut (named opened begun), nameOff, value⟩] else []
      | _ => []) ++ sites named (tok.opens opened) (tok.begins begun) rest

/-- Properties directly in a node of depth 8 come before its children, or after a node with its name. -/
def Unshadowed : List (List UInt8) → List UInt8 → List Token → Prop
  | _, _, [] => True
  | opened, begun, tok :: rest =>
    (∀ nameOff value, tok = .prop nameOff value → opened.length = maxDepth →
      cut begun = cut (innermost opened begun)) ∧
    Unshadowed (tok.opens opened) (tok.begins begun) rest

/-- The calls of `handleProp` that parsing makes. -/
def Fdt.calls (self : Fdt) (byte : Nat → UInt8) (params : BoardParams) : List PropCall :=
  (Round.visits (Walk.round self (self.blob byte) self.structStop) (self.structStop + 1)
    (self.walk params)).filterMap (Walk.call (self.blob byte) self.structStop)

/-- The parameters after a list of calls. -/
def Fdt.handleAll (self : Fdt) (byte : Nat → UInt8) (params : BoardParams) (calls : List PropCall) :
    Option BoardParams :=
  calls.foldlM (fun params c => self.handle (self.blob byte) c params) params

/-- A device tree whose structure block holds tokens and a final END. -/
structure TokenBlock where
  fdt : Fdt
  byte : Nat → UInt8
  tokens : List Token
  stop : Nat
  aligned : fdt.offStruct % 4 = 0
  layout : Layout (fdt.blob byte) fdt.offStruct tokens stop
  ends : (fdt.blob byte).word stop 0 = some fdtEnd
  inside : stop + 4 ≤ fdt.structStop

/-! ## The walk through the tokens -/

section Tokens

variable {self : Fdt} {byte : Nat → UInt8} {blob : Blob} {w : Walk} {tok : Token} {rest tokens : List Token}
  {opened : List (List UInt8)} {begun : List UInt8} {structEnd pos stop fuel : Nat}

theorem Token.four_le_size : 4 ≤ tok.size := by
  cases tok <;> simp only [Token.size] <;> omega

theorem Token.size_aligned : tok.size % 4 = 0 := by
  cases tok <;> simp only [Token.size, align4] <;> omega

theorem Layout.le (h : Layout blob pos tokens stop) : pos ≤ stop := by
  induction tokens generalizing pos with
  | nil => exact Nat.le_of_eq h
  | cons tok rest ih => exact Nat.le_trans (Nat.le_add_right _ _) (ih h.2.2)

theorem Balanced.next (h : Balanced opened.length (tok :: rest)) :
    Balanced (tok.opens opened).length rest ∧ (tok = .endNode → opened ≠ []) := by
  cases tok with
  | beginNode name => exact ⟨h, by simp⟩
  | endNode =>
    refine ⟨by simpa [Token.opens] using h.2, ?_⟩
    rintro - rfl
    exact absurd h.1 (Nat.lt_irrefl 0)
  | prop nameOff value => exact ⟨h.2, by simp⟩
  | nop => exact ⟨h, by simp⟩

/-- Which calls the walk makes at a token. -/
theorem calls_of_fits (hfits : tok.Fits blob structEnd w.pos) (htracks : w.Tracks opened begun) :
    List.Forall₂ (PropSite.Called blob) (w.call blob structEnd).toList
      (sites Walk.current opened begun [tok]) := by
  have hinside := hfits.inside
  have hin : w.pos + 4 ≤ structEnd := Nat.le_trans (Nat.add_le_add_left Token.four_le_size _) hinside
  cases tok with
  | prop nameOff value =>
    obtain ⟨hlen, hoff, hvalue⟩ := hfits.holds
    simp only [Token.size] at hinside
    rw [Walk.call, if_pos ⟨hin, hfits.code⟩, Walk.propCall]
    simp only [htracks.exceeded, hlen, hoff, sites, Option.bind_eq_bind, Option.bind_some]
    by_cases hdepth : opened.length ≤ maxDepth
    · rw [if_pos ⟨by omega, by simpa using hdepth⟩, if_pos (by omega), if_pos hdepth]
      exact .cons ⟨htracks.name, rfl, hvalue⟩ .nil
    · rw [if_neg (by simpa using fun _ => Nat.lt_of_not_le hdepth), if_neg hdepth]
      exact .nil
  | _ =>
    rw [Walk.call, if_neg (by simp [hfits.code, Token.code, fdtBeginNode, fdtEndNode, fdtNop, fdtProp])]
    exact .nil

theorem Fdt.round_end (self : Fdt) (structEnd : Nat) (hpos : w.pos + 4 < 2 ^ 64) (hend : blob.word w.pos 0 = some fdtEnd) :
    w.round self blob structEnd = some (.done w.params) ∧ w.call blob structEnd = none := by
  constructor
  · rw [Walk.round, checkedAdd_eq hpos]
    simp [hend, fdtEnd, fdtBeginNode, fdtEndNode, fdtProp, fdtNop]
  · exact if_neg (by simp [hend, fdtEnd, fdtProp])

/-- The calls of the walk are those for the properties among the tokens, and their effects on the
parameters are all that the walk has. -/
theorem walk_tokens (hok : w.Ok self.structStop) (htracks : w.Tracks opened begun)
    (hlayout : Layout (self.blob byte) w.pos tokens stop) (haligned : w.pos % 4 = 0)
    (hend : (self.blob byte).word stop 0 = some fdtEnd) (hstop : stop + 4 ≤ self.structStop)
    (hbalanced : Balanced opened.length tokens) (hfuel : self.structStop - w.pos < fuel) :
    ∃ calls r, (Round.visits (Walk.round self (self.blob byte) self.structStop) fuel w).filterMap
        (Walk.call (self.blob byte) self.structStop) = calls ∧
      List.Forall₂ (PropSite.Called (self.blob byte)) calls
        (sites Walk.current opened begun tokens) ∧
      Round.loop (Walk.round self (self.blob byte) self.structStop) fuel w = some r ∧
      self.handleAll byte w.params calls = some r := by
  obtain ⟨fuel, rfl⟩ : ∃ n, fuel = n + 1 := ⟨fuel - 1, by omega⟩
  induction tokens generalizing w fuel opened begun with
  | nil =>
    cases hlayout
    have hsmall := self.structStop_lt
    obtain ⟨hround, hcall⟩ := self.round_end self.structStop (by omega) hend
    refine ⟨[], w.params, ?_, .nil, ?_, rfl⟩
    · simp [Round.visits, hround, hcall]
    · simp [Round.loop, hround]
  | cons tok rest ih =>
    obtain ⟨hcode, hholds, hrest⟩ := hlayout
    have hle := hrest.le
    have hfits : tok.Fits (self.blob byte) self.structStop w.pos :=
      ⟨hcode, hholds, haligned, by omega⟩
    obtain ⟨r, hround, hmeets⟩ := Walk.returns_round (self.word_blob byte) (self.structStop_le byte)
      self rfl self.structStop_lt hok
    cases r with
    | done r => exact absurd hfits (hmeets.2.2 tok)
    | next t =>
      obtain ⟨⟨hok', hless⟩, hhandled, hfollows⟩ := hmeets
      obtain ⟨hpos, htracks'⟩ := hfollows tok hfits
      obtain ⟨hbalanced', hopen⟩ := hbalanced.next
      have hsize := tok.size_aligned
      have hfour := tok.four_le_size
      obtain ⟨fuel, rfl⟩ : ∃ n, fuel = n + 1 := ⟨fuel - 1, by omega⟩
      have hfuel' : self.structStop - t.pos < fuel + 1 := by omega
      obtain ⟨calls, r, hcalls, hsites, hloop, hall⟩ := ih hok'
        (htracks' opened begun htracks hopen) (hpos ▸ hrest) (by omega) hbalanced' fuel hfuel'
      refine ⟨(w.call (self.blob byte) self.structStop).toList ++ calls, r, ?_, ?_, ?_, ?_⟩
      · rw [Round.visits, hround, ← hcalls]
        cases hcall : w.call (self.blob byte) self.structStop <;> simp [hcall]
      · have hfirst := calls_of_fits hfits htracks
        simp only [sites, List.append_nil] at hfirst
        exact List.rel_append hfirst hsites
      · rw [Round.loop, hround]
        exact hloop
      · cases hcall : w.call (self.blob byte) self.structStop with
        | none =>
          rw [hcall] at hhandled
          exact hhandled ▸ hall
        | some c =>
          rw [hcall] at hhandled
          rw [Fdt.handleAll, Option.toList_some, List.cons_append, List.foldlM_cons]
          exact (congrArg (· >>= _) hhandled).trans hall

theorem tracks_walk (self : Fdt) (params : BoardParams) : (self.walk params).Tracks [] [] :=
  ⟨rfl, rfl, rfl, fun i hi => absurd hi (Nat.not_lt_zero i)⟩

/-- The walk through balanced tokens, from any parameters. -/
theorem TokenBlock.walk (b : TokenBlock) (h : Balanced 0 b.tokens) (params : BoardParams) :
    List.Forall₂ (PropSite.Called (b.fdt.blob b.byte)) (b.fdt.calls b.byte params)
      (sites Walk.current [] [] b.tokens) ∧
    ∃ r, Round.loop (Walk.round b.fdt (b.fdt.blob b.byte) b.fdt.structStop) (b.fdt.structStop + 1)
        (b.fdt.walk params) = some r ∧
      b.fdt.handleAll b.byte params (b.fdt.calls b.byte params) = some r := by
  obtain ⟨_, r, rfl, hsites, hloop, hall⟩ := walk_tokens (b.fdt.ok_walk params)
    (tracks_walk b.fdt params) b.layout b.aligned b.ends b.inside h
    (Nat.lt_succ_of_le (Nat.sub_le _ _))
  exact ⟨hsites, r, hloop, hall⟩

/-! ## Tokens in any order -/

/-- A device tree with balanced nodes, whose properties and children come in any order. -/
structure BalancedBlock extends TokenBlock where
  balanced : Balanced 0 tokens

/-- The names that the walk has are those of the innermost nodes. -/
theorem sites_eq_iff : sites Walk.current opened begun tokens = sites innermost opened begun tokens ↔
    Unshadowed opened begun tokens := by
  induction tokens generalizing opened begun with
  | nil => exact iff_of_true rfl trivial
  | cons tok rest ih =>
    rw [Unshadowed, ← ih]
    cases tok with
    | prop nameOff value =>
      simp only [sites, Token.prop.injEq]
      by_cases hdepth : opened.length ≤ maxDepth
      · simp only [if_pos hdepth, List.singleton_append, List.cons.injEq, PropSite.mk.injEq,
          and_true]
        refine and_congr_left fun _ => ?_
        constructor
        · intro heq _ _ _ hfull
          rwa [Walk.current, if_neg (by omega)] at heq
        · intro heq
          unfold Walk.current
          split
          · rfl
          · exact heq _ _ ⟨rfl, rfl⟩ (by omega)
      · simp only [if_neg hdepth, List.nil_append]
        refine (and_iff_right ?_).symm
        intro _ _ _ hfull
        omega
    | _ => simp [sites]

/-- A call is one for a single property. -/
theorem PropSite.Called.unique {c : PropCall} {s s' : PropSite} (h : s.Called blob c)
    (h' : s'.Called blob c) : s = s' := by
  have hvalue : s.value = s'.value := Option.some.inj (h.value.symm.trans h'.value)
  cases s
  cases s'
  obtain rfl := h.node.symm.trans h'.node
  obtain rfl := h.nameOff.symm.trans h'.nameOff
  cases hvalue
  rfl

theorem sites_of_called {calls : List PropCall} {l l' : List PropSite}
    (h : List.Forall₂ (PropSite.Called blob) calls l) (h' : List.Forall₂ (PropSite.Called blob) calls l') :
    l = l' := by
  have hunique : Relator.RightUnique fun c s => PropSite.Called blob c s := fun _ _ _ h h' => h.unique h'
  exact List.right_unique_forall₂' hunique h h'

/-- For balanced tokens, the calls of `handleProp` are those for the properties of the nodes of depth 8
at most, each with the name of the innermost open node, exactly when for every property directly in a
node of depth 8 the last node that began has the name of that node. -/
theorem attributed_iff (b : BalancedBlock) :
    ∃ params, b.fdt.reservedParams b.byte = some params ∧
      (List.Forall₂ (PropSite.Called (b.fdt.blob b.byte)) (b.fdt.calls b.byte params)
        (sites innermost [] [] b.tokens) ↔ Unshadowed [] [] b.tokens) := by
  obtain ⟨params, hparams, -⟩ := b.fdt.returns_reservedParams b.byte
  obtain ⟨hcalls, -⟩ := b.walk b.balanced params
  refine ⟨params, hparams, ?_⟩
  rw [← sites_eq_iff]
  constructor
  · exact sites_of_called hcalls
  · intro heq
    exact heq ▸ hcalls

end Tokens

/-- Eight nodes in each other. The innermost one has a child `memory` and then a property `reg`. -/
def deepTokens : List Token :=
  List.replicate 8 (.beginNode [0x6E]) ++
    [.beginNode [0x6D, 0x65, 0x6D, 0x6F, 0x72, 0x79], .endNode,
      .prop 0 [0x80, 0, 0, 0, 0x10, 0, 0, 0]] ++ List.replicate 8 .endNode

/-- The header, which is not read again, an empty reserve map, the tokens and the strings. -/
def deepBytes : List UInt8 :=
  List.replicate 56 0 ++ (List.replicate 8 [0, 0, 0, 1, 0x6E, 0, 0, 0]).flatten ++
    [0, 0, 0, 1, 0x6D, 0x65, 0x6D, 0x6F, 0x72, 0x79, 0, 0, 0, 0, 0, 2] ++
    [0, 0, 0, 3, 0, 0, 0, 8, 0, 0, 0, 0, 0x80, 0, 0, 0, 0x10, 0, 0, 0] ++
    (List.replicate 8 [0, 0, 0, 2]).flatten ++ [0, 0, 0, 9] ++ [0x72, 0x65, 0x67, 0]

/-- A device tree at `0x82200000`. -/
def deepFdt : Fdt :=
  ⟨0x82200000, 196, 56, 192, 40, 136, 4, 0x82200000, by decide, by decide, by decide, by decide,
    by decide⟩

def deepBlock : BalancedBlock where
  fdt := deepFdt
  byte addr := deepBytes.getD (addr - 0x82200000) 0
  tokens := deepTokens
  stop := 188
  aligned := by decide
  layout := by decide +kernel
  ends := by decide +kernel
  inside := by decide
  balanced := by simp [deepTokens, List.replicate, Balanced]

/-- The property of the eighth node is taken for one of its child `memory`. -/
theorem not_attributed : ∃ params, deepFdt.reservedParams deepBlock.byte = some params ∧
    ¬ List.Forall₂ (PropSite.Called (deepFdt.blob deepBlock.byte))
      (deepFdt.calls deepBlock.byte params) (sites innermost [] [] deepTokens) := by
  obtain ⟨params, hparams, -⟩ := deepFdt.returns_reservedParams deepBlock.byte
  refine ⟨params, hparams, fun hcalls => ?_⟩
  have hpassed := (deepBlock.walk deepBlock.balanced params).1
  exact absurd (sites_of_called hpassed hcalls) (by decide)

/-! ## Trees -/

/-- A list of nodes: the name and the properties of the first one, its children, and the nodes behind
it. -/
inductive DtNodes where
  | nil
  | node (name : List UInt8) (props : List (Nat × List UInt8)) (children siblings : DtNodes)

namespace DtNodes

/-- The tokens of nodes whose properties come before their children. -/
def tokens : DtNodes → List Token
  | .nil => []
  | .node name props children siblings =>
    .beginNode name :: (props.map fun p => .prop p.1 p.2) ++ children.tokens ++
      .endNode :: siblings.tokens

/-- The properties of the nodes of depth 8 at most, in the order of the tree. -/
def sites : Nat → DtNodes → List PropSite
  | _, .nil => []
  | depth, .node name props children siblings =>
    (if depth ≤ maxDepth then props.map fun p => ⟨cut name, p.1, p.2⟩ else []) ++
      children.sites (depth + 1) ++ siblings.sites depth

/-- A name that is left over from a node does not matter for the nodes behind it, since these begin
before they have properties. -/
theorem sites_tokens (nodes : DtNodes) (opened : List (List UInt8)) (begun : List UInt8)
    (rest : List Token) : ∃ begun', Kernel.sites Walk.current opened begun (nodes.tokens ++ rest) =
      nodes.sites (opened.length + 1) ++ Kernel.sites Walk.current opened begun' rest := by
  induction nodes generalizing opened begun rest with
  | nil => exact ⟨begun, rfl⟩
  | node name props children siblings ihChildren ihSiblings =>
    obtain ⟨begun₁, hchildren⟩ :=
      ihChildren (name :: opened) name (.endNode :: (siblings.tokens ++ rest))
    obtain ⟨begun₂, hsiblings⟩ := ihSiblings opened begun₁ rest
    refine ⟨begun₂, ?_⟩
    have hprops : ∀ props : List (Nat × List UInt8), ∀ rest,
        Kernel.sites Walk.current (name :: opened) name
          ((props.map fun p => Token.prop p.1 p.2) ++ rest) =
        (if opened.length + 1 ≤ maxDepth then props.map fun p => ⟨cut name, p.1, p.2⟩ else []) ++
          Kernel.sites Walk.current (name :: opened) name rest := by
      intro props rest
      have hname : Walk.current (name :: opened) name = name := by
        unfold Walk.current
        split <;> rfl
      induction props with
      | nil => simp
      | cons p props ih =>
        simp only [List.map_cons, List.cons_append, Kernel.sites, Token.opens, Token.begins, ih,
          hname, List.length_cons]
        split <;> rfl
    simp only [tokens, sites, List.cons_append, List.append_assoc, Kernel.sites, Token.opens,
      Token.begins, hprops, hchildren, List.tail_cons, hsiblings, List.length_cons, List.nil_append]

theorem balanced_tokens (nodes : DtNodes) (depth : Nat) (rest : List Token) :
    Balanced depth (nodes.tokens ++ rest) ↔ Balanced depth rest := by
  induction nodes generalizing depth rest with
  | nil => rfl
  | node name props children siblings ihChildren ihSiblings =>
    have hprops : ∀ props : List (Nat × List UInt8), ∀ rest,
        Balanced (depth + 1) ((props.map fun p => Token.prop p.1 p.2) ++ rest) ↔
          Balanced (depth + 1) rest := by
      intro props rest
      induction props with
      | nil => rfl
      | cons p props ih => exact (and_iff_right (Nat.succ_pos depth)).trans ih
    simp only [tokens, List.cons_append, List.append_assoc, Balanced, hprops, ihChildren,
      Nat.succ_pos, true_and, Nat.add_sub_cancel, ihSiblings]

end DtNodes

/-- Tokens without a meaning change nothing. -/
theorem sites_filter_meant (named : List (List UInt8) → List UInt8 → List UInt8) (tokens : List Token)
    (opened : List (List UInt8)) (begun : List UInt8) :
    sites named opened begun (tokens.filter Token.meant) = sites named opened begun tokens := by
  induction tokens generalizing opened begun with
  | nil => rfl
  | cons tok rest ih => cases tok <;> simp [List.filter_cons, Token.meant, sites, ih, Token.opens, Token.begins]

theorem balanced_filter_meant (tokens : List Token) (depth : Nat) :
    Balanced depth (tokens.filter Token.meant) ↔ Balanced depth tokens := by
  induction tokens generalizing depth with
  | nil => rfl
  | cons tok rest ih => cases tok <;> simp [List.filter_cons, Token.meant, Balanced, ih]

/-- A device tree in memory: the tokens of a root and of its descendants, with tokens without a meaning
anywhere between. -/
structure TreeBlock extends TokenBlock where
  name : List UInt8
  props : List (Nat × List UInt8)
  children : DtNodes
  flattens : tokens.filter Token.meant = (DtNodes.node name props children .nil).tokens

/-- Parsing calls `handleProp` for the properties of the nodes of depth 8 at most, in the order of the
tree, each with the name of its node, its offset and its value, and returns what these calls make of
the parameters with the reserved ranges. -/
theorem parse_tree (b : TreeBlock) :
    ∃ params r, b.fdt.reservedParams b.byte = some params ∧ b.fdt.parse b.byte = some r ∧
      List.Forall₂ (PropSite.Called (b.fdt.blob b.byte)) (b.fdt.calls b.byte params)
        ((DtNodes.node b.name b.props b.children .nil).sites 1) ∧
      b.fdt.handleAll b.byte params (b.fdt.calls b.byte params) = some r := by
  have hbalanced : Balanced 0 b.tokens := by
    rw [← balanced_filter_meant, b.flattens, ← List.append_nil (DtNodes.tokens _),
      DtNodes.balanced_tokens]
    rfl
  have hsites : sites Walk.current [] [] b.tokens =
      (DtNodes.node b.name b.props b.children .nil).sites 1 := by
    obtain ⟨begun, htree⟩ := DtNodes.sites_tokens (.node b.name b.props b.children .nil) [] [] []
    rw [List.append_nil, ← b.flattens, sites_filter_meant] at htree
    exact htree.trans (List.append_nil _)
  obtain ⟨params, hparams, -⟩ := b.fdt.returns_reservedParams b.byte
  obtain ⟨hcalls, r, hloop, hall⟩ := b.walk hbalanced params
  refine ⟨params, r, hparams, ?_, hsites ▸ hcalls, hall⟩
  rw [Fdt.parse_eq, hparams]
  exact hloop

def memoryBytes : List UInt8 :=
  List.replicate 56 0 ++ [0, 0, 0, 1, 0, 0, 0, 0] ++ [0, 0, 0, 4] ++
    [0, 0, 0, 1, 0x6D, 0x65, 0x6D, 0x6F, 0x72, 0x79, 0, 0] ++
    [0, 0, 0, 3, 0, 0, 0, 8, 0, 0, 0, 0, 0x80, 0, 0, 0, 0x10, 0, 0, 0] ++
    [0, 0, 0, 2, 0, 0, 0, 2, 0, 0, 0, 9] ++ [0x72, 0x65, 0x67, 0]

/-- A root with a node `memory`, which has a property `reg`, and a token without a meaning. -/
def memoryBlock : TreeBlock where
  fdt := ⟨0x82200000, 116, 56, 112, 40, 56, 4, 0x82200000, by decide, by decide, by decide, by decide,
    by decide⟩
  byte addr := memoryBytes.getD (addr - 0x82200000) 0
  tokens := [.beginNode [], .nop, .beginNode [0x6D, 0x65, 0x6D, 0x6F, 0x72, 0x79],
    .prop 0 [0x80, 0, 0, 0, 0x10, 0, 0, 0], .endNode, .endNode]
  stop := 108
  aligned := by decide
  layout := by decide +kernel
  ends := by decide +kernel
  inside := by decide
  name := []
  props := []
  children := .node [0x6D, 0x65, 0x6D, 0x6F, 0x72, 0x79] [(0, [0x80, 0, 0, 0, 0x10, 0, 0, 0])] .nil .nil
  flattens := by decide

theorem parse_tree_memory :
    ∃ params, memoryBlock.fdt.reservedParams memoryBlock.byte = some params ∧
      List.Forall₂ (PropSite.Called (memoryBlock.fdt.blob memoryBlock.byte))
        (memoryBlock.fdt.calls memoryBlock.byte params)
        [⟨[0x6D, 0x65, 0x6D, 0x6F, 0x72, 0x79], 0, [0x80, 0, 0, 0, 0x10, 0, 0, 0]⟩] := by
  obtain ⟨params, r, hparams, -, hcalls, -⟩ := parse_tree memoryBlock
  exact ⟨params, hparams, hcalls⟩

end Ignium.Kernel
