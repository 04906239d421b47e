import Ignium.Kernel.Fdt

/-!
# The tokens of the structure block

What the bytes of the structure block mean: nodes begin and end, properties lie in nodes, and tokens
without a meaning may stand anywhere between. `Layout` says that tokens lie in memory one after the
other, with any bytes as padding.

`Walk.Tracks` relates the walk to the names of the open nodes. The walk keeps the names of the eight
outermost ones. Below the eighth it knows the name of the node that began last only, and it still has
that name when it comes back to the eighth.
-/

namespace Ignium.Kernel

open Bytes

/-- A token. The name of a property is an offset into the strings block. -/
inductive Token where
  | beginNode (name : List UInt8)
  | endNode
  | prop (nameOff : Nat) (value : List UInt8)
  | nop
  deriving DecidableEq

/-- Round up to a multiple of 4. -/
def align4 (n : Nat) : Nat := (n + 3) / 4 * 4

/-- What the walk keeps of the name of a node. -/
def cut (name : List UInt8) : List UInt8 := name.take 63

/-- A name at a position, with a 0 behind it. -/
def NameAt (blob : Blob) (pos : Nat) (name : List UInt8) : Prop :=
  (∀ i ≤ name.length, (name ++ [0])[i]? = some (blob.byte (blob.base + pos + i))) ∧ 0 ∉ name

instance (blob : Blob) (pos : Nat) (name : List UInt8) : Decidable (NameAt blob pos name) := by
  unfold NameAt
  infer_instance

namespace Token

def code : Token → Nat
  | .beginNode _ => fdtBeginNode
  | .endNode => fdtEndNode
  | .prop _ _ => fdtProp
  | .nop => fdtNop

/-- Whether a token has a meaning. -/
def meant : Token → Bool
  | .nop => false
  | _ => true

/-- The bytes of a token, with its padding. -/
def size : Token → Nat
  | .beginNode name => 4 + align4 (name.length + 1)
  | .endNode => 4
  | .prop _ value => 12 + align4 value.length
  | .nop => 4

/-- What belongs to a token lies behind it. -/
def Holds (blob : Blob) (pos : Nat) : Token → Prop
  | .beginNode name => NameAt blob (pos + 4) name
  | .prop nameOff value =>
    blob.word (pos + 4) 0 = some value.length ∧ blob.word (pos + 4) 4 = some nameOff ∧
      blob.slice (blob.base + (pos + 12)) value.length = some value
  | _ => True

instance (blob : Blob) (pos : Nat) (tok : Token) : Decidable (tok.Holds blob pos) := by
  cases tok <;> unfold Holds <;> infer_instance

/-- The open nodes behind a token, the innermost one first. -/
def opens : Token → List (List UInt8) → List (List UInt8)
  | .beginNode name, opened => name :: opened
  | .endNode, opened => opened.tail
  | _, opened => opened

/-- The node that began last. -/
def begins : Token → List UInt8 → List UInt8
  | .beginNode name, _ => name
  | _, begun => begun

/-- A token at a position of the structure block, which is a multiple of 4. -/
structure Fits (blob : Blob) (structEnd pos : Nat) (tok : Token) : Prop where
  code : blob.word pos 0 = some tok.code
  holds : tok.Holds blob pos
  aligned : pos % 4 = 0
  inside : pos + tok.size ≤ structEnd

end Token

/-- Tokens lie in memory from a position on up to another. -/
def Layout (blob : Blob) : Nat → List Token → Nat → Prop
  | pos, [], stop => pos = stop
  | pos, tok :: rest, stop =>
    blob.word pos 0 = some tok.code ∧ tok.Holds blob pos ∧ Layout blob (pos + tok.size) rest stop

instance decidableLayout (blob : Blob) : ∀ pos tokens stop, Decidable (Layout blob pos tokens stop)
  | pos, [], stop => inferInstanceAs (Decidable (pos = stop))
  | pos, tok :: rest, stop =>
    have := decidableLayout blob (pos + tok.size) rest stop
    inferInstanceAs (Decidable (_ ∧ _ ∧ _))

/-- Every node that ends has begun, and properties lie in nodes. -/
def Balanced : Nat → List Token → Prop
  | depth, [] => depth = 0
  | depth, .beginNode _ :: rest => Balanced (depth + 1) rest
  | depth, .endNode :: rest => 0 < depth ∧ Balanced (depth - 1) rest
  | depth, .prop _ _ :: rest => 0 < depth ∧ Balanced depth rest
  | depth, .nop :: rest => Balanced depth rest

/-! ## The walk -/

/-- What `handleProp` is called with. -/
structure PropCall where
  node : List UInt8
  nameOff : Nat
  valStart : Nat
  propLen : Nat
  deriving DecidableEq, Repr

/-- Call `handleProp`. -/
def Fdt.handle (self : Fdt) (blob : Blob) (c : PropCall) (params : BoardParams) :
    Option BoardParams :=
  self.handleProp blob c.node c.nameOff c.valStart c.propLen params

namespace Walk

/-- The name of the current node. -/
def name (w : Walk) : List UInt8 := w.node.toList.take w.nodeLen

/-- A name that is kept. -/
def saved (w : Walk) (i : Nat) : List UInt8 :=
  (w.stack[i]?.getD (.replicate _ 0)).toList.take (w.stackLen[i]?.getD 0)

/-- What the walk calls `handleProp` with behind the token of a property, if it does. -/
def propCall (blob : Blob) (structEnd : Nat) (w : Walk) : Option PropCall :=
  if w.pos + 8 ≤ structEnd ∧ w.depthExceeded = false then do
    let propLen ← blob.word w.pos 0
    let nameOff ← blob.word w.pos 4
    if w.pos + 8 + align4 propLen ≤ structEnd then some ⟨w.name, nameOff, w.pos + 8, propLen⟩
    else none
  else none

/-- What a round of the walk calls `handleProp` with, if it does. -/
def call (blob : Blob) (structEnd : Nat) (w : Walk) : Option PropCall :=
  if w.pos + 4 ≤ structEnd ∧ blob.word w.pos 0 = some fdtProp then
    propCall blob structEnd { w with pos := w.pos + 4 }
  else none

/-- The parameters after a call, or without one. -/
def Handled (self : Fdt) (blob : Blob) (call : Option PropCall) (params params' : BoardParams) :
    Prop :=
  match call with
  | some c => self.handle blob c params = some params'
  | none => params' = params

/-- The name that the walk has for the current node. -/
def current (opened : List (List UInt8)) (begun : List UInt8) : List UInt8 :=
  if opened.length < maxDepth then opened.headD [] else begun

/-- The walk has counted the open nodes and kept the names of the outermost ones. -/
structure Tracks (w : Walk) (opened : List (List UInt8)) (begun : List UInt8) : Prop where
  depth : w.depth = opened.length
  exceeded : w.depthExceeded = decide (maxDepth < opened.length)
  name : w.name = cut (current opened begun)
  saved : ∀ i < opened.length, i < maxDepth →
    w.saved i = cut ((opened.drop (opened.length - i)).headD [])

/-- The walk goes on by a token. -/
structure Follows (w : Walk) (tok : Token) (t : Walk) : Prop where
  pos : t.pos = w.pos + tok.size
  tracks : ∀ opened begun, w.Tracks opened begun → (tok = .endNode → opened ≠ []) →
    t.Tracks (tok.opens opened) (tok.begins begun)

variable {w t : Walk} {opened : List (List UInt8)} {begun name : List UInt8}

/-- Only what the walk knows of the nodes matters. -/
theorem Tracks.congr (h : w.Tracks opened begun) (hdepth : t.depth = w.depth)
    (hexceeded : t.depthExceeded = w.depthExceeded) (hname : t.name = w.name)
    (hsaved : t.saved = w.saved) : t.Tracks opened begun :=
  ⟨hdepth.trans h.depth, hexceeded.trans h.exceeded, hname.trans h.name, hsaved ▸ h.saved⟩

theorem Tracks.beginNode (h : w.Tracks opened begun) (hdepth : t.depth = w.depth + 1)
    (hexceeded : t.depthExceeded = if w.depth + 1 > maxDepth then true else w.depthExceeded)
    (hname : t.name = cut name)
    (hsaved : ∀ i, t.saved i = if i = w.depth ∧ i < maxDepth then w.name else w.saved i) :
    t.Tracks (name :: opened) name := by
  have hlen := h.depth
  refine ⟨by simp [hdepth, hlen], ?_, ?_, fun i hi hmax => ?_⟩
  · rw [hexceeded, h.exceeded, hlen, List.length_cons]
    split <;> simp <;> omega
  · rw [hname, current]
    split <;> rfl
  · rw [List.length_cons] at hi
    rw [hsaved, List.length_cons]
    split
    · next heq =>
      -- The node around the new one is the innermost one so far.
      rw [h.name, current, if_pos (by omega), heq.1, hlen,
        show opened.length + 1 - opened.length = 1 by omega]
      rfl
    · next hne =>
      rw [h.saved i (by omega) hmax,
        show opened.length + 1 - i = (opened.length - i) + 1 by omega, List.drop_succ_cons]

theorem Tracks.endNode (h : w.Tracks opened begun) (hne : opened ≠ []) (hdepth : t.depth = w.depth - 1)
    (hexceeded : t.depthExceeded = decide (w.depth - 1 > maxDepth))
    (hname : t.name = if w.depth - 1 < maxDepth then w.saved (w.depth - 1) else w.name)
    (hsaved : t.saved = w.saved) : t.Tracks opened.tail begun := by
  have hlen := h.depth
  obtain ⟨inner, rest, rfl⟩ := List.exists_cons_of_ne_nil hne
  rw [List.length_cons] at hlen
  refine ⟨by simp [hdepth, hlen], ?_, ?_, fun i hi hmax => ?_⟩
  · rw [hexceeded, hlen, decide_eq_decide]
    rfl
  · rw [hname, current, List.tail_cons]
    simp only [hlen, Nat.add_sub_cancel]
    split
    · next hlt =>
      rw [h.saved rest.length (by simp) hlt, List.length_cons,
        show rest.length + 1 - rest.length = 1 by omega]
      rfl
    · next hge => rw [h.name, current, if_neg (by simp; omega)]
  · rw [List.tail_cons] at hi ⊢
    rw [hsaved, h.saved i (by simp; omega) hmax, List.length_cons,
      show rest.length + 1 - i = (rest.length - i) + 1 by omega, List.drop_succ_cons]

end Walk

end Ignium.Kernel
