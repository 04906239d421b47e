import Mathlib.Data.List.Nodup
import Mathlib.Logic.Function.Basic

/-!
# Intrusive singly linked lists

A list threaded through its own nodes is a successor function `next` together with a head, and
it ends at a sentinel `nil`. `Chain nil next head nodes` says that following `next` from `head`
visits exactly `nodes`. A head has at most one chain (`Chain.unique`), so a chain that reaches
the sentinel visits no node twice (`Chain.nodup`). The remaining lemmas are the two updates of
such a list: a node put in front and a node taken out of the middle.
-/

namespace Intrusive

variable {α : Type*} {nil : α} {next next' : α → α} {head node prev : α} {nodes front back : List α}

/-- Following `next` from the head visits exactly these nodes and then the sentinel. -/
def Chain (nil : α) (next : α → α) : α → List α → Prop
  | head, [] => head = nil
  | head, node :: nodes => head = node ∧ node ≠ nil ∧ Chain nil next (next node) nodes

instance Chain.decidable [DecidableEq α] (nil : α) (next : α → α) (head : α) :
    (nodes : List α) → Decidable (Chain nil next head nodes)
  | [] => inferInstanceAs (Decidable (head = nil))
  | node :: nodes =>
    let _ := Chain.decidable nil next (next node) nodes
    inferInstanceAs (Decidable (head = node ∧ node ≠ nil ∧ Chain nil next (next node) nodes))

@[simp] theorem chain_nil : Chain nil next head [] ↔ head = nil := Iff.rfl

@[simp] theorem chain_cons :
    Chain nil next head (node :: nodes) ↔
      head = node ∧ node ≠ nil ∧ Chain nil next (next node) nodes := Iff.rfl

/-- The nodes are determined by the head. -/
theorem Chain.unique {other : List α} (h : Chain nil next head nodes)
    (hother : Chain nil next head other) : nodes = other := by
  induction nodes generalizing head other with
  | nil =>
    cases other with
    | nil => rfl
    | cons x rest =>
      obtain ⟨hx, hne, -⟩ := hother
      exact absurd (hx.symm.trans h) hne
  | cons x nodes ih =>
    obtain ⟨rfl, hne, hrest⟩ := h
    cases other with
    | nil => exact absurd hother hne
    | cons y rest =>
      obtain ⟨rfl, -, hrest'⟩ := hother
      rw [ih hrest hrest']

/-- A chain only depends on the successors of its own nodes. -/
theorem Chain.congr (h : Chain nil next head nodes) (hsame : ∀ x ∈ nodes, next' x = next x) :
    Chain nil next' head nodes := by
  induction nodes generalizing head with
  | nil => exact h
  | cons x nodes ih =>
    obtain ⟨rfl, hne, hrest⟩ := h
    refine ⟨rfl, hne, ?_⟩
    rw [hsame head (by simp)]
    exact ih hrest fun y hy => hsame y (by simp [hy])

/-- The part of a chain from one of its nodes on is a chain from that node. -/
theorem Chain.suffix (h : Chain nil next head (front ++ node :: back)) :
    Chain nil next node (node :: back) := by
  induction front generalizing head with
  | nil =>
    obtain ⟨rfl, hne, hrest⟩ := h
    exact ⟨rfl, hne, hrest⟩
  | cons x front ih => exact ih h.2.2

/-- A chain visits no node twice. A repeated node would start two chains of different
lengths. -/
theorem Chain.nodup (h : Chain nil next head nodes) : nodes.Nodup := by
  induction nodes generalizing head with
  | nil => exact List.nodup_nil
  | cons x nodes ih =>
    refine List.nodup_cons.mpr ⟨fun hmem => ?_, ih h.2.2⟩
    obtain ⟨front, back, rfl⟩ := List.append_of_mem hmem
    obtain ⟨rfl, hne, hrest⟩ := h
    have hlong : Chain nil next head (head :: (front ++ head :: back)) := ⟨rfl, hne, hrest⟩
    have hsame := hlong.unique hrest.suffix
    have hlength := congrArg List.length hsame
    simp at hlength
    omega

variable [DecidableEq α]

/-- Writing the successor of a node outside the chain leaves the chain alone. -/
theorem Chain.update_outside {value : α} (h : Chain nil next head nodes) (hout : node ∉ nodes) :
    Chain nil (Function.update next node value) head nodes := by
  refine h.congr fun x hx => Function.update_of_ne ?_ _ _
  rintro rfl
  exact hout hx

/-- A node pointed at the old head becomes the new head. -/
theorem Chain.push (h : Chain nil next head nodes) (hfresh : node ∉ nodes) (hne : node ≠ nil) :
    Chain nil (Function.update next node head) node (node :: nodes) := by
  refine ⟨rfl, hne, ?_⟩
  rw [Function.update_self]
  exact h.update_outside hfresh

/-- Pointing a node past its successor takes the successor out of the chain. -/
theorem Chain.unlink (h : Chain nil next head (front ++ prev :: node :: back)) :
    Chain nil (Function.update next prev (next node)) head (front ++ prev :: back) := by
  have hnodup := h.nodup
  induction front generalizing head with
  | nil =>
    obtain ⟨rfl, hne, hnext, hnode, hback⟩ := h
    refine ⟨rfl, hne, ?_⟩
    rw [Function.update_self]
    refine hback.update_outside ?_
    simp only [List.nil_append, List.nodup_cons, List.mem_cons, not_or] at hnodup
    exact hnodup.1.2
  | cons x front ih =>
    obtain ⟨rfl, hne, hrest⟩ := h
    simp only [List.cons_append, List.nodup_cons, List.mem_append, List.mem_cons,
      not_or] at hnodup
    refine ⟨rfl, hne, ?_⟩
    rw [Function.update_of_ne hnodup.1.2.1]
    exact ih hrest hnodup.2

end Intrusive
