import TemplateCompiler.Template.Node

/-! # Depth of nodes

How deep a visit goes is bounded by the size of the node.
-/

namespace TemplateCompiler.Template

/-- The depth that a visit of the node needs. A fragment may stand for all children of an element,
which it has to be distinguished from. -/
def Node.depth : Node → Nat
  | .fragment f => 2 * f.size + 1
  | n => 2 * n.size

def Branches.size : Branches → Nat
  | .done => 0
  | .otherwise body => body.size
  | .test _ body rest => body.size + rest.size

mutual

theorem IfBlock.branches_size (b : IfBlock) : b.branches.size ≤ b.size := by
  cases b with
  | mk test consequent alternate elseIf location =>
    have halternate := alternateBranches_size alternate
    simp only [IfBlock.branches, Branches.size, IfBlock.size]
    omega

theorem alternateBranches_size (alternate : Option Fragment) :
    (alternateBranches alternate).size ≤ optionalSize alternate := by
  cases alternate with
  | none => exact Nat.le_refl _
  | some f =>
    cases f with
    | mk children location =>
      rw [alternateBranches, optionalSize]
      cases h : loneContinuation? children with
      | none => exact Nat.le_refl _
      | some branches => exact Nat.le_succ_of_le (loneContinuation_size children h)

theorem loneContinuation_size (ns : List Node) {branches : Branches}
    (h : loneContinuation? ns = some branches) : branches.size ≤ nodesSize ns := by
  cases ns with
  | nil => simp [loneContinuation?] at h
  | cons n ns =>
    cases n with
    | ifBlock b =>
      obtain ⟨-, ⟨⟩⟩ := Option.ite_none_right_eq_some.mp h
      have hb := b.branches_size
      simp only [nodesSize, Node.size]
      omega
    | _ => exact Nat.le_add_left_of_le (loneContinuation_size ns (Option.ite_none_right_eq_some.mp h).2)

end

theorem size_le_nodesSize {n : Node} {ns : List Node} (h : n ∈ ns) : n.size ≤ nodesSize ns := by
  induction ns with
  | nil => simp at h
  | cons m ns ih =>
    rw [nodesSize]
    rcases List.mem_cons.mp h with rfl | h
    · exact Nat.le_add_right _ _
    · exact Nat.le_add_left_of_le (ih h)

theorem nodesSize_append (ns ms : List Node) :
    nodesSize (ns ++ ms) = nodesSize ns + nodesSize ms := by
  induction ns with
  | nil => simp [nodesSize]
  | cons n ns ih => rw [List.cons_append, nodesSize, nodesSize, ih, Nat.add_assoc]

theorem nodesSize_filter_le (p : Node → Bool) (ns : List Node) :
    nodesSize (ns.filter p) ≤ nodesSize ns := by
  induction ns with
  | nil => exact Nat.le_refl _
  | cons n ns ih =>
    rw [List.filter_cons]
    split
    · exact Nat.add_le_add_left ih _
    · exact Nat.le_add_left_of_le ih

theorem Node.depth_le (n : Node) : n.depth ≤ 2 * n.size := by
  cases n with
  | fragment f =>
    simp only [Node.depth, Node.size]
    omega
  | _ => exact Nat.le_refl _

theorem Node.depth_pos (n : Node) : 0 < n.depth := by
  cases n <;> simp [Node.depth, Node.size]

theorem Element.withoutChildren_depth (e : Element) :
    (Node.element e.withoutChildren).depth ≤ (Node.element e).depth := by
  cases e
  simp only [Element.withoutChildren, Node.depth, Node.size, Element.size, nodesSize]
  omega

end TemplateCompiler.Template
