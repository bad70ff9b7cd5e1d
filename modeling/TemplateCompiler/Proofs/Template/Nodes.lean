import TemplateCompiler.Template.Whitespace
import Mathlib.Data.List.Flatten

/-! # All nodes of a template

The nodes of a template at any depth. Condensing of blanks leaves out nodes and condenses others,
but makes none up.
-/

namespace TemplateCompiler.Template

mutual

/-- The nodes inside a node, at any depth. -/
def Node.inside : Node → List Node
  | .fragment f => f.nodes
  | .element e => e.nodes
  | .ifBlock b => b.nodes
  | .eachBlock b => b.nodes
  | .keyBlock _ body _ => body.nodes
  | _ => []

/-- The nodes inside a fragment, at any depth. -/
def Fragment.nodes : Fragment → List Node
  | ⟨children, _⟩ => allNodes children

def Element.nodes : Element → List Node
  | ⟨_, _, _, children, _⟩ => allNodes children

def IfBlock.nodes : IfBlock → List Node
  | ⟨_, consequent, alternate, _, _⟩ => consequent.nodes ++ optionalNodes alternate

def EachBlock.nodes : EachBlock → List Node
  | ⟨_, _, _, _, body, fallback, _⟩ => body.nodes ++ optionalNodes fallback

def optionalNodes : Option Fragment → List Node
  | none => []
  | some f => f.nodes

def allNodes : List Node → List Node
  | [] => []
  | n :: ns => n :: n.inside ++ allNodes ns

end

/-- The node and all nodes inside it. -/
def Node.nodes (n : Node) : List Node := n :: n.inside

theorem allNodes_eq_flatMap (ns : List Node) : allNodes ns = ns.flatMap Node.nodes := by
  induction ns with
  | nil => rfl
  | cons n ns ih => rw [allNodes, List.flatMap_cons, ih, Node.nodes]

theorem Fragment.nodes_eq (f : Fragment) : f.nodes = f.children.flatMap Node.nodes := by
  cases f
  exact allNodes_eq_flatMap _

theorem Element.nodes_eq (e : Element) : e.nodes = e.children.flatMap Node.nodes := by
  cases e
  exact allNodes_eq_flatMap _

theorem Node.nodes_subset_flatMap {n : Node} {ns : List Node} (h : n ∈ ns) :
    n.nodes ⊆ ns.flatMap Node.nodes := fun _ hm => List.mem_flatMap.mpr ⟨n, h, hm⟩

theorem flatMap_nodes_mono {ns ms : List Node} (h : ns ⊆ ms) :
    ns.flatMap Node.nodes ⊆ ms.flatMap Node.nodes := by
  intro m hm
  obtain ⟨n, hn, hm⟩ := List.mem_flatMap.mp hm
  exact List.mem_flatMap.mpr ⟨n, h hn, hm⟩

theorem Node.nodes_subset_inside {n m : Node} (h : m ∈ n.children) : m.nodes ⊆ n.inside := by
  cases n with
  | fragment f =>
    rw [inside, f.nodes_eq]
    exact nodes_subset_flatMap h
  | element e =>
    rw [inside, e.nodes_eq]
    exact nodes_subset_flatMap h
  | _ => simp [children] at h

/-! ## Branches -/

def Branches.nodes : Branches → List Node
  | .done => []
  | .otherwise body => body.nodes
  | .test _ body rest => body.nodes ++ rest.nodes

mutual

theorem IfBlock.branches_nodes (b : IfBlock) : b.branches.nodes ⊆ b.nodes := by
  cases b with
  | mk test consequent alternate elseIf location =>
    rw [IfBlock.branches, Branches.nodes, IfBlock.nodes]
    exact List.append_subset.mpr ⟨List.subset_append_left _ _,
      List.subset_append_of_subset_right _ (alternateBranches_nodes alternate)⟩

theorem alternateBranches_nodes (alternate : Option Fragment) :
    (alternateBranches alternate).nodes ⊆ optionalNodes alternate := by
  cases alternate with
  | none => exact List.Subset.refl _
  | some f =>
    cases f with
    | mk children location =>
      rw [alternateBranches, optionalNodes]
      cases h : loneContinuation? children with
      | none => exact List.Subset.refl _
      | some branches => exact loneContinuation_nodes children h

theorem loneContinuation_nodes (ns : List Node) {branches : Branches}
    (h : loneContinuation? ns = some branches) : branches.nodes ⊆ allNodes ns := by
  cases ns with
  | nil => simp [loneContinuation?] at h
  | cons n ns =>
    cases n with
    | ifBlock b =>
      obtain ⟨-, ⟨⟩⟩ := Option.ite_none_right_eq_some.mp h
      rw [allNodes, Node.inside]
      exact List.subset_append_of_subset_left _
        (List.subset_cons_of_subset _ b.branches_nodes)
    | _ =>
      rw [allNodes]
      have hrest := (Option.ite_none_right_eq_some.mp h).2
      exact List.subset_append_of_subset_right _ (loneContinuation_nodes ns hrest)

end

/-! ## Condensing -/

/-- The nodes are some of `ns`, as they are or condensed. -/
def CondensedFrom (ms ns : List Node) : Prop := ∀ m ∈ ms, ∃ n ∈ ns, m = n ∨ m = n.condense

namespace CondensedFrom

variable {ms ms' ns ns' : List Node}

theorem refl (ns : List Node) : CondensedFrom ns ns := fun n hn => ⟨n, hn, .inl rfl⟩

theorem mono (h : CondensedFrom ms ns) (hns : ns ⊆ ns') : CondensedFrom ms ns' := by
  intro m hm
  obtain ⟨n, hn, heq⟩ := h m hm
  exact ⟨n, hns hn, heq⟩

theorem append (h : CondensedFrom ms ns) (h' : CondensedFrom ms' ns') :
    CondensedFrom (ms ++ ms') (ns ++ ns') := by
  intro m hm
  rcases List.mem_append.mp hm with hm | hm
  · exact h.mono (List.subset_append_left _ _) m hm
  · exact h'.mono (List.subset_append_right _ _) m hm

theorem cons (n : Node) (h : CondensedFrom ms ns) :
    CondensedFrom (n.condense :: ms) (n :: ns) := by
  intro m hm
  rcases List.mem_cons.mp hm with rfl | hm
  · exact ⟨n, by simp, .inr rfl⟩
  · exact h.mono (List.subset_cons_self n ns) m hm

end CondensedFrom

mutual

theorem Node.condense_inside (n : Node) : CondensedFrom n.condense.inside n.inside := by
  cases n with
  | fragment f => exact f.condense_nodes
  | element e => exact e.condense_nodes
  | ifBlock b => exact b.condense_nodes
  | eachBlock b => exact b.condense_nodes
  | keyBlock code body location => exact body.condense_nodes
  | _ => exact .refl []

theorem Fragment.condense_nodes (f : Fragment) : CondensedFrom f.condense.nodes f.nodes := by
  cases f with
  | mk children location => exact condenseNodes_nodes none children

theorem Element.condense_nodes (e : Element) : CondensedFrom e.condense.nodes e.nodes := by
  cases e with
  | mk name kind attributes children location =>
    rw [Element.condense, Element.nodes, Element.nodes]
    split
    · exact .refl _
    · exact condenseNodes_nodes none children

theorem IfBlock.condense_nodes (b : IfBlock) : CondensedFrom b.condense.nodes b.nodes := by
  cases b with
  | mk test consequent alternate elseIf location =>
    exact consequent.condense_nodes.append (condenseOptional_nodes alternate)

theorem EachBlock.condense_nodes (b : EachBlock) : CondensedFrom b.condense.nodes b.nodes := by
  cases b with
  | mk subject context index key body fallback location =>
    exact body.condense_nodes.append (condenseOptional_nodes fallback)

theorem condenseOptional_nodes (f : Option Fragment) :
    CondensedFrom (optionalNodes (condenseOptional f)) (optionalNodes f) := by
  cases f with
  | none => exact .refl _
  | some f => exact f.condense_nodes

theorem condenseNodes_nodes (before : Option Node) (ns : List Node) :
    CondensedFrom (allNodes (condenseNodes before ns)) (allNodes ns) := by
  cases ns with
  | nil => exact .refl _
  | cons n ns =>
    rw [condenseNodes, allNodes]
    split
    · exact (condenseNodes_nodes (some n) ns).mono (List.subset_append_right _ _)
    · exact (n.condense_inside.cons n).append (condenseNodes_nodes (some n) ns)

end

/-! ## Texts and fragments -/

def Node.isText : Node → Bool
  | .text _ => true
  | _ => false

def Node.isEmptyText : Node → Bool
  | .text t => t.data.isEmpty
  | _ => false

def Node.isFragment : Node → Bool
  | .fragment _ => true
  | _ => false

theorem isEmpty_condense (s : String) : (Text.condense s).isEmpty = s.isEmpty := by
  have hchars : Text.condenseChars false s.toList = [] ↔ s.toList = [] := by
    cases s.toList with
    | nil => simp [Text.condenseChars]
    | cons c cs =>
      rw [Text.condenseChars]
      split <;> simp
  rw [Bool.eq_iff_iff, String.isEmpty_iff, String.isEmpty_iff, Text.condense,
    ← String.toList_eq_nil_iff, ← String.toList_eq_nil_iff, String.toList_ofList, hchars]

@[simp] theorem Node.isEmptyText_condense (n : Node) : n.condense.isEmptyText = n.isEmptyText := by
  cases n with
  | text t => exact isEmpty_condense t.data
  | _ => rfl

@[simp] theorem Node.isText_condense (n : Node) : n.condense.isText = n.isText := by
  cases n <;> rfl

@[simp] theorem Node.isFragment_condense (n : Node) : n.condense.isFragment = n.isFragment := by
  cases n <;> rfl

end TemplateCompiler.Template
