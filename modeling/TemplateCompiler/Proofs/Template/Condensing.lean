import Mathlib.Data.List.Destutter
import Mathlib.Data.List.Forall2
import TemplateCompiler.Template.Whitespace

/-! # What condensing keeps

Condensing of blanks takes layout out of a template and narrows the blanks in its texts. All else
stays as it is and where it is.
-/

namespace TemplateCompiler.Text

/-- The character, with a space for a blank. -/
def spaced (c : Char) : Char := if isBlank c then ' ' else c

/-- They are not both spaces. -/
def Apart (a b : Char) : Prop := ¬(a = ' ' ∧ b = ' ')

instance : DecidableRel Apart := fun _ _ => inferInstanceAs (Decidable (¬_))

theorem isBlank_spaced {c : Char} (h : isBlank (spaced c) = true) : spaced c = ' ' := by
  unfold spaced at h ⊢
  split
  · rfl
  · simp_all

theorem cons_condenseChars (a : Char) (cs : List Char) :
    a :: condenseChars (decide (a = ' ')) cs = (cs.map spaced).destutter' Apart a := by
  induction cs generalizing a with
  | nil => rfl
  | cons c cs ih =>
    rw [List.map_cons, List.destutter'_cons, ← ih, ← ih, condenseChars, spaced]
    cases hc : isBlank c with
    | true => by_cases ha : a = ' ' <;> simp [ha, Apart]
    | false =>
      have hne : c ≠ ' ' := by rintro rfl; contradiction
      simp [hne, Apart]

theorem condenseChars_eq (cs : List Char) :
    condenseChars false cs = (cs.map spaced).destutter Apart := by
  cases cs with
  | nil => rfl
  | cons c cs =>
    rw [List.map_cons, List.destutter_cons', ← cons_condenseChars, condenseChars, spaced]
    cases hc : isBlank c with
    | true => rfl
    | false =>
      have hne : c ≠ ' ' := by rintro rfl; contradiction
      simp [hne]

theorem filter_condenseChars (afterBlank : Bool) (cs : List Char) :
    (condenseChars afterBlank cs).filter isNotBlank = cs.filter isNotBlank := by
  induction cs generalizing afterBlank with
  | nil => rfl
  | cons c cs ih =>
    have hspace : isNotBlank ' ' = false := rfl
    rw [condenseChars]
    cases hc : isBlank c <;> cases afterBlank <;>
      simp [hspace, show isNotBlank c = !isBlank c from rfl, hc, ih]

end TemplateCompiler.Text

namespace TemplateCompiler.Template

open Text

/-- Each run of blanks in the text is one space in `t'`, and nothing else is different. -/
structure Narrowed (t t' : TextNode) : Prop where
  raw_eq : t'.raw = t.raw
  location_eq : t'.location = t.location
  data_eq : t'.data.toList = (t.data.toList.map spaced).destutter Apart
  filter_eq : t'.data.toList.filter isNotBlank = t.data.toList.filter isNotBlank
  blank : ∀ c ∈ t'.data.toList, isBlank c = true → c = ' '
  apart : t'.data.toList.IsChain Apart

theorem narrowed_condense (t : TextNode) : Narrowed t { t with data := condense t.data } := by
  have hdata : (condense t.data).toList = (t.data.toList.map spaced).destutter Apart := by
    rw [condense, String.toList_ofList, condenseChars_eq]
  refine ⟨rfl, rfl, hdata, ?_, ?_, hdata ▸ List.isChain_destutter ..⟩
  · rw [condense, String.toList_ofList, filter_condenseChars]
  · intro c hc hblank
    rw [hdata] at hc
    obtain ⟨d, -, rfl⟩ := List.mem_map.mp ((List.destutter_sublist ..).subset hc)
    exact isBlank_spaced hblank

/-! ## Layout -/

/-- The node at index `i` is a blank text at an end of the list, or one with a line break between
elements or comments. -/
def isRemoved (ns : List Node) (i : Nat) : Bool :=
  match ns[i]? with
  | some (.text t) =>
    isAllBlank t.data &&
      (i == 0 || i + 1 == ns.length ||
        (ns[i - 1]?.any (·.isMarkup) && ns[i + 1]?.any (·.isMarkup) && hasLineBreak t.data))
  | _ => false

def kept (ns : List Node) : List Node :=
  (ns.zipIdx.filter fun x => !isRemoved ns x.2).map Prod.fst

theorem isRemoved_eq (ns : List Node) (n : Node) (ms : List Node) :
    isRemoved (ns ++ n :: ms) ns.length = isLayout ns.getLast? n ms.head? := by
  rw [isRemoved, List.getElem?_append_right (Nat.le_refl _), Nat.sub_self]
  cases n with
  | text t =>
    rcases ns.eq_nil_or_concat with rfl | ⟨ns, n, rfl⟩ <;> cases ms <;>
      simp [isLayout, Nat.add_assoc, beq_eq_decide]
  | _ => rfl

theorem condenseNodes_eq_map (ns ms : List Node) :
    condenseNodes ns.getLast? ms =
      ((ms.zipIdx ns.length).filter fun x => !isRemoved (ns ++ ms) x.2).map (·.1.condense) := by
  induction ms generalizing ns with
  | nil => rfl
  | cons n ms ih =>
    have hrest := ih (ns ++ [n])
    rw [List.getLast?_concat, List.length_append, List.append_assoc] at hrest
    rw [condenseNodes, hrest, ← isRemoved_eq, List.zipIdx_cons, List.filter_cons]
    cases h : isRemoved (ns ++ n :: ms) ns.length <;> simp

/-! ## Trees -/

/-- Nodes that condensing does not enter. -/
def Node.isClosed : Node → Bool
  | .comment .. | .interpolation _ | .rawMarkup _ | .awaitBlock .. | .constTag _ | .debugTag .. =>
    true
  | _ => false

mutual

/-- The second node is the first one condensed. -/
inductive Node.Condensed : Node → Node → Prop
  | text {t t' : TextNode} (h : Narrowed t t') : Node.Condensed (.text t) (.text t')
  | preformatted {e : Element} (h : isPreformattedTag e.name = true) :
      Node.Condensed (.element e) (.element e)
  | element {e : Element} {children : List Node} (h : isPreformattedTag e.name = false)
      (hchildren : List.Forall₂ Node.Condensed (kept e.children) children) :
      Node.Condensed (.element e) (.element { e with children })
  | fragment {f f' : Fragment} (h : Fragment.Condensed f f') :
      Node.Condensed (.fragment f) (.fragment f')
  | ifBlock {b : IfBlock} {consequent : Fragment} {alternate : Option Fragment}
      (hconsequent : Fragment.Condensed b.consequent consequent)
      (halternate : Option.Rel Fragment.Condensed b.alternate alternate) :
      Node.Condensed (.ifBlock b) (.ifBlock { b with consequent, alternate })
  | eachBlock {b : EachBlock} {body : Fragment} {fallback : Option Fragment}
      (hbody : Fragment.Condensed b.body body)
      (hfallback : Option.Rel Fragment.Condensed b.fallback fallback) :
      Node.Condensed (.eachBlock b) (.eachBlock { b with body, fallback })
  | keyBlock {body body' : Fragment} (code : Code) (location : Location)
      (h : Fragment.Condensed body body') :
      Node.Condensed (.keyBlock code body location) (.keyBlock code body' location)
  | closed {n : Node} (h : n.isClosed = true) : Node.Condensed n n

/-- The nodes of a fragment are condensed but for the layout among them, which is left out. -/
inductive Fragment.Condensed : Fragment → Fragment → Prop
  | mk {f : Fragment} {children : List Node}
      (h : List.Forall₂ Node.Condensed (kept f.children) children) :
      Fragment.Condensed f { f with children }

end

theorem forall₂_condenseNodes {ns : List Node} (h : ∀ n ∈ ns, n.Condensed n.condense) :
    List.Forall₂ Node.Condensed (kept ns) (condenseNodes none ns) := by
  have heq : condenseNodes none ns = (kept ns).map Node.condense := by
    rw [kept, List.map_map]
    exact condenseNodes_eq_map [] ns
  rw [heq, List.forall₂_map_right_iff, List.forall₂_same]
  intro n hn
  obtain ⟨x, hx, rfl⟩ := List.mem_map.mp hn
  exact h _ (List.fst_mem_of_mem_zipIdx (List.mem_filter.mp hx).1)

theorem Fragment.Condensed.of_nodes {f : Fragment} (h : ∀ n ∈ f.children, n.Condensed n.condense) :
    f.Condensed f.condense := by
  cases f with
  | mk children location => exact .mk (forall₂_condenseNodes h)

mutual

theorem Node.condensed : ∀ n : Node, n.Condensed n.condense
  | .text t => .text (narrowed_condense t)
  | .element ⟨name, kind, attributes, children, location⟩ => by
    rw [Node.condense, Element.condense]
    cases h : isPreformattedTag name with
    | true => exact .preformatted h
    | false => exact .element h (forall₂_condenseNodes (nodes_condensed children))
  | .fragment ⟨children, _⟩ => .fragment (.of_nodes (nodes_condensed children))
  | .ifBlock ⟨_, ⟨children, _⟩, alternate, _, _⟩ =>
    .ifBlock (.of_nodes (nodes_condensed children)) (optional_condensed alternate)
  | .eachBlock ⟨_, _, _, _, ⟨children, _⟩, fallback, _⟩ =>
    .eachBlock (.of_nodes (nodes_condensed children)) (optional_condensed fallback)
  | .keyBlock code ⟨children, _⟩ location =>
    .keyBlock code location (.of_nodes (nodes_condensed children))
  | .comment .. => .closed rfl
  | .interpolation _ => .closed rfl
  | .rawMarkup _ => .closed rfl
  | .awaitBlock .. => .closed rfl
  | .constTag _ => .closed rfl
  | .debugTag .. => .closed rfl

theorem optional_condensed : ∀ f : Option Fragment,
    Option.Rel Fragment.Condensed f (condenseOptional f)
  | none => .none
  | some ⟨children, _⟩ => .some (.of_nodes (nodes_condensed children))

theorem nodes_condensed : ∀ ns : List Node, ∀ n ∈ ns, n.Condensed n.condense
  | [] => nofun
  | n :: ns => List.forall_mem_cons.mpr ⟨n.condensed, nodes_condensed ns⟩

end

theorem eqIgnoringCase_iff {s t : String} : eqIgnoringCase s t = true ↔ s.toLower = t.toLower := by
  have htoLower (u : String) : u.toLower.toList = u.toList.map Char.toLower := String.toList_map
  rw [eqIgnoringCase, beq_iff_eq, ← htoLower, ← htoLower, String.toList_inj]

theorem isPreformattedTag_iff {tag : String} :
    isPreformattedTag tag = true ↔ tag.toLower = "pre" ∨ tag.toLower = "textarea" := by
  have hpre : "pre".toLower = "pre" := by decide +kernel
  have htextarea : "textarea".toLower = "textarea" := by decide +kernel
  rw [isPreformattedTag, Bool.or_eq_true, eqIgnoringCase_iff, eqIgnoringCase_iff, hpre, htextarea]

/-- Condensing changes a fragment only by its layout and by the blanks in its texts. Nothing changes
in `pre` and `textarea`, in any letter case. -/
theorem Fragment.condense_conserves (f : Fragment) :
    f.Condensed f.condense ∧
      ∀ tag, isPreformattedTag tag = true ↔ tag.toLower = "pre" ∨ tag.toLower = "textarea" :=
  ⟨.of_nodes (nodes_condensed f.children), fun _ => isPreformattedTag_iff⟩

end TemplateCompiler.Template
