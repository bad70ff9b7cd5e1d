import TemplateCompiler.Proofs.Names.Scopes

/-! # Where texts go

A text or interpolation shows as part of the markup, or as a value of an operation. Here are the
rules that say which, for the children of one node.
-/

namespace TemplateCompiler

open Template (Element Fragment Node)
open Transform

/-! ## Operations on texts -/

namespace Operation

/-- The node that the operation creates or works on. Putting nodes into another is not about any of
them. -/
def subject? : Operation → Option Nat
  | insertNodes _ _ _ | prependNodes _ _ => none
  | setProp element _ | setDynamicProps element _ | setText element _ | setHtml element _
  | setEvent element _ _ _ _ | setTemplateRef element _ _
  | withDirective element _ _ _ _ _ => some element
  | createText id _ _ | createComponent id _ _ _ _ | branch id _ _ _ | loop id _ _ _ _ _ _
  | slotOutlet id _ _ _ => some id

/-- The values of the text that the operation creates as node `id`. -/
def textMade? (id : Option Nat) : Operation → Option (List Expression)
  | createText x values _ => if id = some x then some values else none
  | _ => none

/-- The values that the operation sets the text of node `id` to. -/
def textSet? (id : Option Nat) : Operation → Option (List Expression)
  | setText x values => if id = some x then some values else none
  | _ => none

variable {op : Operation} {id : Option Nat} {values : List Expression}

theorem mem_named_of_subject? {x : Nat} (h : op.subject? = some x) : x ∈ op.named := by
  cases op <;> simp_all [subject?, named]

theorem subject?_of_textMade? (h : op.textMade? id = some values) :
    op.subject? = id ∧ op.created? = id := by
  cases op with
  | createText x vs effect =>
    simp only [textMade?, Option.ite_none_right_eq_some] at h
    exact ⟨h.1.symm, h.1.symm⟩
  | _ => simp [textMade?] at h

theorem subject?_of_textSet? (h : op.textSet? id = some values) : op.subject? = id := by
  cases op with
  | setText x vs =>
    simp only [textSet?, Option.ite_none_right_eq_some] at h
    exact h.1.symm
  | _ => simp [textSet?] at h

/-- An operation on another node creates no text as this one. -/
theorem textMade?_of_subject? (h : ∀ x, id = some x → op.subject? ≠ some x) :
    op.textMade? id = none := by
  cases op with
  | createText x vs effect =>
    rw [textMade?, if_neg fun hid => h x hid rfl]
  | _ => rfl

theorem textSet?_of_subject? (h : ∀ x, id = some x → op.subject? ≠ some x) :
    op.textSet? id = none := by
  cases op with
  | setText x vs => rw [textSet?, if_neg fun hid => h x hid rfl]
  | _ => rfl

theorem textMade?_of_created? (h : op.created? = none) : op.textMade? id = none := by
  cases op <;> simp_all [created?, textMade?]

theorem textSet?_of_created? {x : Nat} (h : op.created? = some x) : op.textSet? id = none := by
  cases op <;> simp_all [created?, textSet?]

end Operation

/-- The values of all texts that are created as node `id`. -/
def textsMade (ops : List Operation) (id : Option Nat) : List (List Expression) :=
  ops.filterMap (·.textMade? id)

/-- The values that the text of node `id` is set to, by all operations that set it. -/
def textsSet (ops : List Operation) (id : Option Nat) : List (List Expression) :=
  ops.filterMap (·.textSet? id)

/-! ## Parts -/

/-- A node of a block, with what stands for it in the markup of its parent. -/
structure Piece where
  info : NodeInfo
  markup : String

/-- A text as it shows: in markup, or as a value. -/
inductive TextPart
  | markup (text : String)
  | value (value : Expression)

/-- The part shows the text or interpolation. -/
inductive Renders (o : Options) (names : List String) : Node → TextPart → Prop
  | data (t : Template.TextNode) : Renders o names (.text t) (.markup (Text.escapeText t.data))
  | fixed (t : Template.TextNode) :
      Renders o names (.text t) (.value (.static t.data t.location))
  | value {code : Template.Code} {v : Expression} :
      Processed o names (.ofCode code) v → Renders o names (.interpolation code) (.value v)
  | literal {code : Template.Code} {v : Expression} {s : String} :
      Processed o names (.ofCode code) v → v.literalValue? = some s →
      Renders o names (.interpolation code) (.markup (Text.escapeText s))

/-- The parts that a child carries. -/
inductive Carries (ops : List Operation) : Node → Piece → List TextPart → Prop
  | other {n : Node} {q : Piece} :
      n.isTextLike = false → textsMade ops q.info.id = [] → Carries ops n q []
  /-- The markup of the child is its text. -/
  | written {t : Template.TextNode} {q : Piece} :
      q.info.flags.nonTemplate = false → textsMade ops q.info.id = [] →
      Carries ops (.text t) q [.markup q.markup]
  /-- One operation creates the text, and there is nothing but a placeholder in the markup. -/
  | made {code : Template.Code} {q : Piece} {values : List Expression} :
      textsMade ops q.info.id = [values] → q.markup = "" ∨ q.markup = "<!>" →
      Carries ops (.interpolation code) q (values.map .value)
  /-- Another node has taken the child over, and no operation is about it. -/
  | absorbed {n : Node} {q : Piece} :
      n.isTextLike = true → q.info.flags.nonTemplate = true → q.info.flags.insert = false →
      q.markup = "" → q.info.template = none →
      (∀ op ∈ ops, ∀ x, q.info.id = some x → op.subject? ≠ some x) → Carries ops n q []

/-- The parts that children carry, in the order of the children. -/
inductive CarriesAll (ops : List Operation) : List Node → List Piece → List TextPart → Prop
  | nil : CarriesAll ops [] [] []
  | cons {n : Node} {q : Piece} {ns : List Node} {qs : List Piece} {ps rest : List TextPart} :
      Carries ops n q ps → CarriesAll ops ns qs rest → CarriesAll ops (n :: ns) (q :: qs) (ps ++ rest)

/-- The parts that an element shows itself: those that its markup begins with, or the values that
one operation sets its text to. -/
inductive ShowsWhole (ops : List Operation) (id : Option Nat) :
    List String → List TextPart → Prop
  | inlined (texts : List String) :
      textsSet ops id = [] → ShowsWhole ops id texts (texts.map .markup)
  | set {values : List Expression} :
      textsSet ops id = [values] → ShowsWhole ops id [] (values.map .value)

/-! ## Values -/

variable {o : Options} {names : List String} {ns : List Node} {values : List Expression}

theorem Shows.renders {n : Node} {v : Expression} (h : Shows o names n v) :
    Renders o names n (.value v) := by
  cases h with
  | text t => exact .fixed t
  | interpolation hv => exact .value hv

theorem renders_of_shows (h : List.Forall₂ (Shows o names) ns values) :
    List.Forall₂ (Renders o names) ns (values.map .value) :=
  List.forall₂_map_right_iff.mpr (h.imp fun _ _ => Shows.renders)

theorem Shows.renders_literal {n : Node} {v : Expression} {s : String} (h : Shows o names n v)
    (hs : v.literalValue? = some s) : Renders o names n (.markup (Text.escapeText s)) := by
  cases h with
  | text t =>
    obtain rfl : t.data = s := by simpa [Expression.literalValue?, Expression.static] using hs
    exact .data t
  | interpolation hv => exact .literal hv hs

/-- Literal texts show the nodes that they are written for. -/
theorem renders_of_literalMarkup {texts : List String}
    (h : List.Forall₂ (Shows o names) ns values) (hliteral : literalMarkup? values = some texts) :
    List.Forall₂ (Renders o names) ns (texts.map .markup) := by
  unfold literalMarkup? at hliteral
  induction h generalizing texts with
  | nil =>
    obtain rfl : [] = texts := by simpa using hliteral
    exact .nil
  | @cons n v ns values hn _ ih =>
    simp only [List.mapM_cons, Option.bind_eq_bind, Option.bind_eq_some_iff, Option.map_eq_some_iff,
      Option.pure_def, Option.some.injEq] at hliteral
    obtain ⟨text, ⟨s, hs, rfl⟩, rest, hrest, rfl⟩ := hliteral
    exact .cons (hn.renders_literal hs) (ih hrest)

end TemplateCompiler
