import TemplateCompiler.Proofs.Block.Contents
import TemplateCompiler.Transform.Props

/-! # Outlines

The outline of an operation is what it does, whatever its expressions say. Two blocks are alike if
they show the same nodes and their operations can be paired off so that the outlines are the same.
-/

namespace TemplateCompiler

/-! ## Expressions and properties -/

/-- The expression without its source. Literal text stays. -/
def Expression.outline (e : Expression) : Expression :=
  if e.isStatic then e else .dynamic "" e.location

namespace Expression

variable {e e' : Expression}

@[simp] theorem outline_isStatic (e : Expression) : e.outline.isStatic = e.isStatic := by
  cases h : e.isStatic <;> simp [outline, dynamic, h]

theorem outline_of_isStatic (h : e.isStatic = true) : e.outline = e := if_pos h

@[simp] theorem outline_static (content : String) (location : Location) :
    (static content location).outline = static content location := rfl

theorem isStatic_of_outline (h : e.outline = e'.outline) : e.isStatic = e'.isStatic := by
  rw [← outline_isStatic, h, outline_isStatic]

/-- The expressions differ in their source only, and always have the same text if one of them
does. -/
structure Alike (e e' : Expression) : Prop where
  outline : e.outline = e'.outline
  literalValue? : e.literalValue? = e'.literalValue?

theorem Alike.refl (e : Expression) : e.Alike e := ⟨rfl, rfl⟩

end Expression

def MergedProp.outline (p : MergedProp) : MergedProp :=
  { p with key := p.key.outline, values := p.values.map (·.outline) }

def PropEntry.outline (e : PropEntry) : PropEntry :=
  { e with key := e.key.outline, value := e.value.outline }

def PropGroup.outline : PropGroup → PropGroup
  | entries props => entries (props.map (·.outline))
  | spread value isHandler => spread value.outline isHandler

def Directive.outline (d : Directive) : Directive :=
  { d with arg := d.arg.map (·.outline), exp := d.exp.map (·.outline) }

def PropResult.outline : PropResult → PropResult
  | fixed props => fixed (props.map (·.outline))
  | dynamic groups expressions => dynamic (groups.map (·.outline)) (expressions.map (·.outline))

def PropCollector.outline (c : PropCollector) : PropCollector where
  pending := c.pending.map (·.outline)
  groups := c.groups.map (·.outline)
  expressions := c.expressions.map (·.outline)

/-! ## Merging properties -/

theorem MergedProp.outline_ofEntry (e : PropEntry) :
    (ofEntry e).outline = ofEntry e.outline := rfl

theorem MergedProp.isNamed_outline (p : MergedProp) (name : String) :
    p.outline.isNamed name = p.isNamed name := by
  cases h : p.key.isStatic with
  | false => simp [isNamed, outline, h]
  | true => simp [isNamed, outline, Expression.outline_of_isStatic h]

theorem MergedProp.staticText?_outline (p : MergedProp) : p.outline.staticText? = p.staticText? := by
  obtain ⟨traits, key, values⟩ := p
  match values with
  | [value] =>
    cases hkey : key.isStatic <;> cases hvalue : value.isStatic <;>
      simp [staticText?, outline, Expression.outline_of_isStatic, hkey, hvalue]
  | [] | _ :: _ :: _ => rfl

/-- Which entries are merged depends on literal names only. -/
theorem addEntry_outline (props : List MergedProp) (e : PropEntry) :
    addEntry (props.map (·.outline)) e.outline = (addEntry props e).map (·.outline) := by
  have hnew : props.map (·.outline) ++ [MergedProp.ofEntry e.outline] =
      (props ++ [MergedProp.ofEntry e]).map (·.outline) := by
    simp [MergedProp.outline_ofEntry]
  have hstatic : e.outline.key.isStatic = e.key.isStatic := e.key.outline_isStatic
  unfold addEntry
  rw [hstatic]
  cases hkey : e.key.isStatic with
  | false => simpa using hnew
  | true =>
    have hkey' : e.outline.key = e.key := Expression.outline_of_isStatic hkey
    have hany : (props.map (·.outline)).any (·.isNamed e.key.content) =
        props.any (·.isNamed e.key.content) := by
      simp [List.any_map, Function.comp_def, MergedProp.isNamed_outline]
    simp only [hkey', hany, Bool.true_and]
    by_cases hnamed : props.any (·.isNamed e.key.content) = true
    · rw [if_pos hnamed, if_pos hnamed]
      by_cases hmerge : isMergeableProp e.key.content = true
      · rw [if_pos hmerge, if_pos hmerge, List.map_map, List.map_map]
        refine List.map_congr_left fun p _ => ?_
        simp only [Function.comp_apply, MergedProp.isNamed_outline]
        split
        · simp [MergedProp.outline, PropEntry.outline]
        · rfl
      · rw [if_neg hmerge, if_neg hmerge]
    · rw [if_neg hnamed, if_neg hnamed, hnew]

theorem mergeEntries_outline (entries : List PropEntry) :
    mergeEntries (entries.map (·.outline)) = (mergeEntries entries).map (·.outline) := by
  rw [mergeEntries_eq_foldl, mergeEntries_eq_foldl]
  have hfold : ∀ props : List MergedProp,
      (entries.map (·.outline)).foldl addEntry (props.map (·.outline)) =
        (entries.foldl addEntry props).map (·.outline) := by
    induction entries with
    | nil => intro props; rfl
    | cons e entries ih =>
      intro props
      rw [List.map_cons, List.foldl_cons, addEntry_outline, ih, List.foldl_cons]
  exact hfold []

namespace PropCollector

variable (c : PropCollector)

theorem flush_outline : c.outline.flush = c.flush.outline := by
  cases hpending : c.pending with
  | nil => simp [flush, outline, hpending]
  | cons e rest =>
    have hmerged := mergeEntries_outline (e :: rest)
    rw [List.map_cons] at hmerged
    simp [flush, outline, PropGroup.outline, hpending, hmerged]

theorem addAttribute_outline (a : StaticAttribute) :
    c.outline.addAttribute a = (c.addAttribute a).outline := by
  unfold addAttribute
  split
  · rfl
  · simp [outline, PropEntry.outline]

theorem addSpread_outline (value : Expression) :
    c.outline.addSpread value.outline = (c.addSpread value).outline := by
  simp only [addSpread, flush_outline]
  simp [outline, PropGroup.outline]

theorem addEntry_outline (isComponent : Bool) (e : PropEntry) :
    c.outline.addEntry isComponent e.outline = (c.addEntry isComponent e).outline := by
  have hstatic : e.outline.key.isStatic = e.key.isStatic := e.key.outline_isStatic
  let next : PropCollector := { c with expressions := c.expressions ++ [e.key, e.value] }
  have hnext : next.outline =
      { c.outline with expressions := c.outline.expressions ++ [e.outline.key, e.outline.value] } := by
    simp [next, outline, PropEntry.outline]
  unfold addEntry
  rw [hstatic, ← hnext]
  split
  · simp only [flush_outline]
    simp [outline, PropGroup.outline, MergedProp.outline_ofEntry, next]
  · simp [outline, PropEntry.outline, next]

theorem result_outline : c.outline.result = c.result.outline := by
  have hdynamic : (!c.outline.groups.isEmpty || c.outline.pending.any (!·.key.isStatic)) =
      (!c.groups.isEmpty || c.pending.any (!·.key.isStatic)) := by
    simp [outline, PropEntry.outline, Function.comp_def]
  unfold result
  rw [hdynamic]
  split
  · rw [flush_outline]
    rfl
  · exact congrArg PropResult.fixed (mergeEntries_outline c.pending)

end PropCollector

theorem PropResult.groups_outline (r : PropResult) :
    r.outline.groups = r.groups.map (·.outline) := by
  match r with
  | fixed [] | fixed (_ :: _) | dynamic _ _ => rfl

/-! ## Operations -/

/-- What shows in place of a condition, without its blocks. -/
def Alternative.outline : Alternative → Alternative
  | nothing => nothing
  | block _ => block .empty
  | branch id condition _ negative => branch id condition.outline .empty negative.outline

/-- The operation without the sources of its expressions and without its blocks. Whether a text
changes is left open as well. -/
def Operation.outline : Operation → Operation
  | setProp element prop => setProp element prop.outline
  | setDynamicProps element props => setDynamicProps element (props.map (·.outline))
  | setText element values => setText element (values.map (·.outline))
  | setHtml element value => setHtml element value.outline
  | setEvent element key value modifiers effect =>
    setEvent element key.outline (value.map (·.outline)) modifiers effect
  | setTemplateRef element value inLoop => setTemplateRef element value.outline inLoop
  | createText id values _ => createText id (values.map (·.outline)) false
  | insertNodes elements parent anchor => insertNodes elements parent anchor
  | prependNodes elements parent => prependNodes elements parent
  | createComponent id tag props slots asset =>
    createComponent id tag (props.map (·.outline)) (slots.map fun (name, _) => (name, .empty)) asset
  | branch id condition _ negative => branch id condition.outline .empty negative.outline
  | loop id subject value index key _ fallback =>
    loop id subject.outline value.outline (index.map (·.outline)) (key.map (·.outline)) .empty
      (fallback.map fun _ => .empty)
  | slotOutlet id name props fallback =>
    slotOutlet id name.outline (props.map (·.outline)) (fallback.map fun _ => .empty)
  | withDirective element name directive builtin asset model =>
    withDirective element name directive.outline builtin asset model

/-- The blocks of the branches after the first one. -/
def Alternative.inner : Alternative → List Block
  | nothing => []
  | block b => [b]
  | branch _ _ positive negative => positive :: negative.inner

/-- The blocks that the operation shows. -/
def Operation.inner : Operation → List Block
  | createComponent _ _ _ slots _ => slots.map (·.2)
  | branch _ _ positive negative => positive :: negative.inner
  | loop _ _ _ _ _ body fallback => body :: fallback.toList
  | slotOutlet _ _ _ fallback => fallback.toList
  | _ => []

mutual

/-- The blocks are made from the same node, consist of the same nodes, and have operations that are
alike. -/
inductive Block.Alike : Block → Block → Prop
  | intro {b b' : Block} :
      b.node = b'.node → b.dynamic = b'.dynamic → b.returns = b'.returns →
      OperationsAlike b.allOperations b'.allOperations → Block.Alike b b'

/-- The operations can be paired off, each with one of the same outline that shows like blocks. -/
inductive OperationsAlike : List Operation → List Operation → Prop
  | nil : OperationsAlike [] []
  | cons {op op' : Operation} {ops ops' : List Operation} :
      op.outline = op'.outline → BlocksAlike op.inner op'.inner → OperationsAlike ops ops' →
      OperationsAlike (op :: ops) (op' :: ops')
  | perm {ops ops₁ ops' ops₁' : List Operation} :
      ops.Perm ops₁ → ops'.Perm ops₁' → OperationsAlike ops₁ ops₁' → OperationsAlike ops ops'

inductive BlocksAlike : List Block → List Block → Prop
  | nil : BlocksAlike [] []
  | cons {b b' : Block} {bs bs' : List Block} :
      Block.Alike b b' → BlocksAlike bs bs' → BlocksAlike (b :: bs) (b' :: bs')

end

/-- The operations have the same outline and show like blocks. -/
structure Operation.Alike (op op' : Operation) : Prop where
  outline : op.outline = op'.outline
  inner : BlocksAlike op.inner op'.inner

theorem Block.alike_empty : Block.empty.Alike Block.empty := .intro rfl rfl rfl .nil

theorem Block.Alike.add {b b' : Block} {x x' : Contribution} (hb : b.Alike b')
    (hx : x.op.Alike x'.op) : (b.add x).Alike (b'.add x') := by
  cases hb with
  | intro hnode hdynamic hreturns hops =>
    refine .intro ?_ ?_ ?_ ?_
    · rw [b.node_add, hnode, b'.node_add]
    · rw [b.dynamic_add, hdynamic, b'.dynamic_add]
    · rw [b.returns_add, hreturns, b'.returns_add]
    · exact .perm (b.allOperations_add x) (b'.allOperations_add x') (.cons hx.outline hx.inner hops)

end TemplateCompiler
