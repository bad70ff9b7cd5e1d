import TemplateCompiler.Proofs.Transform.Compiles
import TemplateCompiler.Proofs.Transform.Later

/-! # Where operations come from

Every operation of a block comes from a node inside it. Its expressions are those of the node,
processed once where the names of the loops around are in scope.
-/

namespace TemplateCompiler

open Template (Branches EachBlock Element Fragment IfBlock Node)
open Transform

variable {id : Nat} {ns : List Node} {x : Contribution}

/-! ## Places -/

/-- `P` holds of a node that is the first of `ns` or is inside it in the same block. It is told of
the node with its siblings after it, and of the id of the node. -/
inductive Occurs (P : List Node → Nat → Prop) : List Node → NodeInfo → Prop
  | here {ns : List Node} {d : NodeInfo} {id : Nat} : d.id = some id → P ns id → Occurs P ns d
  | inside {n : Node} {ns : List Node} {d k : NodeInfo} {i : Nat} :
      d.children[i]? = some k → Occurs P (n.children.drop i) k → Occurs P (n :: ns) d

/-- The contribution is work on the first of the nodes, which has the given id. -/
inductive OwnFrom (o : Options) (names : List String) : List Node → Nat → Contribution → Prop
  | property {e : Element} {ns : List Node} {id : Nat} {props : List Property} {x : Contribution} :
      Property.ofAttributes e.attributes = .ok props → FromProps o names e id props x →
      OwnFrom o names (.element e :: ns) id x
  | markup {e : Element} {ns : List Node} {id : Nat} {code : Template.Code} {value : Expression} :
      e.children = [.rawMarkup code] → Processed o names (.ofCode code) value →
      OwnFrom o names (.element e :: ns) id (.whenever [value] (.setHtml id value))
  | text {e : Element} {ns : List Node} {id : Nat} {values : List Expression} :
      IsTextContainer e → List.Forall₂ (Shows o names) e.children values →
      OwnFrom o names (.element e :: ns) id (.whenever values (.setText id values))

/-- The expression is one that work on the first of the nodes depends on. -/
def NeededBy (o : Options) (names : List String) (x : Expression) (ns : List Node) (id : Nat) :
    Prop :=
  ∃ y, OwnFrom o names ns id y ∧ x ∈ y.expressions

/-! ## Blocks -/

mutual

/-- The block is made from the fragment where `names` are in scope. -/
def Block.From (o : Options) (names : List String) (f : Fragment) : Block → Prop
  | ⟨node, dynamic, effects, operations, _⟩ =>
    node = .fragment f ∧ operationsFrom o names f dynamic operations ∧
      effectsFrom o names f dynamic effects

def operationsFrom (o : Options) (names : List String) (f : Fragment) (d : NodeInfo) :
    List Operation → Prop
  | [] => True
  | op :: ops =>
    Occurs (fun ns id => op.From o names ns id) [.fragment f] d ∧ operationsFrom o names f d ops

/-- The expressions that an effect depends on come with work on a node. -/
def effectsFrom (o : Options) (names : List String) (f : Fragment) (d : NodeInfo) :
    List Effect → Prop
  | [] => True
  | ⟨expressions, operations⟩ :: effects =>
    (∀ x ∈ expressions, Occurs (NeededBy o names x) [.fragment f] d) ∧
      operationsFrom o names f d operations ∧ effectsFrom o names f d effects

/-- The operation comes from the first of the nodes, which has the given id. -/
def Operation.From (o : Options) (names : List String) (ns : List Node) (id : Nat) :
    Operation → Prop
  | .createText i values _ =>
    i = id ∧ (ns.head?.any (·.isInterpolation)) = true ∧
      List.Forall₂ (Shows o names) (ns.takeWhile (·.isTextLike)) values
  | .insertNodes _ parent _ | .prependNodes _ parent => parent = id
  | .createComponent i _ groups slots _ =>
    i = id ∧ ∃ e rest props fs, ns = .element e :: rest ∧ e.kind = .component ∧
      Property.ofAttributes e.attributes = .ok props ∧
      (∀ g ∈ groups, GroupFrom o names e props g) ∧ slotsOf e = .ok fs ∧ slotsFrom o names fs slots
  | .branch i test positive negative =>
    i = id ∧ ∃ b rest, ns = .ifBlock b :: rest ∧ Processed o names (.ofCode b.test) test ∧
      positive.From o names b.consequent ∧
      negative.From o names (Template.alternateBranches b.alternate)
  | .loop i subject value index key body fallback =>
    i = id ∧ ∃ b rest new, ns = .eachBlock b :: rest ∧ loopNames? b = some new ∧
      Processed o names (.ofCode b.subject) subject ∧
      value = .dynamic (Text.trim b.context) b.location ∧
      index = b.index.map (fun name => .dynamic name b.location) ∧
      ProcessedOption o (new ++ names) (b.key.map .ofCode) key ∧
      body.From o (new ++ names) b.body ∧ optionalFrom o names b.fallback fallback
  | .slotOutlet i name groups fallback =>
    i = id ∧ ∃ e rest props others, ns = .element e :: rest ∧ e.kind = .slotOutlet ∧
      Property.ofAttributes e.attributes = .ok props ∧ others ⊆ props ∧
      (NameFrom o names props name ∨ name = .static "default" e.location) ∧
      (∀ g ∈ groups, GroupFrom o names e others g) ∧
      optionalFrom o names (outletContent? e) fallback
  | .withDirective i name d builtin asset model =>
    (∀ arg ∈ d.arg, arg.isStatic = true) ∧
      ∃ x, OwnFrom o names ns id x ∧ x.op = .withDirective i name d builtin asset model
  | op => ∃ x, OwnFrom o names ns id x ∧ x.op = op

def Alternative.From (o : Options) (names : List String) : Branches → Alternative → Prop
  | .done, .nothing => True
  | .otherwise body, .block b => b.From o names body
  | .test condition body rest, .branch _ test positive negative =>
    Processed o names (.ofCode condition) test ∧ positive.From o names body ∧
      negative.From o names rest
  | _, _ => False

def slotsFrom (o : Options) (names : List String) :
    List (String × Fragment) → List (String × Block) → Prop
  | [], [] => True
  | (name, f) :: fs, (name', b) :: slots =>
    name' = name ∧ b.From o names f ∧ slotsFrom o names fs slots
  | _, _ => False

def optionalFrom (o : Options) (names : List String) : Option Fragment → Option Block → Prop
  | none, none => True
  | some f, some b => b.From o names f
  | _, _ => False

end

variable {o : Options} {names : List String} {f : Fragment} {d d' : NodeInfo}

theorem operationsFrom_iff {ops : List Operation} :
    operationsFrom o names f d ops ↔
      ∀ op ∈ ops, Occurs (fun ns id => op.From o names ns id) [.fragment f] d := by
  induction ops with
  | nil => simp [operationsFrom]
  | cons op ops ih => simp [operationsFrom, ih]

theorem effectsFrom_iff {effects : List Effect} :
    effectsFrom o names f d effects ↔
      (∀ eff ∈ effects, ∀ x ∈ eff.expressions, Occurs (NeededBy o names x) [.fragment f] d) ∧
      ∀ op ∈ effects.flatMap (·.operations),
        Occurs (fun ns id => op.From o names ns id) [.fragment f] d := by
  induction effects with
  | nil => simp [effectsFrom]
  | cons eff effects ih =>
    obtain ⟨es, ops⟩ := eff
    rw [effectsFrom, ih, operationsFrom_iff, List.forall_mem_cons, List.flatMap_cons,
      List.forall_mem_append]
    constructor
    · rintro ⟨hexpressions, hops, hexpressions', hops'⟩
      exact ⟨⟨hexpressions, hexpressions'⟩, hops, hops'⟩
    · rintro ⟨⟨hexpressions, hexpressions'⟩, hops, hops'⟩
      exact ⟨hexpressions, hops, hexpressions', hops'⟩

theorem Block.from_iff {b : Block} :
    b.From o names f ↔
      b.node = .fragment f ∧
      (∀ op ∈ b.allOperations, Occurs (fun ns id => op.From o names ns id) [.fragment f] b.dynamic) ∧
      ∀ eff ∈ b.effects, ∀ x ∈ eff.expressions,
        Occurs (NeededBy o names x) [.fragment f] b.dynamic := by
  obtain ⟨node, dynamic, effects, operations, returns⟩ := b
  rw [Block.From, operationsFrom_iff, effectsFrom_iff, allOperations, List.forall_mem_append]
  constructor
  · rintro ⟨hnode, hops, hexpressions, hops'⟩
    exact ⟨hnode, ⟨hops, hops'⟩, hexpressions⟩
  · rintro ⟨hnode, ⟨hops, hops'⟩, hexpressions⟩
    exact ⟨hnode, hops, hexpressions, hops'⟩

/-! ## Places stay -/

theorem Occurs.later {P : List Node → Nat → Prop} (h : Occurs P ns d) (hd : d.Later d') :
    Occurs P ns d' := by
  cases h with
  | here hid hP => exact .here (hd.id _ hid) hP
  | inside hk hinside => exact .inside (hd.children.symm ▸ hk) hinside

theorem OwnFrom.isOwn (h : OwnFrom o names ns id x) : x.op.isOwn = true := by
  cases h with
  | property _ hx => exact hx.isOwn
  | markup | text => rfl

theorem OwnFrom.arg_isStatic {i : Nat} {name : String} {d : Directive} {builtin asset : Bool}
    {model : Option ModelKind} (h : OwnFrom o names ns id x)
    (hop : x.op = .withDirective i name d builtin asset model) :
    ∀ arg ∈ d.arg, arg.isStatic = true := by
  cases h with
  | property hprops hx =>
    rcases hx with ⟨d', hd, hcontributes⟩ | hplaces
    · cases hcontributes with
      | event | reference => simp at hop
      | plainReference => cases hop
      | model | action =>
        cases hop
        exact Property.arg_isStatic (d := d') hprops hd
    · cases hplaces <;> cases hop
  | markup | text => cases hop

theorem OwnFrom.from_op (h : OwnFrom o names ns id x) : x.op.From o names ns id := by
  have hown := h.isOwn
  have hx : ∃ y, OwnFrom o names ns id y ∧ y.op = x.op := ⟨x, h, rfl⟩
  generalize x.op = op at hown hx ⊢
  cases op with
  | withDirective =>
    obtain ⟨y, hy, hop⟩ := hx
    exact ⟨hy.arg_isStatic hop, y, hy, hop⟩
  | _ => simp_all [Operation.isOwn, Operation.From]

end TemplateCompiler
