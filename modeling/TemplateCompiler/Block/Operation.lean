import TemplateCompiler.Block.NodeInfo
import TemplateCompiler.Block.PropGroup
import TemplateCompiler.Property
import TemplateCompiler.Template.Node

/-! # Blocks and their operations

A block is what a part of a template does when it is shown: the root, a branch, the body of a loop,
a slot.
-/

namespace TemplateCompiler

structure EventModifiers where
  /-- Conditions on an event that its handler checks. -/
  guards : List String := []
  /-- Options of listening. -/
  options : List String := []
  deriving DecidableEq, Repr, Inhabited

/-- The kind of control that is bound in both directions. -/
inductive ModelKind
  | text
  | radio
  | checkbox
  | select
  | dynamic
  deriving DecidableEq, Repr, Inhabited

mutual

structure Block where
  /-- What the block was made from. -/
  node : Template.Node
  dynamic : NodeInfo
  effects : List Effect
  operations : List Operation
  /-- The nodes that the block consists of. -/
  returns : List Nat

/-- Operations that run again whenever one of the expressions changes. -/
structure Effect where
  expressions : List Expression
  operations : List Operation

inductive Operation
  | setProp (element : Nat) (prop : MergedProp)
  | setDynamicProps (element : Nat) (props : List PropGroup)
  | setText (element : Nat) (values : List Expression)
  | setHtml (element : Nat) (value : Expression)
  | setEvent (element : Nat) (key : Expression) (value : Option Expression)
      (modifiers : EventModifiers) (effect : Bool)
  | setTemplateRef (element : Nat) (value : Expression) (inLoop : Bool)
  | createText (id : Nat) (values : List Expression) (effect : Bool)
  | insertNodes (elements : List Nat) (parent : Nat) (anchor : Option Nat)
  | prependNodes (elements : List Nat) (parent : Nat)
  | createComponent (id : Nat) (tag : String) (props : List PropGroup)
      (slots : List (String × Block)) (asset : Bool)
  | branch (id : Nat) (condition : Expression) (positive : Block) (negative : Alternative)
  | loop (id : Nat) (subject value : Expression) (index key : Option Expression) (body : Block)
      (fallback : Option Block)
  | slotOutlet (id : Nat) (name : Expression) (props : List PropGroup) (fallback : Option Block)
  | withDirective (element : Nat) (name : String) (directive : Directive) (builtin asset : Bool)
      (model : Option ModelKind)

/-- What shows when a condition does not hold. -/
inductive Alternative
  | nothing
  | block (block : Block)
  | branch (id : Nat) (condition : Expression) (positive : Block) (negative : Alternative)

end

namespace Block

/-- The block that does nothing. -/
def empty : Block :=
  { node := default, dynamic := {}, effects := [], operations := [], returns := [] }

/-- Adds an operation that runs once. -/
def register (b : Block) (op : Operation) : Block := { b with operations := b.operations ++ [op] }

end Block

/-- Adds an operation to the first effect with these expressions, or to a new one. -/
def addToEffects (expressions : List Expression) (op : Operation) : List Effect → List Effect
  | [] => [⟨expressions, [op]⟩]
  | e :: es =>
    if Expression.sameAll e.expressions expressions then
      { e with operations := e.operations ++ [op] } :: es
    else e :: addToEffects expressions op es

/-- Adds an operation that depends on the expressions. Those that are constant do not matter, and
without others the operation runs once. -/
def Block.registerEffect (b : Block) (expressions : List Expression) (op : Operation) : Block :=
  match expressions.filter (!·.isConstant) with
  | [] => b.register op
  | changing => { b with effects := addToEffects changing op b.effects }

instance : Inhabited Block := ⟨Block.empty⟩

end TemplateCompiler
