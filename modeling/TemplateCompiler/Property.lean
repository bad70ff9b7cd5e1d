import TemplateCompiler.Diagnostic
import TemplateCompiler.Expression

/-! # Properties of elements

The many ways of writing an attribute come down to two: text that is fixed, and directives.
-/

namespace TemplateCompiler

open Template (Attribute AttributeValue Chunk DirectiveKind)

structure StaticAttribute where
  name : String
  /-- Empty if the attribute has no value. -/
  value : String
  location : Location
  deriving DecidableEq, Repr, Inhabited

structure Directive where
  /-- What the directive does, or the name of an action. -/
  name : String
  arg : Option Expression := none
  exp : Option Expression := none
  modifiers : List String := []
  location : Location
  deriving DecidableEq, Repr, Inhabited

/-- The argument, if it is literal text. -/
def Directive.staticArg? (d : Directive) : Option String :=
  d.arg.bind fun arg => if arg.isStatic then some arg.content else none

inductive Property
  | fixed (attr : StaticAttribute)
  | bound (directive : Directive)
  deriving DecidableEq, Repr, Inhabited

/-! ## Values -/

/-- Pieces of an attribute value as operands of a sum. A shorthand is no piece. -/
def chunkOperands? : List Chunk → Option (List String)
  | [] => some []
  | .text t :: cs => (chunkOperands? cs).map (Text.quote t.data :: ·)
  | .code c :: cs => (chunkOperands? cs).map (c.content :: ·)
  | .shorthand _ :: _ => none

/-- The operands make a text: one of the first two is a text, or one is put in front. -/
def textualOperands (chunks : List Chunk) (operands : List String) : List String :=
  if chunks.head?.any (·.isText) || chunks[1]?.any (·.isText) then operands
  else Text.quote "" :: operands

/-- The sum of all pieces of a value. -/
def concatChunks? (chunks : List Chunk) : Option Expression := do
  let first ← chunks.head?
  let last ← chunks.getLast?
  let operands ← chunkOperands? chunks
  some (Expression.dynamic (Script.concat (textualOperands chunks operands))
    (first.location.cover last.location))

/-- The name of an attribute as an argument. -/
def argument (name : String) (location : Location) : Expression :=
  Expression.static name (location.withSource name)

/-! ## Plain attributes -/

def plainProperty (name : String) (value : AttributeValue) (location : Location) :
    Except Diagnostic Property :=
  let fixed (value : String) : Property := .fixed { name, value, location }
  let bound (exp : Expression) : Property :=
    .bound { name := "bind", arg := argument name location, exp, location }
  match value with
  | .absent => .ok (fixed "")
  | .chunks [.text t] => .ok (fixed t.data)
  | .chunks [.code c] | .chunks [.shorthand c] => .ok (bound (.ofCode c))
  | .chunks chunks =>
    match concatChunks? chunks with
    | some exp => .ok (bound exp)
    | none => .error { fault := .malformedAttributeValue, detail := name, location }

/-! ## Directives -/

/-- A directive as it is written. -/
structure WrittenDirective where
  kind : DirectiveKind
  name : String
  modifiers : List String
  value : AttributeValue
  location : Location

namespace WrittenDirective

def text (d : WrittenDirective) : String := d.kind.word ++ ":" ++ d.name

def malformed (d : WrittenDirective) : Diagnostic :=
  { fault := .malformedDirectiveValue, detail := d.text, location := d.location }

/-- The value of the directive, if it has one. A style may also be given as text. -/
def value? (d : WrittenDirective) : Except Diagnostic (Option Expression) :=
  match d.value with
  | .absent => .ok none
  | .chunks [.code c] => .ok (some (.ofCode c))
  | .chunks chunks =>
    if d.kind = .styleProperty then
      match chunks with
      | [.text t] => .ok (some (.dynamic (Text.quote t.data) t.location))
      | _ =>
        match concatChunks? chunks with
        | some exp => .ok (some exp)
        | none => .error d.malformed
    else .error d.malformed

/-- The value, or the variable that has the name of the directive. -/
def valueOrName (d : WrittenDirective) : Except Diagnostic Expression := do
  match ← d.value? with
  | some exp => return exp
  | none =>
    if Text.isSimpleIdentifier d.name then return .dynamic d.name d.location
    else throw d.malformed

/-- The handler that passes an event on. -/
def forwarding (d : WrittenDirective) : Expression :=
  .dynamic ("() => $emit(" ++ Text.quote d.name ++ ")") d.location

/-- The directive with what it does as its name. -/
def toDirective (d : WrittenDirective) : Except Diagnostic Directive := do
  let named (name : String) (arg exp : Option Expression) : Directive :=
    { name, arg, exp, modifiers := d.modifiers, location := d.location }
  let arg := argument d.name d.location
  match d.kind with
  | .eventHandler => return named "on" arg ((← d.value?).getD d.forwarding)
  | .binding =>
    if d.name = "this" then return named "ref" none (← d.value?)
    return named "model" arg (← d.valueOrName)
  | .classToggle => return named "class" arg (← d.valueOrName)
  | .styleProperty => return named "style" arg (← d.valueOrName)
  | .action => return named d.name none (← d.value?)
  | .reference => return named "ref" none (some (.static d.name d.location))
  | .transition | .animation | .letBinding => throw (.notImplemented d.text d.location)

end WrittenDirective

/-! ## Attributes -/

def Property.ofAttribute : Attribute → Except Diagnostic Property
  | .plain name value location => plainProperty name value location
  | .spread code location =>
    .ok (.bound { name := "bind", exp := some (.ofCode code), location })
  | .directive kind name modifiers value location =>
    .bound <$> WrittenDirective.toDirective { kind, name, modifiers, value, location }

/-- The properties of an element, or what is wrong with the first one that is wrong. -/
def Property.ofAttributes (attributes : List Attribute) : Except Diagnostic (List Property) :=
  attributes.mapM Property.ofAttribute

end TemplateCompiler
