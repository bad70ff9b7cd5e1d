import TemplateCompiler.Script.Reader

/-! # Productions of the grammar

The productions are mutually recursive. Each one receives the others as a `Grammar`, the record of
those that may occur inside any of them.
-/

namespace TemplateCompiler.Script

open Reader

/-- What the place of a production allows. -/
structure Mode where
  /-- `in` is an operator here. -/
  allowIn : Bool := true
  /-- `yield` is an operator here. -/
  yields : Bool := false
  /-- `await` is an operator here. -/
  awaits : Bool := true
  /-- `return` may occur here. -/
  returns : Bool := false
  /-- The expression of a decorator, which ends before a bracket. -/
  decorating : Bool := false

namespace Mode

/-- Inside brackets of any kind. -/
def inside (mode : Mode) : Mode := { mode with allowIn := true, decorating := false }

/-- Parameters and body of a function. -/
def function (isAsync isGenerator : Bool) : Mode :=
  { awaits := isAsync, yields := isGenerator, returns := true }

end Mode

/-- Whether a statement stands in a list, or is the body of another statement. -/
inductive Place
  | list
  | single
  deriving DecidableEq

structure Grammar where
  /-- No list in the script is longer than this. -/
  bound : Nat
  /-- An expression without a top-level comma. -/
  assignment : Mode → Reader Expr
  /-- Operands joined by operators that bind tighter than a given strength. -/
  binary : Mode → Nat → Reader Expr
  unary : Mode → Reader Expr
  primary : Mode → Reader Expr
  /-- A pattern that declares names, without a default. -/
  binding : Mode → Reader Binding
  statement : Mode → Place → Reader Stmt

/-- The grammar that reads nothing. -/
def Grammar.empty (bound : Nat) : Grammar where
  bound
  assignment _ := fail
  binary _ _ := fail
  unary _ := fail
  primary _ := fail
  binding _ := fail
  statement _ _ := fail

/-! ## Expressions in brackets -/

/-- An expression, in which commas may separate several. -/
def expression (g : Grammar) (mode : Mode) : Reader Expr := do
  match ← commaItems (g.assignment { mode with decorating := false }) g.bound with
  | [e] => return e
  | es => return .form .sequence es

/-- An expression in parentheses, as statements hold it. -/
def condition (g : Grammar) (mode : Mode) : Reader Expr := do
  expect .lparen
  let e ← expression g mode
  expect .rparen
  return e

/-! ## Names -/

/-- The word is an operator in this mode, hence no name. -/
def Mode.reserves (mode : Mode) (w : String) : Bool :=
  (mode.awaits && w == "await") || (mode.yields && w == "yield")

/-- An identifier, used or declared. -/
def identifier (mode : Mode) : Reader Ident := do
  let t ← token
  if t.isIdentifier then
    let id ← anyWord
    complainIf (mode.reserves id.name)
    return id
  fail

/-- The name of a property as it is written. -/
structure PropertyName where
  key : Key
  /-- The identifier, if it could also be a variable. -/
  ident : Option Ident := none
  isPrivate : Bool := false

def propertyName (g : Grammar) (mode : Mode) : Reader PropertyName := do
  let t ← token
  match t.lexeme with
  | .string text | .number text | .bigint text =>
    advance
    return { key := .fixed text }
  | .privateName text =>
    advance
    return { key := .fixed text, isPrivate := true }
  | .name text _ =>
    let id ← anyWord
    return { key := .fixed text, ident := if t.isIdentifier then some id else none }
  | .punct .lbracket =>
    advance
    let e ← g.assignment mode.inside
    expect .rbracket
    return { key := .computed e }
  | _ => fail

/-- The token can begin the name of a property. -/
def Token.startsPropertyName (t : Token) : Bool :=
  match t.lexeme with
  | .string _ | .number _ | .bigint _ | .privateName _ | .name _ _ => true
  | .punct p => p == .lbracket
  | _ => false

/-! ## Patterns that declare names -/

/-- A pattern with an optional default. -/
def bindingElement (g : Grammar) (mode : Mode) : Reader Binding := do
  let b ← g.binding mode
  if ← accept .assign then return .withDefault b (← g.assignment mode.inside)
  return b

/-- A rest element after its dots. It takes no default. -/
def restElement (g : Grammar) (mode : Mode) : Reader Binding := do
  let b ← g.binding mode
  if ← accept .assign then
    complain
    return .rest (.withDefault b (← g.assignment mode.inside))
  return .rest b

def Binding.isRest : Binding → Bool
  | .rest _ => true
  | _ => false

/-- The rest of an object is a single name. -/
def Binding.isPlainRest : Binding → Bool
  | .rest (.name _) => true
  | _ => false

/-- A rest element must be the last one, with no comma after it. -/
def checkRest (bs : List Binding) (trailing : Bool) : Reader Unit :=
  complainIf (bs.dropLast.any (·.isRest) || (trailing && (bs.getLast?.any (·.isRest))))

def bindingProperty (g : Grammar) (mode : Mode) : Reader Binding := do
  if ← accept .ellipsis then return ← restElement g mode
  let name ← propertyName g mode
  match name.ident with
  | some id =>
    if ← accept .colon then return .property name.key (← bindingElement g mode)
    if ← accept .assign then
      return .property name.key (.withDefault (.name id) (← g.assignment mode.inside))
    return .property name.key (.name id)
  | none =>
    complainIf name.isPrivate
    expect .colon
    return .property name.key (← bindingElement g mode)

/-- A name, or a pattern of names in braces or brackets. -/
def bindingTarget (g : Grammar) (mode : Mode) : Reader Binding := do
  if ← accept .lbrace then
    let (bs, trailing) ← commaList .rbrace (bindingProperty g mode) g.bound
    checkRest bs trailing
    if (bs.filter (·.isRest)).getLast?.any (!·.isPlainRest) then fail
    expect .rbrace
    return .object bs
  if ← accept .lbracket then
    let item : Reader Binding := do
      if ← isAt .comma then return .hole
      if ← accept .ellipsis then return ← restElement g mode
      bindingElement g mode
    let (bs, trailing) ← commaList .rbracket item g.bound
    checkRest bs trailing
    expect .rbracket
    return .array bs
  return .name (← identifier mode)

/-! ## Blocks -/

/-- Statements in braces. -/
def statementBlock (g : Grammar) (mode : Mode) : Reader (List Stmt) := do
  expect .lbrace
  let body ← itemsUntil (·.isPunct .rbrace) (g.statement mode .list) g.bound
  expect .rbrace
  return body

end TemplateCompiler.Script
