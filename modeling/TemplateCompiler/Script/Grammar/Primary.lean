import TemplateCompiler.Script.Grammar.Class

/-! # Operands -/

namespace TemplateCompiler.Script

open Reader

/-! ## Literals -/

/-- A regular expression, from the slash that was read as an operator. -/
def regexLiteral : Reader Expr := fun s => do
  let cs := if s.token.isPunct .slashAssign then '=' :: s.rest else s.rest
  let rest ← regex? cs
  let token := { s.token with stop := s.token.start + 1 + bytesRead cs rest }
  (do advance; return Expr.literal .regex : Reader Expr) { s with token, rest }

def templateLiteral (g : Grammar) (mode : Mode) : Reader Expr := do
  let (values, es) ← templateParts g mode g.bound
  complainIf (values.any (·.isNone))
  return .form (.template values) es

def arrayLiteral (g : Grammar) (mode : Mode) : Reader Expr := do
  expect .lbracket
  let item : Reader Expr := do
    if ← isAt .comma then return .literal .hole
    spreadable g mode
  let (es, trailing) ← commaList .rbracket item g.bound
  expect .rbracket
  return .form (.array trailing) es

/-- What the words before the name of a method say about it. -/
structure MethodKind where
  isAsync : Bool := false
  isGenerator : Bool := false
  isGetter : Bool := false
  isSetter : Bool := false

/-- The words say that a method follows. -/
def MethodKind.isMarked (m : MethodKind) : Bool :=
  m.isAsync || m.isGenerator || m.isGetter || m.isSetter

/-- `async` and `*`, or `get`, or `set`. -/
def methodKind : Reader MethodKind := do
  let isAsync ← modifier "async" true true
  let isGenerator ← accept .star
  if isAsync || isGenerator then return { isAsync, isGenerator }
  let isGetter ← modifier "get" false false
  let isSetter ← if isGetter then pure false else modifier "set" false false
  return { isGetter, isSetter }

/-- A property that is a method. -/
def methodProperty (g : Grammar) (m : MethodKind) (name : PropertyName) : Reader Property := do
  let (ps, body) ← functionRest g m.isAsync m.isGenerator
  if m.isGetter then checkGetter ps
  if m.isSetter then checkSetter ps
  return .pair name.key (.function none ps body)

def property (g : Grammar) (mode : Mode) : Reader Property := do
  if ← accept .ellipsis then return .spread (← g.assignment mode)
  let m ← methodKind
  let name ← propertyName g mode
  complainIf name.isPrivate
  if m.isMarked || (← isAt .lparen) then return ← methodProperty g m name
  if ← accept .colon then return .pair name.key (← g.assignment mode)
  match name.ident with
  | none => fail
  | some id =>
    if mode.reserves id.name then fail
    if ← accept .assign then
      let fallback ← g.assignment mode
      modify fun s => { s with openDefaults := s.openDefaults + 1 }
      return .shorthand id (some fallback)
    return .shorthand id none

def objectLiteral (g : Grammar) (mode : Mode) : Reader Expr := do
  expect .lbrace
  let (ps, _) ← commaList .rbrace (property g mode.inside) g.bound
  expect .rbrace
  return .object ps

/-! ## Keywords that begin an operand -/

def functionExpr (g : Grammar) : Reader Expr := do
  let isAsync ← acceptWord "async"
  expectWord "function"
  let isGenerator ← accept .star
  let name ← if (← token).isIdentifier then
      some <$> identifier (Mode.function isAsync isGenerator)
    else pure none
  let (ps, body) ← functionRest g isAsync isGenerator
  return .function name ps body

def classExpr (g : Grammar) (mode : Mode) : Reader Expr := do
  let decorated ← decorators g mode
  let (name, heritage, members) ← if decorated then modifiedClass g mode else classRest g mode
  return .classDef name heritage members

/-- One expression or several in parentheses, without a comma at the end. -/
def parenthesized (g : Grammar) (mode : Mode) : Reader Expr := do
  expect .lparen
  let e ← expression g mode.inside
  expect .rparen
  return e

/-- The arguments of an import call: the module, and options that are checked and dropped. -/
def importArguments (g : Grammar) (mode : Mode) : Reader Expr := do
  expect .lparen
  let source ← g.assignment mode.inside
  if (← accept .comma) && !(← isAt .rparen) then
    let _ ← g.assignment mode.inside
    let _ ← accept .comma
  expect .rparen
  return .form .importCall [source]

def importExpr (g : Grammar) (mode : Mode) : Reader Expr := do
  expectWord "import"
  if ← accept .dot then
    if ← acceptWord "meta" then return .literal .metaProperty
    if ← acceptWord "source" then return ← importArguments g mode
    expectWord "defer"
  importArguments g mode

def Expr.isImportCall : Expr → Bool
  | .form .importCall _ => true
  | _ => false

/-- `new` with what it constructs, which is no import call unless in parentheses. -/
def newExpr (g : Grammar) (mode : Mode) : Reader Expr := do
  expectWord "new"
  if ← accept .dot then
    expectWord "target"
    return .literal .metaProperty
  let grouped ← isAt .lparen
  let callee ← g.primary mode
  let (callee, isOptional) ← chainRest g mode false g.bound callee false
  complainIf (isOptional || (callee.isImportCall && !grouped))
  let es ← if ← isAt .lparen then arguments g mode else pure []
  return .form .construct (callee :: es)

def superExpr : Reader Expr := do
  expectWord "super"
  let t ← token
  complainIf !(t.isPunct .dot || t.isPunct .lbracket || t.isPunct .lparen)
  return .literal .superValue

/-! ## Operands -/

/-- An operand that begins with a word. -/
def wordOperand (g : Grammar) (mode : Mode) (w : String) : Reader Expr := do
  let literal (value : Literal) : Reader Expr := do
    passWord
    return .literal value
  if w == "this" then literal .thisValue
  else if w == "null" then literal .null
  else if w == "true" then literal (.bool true)
  else if w == "false" then literal (.bool false)
  else if w == "class" then classExpr g mode
  else if w == "new" then newExpr g mode
  else if w == "super" then superExpr
  else if w == "import" then importExpr g mode
  else if ← startsFunction then functionExpr g
  else return .ident (← identifier mode)

def primaryExpr (g : Grammar) (mode : Mode) : Reader Expr := do
  let literal (value : Literal) : Reader Expr := do
    advance
    return .literal value
  match (← token).lexeme with
  | .name w _ => wordOperand g mode w
  | .number text => literal (.number text)
  | .bigint text => literal (.bigint text)
  | .string value => literal (.string value)
  | .template _ _ => templateLiteral g mode
  | .punct .lparen => parenthesized g mode
  | .punct .lbracket => arrayLiteral g mode
  | .punct .lbrace => objectLiteral g mode
  | .punct .slash | .punct .slashAssign => regexLiteral
  | .punct .at => classExpr g mode
  | _ => fail

end TemplateCompiler.Script
