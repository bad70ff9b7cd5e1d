import TemplateCompiler.Script.Grammar.Chain
import TemplateCompiler.Script.Grammar.Function
import TemplateCompiler.Script.Grammar.Modifier

/-! # Classes -/

namespace TemplateCompiler.Script

open Reader

/-! ## Members -/

/-- Names that a member may not have. `isPlain` says that nothing but modifiers stands before the
name. -/
def checkMemberName (words : List String) (name : PropertyName) (isMethod isPlain : Bool) :
    Reader Unit := do
  match name.key with
  | .computed _ => return
  | .fixed text =>
    if name.isPrivate then complainIf (text == "constructor")
    else if words.contains "static" then
      complainIf (text == "prototype" && (isMethod || !words.contains "declare"))
      complainIf (text == "constructor" && !isMethod)
    else if text == "constructor" then
      complainIf !(isMethod && isPlain)
      checkModifiers accessWords words

/-- A getter or a setter after its word. -/
def accessorMember (g : Grammar) (mode : Mode) (words : List String) (isGetter : Bool) :
    Reader Member := do
  let name ← propertyName g mode
  checkMemberName words name true false
  complainIf (words.contains "async" || words.contains "declare")
  let (ps, body) ← functionRest g false false
  if isGetter then checkGetter ps else checkSetter ps
  return .method name.key ps body

/-- The initial value of a field, if it has one. That of an `accessor` is a single expression and
belongs to the surroundings of the class. -/
def fieldValue (g : Grammar) (mode : Mode) (isAccessor : Bool) : Reader (Option Expr) := do
  if ← accept .assign then
    if isAccessor then return some (← g.assignment mode)
    return some (← expression g { mode.inside with awaits := false, yields := false })
  return none

/-- A method or a field. A question mark may follow the name, but not that of an `accessor`. After
the name of a field an exclamation mark may follow. -/
def namedMember (g : Grammar) (mode : Mode) (decorated : Bool) (words : List String) :
    Reader Member := do
  let isGenerator ← accept .star
  let name ← propertyName g mode
  let isOptional ← accept .question
  let isMethod := isGenerator || (← isAt .lparen)
  checkMemberName words name isMethod !(decorated || isGenerator)
  if isMethod then
    let (ps, body) ← functionRest g (words.contains "async") isGenerator
    return .method name.key ps body
  let isDefinite ← accept .bang
  let isAccessor := words.contains "accessor"
  complainIf (isOptional && (isDefinite || isAccessor))
  let value ← fieldValue g mode isAccessor
  endStatement
  return .field name.key value

/-- A member of a class body. A static block takes neither decorators nor modifiers. -/
def classMember (g : Grammar) (mode : Mode) : Reader Member := do
  let decorated ← decorators g mode
  let words ← modifiersAfter true g.bound []
  if (← isAtWord "static") && (← nextToken).isPunct .lbrace then
    complainIf (decorated || !words.isEmpty)
    passWord
    return .staticBlock
      (← statementBlock g { mode with awaits := true, yields := false, returns := false })
  if ← modifier "get" false true then return ← accessorMember g mode words true
  if ← modifier "set" false true then return ← accessorMember g mode words false
  namedMember g mode decorated words

/-! ## Heads of classes -/

/-- A name with points in it, read after its first part. -/
def qualifiedRest (bound : Nat) : Reader Unit := do
  let step : Reader Unit := do
    expect .dot
    let _ ← anyWord
  let _ ← itemsUntil (!·.isPunct .dot) step bound

/-- A name as an `implements` clause mentions it. Any word may begin it. -/
def implementedName (bound : Nat) : Reader Unit := do
  let _ ← anyWord
  qualifiedRest bound

/-- The `extends` and `implements` clauses of a class, one of each at most and in this order. Of the
classes that are extended only the first one counts. -/
def heritageClauses (g : Grammar) (mode : Mode) :
    Nat → (extended implemented : Bool) → Reader (Option Expr)
  | 0, _, _ => fail
  | n + 1, extended, implemented => do
    if ← isAtWord "extends" then
      complainIf (extended || implemented)
      passWord
      let es ← commaItems (leftHandSide g mode) g.bound
      let _ ← heritageClauses g mode n true implemented
      return es.head?
    if ← isAtWord "implements" then
      complainIf implemented
      passWord
      let _ ← commaItems (implementedName g.bound) g.bound
      return ← heritageClauses g mode n extended true
    return none

/-- A class from its keyword on. -/
def classRest (g : Grammar) (mode : Mode) :
    Reader (Option Ident × Option Expr × List Member) := do
  expectWord "class"
  let t ← token
  let name ← if t.isIdentifier && !t.isWord "implements" then some <$> identifier mode
    else pure none
  let heritage ← heritageClauses g mode g.bound false false
  expect .lbrace
  let item : Reader (List Member) := do
    if ← accept .semicolon then return []
    return [← classMember g mode]
  let members ← itemsUntil (·.isPunct .rbrace) item g.bound
  expect .rbrace
  return (name, heritage, members.flatten)

/-- A class after its decorators, perhaps with modifiers. -/
def modifiedClass (g : Grammar) (mode : Mode) :
    Reader (Option Ident × Option Expr × List Member) := do
  checkModifiers ["abstract", "declare"] (← declarationModifiers g.bound)
  classRest g mode

end TemplateCompiler.Script
