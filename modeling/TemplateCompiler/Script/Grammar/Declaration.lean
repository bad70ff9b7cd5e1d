import TemplateCompiler.Script.Grammar.Class

/-! # Declarations -/

namespace TemplateCompiler.Script

open Reader

/-! ## Variables -/

/-- A pattern with its initial value, if it has one. -/
def declarator (g : Grammar) (mode : Mode) : Reader Binding := do
  let b ← g.binding mode.inside
  if ← accept .assign then return .withDefault b (← g.assignment mode)
  return b

/-- The declarator must have an initial value and has none. -/
def Binding.lacksValue (kind : DeclarationKind) : Binding → Bool
  | .withDefault _ _ => false
  | .name _ => kind == .constDecl
  | _ => true

/-- The declarator declares a single name. -/
def Binding.isSingleName : Binding → Bool
  | .name _ | .withDefault (.name _) _ => true
  | _ => false

/-- Declarators after their keyword. -/
def declarators (g : Grammar) (mode : Mode) : Reader (List Binding) :=
  commaItems (declarator g mode) g.bound

/-- Declarators to the end of the statement. Where no more than the declaration is given, `isOpen`
allows that values are missing. -/
def declaredVariables (g : Grammar) (mode : Mode) (kind : DeclarationKind) (isOpen : Bool) :
    Reader (List Binding) := do
  let bs ← declarators g mode
  complainIf (!isOpen && bs.any (·.lacksValue kind))
  endStatement
  return bs

def variableStatement (g : Grammar) (mode : Mode) (kind : DeclarationKind) : Reader Stmt := do
  return .declare kind (← declaredVariables g mode kind false)

/-- The declaration that a `var` or `const` begins. -/
def declarationKind? (t : Token) : Option DeclarationKind :=
  match t.lexeme with
  | .name "var" _ => some .varDecl
  | .name "const" _ => some .constDecl
  | _ => none

/-- `using` comes next, perhaps after `await`, and then a name on the same line. At the head of a
loop `using of` alone is no declaration. -/
def startsUsing (inLoop : Bool) : Reader Bool := do
  let found ← peek do
    let awaited ← isAtWord "await"
    if awaited then
      advance
      if (← token).newline then fail
    expectWord "using"
    let t ← token
    return t.isIdentifier && !t.newline && (awaited || !(inLoop && t.isWord "of"))
  return found == some true

/-- The declarators after `using` or `await using`, which declare names only. -/
def usingDeclarators (g : Grammar) (mode : Mode) : Reader (List Binding) := do
  if ← acceptWord "await" then complainIf !mode.awaits
  expectWord "using"
  let bs ← declarators g mode
  complainIf !bs.all (·.isSingleName)
  return bs

def usingStatement (g : Grammar) (mode : Mode) : Reader Stmt := do
  let bs ← usingDeclarators g mode
  complainIf (bs.any (·.lacksValue .constDecl))
  endStatement
  return .declare .constDecl bs

/-! ## Functions and classes -/

/-- A function declaration from its keyword on, which needs a name unless `anonymous` says
otherwise. -/
def functionDeclaration (g : Grammar) (mode : Mode) (isAsync : Bool) (place : Place)
    (anonymous : Bool) : Reader Stmt := do
  expectWord "function"
  let isGenerator ← accept .star
  complainIf (place == .single && (isAsync || isGenerator))
  let name ← if (← token).isIdentifier then some <$> identifier mode else pure none
  complainIf (name.isNone && !anonymous)
  let (ps, body) ← functionRest g isAsync isGenerator
  return .function name ps body

def classDeclaration (g : Grammar) (mode : Mode) : Reader Stmt := do
  let (name, heritage, members) ← classRest g mode
  return .classDef name heritage members

/-! ## Interfaces

An interface declares nothing that exists at run time. It is checked and dropped.
-/

/-- A member of an interface that has a name: a getter, a setter, a method or a property. -/
def namedSignature (g : Grammar) (mode : Mode) : Reader Unit := do
  checkModifiers ["readonly"] (← declarationModifiers g.bound)
  let isGetter ← modifier "get" false true
  let isSetter ← if isGetter then pure false else modifier "set" false true
  let name ← propertyName g mode
  complainIf name.isPrivate
  if isGetter then checkGetter (← parameters g mode)
  else if isSetter then checkSetter (← parameters g mode)
  else
    let _ ← accept .question
    if ← isAt .lparen then
      let _ ← parameters g mode

/-- A member of an interface: what a call or a construction takes, or a member that has a name. -/
def signature (g : Grammar) (mode : Mode) : Reader Unit := do
  if (← isAtWord "new") && (← nextToken).isPunct .lparen then passWord
  if ← isAt .lparen then
    let _ ← parameters g mode
  else namedSignature g mode
  if !(← accept .comma) then endStatement

def interfaceDeclaration (g : Grammar) (mode : Mode) : Reader Unit := do
  let extended : Reader Unit := do
    let _ ← identifier mode
    qualifiedRest g.bound
  expectWord "interface"
  let _ ← identifier mode
  if ← acceptWord "extends" then
    let _ ← commaItems extended g.bound
  expect .lbrace
  let _ ← itemsUntil (·.isPunct .rbrace) (signature g mode) g.bound
  expect .rbrace

end TemplateCompiler.Script
