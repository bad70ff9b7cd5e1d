import TemplateCompiler.Script.Grammar.Declaration

/-! # Imports and exports -/

namespace TemplateCompiler.Script

open Reader

/-! ## Sources -/

/-- One attribute of an import: its name. -/
def importAttribute : Reader String := do
  let name ← match (← token).lexeme with
    | .string value => do
      advance
      pure value
    | _ => do pure (← anyWord).name
  expect .colon
  let _ ← stringLiteral
  return name

/-- The attributes of an import, which differ in their names. -/
def importAttributes (bound : Nat) : Reader Unit := do
  let t ← token
  if t.isWord "with" || (t.isWord "assert" && !t.newline) then
    passWord
    expect .lbrace
    let (names, _) ← commaList .rbrace importAttribute bound
    complainIf (names.eraseDups.length != names.length)
    expect .rbrace

/-- The module that is named, with its attributes, to the end of the statement. -/
def moduleSource (bound : Nat) : Reader Unit := do
  let _ ← stringLiteral
  importAttributes bound
  endStatement

/-! ## Imports -/

/-- What a module calls something it exports: any word, or a string. -/
def foreignName : Reader String := do
  match (← token).lexeme with
  | .string _ => stringLiteral
  | _ => return (← anyWord).name

/-- One import specifier: the local name, perhaps after the foreign one. -/
def importSpecifier : Reader Ident := do
  let local? : Reader (Option Ident) := do
    if (← token).word?.isSome then return some (← anyWord)
    let _ ← stringLiteral
    return none
  let first ← local?
  let last ← if ← acceptWord "as" then local? else pure first
  match last with
  | some id =>
    complainIf (unimportableWords.contains id.name)
    return id
  | none => fail

def namedImports (bound : Nat) : Reader (List Ident) := do
  expect .lbrace
  let (ids, _) ← commaList .rbrace importSpecifier bound
  expect .rbrace
  return ids

/-- `* as name`, or names in braces. -/
def importClause (mode : Mode) (bound : Nat) : Reader (List Ident) := do
  if ← accept .star then
    expectWord "as"
    return [← identifier mode]
  namedImports bound

/-- The name after `import`, if there is one, and whether `from` has been passed as well. The words
`source` and `defer` may say how a module is imported rather than being a name; `source from` is
a name with its `from` unless a second `from` follows. -/
def importedDefault (mode : Mode) : Reader (Option Ident × Bool) := do
  if !(← token).isIdentifier then return (none, false)
  let id ← identifier mode
  if id.name == "source" && (← token).isIdentifier then
    let isFrom ← isAtWord "from"
    let second ← identifier mode
    if isFrom && !(← isAtWord "from") then return (some id, true)
    return (some second, false)
  if id.name == "defer" && (← isAt .star) then return (none, false)
  return (some id, false)

/-- An import. A name with the module at once behind it is dropped. -/
def importDeclaration (mode : Mode) (bound : Nat) : Reader Stmt := do
  expectWord "import"
  let (first, passedFrom) ← importedDefault mode
  if let .string _ := (← token).lexeme then
    moduleSource bound
    return .importNames (if passedFrom then first.toList else [])
  let continues ← if first.isNone then pure true else accept .comma
  let more ← if continues then importClause mode bound else pure []
  expectWord "from"
  moduleSource bound
  return .importNames (first.toList ++ more)

/-! ## Exports -/

/-- An export specifier: the name it exports, and whether it may stand for a local variable. -/
def exportSpecifier : Reader (String × Bool) := do
  let isWord := (← token).word?.isSome
  let name ← foreignName
  let isLocal := isWord && !unexportableWords.contains name
  if ← acceptWord "as" then return (← foreignName, isLocal)
  return (name, isLocal)

/-- The token is a literal. -/
def Token.isLiteral (t : Token) : Bool :=
  match t.lexeme with
  | .string _ | .number _ | .bigint _ => true
  | .name w _ => ["null", "true", "false"].contains w
  | _ => false

/-- Names in braces, which stand for local variables unless a module is named. A `from` that no
literal follows says nothing. -/
def exportList (bound : Nat) : Reader Stmt := do
  expect .lbrace
  let (specifiers, _) ← commaList .rbrace exportSpecifier bound
  expect .rbrace
  let hasFrom ← acceptWord "from"
  if hasFrom && (← token).isLiteral then moduleSource bound
  else
    complainIf !specifiers.all (·.2)
    endStatement
  return .exported (specifiers.map (·.1)) []

def exportAll (bound : Nat) : Reader Stmt := do
  expect .star
  let names ← if ← acceptWord "as" then do pure [← foreignName] else pure []
  expectWord "from"
  moduleSource bound
  return .exported names []

/-- A default export. Decorators, before `export` or here, belong to a class. An abstract class and
an interface do not count as the one thing that a module exports by default. -/
def exportDefault (g : Grammar) (mode : Mode) (decorated : Bool) : Reader Stmt := do
  expectWord "default"
  let redecorated ← decorators g mode
  complainIf (decorated && redecorated)
  let next ← nextToken
  if (← isAtWord "abstract") && next.isWord "class" && !next.newline then
    passWord
    return .exported [] [← classDeclaration g mode]
  if ← isAtWord "class" then return .exported ["default"] [← classDeclaration g mode]
  complainIf (decorated || redecorated)
  if ← startsFunction then
    let isAsync ← acceptWord "async"
    return .exported ["default"] [← functionDeclaration g mode isAsync .list true]
  if ← isAtWord "interface" then
    interfaceDeclaration g mode
    return .inert
  let e ← g.assignment mode
  endStatement
  return .exported ["default"] [.eval e]

/-- A declaration that is exported under the names it declares, or under none if it is abstract or
`declare` says that it exists elsewhere. -/
def exportedDeclaration (g : Grammar) (mode : Mode) (decorated : Bool) : Reader Stmt := do
  let redecorated ← decorators g mode
  complainIf (decorated && redecorated)
  let words ← declarationModifiers g.bound
  let isForeign := words.contains "declare"
  let isHidden := isForeign || words.contains "abstract"
  let exporting (ids : List Ident) (d : Stmt) : Stmt :=
    .exported (if isHidden then [] else ids.map Ident.name) [d]
  if ← isAtWord "class" then
    checkModifiers ["abstract", "declare"] words
    let (name, heritage, members) ← classRest g mode
    return exporting name.toList (.classDef name heritage members)
  complainIf (decorated || redecorated)
  if ← isAtWord "function" then
    checkModifiers ["async", "declare"] words
    match ← functionDeclaration g mode (words.contains "async") .list false with
    | .function name ps body => return exporting name.toList (.function name ps body)
    | s => return s
  checkModifiers ["declare"] words
  let kind ← if ← isAtWord "let" then pure DeclarationKind.letDecl
    else match declarationKind? (← token) with
      | some kind => pure kind
      | none => fail
  passWord
  let bs ← declaredVariables g mode kind isForeign
  return exporting (bindingIdents bs) (.declare kind bs)

/-- An export, perhaps after decorators. -/
def exportDeclaration (g : Grammar) (mode : Mode) (decorated : Bool) : Reader Stmt := do
  expectWord "export"
  match (← token).lexeme with
  | .punct .lbrace => exportList g.bound
  | .punct .star => exportAll g.bound
  | .name "default" _ => exportDefault g mode decorated
  | _ => exportedDeclaration g mode decorated

end TemplateCompiler.Script
