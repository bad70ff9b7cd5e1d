import TemplateCompiler.Script.Grammar.Assignment
import TemplateCompiler.Script.Grammar.Module

/-! # Statements -/

namespace TemplateCompiler.Script

open Reader

/-! ## Simple statements -/

/-- An expression, or a statement that an identifier labels. -/
def expressionStatement (g : Grammar) (mode : Mode) : Reader Stmt := do
  let e ← expression g mode
  match e, ← isAt .colon with
  | .ident _, true =>
    advance
    return .labeled (← g.statement mode .single)
  | _, _ =>
    endStatement
    return .eval e

/-- `break` or `continue`, with a label on the same line if there is one. -/
def jump (mode : Mode) : Reader Stmt := do
  passWord
  let t ← token
  if t.isIdentifier && !t.newline then
    let _ ← identifier mode
  endStatement
  return .inert

def returnStatement (g : Grammar) (mode : Mode) : Reader Stmt := do
  complainIf !mode.returns
  passWord
  if endsStatement (← token) then
    endStatement
    return .inert
  let e ← expression g { mode with allowIn := true }
  endStatement
  return .eval e

/-- `throw`, whose value begins on the same line. -/
def throwStatement (g : Grammar) (mode : Mode) : Reader Stmt := do
  passWord
  complainIf (← token).newline
  let e ← expression g mode
  endStatement
  return .eval e

/-! ## Statements that hold others -/

def ifStatement (g : Grammar) (mode : Mode) : Reader Stmt := do
  passWord
  let test ← condition g mode
  let consequent ← g.statement mode .single
  if ← acceptWord "else" then return .headed test [consequent, ← g.statement mode .single]
  return .headed test [consequent]

/-- `while` and `with`. -/
def headedStatement (g : Grammar) (mode : Mode) : Reader Stmt := do
  passWord
  let head ← condition g mode
  return .headed head [← g.statement mode .single]

def doStatement (g : Grammar) (mode : Mode) : Reader Stmt := do
  passWord
  let body ← g.statement mode .single
  expectWord "while"
  let test ← condition g mode
  let _ ← accept .semicolon
  return .doWhile body test

/-- A case of a `switch`: its test, if it has one, and its statements. -/
def switchCase (g : Grammar) (mode : Mode) : Reader (List Stmt) := do
  let test ← if ← acceptWord "default" then pure []
    else do
      expectWord "case"
      pure [Stmt.eval (← expression g mode)]
  expect .colon
  let ends (t : Token) : Bool := t.isWord "case" || t.isWord "default" || t.isPunct .rbrace
  return test ++ (← itemsUntil ends (g.statement mode .list) g.bound)

def switchStatement (g : Grammar) (mode : Mode) : Reader Stmt := do
  passWord
  let subject ← condition g mode
  expect .lbrace
  let cases ← itemsUntil (·.isPunct .rbrace) (switchCase g mode) g.bound
  expect .rbrace
  return .switch subject cases.flatten

def catchClause (g : Grammar) (mode : Mode) : Reader Stmt := do
  let parameter ← if ← accept .lparen then do
      let b ← g.binding mode
      expect .rparen
      pure [b]
    else pure []
  return .catchClause parameter (← statementBlock g mode)

def tryStatement (g : Grammar) (mode : Mode) : Reader Stmt := do
  passWord
  let body ← statementBlock g mode
  let caught ← if ← acceptWord "catch" then do pure [← catchClause g mode] else pure []
  let final ← if ← acceptWord "finally" then do
      pure [Stmt.block (← statementBlock g mode)]
    else pure []
  complainIf (caught ++ final).isEmpty
  return .tryCatch body (caught ++ final)

/-! ## Loops -/

/-- Test and step of a loop, and its body. -/
def loopRest (g : Grammar) (mode : Mode) (start : List Stmt) : Reader Stmt := do
  let control := { mode with allowIn := true }
  expect .semicolon
  let test ← if ← isAt .semicolon then pure [] else do pure [← expression g control]
  expect .semicolon
  let step ← if ← isAt .rparen then pure [] else do pure [← expression g control]
  expect .rparen
  return .forLoop start (test ++ step) (← g.statement mode .single)

/-- The subject of a loop over keys or over items, and its body. -/
def subjectRest (g : Grammar) (mode : Mode) (overItems : Bool) : Reader (Expr × Stmt) := do
  passWord
  let subject ← if overItems then g.assignment mode else expression g mode
  expect .rparen
  return (subject, ← g.statement mode .single)

/-- A loop after the variables it declares. `isUsing` says that `using` declares them. -/
def declaringLoop (g : Grammar) (mode : Mode) (awaited : Bool) (kind : DeclarationKind)
    (isUsing : Bool) (bs : List Binding) : Reader Stmt := do
  let overItems ← isAtWord "of"
  let overKeys ← isAtWord "in"
  complainIf ((awaited && !overItems) || (isUsing && overKeys))
  if overItems || overKeys then
    let (subject, body) ← subjectRest g mode overItems
    return .forDeclared kind bs subject body
  complainIf (!isUsing && bs.any (·.lacksValue kind))
  loopRest g mode [.declare kind bs]

/-- A loop that begins with an expression. -/
def evaluatingLoop (g : Grammar) (mode : Mode) (awaited : Bool) : Reader Stmt := do
  let start ← token
  let startsWithAsyncOf :=
    start.isWord "async" && !start.isEscaped && (← nextToken).isWord "of"
  let e ← expression g { mode with allowIn := false }
  let overItems ← isAtWord "of"
  let overKeys ← isAtWord "in"
  complainIf (awaited && !overItems)
  if overItems || overKeys then
    complainIf (overItems && !awaited && startsWithAsyncOf)
    match e.toTarget? with
    | none => fail
    | some (target, justified) =>
      modify fun s => { s with openDefaults := s.openDefaults - justified }
      let (subject, body) ← subjectRest g mode overItems
      return .forTarget target subject body
  loopRest g mode [.eval e]

/-- `let` begins a declaration at the head of a loop. -/
def letDeclaresInLoop : Reader Bool := do
  if ← isAtWord "let" then
    let t ← nextToken
    return t.isPunct .lbrace || t.isPunct .lbracket || t.word?.any (· != "in")
  return false

def forStatement (g : Grammar) (mode : Mode) : Reader Stmt := do
  passWord
  let awaited ← acceptWord "await"
  complainIf (awaited && !mode.awaits)
  expect .lparen
  if ← isAt .semicolon then
    complainIf awaited
    return ← loopRest g mode []
  let head := { mode with allowIn := false }
  if let some kind := declarationKind? (← token) then
    passWord
    return ← declaringLoop g mode awaited kind false (← declarators g head)
  if ← letDeclaresInLoop then
    passWord
    return ← declaringLoop g mode awaited .letDecl false (← declarators g head)
  if ← startsUsing true then
    return ← declaringLoop g mode awaited .constDecl true (← usingDeclarators g head)
  evaluatingLoop g mode awaited

/-! ## The beginning of a statement -/

/-- A statement that begins with `let`. It declares variables unless the next token makes `let` a
name. Before a point or a parenthesis the statement needs no end. -/
def letStatement (g : Grammar) (mode : Mode) (place : Place) : Reader Stmt := do
  let next ← nextToken
  if assignmentOperator next || next.binaryOp?.any (!·.isLogical) then
    let e ← g.assignment mode
    endStatement
    return .eval e
  if next.isPunct .dot || next.isPunct .lparen then return .eval (← expression g mode)
  if (place == .single && !next.isPunct .lbracket) || next.isPunct .semicolon then
    let id ← identifier mode
    endStatement
    return .eval (.ident id)
  complainIf (place == .single)
  passWord
  variableStatement g mode .letDecl

/-- `import` begins an expression. -/
def importEvaluates : Reader Bool := do
  let t ← nextToken
  return t.isPunct .lparen || t.isPunct .dot

/-- A class or an export after decorators. -/
def decoratedStatement (g : Grammar) (mode : Mode) (place : Place) : Reader Stmt := do
  let decorated ← decorators g mode
  if ← isAtWord "export" then return ← exportDeclaration g mode decorated
  complainIf (place == .single)
  let (name, heritage, members) ← modifiedClass g mode
  return .classDef name heritage members

/-- A statement that begins with the word `w`. -/
def wordStatement (g : Grammar) (mode : Mode) (place : Place) (w : String) : Reader Stmt := do
  match w with
  | "if" => ifStatement g mode
  | "for" => forStatement g mode
  | "while" | "with" => headedStatement g mode
  | "do" => doStatement g mode
  | "break" | "continue" => jump mode
  | "return" => returnStatement g mode
  | "throw" => throwStatement g mode
  | "switch" => switchStatement g mode
  | "try" => tryStatement g mode
  | "debugger" =>
    passWord
    endStatement
    return .inert
  | "class" =>
    complainIf (place == .single)
    classDeclaration g mode
  | "var" =>
    passWord
    variableStatement g mode .varDecl
  | "const" =>
    complainIf (place == .single)
    passWord
    variableStatement g mode .constDecl
  | "let" =>
    if (← token).isEscaped then expressionStatement g mode else letStatement g mode place
  | "import" =>
    if ← importEvaluates then expressionStatement g mode else importDeclaration mode g.bound
  | "export" => exportDeclaration g mode false
  | _ =>
    if ← startsFunction then
      let isAsync ← acceptWord "async"
      return ← functionDeclaration g mode isAsync place false
    if ← startsUsing false then return ← usingStatement g mode
    expressionStatement g mode

def statementRead (g : Grammar) (mode : Mode) (place : Place) : Reader Stmt := do
  match (← token).lexeme with
  | .punct .lbrace => return .block (← statementBlock g mode)
  | .punct .semicolon =>
    advance
    return .inert
  | .punct .at => decoratedStatement g mode place
  | .name w _ => wordStatement g mode place w
  | _ => expressionStatement g mode

end TemplateCompiler.Script
