import TemplateCompiler.Script.Grammar.Function
import TemplateCompiler.Script.Grammar.Operator

/-! # Assignments, arrow functions and conditions -/

namespace TemplateCompiler.Script

open Reader

/-! ## Arrow functions -/

/-- What stands after the arrow. An expression is a body that evaluates it. -/
def arrowBody (g : Grammar) (mode : Mode) (isAsync : Bool) : Reader (List Stmt) := do
  let mode := { mode with awaits := isAsync, yields := false }
  if ← isAt .lbrace then statementBlock g { mode with returns := true }
  else return [.eval (← g.assignment mode)]

/-- The arrow, which must stand on the line where the parameters end. -/
def passArrow : Reader Unit := do
  complainIf (← token).newline
  expect .arrow

/-- Whether parentheses hold the parameters of an arrow function, as far as their first tokens
show. -/
inductive Likelihood
  | certain
  | possible
  | ruledOut
  deriving DecidableEq

/-- Looks at the tokens from an opening parenthesis on. -/
def parametersLikelihood : Reader Likelihood := do
  expect .lparen
  let first ← token
  match first.lexeme with
  | .punct .rparen =>
    advance
    return if (← isAt .arrow) || (← isAt .lbrace) then .certain else .ruledOut
  | .punct .lbracket | .punct .lbrace => return .possible
  | .punct .ellipsis =>
    advance
    return if (← token).isPlainName then .certain else .possible
  | _ =>
    if first.isIdentifier then
      advance
      if (← isAt .comma) || (← isAt .assign) || (← isAt .rparen) then return .possible
    return .ruledOut

/-- `async` with a parenthesis after it on the same line, or a parenthesis. -/
def passAsync : Reader Bool := do
  if ← isAtWord "async" then
    passWord
    if (← token).newline then fail
    return true
  return false

/-- The parameters in parentheses, up to the arrow. -/
def arrowHead (g : Grammar) (mode : Mode) : Reader (Bool × List Binding) := do
  let isAsync ← passAsync
  let ps ← parameters g { mode.inside with awaits := mode.awaits || isAsync }
  passArrow
  return (isAsync, ps)

/-- The head of an arrow function that may be none after all: it is one only if text follows. -/
def arrowHead? (g : Grammar) (mode : Mode) : Reader (Option (Bool × List Binding)) :=
  attempt do
    let head ← arrowHead g mode
    if (← token).isEnd then fail
    return head

/-- An arrow function with parameters in parentheses. -/
def parenthesizedArrow? (g : Grammar) (mode : Mode) : Reader (Option Expr) := do
  let likelihood ← peek do
    let _ ← passAsync
    parametersLikelihood
  let head ← match likelihood with
    | some .certain => some <$> arrowHead g mode
    | some .possible => arrowHead? g mode
    | _ => pure none
  match head with
  | some (isAsync, ps) => return some (.arrow ps (← arrowBody g mode isAsync))
  | none => return none

/-- An arrow function follows with `async` and a bare name for its parameter. -/
def startsAsyncArrow : Reader Bool := do
  let found ← peek do
    expectWord "async"
    let t ← token
    if t.newline || !t.isIdentifier then fail
    advance
    isAt .arrow
  return found == some true

/-- An arrow function whose parameter is the bare name just read. -/
def bareArrow (g : Grammar) (mode : Mode) (id : Ident) (isAsync : Bool) : Reader Expr := do
  passArrow
  return .arrow [.name id] (← arrowBody g mode isAsync)

/-! ## Operators of the lowest strengths -/

/-- No argument of `yield` begins with this token. -/
def endsYield (t : Token) : Bool :=
  match t.lexeme with
  | .eof => true
  | .name w _ => w == "in"
  | .punct p => [Punct.semicolon, .rbrace, .rparen, .rbracket, .colon, .comma].contains p
  | _ => false

def yieldExpr (g : Grammar) (mode : Mode) : Reader Expr := do
  complainIf !mode.yields
  passWord
  if (← token).newline then return .form .yield []
  let delegates ← accept .star
  if endsYield (← token) && !delegates then return .form .yield []
  return .form .yield [← g.assignment { mode with yields := true }]

def assignmentOperator (t : Token) : Bool :=
  t.isPunct .assign || t.isPunct .compoundAssign || t.isPunct .slashAssign

/-- Assigns to `left`. An array or object literal in parentheses is no target. -/
def assignTo (g : Grammar) (mode : Mode) (left : Expr) (grouped : Bool) : Reader Expr := do
  if grouped && left.isPatternLiteral then fail
  match left.toTarget? with
  | none => fail
  | some (target, justified) =>
    modify fun s => { s with openDefaults := s.openDefaults - justified }
    advance
    return .assign target (← g.assignment mode)

/-- The branches of a conditional expression, if there are any. -/
def conditionalRest (g : Grammar) (mode : Mode) (test : Expr) : Reader Expr := do
  if ← accept .question then
    let consequent ← g.assignment mode.inside
    expect .colon
    let alternate ← g.assignment mode
    return .form .conditional [test, consequent, alternate]
  return test

def assignmentExpr (g : Grammar) (mode : Mode) : Reader Expr := do
  let start ← token
  if ← startsYield mode then return ← yieldExpr g mode
  if let some e ← parenthesizedArrow? g mode then return e
  let isAsync ← startsAsyncArrow
  if isAsync then passWord
  let left ← g.binary mode 0
  match left, ← isAt .arrow with
  | .ident id, true => bareArrow g mode id isAsync
  | _, _ =>
    if assignmentOperator (← token) then assignTo g mode left (start.isPunct .lparen)
    else conditionalRest g mode left

end TemplateCompiler.Script
