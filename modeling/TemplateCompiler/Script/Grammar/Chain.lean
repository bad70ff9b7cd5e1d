import TemplateCompiler.Script.Grammar.Basic

/-! # Chains of properties, calls and templates -/

namespace TemplateCompiler.Script

open Reader

/-- An expression that may be spread. -/
def spreadable (g : Grammar) (mode : Mode) : Reader Expr := do
  if ← accept .ellipsis then return .form .spread [← g.assignment mode.inside]
  g.assignment mode.inside

def arguments (g : Grammar) (mode : Mode) : Reader (List Expr) := do
  expect .lparen
  let (es, _) ← commaList .rparen (spreadable g mode) g.bound
  expect .rparen
  return es

/-! ## Template literals -/

/-- Reads on after a closing brace as the text of a template. -/
def resumeTemplate : Reader Unit := fun s =>
  if s.token.isPunct .rbrace then do
    let (lexeme, rest) ← template? s.rest
    some ((), { s with
      token := { s.token with lexeme, stop := s.token.stop + bytesRead s.rest rest }, rest })
  else none

/-- The values of the texts of a template, and its substitutions. -/
def templateParts (g : Grammar) (mode : Mode) : Nat → Reader (List (Option String) × List Expr)
  | 0 => fail
  | n + 1 => do
    match (← token).lexeme with
    | .template value true =>
      advance
      return ([value], [])
    | .template value false =>
      advance
      let e ← expression g mode.inside
      resumeTemplate
      let (values, es) ← templateParts g mode n
      return (value :: values, e :: es)
    | _ => fail

/-! ## Chains -/

/-- The property `name` of `e`, read after the point. -/
def memberAccess (e : Expr) : Reader Expr := do
  match (← token).lexeme with
  | .name text _ =>
    advance
    return .form (.member text) [e]
  | .privateName text =>
    advance
    return .form (.privateMember text) [e]
  | _ => fail

/-- The property of `e` given in brackets. -/
def indexAccess (g : Grammar) (mode : Mode) (e : Expr) : Reader Expr := do
  expect .lbracket
  let i ← expression g mode.inside
  expect .rbracket
  return .form .index [e, i]

/-- Reads on after `e`, and says whether a step of the chain is optional. Calls belong to the chain
only where `calls` says so. -/
def chainRest (g : Grammar) (mode : Mode) (calls : Bool) :
    Nat → Expr → Bool → Reader (Expr × Bool)
  | 0, _, _ => fail
  | n + 1, e, isOptional => do
    match (← token).lexeme with
    | .punct .dot =>
      advance
      chainRest g mode calls n (← memberAccess e) isOptional
    | .punct .questionDot =>
      let next ← nextToken
      if next.isPunct .lparen then
        if calls then
          advance
          chainRest g mode calls n (.form .call (e :: (← arguments g mode))) true
        else return (e, true)
      else
        advance
        let e ← if next.isPunct .lbracket then indexAccess g mode e else memberAccess e
        chainRest g mode calls n e true
    | .punct .lbracket =>
      if mode.decorating then return (e, isOptional)
      chainRest g mode calls n (← indexAccess g mode e) isOptional
    | .punct .lparen =>
      if calls then chainRest g mode calls n (.form .call (e :: (← arguments g mode))) isOptional
      else return (e, isOptional)
    | .template _ _ =>
      complainIf isOptional
      let (_, parts) ← templateParts g mode g.bound
      chainRest g mode calls n (.form .tagged (e :: parts)) isOptional
    | _ => return (e, isOptional)

/-- An operand with the chain after it. No step may be optional in a decorator. -/
def leftHandSide (g : Grammar) (mode : Mode) : Reader Expr := do
  let e ← g.primary mode
  let (e, isOptional) ← chainRest g mode true g.bound e false
  complainIf (isOptional && mode.decorating)
  return if isOptional then .form .chain [e] else e

/-- Decorators, which are checked and dropped; whether there are any. -/
def decorators (g : Grammar) (mode : Mode) : Reader Bool := do
  let item : Reader Unit := do
    expect .at
    let _ ← leftHandSide g { mode with decorating := true }
  let found ← itemsUntil (!·.isPunct .at) item g.bound
  return !found.isEmpty

end TemplateCompiler.Script
