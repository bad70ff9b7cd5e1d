import TemplateCompiler.Script.Grammar.Basic

/-! # Functions -/

namespace TemplateCompiler.Script

open Reader

/-- Parameters of a function in parentheses. -/
def parameters (g : Grammar) (mode : Mode) : Reader (List Binding) := do
  expect .lparen
  let item : Reader Binding := do
    if ← accept .ellipsis then return ← restElement g mode
    bindingElement g mode
  let (bs, trailing) ← commaList .rparen item g.bound
  checkRest bs trailing
  expect .rparen
  return bs

/-- Parameters and body of a function that is not an arrow. -/
def functionRest (g : Grammar) (isAsync isGenerator : Bool) :
    Reader (List Binding × List Stmt) := do
  let mode := Mode.function isAsync isGenerator
  let ps ← parameters g mode
  let body ← statementBlock g mode
  return (ps, body)

/-- `function`, perhaps after `async`, comes next. -/
def startsFunction : Reader Bool := do
  if ← isAtWord "function" then return true
  if ← isAtWord "async" then
    let t ← nextToken
    return t.isWord "function" && !t.newline
  return false

/-- A getter takes no parameters. -/
def checkGetter (ps : List Binding) : Reader Unit := complainIf !ps.isEmpty

/-- A setter takes one parameter. -/
def checkSetter (ps : List Binding) : Reader Unit :=
  complainIf (ps.length != 1 || ps.any (·.isRest))

end TemplateCompiler.Script
