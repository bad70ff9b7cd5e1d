import TemplateCompiler.Script.Grammar.Primary
import TemplateCompiler.Script.Grammar.Statement

/-! # Scripts from their text -/

namespace TemplateCompiler.Script

open Reader

/-- The grammar whose productions use those of `g`. -/
def Grammar.step (g : Grammar) : Grammar where
  bound := g.bound
  assignment := assignmentExpr g
  binary := binaryExpr g
  unary := unaryExpr g
  primary := primaryExpr g
  binding := bindingTarget g
  statement := statementRead g

/-- The grammar to a given depth of nesting. -/
def grammar (bound : Nat) : Nat → Grammar
  | 0 => Grammar.empty bound
  | depth + 1 => (grammar bound depth).step

/-- The grammar for a text of `n` characters. Each of them opens at most one operand, which lies
within an assignment, a chain of operators and a unary expression. -/
def grammarFor (n : Nat) : Grammar := grammar (n + 2) (16 * (n + 2))

/-- Reads `r` from the beginning of the text. -/
def readFrom {α : Type} (cs : List Char) (r : Grammar → Reader α) : Option α := do
  let (token, rest) := nextTokenOf 0 cs
  let (a, s) ← r (grammarFor cs.length) { token, rest, faulty := token.flawed }
  if s.faulty || s.openDefaults != 0 then none else some a

/-- The expression that the text begins with. Of what follows, only the first token is looked at. -/
def parseExpression? (source : String) : Option Expr :=
  readFrom source.toList fun g => expression g {}

/-- The statements of a module, which exports no name twice. -/
def parseProgram? (source : String) : Option (List Stmt) := do
  let body ← readFrom source.toList fun g => do
    if (← token).lexeme == .hashbang then advance
    itemsUntil (·.lexeme == .eof) (g.statement {} .list) g.bound
  if (body.flatMap Stmt.exportedNames).Nodup then some body else none

/-! ## Patterns -/

/-- The names that a pattern declares. -/
def patternNames? (pattern : String) : Option (List String) := do
  match ← parseProgram? ("let " ++ pattern ++ " = _;") with
  | .declare _ (b :: _) :: _ => some (b.idents.map Ident.name)
  | _ => none

end TemplateCompiler.Script
