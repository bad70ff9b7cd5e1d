import TemplateCompiler.Script.Parse
import TemplateCompiler.Text.Blank
import TemplateCompiler.Text.Quoted

/-! # Shapes of expressions

What an expression is, judged by its text, and expressions composed from the texts of others.
-/

namespace TemplateCompiler.Script

open Text (trim quote isSimpleIdentifier)

namespace Expr

def isIdent : Expr → Bool
  | .ident _ => true
  | _ => false

/-- A property of an object, not reached through an optional chain. -/
def isMember : Expr → Bool
  | .form f _ => f.isMember
  | _ => false

def isSequence : Expr → Bool
  | .form .sequence _ => true
  | _ => false

/-- The value of a string, or of a template without substitutions. -/
def stringValue? : Expr → Option String
  | .literal (.string value) => some value
  | .form (.template values) [] => values.head?.join
  | _ => none

/-- The expression means the same with or without parentheses around it. -/
def isOperand : Expr → Bool
  | .ident _ | .object _ => true
  | .literal value =>
    match value with
    | .null | .bool _ | .number _ | .bigint _ | .string _ | .thisValue => true
    | _ => false
  | .form f _ =>
    match f with
    | .template _ | .tagged | .array _ | .call | .construct => true
    | f => f.isMember
  | _ => false

end Expr

/-- The text parses, and the expression it begins with satisfies `p`. -/
def parsesAs (p : Expr → Bool) (source : String) : Bool := (parseExpression? source).any p

def isIdentifier (source : String) : Bool := parsesAs Expr.isIdent source

/-- The text can stand on the left of an assignment, as a name or as a property of an object. -/
def isAssignable (source : String) : Bool := parsesAs (fun e => e.isIdent || e.isMember) source

def literalString? (source : String) : Option String :=
  (parseExpression? source).bind Expr.stringValue?

/-! ## Composing -/

def parenthesize (source : String) : String := "(" ++ source ++ ")"

/-- The text as an operand of `+`. -/
def operand (source : String) : String :=
  if parsesAs Expr.isOperand source then trim source else parenthesize (trim source)

/-- The sum of expressions. -/
def concat (parts : List String) : String := " + ".intercalate (parts.map operand)

/-- One entry of an object literal. -/
def objectEntry (key value : String) : String :=
  let value := trim value
  let value := if parsesAs Expr.isSequence value then parenthesize value else value
  (if isSimpleIdentifier key then key else quote key) ++ ": " ++ value

/-- An object literal from keys and the texts of their values. -/
def object : List (String × String) → String
  | [] => "\x7b\x7d"
  | entries =>
    "\x7b " ++ ", ".intercalate (entries.map fun (key, value) => objectEntry key value) ++ " \x7d"

end TemplateCompiler.Script
