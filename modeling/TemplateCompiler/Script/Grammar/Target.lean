import TemplateCompiler.Script.Tree

/-! # Assignment targets

The left side of an assignment is first read as an expression. It is a target if it is an
identifier, a property of an object, or an array or object literal of targets.
-/

namespace TemplateCompiler.Script

/-- The operation reads a property of an object. -/
def Form.isMember : Form → Bool
  | .member _ | .privateMember _ | .index => true
  | _ => false

/-- A target without structure. -/
def Expr.toSimpleTarget? : Expr → Option Target
  | .ident id => some (.name id)
  | .form f parts => if f.isMember then some (.place (.form f parts)) else none
  | _ => none

mutual

/-- The expression as a target, and how many shorthand defaults it thereby justifies. -/
def Expr.toTarget? : Expr → Option (Target × Nat)
  | .form (.array trailingComma) parts => do
    let (ts, n) ← elementTargets? trailingComma parts
    some (.array ts, n)
  | .object properties => do
    let (ts, n) ← propertyTargets? properties
    some (.object ts, n)
  | e => e.toSimpleTarget?.map (·, 0)

/-- The elements of an array as targets. An assignment of any kind is a target with a default. Only
the last element may be a rest element, and no comma may follow it. -/
def elementTargets? (trailingComma : Bool) : List Expr → Option (List Target × Nat)
  | [] => some ([], 0)
  | [.form .spread [e]] => do
    let (t, n) ← e.toTarget?
    if trailingComma then none else some ([.rest t], n)
  | .literal .hole :: es => do
    let (ts, m) ← elementTargets? trailingComma es
    some (.hole :: ts, m)
  | .assign t value :: es => do
    let (ts, m) ← elementTargets? trailingComma es
    some (.withDefault t value :: ts, m)
  | e :: es => do
    let (t, n) ← e.toTarget?
    let (ts, m) ← elementTargets? trailingComma es
    some (t :: ts, n + m)

/-- The properties of an object as targets. A rest element of an object is a target without
structure. -/
def propertyTargets? : List Property → Option (List Target × Nat)
  | [] => some ([], 0)
  | [.spread e] => e.toSimpleTarget?.map fun t => ([.rest t], 0)
  | .spread _ :: _ => none
  | .shorthand id fallback :: ps => do
    let (ts, m) ← propertyTargets? ps
    some (.shorthand id fallback :: ts, (if fallback.isSome then 1 else 0) + m)
  | .pair key (.assign t value) :: ps => do
    let (ts, m) ← propertyTargets? ps
    some (.property key (.withDefault t value) :: ts, m)
  | .pair key value :: ps => do
    let (t, n) ← value.toTarget?
    let (ts, m) ← propertyTargets? ps
    some (.property key t :: ts, n + m)

end

/-- An array or object literal. -/
def Expr.isPatternLiteral : Expr → Bool
  | .form (.array _) _ | .object _ => true
  | _ => false

end TemplateCompiler.Script
