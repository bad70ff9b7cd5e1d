import TemplateCompiler.Script.Scope.Tree

/-! # Free names

Which uses of names no declaration around them accounts for, by recursion on syntax. A function has
one scope for its own name, its parameters and its body. Blocks, the heads of loops, `switch`,
`catch` clauses and the static blocks of classes have scopes that hoisted declarations pass through.
A declaration holds in all of its scope, also before it.
-/

namespace TemplateCompiler.Script

/-- An identifier in use. -/
structure Occurrence where
  ident : Ident
  /-- It stands for both a key and its value. -/
  shorthand : Bool
  deriving DecidableEq, Repr

def Reference.occurrence (r : Reference) : Occurrence := ⟨r.ident, r.shorthand⟩

/-- The occurrences of other names. -/
def without (names : List String) (occurrences : List Occurrence) : List Occurrence :=
  occurrences.filter fun x => !names.contains x.ident.name

/-! ## Declared names -/

def Ident.names (ids : List Ident) : List String := ids.map Ident.name

/-- The names that patterns declare in the nearest function. -/
def hoistedBy (kind : DeclarationKind) (bs : List Binding) : List String :=
  if kind.isHoisted then Ident.names (bindingIdents bs) else []

/-- The names that patterns declare in the scope they stand in. -/
def keptBy (kind : DeclarationKind) (bs : List Binding) : List String :=
  if kind.isHoisted then [] else Ident.names (bindingIdents bs)

mutual

/-- The names that a statement declares in the scope it stands in. -/
def Stmt.declared : Stmt → List String
  | .declare kind bs => keptBy kind bs
  | .function name _ _ | .classDef name _ _ => Ident.names name.toList
  | .importNames locals => Ident.names locals
  | .exported _ body => stmtDeclared body
  | .labeled body => body.declared
  | .headed _ bodies => stmtDeclared bodies
  | .doWhile body _ => body.declared
  | .tryCatch _ clauses => stmtDeclared clauses
  | _ => []

def stmtDeclared : List Stmt → List String
  | [] => []
  | s :: ss => s.declared ++ stmtDeclared ss

end

mutual

/-- The names that are declared in the function around the expression. They come from the static
blocks of classes. -/
def Expr.hoisted : Expr → List String
  | .ident _ | .literal _ | .function _ _ _ | .arrow _ _ => []
  | .form _ parts => exprHoisted parts
  | .object properties => propertyHoisted properties
  | .assign target value => target.hoisted ++ value.hoisted
  | .update target => target.hoisted
  | .classDef _ heritage members => optionalHoisted heritage ++ memberHoisted members

def exprHoisted : List Expr → List String
  | [] => []
  | e :: es => e.hoisted ++ exprHoisted es

def optionalHoisted : Option Expr → List String
  | none => []
  | some e => e.hoisted

def Key.hoisted : Key → List String
  | .fixed _ => []
  | .computed e => e.hoisted

def Property.hoisted : Property → List String
  | .shorthand _ _ => []
  | .pair key value => key.hoisted ++ value.hoisted
  | .spread value => value.hoisted

def propertyHoisted : List Property → List String
  | [] => []
  | p :: ps => p.hoisted ++ propertyHoisted ps

def Target.hoisted : Target → List String
  | .name _ | .hole => []
  | .place value => value.hoisted
  | .array elements => targetHoisted elements
  | .object properties => targetHoisted properties
  | .withDefault target value => target.hoisted ++ value.hoisted
  | .rest target => target.hoisted
  | .property key target => key.hoisted ++ target.hoisted
  | .shorthand _ fallback => optionalHoisted fallback

def targetHoisted : List Target → List String
  | [] => []
  | t :: ts => t.hoisted ++ targetHoisted ts

/-- Those of the expressions in a pattern. -/
def Binding.hoisted : Binding → List String
  | .name _ | .hole => []
  | .array elements => bindingHoisted elements
  | .object properties => bindingHoisted properties
  | .withDefault b value => b.hoisted ++ value.hoisted
  | .rest b => b.hoisted
  | .property key b => key.hoisted ++ b.hoisted

def bindingHoisted : List Binding → List String
  | [] => []
  | b :: bs => b.hoisted ++ bindingHoisted bs

def Member.hoisted : Member → List String
  | .method key _ _ => key.hoisted
  | .field key value => key.hoisted ++ optionalHoisted value
  | .staticBlock body => stmtHoisted body

def memberHoisted : List Member → List String
  | [] => []
  | m :: ms => m.hoisted ++ memberHoisted ms

/-- The names that are declared in the function around the statement. -/
def Stmt.hoisted : Stmt → List String
  | .inert | .function _ _ _ | .importNames _ => []
  | .eval value => value.hoisted
  | .declare kind bs => hoistedBy kind bs ++ bindingHoisted bs
  | .classDef _ heritage members => optionalHoisted heritage ++ memberHoisted members
  | .exported _ body => stmtHoisted body
  | .block body => stmtHoisted body
  | .labeled body => body.hoisted
  | .headed head bodies => head.hoisted ++ stmtHoisted bodies
  | .doWhile body test => body.hoisted ++ test.hoisted
  | .forLoop start control body => stmtHoisted start ++ (exprHoisted control ++ body.hoisted)
  | .forDeclared kind bs subject body =>
    hoistedBy kind bs ++ bindingHoisted bs ++ (subject.hoisted ++ body.hoisted)
  | .forTarget target subject body => target.hoisted ++ (subject.hoisted ++ body.hoisted)
  | .switch subject cases => subject.hoisted ++ stmtHoisted cases
  | .tryCatch body clauses => stmtHoisted body ++ stmtHoisted clauses
  | .catchClause parameter body => bindingHoisted parameter ++ stmtHoisted body

def stmtHoisted : List Stmt → List String
  | [] => []
  | s :: ss => s.hoisted ++ stmtHoisted ss

end

/-- The names in the scope of a function: its own name if it has one there, and those that its
parameters and its body declare. -/
def functionNames (own : Option Ident) (ps : List Binding) (body : List Stmt) : List String :=
  Ident.names own.toList ++ (Ident.names (bindingIdents ps) ++ stmtDeclared body) ++
    (bindingHoisted ps ++ stmtHoisted body)

/-! ## Free occurrences -/

mutual

/-- The occurrences in reading order of names that the expression does not declare. -/
def Expr.free : Expr → List Occurrence
  | .ident id => [⟨id, false⟩]
  | .literal _ => []
  | .form _ parts => exprFree parts
  | .object properties => propertyFree properties
  | .assign target value => target.free ++ value.free
  | .update target => target.free
  | .function name ps body =>
    without (functionNames name ps body) (bindingFree false ps ++ stmtFree body)
  | .arrow ps body => without (functionNames none ps body) (bindingFree false ps ++ stmtFree body)
  | .classDef _ heritage members => optionalFree heritage ++ memberFree members

def exprFree : List Expr → List Occurrence
  | [] => []
  | e :: es => e.free ++ exprFree es

def optionalFree : Option Expr → List Occurrence
  | none => []
  | some e => e.free

def Key.free : Key → List Occurrence
  | .fixed _ => []
  | .computed e => e.free

def Property.free : Property → List Occurrence
  | .shorthand id _ => [⟨id, true⟩]
  | .pair key value => key.free ++ value.free
  | .spread value => value.free

def propertyFree : List Property → List Occurrence
  | [] => []
  | p :: ps => p.free ++ propertyFree ps

def Target.free : Target → List Occurrence
  | .name id => [⟨id, false⟩]
  | .place value => value.free
  | .array elements => targetFree elements
  | .object properties => targetFree properties
  | .withDefault target value => target.free ++ value.free
  | .hole => []
  | .rest target => target.free
  | .property key target => key.free ++ target.free
  | .shorthand id fallback => ⟨id, true⟩ :: optionalFree fallback

def targetFree : List Target → List Occurrence
  | [] => []
  | t :: ts => t.free ++ targetFree ts

/-- Names in a pattern are uses if a declarator has it, since that assigns to them. -/
def Binding.free (assigns : Bool) : Binding → List Occurrence
  | .name id => if assigns then [⟨id, false⟩] else []
  | .array elements => bindingFree assigns elements
  | .object properties => bindingFree assigns properties
  | .withDefault b value => b.free assigns ++ value.free
  | .hole => []
  | .rest b => b.free assigns
  | .property key b => key.free ++ b.free assigns

def bindingFree (assigns : Bool) : List Binding → List Occurrence
  | [] => []
  | b :: bs => b.free assigns ++ bindingFree assigns bs

def Member.free : Member → List Occurrence
  | .method key ps body =>
    key.free ++ without (functionNames none ps body) (bindingFree false ps ++ stmtFree body)
  | .field key value => key.free ++ optionalFree value
  | .staticBlock body => without (stmtDeclared body) (stmtFree body)

def memberFree : List Member → List Occurrence
  | [] => []
  | m :: ms => m.free ++ memberFree ms

/-- The occurrences that are free unless the scope of the statement declares them. -/
def Stmt.free : Stmt → List Occurrence
  | .inert | .importNames _ => []
  | .eval value => value.free
  | .declare _ bs => bindingFree true bs
  | .function _ ps body => without (functionNames none ps body) (bindingFree false ps ++ stmtFree body)
  | .classDef _ heritage members => optionalFree heritage ++ memberFree members
  | .exported _ body => stmtFree body
  | .block body => without (stmtDeclared body) (stmtFree body)
  | .labeled body => body.free
  | .headed head bodies => head.free ++ stmtFree bodies
  | .doWhile body test => body.free ++ test.free
  | .forLoop start control body =>
    without (stmtDeclared start ++ body.declared) (stmtFree start ++ (exprFree control ++ body.free))
  | .forDeclared kind bs subject body =>
    without (keptBy kind bs ++ body.declared) (bindingFree true bs ++ (subject.free ++ body.free))
  | .forTarget target subject body =>
    without body.declared (target.free ++ (subject.free ++ body.free))
  | .switch subject cases => subject.free ++ without (stmtDeclared cases) (stmtFree cases)
  | .tryCatch body clauses => without (stmtDeclared body) (stmtFree body) ++ stmtFree clauses
  | .catchClause parameter body =>
    without (Ident.names (bindingIdents parameter) ++ stmtDeclared body)
      (bindingFree false parameter ++ stmtFree body)

def stmtFree : List Stmt → List Occurrence
  | [] => []
  | s :: ss => s.free ++ stmtFree ss

end

/-- The free occurrences of an expression that stands alone, which is a function as far as hoisted
names are concerned. -/
def Expr.freeOccurrences (e : Expr) : List Occurrence := without e.hoisted e.free

end TemplateCompiler.Script
