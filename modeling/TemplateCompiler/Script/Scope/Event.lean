import TemplateCompiler.Script.Tree

/-! # Scoping events

What a script means for names is a list of events in reading order: scopes are entered and left,
names are declared and mentioned.
-/

namespace TemplateCompiler.Script

inductive Event
  | enter (isBlock : Bool)
  | leave
  | declare (kind : DeclarationKind) (id : Ident)
  /-- An identifier in use; `shorthand` when it stands for both a key and its value. -/
  | mention (id : Ident) (shorthand : Bool)
  deriving DecidableEq, Repr

namespace Event

/-- The events inside a scope of their own. -/
def enclosed (isBlock : Bool) (events : List Event) : List Event :=
  enter isBlock :: (events ++ [leave])

/-- Declarations of all names of a pattern. -/
def declareAll (kind : DeclarationKind) (b : Binding) : List Event :=
  b.idents.map (declare kind)

end Event

open Event

mutual

def Expr.events : Expr → List Event
  | .ident id => [mention id false]
  | .literal _ => []
  | .form _ parts => exprEvents parts
  | .object properties => propertyEvents properties
  | .assign target value => target.events ++ value.events
  | .update target => target.events
  | .function name ps body =>
    enclosed false
      ((name.toList.map (declare .functionDecl)) ++ (parameterEvents ps ++ stmtEvents body))
  | .arrow ps body => enclosed false (parameterEvents ps ++ stmtEvents body)
  | .classDef _ heritage members => optionalEvents heritage ++ memberEvents members

def exprEvents : List Expr → List Event
  | [] => []
  | e :: es => e.events ++ exprEvents es

def optionalEvents : Option Expr → List Event
  | none => []
  | some e => e.events

def Key.events : Key → List Event
  | .fixed _ => []
  | .computed e => e.events

def Property.events : Property → List Event
  | .shorthand id _ => [mention id true]
  | .pair key value => key.events ++ value.events
  | .spread value => value.events

def propertyEvents : List Property → List Event
  | [] => []
  | p :: ps => p.events ++ propertyEvents ps

def Target.events : Target → List Event
  | .name id => [mention id false]
  | .place value => value.events
  | .array elements => targetEvents elements
  | .object properties => targetEvents properties
  | .withDefault target value => target.events ++ value.events
  | .hole => []
  | .rest target => target.events
  | .property key target => key.events ++ target.events
  | .shorthand id fallback => mention id true :: optionalEvents fallback

def targetEvents : List Target → List Event
  | [] => []
  | t :: ts => t.events ++ targetEvents ts

/-- Defaults and computed keys of a pattern, and its names where `record` says so. -/
def Binding.events (record : Bool) : Binding → List Event
  | .name id => if record then [mention id false] else []
  | .array elements => bindingEvents record elements
  | .object properties => bindingEvents record properties
  | .withDefault b value => b.events record ++ value.events
  | .hole => []
  | .rest b => b.events record
  | .property key b => key.events ++ b.events record

def bindingEvents (record : Bool) : List Binding → List Event
  | [] => []
  | b :: bs => b.events record ++ bindingEvents record bs

/-- Parameters are declared one after the other, each before its defaults. -/
def parameterEvents : List Binding → List Event
  | [] => []
  | b :: bs => declareAll .parameter b ++ (b.events false ++ parameterEvents bs)

/-- Declarators count as mentions of what they declare. -/
def declaratorEvents (kind : DeclarationKind) : List Binding → List Event
  | [] => []
  | b :: bs => declareAll kind b ++ (b.events true ++ declaratorEvents kind bs)

def Member.events : Member → List Event
  | .method key ps body => key.events ++ enclosed false (parameterEvents ps ++ stmtEvents body)
  | .field key value => key.events ++ optionalEvents value
  | .staticBlock body => enclosed true (stmtEvents body)

def memberEvents : List Member → List Event
  | [] => []
  | m :: ms => m.events ++ memberEvents ms

def Stmt.events : Stmt → List Event
  | .inert => []
  | .eval value => value.events
  | .declare kind bs => declaratorEvents kind bs
  | .function name ps body =>
    name.toList.map (declare .functionDecl) ++
      enclosed false (parameterEvents ps ++ stmtEvents body)
  | .classDef name heritage members =>
    name.toList.map (declare .classDecl) ++ (optionalEvents heritage ++ memberEvents members)
  | .importNames locals => locals.map (declare .imported)
  | .exported _ body => stmtEvents body
  | .block body => enclosed true (stmtEvents body)
  | .labeled body => body.events
  | .headed head bodies => head.events ++ stmtEvents bodies
  | .doWhile body test => body.events ++ test.events
  | .forLoop start control body =>
    enclosed true (stmtEvents start ++ (exprEvents control ++ body.events))
  | .forDeclared kind bs subject body =>
    enclosed true (declaratorEvents kind bs ++ (subject.events ++ body.events))
  | .forTarget target subject body =>
    enclosed true (target.events ++ (subject.events ++ body.events))
  | .switch subject cases => subject.events ++ enclosed true (stmtEvents cases)
  | .tryCatch body clauses => enclosed true (stmtEvents body) ++ stmtEvents clauses
  | .catchClause parameter body =>
    enclosed true (caughtEvents parameter ++ stmtEvents body)

/-- The parameter of a `catch` clause. -/
def caughtEvents : List Binding → List Event
  | [] => []
  | b :: bs => declareAll .caught b ++ (b.events false ++ caughtEvents bs)

def stmtEvents : List Stmt → List Event
  | [] => []
  | s :: ss => s.events ++ stmtEvents ss

end

end TemplateCompiler.Script
