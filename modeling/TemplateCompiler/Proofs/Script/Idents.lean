import TemplateCompiler.Script.Tree

/-! # Identifiers of a tree

All identifiers that are written in a tree, in use or declared, in reading order. Labels and the
local names of imports do not count, but the default of a shorthand does, since the shorthand may
turn out to be a target.
-/

namespace TemplateCompiler.Script

mutual

@[simp] def Expr.written : Expr → List Ident
  | .ident id => [id]
  | .literal _ => []
  | .form _ parts => exprsWritten parts
  | .object properties => propertiesWritten properties
  | .assign target value => target.written ++ value.written
  | .update target => target.written
  | .function name ps body => name.toList ++ (bindingsWritten ps ++ stmtsWritten body)
  | .arrow ps body => bindingsWritten ps ++ stmtsWritten body
  | .classDef name heritage members =>
    name.toList ++ (optionalWritten heritage ++ membersWritten members)

def exprsWritten : List Expr → List Ident
  | [] => []
  | e :: es => e.written ++ exprsWritten es

@[simp] def optionalWritten : Option Expr → List Ident
  | none => []
  | some e => e.written

@[simp] def Key.written : Key → List Ident
  | .fixed _ => []
  | .computed e => e.written

@[simp] def Property.written : Property → List Ident
  | .shorthand id fallback => id :: optionalWritten fallback
  | .pair key value => key.written ++ value.written
  | .spread value => value.written

def propertiesWritten : List Property → List Ident
  | [] => []
  | x :: xs => x.written ++ propertiesWritten xs

@[simp] def Target.written : Target → List Ident
  | .name id => [id]
  | .place value => value.written
  | .array elements => targetsWritten elements
  | .object properties => targetsWritten properties
  | .withDefault target value => target.written ++ value.written
  | .hole => []
  | .rest target => target.written
  | .property key target => key.written ++ target.written
  | .shorthand id fallback => id :: optionalWritten fallback

@[simp] def targetsWritten : List Target → List Ident
  | [] => []
  | t :: ts => t.written ++ targetsWritten ts

@[simp] def Binding.written : Binding → List Ident
  | .name id => [id]
  | .array elements => bindingsWritten elements
  | .object properties => bindingsWritten properties
  | .withDefault b value => b.written ++ value.written
  | .hole => []
  | .rest b => b.written
  | .property key b => key.written ++ b.written

def bindingsWritten : List Binding → List Ident
  | [] => []
  | b :: bs => b.written ++ bindingsWritten bs

@[simp] def Member.written : Member → List Ident
  | .method key ps body => key.written ++ (bindingsWritten ps ++ stmtsWritten body)
  | .field key value => key.written ++ optionalWritten value
  | .staticBlock body => stmtsWritten body

def membersWritten : List Member → List Ident
  | [] => []
  | m :: ms => m.written ++ membersWritten ms

@[simp] def Stmt.written : Stmt → List Ident
  | .inert | .importNames _ => []
  | .eval value => value.written
  | .declare _ bs => bindingsWritten bs
  | .function name ps body => name.toList ++ (bindingsWritten ps ++ stmtsWritten body)
  | .classDef name heritage members =>
    name.toList ++ (optionalWritten heritage ++ membersWritten members)
  | .exported _ body | .block body => stmtsWritten body
  | .labeled body => body.written
  | .headed head bodies => head.written ++ stmtsWritten bodies
  | .doWhile body test => body.written ++ test.written
  | .forLoop start control body => stmtsWritten start ++ (exprsWritten control ++ body.written)
  | .forDeclared _ bs subject body => bindingsWritten bs ++ (subject.written ++ body.written)
  | .forTarget target subject body => target.written ++ (subject.written ++ body.written)
  | .switch subject cases => subject.written ++ stmtsWritten cases
  | .tryCatch body clauses => stmtsWritten body ++ stmtsWritten clauses
  | .catchClause parameter body => bindingsWritten parameter ++ stmtsWritten body

def stmtsWritten : List Stmt → List Ident
  | [] => []
  | s :: ss => s.written ++ stmtsWritten ss

end

end TemplateCompiler.Script
