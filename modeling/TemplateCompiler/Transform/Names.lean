import TemplateCompiler.Options
import TemplateCompiler.Text.Case
import TemplateCompiler.Text.Splice
import TemplateCompiler.Transform.Context

/-! # Names in expressions

The free names of an expression are qualified by the place that provides them, so that the compiled
template can reach them.
-/

namespace TemplateCompiler

open Script (Reference ScopeTree)

/-- How the compiled template refers to a name of the script. -/
def Options.qualify (o : Options) (name : String) : String :=
  if o.inline then
    match o.binding? name with
    | some .setupConst => name
    | some .setupRef => name ++ ".value"
    | some .setupMaybeRef | some .setupLet => "_unref(" ++ name ++ ")"
    | some .props => "__props." ++ name
    | _ => "_ctx." ++ name
  else
    match o.binding? name with
    | some .data => "$data." ++ name
    | some .props => "$props." ++ name
    | some .options => "$options." ++ name
    | some _ => "$setup." ++ name
    | none => "_ctx." ++ name

/-- Places a reference before the first one that does not start earlier. -/
def insertByStart (r : Reference) : List Reference → List Reference
  | [] => [r]
  | a :: rest =>
    if a.ident.start < r.ident.start then a :: insertByStart r rest else r :: a :: rest

/-- The references by where they start; equal starts keep their order. -/
def sortByStart (rs : List Reference) : List Reference :=
  rs.foldr insertByStart []

/-- The references that have to be qualified, in reading order. -/
def qualifiedReferences (s : Session) (tree : ScopeTree) : List Reference :=
  sortByStart (tree.free.filter fun r =>
    !s.isIdentifier r.ident.name && !Script.isAllowedGlobal r.ident.name)

/-- The qualified name in place of the reference. A shorthand keeps its key. -/
def qualifyingEdit (o : Options) (r : Reference) : Text.Edit where
  start := r.ident.start
  stop := r.ident.stop
  text :=
    ((if r.shorthand then r.ident.name ++ ": " else "") ++ o.qualify r.ident.name).toList

/-- The source with its free names qualified, unless there are none. -/
def qualifySource? (o : Options) (s : Session) (source : String) (tree : ScopeTree) :
    Option String :=
  match qualifiedReferences s tree with
  | [] => none
  | rs => some (String.ofList (Text.splice 0 (rs.map (qualifyingEdit o)) source.toList))

/-- The expression as the compiled template evaluates it. -/
def Expression.qualified (o : Options) (s : Session) (e : Expression) :
    Except Diagnostic Expression :=
  if !o.qualifyNames || e.isStatic then .ok e
  else
    match Script.parseExpression? e.content with
    | none => .error ((Diagnostic.invalidExpression e.content).locate e.location)
    | some script =>
      match qualifySource? o s e.content (ScopeTree.ofExpr script) with
      | none => .ok e
      | some content => .ok { e with content, location := e.location.withSource content }

def Transform.qualify (o : Options) (e : Expression) : Transform Expression := do
  ofExcept (e.qualified o (← getSession))

/-! ## Components and actions of the script -/

/-- The spellings under which the script may provide a component or an action. -/
def spellings (name : String) : List String :=
  let camel := Text.camelize name
  [name, camel, Text.capitalize camel]

/-- How the compiled template refers to a component or an action that the script provides. -/
def Options.setupReference? (o : Options) (name : String) : Option String :=
  let provided (kind : BindingKind) : Option String :=
    (spellings name).find? fun n => o.binding? n == some kind
  let member (n : String) : String := "$setup[" ++ Text.quote n ++ "]"
  match provided .setupConst with
  | some n => some (if o.inline then n else member n)
  | none =>
    ((provided .setupLet <|> provided .setupRef) <|> provided .setupMaybeRef).map fun n =>
      if o.inline then "_unref(" ++ n ++ ")" else member n

end TemplateCompiler
