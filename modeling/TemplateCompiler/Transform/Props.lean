import TemplateCompiler.Transform.Directives

/-! # Properties of an element, put together -/

namespace TemplateCompiler

open Template (Element)
open Transform

inductive PropResult
  /-- All names are known. -/
  | fixed (props : List MergedProp)
  /-- Groups of properties, and the expressions they depend on. -/
  | dynamic (groups : List PropGroup) (expressions : List Expression)

def PropResult.groups : PropResult → List PropGroup
  | fixed [] => []
  | fixed props => [.entries props]
  | dynamic groups _ => groups

/-- Properties seen so far: complete groups, and entries that do not belong to one yet. -/
structure PropCollector where
  pending : List PropEntry := []
  groups : List PropGroup := []
  expressions : List Expression := []

namespace PropCollector

/-- Makes a group of the pending entries. -/
def flush (c : PropCollector) : PropCollector :=
  if c.pending.isEmpty then c
  else { c with pending := [], groups := c.groups ++ [.entries (mergeEntries c.pending)] }

def addAttribute (c : PropCollector) (a : StaticAttribute) : PropCollector :=
  if isReservedProp a.name then c
  else
    let key := Expression.static a.name (a.location.withSource a.name)
    let value := Expression.static a.value (a.location.withSource a.value)
    { c with pending := c.pending ++ [{ key, value }] }

/-- Adds an object whose properties are spread. -/
def addSpread (c : PropCollector) (value : Expression) : PropCollector :=
  let c := c.flush
  { c with
    groups := c.groups ++ [.spread value false], expressions := c.expressions ++ [value] }

/-- Adds an entry that a directive contributes. In a component a name that is not known makes a
group of its own. -/
def addEntry (c : PropCollector) (isComponent : Bool) (e : PropEntry) : PropCollector :=
  let c := { c with expressions := c.expressions ++ [e.key, e.value] }
  if isComponent && !e.key.isStatic then
    let c := c.flush
    { c with groups := c.groups ++ [.entries [MergedProp.ofEntry e]] }
  else { c with pending := c.pending ++ [e] }

def result (c : PropCollector) : PropResult :=
  if !c.groups.isEmpty || c.pending.any (!·.key.isStatic) then
    let c := c.flush
    .dynamic c.groups c.expressions
  else .fixed (mergeEntries c.pending)

end PropCollector

/-- Registers an action on the element. -/
def registerAction (o : Options) (d : Directive) : Transform Unit := do
  let provided := o.setupReference? d.name
  let name := provided.getD d.name
  if provided.isNone then modifySession (·.addDirective name)
  let exp ← d.exp.mapM (qualify o)
  let element ← reference
  registerOperation (.withDirective element name { d with exp } false provided.isNone none)

/-- Carries out a directive: a builtin one that is understood, or an action. -/
def applyDirective (o : Options) (d : Directive) (e : Element) :
    Transform (Option PropEntry) := do
  match o.directive? d.name with
  | some builtin => builtin.apply o d e
  | none =>
    if !isBuiltinDirective d.name then registerAction o d
    return none

def collectDirective (o : Options) (e : Element) (isComponent : Bool) (c : PropCollector)
    (d : Directive) : Transform PropCollector := do
  if d.name == "bind" && d.arg.isNone then
    match d.exp with
    | some exp => return c.addSpread (← qualify o exp)
    | none => throw { fault := .bindWithoutExpression, location := d.location }
  match ← applyDirective o d e with
  | none => return c
  | some entry =>
    let key ← if entry.key.isStatic then pure entry.key else qualify o entry.key
    let value ← qualify o entry.value
    return c.addEntry isComponent { entry with key, value }

def collectProperty (o : Options) (e : Element) (isComponent : Bool) (c : PropCollector) :
    Property → Transform PropCollector
  | .fixed attr => return c.addAttribute attr
  | .bound d => collectDirective o e isComponent c d

def buildProps (o : Options) (e : Element) (props : List Property) (isComponent : Bool) :
    Transform PropResult := do
  return (← props.foldlM (collectProperty o e isComponent) {}).result

end TemplateCompiler
