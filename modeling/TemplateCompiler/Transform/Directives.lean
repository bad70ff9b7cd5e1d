import TemplateCompiler.Transform.Names

/-! # Builtin directives

A builtin directive contributes a property, or registers operations, or has no effect.
-/

namespace TemplateCompiler

open Template (Element)
open Transform

/-! ## Bound properties -/

def bindEntry (d : Directive) : Transform (Option PropEntry) := do
  match d.arg, d.exp with
  | none, _ => return none
  | some _, none => throw { fault := .bindWithoutExpression, location := d.location }
  | some arg, some value =>
    if arg.isStatic && isReservedProp arg.content then return none
    let camel := d.modifiers.contains "camel"
    let key :=
      if camel && arg.isStatic then Expression.static (Text.camelize arg.content) arg.location
      else arg
    let modifier :=
      if d.modifiers.contains "prop" then some PropModifier.prop
      else if d.modifiers.contains "attr" then some PropModifier.attr
      else none
    return some { key, value, modifier, camelizeAtRuntime := camel && !arg.isStatic }

/-! ## Events -/

/-- Modifiers that are options of listening. -/
def listenerOptions : List String := ["once", "capture", "passive", "nonpassive"]

/-- Modifiers that the handler checks or does. -/
def handlerGuards : List String :=
  ["preventDefault", "stopPropagation", "stopImmediatePropagation", "self", "trusted"]

def eventModifiers (location : Location) (modifiers : List String) :
    Except Diagnostic EventModifiers :=
  match modifiers.find? fun m => !listenerOptions.contains m && !handlerGuards.contains m with
  | some m => .error { fault := .invalidEventModifier, detail := m, location }
  | none =>
    .ok { guards := modifiers.filter (!listenerOptions.contains ·)
          options := modifiers.filter (listenerOptions.contains ·) }

/-- An event of a component is a property that holds its handler. -/
def handlerEntry (d : Directive) (arg : Expression) : PropEntry where
  key := if arg.isStatic then Expression.static (Text.handlerKey arg.content) arg.location else arg
  value := d.exp.getD (Expression.dynamic "() => undefined" d.location)
  isHandler := true

/-- Listens to an event of an element. -/
def listen (o : Options) (d : Directive) (arg : Expression) (modifiers : EventModifiers) :
    Transform Unit := do
  let element ← reference
  let value ← d.exp.mapM (qualify o)
  let key ← if arg.isStatic then pure arg else qualify o arg
  let op := Operation.setEvent element key value modifiers !key.isStatic
  if key.isStatic then registerOperation op else registerEffect [key] op

def onEntry (o : Options) (d : Directive) (e : Element) : Transform (Option PropEntry) := do
  let missing : Diagnostic := { fault := .handlerWithoutExpression, location := d.location }
  match d.arg with
  | none => throw missing
  | some arg =>
    if d.exp.isNone && d.modifiers.isEmpty then throw missing
    let modifiers ← ofExcept (eventModifiers d.location d.modifiers)
    if e.kind == .component || e.kind == .slotOutlet then return some (handlerEntry d arg)
    listen o d arg modifiers
    return none

/-! ## Bindings in both directions -/

/-- The kind of control that an element is. -/
def modelKind (e : Element) : Except Diagnostic ModelKind :=
  if e.name == "input" then
    if e.hasSpread then .ok .dynamic
    else
      match e.staticAttribute? "type" with
      | some "radio" => .ok .radio
      | some "checkbox" => .ok .checkbox
      | some "file" => .error { fault := .modelOnFileInput, location := e.location }
      | some _ => .ok .text
      | none => .ok (if e.hasAttribute "type" then .dynamic else .text)
  else if e.name == "select" then .ok .select
  else if e.name == "textarea" then .ok .text
  else .error { fault := .modelOnInvalidElement, location := e.location }

def modelEntry (o : Options) (d : Directive) (e : Element) : Transform (Option PropEntry) := do
  match d.exp with
  | none => throw { fault := .modelWithoutExpression, location := d.location }
  | some exp =>
    if exp.isStatic || !Script.isAssignable exp.content then
      throw { fault := .malformedModelExpression, location := exp.location }
    if e.isComponent then
      let key := d.arg.getD (Expression.static "modelValue" d.location)
      return some { key, value := exp, isModel := true, modelModifiers := d.modifiers }
    let kind ← ofExcept (modelKind e)
    let exp ← qualify o exp
    let element ← reference
    registerOperation
      (.withDirective element "model" { d with exp := some exp } true false (some kind))
    return none

/-! ## Classes and styles -/

/-- A single class or style as an object that merges with the others. -/
def objectEntry (property : String) (important : Bool) (d : Directive) :
    Except Diagnostic PropEntry :=
  match d.staticArg?, d.exp with
  | some name, some exp =>
    let value := if exp.isStatic then Text.quote exp.content else exp.content
    let value :=
      if important then Script.concat [value, Text.quote " !important"] else value
    .ok { key := Expression.static property (d.location.withSource property)
          value := Expression.dynamic (Script.object [(name, value)]) exp.location }
  | _, _ =>
    .error
      { fault := .malformedDirectiveValue, detail := property ++ ":", location := d.location }

/-! ## References to elements -/

/-- Registers the element under a name. A plain name is left for the run time to resolve. -/
def registerReference (o : Options) (d : Directive) : Transform Unit := do
  match d.exp with
  | none => throw { fault := .bindWithoutExpression, location := d.location }
  | some exp =>
    let name := Text.trim exp.content
    let value ←
      if !exp.isStatic && Script.isIdentifier name && !(← getSession).isIdentifier name then
        pure (Expression.static name exp.location)
      else qualify o exp
    let element ← reference
    let op := Operation.setTemplateRef element value (0 < (← getSession).loopDepth)
    if value.isStatic then registerOperation op else registerEffect [value] op

/-! ## All of them -/

/-- Carries out a builtin directive on an element. -/
def BuiltinDirective.apply (o : Options) (d : Directive) (e : Element) :
    BuiltinDirective → Transform (Option PropEntry)
  | .bind => bindEntry d
  | .on => onEntry o d e
  | .model => modelEntry o d e
  | .classToggle => some <$> ofExcept (objectEntry "class" false d)
  | .styleProperty => some <$> ofExcept (objectEntry "style" (d.modifiers.contains "important") d)
  | .reference => do
    registerReference o d
    return none

end TemplateCompiler
