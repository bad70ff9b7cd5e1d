import TemplateCompiler.Location

/-! # What can be wrong with a template -/

namespace TemplateCompiler

inductive Fault
  | malformedAttributeValue
  | malformedDirectiveValue
  | invalidEventModifier
  | duplicateSlotName
  | invalidExpression
  | bindWithoutExpression
  | handlerWithoutExpression
  | modelWithoutExpression
  | malformedModelExpression
  | modelOnInvalidElement
  | modelOnFileInput
  | notImplemented
  | serverRendering
  | extension
  deriving DecidableEq, Repr, Inhabited

/-- The fixed part of the message about a fault. -/
def Fault.text : Fault → String
  | malformedAttributeValue => "Attribute value has an unexpected shape: "
  | malformedDirectiveValue => "Directive value must be a single expression: "
  | invalidEventModifier => "Unknown event modifier: "
  | duplicateSlotName => "Duplicate slot names found: "
  | invalidExpression => "Error parsing JavaScript expression: "
  | bindWithoutExpression => "Binding is missing expression."
  | handlerWithoutExpression => "Event handler is missing expression."
  | modelWithoutExpression => "Two-way binding is missing expression."
  | malformedModelExpression =>
    "Two-way binding value must be a valid JavaScript member expression."
  | modelOnInvalidElement =>
    "Two-way binding can only be used on <input>, <textarea>, <select> and components."
  | modelOnFileInput =>
    "Two-way binding cannot be used on file inputs since they are read-only."
  | notImplemented => "Not implemented: "
  | serverRendering => "Server rendering is not supported by this compiler."
  | extension => ""

/-- A fault found at a place, with the text it is about. -/
structure Diagnostic where
  fault : Fault
  detail : Option String := none
  location : Location := {}
  deriving DecidableEq, Repr, Inhabited

namespace Diagnostic

def message (d : Diagnostic) : String := d.fault.text ++ d.detail.getD ""

def locate (d : Diagnostic) (location : Location) : Diagnostic := { d with location }

def invalidExpression (source : String) : Diagnostic :=
  { fault := .invalidExpression, detail := source }

/-- A construct of the template language without a compiled form. -/
def notImplemented (construct : String) (location : Location) : Diagnostic :=
  { fault := .notImplemented, detail := construct, location }

end Diagnostic

end TemplateCompiler
