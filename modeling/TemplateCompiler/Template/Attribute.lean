import TemplateCompiler.Location

/-! # Attributes as they are written -/

namespace TemplateCompiler.Template

/-- A script expression embedded in a template. -/
structure Code where
  content : String
  location : Location := {}
  deriving DecidableEq, Repr, Inhabited

/-- Literal text. -/
structure TextNode where
  /-- The text that is meant. -/
  data : String
  /-- The text as it is written. -/
  raw : String
  location : Location := {}
  deriving DecidableEq, Repr, Inhabited

/-- A piece of an attribute value. -/
inductive Chunk
  | text (text : TextNode)
  | code (code : Code)
  /-- An expression that stands for both the name and the value. -/
  | shorthand (code : Code)
  deriving DecidableEq, Repr, Inhabited

namespace Chunk

def location : Chunk → Location
  | text t => t.location
  | code c | shorthand c => c.location

def isText : Chunk → Bool
  | text _ => true
  | _ => false

end Chunk

inductive AttributeValue
  /-- No value at all. -/
  | absent
  | chunks (chunks : List Chunk)
  deriving DecidableEq, Repr, Inhabited

inductive DirectiveKind
  | eventHandler
  | binding
  | classToggle
  | styleProperty
  | action
  | transition
  | animation
  | letBinding
  | reference
  deriving DecidableEq, Repr, Inhabited

/-- The word before the colon. -/
def DirectiveKind.word : DirectiveKind → String
  | eventHandler => "on"
  | binding => "bind"
  | classToggle => "class"
  | styleProperty => "style"
  | action => "use"
  | transition => "transition"
  | animation => "animate"
  | letBinding => "let"
  | reference => "ref"

inductive Attribute
  | plain (name : String) (value : AttributeValue) (location : Location)
  /-- All properties of an object. -/
  | spread (code : Code) (location : Location)
  | directive (kind : DirectiveKind) (name : String) (modifiers : List String)
      (value : AttributeValue) (location : Location)
  deriving DecidableEq, Repr, Inhabited

namespace Attribute

def location : Attribute → Location
  | plain _ _ location | spread _ location | directive _ _ _ _ location => location

def isSpread : Attribute → Bool
  | spread _ _ => true
  | _ => false

/-- The text of a plain attribute called `name`, if that is all it consists of. -/
def textOf? (name : String) : Attribute → Option String
  | plain n .absent _ => if n = name then some "" else none
  | plain n (.chunks [.text t]) _ => if n = name then some t.data else none
  | _ => none

/-- The attribute is a plain one called `name`. -/
def isNamed (name : String) : Attribute → Bool
  | plain n _ _ => n == name
  | _ => false

end Attribute

end TemplateCompiler.Template
