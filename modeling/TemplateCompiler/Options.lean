/-! # Options of a compilation -/

namespace TemplateCompiler

/-- How the script of a component provides a name. -/
inductive BindingKind
  | data
  | props
  /-- A variable that may hold a reference. -/
  | setupLet
  /-- A constant that never holds a reference. -/
  | setupConst
  /-- A constant that may hold a reference. -/
  | setupMaybeRef
  /-- A constant that holds a reference. -/
  | setupRef
  | options
  deriving DecidableEq, Repr, Inhabited

/-- The name belongs to the setup part of the script. -/
def BindingKind.isSetup : BindingKind → Bool
  | setupLet | setupConst | setupMaybeRef | setupRef => true
  | _ => false

/-- The steps that every node goes through. -/
inductive Pass
  | conditions
  | loops
  | slotOutlets
  | texts
  | elements
  | componentSlots
  | children
  deriving DecidableEq, Repr, Inhabited

/-- All passes in their usual order. -/
def Pass.all : List Pass :=
  [conditions, loops, slotOutlets, texts, elements, componentSlots, children]

/-- Directives with a meaning of their own. -/
inductive BuiltinDirective
  | bind
  | on
  | model
  | classToggle
  | styleProperty
  | reference
  deriving DecidableEq, Repr, Inhabited

namespace BuiltinDirective

def name : BuiltinDirective → String
  | bind => "bind"
  | on => "on"
  | model => "model"
  | classToggle => "class"
  | styleProperty => "style"
  | reference => "ref"

def all : List BuiltinDirective := [bind, on, model, classToggle, styleProperty, reference]

end BuiltinDirective

def isBuiltinDirective (name : String) : Bool := BuiltinDirective.all.any (·.name == name)

structure Options where
  /-- The file of the template, by which it can refer to itself. -/
  filename : String := ""
  /-- Leave blanks as they are. -/
  preserveBlanks : Bool := false
  /-- Keep comments. -/
  comments : Bool := true
  /-- Qualify the free names of expressions. -/
  qualifyNames : Bool := false
  /-- The names of the setup part are in scope. -/
  inline : Bool := false
  /-- An attribute that every element receives. -/
  scopeId : Option String := none
  serverRendering : Bool := false
  /-- The names that the script provides. -/
  bindings : List (String × BindingKind) := []
  passes : List Pass := Pass.all
  /-- The builtin directives that are understood. -/
  directives : List BuiltinDirective := BuiltinDirective.all

namespace Options

def binding? (o : Options) (name : String) : Option BindingKind := o.bindings.lookup name

def directive? (o : Options) (name : String) : Option BuiltinDirective :=
  o.directives.find? (·.name == name)

end Options

end TemplateCompiler
