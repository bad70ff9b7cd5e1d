import TemplateCompiler.Expression

/-! # Groups of properties

Properties whose names are all known form one group, in which no name occurs twice. An object whose
properties are spread is a group of its own.
-/

namespace TemplateCompiler

/-- How a property is set, if not by its name. -/
inductive PropModifier
  | prop
  | attr
  deriving DecidableEq, Repr, Inhabited

/-- What is special about a property. -/
structure PropTraits where
  modifier : Option PropModifier := none
  camelizeAtRuntime : Bool := false
  isHandler : Bool := false
  /-- The property is bound in both directions. -/
  isModel : Bool := false
  modelModifiers : List String := []
  deriving DecidableEq, Repr, Inhabited

structure PropEntry extends PropTraits where
  key : Expression
  value : Expression
  deriving DecidableEq, Repr, Inhabited

/-- A property with all values that are given for it. -/
structure MergedProp extends PropTraits where
  key : Expression
  values : List Expression
  deriving DecidableEq, Repr, Inhabited

inductive PropGroup
  | entries (props : List MergedProp)
  /-- All properties of an object. -/
  | spread (value : Expression) (isHandler : Bool)
  deriving DecidableEq, Repr, Inhabited

/-- Properties that the compiler uses up itself. -/
def isReservedProp (name : String) : Bool := name == "key" || name == "slot"

/-- Properties that take several values. -/
def isMergeableProp (name : String) : Bool := name == "class" || name == "style"

namespace MergedProp

def ofEntry (e : PropEntry) : MergedProp :=
  { toPropTraits := e.toPropTraits, key := e.key, values := [e.value] }

/-- The name and the only value are literal text. -/
def staticText? (p : MergedProp) : Option (String × String) :=
  match p.values with
  | [value] =>
    if p.key.isStatic && value.isStatic then some (p.key.content, value.content) else none
  | _ => none

end MergedProp

/-- Merged properties in the making, with the place of each literal name among them. -/
structure Merging where
  props : List MergedProp := []
  places : List (String × Nat) := []

namespace Merging

def push (m : Merging) (e : PropEntry) : Merging :=
  { m with props := m.props ++ [MergedProp.ofEntry e] }

/-- Adds an entry. Of entries with the same literal name the first one counts; only properties that
take several values collect them. -/
def add (m : Merging) (e : PropEntry) : Merging :=
  if e.key.isStatic then
    match m.places.lookup e.key.content with
    | some place =>
      if isMergeableProp e.key.content then
        { m with props := m.props.modify place fun p => { p with values := p.values ++ [e.value] } }
      else m
    | none => { m.push e with places := (e.key.content, m.props.length) :: m.places }
  else m.push e

end Merging

def mergeEntries (entries : List PropEntry) : List MergedProp := (entries.foldl Merging.add {}).props

end TemplateCompiler
