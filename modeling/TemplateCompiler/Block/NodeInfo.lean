/-! # Nodes at run time -/

namespace TemplateCompiler

/-- How a node comes about at run time. -/
structure Flags where
  /-- The node has an id. -/
  referenced : Bool := false
  /-- The node is not part of the markup around it. -/
  nonTemplate : Bool := false
  /-- The node is created apart and put in its place. -/
  insert : Bool := false
  deriving DecidableEq, Repr, Inhabited

namespace Flags

def union (a b : Flags) : Flags :=
  ⟨a.referenced || b.referenced, a.nonTemplate || b.nonTemplate, a.insert || b.insert⟩

def minus (a b : Flags) : Flags :=
  ⟨a.referenced && !b.referenced, a.nonTemplate && !b.nonTemplate, a.insert && !b.insert⟩

/-- All flags of `b` are set. -/
def contains (a b : Flags) : Bool :=
  (a.referenced || !b.referenced) && (a.nonTemplate || !b.nonTemplate) && (a.insert || !b.insert)

def isEmpty (a : Flags) : Bool := !a.referenced && !a.nonTemplate && !a.insert

/-- A node that is created and inserted. -/
def inserted : Flags := { nonTemplate := true, insert := true }

end Flags

/-- What is known of a node for the run time. -/
structure NodeInfo where
  id : Option Nat := none
  flags : Flags := {}
  /-- The placeholder that the node is inserted before. -/
  anchor : Option Nat := none
  /-- The children in their order. -/
  children : List NodeInfo := []
  /-- The markup of the node, by its number. -/
  template : Option Nat := none
  hasDynamicChild : Bool := false
  deriving Inhabited

/-- The run time has to know the node. -/
def NodeInfo.isDynamic (d : NodeInfo) : Bool :=
  d.id.isSome || d.hasDynamicChild || !d.flags.isEmpty

end TemplateCompiler
