/-! # Places in a template -/

namespace TemplateCompiler

structure Position where
  offset : Nat := 0
  line : Nat := 1
  column : Nat := 1
  deriving DecidableEq, Repr, Inhabited

/-- A stretch of a template together with its text. -/
structure Location where
  start : Position := {}
  stop : Position := {}
  source : String := ""
  deriving DecidableEq, Repr, Inhabited

namespace Location

/-- The smallest stretch that holds both places. Its text is left open. -/
def cover (a b : Location) : Location where
  start := if a.start.offset ≤ b.start.offset then a.start else b.start
  stop := if a.stop.offset ≥ b.stop.offset then a.stop else b.stop

def withSource (l : Location) (source : String) : Location := { l with source }

end Location

end TemplateCompiler
