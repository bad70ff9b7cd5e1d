import TemplateCompiler.Script.Globals
import TemplateCompiler.Script.Scope.Tree
import TemplateCompiler.Script.Shape
import TemplateCompiler.Template.Attribute

/-! # Expressions of the compiled template -/

namespace TemplateCompiler

/-- Literal text, or a script expression. -/
structure Expression where
  /-- The text itself, or the source of the script. -/
  content : String
  isStatic : Bool
  location : Location
  deriving DecidableEq, Repr, Inhabited

namespace Expression

def static (content : String) (location : Location) : Expression :=
  { content, isStatic := true, location }

/-- A script expression at a place; the text of the place becomes that of the script. -/
def dynamic (content : String) (location : Location) : Expression :=
  { content, isStatic := false, location := location.withSource content }

def ofCode (c : Template.Code) : Expression := dynamic c.content c.location

/-- The text that the expression always has. -/
def literalValue? (e : Expression) : Option String :=
  if e.isStatic then some e.content else Script.literalString? e.content

/-- The expression depends on nothing that could change. -/
def isConstant (e : Expression) : Bool :=
  e.isStatic ||
    (Script.parseExpression? e.content).any fun script =>
      (Script.ScopeTree.ofExpr script).free.all fun r => Script.isAllowedGlobal r.ident.name

/-- The same expression, wherever it stands. -/
def same (a b : Expression) : Bool := a.content == b.content && a.isStatic == b.isStatic

/-- The same expressions in the same order. -/
def sameAll : List Expression → List Expression → Bool
  | [], [] => true
  | a :: as, b :: bs => a.same b && sameAll as bs
  | _, _ => false

end Expression

end TemplateCompiler
