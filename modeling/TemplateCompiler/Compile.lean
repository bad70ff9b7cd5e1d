import TemplateCompiler.Template.Whitespace
import TemplateCompiler.Transform.Visit

/-! # Compiling templates -/

namespace TemplateCompiler

open Template (Fragment)
open Transform

structure Compiled where
  /-- Pieces of markup, which blocks refer to by number. -/
  templates : List String
  block : Block
  /-- Components to be looked up at run time. -/
  components : List String
  /-- Actions to be looked up at run time. -/
  directives : List String

/-- Compiles a template, or says what is wrong with it. -/
def compile (o : Options) (root : Fragment) : Except Diagnostic Compiled :=
  if o.serverRendering then .error { fault := .serverRendering, location := root.location }
  else
    let node := Template.Node.fragment (if o.preserveBlanks then root else root.condense)
    let visitRoot : Transform Unit := do
      let _ ← reference
      visitNode o
    match visitRoot (Context.root node Block.empty {}) with
    | .error e _ => .error e
    | .ok _ ctx =>
      .ok { templates := ctx.session.templates
            block := { ctx.block with node, dynamic := ctx.dynamic }
            components := ctx.session.components
            directives := ctx.session.directives }

end TemplateCompiler
