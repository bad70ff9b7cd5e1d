import TemplateCompiler.Transform.Children
import TemplateCompiler.Transform.Element
import TemplateCompiler.Transform.Regions
import TemplateCompiler.Transform.Text

/-! # Visiting nodes

Every node goes through the passes. The pass for children visits them in turn, and other passes
visit what becomes a block. What the passes leave for later is done in reverse order.
-/

namespace TemplateCompiler

open Template (Node)
open Transform

/-- Runs a pass on the node. -/
def Pass.run (o : Options) (visit : Transform Unit) : Pass → Transform (List Exit)
  | .conditions => do
    transformCondition o visit
    return []
  | .loops => do
    transformLoop o visit
    return []
  | .slotOutlets => do
    transformSlotOutlet o visit
    return []
  | .texts => do
    transformText o
    return []
  | .elements => transformElement
  | .componentSlots => do
    transformComponentSlots visit
    return []
  | .children => do
    transformChildren visit
    return []

def Exit.run (o : Options) : Exit → Transform Unit
  | .element => finishElement o

/-- Runs passes until the node is removed; yields what is left for later if it is not. -/
def runPasses (o : Options) (visit : Transform Unit) : List Pass → Transform (Option (List Exit))
  | [] => return some []
  | p :: ps => do
    let exits ← p.run o visit
    if (← get).removed then return none
    return (← runPasses o visit ps).map (exits ++ ·)

/-- Visits the node, with `visit` for the nodes inside it. -/
def visitWith (o : Options) (visit : Transform Unit) : Transform Unit := do
  match ← runPasses o visit o.passes with
  | none => return
  | some exits =>
    exits.reverse.forM (·.run o)
    if (← get).isBlockRoot then
      let _ ← registerTemplate

/-- Visits the node and those inside it, to a given depth. -/
def visit (o : Options) : Nat → Transform Unit
  | 0 => throw { fault := .extension }
  | depth + 1 => visitWith o (visit o depth)

/-- No visit of the node goes deeper: each node inside is at most wrapped in a fragment. -/
def visitDepth (n : Node) : Nat := 2 * n.size

def visitNode (o : Options) : Transform Unit := do
  visit o (visitDepth (← get).node)

end TemplateCompiler
