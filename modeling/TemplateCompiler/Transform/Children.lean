import TemplateCompiler.Transform.Context

/-! # Children of fragments and elements -/

namespace TemplateCompiler

open Template (Node)
open Transform

/-! ## Visiting -/

/-- A child of a fragment is a root of the block. -/
def returnChild : Transform Unit := do
  let id ← reference
  let _ ← registerTemplate
  let flags := (← get).dynamic.flags
  if !flags.nonTemplate || flags.insert then
    modify fun ctx => { ctx with block := { ctx.block with returns := ctx.block.returns ++ [id] } }

/-- Visits a child and settles its place. -/
def visitChild (visit : Transform Unit) (isFragment : Bool) : Transform Unit := do
  visit
  if (← get).removed then setFlags { nonTemplate := true }
  else if isFragment then returnChild

/-- Takes over what a child has come to. -/
def adoptChild (isFragment : Bool) (child : Context) : Transform Unit :=
  modify fun ctx =>
    { ctx with
      childrenTemplate :=
        if isFragment then ctx.childrenTemplate else ctx.childrenTemplate ++ [child.template]
      dynamic :=
        { ctx.dynamic with
          children := ctx.dynamic.children ++ [child.dynamic]
          hasDynamicChild := ctx.dynamic.hasDynamicChild || child.dynamic.isDynamic } }

/-- Visits the children from position `index` on. A child may take over some of those after it. -/
def visitChildren (visit : Transform Unit) (isFragment : Bool) (frame : Frame) :
    Nat → List Node → Transform Unit
  | _, [] => return
  | index, n :: ns => do
    let ((), child) ← inChild n index frame (visitChild visit isFragment)
    adoptChild isFragment child
    visitChildren visit isFragment (child.parent.getD frame) (index + 1) ns

/-! ## Inserting -/

/-- Where a run of inserted children goes. -/
inductive Spot
  /-- Before all markup of the parent. -/
  | front
  /-- Before a placeholder in the markup of the parent. -/
  | placeholder
  /-- After all markup of the parent. -/
  | back
  deriving DecidableEq, Repr

/-- A run of children to be inserted, with their positions. -/
structure Insertion where
  spot : Spot
  run : List (Nat × NodeInfo)

/-- The runs of children to be inserted. `run` is the one being read, and `afterMarkup` says that a
child before it is part of the markup. -/
def insertions (run : List (Nat × NodeInfo)) (afterMarkup : Bool) :
    List (Nat × NodeInfo) → List Insertion
  | [] => if run.isEmpty then [] else [⟨.back, run⟩]
  | (i, d) :: ds =>
    let run := if d.flags.insert then run ++ [(i, d)] else run
    if d.flags.nonTemplate then insertions run afterMarkup ds
    else if run.isEmpty then insertions [] true ds
    else ⟨if afterMarkup then .placeholder else .front, run⟩ :: insertions [] true ds

/-- Puts a placeholder in the place of the child at `index`. -/
def placeAnchor (index : Nat) : Transform Nat := do
  let anchor ← allocateId
  modify fun ctx =>
    { ctx with
      childrenTemplate := ctx.childrenTemplate.set index "<!>"
      dynamic :=
        { ctx.dynamic with
          children := ctx.dynamic.children.modify index fun d =>
            { d with flags := d.flags.minus { nonTemplate := true }, anchor := some anchor } } }
  return anchor

def insertRun (insertion : Insertion) : Transform Unit := do
  let elements := insertion.run.filterMap (·.2.id)
  match insertion.spot with
  | .front => registerOperation (.prependNodes elements (← reference))
  | .back => registerOperation (.insertNodes elements (← reference) none)
  | .placeholder =>
    let anchor ← placeAnchor ((insertion.run.map (·.1)).headD 0)
    registerOperation (.insertNodes elements (← reference) (some anchor))

def insertChildren : Transform Unit := do
  (insertions [] false ((← get).dynamic.children.zipIdx.map Prod.swap)).forM insertRun

/-! ## The pass -/

/-- The pass for children. Components and slots see to theirs elsewhere. -/
def transformChildren (visit : Transform Unit) : Transform Unit := do
  let ctx ← get
  let frame := Frame.ofNode ctx.node ctx.consumedChildren
  match ctx.node with
  | .fragment f => visitChildren visit true frame 0 f.children
  | .element e =>
    if e.kind == .regular then
      visitChildren visit false frame 0 e.children
      insertChildren
  | _ => return

end TemplateCompiler
