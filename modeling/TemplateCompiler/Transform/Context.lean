import TemplateCompiler.Block.Operation
import TemplateCompiler.Transform.Session

/-! # The state of a transformation

A context belongs to one node. The block that the node contributes to and the session are shared
with other nodes, so they outlast the context, also when the transformation fails.
-/

namespace TemplateCompiler

open Template (Node)

/-- What a node may know of its parent. -/
structure Frame where
  /-- The tag of the parent, if it is an element. -/
  tag : Option String
  children : List Node
  /-- Children before this position belong to one of their predecessors. -/
  consumedUntil : Nat

namespace Frame

def ofNode (n : Node) (consumedUntil : Nat) : Frame :=
  { tag := n.element?.map (·.name), children := n.children, consumedUntil }

def consumeUntil (f : Frame) (stop : Nat) : Frame :=
  { f with consumedUntil := max f.consumedUntil stop }

end Frame

structure Context where
  node : Node
  parent : Option Frame := none
  index : Nat := 0
  /-- The node is the root of a block. -/
  isBlockRoot : Bool := false
  block : Block
  session : Session
  /-- The markup of the node. -/
  template : String := ""
  /-- The markup of the children. -/
  childrenTemplate : List String := []
  dynamic : NodeInfo := {}
  /-- The slots of a component. -/
  slots : List (String × Block) := []
  /-- How many of the first children the node has taken over. -/
  consumedChildren : Nat := 0
  removed : Bool := false

namespace Context

/-- The context of the root of a block. -/
def root (node : Node) (block : Block) (session : Session) : Context :=
  { node, isBlockRoot := true, block, session }

/-- The context of a child. -/
def child (ctx : Context) (node : Node) (index : Nat) (frame : Frame) : Context :=
  { node, parent := some frame, index, block := ctx.block, session := ctx.session }

end Context

abbrev Transform := EStateM Diagnostic Context

namespace Transform

/-- The outcome of `t`, without failing. -/
def attempt {α : Type} (t : Transform α) : Transform (Except Diagnostic α) := fun ctx =>
  match t ctx with
  | .ok a ctx => .ok (.ok a) ctx
  | .error e ctx => .ok (.error e) ctx

def getSession : Transform Session := do return (← get).session

def modifySession (f : Session → Session) : Transform Unit :=
  modify fun ctx => { ctx with session := f ctx.session }

/-- A step of the session that yields a number. -/
def onSession (f : Session → Nat × Session) : Transform Nat := do
  let (n, session) := f (← getSession)
  modify fun ctx => { ctx with session }
  return n

def allocateId : Transform Nat := onSession Session.allocateId

def modifyDynamic (f : NodeInfo → NodeInfo) : Transform Unit :=
  modify fun ctx => { ctx with dynamic := f ctx.dynamic }

def setFlags (flags : Flags) : Transform Unit :=
  modifyDynamic fun d => { d with flags := d.flags.union flags }

/-- The id of the node, which receives one if it has none. -/
def reference : Transform Nat := do
  match (← get).dynamic.id with
  | some id => return id
  | none =>
    setFlags { referenced := true }
    let id ← allocateId
    modifyDynamic fun d => { d with id := some id }
    return id

/-! ## Operations -/

def registerOperation (op : Operation) : Transform Unit :=
  modify fun ctx => { ctx with block := ctx.block.register op }

def registerEffect (expressions : List Expression) (op : Operation) : Transform Unit :=
  modify fun ctx => { ctx with block := ctx.block.registerEffect expressions op }

/-! ## Markup -/

def addTemplate (text : String) : Transform Nat := onSession (·.addTemplate text)

def appendTemplate (text : String) : Transform Unit :=
  modify fun ctx => { ctx with template := ctx.template ++ text }

/-- Gives the markup of the node a number, unless there is none. -/
def registerTemplate : Transform (Option Nat) := do
  let text := (← get).template
  if text.isEmpty then return none
  let i ← addTemplate text
  modifyDynamic fun d => { d with template := some i }
  return some i

/-! ## The node -/

def replaceNode (node : Node) : Transform Unit := modify fun ctx => { ctx with node }

def removeNode : Transform Unit := modify fun ctx => { ctx with removed := true }

/-! ## Scopes and blocks -/

/-- Runs `t` with names of the template in scope. -/
def withIdentifiers {α : Type} (names : List String) (t : Transform α) : Transform α := do
  modifySession (·.addIdentifiers names)
  let outcome ← attempt t
  modifySession (·.removeIdentifiers names)
  ofExcept outcome

/-- Runs `t` in the context of a child, and yields that context. -/
def inChild {α : Type} (node : Node) (index : Nat) (frame : Frame) (t : Transform α) :
    Transform (α × Context) := fun ctx =>
  match t (ctx.child node index frame) with
  | .ok a c => .ok (a, c) { ctx with block := c.block, session := c.session }
  | .error e c => .error e { ctx with block := c.block, session := c.session }

/-- Makes a block of `node` by visiting it. -/
def createBlock (visit : Transform Unit) (node : Node) : Transform Block := fun ctx =>
  let visitRoot : Transform Unit := do
    let _ ← reference
    visit
  match visitRoot (Context.root node Block.empty ctx.session) with
  | .ok _ c =>
    .ok { c.block with node := c.node, dynamic := c.dynamic } { ctx with session := c.session }
  | .error e c => .error e { ctx with session := c.session }

end Transform

end TemplateCompiler
