import TemplateCompiler.Transform.Props

/-! # Parts of a template with a block of their own -/

namespace TemplateCompiler

open Template (Branches EachBlock Element Fragment Node)
open Transform

/-! ## Conditions -/

def createAlternative (o : Options) (visit : Transform Unit) : Branches → Transform Alternative
  | .done => return .nothing
  | .otherwise body => do return .block (← createBlock visit (.fragment body))
  | .test condition body rest => do
    let id ← allocateId
    let condition ← qualify o (.ofCode condition)
    let positive ← createBlock visit (.fragment body)
    return .branch id condition positive (← createAlternative o visit rest)

/-- The pass for conditions. It also turns away what has no compiled form. -/
def transformCondition (o : Options) (visit : Transform Unit) : Transform Unit := do
  match (← get).node with
  | .ifBlock b =>
    setFlags .inserted
    let id ← reference
    let condition ← qualify o (.ofCode b.test)
    let positive ← createBlock visit (.fragment b.consequent)
    let negative ← createAlternative o visit (Template.alternateBranches b.alternate)
    registerOperation (.branch id condition positive negative)
  | .awaitBlock _ location => throw (.notImplemented "\x7b#await\x7d block" location)
  | .keyBlock _ _ location => throw (.notImplemented "\x7b#key\x7d block" location)
  | .constTag c => throw (.notImplemented "\x7b@const\x7d tag" c.location)
  | .debugTag _ location => throw (.notImplemented "\x7b@debug\x7d tag" location)
  | _ => return

/-! ## Loops -/

/-- The body of a loop and its key, with the names of the loop in scope. -/
def createLoopBody (o : Options) (visit : Transform Unit) (names : List String) (b : EachBlock) :
    Transform (Block × Option Expression) :=
  withIdentifiers names do
    modifySession fun s => { s with loopDepth := s.loopDepth + 1 }
    let body ← attempt (createBlock visit (.fragment b.body))
    let key ← attempt (b.key.mapM fun c => qualify o (.ofCode c))
    modifySession fun s => { s with loopDepth := s.loopDepth - 1 }
    return (← ofExcept body, ← ofExcept key)

def createLoop (o : Options) (visit : Transform Unit) (id : Nat) (b : EachBlock) :
    Transform Operation := do
  let subject ← qualify o (.ofCode b.subject)
  match Script.patternNames? b.context with
  | none => throw ((Diagnostic.invalidExpression b.context).locate b.location)
  | some names =>
    let value := Expression.dynamic (Text.trim b.context) b.location
    let index := b.index.map fun name => Expression.dynamic name b.location
    let (body, key) ← createLoopBody o visit (names ++ b.index.toList) b
    let fallback ← b.fallback.mapM fun f => createBlock visit (.fragment f)
    return .loop id subject value index key body fallback

/-- The pass for loops. -/
def transformLoop (o : Options) (visit : Transform Unit) : Transform Unit := do
  match (← get).node with
  | .eachBlock b =>
    setFlags .inserted
    let id ← reference
    registerOperation (← createLoop o visit id b)
  | _ => return

/-! ## Slot outlets -/

/-- Takes the name of the slot out of the properties of its outlet. -/
def outletName (o : Options) : List Property → Transform (Option Expression × List Property)
  | [] => return (none, [])
  | .fixed attr :: ps => do
    let (name, others) ← outletName o ps
    if attr.name == "name" then
      return (name <|> some (Expression.static attr.value attr.location), others)
    return (name, .fixed attr :: others)
  | .bound d :: ps => do
    if d.name == "bind" && d.staticArg? == some "name" then
      let own ← d.exp.mapM (qualify o)
      let (name, others) ← outletName o ps
      return (name <|> own, others)
    let (name, others) ← outletName o ps
    return (name, .bound d :: others)

/-- The pass for slot outlets. What they hold shows when the slot is not filled. -/
def transformSlotOutlet (o : Options) (visit : Transform Unit) : Transform Unit := do
  match (← get).node with
  | .element e =>
    if e.kind == .slotOutlet then
      let id ← reference
      setFlags .inserted
      let (name, props) ← outletName o (← ofExcept (Property.ofAttributes e.attributes))
      let name := name.getD (Expression.static "default" e.location)
      let result ← buildProps o e props true
      let fallback ←
        if e.children.all (·.isBlankText) then pure none
        else some <$> createBlock visit (.fragment ⟨e.children, e.location⟩)
      replaceNode (.element e.withoutChildren)
      registerOperation (.slotOutlet id name result.groups fallback)
  | _ => return

/-! ## Slots of components -/

/-- The slot that a child of a component fills, and what it fills it with. -/
def slotContent? (n : Node) : Option (String × Fragment) := do
  let e ← n.element?
  let name ← e.staticAttribute? "slot"
  some (name, ⟨if e.name == "svelte:fragment" then e.children else [.element e], e.location⟩)

/-- The first slot that is filled although its name is among `seen` or was filled before. -/
def duplicateSlot? (seen : List String) :
    List (String × Fragment) → Option (String × Fragment)
  | [] => none
  | (name, f) :: slots =>
    if seen.contains name then some (name, f) else duplicateSlot? (name :: seen) slots

/-- The slots that the children of a component fill. Children that name no slot fill the default
one, unless they are blank. -/
def slotsOf (e : Element) : Except Diagnostic (List (String × Fragment)) :=
  let unnamed := e.children.filter fun n => (slotContent? n).isNone
  let default :=
    if unnamed.all (·.isBlankText) then [] else [("default", Fragment.mk unnamed e.location)]
  let named := e.children.filterMap slotContent?
  match duplicateSlot? (default.map (·.1)) named with
  | some (name, f) =>
    .error { fault := .duplicateSlotName, detail := name, location := f.location }
  | none => .ok (default ++ named)

/-- The pass for the slots of components. -/
def transformComponentSlots (visit : Transform Unit) : Transform Unit := do
  match (← get).node with
  | .element e =>
    if e.kind == .component then
      let slots ← (← ofExcept (slotsOf e)).mapM fun (name, f) => do
        return (name, ← createBlock visit (.fragment f))
      modify fun ctx => { ctx with slots }
      replaceNode (.element e.withoutChildren)
  | _ => return

end TemplateCompiler
