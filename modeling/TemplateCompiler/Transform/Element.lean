import TemplateCompiler.Template.Nesting
import TemplateCompiler.Text.Markup
import TemplateCompiler.Transform.Props

/-! # Elements and components -/

namespace TemplateCompiler

open Template (Element)
open Transform

/-! ## Elements -/

/-- An attribute in an opening tag. -/
def attributeMarkup (key value : String) : String :=
  if value.isEmpty then " " ++ key
  else " " ++ key ++ "=\"" ++ Text.escapeAttribute value ++ "\""

/-- Sets a property, or yields it as markup if it never changes. -/
def placeProp (p : MergedProp) : Transform String := do
  match p.staticText? with
  | some (key, value) => return attributeMarkup key value
  | none =>
    let element ← reference
    registerEffect p.values (.setProp element p)
    return ""

/-- Sets the properties of an element, and yields those that are part of its markup. -/
def placeProps : PropResult → Transform String
  | .dynamic groups expressions => do
    let element ← reference
    registerEffect expressions (.setDynamicProps element groups)
    return ""
  | .fixed props => do return String.join (← props.mapM placeProp)

/-- The markup of the children and the closing tag. -/
def contentMarkup (e : Element) : Transform String := do
  if Template.isVoidTag e.name then return ""
  let children := (← get).childrenTemplate
  modify fun ctx => { ctx with childrenTemplate := [] }
  return String.join children ++ "</" ++ e.name ++ ">"

/-- Markup that cannot stand in that of the parent becomes a piece of its own. -/
def placeMarkup (e : Element) (markup : String) : Transform Unit := do
  match (← get).parent.bind (·.tag) with
  | some parent =>
    if Template.isValidNesting parent e.name then appendTemplate markup
    else
      let _ ← reference
      let i ← addTemplate markup
      modifyDynamic fun d => { d with template := some i }
      setFlags .inserted
  | none => appendTemplate markup

def finishNative (o : Options) (e : Element) (props : List Property) : Transform Unit := do
  let scope := (o.scopeId.map (" " ++ ·)).getD ""
  let attributes ← placeProps (← buildProps o e props false)
  let content ← contentMarkup e
  placeMarkup e ("<" ++ e.name ++ scope ++ attributes ++ ">" ++ content)

/-! ## Components -/

/-- How the compiled template refers to a component, and whether it looks it up at run time. The
tag may be a name of a loop or of the script, also before a point, or the template itself. -/
def resolveComponent (o : Options) (s : Session) (tag : String) : String × Bool :=
  let provided (name : String) : Option String :=
    if s.isIdentifier name then some name else o.setupReference? name
  let member : Option String :=
    match tag.toList.span (· != '.') with
    | (_, []) => none
    | (space, rest) => (provided (String.ofList space)).map (· ++ String.ofList rest)
  match provided tag <|> member with
  | some name => (name, false)
  | none => (if Text.selfName? o.filename == some tag then tag ++ "__self" else tag, true)

def finishComponent (o : Options) (e : Element) (props : List Property) : Transform Unit := do
  let (tag, asset) := resolveComponent o (← getSession) e.name
  if asset then modifySession (·.addComponent tag)
  let result ← buildProps o e props true
  setFlags .inserted
  let id ← reference
  let slots := (← get).slots
  modify fun ctx => { ctx with slots := [] }
  registerOperation (.createComponent id tag result.groups slots asset)

/-! ## The pass -/

/-- Work on a node that waits until its children are done. -/
inductive Exit
  | element
  deriving DecidableEq, Repr

/-- The pass for elements, which leaves the work for later. -/
def transformElement : Transform (List Exit) := do
  match (← get).node with
  | .element e =>
    match e.kind with
    | .regular | .component => return [.element]
    | .slotOutlet => return []
    | .special => throw (.notImplemented ("<" ++ e.name ++ ">") e.location)
  | _ => return []

def finishElement (o : Options) : Transform Unit := do
  match (← get).node.element? with
  | none => return
  | some e =>
    let props ← ofExcept (Property.ofAttributes e.attributes)
    if e.isComponent then finishComponent o e props else finishNative o e props

end TemplateCompiler
