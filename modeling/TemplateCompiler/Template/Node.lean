import TemplateCompiler.Template.Attribute
import TemplateCompiler.Template.Tag
import TemplateCompiler.Text.Blank

/-! # Templates -/

namespace TemplateCompiler.Template

mutual

structure Fragment where
  children : List Node
  location : Location

structure Element where
  name : String
  kind : ElementKind
  attributes : List Attribute
  children : List Node
  location : Location

/-- A condition with what it shows. `elseIf` marks a block that continues the one around it. -/
structure IfBlock where
  test : Code
  consequent : Fragment
  alternate : Option Fragment
  elseIf : Bool
  location : Location

/-- A loop. `context` is the pattern for the items. -/
structure EachBlock where
  subject : Code
  context : String
  index : Option String
  key : Option Code
  body : Fragment
  fallback : Option Fragment
  location : Location

inductive Node
  | fragment (fragment : Fragment)
  | element (element : Element)
  | text (text : TextNode)
  | comment (data : String) (location : Location)
  /-- An expression shown as text. -/
  | interpolation (code : Code)
  /-- An expression shown as markup. -/
  | rawMarkup (code : Code)
  | ifBlock (block : IfBlock)
  | eachBlock (block : EachBlock)
  | awaitBlock (code : Code) (location : Location)
  | keyBlock (code : Code) (body : Fragment) (location : Location)
  | constTag (code : Code)
  | debugTag (names : List String) (location : Location)

end

instance : Inhabited Fragment := ⟨⟨[], {}⟩⟩
instance : Inhabited Element := ⟨⟨"", .regular, [], [], {}⟩⟩
instance : Inhabited Node := ⟨.fragment default⟩

namespace Node

def location : Node → Location
  | fragment f => f.location
  | element e => e.location
  | text t => t.location
  | comment _ location => location
  | interpolation c | rawMarkup c | constTag c => c.location
  | ifBlock b => b.location
  | eachBlock b => b.location
  | awaitBlock _ location | keyBlock _ _ location | debugTag _ location => location

/-- The nodes directly inside a fragment or an element. -/
def children : Node → List Node
  | fragment f => f.children
  | element e => e.children
  | _ => []

def element? : Node → Option Element
  | element e => some e
  | _ => none

def isInterpolation : Node → Bool
  | interpolation _ => true
  | _ => false

/-- Text and interpolations, which join into one text at run time. -/
def isTextLike : Node → Bool
  | text _ | interpolation _ => true
  | _ => false

/-- Elements and comments. -/
def isMarkup : Node → Bool
  | element _ | comment _ _ => true
  | _ => false

def isBlankText : Node → Bool
  | text t => Text.isAllBlank t.data
  | _ => false

end Node

namespace Element

def isComponent (e : Element) : Bool := e.kind == .component

/-- The text of the first plain attribute called `name` that has one. -/
def staticAttribute? (e : Element) (name : String) : Option String :=
  e.attributes.findSome? (·.textOf? name)

def hasAttribute (e : Element) (name : String) : Bool := e.attributes.any (·.isNamed name)

def hasSpread (e : Element) : Bool := e.attributes.any (·.isSpread)

def withoutChildren (e : Element) : Element := { e with children := [] }

end Element

/-! ## Size -/

mutual

/-- The number of nodes, which bounds how deep a walk can go. -/
def Node.size : Node → Nat
  | .fragment f => f.size + 1
  | .element e => e.size + 1
  | .ifBlock b => b.size + 1
  | .eachBlock b => b.size + 1
  | .keyBlock _ body _ => body.size + 1
  | _ => 1

def Fragment.size : Fragment → Nat
  | ⟨children, _⟩ => nodesSize children + 1

def Element.size : Element → Nat
  | ⟨_, _, _, children, _⟩ => nodesSize children + 1

def IfBlock.size : IfBlock → Nat
  | ⟨_, consequent, alternate, _, _⟩ => consequent.size + optionalSize alternate + 1

def EachBlock.size : EachBlock → Nat
  | ⟨_, _, _, _, body, fallback, _⟩ => body.size + optionalSize fallback + 1

def optionalSize : Option Fragment → Nat
  | none => 0
  | some f => f.size

def nodesSize : List Node → Nat
  | [] => 0
  | n :: ns => n.size + nodesSize ns

end

/-! ## Chains of conditions -/

/-- What a block with its continuations shows: the first body whose condition holds. -/
inductive Branches
  | done
  | otherwise (body : Fragment)
  | test (condition : Code) (body : Fragment) (rest : Branches)

mutual

def IfBlock.branches : IfBlock → Branches
  | ⟨test, consequent, alternate, _, _⟩ => .test test consequent (alternateBranches alternate)

def alternateBranches : Option Fragment → Branches
  | none => .done
  | some ⟨children, location⟩ =>
    (loneContinuation? children).getD (.otherwise ⟨children, location⟩)

/-- The branches of a continuing block that stands alone but for blank text. -/
def loneContinuation? : List Node → Option Branches
  | [] => none
  | .ifBlock b :: ns => if b.elseIf && ns.all Node.isBlankText then some b.branches else none
  | n :: ns => if n.isBlankText then loneContinuation? ns else none

end

/-- The block that continues this one, if its alternative is such a block. -/
def IfBlock.continuation? (b : IfBlock) : Option IfBlock :=
  match b.alternate with
  | none => none
  | some f =>
    match f.children.filter (!·.isBlankText) with
    | [.ifBlock next] => if next.elseIf then some next else none
    | _ => none

end TemplateCompiler.Template
