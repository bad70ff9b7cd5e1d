import TemplateCompiler.Template.Node

/-! # Condensing of blanks

Blank text at the end of a list of nodes, or on a line break between elements, is layout and goes
away. Every other run of blanks becomes a space. Preformatted elements stay as they are.
-/

namespace TemplateCompiler.Template

def hasLineBreak (s : String) : Bool := s.toList.any fun c => c == '\n' || c == '\r'

/-- A node goes away, given its neighbours in the list. -/
def isLayout (before : Option Node) (n : Node) (after : Option Node) : Bool :=
  match n with
  | .text t =>
    Text.isAllBlank t.data &&
      (before.isNone || after.isNone ||
        (before.any (·.isMarkup) && after.any (·.isMarkup) && hasLineBreak t.data))
  | _ => false

mutual

def Node.condense : Node → Node
  | .text t => .text { t with data := Text.condense t.data }
  | .element e => .element e.condense
  | .fragment f => .fragment f.condense
  | .ifBlock b => .ifBlock b.condense
  | .eachBlock b => .eachBlock b.condense
  | .keyBlock code body location => .keyBlock code body.condense location
  | n => n

def Fragment.condense : Fragment → Fragment
  | ⟨children, location⟩ => ⟨condenseNodes none children, location⟩

def Element.condense : Element → Element
  | ⟨name, kind, attributes, children, location⟩ =>
    ⟨name, kind, attributes,
      if isPreformattedTag name then children else condenseNodes none children, location⟩

def IfBlock.condense : IfBlock → IfBlock
  | ⟨test, consequent, alternate, elseIf, location⟩ =>
    ⟨test, consequent.condense, condenseOptional alternate, elseIf, location⟩

def EachBlock.condense : EachBlock → EachBlock
  | ⟨subject, context, index, key, body, fallback, location⟩ =>
    ⟨subject, context, index, key, body.condense, condenseOptional fallback, location⟩

def condenseOptional : Option Fragment → Option Fragment
  | none => none
  | some f => some f.condense

/-- The nodes after `before`. -/
def condenseNodes (before : Option Node) : List Node → List Node
  | [] => []
  | n :: ns =>
    let rest := condenseNodes (some n) ns
    if isLayout before n ns.head? then rest else n.condense :: rest

end

end TemplateCompiler.Template
