/-! # Tags -/

namespace TemplateCompiler.Template

/-- Elements that have no content and no end tag. -/
def voidTags : List String :=
  ["area", "base", "br", "col", "embed", "hr", "img", "input", "link", "meta", "param", "source",
   "track", "wbr"]

def isVoidTag (tag : String) : Bool := voidTags.contains tag

/-- Equality up to the case of ASCII letters. -/
def eqIgnoringCase (s t : String) : Bool :=
  s.toList.map Char.toLower == t.toList.map Char.toLower

/-- Elements whose blanks are content, in any letter case. -/
def isPreformattedTag (tag : String) : Bool :=
  eqIgnoringCase tag "pre" || eqIgnoringCase tag "textarea"

inductive ElementKind
  | regular
  | component
  /-- The place where a component shows what it was given. -/
  | slotOutlet
  /-- An element addressed to the compiler. -/
  | special
  deriving DecidableEq, Repr, Inhabited

/-- The kind of element that a tag stands for. -/
def ElementKind.ofTag (tag : String) : ElementKind :=
  if "svelte:".toList.isPrefixOf tag.toList then .special
  else if tag == "slot" then .slotOutlet
  else if tag.toList.contains '.' || tag.toList.head?.any Char.isUpper then .component
  else .regular

end TemplateCompiler.Template
