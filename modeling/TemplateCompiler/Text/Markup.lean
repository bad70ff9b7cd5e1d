/-! # Character references in markup -/

namespace TemplateCompiler.Text

def escapeTextChar (c : Char) : List Char :=
  if c == '&' then "&amp;".toList
  else if c == '<' then "&lt;".toList
  else if c == '>' then "&gt;".toList
  else [c]

/-- Text between tags, written so that no character of it is read as markup. -/
def escapeText (s : String) : String := String.ofList (s.toList.flatMap escapeTextChar)

def escapeAttributeChar (c : Char) : List Char :=
  if c == '&' then "&amp;".toList
  else if c == '\x22' then "&quot;".toList
  else [c]

/-- Text inside a double-quoted attribute value. -/
def escapeAttribute (s : String) : String := String.ofList (s.toList.flatMap escapeAttributeChar)

end TemplateCompiler.Text
