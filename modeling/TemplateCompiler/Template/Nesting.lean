/-! # Nesting of elements

Which tags may stand inside which when a browser reads markup. An element in the wrong place would
be moved elsewhere, so it cannot be part of the markup of its parent.
-/

namespace TemplateCompiler.Template

/-- The only children that a parent accepts. -/
def onlyChildren : List (String × List String) :=
  [("head", ["base", "basefront", "bgsound", "link", "meta", "title", "noscript", "noframes",
      "style", "script", "template"]),
   ("optgroup", ["option"]),
   ("select", ["optgroup", "option", "hr"]),
   ("table", ["caption", "colgroup", "tbody", "tfoot", "thead"]),
   ("tr", ["td", "th"]),
   ("colgroup", ["col"]),
   ("tbody", ["tr"]),
   ("thead", ["tr"]),
   ("tfoot", ["tr"]),
   ("script", []),
   ("iframe", []),
   ("option", []),
   ("textarea", []),
   ("style", []),
   ("title", [])]

/-- The only parents that a child accepts. -/
def onlyParents : List (String × List String) :=
  [("html", []),
   ("body", ["html"]),
   ("head", ["html"]),
   ("td", ["tr"]),
   ("colgroup", ["table"]),
   ("caption", ["table"]),
   ("tbody", ["table"]),
   ("tfoot", ["table"]),
   ("col", ["colgroup"]),
   ("th", ["tr"]),
   ("thead", ["table"]),
   ("tr", ["tbody", "thead", "tfoot"]),
   ("dd", ["dl", "div"]),
   ("dt", ["dl", "div"]),
   ("figcaption", ["figure"]),
   ("summary", ["details"]),
   ("area", ["map"])]

/-- Children that a parent rejects. -/
def rejectedChildren : List (String × List String) :=
  [("p", ["address", "article", "aside", "blockquote", "center", "details", "dialog", "dir", "div",
      "dl", "fieldset", "figure", "footer", "form", "h1", "h2", "h3", "h4", "h5", "h6", "header",
      "hgroup", "hr", "li", "main", "nav", "menu", "ol", "p", "pre", "section", "table", "ul"]),
   ("svg", ["b", "blockquote", "br", "code", "dd", "div", "dl", "dt", "em", "embed", "h1", "h2",
      "h3", "h4", "h5", "h6", "hr", "i", "img", "li", "menu", "meta", "ol", "p", "pre", "ruby",
      "s", "small", "span", "strong", "sub", "sup", "table", "u", "ul", "var"])]

def headings : List String := ["h1", "h2", "h3", "h4", "h5", "h6"]

/-- Parents that a child rejects. -/
def rejectedParents : List (String × List String) :=
  [("a", ["a"]), ("button", ["button"]), ("dd", ["dd", "dt"]), ("dt", ["dd", "dt"]),
   ("form", ["form"]), ("li", ["li"])] ++ headings.map (·, headings)

/-- A browser leaves the child where it stands. A rule about the only accepted children or parents
settles the matter alone. -/
def isValidNesting (parent child : String) : Bool :=
  match onlyChildren.lookup parent, onlyParents.lookup child with
  | some children, _ => children.contains child
  | none, some parents => parents.contains parent
  | none, none =>
    !((rejectedChildren.lookup parent).any (·.contains child)) &&
      !((rejectedParents.lookup child).any (·.contains parent))

end TemplateCompiler.Template
