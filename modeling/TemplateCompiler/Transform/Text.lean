import TemplateCompiler.Text.Markup
import TemplateCompiler.Transform.Names

/-! # Texts

An element that holds only text and interpolations has its text set as a whole. Elsewhere a run of
them that begins with an interpolation becomes one text of its own.
-/

namespace TemplateCompiler

open Template (Element Node)
open Transform

/-- The values of text and interpolations. -/
def textValues (o : Options) (s : Session) : List Node → Except Diagnostic (List Expression)
  | [] => .ok []
  | .text t :: ns => do return Expression.static t.data t.location :: (← textValues o s ns)
  | .interpolation c :: ns => do
    let value ← (Expression.ofCode c).qualified o s
    return value :: (← textValues o s ns)
  | _ :: ns => textValues o s ns

/-- The texts that the values always have, as markup. -/
def literalMarkup? (values : List Expression) : Option (List String) :=
  values.mapM fun v => v.literalValue?.map Text.escapeText

/-- Sets the content of an element to the markup that an expression yields. -/
def setMarkup (o : Options) (c : Template.Code) : Transform Unit := do
  let value ← qualify o (.ofCode c)
  let element ← reference
  modify fun ctx => { ctx with consumedChildren := 1 }
  registerEffect [value] (.setHtml element value)

/-- Sets the text of an element, or writes it into its markup if it never changes. -/
def setText (o : Options) (children : List Node) : Transform Unit := do
  let values ← ofExcept (textValues o (← getSession) children)
  modify fun ctx => { ctx with consumedChildren := children.length }
  match literalMarkup? values with
  | some childrenTemplate => modify fun ctx => { ctx with childrenTemplate }
  | none =>
    let element ← reference
    registerEffect values (.setText element values)

def transformContainer (o : Options) (e : Element) : Transform Unit := do
  match e.children with
  | [.rawMarkup c] => setMarkup o c
  | children =>
    if children.all (·.isTextLike) && children.any (·.isInterpolation) then setText o children

/-- Makes one text of the interpolation and the text-like nodes after it. -/
def createText (o : Options) (frame : Frame) : Transform Unit := do
  let index := (← get).index
  let nodes := (frame.children.drop index).takeWhile (·.isTextLike)
  modify fun ctx => { ctx with parent := some (frame.consumeUntil (index + nodes.length)) }
  let values ← ofExcept (textValues o (← getSession) nodes)
  let id ← reference
  setFlags .inserted
  registerOperation (.createText id values !(values.all (·.isConstant)))

/-- The pass for text. -/
def transformText (o : Options) : Transform Unit := do
  let ctx ← get
  if ctx.parent.any (ctx.index < ·.consumedUntil) then setFlags { nonTemplate := true }
  else
    match ctx.node with
    | .element e => if e.kind == .regular then transformContainer o e
    | .interpolation _ => ctx.parent.forM (createText o)
    | .rawMarkup c =>
      throw (.notImplemented "\x7b@html\x7d outside of a single-child element" c.location)
    | .text t => appendTemplate (Text.escapeText t.data)
    | .comment data _ => if o.comments then appendTemplate ("<!--" ++ data ++ "-->") else removeNode
    | _ => return

end TemplateCompiler
