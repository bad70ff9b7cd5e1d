import TemplateCompiler.Script.Grammar.Basic

/-! # Words before a name

Some words modify what comes after them, unless they are themselves the name that is expected.
-/

namespace TemplateCompiler.Script

open Reader

/-- Passes `w` if it precedes a name rather than being one. `sameLine` asks for the name on the same
line, `star` lets an asterisk stand before it. -/
def modifier (w : String) (sameLine star : Bool) : Reader Bool := do
  if ← isAtWord w then
    let next ← nextToken
    let leads := next.startsPropertyName || (star && next.isPunct .star)
    if leads && !(sameLine && next.newline) then
      passWord
      return true
  return false

/-! ## Modifiers of classes and of their members -/

/-- Modifiers that say who may use a member. -/
def accessWords : List String := ["private", "protected", "public"]

def modifierWords : List String :=
  accessWords ++ ["abstract", "accessor", "async", "const", "declare", "in", "out", "override",
    "readonly", "static"]

/-- The token after a modifier may be this one. -/
def Token.followsModifier (t : Token) : Bool :=
  t.startsPropertyName || t.isPunct .lbrace || t.isPunct .star || t.isPunct .ellipsis

/-- A modifier comes next. `const` is one only for a member. The name follows on the same line, but
after `static` and `accessor` it may stand on another. -/
def modifierFollows (ofMember : Bool) (seen : List String) : Reader Bool := do
  match (← token).word? with
  | none => return false
  | some w =>
    let next ← nextToken
    if !modifierWords.contains w || !next.followsModifier then return false
    if w == "static" then
      return !seen.contains w && !(ofMember && next.isPunct .lbrace)
    return w == "accessor" || (!next.newline && (ofMember || w != "const"))

/-- The modifiers that come next, after those `seen` already. None may be repeated. -/
def modifiersAfter (ofMember : Bool) : Nat → List String → Reader (List String)
  | 0, _ => fail
  | n + 1, seen => do
    if ← modifierFollows ofMember seen then
      let w := ((← token).word?).getD ""
      complainIf (w == "const" || seen.contains w ||
        (accessWords.contains w && seen.any accessWords.contains))
      passWord
      modifiersAfter ofMember n (seen ++ [w])
    else return seen

/-- Modifiers before a declaration. -/
def declarationModifiers (bound : Nat) : Reader (List String) := modifiersAfter false bound []

/-- Notes a modifier that the declaration cannot have. -/
def checkModifiers (allowed found : List String) : Reader Unit :=
  complainIf !found.all allowed.contains

end TemplateCompiler.Script
