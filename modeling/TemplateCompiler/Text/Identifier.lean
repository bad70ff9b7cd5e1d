import TemplateCompiler.Text.IdentifierRuns

/-! # Identifier characters -/

namespace TemplateCompiler.Text

/-- Whether place `n` is in a run that counts, where every other run does. -/
def inRuns (counts : Bool) : List Nat → Nat → Bool
  | [], _ => false
  | run :: runs, n => if n < run then counts else inRuns (!counts) runs (n - run)

/-- Whether the character above ASCII has the property with these runs. -/
def hasProperty (runs : List Nat) (c : Char) : Bool := inRuns false runs (c.toNat - 0x80)

/-- ASCII letters, digits, `$` and `_`. -/
def isWordChar (c : Char) : Bool := c.isAlphanum || c == '$' || c == '_'

/-- A character that may begin an identifier. -/
def isIdentStart (c : Char) : Bool :=
  if c.toNat < 0x80 then c.isAlpha || c == '$' || c == '_'
  else hasProperty idStartRuns c

/-- A character that may stand in an identifier after the first one. -/
def isIdentPart (c : Char) : Bool :=
  if c.toNat < 0x80 then isWordChar c
  else
    hasProperty idStartRuns c || hasProperty idContinueOnlyRuns c
      || c.toNat == 0x200C || c.toNat == 0x200D

/-- An ASCII identifier, which may be an object key without quotes. -/
def isSimpleIdentifier (s : String) : Bool :=
  match s.toList with
  | [] => false
  | c :: cs => (c :: cs).all isWordChar && !c.isDigit

end TemplateCompiler.Text
