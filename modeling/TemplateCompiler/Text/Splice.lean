/-! # Replacing stretches of a text

Stretches are given by bytes of UTF-8.
-/

namespace TemplateCompiler.Text

structure Edit where
  start : Nat
  stop : Nat
  /-- What the stretch is replaced by. -/
  text : List Char
  deriving DecidableEq, Repr

/-- The characters within the first `n` bytes, and the others. -/
def splitBytes : Nat → List Char → List Char × List Char
  | _, [] => ([], [])
  | n, c :: cs =>
    if c.utf8Size ≤ n then
      let (before, after) := splitBytes (n - c.utf8Size) cs
      (c :: before, after)
    else ([], c :: cs)

/-- Carries out edits, which come in reading order, on the text from byte `pos` on. -/
def splice (pos : Nat) : List Edit → List Char → List Char
  | [], cs => cs
  | e :: es, cs =>
    let (before, rest) := splitBytes (e.start - pos) cs
    let (_, after) := splitBytes (e.stop - e.start) rest
    before ++ e.text ++ splice e.stop es after

end TemplateCompiler.Text
