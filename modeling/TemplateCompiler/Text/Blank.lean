/-! # Blank characters

Markup knows five blank characters. Trimming a piece of text uses the larger set of `White_Space`.
-/

namespace TemplateCompiler.Text

/-- Space, tab, line feed, form feed and carriage return: blank in markup. -/
def isBlank (c : Char) : Bool :=
  c == ' ' || c == '\t' || c == '\n' || c == '\x0c' || c == '\r'

def isNotBlank (c : Char) : Bool := !isBlank c

/-- The code points with the property `White_Space`. -/
def isWhiteSpace (c : Char) : Bool :=
  let n := c.toNat
  (0x09 ≤ n && n ≤ 0x0D) || n == 0x20 || n == 0x85 || n == 0xA0 || n == 0x1680
    || (0x2000 ≤ n && n ≤ 0x200A) || n == 0x2028 || n == 0x2029 || n == 0x202F || n == 0x205F
    || n == 0x3000

/-- The characters without the white space at either end. -/
def trimChars (cs : List Char) : List Char :=
  ((cs.dropWhile isWhiteSpace).reverse.dropWhile isWhiteSpace).reverse

def trim (s : String) : String := String.ofList (trimChars s.toList)

/-- Writes one space for every run of blanks. `afterBlank` says that a blank was just written. -/
def condenseChars (afterBlank : Bool) : List Char → List Char
  | [] => []
  | c :: cs =>
    if isBlank c then
      if afterBlank then condenseChars true cs else ' ' :: condenseChars true cs
    else c :: condenseChars false cs

/-- Every run of blanks becomes one space. -/
def condense (s : String) : String := String.ofList (condenseChars false s.toList)

def isAllBlank (s : String) : Bool := s.toList.all isBlank

end TemplateCompiler.Text
