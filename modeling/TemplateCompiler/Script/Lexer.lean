import TemplateCompiler.Text.Identifier
import TemplateCompiler.Script.Token

/-! # Reading tokens

A token is read from the front of a list of characters. A reading function returns what is left,
or nothing when the characters are not what it reads.
-/

namespace TemplateCompiler.Script

open Text (isIdentStart isIdentPart)

/-! ## Characters -/

/-- Line feed, carriage return, line separator and paragraph separator. -/
def isLineBreak (c : Char) : Bool :=
  c == '\n' || c == '\r' || c.toNat == 0x2028 || c.toNat == 0x2029

/-- White space other than line breaks. -/
def isSpace (c : Char) : Bool :=
  let n := c.toNat
  n == 0x20 || n == 0x09 || n == 0x0B || n == 0x0C || n == 0x85 || n == 0xA0 || n == 0x1680
    || (0x2000 ≤ n && n ≤ 0x200B) || n == 0x202F || n == 0x205F || n == 0x3000 || n == 0xFEFF

def utf8Length (cs : List Char) : Nat := cs.foldl (fun n c => n + c.utf8Size) 0

/-- How many bytes were read when `rest` is what is left of `cs`. -/
def bytesRead (cs rest : List Char) : Nat := utf8Length (cs.take (cs.length - rest.length))

/-- The characters that were read when `rest` is what is left of `cs`. -/
def textRead (cs rest : List Char) : String := String.ofList (cs.take (cs.length - rest.length))

/-! ## Between tokens -/

inductive Gap
  | plain
  | lineComment
  | blockComment

/-- Skips white space and comments. Returns the byte offset reached, whether a line break was
passed, and what is left; nothing if a comment does not end. -/
def skipGap : Gap → List Char → Nat → Bool → Option (Nat × Bool × List Char)
  | .plain, '/' :: '/' :: cs, n, nl => skipGap .lineComment cs (n + 2) nl
  | .plain, '/' :: '*' :: cs, n, nl => skipGap .blockComment cs (n + 2) nl
  | .plain, c :: cs, n, nl =>
    if isLineBreak c then skipGap .plain cs (n + c.utf8Size) true
    else if isSpace c then skipGap .plain cs (n + c.utf8Size) nl
    else some (n, nl, c :: cs)
  | .lineComment, c :: cs, n, nl =>
    if isLineBreak c then skipGap .plain cs (n + c.utf8Size) true
    else skipGap .lineComment cs (n + c.utf8Size) nl
  | .blockComment, '*' :: '/' :: cs, n, nl => skipGap .plain cs (n + 2) nl
  | .blockComment, c :: cs, n, nl => skipGap .blockComment cs (n + c.utf8Size) (nl || isLineBreak c)
  | .blockComment, [], _, _ => none
  | _, [], n, nl => some (n, nl, [])

/-! ## Escapes -/

def hexValue? (c : Char) : Option Nat :=
  let n := c.toNat
  if 48 ≤ n && n ≤ 57 then some (n - 48)
  else if 97 ≤ n && n ≤ 102 then some (n - 87)
  else if 65 ≤ n && n ≤ 70 then some (n - 55)
  else none

/-- Hexadecimal digits up to a closing brace, at least one of them and none beyond the last code
point. -/
def bracedCode? : Option Nat → List Char → Option (Nat × List Char)
  | some n, '\x7d' :: cs => some (n, cs)
  | acc, c :: cs => do
    let d ← hexValue? c
    let n := acc.getD 0 * 16 + d
    if n ≤ 0x10FFFF then bracedCode? (some n) cs else none
  | _, [] => none

/-- Four hexadecimal digits. -/
def fourHex? : List Char → Option (Nat × List Char)
  | a :: b :: c :: d :: cs => do
    let a ← hexValue? a
    let b ← hexValue? b
    let c ← hexValue? c
    let d ← hexValue? d
    some (((a * 16 + b) * 16 + c) * 16 + d, cs)
  | _ => none

/-- The code point written after `\u`. -/
def unicodeEscape? : List Char → Option (Nat × List Char)
  | '\x7b' :: cs => bracedCode? none cs
  | cs => fourHex? cs

def isHighSurrogate (n : Nat) : Bool := 0xD800 ≤ n && n ≤ 0xDBFF

def isLowSurrogate (n : Nat) : Bool := 0xDC00 ≤ n && n ≤ 0xDFFF

/-- The character written after `\u` in a string, where two surrogates make one character. -/
def stringCodePoint? (cs : List Char) : Option (Char × List Char) := do
  let (high, rest) ← unicodeEscape? cs
  if isHighSurrogate high then
    match rest with
    | '\\' :: 'u' :: more =>
      match fourHex? more with
      | some (low, after) =>
        if isLowSurrogate low then
          some (Char.ofNat (0x10000 + (high - 0xD800) * 0x400 + (low - 0xDC00)), after)
        else some ('\ufffd', rest)
      | none => some ('\ufffd', rest)
    | _ => some ('\ufffd', rest)
  else if isLowSurrogate high then some ('\ufffd', rest)
  else some (Char.ofNat high, rest)

def isOctal (c : Char) : Bool := '0' ≤ c && c ≤ '7'

def octalValue (cs : List Char) : Nat := cs.foldl (fun n c => n * 8 + (c.toNat - 48)) 0

/-- An octal escape: up to three digits, two if the first is above `3`. -/
def octalEscape (first : Char) (cs : List Char) : Char × List Char :=
  let room := if first ≤ '3' then 2 else 1
  let more := (cs.take room).takeWhile isOctal
  (Char.ofNat (octalValue (first :: more)), cs.drop more.length)

/-- Escapes of one letter. -/
def singleEscapes : List (Char × Char) :=
  [('b', '\x08'), ('f', '\x0c'), ('n', '\n'), ('r', '\r'), ('t', '\t'), ('v', '\x0b')]

/-- What an escape stands for, read after the backslash. A line break stands for nothing. Octal
escapes have a meaning only when `octal` allows them. -/
def escape? (octal : Bool) : List Char → Option (List Char × List Char)
  | [] => none
  | '\r' :: '\n' :: cs => some ([], cs)
  | 'x' :: cs =>
    match cs with
    | a :: b :: rest => do
      let a ← hexValue? a
      let b ← hexValue? b
      some ([Char.ofNat (a * 16 + b)], rest)
    | _ => none
  | 'u' :: cs => (stringCodePoint? cs).map fun (d, rest) => ([d], rest)
  | c :: cs =>
    let digitNext := (cs.head?.map Char.isDigit).getD false
    if isLineBreak c then some ([], cs)
    else if let some d := singleEscapes.lookup c then some ([d], cs)
    else if c == '0' && !digitNext then some (['\x00'], cs)
    else if octal && isOctal c then
      let (d, rest) := octalEscape c cs
      some ([d], rest)
    else if !octal && c.isDigit then none
    else some ([c], cs)

/-! ## Names -/

/-- The characters of a name and whether an escape was used. `start` asks for a character that may
begin a name. -/
def nameChars? : Nat → Bool → List Char → Option (List Char × Bool × List Char)
  | 0, _, cs => some ([], false, cs)
  | _ + 1, _, [] => some ([], false, [])
  | fuel + 1, start, c :: cs =>
    let fits := if start then isIdentStart else isIdentPart
    if c == '\\' then
      match cs with
      | 'u' :: code => do
        let (n, rest) ← unicodeEscape? code
        let d := Char.ofNat n
        if n == d.toNat && fits d then
          let (ds, _, rest) ← nameChars? fuel false rest
          some (d :: ds, true, rest)
        else none
      | _ => none
    else if fits c then do
      let (ds, escaped, rest) ← nameChars? fuel false cs
      some (c :: ds, escaped, rest)
    else some ([], false, c :: cs)

/-- A name of at least one character. -/
def name? (cs : List Char) : Option (String × Bool × List Char) :=
  match nameChars? (cs.length + 1) true cs with
  | some (d :: ds, escaped, rest) => some (String.ofList (d :: ds), escaped, rest)
  | _ => none

/-! ## Numbers -/

/-- Skips digits, between which single underscores may stand. -/
def moreDigits? (isDigit : Char → Bool) : List Char → Option (List Char)
  | '_' :: c :: cs => if isDigit c then moreDigits? isDigit cs else none
  | ['_'] => none
  | c :: cs => if isDigit c then moreDigits? isDigit cs else some (c :: cs)
  | [] => some []

/-- Skips digits, of which there must be one. -/
def digits? (isDigit : Char → Bool) : List Char → Option (List Char)
  | c :: cs => if isDigit c then moreDigits? isDigit cs else none
  | [] => none

def optionalDigits? : List Char → Option (List Char)
  | c :: cs => if c.isDigit then moreDigits? Char.isDigit cs else some (c :: cs)
  | [] => some []

def optionalExponent? : List Char → Option (List Char)
  | c :: cs =>
    if c == 'e' || c == 'E' then
      match cs with
      | s :: rest => digits? Char.isDigit (if s == '+' || s == '-' then rest else s :: rest)
      | [] => none
    else some (c :: cs)
  | [] => some []

/-- Digits and exponent after a decimal point. -/
def fraction? (cs : List Char) : Option (List Char) := do
  optionalExponent? (← optionalDigits? cs)

/-- A number in another base after its two leading characters, perhaps with the big-integer
suffix. -/
def basedNumber? (isDigit : Char → Bool) (cs : List Char) : Option (Bool × List Char) := do
  match ← digits? isDigit cs with
  | 'n' :: rest => some (true, rest)
  | rest => some (false, rest)

def isBinary (c : Char) : Bool := c == '0' || c == '1'

def isHex (c : Char) : Bool := (hexValue? c).isSome

/-- A number that begins with zero and another digit: octal unless a digit above seven occurs. -/
def oldOctal? (cs : List Char) : Option (List Char) :=
  let rest := cs.dropWhile Char.isDigit
  if (cs.takeWhile Char.isDigit).all isOctal then some rest
  else
    match rest with
    | '.' :: more => fraction? more
    | _ => optionalExponent? rest

/-- The characters of a number; whether it is a big integer, and what is left. -/
def numberChars? : List Char → Option (Bool × List Char)
  | '0' :: c :: cs =>
    if c == 'b' || c == 'B' then basedNumber? isBinary cs
    else if c == 'o' || c == 'O' then basedNumber? isOctal cs
    else if c == 'x' || c == 'X' then basedNumber? isHex cs
    else if c.isDigit then (oldOctal? (c :: cs)).map (false, ·)
    else if c == '.' then (fraction? cs).map (false, ·)
    else if c == 'n' then some (true, cs)
    else (optionalExponent? (c :: cs)).map (false, ·)
  | '.' :: cs => do some (false, ← optionalExponent? (← digits? Char.isDigit cs))
  | cs => do
    match ← digits? Char.isDigit cs with
    | '.' :: rest => (fraction? rest).map (false, ·)
    | 'n' :: rest => some (true, rest)
    | rest => (optionalExponent? rest).map (false, ·)

/-- A number, after which neither a digit nor a name may follow at once. -/
def number? (cs : List Char) : Option (Lexeme × List Char) := do
  let (big, rest) ← numberChars? cs
  let text := textRead cs rest
  let joined := match rest with
    | c :: _ => c.isDigit || isIdentStart c
    | [] => false
  if joined then none
  else some (if big then .bigint text else .number text, rest)

/-! ## Strings, templates and regular expressions -/

/-- The value of a string up to its closing quote, and whether an escape in it means nothing. -/
def stringChars? (quote : Char) : Nat → List Char → Option (List Char × Bool × List Char)
  | 0, _ => none
  | _ + 1, [] => none
  | fuel + 1, c :: cs =>
    if c == quote then some ([], false, cs)
    else if c == '\n' || c == '\r' then none
    else if c == '\\' then
      match escape? true cs with
      | some (ds, rest) => do
        let (value, flawed, rest) ← stringChars? quote fuel rest
        some (ds ++ value, flawed, rest)
      | none => do
        let (value, _, rest) ← stringChars? quote fuel (cs.drop 1)
        some (value, true, rest)
    else do
      let (value, flawed, rest) ← stringChars? quote fuel cs
      some (c :: value, flawed, rest)

/-- A piece of a template literal: its value unless an escape has none, and whether it is the
last one. -/
def templateChars? : Nat → List Char → Option (Option (List Char) × Bool × List Char)
  | 0, _ => none
  | _ + 1, [] => none
  | fuel + 1, c :: cs =>
    let continueWith (ds rest : List Char) := do
      let (value, last, rest) ← templateChars? fuel rest
      some (value.map (ds ++ ·), last, rest)
    if c == '\x60' then some (some [], true, cs)
    else if c == '$' && cs.head? == some '\x7b' then some (some [], false, cs.drop 1)
    else if c == '\r' then
      continueWith ['\n'] (if cs.head? == some '\n' then cs.drop 1 else cs)
    else if c == '\\' then
      match escape? false cs with
      | some (ds, rest) => continueWith ds rest
      | none =>
        match cs with
        | [] => none
        | _ :: rest => do
          let (_, last, rest) ← templateChars? fuel rest
          some (none, last, rest)
    else continueWith [c] cs

/-- A piece of a template literal, read after its opening backquote or brace. -/
def template? (cs : List Char) : Option (Lexeme × List Char) := do
  let (value, last, rest) ← templateChars? (cs.length + 1) cs
  some (.template (value.map String.ofList) last, rest)

/-- Skips the body of a regular expression and its closing slash. -/
def regexBody? (inClass escaped : Bool) : List Char → Option (List Char)
  | [] => none
  | c :: cs =>
    if isLineBreak c then none
    else if escaped then regexBody? inClass false cs
    else if c == '/' && !inClass then some cs
    else if c == '[' then regexBody? true false cs
    else if c == ']' then regexBody? false false cs
    else regexBody? inClass (c == '\\') cs

/-- Skips a regular expression after its opening slash. Flags are distinct letters, `u` and `v`
not together. -/
def regex? (cs : List Char) : Option (List Char) := do
  let rest ← regexBody? false false cs
  let flags := rest.takeWhile fun c => Text.isWordChar c || c == '$'
  if flags.all ("dgimsuvy".toList.contains ·) && flags.Nodup
      && !(flags.contains 'u' && flags.contains 'v') then
    some (rest.drop flags.length)
  else none

/-! ## Tokens -/

/-- The longest punctuator. A question mark and a point before a digit are two tokens. -/
def punct? (cs : List Char) : Option (Lexeme × List Char) :=
  match cs with
  | '?' :: '.' :: d :: _ =>
    if d.isDigit then some (.punct .question, cs.drop 1) else some (.punct .questionDot, cs.drop 2)
  | _ => do
    let (spelling, p) ← punctuators.find? fun (spelling, _) => spelling.isPrefixOf cs
    some (.punct p, cs.drop spelling.length)

/-- A lexeme, whether it is flawed, and what follows it. -/
abbrev Scan := Lexeme × Bool × List Char

/-- A name, or one with an escape that means nothing. -/
def scanName (cs : List Char) (lexeme : String → Bool → Lexeme) : Scan :=
  match name? cs with
  | some (text, escaped, rest) => (lexeme text escaped, false, rest)
  | none => (lexeme "" true, true, [])

/-- A number. One whose digits are not separated as they should be is flawed; one that has none, or
that something follows at once, is no token. -/
def scanNumber (cs : List Char) : Scan :=
  match number? cs with
  | some (lexeme, rest) => (lexeme, false, rest)
  | none =>
    let unfinished := (numberChars? cs).isNone && (cs.drop 1).head?.any fun c =>
      !(c == 'b' || c == 'B' || c == 'o' || c == 'O' || c == 'x' || c == 'X')
    (if unfinished then .number "" else .invalid, true, [])

def scanString (quote : Char) (cs : List Char) : Scan :=
  match stringChars? quote (cs.length + 1) cs with
  | some (value, flawed, rest) => (.string (String.ofList value), flawed, rest)
  | none => (.invalid, true, [])

def scanOther (scanned : Option (Lexeme × List Char)) : Scan :=
  match scanned with
  | some (lexeme, rest) => (lexeme, false, rest)
  | none => (.invalid, true, [])

/-- The character begins a name. -/
def beginsName (c : Char) : Bool := c == '\\' || isIdentStart c

/-- The lexeme at the front of `cs`, which begins at the byte `offset`. -/
def scan (offset : Nat) (cs : List Char) : Scan :=
  match cs with
  | [] => (.eof, false, [])
  | '#' :: rest =>
    if offset == 0 && rest.head? == some '!' then
      (.hashbang, false, rest.dropWhile (!isLineBreak ·))
    else if rest.head?.any beginsName then scanName rest fun text _ => .privateName text
    else (.invalid, true, [])
  | '\x60' :: rest => scanOther (template? rest)
  | '.' :: d :: rest => if d.isDigit then scanNumber ('.' :: d :: rest) else scanOther (punct? cs)
  | c :: rest =>
    if c == '\x22' || c == '\x27' then scanString c rest
    else if c.isDigit then scanNumber cs
    else if beginsName c then scanName cs .name
    else scanOther (punct? cs)

/-- The next token and what follows it. A comment that does not end ends the text. -/
def nextTokenOf (offset : Nat) (cs : List Char) : Token × List Char :=
  match skipGap .plain cs offset false with
  | none =>
    ({ lexeme := .eof, start := offset, stop := offset, newline := false, flawed := true }, [])
  | some (start, newline, cs) =>
    let (lexeme, flawed, rest) := scan start cs
    ({ lexeme, start, stop := start + bytesRead cs rest, newline, flawed }, rest)

end TemplateCompiler.Script
