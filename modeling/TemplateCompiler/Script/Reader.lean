import TemplateCompiler.Script.Lexer
import TemplateCompiler.Script.Tree

/-! # Reading a script

A reader looks at one token at a time. It fails when no reading is possible; a mistake that leaves
the reading possible is noted, and rejects the script once it has been read.
-/

namespace TemplateCompiler.Script

structure ReaderState where
  token : Token
  /-- The text after the token. -/
  rest : List Char
  /-- A mistake has been noted. -/
  faulty : Bool := false
  /-- Shorthand defaults that no assignment has justified yet. -/
  openDefaults : Nat := 0

abbrev Reader (α : Type) := StateT ReaderState Option α

namespace Reader

def fail {α : Type} : Reader α := fun _ => none

def token : Reader Token := do return (← get).token

/-- Notes a mistake. -/
def complain : Reader Unit := modify fun s => { s with faulty := true }

def complainIf (mistake : Bool) : Reader Unit := do if mistake then complain

def advance : Reader Unit := modify fun s =>
  let (token, rest) := nextTokenOf s.token.stop s.rest
  { s with token, rest, faulty := s.faulty || token.flawed }

/-- What `r` would read, without reading it. -/
def peek {α : Type} (r : Reader α) : Reader (Option α) := fun s =>
  some ((r s).map Prod.fst, s)

/-- Reads `r` if that is possible. -/
def attempt {α : Type} (r : Reader α) : Reader (Option α) := fun s =>
  match r s with
  | some (a, s) => some (some a, s)
  | none => some (none, s)

/-- The token after the current one. -/
def nextToken : Reader Token := do
  let s ← get
  return (nextTokenOf s.token.stop s.rest).1

/-! ## Punctuators and words -/

def isAt (p : Punct) : Reader Bool := do return (← token).isPunct p

def isAtWord (w : String) : Reader Bool := do return (← token).isWord w

def accept (p : Punct) : Reader Bool := do
  if ← isAt p then
    advance
    return true
  return false

def expect (p : Punct) : Reader Unit := do
  if ← isAt p then advance else fail

/-- Passes a word that acts as a keyword, which must be written without escapes. -/
def passWord : Reader Unit := do
  complainIf (← token).isEscaped
  advance

def acceptWord (w : String) : Reader Bool := do
  if ← isAtWord w then
    passWord
    return true
  return false

def expectWord (w : String) : Reader Unit := do
  if ← isAtWord w then passWord else fail

/-- Passes any word. -/
def anyWord : Reader Ident := do
  let t ← token
  match t.word? with
  | some name =>
    advance
    return { name, start := t.start, stop := t.stop }
  | none => fail

/-- Passes a string literal. -/
def stringLiteral : Reader String := do
  match (← token).lexeme with
  | .string value =>
    advance
    return value
  | _ => fail

/-- A statement may end before this token. -/
def endsStatement (t : Token) : Bool :=
  t.newline || t.isPunct .semicolon || t.isPunct .rbrace || t.lexeme == .eof

/-- A statement ends with a semicolon, before a closing brace, at a line break, or with the
script. -/
def endStatement : Reader Unit := do
  let t ← token
  if t.isPunct .semicolon then advance
  else if endsStatement t then return
  else fail

/-! ## Lists -/

/-- Items between commas up to `close`, which is not passed; whether a comma precedes it. Reads at
most as many items as the last argument says. -/
def commaList {α : Type} (close : Punct) (item : Reader α) : Nat → Reader (List α × Bool)
  | 0 => fail
  | n + 1 => do
    if ← isAt close then return ([], false)
    let a ← item
    if ← isAt close then return ([a], false)
    expect .comma
    if ← isAt close then return ([a], true)
    let (as, trailing) ← commaList close item n
    return (a :: as, trailing)

/-- One item or more between commas. -/
def commaItems {α : Type} (item : Reader α) : Nat → Reader (List α)
  | 0 => fail
  | n + 1 => do
    let a ← item
    if ← accept .comma then return a :: (← commaItems item n)
    return [a]

/-- Items up to a token that satisfies `stop`. -/
def itemsUntil {α : Type} (stop : Token → Bool) (item : Reader α) : Nat → Reader (List α)
  | 0 => fail
  | n + 1 => do
    if stop (← token) then return []
    let a ← item
    return a :: (← itemsUntil stop item n)

end Reader

end TemplateCompiler.Script
