/-! # Tokens of a script -/

namespace TemplateCompiler.Script

/-- Punctuators. All compound assignments but `/=` are one punctuator, since no rule of the grammar
tells them apart. -/
inductive Punct
  | lbrace | rbrace | lparen | rparen | lbracket | rbracket
  | dot | ellipsis | semicolon | comma | colon | question | questionDot | arrow | at
  | assign | compoundAssign | slashAssign
  | plusPlus | minusMinus | bang | tilde
  | plus | minus | star | slash | percent | starStar
  | shiftLeft | shiftRight | shiftRightZero
  | less | greater | lessEq | greaterEq
  | eqEq | notEq | eqEqEq | notEqEq
  | amp | bar | caret | ampAmp | barBar | coalesce
  deriving DecidableEq, Repr, Inhabited

/-- Spellings, a longer one before each of its beginnings. -/
def punctuators : List (List Char × Punct) :=
  [(">>>=", Punct.compoundAssign), ("...", .ellipsis), ("===", .eqEqEq), ("!==", .notEqEq),
   ("**=", .compoundAssign), ("<<=", .compoundAssign), (">>=", .compoundAssign),
   (">>>", .shiftRightZero), ("&&=", .compoundAssign), ("||=", .compoundAssign),
   ("??=", .compoundAssign), ("=>", .arrow), ("==", .eqEq), ("!=", .notEq), ("<=", .lessEq),
   (">=", .greaterEq), ("&&", .ampAmp), ("||", .barBar), ("??", .coalesce), ("?.", .questionDot),
   ("++", .plusPlus), ("--", .minusMinus), ("+=", .compoundAssign), ("-=", .compoundAssign),
   ("*=", .compoundAssign), ("/=", .slashAssign), ("%=", .compoundAssign),
   ("&=", .compoundAssign), ("|=", .compoundAssign), ("^=", .compoundAssign),
   ("<<", .shiftLeft), (">>", .shiftRight), ("**", .starStar), ("\x7b", .lbrace),
   ("\x7d", .rbrace), ("(", .lparen), (")", .rparen), ("[", .lbracket), ("]", .rbracket),
   (".", .dot), (";", .semicolon), (",", .comma), (":", .colon), ("?", .question), ("@", .at),
   ("=", .assign), ("!", .bang), ("~", .tilde), ("+", .plus), ("-", .minus), ("*", .star),
   ("/", .slash), ("%", .percent), ("<", .less), (">", .greater), ("&", .amp), ("|", .bar),
   ("^", .caret)].map fun (s, p) => (s.toList, p)

/-- What a token is, apart from where it stands. -/
inductive Lexeme
  | punct (p : Punct)
  /-- An identifier or a keyword; `escaped` when an escape was used to write it. -/
  | name (text : String) (escaped : Bool)
  | privateName (text : String)
  | number (text : String)
  | bigint (text : String)
  | string (value : String)
  /-- A piece of a template literal with its value, if its escapes have one. `last` when it ends
  with a backquote rather than before a substitution. -/
  | template (value : Option String) (last : Bool)
  /-- A `#!` line. -/
  | hashbang
  /-- Characters that form no token. -/
  | invalid
  | eof
  deriving DecidableEq, Repr, Inhabited

/-- A token with its bytes `start` to `stop`; `newline` when a line break precedes it, `flawed` when
it is not written as it should be. -/
structure Token where
  lexeme : Lexeme
  start : Nat
  stop : Nat
  newline : Bool
  flawed : Bool := false
  deriving DecidableEq, Repr, Inhabited

namespace Token

def isPunct (t : Token) (p : Punct) : Bool := t.lexeme == .punct p

/-- The token is the word `w`, however it is written. -/
def isWord (t : Token) (w : String) : Bool :=
  match t.lexeme with
  | .name text _ => text == w
  | _ => false

def isEscaped (t : Token) : Bool :=
  match t.lexeme with
  | .name _ escaped => escaped
  | _ => false

def word? (t : Token) : Option String :=
  match t.lexeme with
  | .name text _ => some text
  | _ => none

/-- No text can be read from this token on. -/
def isEnd (t : Token) : Bool := t.lexeme == .eof || t.lexeme == .invalid

end Token

/-! ## Words -/

/-- Words that are never identifiers. -/
def reservedWords : List String :=
  ["break", "case", "catch", "class", "const", "continue", "debugger", "default", "delete", "do",
   "else", "enum", "export", "extends", "false", "finally", "for", "function", "if", "import",
   "in", "instanceof", "new", "null", "return", "super", "switch", "this", "throw", "true", "try",
   "typeof", "var", "void", "while", "with"]

def isReserved (w : String) : Bool := reservedWords.contains w

/-- Words that no import may bind. -/
def unimportableWords : List String := reservedWords ++ ["await", "yield"]

/-- Words that no list of exported names may mention. -/
def unexportableWords : List String :=
  unimportableWords ++ ["implements", "interface", "package", "private", "protected", "public",
    "static"]

/-- Words that are identifiers, but mean something of their own in some places. -/
def contextualWords : List String :=
  ["abstract", "accessor", "any", "as", "assert", "asserts", "async", "await", "bigint", "boolean",
   "constructor", "declare", "defer", "from", "get", "global", "implements", "infer", "interface",
   "intrinsic", "is", "keyof", "let", "meta", "module", "namespace", "never", "number", "object",
   "of", "out", "override", "package", "private", "protected", "public", "readonly", "require",
   "satisfies", "set", "source", "static", "string", "symbol", "target", "type", "undefined",
   "unique", "unknown", "using", "yield"]

/-- The token may name a variable, `await` and `yield` included. -/
def Token.isIdentifier (t : Token) : Bool :=
  match t.lexeme with
  | .name text _ => !isReserved text
  | _ => false

/-- The token is a name and means nothing else anywhere. -/
def Token.isPlainName (t : Token) : Bool :=
  t.isIdentifier && !t.word?.any contextualWords.contains

end TemplateCompiler.Script
