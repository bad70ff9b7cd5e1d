/-! # Syntax trees of scripts

Trees keep what names and scopes depend on. Parentheses, labels, decorators and the options of
imports leave no trace, and an operation is a `Form` over its operands in reading order.
-/

namespace TemplateCompiler.Script

/-- An identifier as it stands in a script: its name, and the bytes it is written in. -/
structure Ident where
  name : String
  start : Nat
  stop : Nat
  deriving DecidableEq, Repr, Inhabited

/-- How a name came to be declared. -/
inductive DeclarationKind
  | varDecl
  | letDecl
  | constDecl
  | functionDecl
  | classDecl
  | parameter
  | caught
  | imported
  deriving DecidableEq, Repr, Inhabited

namespace DeclarationKind

/-- The word for this kind of declaration. -/
def word : DeclarationKind → String
  | varDecl => "var"
  | letDecl => "let"
  | constDecl => "const"
  | functionDecl => "function"
  | classDecl => "class"
  | parameter => "param"
  | caught => "catch"
  | imported => "import"

/-- The declaration belongs to the nearest function rather than to the nearest block. -/
def isHoisted : DeclarationKind → Bool
  | varDecl => true
  | _ => false

end DeclarationKind

/-- Expressions without parts that name nothing. -/
inductive Literal
  | null
  | bool (value : Bool)
  | number (text : String)
  | bigint (text : String)
  | string (value : String)
  | regex
  | thisValue
  | superValue
  /-- `import.meta` and `new.target`. -/
  | metaProperty
  /-- A place in an array that holds nothing. -/
  | hole
  deriving DecidableEq, Repr, Inhabited

inductive BinaryOp
  | add | sub | mul | div | rem | exp
  | shiftLeft | shiftRight | shiftRightZero
  | less | greater | lessEq | greaterEq | isIn | instanceOf
  | eq | notEq | eqStrict | notEqStrict
  | bitAnd | bitXor | bitOr
  | and | or | coalesce
  deriving DecidableEq, Repr, Inhabited

/-- Operations whose scoping is that of their operands. -/
inductive Form
  | unary
  | await
  | yield
  | spread
  | array (trailingComma : Bool)
  | binary (op : BinaryOp)
  | conditional
  | sequence
  | member (name : String)
  | privateMember (name : String)
  | index
  | call
  | construct
  /-- An optional chain as a whole. -/
  | chain
  /-- A template literal with the values of its texts. -/
  | template (values : List (Option String))
  | tagged
  | importCall
  | privateIn (name : String)
  deriving DecidableEq, Repr, Inhabited

mutual

inductive Expr
  | ident (id : Ident)
  | literal (value : Literal)
  | form (form : Form) (parts : List Expr)
  | object (properties : List Property)
  | assign (target : Target) (value : Expr)
  | update (target : Target)
  | function (name : Option Ident) (parameters : List Binding) (body : List Stmt)
  | arrow (parameters : List Binding) (body : List Stmt)
  | classDef (name : Option Ident) (heritage : Option Expr) (members : List Member)

inductive Key
  | fixed (text : String)
  | computed (value : Expr)

/-- A property of an object literal. A shorthand carries a default only in a literal that turns out
to be the target of an assignment. -/
inductive Property
  | shorthand (id : Ident) (fallback : Option Expr)
  | pair (key : Key) (value : Expr)
  | spread (value : Expr)

/-- What an assignment assigns to. The last four stand inside arrays and objects only. -/
inductive Target
  | name (id : Ident)
  /-- A property of an object. -/
  | place (value : Expr)
  | array (elements : List Target)
  | object (properties : List Target)
  | withDefault (target : Target) (value : Expr)
  | hole
  | rest (target : Target)
  | property (key : Key) (target : Target)
  | shorthand (id : Ident) (fallback : Option Expr)

/-- A pattern that declares names. `hole` and `property` stand inside arrays and objects only,
`rest` also among parameters. -/
inductive Binding
  | name (id : Ident)
  | array (elements : List Binding)
  | object (properties : List Binding)
  | withDefault (binding : Binding) (value : Expr)
  | hole
  | rest (binding : Binding)
  | property (key : Key) (binding : Binding)

inductive Member
  | method (key : Key) (parameters : List Binding) (body : List Stmt)
  | field (key : Key) (value : Option Expr)
  | staticBlock (body : List Stmt)

inductive Stmt
  /-- A statement that neither binds nor mentions a name. -/
  | inert
  /-- An expression that is evaluated, returned or thrown. -/
  | eval (value : Expr)
  /-- Declared patterns; an initial value is written like a default. -/
  | declare (kind : DeclarationKind) (bindings : List Binding)
  | function (name : Option Ident) (parameters : List Binding) (body : List Stmt)
  | classDef (name : Option Ident) (heritage : Option Expr) (members : List Member)
  | importNames (locals : List Ident)
  /-- An export under the given names, with the declaration or the value that is exported. -/
  | exported (names : List String) (body : List Stmt)
  | block (body : List Stmt)
  | labeled (body : Stmt)
  /-- `if`, `while` and `with`: an expression, then the statements it governs. -/
  | headed (head : Expr) (bodies : List Stmt)
  | doWhile (body : Stmt) (test : Expr)
  /-- A loop with its start, its test and step as far as they are written, and its body. -/
  | forLoop (start : List Stmt) (control : List Expr) (body : Stmt)
  | forDeclared (kind : DeclarationKind) (bindings : List Binding) (subject : Expr) (body : Stmt)
  | forTarget (target : Target) (subject : Expr) (body : Stmt)
  /-- A `switch` with the tests and the statements of all its cases in reading order. -/
  | switch (subject : Expr) (cases : List Stmt)
  /-- A `try` with its block and the clauses after it. -/
  | tryCatch (body : List Stmt) (clauses : List Stmt)
  /-- A `catch` clause, which may go without a parameter. -/
  | catchClause (parameter : List Binding) (body : List Stmt)

end

/-- The names that a statement exports. -/
def Stmt.exportedNames : Stmt → List String
  | .exported names _ => names
  | _ => []

instance : Inhabited Expr := ⟨.literal .null⟩
instance : Inhabited Stmt := ⟨.inert⟩

/-! ## Names of patterns -/

mutual

/-- The identifiers that a pattern declares, in reading order. -/
def Binding.idents : Binding → List Ident
  | .name id => [id]
  | .array elements => bindingIdents elements
  | .object properties => bindingIdents properties
  | .withDefault b _ => b.idents
  | .hole => []
  | .rest b => b.idents
  | .property _ b => b.idents

def bindingIdents : List Binding → List Ident
  | [] => []
  | b :: bs => b.idents ++ bindingIdents bs

end

end TemplateCompiler.Script
