import TemplateCompiler.Script.Grammar.Chain
import TemplateCompiler.Script.Grammar.Target

/-! # Operators

Binary operators have strengths. The right operand of an operator takes in the operators that are
stronger, and `**` also those of its own strength.
-/

namespace TemplateCompiler.Script

open Reader

/-! ## Binary operators -/

def Punct.binaryOp? : Punct → Option BinaryOp
  | .plus => some .add
  | .minus => some .sub
  | .star => some .mul
  | .slash => some .div
  | .percent => some .rem
  | .starStar => some .exp
  | .shiftLeft => some .shiftLeft
  | .shiftRight => some .shiftRight
  | .shiftRightZero => some .shiftRightZero
  | .less => some .less
  | .greater => some .greater
  | .lessEq => some .lessEq
  | .greaterEq => some .greaterEq
  | .eqEq => some .eq
  | .notEq => some .notEq
  | .eqEqEq => some .eqStrict
  | .notEqEq => some .notEqStrict
  | .amp => some .bitAnd
  | .caret => some .bitXor
  | .bar => some .bitOr
  | .ampAmp => some .and
  | .barBar => some .or
  | .coalesce => some .coalesce
  | _ => none

def Token.binaryOp? (t : Token) : Option BinaryOp :=
  match t.lexeme with
  | .punct p => p.binaryOp?
  | .name "in" _ => some .isIn
  | .name "instanceof" _ => some .instanceOf
  | _ => none

namespace BinaryOp

def strength : BinaryOp → Nat
  | coalesce => 1
  | or => 2
  | and => 3
  | bitOr => 4
  | bitXor => 5
  | bitAnd => 6
  | eq | notEq | eqStrict | notEqStrict => 7
  | less | greater | lessEq | greaterEq | isIn | instanceOf => 8
  | shiftLeft | shiftRight | shiftRightZero => 9
  | add | sub => 10
  | mul | div | rem => 11
  | exp => 12

/-- The operator takes its left operand where only stronger ones than `least` do. -/
def binds (op : BinaryOp) (least : Nat) : Bool :=
  if op == exp then least ≤ op.strength else least < op.strength

def isLogical : BinaryOp → Bool
  | and | or | coalesce => true
  | _ => false

end BinaryOp

namespace Expr

def isUnary : Expr → Bool
  | .form .unary _ | .form .await _ => true
  | _ => false

/-- The logical operator that joins the expression. -/
def logicalOp? : Expr → Option BinaryOp
  | .form (.binary op) _ => if op.isLogical then some op else none
  | _ => none

/-- The expression is joined by `&&` or `||`. -/
def isAndOr (e : Expr) : Bool := e.logicalOp?.any (· != .coalesce)

def isPrivateIn : Expr → Bool
  | .form (.privateIn _) _ => true
  | _ => false

end Expr

/-- An operand of `??` must not be joined by another logical operator unless it begins with a
parenthesis. The left operand is looked at when the right one has no logical operator. -/
def mixesCoalesce (left right : Expr) (grouped rightGrouped : Bool) : Bool :=
  if right.logicalOp?.isSome then !rightGrouped && right.isAndOr else !grouped && left.isAndOr

/-- `as` and `satisfies` on the same line look like operators, but are none. -/
def Token.isForeignOperator (t : Token) : Bool :=
  !t.newline && (t.isWord "as" || t.isWord "satisfies")

/-- Reads on after the operand `left`. `grouped` says that the first operand begins with a
parenthesis. -/
def binaryRest (g : Grammar) (mode : Mode) (least : Nat) : Nat → Expr → Bool → Reader Expr
  | 0, _, _ => fail
  | n + 1, left, grouped => do
    let t ← token
    match t.binaryOp? with
    | none =>
      if t.isForeignOperator && least < BinaryOp.isIn.strength then fail
      return left
    | some op =>
      if !op.binds least || (op == .isIn && !mode.allowIn) then return left
      passWord
      let rightGrouped ← isAt .lparen
      let right ← g.binary mode op.strength
      complainIf (op == .exp && !grouped && left.isUnary)
      complainIf (op == .coalesce && mixesCoalesce left right grouped rightGrouped)
      binaryRest g mode least n (.form (.binary op) [left, right]) grouped

/-- A test for a private name in an object, which is not itself such a test. -/
def privateIn (g : Grammar) (mode : Mode) (name : String) : Reader Expr := do
  if !mode.allowIn then fail
  advance
  expectWord "in"
  let right ← g.binary mode BinaryOp.isIn.strength
  if right.isPrivateIn then fail
  return .form (.privateIn name) [right]

def binaryExpr (g : Grammar) (mode : Mode) (least : Nat) : Reader Expr := do
  let grouped ← isAt .lparen
  let left ← match (← token).lexeme with
    | .privateName name => privateIn g mode name
    | _ => g.unary mode
  binaryRest g mode least g.bound left grouped

/-! ## Unary operators -/

/-- An operand follows on the same line. -/
def operandFollows : Reader Bool := do
  let t ← nextToken
  if t.newline then return false
  match t.lexeme with
  | .string _ | .number _ | .bigint _ => return true
  | .name w _ => return w != "in" && w != "instanceof"
  | _ => return false

/-- `await` comes next and reads as an operator: because it is one here, or because of the operand
after it. -/
def startsAwait (mode : Mode) : Reader Bool := do
  if ← isAtWord "await" then
    if mode.awaits then return true
    if (← nextToken).isWord "of" then return false
    return ← operandFollows
  return false

/-- `yield` comes next and reads as an operator, for the same reasons. -/
def startsYield (mode : Mode) : Reader Bool := do
  if ← isAtWord "yield" then
    if mode.yields then return true
    return ← operandFollows
  return false

def unaryOperator (t : Token) : Bool :=
  match t.lexeme with
  | .punct p => [Punct.plus, .minus, .bang, .tilde].contains p
  | .name w _ => ["delete", "typeof", "void"].contains w
  | _ => false

def updateOperator (t : Token) : Bool := t.isPunct .plusPlus || t.isPunct .minusMinus

def updateOf (e : Expr) : Reader Expr :=
  match e.toSimpleTarget? with
  | some target => return .update target
  | none => fail

/-- An operand with an update operator after it, which must stand on the same line. -/
def updatedExpr (g : Grammar) (mode : Mode) : Reader Expr := do
  let e ← leftHandSide g mode
  let t ← token
  if updateOperator t && !t.newline then
    let e ← updateOf e
    advance
    return e
  return e

def unaryExpr (g : Grammar) (mode : Mode) : Reader Expr := do
  let t ← token
  if updateOperator t then
    advance
    return ← updateOf (← g.unary mode)
  if unaryOperator t then
    passWord
    return .form .unary [← g.unary mode]
  if ← startsAwait mode then
    complainIf !mode.awaits
    passWord
    return .form .await [← g.unary { mode with awaits := true }]
  updatedExpr g mode

end TemplateCompiler.Script
