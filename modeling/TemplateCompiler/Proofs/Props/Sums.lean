import TemplateCompiler.Property
import TemplateCompiler.Proofs.Script.Quoting
import Mathlib.Data.List.Forall2

/-! # Sums of text and interpolations

The value of an attribute that mixes text and interpolations is a sum. Its operands are added from
left to right, and once there is a string, all the rest is joined to it.
-/

namespace TemplateCompiler

open Script (nextTokenOf parseExpression? utf8Length)
open Template (Chunk Code)
open Text (isWhiteSpace)

/-! ## Adding values -/

/-- A value of the script language, which is a string or one of the other values `α`. -/
inductive Value (α : Type)
  | string (s : String)
  | other (a : α)

/-- How the other values are written as strings, and what the sum of two of them is. -/
structure Addition (α : Type) where
  form : α → String
  plus : α → α → Value α

namespace Value

variable {α : Type} (r : Addition α)

def form : Value α → String
  | string s => s
  | other a => r.form a

/-- As soon as one of the values is a string, the sum joins their string forms. -/
def plus : Value α → Value α → Value α
  | other a, other b => r.plus a b
  | v, w => string (v.form r ++ w.form r)

/-- The sum of operands, which are added from left to right. -/
def sum? : List (Value α) → Option (Value α)
  | [] => none
  | v :: vs => some (vs.foldl (plus r) v)

theorem foldl_plus_string (s : String) (vs : List (Value α)) :
    vs.foldl (plus r) (string s) = string (s ++ String.join (vs.map (form r))) := by
  induction vs generalizing s with
  | nil => simp
  | cons v vs ih =>
    rw [List.foldl_cons, List.map_cons, String.join_cons, ← String.append_assoc, ← ih]
    cases v <;> rfl

theorem sum?_string (s : String) (vs : List (Value α)) :
    sum? r (string s :: vs) = some (string (String.join ((string s :: vs).map (form r)))) := by
  rw [sum?, foldl_plus_string, List.map_cons, String.join_cons]
  rfl

theorem sum?_second (v : Value α) (s : String) (vs : List (Value α)) :
    sum? r (v :: string s :: vs) =
      some (string (String.join ((v :: string s :: vs).map (form r)))) := by
  have hplus : plus r v (string s) = string (v.form r ++ s) := by cases v <;> rfl
  rw [sum?, List.foldl_cons, hplus, foldl_plus_string, List.map_cons, List.map_cons,
    String.join_cons, String.join_cons, String.append_assoc]
  rfl

end Value

/-! ## Chunks as operands -/

namespace Template.Chunk

def isShorthand : Chunk → Bool
  | shorthand _ => true
  | _ => false

def code? : Chunk → Option Code
  | code c => some c
  | _ => none

/-- The chunk as an operand: a text is quoted. -/
def source : Chunk → String
  | text t => Text.quote t.data
  | code c | shorthand c => c.content

/-- The values of chunks, where `values` has those of the interpolations in their order. -/
def valuesOf {α : Type} (values : Nat → Value α) : List Chunk → List (Value α)
  | [] => []
  | text t :: cs => .string t.data :: valuesOf values cs
  | _ :: cs => values 0 :: valuesOf (fun i => values (i + 1)) cs

/-- The operands of the sum, which begins with an empty text if no text comes early enough. -/
def operands (chunks : List Chunk) : List Chunk :=
  if chunks.head?.any (·.isText) || chunks[1]?.any (·.isText) then chunks
  else text { data := "", raw := "" } :: chunks

theorem code?_operands (chunks : List Chunk) :
    (operands chunks).filterMap code? = chunks.filterMap code? := by
  unfold operands
  split <;> rfl

theorem sum?_operands {α : Type} (r : Addition α) (values : Nat → Value α) {chunks : List Chunk}
    (hne : chunks ≠ []) :
    Value.sum? r (valuesOf values (operands chunks)) =
      some (.string (String.join ((valuesOf values chunks).map (Value.form r)))) := by
  obtain ⟨c, cs, rfl⟩ := List.exists_cons_of_ne_nil hne
  unfold operands
  split
  · rename_i hearly
    cases c with
    | text t => exact Value.sum?_string r t.data _
    | _ =>
      cases cs with
      | nil => cases hearly
      | cons d cs =>
        cases d with
        | text t => exact Value.sum?_second r _ t.data _
        | _ => cases hearly
  · rw [valuesOf, Value.sum?_string, List.map_cons, String.join_cons, Value.form,
      String.empty_append]

end Template.Chunk

/-! ## Texts of operands -/

/-- An expression that ends where its last part ends and has no operator outside of brackets, so
that an operator beside it takes it as a whole. -/
inductive Script.Expr.IsClosed : Script.Expr → Prop
  | ident {id} : IsClosed (.ident id)
  | object {properties} : IsClosed (.object properties)
  | null : IsClosed (.literal .null)
  | bool {value} : IsClosed (.literal (.bool value))
  | number {text} : IsClosed (.literal (.number text))
  | bigint {text} : IsClosed (.literal (.bigint text))
  | string {value} : IsClosed (.literal (.string value))
  | thisValue : IsClosed (.literal .thisValue)
  | array {comma parts} : IsClosed (.form (.array comma) parts)
  | template {values parts} : IsClosed (.form (.template values) parts)
  | tagged {parts} : IsClosed (.form .tagged parts)
  | call {parts} : IsClosed (.form .call parts)
  | construct {parts} : IsClosed (.form .construct parts)
  | member {name parts} : IsClosed (.form (.member name) parts)
  | privateMember {name parts} : IsClosed (.form (.privateMember name) parts)
  | index {parts} : IsClosed (.form .index parts)

theorem Script.Expr.isOperand_iff {e : Script.Expr} : e.isOperand = true ↔ e.IsClosed := by
  constructor
  · intro h
    cases e with
    | ident => exact .ident
    | object => exact .object
    | literal value =>
      cases value with
      | regex | superValue | metaProperty | hole => cases h
      | _ => constructor
    | form f =>
      cases f with
      | array | template | tagged | call | construct | member | privateMember | index => constructor
      | _ => cases h
    | _ => cases h
  · rintro ⟨⟩ <;> rfl

/-- One token, the string literal with this value. -/
def IsLiteral (text value : String) : Prop :=
  nextTokenOf 0 text.toList = (⟨.string value, 0, utf8Length text.toList, false, false⟩, [])

/-- The text without the white space at its ends. -/
structure IsTrimmed (text core : String) : Prop where
  blank_around : ∃ before after, text.toList = before ++ (core.toList ++ after) ∧
    ∀ c ∈ before ++ after, isWhiteSpace c = true
  not_blank_end : ∀ c, core.toList.head? = some c ∨ core.toList.getLast? = some c →
    isWhiteSpace c = false

/-- How a chunk is written in a sum: a text as a string literal, and code as it stands if it is a
closed expression, else in parentheses. -/
inductive WrittenAs : Chunk → String → Prop
  | text {t literal} : IsLiteral literal t.data → WrittenAs (.text t) literal
  | closed {c e core} : parseExpression? c.content = some e → e.IsClosed →
      IsTrimmed c.content core → WrittenAs (.code c) core
  | grouped {c core} : (∀ e, parseExpression? c.content = some e → ¬ e.IsClosed) →
      IsTrimmed c.content core → WrittenAs (.code c) ("(" ++ core ++ ")")

open Template.Chunk

theorem chunkOperands?_eq (chunks : List Chunk) :
    chunkOperands? chunks =
      if chunks.any isShorthand then none else some (chunks.map source) := by
  induction chunks with
  | nil => rfl
  | cons c cs ih =>
    cases c with
    | shorthand c => rfl
    | _ =>
      rw [chunkOperands?, ih]
      cases h : cs.any isShorthand <;> simp [isShorthand, source, h]

theorem textualOperands_eq (chunks : List Chunk) :
    textualOperands chunks (chunks.map source) = (operands chunks).map source := by
  unfold textualOperands operands
  split <;> rfl

theorem concatChunks?_eq {chunks : List Chunk} (hne : chunks ≠ []) :
    concatChunks? chunks =
      if chunks.any isShorthand then none
      else some (.dynamic (Script.concat ((operands chunks).map source))
        ((chunks.head hne).location.cover (chunks.getLast hne).location)) := by
  rw [concatChunks?, List.head?_eq_some_head hne, List.getLast?_eq_some_getLast hne,
    chunkOperands?_eq]
  cases chunks.any isShorthand with
  | true => rfl
  | false => simp [textualOperands_eq]

theorem any_isShorthand {chunks : List Chunk} :
    chunks.any isShorthand = true ↔ ∃ c, Chunk.shorthand c ∈ chunks := by
  rw [List.any_eq_true]
  constructor
  · rintro ⟨c, hc, h⟩
    cases c with
    | shorthand c => exact ⟨c, hc⟩
    | _ => cases h
  · rintro ⟨c, hc⟩
    exact ⟨_, hc, rfl⟩

theorem writtenAs_operand {c : Chunk} (h : c.isShorthand = false) :
    WrittenAs c (Script.operand c.source) := by
  cases c with
  | shorthand c => cases h
  | text t =>
    rw [source, Script.operand_quote]
    exact .text (Script.nextTokenOf_quote t.data)
  | code c =>
    have htrim : IsTrimmed c.content (Text.trim c.content) :=
      ⟨Script.exists_append_trim _, fun _ => Script.isWhiteSpace_end_trim⟩
    rw [source, Script.operand, Script.parsesAs]
    cases hparse : parseExpression? c.content with
    | none => exact .grouped (fun e he => by cases hparse.symm.trans he) htrim
    | some e =>
      rw [Option.any_some]
      split
      · rename_i hoperand
        exact .closed hparse (Script.Expr.isOperand_iff.mp hoperand) htrim
      · rename_i hoperand
        refine .grouped (fun e' he' => ?_) htrim
        cases hparse.symm.trans he'
        exact fun hclosed => hoperand (Script.Expr.isOperand_iff.mpr hclosed)

theorem isShorthand_operands {chunks : List Chunk} (h : chunks.any isShorthand = false) :
    ∀ c ∈ operands chunks, c.isShorthand = false := by
  unfold operands
  split
  · simpa using h
  · simpa [isShorthand] using h

/-- A value without shorthands becomes the sum of operands that have its interpolations in their
order. Each is written as an operand of `+`, a text as the literal with its value, and whatever the
interpolations come to, the sum joins the string forms of all pieces. Other values and empty ones
become nothing. -/
theorem concatChunks?_joins (chunks : List Chunk) :
    (chunks = [] ∨ ∃ c, Chunk.shorthand c ∈ chunks) ∧ concatChunks? chunks = none ∨
      chunks ≠ [] ∧ (∀ c, Chunk.shorthand c ∉ chunks) ∧
        ∃ (e : Expression) (operands : List Chunk) (texts : List String),
          concatChunks? chunks = some e ∧ e.isStatic = false ∧
          e.content = " + ".intercalate texts ∧ List.Forall₂ WrittenAs operands texts ∧
          operands.filterMap code? = chunks.filterMap code? ∧
          ∀ (α : Type) (r : Addition α) (values : Nat → Value α),
            Value.sum? r (valuesOf values operands) =
              some (.string (String.join ((valuesOf values chunks).map (Value.form r)))) := by
  by_cases hne : chunks = []
  · subst hne
    exact .inl ⟨.inl rfl, rfl⟩
  rw [concatChunks?_eq hne]
  cases h : chunks.any isShorthand with
  | true => exact .inl ⟨.inr (any_isShorthand.mp h), rfl⟩
  | false =>
    have hwritten : List.Forall₂ WrittenAs (operands chunks)
        (((operands chunks).map source).map Script.operand) := by
      rw [List.map_map, List.forall₂_map_right_iff]
      exact List.forall₂_same.mpr fun c hc => writtenAs_operand (isShorthand_operands h c hc)
    refine .inr ⟨hne, fun c hc => ?_, _, operands chunks, _, rfl, rfl, rfl, hwritten,
      code?_operands chunks, fun α r values => sum?_operands r values hne⟩
    rw [any_isShorthand.mpr ⟨c, hc⟩] at h
    cases h

end TemplateCompiler
