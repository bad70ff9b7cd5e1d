import TemplateCompiler.Proofs.Script.Operating
import TemplateCompiler.Script.Shape
import Mathlib.Tactic.SplitIfs

/-! # Quoted strings

What `quote` writes is one token, and reads back as the string it was written for.
-/

namespace TemplateCompiler.Script

open Text

theorem hexValue?_hexDigit {n : Nat} (hn : n < 16) : hexValue? (hexDigit n) = some n := by
  have hall : ∀ m : Fin 16, hexValue? (hexDigit m) = some m.val := by decide
  exact hall ⟨n, hn⟩

/-- A control character is written by its code point, in four digits. -/
theorem escape?_code {c : Char} (hc : c.toNat < 0x20) (cs : List Char) :
    escape? true ('u' :: '0' :: '0' :: hexDigit (c.toNat / 16) :: hexDigit (c.toNat % 16) :: cs) =
      some ([c], cs) := by
  have hhigh := @hexValue?_hexDigit (c.toNat / 16) (by omega)
  have hlow := @hexValue?_hexDigit (c.toNat % 16) (by omega)
  have hzero : hexValue? '0' = some 0 := by decide
  have hcode : c.toNat / 16 * 16 + c.toNat % 16 = c.toNat := by omega
  have hplain : isHighSurrogate c.toNat = false ∧ isLowSurrogate c.toNat = false := by
    simp only [isHighSurrogate, isLowSurrogate, Bool.and_eq_false_iff, decide_eq_false_iff_not]
    omega
  simp [escape?, stringCodePoint?, unicodeEscape?, fourHex?, hhigh, hlow, hzero, hcode, hplain]

theorem StringRead.quoted (c : Char) {cs value rest : List Char} {flawed : Bool}
    (h : StringRead '\x22' cs value flawed rest) :
    StringRead '\x22' (quoteChar c ++ cs) (c :: value) flawed rest := by
  simp only [quoteChar, beq_iff_eq]
  split_ifs with hquote hslash _ _ hline hreturn _ hcontrol
  iterate 7
    subst c
    exact @StringRead.escape _ _ [_] _ _ _ _ rfl h
  · exact .escape (escape?_code hcontrol cs) h
  · exact .char hquote hline hreturn hslash h

theorem stringRead_quoteChars (cs rest : List Char) :
    StringRead '\x22' (cs.flatMap quoteChar ++ '\x22' :: rest) cs false rest := by
  induction cs with
  | nil => exact .close
  | cons c cs ih => simpa using ih.quoted c

theorem nextTokenOf_quote (s : String) :
    nextTokenOf 0 (quote s).toList =
      (⟨.string s, 0, utf8Length (quote s).toList, false, false⟩, []) := by
  have hread := stringRead_quoteChars s.toList []
  have hvalue := stringChars?_of_stringRead (by decide) (Nat.lt_succ_self _) hread
  rw [quote, String.toList_ofList, quoteChars, List.cons_append]
  generalize s.toList.flatMap quoteChar ++ ['\x22'] = text at hvalue
  simp [nextTokenOf, skipGap, isLineBreak, isSpace, scan, scanString, hvalue, bytesRead]

/-- A string with nothing after it is an expression. Its token goes through the productions down to
the operand; none of them looks at what the string holds. -/
theorem expression_string (bound depth stop : Nat) (s : String) :
    expression (grammar (bound + 1) (depth + 4)) {}
        { token := ⟨.string s, 0, stop, false, false⟩, rest := [] } =
      some (.literal (.string s), { token := ⟨.eof, stop, stop, false, false⟩, rest := [] }) := by
  have hbound := bound_grammar (bound + 1) depth
  change expression (grammar (bound + 1) depth).step.step.step.step _ _ = _
  generalize grammar (bound + 1) depth = g at hbound ⊢
  obtain ⟨_⟩ := g
  subst hbound
  rfl

theorem parseExpression?_quote (s : String) :
    parseExpression? (quote s) = some (.literal (.string s)) := by
  rw [parseExpression?, readFrom, nextTokenOf_quote, grammarFor, Nat.mul_add]
  exact congrArg (Option.bind · _) (expression_string ..)

/-- What trimming takes away is white space. -/
theorem exists_append_trim (s : String) : ∃ before after,
    s.toList = before ++ ((trim s).toList ++ after) ∧
      ∀ c ∈ before ++ after, isWhiteSpace c = true := by
  let rest := (s.toList.dropWhile isWhiteSpace).reverse
  have hblank {cs : List Char} := List.all_eq_true.mp (@List.all_takeWhile _ isWhiteSpace cs)
  refine ⟨s.toList.takeWhile isWhiteSpace, (rest.takeWhile isWhiteSpace).reverse, ?_, ?_⟩
  · rw [trim, String.toList_ofList, trimChars, ← List.reverse_append,
      List.takeWhile_append_dropWhile, List.reverse_reverse, List.takeWhile_append_dropWhile]
  · intro c hc
    rcases List.mem_append.mp hc with hc | hc
    · exact hblank c hc
    · exact hblank c (List.mem_reverse.mp hc)

/-- Trimming leaves no white space at either end. -/
theorem isWhiteSpace_end_trim {s : String} {c : Char}
    (h : (trim s).toList.head? = some c ∨ (trim s).toList.getLast? = some c) :
    isWhiteSpace c = false := by
  rw [trim, String.toList_ofList, trimChars] at h
  rcases h with h | h
  · have hprefix := List.reverse_prefix.mpr
      (List.dropWhile_suffix (l := (s.toList.dropWhile isWhiteSpace).reverse) isWhiteSpace)
    rw [List.reverse_reverse] at hprefix
    obtain ⟨after, hafter⟩ := hprefix
    have hhead := List.head?_dropWhile_not isWhiteSpace s.toList
    rw [← hafter, List.head?_append, h] at hhead
    exact hhead
  · rw [List.getLast?_reverse] at h
    have hhead := List.head?_dropWhile_not isWhiteSpace (s.toList.dropWhile isWhiteSpace).reverse
    rw [h] at hhead
    exact hhead

theorem trim_quote (s : String) : trim (quote s) = quote s := by
  have hquote : isWhiteSpace '\x22' = false := by decide
  simp [trim, trimChars, quote, quoteChars, hquote]

theorem operand_quote (s : String) : operand (quote s) = quote s := by
  simp [operand, parsesAs, parseExpression?_quote, Expr.isOperand, trim_quote]

/-- A quoted string is a single token, the string literal with the value that was quoted; the
literal is read back from it, and a sum takes it over as it is. -/
theorem quote_roundTrips (s : String) :
    nextTokenOf 0 (quote s).toList =
        (⟨.string s, 0, utf8Length (quote s).toList, false, false⟩, []) ∧
      literalString? (quote s) = some s ∧
      ∀ before after, concat (before ++ quote s :: after) =
        " + ".intercalate (before.map operand ++ quote s :: after.map operand) := by
  refine ⟨nextTokenOf_quote s, ?_, ?_⟩
  · simp [literalString?, parseExpression?_quote, Expr.stringValue?]
  · intro before after
    simp [concat, operand_quote]

end TemplateCompiler.Script
