import TemplateCompiler.Proofs.Names.Processed
import TemplateCompiler.Proofs.Script.Extents
import TemplateCompiler.Proofs.Script.LiteralReading
import TemplateCompiler.Proofs.Script.Resolution
import TemplateCompiler.Proofs.Script.Statements

/-! # Literals among qualified expressions

Qualifying names makes no literal and loses none: the text changes first where a name begins, and
what is read there is a name in both texts.
-/

namespace TemplateCompiler

open Script (Reference ScopeTree IsName Fork LiteralAt nameWatch placeWatch parseExpression? nextTokenOf
  utf8Length)
open Text (isIdentStart splitBytes)

variable {o : Options} {names : List String} {script : Script.Expr} {source : String}

/-! ## Places in a text -/

theorem append_splitBytes (n : Nat) (cs : List Char) :
    (splitBytes n cs).1 ++ (splitBytes n cs).2 = cs := by
  fun_induction splitBytes n cs with
  | case1 => rfl
  | case2 n c cs h before after heq ih => simpa [heq] using ih
  | case3 => rfl

/-- The second part begins with the character that the place lies in. -/
theorem fork_splitBytes (n : Nat) (cs : List Char) :
    Fork n (utf8Length (splitBytes n cs).1) (splitBytes n cs).2 := by
  fun_induction splitBytes n cs with
  | case1 => exact ⟨by simp, by simp⟩
  | case2 n c cs h before after heq ih =>
    rw [heq] at ih
    refine ⟨?_, fun d hd => ?_⟩
    · have hle : utf8Length before ≤ n - c.utf8Size := ih.le
      simp only [Script.utf8Length_cons]
      omega
    · have hlt : n - c.utf8Size < utf8Length before + d.utf8Size := ih.lt d hd
      simp only [Script.utf8Length_cons]
      omega
  | case3 n c cs h => exact ⟨by simp, by simpa using h⟩

/-! ## References -/

theorem occurrence_mem_freeOccurrences {r : Reference} (hr : r ∈ (ScopeTree.ofExpr script).free) :
    r.occurrence ∈ script.freeOccurrences := by
  rw [Script.Expr.freeOccurrences, ← ScopeTree.map_occurrence_free_of_denotes script.denotes]
  exact List.mem_map_of_mem hr

/-- What is open in the script is free in it. -/
theorem occurrence_mem_free {r : Reference} (hr : r ∈ openReferences names script) :
    r.occurrence ∈ script.free := by
  have hfree := occurrence_mem_freeOccurrences (List.mem_filter.mp (mem_sortByStart.mp hr)).1
  exact (List.mem_filter.mp hfree).1

/-- A literal mentions nothing. -/
theorem free_of_stringValue? {v : String} (h : script.stringValue? = some v) : script.free = [] := by
  unfold Script.Expr.stringValue? at h
  split at h
  · rfl
  · rfl
  · cases h

theorem isName_append {a b : String} (h : IsName a) : IsName (a ++ b) := by
  obtain ⟨c, cs, ha, hc⟩ := h
  exact ⟨c, cs ++ b.toList, by simp [ha], hc⟩

/-- A qualified name begins like a name. -/
theorem isName_qualify {name : String} (h : IsName name) : IsName (o.qualify name) := by
  have hunderscore {cs : List Char} : IsName (String.ofList ('_' :: cs)) :=
    ⟨'_', cs, String.toList_ofList, by decide⟩
  have hdollar {cs : List Char} : IsName (String.ofList ('$' :: cs)) :=
    ⟨'$', cs, String.toList_ofList, by decide⟩
  unfold Options.qualify
  split
  · split
    · exact h
    · exact isName_append h
    · exact isName_append (isName_append (@hunderscore "unref(".toList))
    · exact isName_append (isName_append (@hunderscore "unref(".toList))
    · exact isName_append (@hunderscore "_props.".toList)
    · exact isName_append (@hunderscore "ctx.".toList)
  · split
    · exact isName_append (@hdollar "data.".toList)
    · exact isName_append (@hdollar "props.".toList)
    · exact isName_append (@hdollar "options.".toList)
    · exact isName_append (@hdollar "setup.".toList)
    · exact isName_append (@hunderscore "ctx.".toList)

theorem isName_qualifyingEdit {r : Reference} (h : IsName r.ident.name) :
    ∃ c cs, (qualifyingEdit o r).text = c :: cs ∧ isIdentStart c = true := by
  unfold qualifyingEdit
  dsimp only
  split
  · exact isName_append (isName_append h)
  · rw [String.empty_append]
    exact isName_qualify h

/-! ## Literals -/

/-- A text with a name in it is no literal, and neither is one where a name stands in its place. -/
theorem literalString?_of_name {before after cs : List Char} {p : Nat} {c : Char}
    (hsource : parseExpression? (String.ofList (before ++ after)) = some script)
    (hfork : Fork p (utf8Length before) after) (hc : isIdentStart c = true)
    {x : Script.Occurrence} (hx : x ∈ script.free) (hp : x.ident.start = p) :
    Script.literalString? (String.ofList (before ++ c :: cs)) = none := by
  cases hparse : parseExpression? (String.ofList (before ++ c :: cs)) with
  | none => rw [Script.literalString?, hparse, Option.bind_none]
  | some script' =>
    rw [Script.literalString?, hparse, Option.bind_some]
    cases hvalue : script'.stringValue? with
    | none => rfl
    | some v =>
      obtain ⟨q, hq, hend⟩ := (Script.stringValue?_eq_some_iff hparse).mp hvalue
      rw [String.toList_ofList] at hq
      have hforked := @Script.nextTokenOf_forked p after cs c 0 before (by simpa using hfork) hc
      -- the place is passed before any name is read, or the text with the name is a literal too
      obtain hahead | hliteral := hq.forked_whole hc hend hforked
      · have hall := Script.all_of_parseExpression? (placeWatch p) hsource
          (by rwa [String.toList_ofList])
        exact absurd hp (hall _ (script.separated.free_written x hx))
      · have hscript : script.stringValue? = some v := by
          rw [Script.stringValue?_eq_some_iff hsource, String.toList_ofList]
          exact hliteral
        simp [free_of_stringValue? hscript] at hx

theorem literalString?_rewrite (h : parseExpression? source = some script) :
    Script.literalString? (rewrite o names script source) = Script.literalString? source := by
  unfold rewrite
  cases hrefs : openReferences names script with
  | nil => simp [Text.splice]
  | cons r rs =>
    have hfree : r.occurrence ∈ script.free := occurrence_mem_free (hrefs ▸ List.mem_cons_self)
    have hname : IsName r.ident.name :=
      (Script.all_of_parseExpression? nameWatch h (fun _ => Script.isWord_of_word?) _
        (script.separated.free_written _ hfree)).1.isName
    obtain ⟨c, cs, htext, hc⟩ := @isName_qualifyingEdit o r hname
    have hsource : Script.literalString? source = none := by
      cases hvalue : script.stringValue? with
      | none => simp [Script.literalString?, h, hvalue]
      | some v => simp [free_of_stringValue? hvalue] at hfree
    have hparts := append_splitBytes r.ident.start source.toList
    have hfork := fork_splitBytes r.ident.start source.toList
    have hstart : (qualifyingEdit o r).start - 0 = r.ident.start := rfl
    rw [hsource, List.map_cons, Text.splice, hstart]
    cases hsplit : splitBytes r.ident.start source.toList with
    | mk before after =>
      rw [hsplit] at hparts hfork
      dsimp only
      rw [htext, List.append_assoc, List.cons_append]
      refine literalString?_of_name ?_ hfork hc hfree rfl
      rw [hparts, String.ofList_toList]
      exact h

/-- An expression has the text that it had before its names were qualified. -/
theorem Processed.literalValue?_eq {raw e : Expression} (h : Processed o names raw e) :
    e.literalValue? = raw.literalValue? := by
  cases h with
  | kept => rfl
  | rewritten hraw _ hparse he hcontent =>
    simp [Expression.literalValue?, hraw, he, hcontent, literalString?_rewrite hparse]

end TemplateCompiler
