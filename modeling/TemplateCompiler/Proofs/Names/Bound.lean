import TemplateCompiler.Proofs.Names.Literals
import TemplateCompiler.Proofs.Names.Splicing

/-! # Names that an expression binds itself

Qualifying the free names of an expression leaves every identifier alone that a scope of the
expression declares. The edits lie on either side of it.
-/

namespace TemplateCompiler

open Script (Ident Laid Placed Reference ScopeTree parseExpression? utf8Length utf8Length_append)
open Text (Edit splice)

variable {o : Options} {s : Session} {script : Script.Expr} {source : String} {text : List Char}
  {lo hi : Nat} {rs : List Reference}

/-! ## The order of the references -/

theorem starts_ordered_of_laid (h : Laid text lo (rs.map (·.ident)) hi) :
    rs.Pairwise StartsBefore := by
  refine (List.pairwise_map.mp h.ordered).imp_of_mem fun {a b} ha _ hle => ?_
  exact Nat.le_trans (h.placed a.ident (List.mem_map_of_mem ha)).start_lt_stop.le hle

theorem free_ident_sublist (script : Script.Expr) (p : Reference → Bool) :
    (((ScopeTree.ofExpr script).free.filter p).map (·.ident)).Sublist script.written := by
  have hsublist := script.allSeparated.free_sublist
  rw [Script.Expr.freeOccurrences, ← ScopeTree.map_occurrence_free_of_denotes script.denotes,
    List.map_map] at hsublist
  exact (List.filter_sublist.map _).trans hsublist

/-- The free references are in reading order, and sorting the ones to qualify changes nothing. -/
theorem qualifiedReferences_sublist (h : Laid text lo script.written hi) :
    ((qualifiedReferences s (ScopeTree.ofExpr script)).map (·.ident)).Sublist script.written := by
  have hsublist := free_ident_sublist script fun r =>
    !s.isIdentifier r.ident.name && !Script.isAllowedGlobal r.ident.name
  rw [qualifiedReferences, sortByStart_eq,
    (starts_ordered_of_laid (h.sublist hsublist)).insertionSort_eq]
  exact hsublist

/-! ## Identifiers between edits -/

/-- The edits are made before and after the identifier, and its own letters stay. -/
def Spares (edits : List Edit) (source result : List Char) (id : Ident) : Prop :=
  ∃ before word after earlier later,
    source = before ++ (word ++ after) ∧
    utf8Length before = id.start ∧ utf8Length (before ++ word) = id.stop ∧
    edits = earlier ++ later ∧
    (∀ e ∈ earlier, e.stop ≤ id.start) ∧ (∀ e ∈ later, id.stop ≤ e.start) ∧
    result = splice 0 earlier before ++ (word ++ splice id.stop later after)

theorem spares_of_no_edits {id : Ident} (h : Placed text id) : Spares [] text text id := by
  obtain ⟨before, word, after, htext, -, hstart, hstop⟩ := h
  exact ⟨before, word, after, [], [], htext, hstart, hstop, rfl, nofun, nofun, htext⟩

section

variable {ids : List Ident} {id : Ident} (hlaid : Laid text lo ids hi)
  (hrs : (rs.map (·.ident)).Sublist ids) (hid : id ∈ ids) (hother : id ∉ rs.map (·.ident))

include hlaid hrs hid hother

/-- The references before an identifier that is none of them, and those after it. -/
theorem exists_split_references :
    ∃ rs₁ rs₂, rs = rs₁ ++ rs₂ ∧ (∀ r ∈ rs₁, r.ident.stop ≤ id.start) ∧
      ∀ r ∈ rs₂, id.stop ≤ r.ident.start := by
  obtain ⟨earlier, later, rfl⟩ := List.append_of_mem hid
  obtain ⟨l₁, l₂, hsplit, hl₁, hl₂⟩ := List.sublist_append_iff.mp hrs
  obtain ⟨rs₁, rs₂, rfl, rfl, rfl⟩ := List.map_eq_append_iff.mp hsplit
  obtain ⟨-, hlater, hbefore⟩ := List.pairwise_append.mp hlaid.ordered
  have hl₂ : (rs₂.map (·.ident)).Sublist later := by
    rcases List.sublist_cons_iff.mp hl₂ with hl₂ | ⟨l, heq, -⟩
    · exact hl₂
    · exact absurd (hsplit ▸ List.mem_append_right _ (heq ▸ List.mem_cons_self ..)) hother
  refine ⟨rs₁, rs₂, rfl, fun r hr => ?_, fun r hr => ?_⟩
  · exact hbefore _ (hl₁.subset (List.mem_map_of_mem hr)) _ (List.mem_cons_self ..)
  · exact (List.pairwise_cons.mp hlater).1 _ (hl₂.subset (List.mem_map_of_mem hr))

theorem spares_of_not_mem :
    Spares (rs.map (qualifyingEdit o)) text (splice 0 (rs.map (qualifyingEdit o)) text) id := by
  obtain ⟨before, word, after, rfl, -, hstart, hstop⟩ := hlaid.placed id hid
  obtain ⟨rs₁, rs₂, rfl, hearlier, hlater⟩ := exists_split_references hlaid hrs hid hother
  have hlaid₁ := hlaid.sublist ((List.Sublist.map _ (List.sublist_append_left rs₁ rs₂)).trans hrs)
  have hfits : Fits 0 (rs₁.map (qualifyingEdit o)) before := by
    refine @fits_of_laid _ rs₁ [] before (word ++ after) (fun _ _ => ⟨rfl, rfl⟩)
      ⟨by simp, ?_, hlaid₁.placed, hlaid₁.ordered⟩
    simpa [hstart] using hearlier
  have hlater : ∀ e ∈ rs₂.map (qualifyingEdit o), id.stop ≤ e.start := by
    simpa [qualifyingEdit] using hlater
  have hwithin : id.start ≤ id.stop := by simp [← hstart, ← hstop]
  refine ⟨before, word, after, _, _, rfl, hstart, hstop, List.map_append, ?_, hlater, ?_⟩
  · simpa [qualifyingEdit] using hearlier
  · rw [List.map_append, splice_append _ hfits, splice_after, Nat.zero_add, ← utf8Length_append,
      hstop]
    · intro e he
      rw [Nat.zero_add, ← utf8Length_append, hstop]
      exact hlater e he
    · intro e he
      rw [Nat.zero_add, hstart]
      exact Nat.le_trans hwithin (hlater e he)

end

/-! ## Expressions -/

/-- The edits that qualify the names of an expression. -/
def Expression.edits (o : Options) (s : Session) (e : Expression) (script : Script.Expr) :
    List Edit :=
  if !o.qualifyNames || e.isStatic then []
  else (qualifiedReferences s (ScopeTree.ofExpr script)).map (qualifyingEdit o)

/-- The text of a qualified expression is its source with the edits made. -/
theorem qualified_eq_splice {e : Expression} (h : parseExpression? e.content = some script) :
    ∃ e', e.qualified o s = .ok e' ∧
      e'.content.toList = splice 0 (e.edits o s script) e.content.toList := by
  unfold Expression.qualified Expression.edits
  split
  · exact ⟨e, rfl, rfl⟩
  · rw [h]
    dsimp only [qualifySource?]
    cases qualifiedReferences s (ScopeTree.ofExpr script) with
    | nil => exact ⟨e, rfl, rfl⟩
    | cons r rs => exact ⟨_, rfl, String.toList_ofList⟩

theorem not_mem_qualifiedReferences {id : Ident} {x : Script.Extent}
    (hlaid : Laid text lo script.written hi) (hx : x ∈ script.allExtents) (hbinds : x.Binds id) :
    id ∉ (qualifiedReferences s (ScopeTree.ofExpr script)).map (·.ident) := by
  intro hid
  obtain ⟨r, hr, rfl⟩ := List.mem_map.mp hid
  have hfree := occurrence_mem_freeOccurrences (List.mem_filter.mp (mem_sortByStart.mp hr)).1
  exact script.allSeparated.apart hlaid.nodup x hx _ hfree hbinds

/-- Every identifier that a scope of the expression declares is left as it is written, whatever the
options are and whichever names the loops around introduce. -/
theorem qualified_keeps_bound {e : Expression} (h : parseExpression? e.content = some script) :
    ∃ e', e.qualified o s = .ok e' ∧ ∀ x ∈ script.allExtents, ∀ id, x.Binds id →
      Spares (e.edits o s script) e.content.toList e'.content.toList id := by
  obtain ⟨e', hok, hcontent⟩ := qualified_eq_splice (o := o) (s := s) h
  obtain ⟨lo, hi, hlaid⟩ := Script.laid_of_parseExpression? h
  refine ⟨e', hok, fun x hx id hbinds => ?_⟩
  have hid : id ∈ script.written := script.allSeparated.inside_written x hx hbinds.2.1
  rw [hcontent]
  unfold Expression.edits
  split
  · exact spares_of_no_edits (hlaid.placed id hid)
  · exact spares_of_not_mem hlaid (qualifiedReferences_sublist hlaid) hid
      (not_mem_qualifiedReferences hlaid hx hbinds)

/-- A handler with parameters, local declarations and a caught error, some of which have the names of
what is used outside of it. -/
def shadowingHandler : Expression where
  content := "[a, e, function f({ a, b: [c] }) { try { let x = f(a, c, y) } catch (e) { var z = e } }]"
  isStatic := false
  location := default

theorem qualified_keeps_bound_shadowingHandler : ∃ script,
    parseExpression? shadowingHandler.content = some script ∧
    (script.allExtents.flatMap fun x => x.inside.filter fun id => x.Binds id).map (·.name) =
      ["f", "a", "c", "f", "a", "c", "z", "x", "e", "e"] ∧
    ∃ e', shadowingHandler.qualified { qualifyNames := true } {} = .ok e' ∧
      ∀ x ∈ script.allExtents, ∀ id, x.Binds id →
        Spares (shadowingHandler.edits { qualifyNames := true } {} script)
          shadowingHandler.content.toList e'.content.toList id := by
  have hbound : ((parseExpression? shadowingHandler.content).map fun script =>
      (script.allExtents.flatMap fun x => x.inside.filter fun id => x.Binds id).map (·.name)) =
        some ["f", "a", "c", "f", "a", "c", "z", "x", "e", "e"] := by
    decide +kernel
  obtain ⟨script, hscript, hnames⟩ := Option.map_eq_some_iff.mp hbound
  exact ⟨script, hscript, hnames, qualified_keeps_bound hscript⟩

/-- The own name of a class and the arguments of a function are known inside, but nothing declares
them there, and they are qualified like free names. -/
theorem implied_names_qualified :
    (((parseExpression? "class A { m() { return A } }").map fun script =>
        decide (⟨["A"], [⟨"A", 23, 24⟩], true⟩ ∈ script.allExtents)) = some true ∧
      ((⟨"class A { m() { return A } }", false, default⟩ : Expression).qualified
        { qualifyNames := true } {}).toOption.map (·.content) =
        some "class A { m() { return _ctx.A } }") ∧
    ((parseExpression? "function () { return arguments }").map fun script =>
        decide (⟨["arguments"], [⟨"arguments", 21, 30⟩], true⟩ ∈ script.allExtents)) = some true ∧
      ((⟨"function () { return arguments }", false, default⟩ : Expression).qualified
        { qualifyNames := true } {}).toOption.map (·.content) =
        some "function () { return _ctx.arguments }" := by
  decide +kernel

end TemplateCompiler
