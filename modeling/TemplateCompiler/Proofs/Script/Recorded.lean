import TemplateCompiler.Proofs.Script.Places
import TemplateCompiler.Proofs.Script.Resolution

/-! # References of a text

The references that a tree of scopes holds are the identifiers in use of the text, each one once and
in the order in which they are written. All other words of the text are accounted for as well.
-/

namespace TemplateCompiler.Script

open Reader

/-! ## Events and references -/

theorem Collector.map_occurrence_step (c : Collector) (event : Event) :
    (c.step event).references.map (·.occurrence) =
      c.references.map (·.occurrence) ++ mentions [event] := by
  cases event with
  | mention id shorthand => exact List.map_append
  | _ => exact (List.append_nil _).symm

theorem Collector.map_occurrence_run (events : List Event) (c : Collector) :
    (events.foldl step c).references.map (·.occurrence) =
      c.references.map (·.occurrence) ++ mentions events := by
  induction events generalizing c with
  | nil => exact (List.append_nil _).symm
  | cons event events ih =>
    rw [List.foldl_cons, ih, map_occurrence_step, List.append_assoc, ← mentions_append]
    rfl

/-- The references are the identifiers that are mentioned. -/
theorem ScopeTree.map_occurrence_ofEvents (events : List Event) :
    (ofEvents events).references.map (·.occurrence) = mentions events := by
  rw [references_ofEvents, List.map_map]
  exact Collector.map_occurrence_run events .empty

theorem map_ident_uses_sublist (ms : List Mark) :
    ((uses ms).map (·.ident)).Sublist (identsOf ms) := by
  induction ms with
  | nil => exact .slnil
  | cons m ms ih =>
    cases m with
    | use id shorthand => exact ih.cons_cons id
    | binder id => exact ih.cons id
    | _ => exact ih

/-! ## Texts -/

/-- From its beginning to the place `q` the text spells the marks. The references of the tree are
the identifiers in use among them, which stand in the text one after the other. -/
structure ScopeTree.Records (tree : ScopeTree) (source : String) (ms : List Mark)
    (q : Token × List Char) : Prop where
  spelled : Spells (nextTokenOf 0 source.toList) ms q
  references_eq : tree.references.map (·.occurrence) = uses ms
  laid : ∃ lo hi, Laid source.toList lo (tree.references.map (·.ident)) hi

theorem ScopeTree.records_of_spells {source : String} {events : List Event} {ms : List Mark}
    {ids : List Ident} {q : Token × List Char} (hmatches : Matches events ms ids)
    (hpending : .pending ∉ ms) (hspells : Spells (nextTokenOf 0 source.toList) ms q) :
    (ofEvents events).Records source ms q := by
  have hrefs : (ofEvents events).references.map (·.occurrence) = uses ms :=
    (map_occurrence_ofEvents events).trans (hmatches.mentioned hpending)
  have hidents : (ofEvents events).references.map (·.ident) = (uses ms).map (·.ident) := by
    rw [← hrefs, List.map_map]
    rfl
  have hlaid := (hspells.reads (placeTrack source.toList) (located_nextTokenOf [] source.toList)).2
  exact ⟨hspells, hrefs, _, _, hidents ▸ hlaid.sublist (map_ident_uses_sublist ms)⟩

/-- Items are read up to a token that stops them. -/
theorem stop_of_itemsUntil {α : Type} {stop : Token → Bool} {item : Reader α} {n : Nat}
    {s s' : ReaderState} {as : List α} (h : Reader.itemsUntil stop item n s = some (as, s')) :
    stop s'.token = true := by
  induction n generalizing s as with
  | zero => cases h
  | succ n ih =>
    change (if stop s.token = true then pure [] else do
      let a ← item
      return a :: (← Reader.itemsUntil stop item n)) s = _ at h
    by_cases hstop : stop s.token = true
    · rw [if_pos hstop] at h
      obtain ⟨-, rfl⟩ := Prod.mk.inj (Option.some.inj h)
      exact hstop
    · rw [if_neg hstop] at h
      obtain ⟨x, -, hitems⟩ := Option.bind_eq_some_iff.mp h
      obtain ⟨y, hrun, heq⟩ := Option.bind_eq_some_iff.mp hitems
      obtain ⟨-, rfl⟩ := Prod.mk.inj (Option.some.inj heq)
      exact ih hrun

/-- A program is spelled by its marks, to the end of the text. -/
theorem spells_of_parseProgram? {source : String} {body : List Stmt}
    (h : parseProgram? source = some body) : ∃ q, q.1.lexeme = .eof ∧
      Spells (nextTokenOf 0 source.toList) (stmtMarks body) q ∧ .pending ∉ stmtMarks body := by
  obtain ⟨body', hread, hnodup⟩ := Option.bind_eq_some_iff.mp h
  obtain ⟨-, heq⟩ := Option.ite_none_right_eq_some.mp hnodup
  obtain rfl := Option.some.inj heq
  have hbody (g : Grammar) (hg : g.Accounted) :
      Accounts [] (itemsUntil (·.lexeme == .eof) (g.statement {} .list) g.bound) stmtMarks := by
    rw [funext stmtMarks_eq]
    exact .itemsUntil _ (hg.statement _ _) _
  obtain ⟨s₀, s, hrun, hspells, hpending⟩ := spells_of_readFrom stmtMarks (fun g hg p =>
    .token (.ite (fun hline => .seq (.silent (by simp_all [Token.isIdentifier])) fun _ => hbody g hg)
      fun _ => hbody g hg p)) hread
  refine ⟨s.place, ?_, hspells, hpending⟩
  let items := itemsUntil (·.lexeme == .eof) ((grammarFor source.toList.length).statement {} .list)
    (grammarFor source.toList.length).bound
  have hend {s₁ : ReaderState} (hitems : items s₁ = some (body', s)) : s.token.lexeme = .eof :=
    eq_of_beq (stop_of_itemsUntil hitems)
  change (if (s₀.token.lexeme == .hashbang) = true then advance >>= fun _ => items else items) s₀ =
    some (body', s) at hrun
  by_cases hline : (s₀.token.lexeme == .hashbang) = true
  · rw [if_pos hline] at hrun
    obtain ⟨_, s₁, -, hitems⟩ : ∃ u s₁, advance s₀ = some (u, s₁) ∧ items s₁ = some (body', s) := by
      simpa [Bind.bind, StateT.bind, Option.bind_eq_some_iff] using hrun
    exact hend hitems
  · rw [if_neg hline] at hrun
    exact hend hrun

namespace ScopeTree

/-- The references of every expression and of every program are its identifiers in use. -/
theorem recorded_exactly (source : String) :
    (∀ e, parseExpression? source = some e → ∃ q, (ofExpr e).Records source e.marks q) ∧
      ∀ body, parseProgram? source = some body →
        ∃ q, q.1.lexeme = .eof ∧ (ofProgram body).Records source (stmtMarks body) q := by
  refine ⟨fun e h => ?_, fun body h => ?_⟩
  · obtain ⟨q, hspells, hpending⟩ := spells_of_parseExpression? h
    exact ⟨q, records_of_spells e.matched hpending hspells⟩
  · obtain ⟨q, hend, hspells, hpending⟩ := spells_of_parseProgram? h
    exact ⟨q, hend, records_of_spells (stmts_matched body) hpending hspells⟩

theorem recorded_exactly_of_assignment_and_loop :
    (∃ e, parseExpression? "(\x7ba, b: c.d = e\x7d = f)" = some e ∧
      (ofExpr e).references.map (·.occurrence) =
        [⟨⟨"a", 2, 3⟩, true⟩, ⟨⟨"c", 8, 9⟩, false⟩, ⟨⟨"e", 14, 15⟩, false⟩, ⟨⟨"f", 19, 20⟩, false⟩] ∧
      ∃ q, (ofExpr e).Records "(\x7ba, b: c.d = e\x7d = f)" e.marks q) ∧
    ∃ body, parseProgram? "l: for (let [x = y] of z) break l" = some body ∧
      (ofProgram body).references.map (·.occurrence) =
        [⟨⟨"x", 13, 14⟩, false⟩, ⟨⟨"y", 17, 18⟩, false⟩, ⟨⟨"z", 23, 24⟩, false⟩] ∧
      ∃ q, q.1.lexeme = .eof ∧
        (ofProgram body).Records "l: for (let [x = y] of z) break l" (stmtMarks body) q := by
  have hassign : (parseExpression? "(\x7ba, b: c.d = e\x7d = f)").map
      (fun e => (ofExpr e).references.map (·.occurrence)) = some
        [⟨⟨"a", 2, 3⟩, true⟩, ⟨⟨"c", 8, 9⟩, false⟩, ⟨⟨"e", 14, 15⟩, false⟩, ⟨⟨"f", 19, 20⟩, false⟩] := by
    decide +kernel
  have hloop : (parseProgram? "l: for (let [x = y] of z) break l").map
      (fun body => (ofProgram body).references.map (·.occurrence)) = some
        [⟨⟨"x", 13, 14⟩, false⟩, ⟨⟨"y", 17, 18⟩, false⟩, ⟨⟨"z", 23, 24⟩, false⟩] := by
    decide +kernel
  obtain ⟨e, he, hrefs⟩ := Option.map_eq_some_iff.mp hassign
  obtain ⟨body, hbody, hrefs'⟩ := Option.map_eq_some_iff.mp hloop
  exact ⟨⟨e, he, hrefs, (recorded_exactly _).1 e he⟩,
    body, hbody, hrefs', (recorded_exactly _).2 body hbody⟩

/-- Decorators and the options of an import are read, but what they mention is not recorded. -/
theorem unrecorded_decorator_and_options :
    (parseExpression? "@d class \x7b\x7d").map (fun e => (ofExpr e).references.map (·.ident)) = some [] ∧
      (parseExpression? "import(a, b)").map (fun e => (ofExpr e).references.map (·.ident)) =
        some [⟨"a", 7, 8⟩] := by
  decide +kernel

end ScopeTree

end TemplateCompiler.Script
