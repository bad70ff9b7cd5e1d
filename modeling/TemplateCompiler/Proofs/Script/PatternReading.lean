import TemplateCompiler.Proofs.Script.Operating

/-! # Reading patterns

The names of a pattern are found by declaring it. A text that is one pattern has the names of this
pattern.
-/

namespace TemplateCompiler.Script

open Reader

variable {g : Grammar} {mode : Mode} {s s' : ReaderState} {b : Binding}

/-! ## Declarations -/

theorem token_of_bindingTarget (h : bindingTarget g mode s = some (b, s')) :
    s.token.isPunct .lbrace = true ∨ s.token.isPunct .lbracket = true ∨
      s.token.isIdentifier = true := by
  refine Decidable.byContradiction fun hnot => ?_
  simp only [not_or, Bool.not_eq_true] at hnot
  obtain ⟨hbrace, hbracket, hid⟩ := hnot
  simp only [bindingTarget, run_bind, run_accept _ _ hbrace, run_accept _ _ hbracket, identifier,
    run_token, hid, Option.bind_some, Bool.false_eq_true, if_false] at h
  cases h

/-- `let` declares what a pattern behind it binds. -/
theorem letStatement_of_binding {g' : Grammar} (hs : s.token.isEscaped = false)
    (h : bindingTarget g mode (s.at s.token.stop s.rest) = some (b, s')) :
    letStatement g' {} .list s = variableStatement g' {} .letDecl (s.at s.token.stop s.rest) := by
  obtain ⟨hoperator, hother⟩ : (assignmentOperator (nextTokenOf s.token.stop s.rest).1 ||
      (nextTokenOf s.token.stop s.rest).1.binaryOp?.any (!·.isLogical)) = false ∧
      ∀ p ∈ [Punct.dot, .lparen, .semicolon],
        (nextTokenOf s.token.stop s.rest).1.isPunct p = false := by
    have ht := token_of_bindingTarget h
    generalize htoken : (nextTokenOf s.token.stop s.rest).1 = t
    rw [show (s.at s.token.stop s.rest).token = t from htoken] at ht
    rcases ht with ht | ht | ht
    · simp_all [Token.isPunct, assignmentOperator, Token.binaryOp?, Punct.binaryOp?]
    · simp_all [Token.isPunct, assignmentOperator, Token.binaryOp?, Punct.binaryOp?]
    · obtain ⟨w, escaped, hlexeme, hw⟩ := Token.name_of_isIdentifier ht
      simp [Token.isPunct, assignmentOperator, Token.binaryOp?, hlexeme,
        ne_of_not_reserved hw (show isReserved "in" = true by decide),
        ne_of_not_reserved hw (show isReserved "instanceof" = true by decide)]
  simp only [letStatement, run_bind, run_nextToken, Option.bind_some, hoperator, hother, List.mem_cons,
    true_or, or_true, Bool.or_self, Bool.false_eq_true, if_false, passWord, Bool.false_and,
    show (Place.list == .single) = false from rfl, run_token, hs, run_complainIf_false, run_advance]

/-- The value behind a pattern is read to the end of the text. -/
theorem variableStatement_of_binding {bound depth : Nat} {t : Token} (ht : t.lexeme = .punct .assign)
    (hb : (grammar (bound + 1) (depth + 4)).binding {} s = some (b, ⟨t, [' ', '_', ';'], false, 0⟩)) :
    variableStatement (grammar (bound + 1) (depth + 4)) {} .letDecl s =
      some (.declare .letDecl [.withDefault b (.ident ⟨"_", t.stop + 1, t.stop + 2⟩)],
        ⟨(nextTokenOf (t.stop + 3) []).1, [], false, 0⟩) := by
  have hvalue : (grammar (bound + 1) (depth + 4)).assignment {}
      ⟨wordToken (t.stop + 1) "_", [';'], false, 0⟩ =
        some (.ident ⟨"_", t.stop + 1, t.stop + 2⟩,
          ⟨punctToken (t.stop + 2) .semicolon, [], false, 0⟩) :=
    assignmentExpr_word (w := "_") rfl (by decide) (by decide) (.inr rfl)
  have haccept : accept .assign ⟨t, [' ', '_', ';'], false, 0⟩ =
      some (true, ⟨wordToken (t.stop + 1) "_", [';'], false, 0⟩) := by
    simp only [accept, run_bind, run_isAt, Token.isPunct, ht, Option.bind_some]
    rfl
  have hdeclarator : declarator (grammar (bound + 1) (depth + 4)) {} s =
      some (.withDefault b (.ident ⟨"_", t.stop + 1, t.stop + 2⟩),
        ⟨punctToken (t.stop + 2) .semicolon, [], false, 0⟩) := by
    simp only [declarator, run_bind, show Mode.inside {} = {} from rfl, hb, haccept, hvalue,
      Option.bind_some, if_true]
    rfl
  simp only [variableStatement, declaredVariables, declarators, run_bind, bound_grammar, commaItems,
    hdeclarator, Option.bind_some]
  rfl

/-! ## Texts with a pattern -/

/-- The text that a pattern is read from, at its first token. -/
def letState (pattern : String) : ReaderState where
  token := wordToken 0 "let"
  rest := ' ' :: (pattern.toList ++ [' ', '=', ' ', '_', ';'])

/-- What the production for patterns reads behind `let`. -/
def readPattern (pattern : String) : Option (Binding × ReaderState) :=
  let n := ("let " ++ pattern ++ " = _;").toList.length
  (grammar (n + 2) (16 * n + 31)).binding {} ((letState pattern).at 3 (letState pattern).rest)

/-- The text is one pattern, which is read up to the equals sign that is put behind it. -/
def IsPattern (pattern : String) (b : Binding) : Prop :=
  ∃ t, t.lexeme = .punct .assign ∧ readPattern pattern = some (b, ⟨t, [' ', '_', ';'], false, 0⟩)

theorem IsPattern.names_eq {pattern : String} (h : IsPattern pattern b) :
    patternNames? pattern = some (b.idents.map (·.name)) := by
  obtain ⟨t, ht, hread⟩ := h
  have hlet : (grammarFor ("let " ++ pattern ++ " = _;").toList.length).statement {} .list
      (letState pattern) = some _ :=
    (letStatement_of_binding rfl hread).trans (variableStatement_of_binding ht hread)
  have hfirst : nextTokenOf 0 ("let " ++ pattern ++ " = _;").toList =
      (wordToken 0 "let", (letState pattern).rest) := by
    rw [show ("let " ++ pattern ++ " = _;").toList = "let".toList ++ (letState pattern).rest by
      simp [letState]]
    exact nextTokenOf_word (isWord_of_letters (by decide) (by decide))
      (by simp [EndsName, letState]; decide) 0
  rw [patternNames?, parseProgram?, readFrom, hfirst]
  simp only [run_bind, run_token, Option.bind_some, show (grammarFor _).bound = _ from bound_grammar ..]
  change Option.bind (Option.bind (Option.bind (itemsUntil _ _ (_ + 1) (letState pattern)) _) _) _ = _
  rw [itemsUntil, run_bind, run_token, Option.bind_some, if_neg (by simp [letState, wordToken]),
    run_bind, hlet]
  rfl

example : (readPattern "[a, ...b] /* c */").any (·.2.rest == [' ', '_', ';']) = true := by
  decide +kernel

end TemplateCompiler.Script
