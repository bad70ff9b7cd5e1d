import TemplateCompiler.Proofs.Script.Branching
import TemplateCompiler.Script.Parse

/-! # Operands made of names

A name, a property of it, or a call of it with a name reads as an operand wherever one is expected,
and reading goes on after it.
-/

namespace TemplateCompiler.Script

open Reader
open Text (isIdentStart isIdentPart)

/-! ## Words -/

/-- No name goes on here. -/
def EndsName (rest : List Char) : Prop := ∀ c ∈ rest.head?, c ≠ '\\' ∧ isIdentPart c = false

/-- A word as it is read at the byte `pos`. -/
def wordToken (pos : Nat) (w : String) : Token where
  lexeme := .name w false
  start := pos
  stop := pos + utf8Length w.toList
  newline := false

theorem ne_backslash_of_isIdentPart {c : Char} (h : isIdentPart c = true) : c ≠ '\\' := by
  rintro rfl
  exact absurd h (by decide)

theorem nameRead_append {ds rest : List Char} (hds : ∀ d ∈ ds, isIdentPart d = true)
    (hrest : EndsName rest) : NameRead false (ds ++ rest) ds false rest := by
  induction ds with
  | nil => exact .stop hrest
  | cons d ds ih =>
    have hd := hds d (List.mem_cons_self ..)
    exact .char (ne_backslash_of_isIdentPart hd) hd
      (ih fun c hc => hds c (List.mem_cons_of_mem _ hc))

theorem isWord_of_letters {w : String} (hfirst : w.toList.head?.any isIdentStart = true)
    (hrest : w.toList.tail.all isIdentPart = true) : IsWord w := by
  cases hw : w.toList with
  | nil => simp [hw] at hfirst
  | cons c cs =>
    rw [hw] at hfirst hrest
    exact ⟨c, cs, hw, by simpa using hfirst, by simpa using hrest⟩

theorem nextTokenOf_word {w : String} {rest : List Char} (hw : IsWord w) (hrest : EndsName rest)
    (pos : Nat) : nextTokenOf pos (w.toList ++ rest) = (wordToken pos w, rest) := by
  obtain ⟨c, cs, hword, hc, hcs⟩ := hw
  have hne : c ≠ '\\' := by
    rintro rfl
    exact absurd hc (by decide)
  have hname : name? (c :: (cs ++ rest)) = some (w, false, rest) :=
    name?_eq_some_iff.mpr ⟨c, cs, by rw [← hword, String.ofList_toList],
      .char hne hc (nameRead_append hcs hrest)⟩
  have hbytes : bytesRead (c :: (cs ++ rest)) rest = utf8Length w.toList := by
    rw [← List.cons_append, bytesRead_append_right, hword]
  rw [hword, List.cons_append, nextTokenOf, skipGap_name hc]
  dsimp only
  rw [scan_name (by simp [beginsName, hc]), scanName, hname]
  simp [hbytes, wordToken]

/-- Reading goes on with the text `cs` at the byte `pos`. -/
def ReaderState.at (s : ReaderState) (pos : Nat) (cs : List Char) : ReaderState :=
  { s with
    token := (nextTokenOf pos cs).1
    rest := (nextTokenOf pos cs).2
    faulty := s.faulty || (nextTokenOf pos cs).1.flawed }

/-! ## Steps of a reader -/

section Steps

variable {α β : Type} (s : ReaderState) (p : Punct) (w : String)

theorem run_bind (r : Reader α) (f : α → Reader β) :
    (r >>= f) s = (r s).bind fun x => f x.1 x.2 := rfl

theorem run_map (f : α → β) (r : Reader α) :
    (f <$> r) s = (r s).map fun x => (f x.1, x.2) := by
  cases h : r s <;> simp [Functor.map, StateT.map, h]

theorem run_pure (a : α) : (pure a : Reader α) s = some (a, s) := rfl

theorem run_token : token s = some (s.token, s) := rfl

theorem run_nextToken : nextToken s = some ((nextTokenOf s.token.stop s.rest).1, s) := rfl

theorem run_advance : advance s = some ((), s.at s.token.stop s.rest) := rfl

theorem run_isAt : isAt p s = some (s.token.isPunct p, s) := rfl

theorem run_isAtWord : isAtWord w s = some (s.token.isWord w, s) := rfl

theorem run_complainIf_false : complainIf false s = some ((), s) := rfl

theorem run_accept (h : s.token.isPunct p = false) : accept p s = some (false, s) := by
  simp only [accept, run_bind, run_isAt, Option.bind_some, h]
  rfl

theorem run_expect_none (h : s.token.isPunct p = false) : expect p s = none := by
  simp only [expect, run_bind, run_isAt, Option.bind_some, h]
  rfl

theorem run_passWord :
    ∃ s', passWord s = some ((), s') ∧ s'.token = (nextTokenOf s.token.stop s.rest).1 := by
  cases h : s.token.isEscaped <;>
    exact ⟨_, by simp only [passWord, run_bind, run_token, Option.bind_some, h]; rfl, rfl⟩

theorem run_expect (h : s.token.isPunct p = true) : expect p s = advance s := by
  simp only [expect, run_bind, run_isAt, Option.bind_some, h, if_true]

end Steps

variable {g : Grammar} {mode : Mode} {s : ReaderState} {w : String}

theorem ne_of_not_reserved {x : String} (hw : isReserved w = false) (hx : isReserved x = true) :
    w ≠ x := by
  rintro rfl
  simp [hw] at hx

theorem primaryExpr_word {escaped : Bool} (hs : s.token.lexeme = .name w escaped)
    (hw : isReserved w = false) (hmode : mode.reserves w = false)
    (hnext : (nextTokenOf s.token.stop s.rest).1.isWord "function" = false) :
    primaryExpr g mode s =
      some (.ident ⟨w, s.token.start, s.token.stop⟩, s.at s.token.stop s.rest) := by
  have hne {x : String} (hx : isReserved x = true) : (w == x) = false :=
    beq_eq_false_iff_ne.mpr (ne_of_not_reserved hw hx)
  have hword {x : String} : s.token.isWord x = (w == x) := by simp [Token.isWord, hs]
  have hfunction : startsFunction s = some (false, s) := by
    simp only [startsFunction, run_bind, run_isAtWord, Option.bind_some, hword,
      hne (show isReserved "function" = true by decide), Bool.false_eq_true, if_false]
    split
    · simp [run_map, run_nextToken, hnext]
    · rfl
  have hident : identifier mode s =
      some (⟨w, s.token.start, s.token.stop⟩, s.at s.token.stop s.rest) := by
    simp [identifier, run_bind, run_token, Token.isIdentifier, hs, hw, anyWord, Token.word?,
      run_advance, hmode, run_complainIf_false, run_map]
  simp only [primaryExpr, run_bind, run_token, Option.bind_some, hs, wordOperand]
  -- every word that begins another kind of operand is reserved
  simp only [hne (show isReserved "this" = true by decide),
    hne (show isReserved "null" = true by decide), hne (show isReserved "true" = true by decide),
    hne (show isReserved "false" = true by decide), hne (show isReserved "class" = true by decide),
    hne (show isReserved "new" = true by decide), hne (show isReserved "super" = true by decide),
    hne (show isReserved "import" = true by decide), Bool.false_eq_true, if_false,
    run_bind, hfunction, hident, Option.bind_some, run_pure]

/-- A punctuator of one character as it is read at the byte `pos`. -/
def punctToken (pos : Nat) (p : Punct) : Token where
  lexeme := .punct p
  start := pos
  stop := pos + 1
  newline := false

theorem nextTokenOf_punct {p : Punct} {c : Char} {cs : List Char} {pos : Nat}
    (hc : isLineBreak c = false ∧ isSpace c = false ∧ c ≠ '/' ∧ c.utf8Size = 1)
    (h : scan pos (c :: cs) = (.punct p, false, cs)) :
    nextTokenOf pos (c :: cs) = (punctToken pos p, cs) := by
  obtain ⟨hline, hspace, hslash, hsize⟩ := hc
  have hbytes : bytesRead (c :: cs) cs = 1 := by
    rw [show c :: cs = [c] ++ cs from rfl, bytesRead_append_right, utf8Length_cons, utf8Length_nil,
      hsize]
  rw [nextTokenOf, skipGap_plain (fun heq => absurd heq hslash)]
  simp [hline, hspace, h, hbytes, punctToken]

theorem nextTokenOf_lparen (pos : Nat) (cs : List Char) :
    nextTokenOf pos ('(' :: cs) = (punctToken pos .lparen, cs) :=
  nextTokenOf_punct (by decide) rfl

theorem nextTokenOf_rparen (pos : Nat) (cs : List Char) :
    nextTokenOf pos (')' :: cs) = (punctToken pos .rparen, cs) :=
  nextTokenOf_punct (by decide) rfl

theorem nextTokenOf_dot {w : String} (hw : IsWord w) (pos : Nat) (rest : List Char) :
    nextTokenOf pos ('.' :: (w.toList ++ rest)) = (punctToken pos .dot, w.toList ++ rest) := by
  obtain ⟨c, cs, hword, hc, -⟩ := hw
  have hdot : ('.' == c) = false := by
    rw [beq_eq_false_iff_ne]
    rintro rfl
    exact absurd hc (by decide)
  have hdigit : c.isDigit = false := by
    cases hd : c.isDigit with
    | false => rfl
    | true => simp [isIdentStart_of_isDigit hd] at hc
  refine nextTokenOf_punct (by decide) ?_
  rw [hword, List.cons_append, scan]
  simp [hdigit, hdot, scanOther, punct?_eq_find (show '.' ≠ '?' by decide), punctuators, List.find?,
    List.isPrefixOf]

/-! ## Names -/

variable {bound depth : Nat} {escaped : Bool}

/-- Reads on after the operand `e`. -/
def chainFrom (g : Grammar) (mode : Mode) (n : Nat) (e : Expr) : Reader Expr := do
  let (e, isOptional) ← chainRest g mode true n e false
  complainIf (isOptional && mode.decorating)
  return if isOptional then .form .chain [e] else e

theorem leftHandSide_word (hs : s.token.lexeme = .name w escaped)
    (hw : isReserved w = false) (hmode : mode.reserves w = false)
    (hnext : (nextTokenOf s.token.stop s.rest).1.isWord "function" = false) :
    leftHandSide (grammar bound (depth + 1)) mode s =
      chainFrom (grammar bound (depth + 1)) mode (grammar bound (depth + 1)).bound
        (.ident ⟨w, s.token.start, s.token.stop⟩) (s.at s.token.stop s.rest) := by
  have hprimary := primaryExpr_word (g := grammar bound depth) hs hw hmode hnext
  rw [leftHandSide, run_bind, show (grammar bound (depth + 1)).primary mode s = _ from hprimary]
  rfl

theorem bound_grammar (bound depth : Nat) : (grammar bound depth).bound = bound := by
  induction depth with
  | zero => rfl
  | succ depth ih => exact ih

/-- An operand ends before the token. -/
def Token.EndsOperand (t : Token) : Prop := t.lexeme = .punct .rparen ∨ t.lexeme = .punct .semicolon

theorem Token.EndsOperand.isWord {t : Token} (h : t.EndsOperand) : t.isWord w = false := by
  rcases h with h | h <;> simp [Token.isWord, h]

theorem chainFrom_end {n : Nat} {e : Expr} (hs : s.token.EndsOperand) :
    chainFrom g mode (n + 1) e s = some (e, s) := by
  have hchain : chainRest g mode true (n + 1) e false s = some ((e, false), s) := by
    rcases hs with hs | hs <;> simp only [chainRest, run_bind, run_token, Option.bind_some, hs] <;> rfl
  simp only [chainFrom, run_bind, hchain, Option.bind_some]
  rfl

section Argument

variable (hs : s.token.lexeme = .name w escaped) (hw : isReserved w = false)
  (hmode : mode.reserves w = false)
  (hnext : (nextTokenOf s.token.stop s.rest).1.EndsOperand)

include hs hw hmode hnext

omit hs hw hmode in
theorem operandFollows_end : operandFollows s = some (false, s) := by
  simp only [operandFollows, run_bind, run_nextToken, Option.bind_some]
  rcases hnext with hnext | hnext <;> rw [hnext] <;> split <;> rfl

omit hw in
theorem startsAwait_word : startsAwait mode s = some (false, s) := by
  have hword : s.token.isWord "await" = (w == "await") := by simp [Token.isWord, hs]
  simp only [startsAwait, run_bind, run_isAtWord, Option.bind_some, hword]
  split
  · rename_i heq
    have hawaits : mode.awaits = false := by simp_all [Mode.reserves]
    simp [hawaits, run_bind, run_nextToken, hnext.isWord, operandFollows_end hnext]
  · rfl

omit hw in
theorem startsYield_word : startsYield mode s = some (false, s) := by
  have hword : s.token.isWord "yield" = (w == "yield") := by simp [Token.isWord, hs]
  simp only [startsYield, run_bind, run_isAtWord, Option.bind_some, hword]
  split
  · rename_i heq
    have hyields : mode.yields = false := by simp_all [Mode.reserves]
    simp [hyields, operandFollows_end hnext]
  · rfl

theorem unaryExpr_word :
    unaryExpr (grammar (bound + 1) (depth + 1)) mode s =
      some (.ident ⟨w, s.token.start, s.token.stop⟩, s.at s.token.stop s.rest) := by
  have hafter : (s.at s.token.stop s.rest).token.EndsOperand := hnext
  have hupdate : updateOperator s.token = false := by simp [updateOperator, Token.isPunct, hs]
  have hunary : unaryOperator s.token = false := by
    simp [unaryOperator, hs, ne_of_not_reserved hw (show isReserved "delete" = true by decide),
      ne_of_not_reserved hw (show isReserved "typeof" = true by decide),
      ne_of_not_reserved hw (show isReserved "void" = true by decide)]
  have hend : updateOperator (s.at s.token.stop s.rest).token = false := by
    rcases hafter with h | h <;> simp [updateOperator, Token.isPunct, h]
  simp only [unaryExpr, run_bind, run_token, Option.bind_some, hupdate, hunary, Bool.false_eq_true,
    if_false, startsAwait_word hs hmode hnext, updatedExpr, leftHandSide_word hs hw hmode hnext.isWord,
    bound_grammar, chainFrom_end hafter, hend, Bool.false_and]
  rfl

theorem binaryExpr_word :
    binaryExpr (grammar (bound + 1) (depth + 2)) mode 0 s =
      some (.ident ⟨w, s.token.start, s.token.stop⟩, s.at s.token.stop s.rest) := by
  have hunary : unaryExpr (grammar (bound + 1) (depth + 1)) mode s = _ :=
    unaryExpr_word hs hw hmode hnext
  have hafter : (s.at s.token.stop s.rest).token.EndsOperand := hnext
  have hop : (s.at s.token.stop s.rest).token.binaryOp? = none := by
    rcases hafter with h | h <;> simp [Token.binaryOp?, h, Punct.binaryOp?]
  have hforeign : (s.at s.token.stop s.rest).token.isForeignOperator = false := by
    simp [Token.isForeignOperator, hafter.isWord]
  simp only [binaryExpr, run_bind, run_isAt, run_token, Option.bind_some, hs, bound_grammar,
    binaryRest, show (grammar (bound + 1) (depth + 2)).unary mode s = _ from hunary, hop, hforeign,
    Bool.false_and, Bool.false_eq_true, if_false]
  rfl

omit hw hmode in
theorem parenthesizedArrow?_word : parenthesizedArrow? g mode s = some (none, s) := by
  have hother {s' : ReaderState} (h : s'.token.isPunct .lparen = false) :
      parametersLikelihood s' = none := by
    simp only [parametersLikelihood, run_bind, run_expect_none _ _ h, Option.bind_none]
  have hlikelihood : ((passAsync s).bind fun x => parametersLikelihood x.2) = none := by
    obtain ⟨s', hpass, htoken⟩ := run_passWord s
    simp only [passAsync, run_bind, run_isAtWord, Option.bind_some]
    split
    · simp only [run_bind, hpass, Option.bind_some, run_token]
      split
      · rfl
      · exact hother (by rcases hnext with h | h <;> simp [htoken, Token.isPunct, h])
    · exact hother (by simp [Token.isPunct, hs])
  simp only [parenthesizedArrow?, run_bind, peek, hlikelihood, Option.map_none, Option.bind_some]
  rfl

omit hs hw hmode in
theorem startsAsyncArrow_word : startsAsyncArrow s = some (false, s) := by
  obtain ⟨s', hpass, htoken⟩ := run_passWord s
  have hother : s'.token.isIdentifier = false := by
    rcases hnext with h | h <;> simp [htoken, Token.isIdentifier, h]
  simp only [startsAsyncArrow, run_bind, peek, expectWord, run_isAtWord, Option.bind_some]
  cases s.token.isWord "async" with
  | true =>
    simp only [if_true, hpass, Option.bind_some, run_token, hother, Bool.not_false, Bool.or_true]
    rfl
  | false => rfl

theorem assignmentExpr_word :
    assignmentExpr (grammar (bound + 1) (depth + 3)) mode s =
      some (.ident ⟨w, s.token.start, s.token.stop⟩, s.at s.token.stop s.rest) := by
  have hbinary : binaryExpr (grammar (bound + 1) (depth + 2)) mode 0 s = _ :=
    binaryExpr_word hs hw hmode hnext
  have hafter : (s.at s.token.stop s.rest).token.EndsOperand := hnext
  simp only [assignmentExpr, run_bind, run_token, Option.bind_some, startsYield_word hs hmode hnext,
    Bool.false_eq_true, if_false, parenthesizedArrow?_word hs hnext,
    startsAsyncArrow_word hnext,
    show (grammar (bound + 1) (depth + 3)).binary mode 0 s = _ from hbinary, run_isAt]
  obtain ⟨harrow, hassign, hquestion⟩ : (s.at s.token.stop s.rest).token.isPunct .arrow = false ∧
      assignmentOperator (s.at s.token.stop s.rest).token = false ∧
      (s.at s.token.stop s.rest).token.isPunct .question = false := by
    rcases hafter with h | h <;> simp [assignmentOperator, Token.isPunct, h]
  simp only [harrow, run_bind, run_token, Option.bind_some, hassign, Bool.false_eq_true, if_false,
    conditionalRest, run_accept _ _ hquestion]
  rfl

end Argument

/-! ## Operands -/

variable {pos n : Nat} {e : Expr} {rest : List Char}

theorem at_word (hw : IsWord w) (hrest : EndsName rest) :
    s.at pos (w.toList ++ rest) = { s with token := wordToken pos w, rest } := by
  simp [ReaderState.at, nextTokenOf_word hw hrest, wordToken]

theorem at_punct {p : Punct} {cs : List Char} (h : nextTokenOf pos cs = (punctToken pos p, rest)) :
    s.at pos cs = { s with token := punctToken pos p, rest } := by
  simp [ReaderState.at, h, punctToken]

theorem at_space (h : rest.head?.any isIdentStart = true) :
    s.at pos (' ' :: rest) = s.at (pos + 1) rest := by
  cases rest with
  | nil => simp at h
  | cons c cs =>
    have hgap : skipGap .plain (' ' :: c :: cs) pos false = skipGap .plain (c :: cs) (pos + 1) _ := rfl
    simp only [ReaderState.at, nextTokenOf, hgap, skipGap_name (by simpa using h)]

theorem leftHandSide_name (hw : IsWord w) (hreserved : isReserved w = false)
    (hmode : mode.reserves w = false) (hrest : EndsName rest)
    (hnext : (nextTokenOf (pos + utf8Length w.toList) rest).1.isWord "function" = false) :
    leftHandSide (grammar bound (depth + 1)) mode (s.at pos (w.toList ++ rest)) =
      chainFrom (grammar bound (depth + 1)) mode bound
        (.ident ⟨w, pos, pos + utf8Length w.toList⟩) (s.at (pos + utf8Length w.toList) rest) := by
  rw [at_word hw hrest, leftHandSide_word rfl hreserved hmode hnext, bound_grammar]
  rfl

theorem chainFrom_eq {m : Nat} {e' : Expr} {s' : ReaderState}
    (h : chainRest g mode true n e false s = chainRest g mode true m e' false s') :
    chainFrom g mode n e s = chainFrom g mode m e' s' := by
  simp only [chainFrom, run_bind, h]

theorem chainFrom_member (hw : IsWord w) (hrest : EndsName rest) :
    chainFrom g mode (n + 1) e (s.at pos ('.' :: (w.toList ++ rest))) =
      chainFrom g mode n (.form (.member w) [e]) (s.at (pos + 1 + utf8Length w.toList) rest) := by
  refine chainFrom_eq ?_
  rw [at_punct (nextTokenOf_dot hw pos rest), chainRest, run_bind, run_token]
  simp only [Option.bind_some, punctToken, run_bind, run_advance, at_word hw hrest, memberAccess,
    run_token, wordToken]
  rfl

section

variable (hw : IsWord w) (hreserved : isReserved w = false) (hmode : mode.reserves w = false)

include hw hreserved hmode

theorem spreadable_name :
    spreadable (grammar (bound + 1) (depth + 4)) mode (s.at pos (w.toList ++ ')' :: rest)) =
      some (.ident ⟨w, pos, pos + utf8Length w.toList⟩,
        s.at (pos + utf8Length w.toList) (')' :: rest)) := by
  have hrest : EndsName (')' :: rest) := by simp [EndsName, show isIdentPart ')' = false by decide]
  rw [at_word hw hrest, spreadable, run_bind, run_accept _ _ rfl]
  exact assignmentExpr_word rfl hreserved hmode
    (.inl (by rw [show nextTokenOf _ _ = _ from nextTokenOf_rparen _ _]; rfl))

theorem arguments_name :
    arguments (grammar (bound + 1) (depth + 4)) mode (s.at pos ('(' :: (w.toList ++ ')' :: rest))) =
      some ([.ident ⟨w, pos + 1, pos + 1 + utf8Length w.toList⟩],
        s.at (pos + 1 + utf8Length w.toList + 1) rest) := by
  have hrest : EndsName (')' :: rest) := by simp [EndsName, show isIdentPart ')' = false by decide]
  have hitem : spreadable (grammar (bound + 1) (depth + 4)) mode
      (s.at (pos + 1) (w.toList ++ ')' :: rest)) = _ := spreadable_name hw hreserved hmode
  rw [at_punct (nextTokenOf_rparen ..)] at hitem
  have hopen : (s.at (pos + 1) (w.toList ++ ')' :: rest)).token.isPunct .rparen = false := by
    rw [at_word hw hrest]
    rfl
  rw [arguments, run_bind, at_punct (nextTokenOf_lparen ..), run_expect _ _ rfl,
    show advance _ = some ((), s.at (pos + 1) (w.toList ++ ')' :: rest)) from rfl, Option.bind_some,
    bound_grammar]
  simp only [commaList, run_bind, run_isAt, Option.bind_some, hopen, Bool.false_eq_true, if_false,
    hitem]
  rfl

theorem chainFrom_call : chainFrom (grammar (bound + 1) (depth + 4)) mode (n + 1) e
        (s.at pos ('(' :: (w.toList ++ ')' :: rest))) =
      chainFrom (grammar (bound + 1) (depth + 4)) mode n
        (.form .call [e, .ident ⟨w, pos + 1, pos + 1 + utf8Length w.toList⟩])
        (s.at (pos + 1 + utf8Length w.toList + 1) rest) := by
  have hlexeme : (s.at pos ('(' :: (w.toList ++ ')' :: rest))).token.lexeme = .punct .lparen := by
    rw [at_punct (nextTokenOf_lparen ..)]
    rfl
  refine chainFrom_eq ?_
  rw [chainRest, run_bind, run_token]
  simp only [Option.bind_some, hlexeme, if_true, run_bind, arguments_name hw hreserved hmode]

end

/-! ## Keys -/

theorem methodKind_colon (hs : s.token.lexeme = .name w false)
    (hnext : (nextTokenOf s.token.stop s.rest).1.lexeme = .punct .colon) :
    methodKind s = some ({}, s) := by
  have hmodifier {x sameLine star} : modifier x sameLine star s = some (false, s) := by
    simp only [modifier, run_bind, run_isAtWord, Option.bind_some]
    split
    · simp [run_bind, run_nextToken, Token.startsPropertyName, Token.isPunct, hnext, run_pure]
    · rfl
  simp only [methodKind, run_bind, hmodifier, run_accept s .star (by simp [Token.isPunct, hs]),
    Option.bind_some, Bool.or_self, Bool.false_eq_true, if_false, run_pure]

/-- A word before a colon is the key of a property. -/
theorem property_pair (hw : IsWord w) (hrest : rest.head?.any isIdentStart = true) :
    property g mode (s.at pos (w.toList ++ ':' :: ' ' :: rest)) =
      (g.assignment mode (s.at (pos + utf8Length w.toList + 2) rest)).map
        fun x => (.pair (.fixed w) x.1, x.2) := by
  have hcolon : nextTokenOf (pos + utf8Length w.toList) (':' :: ' ' :: rest) =
      (punctToken _ .colon, _) := nextTokenOf_punct (by decide) rfl
  obtain ⟨ident, hname⟩ : ∃ ident,
      propertyName g mode { s with token := wordToken pos w, rest := ':' :: ' ' :: rest } =
        some ({ key := .fixed w, ident }, s.at (pos + utf8Length w.toList) (':' :: ' ' :: rest)) :=
    ⟨_, rfl⟩
  rw [at_punct hcolon] at hname
  rw [at_word hw (by simp [EndsName, show isIdentPart ':' = false by decide]), property, run_bind,
    run_accept _ _ rfl]
  simp only [Option.bind_some, Bool.false_eq_true, if_false, run_bind]
  rw [methodKind_colon (w := w) rfl (congrArg (·.1.lexeme) hcolon)]
  simp only [Option.bind_some, hname, run_complainIf_false]
  rw [← show s.at (pos + utf8Length w.toList + 1) (' ' :: rest) = _ from at_space hrest]
  exact Option.map_eq_bind.symm

end TemplateCompiler.Script
