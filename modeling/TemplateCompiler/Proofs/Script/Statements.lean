import TemplateCompiler.Proofs.Script.Operands
import TemplateCompiler.Script.Parse

/-! # Accounts of scripts

Every production of statements accounts for the words that it reads if the productions that it uses
do. So the whole grammar does, to any depth: a script is spelled by the marks of its tree.
-/

namespace TemplateCompiler.Script

open Reader

variable {e : Expr} {source : String}

/-! ## Modules -/

theorem specifier_keeps : Keeps .specifiers anyWord := .within rfl .anyWord

theorem identifier_keeps (mode : Mode) : Keeps .specifiers (identifier mode) :=
  .bind (.silently .token) fun _ => .ite (.bind specifier_keeps fun _ =>
    .bind (.silently (.complainIf _)) fun _ => .pure) .fail

theorem acceptWord_keeps (w : String) : Keeps .specifiers (acceptWord w) :=
  fun _ => .isAtWord (.ite (fun h => .andThen (.within rfl (.specifier h)) fun _ => .pure rfl)
    fun _ => .pure rfl)

theorem expectWord_keeps (w : String) : Keeps .specifiers (expectWord w) :=
  fun _ => .isAtWord (.ite (fun h => .within rfl (.specifier h)) fun _ => .fail)

theorem importAttribute_keeps : Keeps .specifiers importAttribute := by
  refine fun p => .token ?_
  split
  · exact .seq (.silent (by simp [Token.isIdentifier, *])) fun _ => .seq (.pure rfl) fun _ =>
      .seq (.expect _) fun _ => .seq .stringLiteral fun _ => .pure rfl
  · exact .andThen (specifier_keeps p) fun _ => .seq (.pure rfl) fun _ => .seq (.expect _) fun _ =>
      .seq .stringLiteral fun _ => .pure rfl

theorem importAttributes_keeps (bound : Nat) : Keeps .specifiers (importAttributes bound) := by
  refine fun p => .token (.ite (fun hc => ?_) fun _ => .pure rfl)
  obtain ⟨w, hword⟩ : ∃ w, p.1.isWord w = true := by
    cases hwith : p.1.isWord "with" with
    | true => exact ⟨_, hwith⟩
    | false => exact ⟨"assert", by simp_all⟩
  exact .andThen (.within rfl (.specifier hword)) fun _ => .seq (.expect _) fun _ => .andThen
    (Keeps.commaList _ importAttribute_keeps _) fun _ => .seq (.complainIf _) fun _ =>
      Keeps.silently (.expect _)

theorem moduleSource_keeps (bound : Nat) : Keeps .specifiers (moduleSource bound) :=
  .bind (.silently .stringLiteral) fun _ => .bind (importAttributes_keeps bound) fun _ =>
    .silently .endStatement

theorem foreignName_keeps : Keeps .specifiers foreignName := by
  refine .bind (.silently .token) fun t => ?_
  split
  · exact .silently .stringLiteral
  · exact .bind specifier_keeps fun _ => .pure

theorem importSpecifier_keeps : Keeps .specifiers importSpecifier := by
  have hname : Keeps .specifiers (do
      if (← token).word?.isSome then return some (← anyWord)
      let _ ← stringLiteral
      return none) :=
    .bind (.silently .token) fun _ => .ite (.bind specifier_keeps fun _ => .pure)
      (.bind (.silently .stringLiteral) fun _ => .pure)
  refine .bind hname fun _ => .bind (acceptWord_keeps _) fun _ => .ite (.bind hname ?last)
    (.bind .pure ?last)
  intro last
  cases last with
  | some id => exact .bind (.silently (.complainIf _)) fun _ => .pure
  | none => exact .fail

theorem namedImports_keeps (bound : Nat) : Keeps .specifiers (namedImports bound) :=
  .bind (.silently (.expect _)) fun _ => .bind (.commaList _ importSpecifier_keeps _) fun _ =>
    .bind (.silently (.expect _)) fun _ => .pure

theorem importClause_keeps (mode : Mode) (bound : Nat) :
    Keeps .specifiers (importClause mode bound) :=
  .bind (.silently (.accept _)) fun _ => .ite (.bind (expectWord_keeps _) fun _ =>
    .bind (identifier_keeps mode) fun _ => .pure) (namedImports_keeps bound)

theorem importedDefault_keeps (mode : Mode) : Keeps .specifiers (importedDefault mode) := by
  have hname := identifier_keeps mode
  refine .bind (.silently .token) fun _ => .ite .pure (.bind hname fun _ =>
    .bind (.silently .token) fun _ => .ite (.bind (.silently (.isAtWord _)) fun _ =>
      .bind hname fun _ => .bind (.silently (.isAtWord _)) fun _ => .ite .pure .pure) ?_)
  exact .bind (.silently (.isAt _)) fun _ => .ite .pure .pure

theorem importDeclaration_accounts (mode : Mode) (bound : Nat) :
    Accounts [] (importDeclaration mode bound) Stmt.marks := by
  refine .seq (.expectReserved (by decide)) fun _ => .absent [.specifiers] rfl
    (.andThen (importedDefault_keeps mode) fun _ => .seq .token fun t => ?_)
  split
  · exact .andThen (moduleSource_keeps bound) fun _ => .pure rfl
  · refine .ite (.seq (.pure rfl) ?more) (.seq (.accept _) ?more)
    refine fun _ => .ite (.andThen (importClause_keeps mode bound) ?source)
      (.seq (.pure rfl) ?source)
    exact fun _ => .andThen (expectWord_keeps _) fun _ =>
      .andThen (moduleSource_keeps bound) fun _ => .pure rfl

theorem exportSpecifier_keeps : Keeps .specifiers exportSpecifier :=
  .bind (.silently .token) fun _ => .bind foreignName_keeps fun _ =>
    .bind (acceptWord_keeps _) fun _ => .ite (.bind foreignName_keeps fun _ => .pure) .pure

theorem Keeps.exported {r : Reader Stmt} (hr : Keeps .specifiers r)
    (hgives : ∀ p, GivesAt p r fun s => ∃ names, s = .exported names []) :
    Accounts [.decorators] r Stmt.marks := by
  intro p
  rw [← bind_pure r]
  refine .andThenWith (hgives p) (hr.alone rfl p).after fun s hs => ?_
  obtain ⟨names, rfl⟩ := hs
  exact .pure rfl

theorem exportList_accounts (bound : Nat) :
    Accounts [.decorators] (exportList bound) Stmt.marks := by
  refine Keeps.exported ?_ fun p => ?_
  · exact .bind (.silently (.expect _)) fun _ => .bind (.commaList _ exportSpecifier_keeps _) fun _ =>
      .bind (.silently (.expect _)) fun _ => .bind (acceptWord_keeps _) fun _ =>
        .bind (.silently .token) fun _ => .ite (.bind (moduleSource_keeps bound) fun _ => .pure)
          (.bind (.silently (.complainIf _)) fun _ => .bind (.silently .endStatement) fun _ => .pure)
  · exact .bind fun _ _ => .bind fun _ _ => .bind fun _ _ => .bind fun _ _ => .bind fun _ _ => .ite
      (fun _ => .bind fun _ _ => .pure ⟨_, rfl⟩)
      fun _ => .bind fun _ _ => .bind fun _ _ => .pure ⟨_, rfl⟩

theorem exportAll_accounts (bound : Nat) : Accounts [.decorators] (exportAll bound) Stmt.marks := by
  refine Keeps.exported (.bind (.silently (.expect _)) fun _ => .bind (acceptWord_keeps _) fun _ =>
    .ite (.bind foreignName_keeps fun _ => .bind .pure ?rest) (.bind .pure ?rest)) fun p => ?_
  · exact fun _ => .bind (expectWord_keeps _) fun _ =>
      .bind (moduleSource_keeps bound) fun _ => .pure
  · refine .bind fun _ _ => .bind fun _ _ => .ite (fun _ => .bind fun _ _ => ?_) fun _ => ?_ <;>
      exact .bind fun _ _ => .bind fun _ _ => .bind fun _ _ => .pure ⟨_, rfl⟩

theorem declarationWord_accounts {p : Token × List Char}
    (hp : p.1.isWord "let" = true ∨ p.1.isIdentifier = false) :
    AccountsAt p [] passWord fun _ => [.words ["let", "using"]] := by
  obtain hword | hsilent := hp
  · exact .keyword _ hword (by simp)
  · exact (AccountsAt.passWord (.silent hsilent)).single rfl fun _ _ hq => hq.trans (.absent rfl)

theorem isIdentifier_of_declarationKind? {t : Token} {kind : DeclarationKind}
    (h : declarationKind? t = some kind) : t.isIdentifier = false := by
  unfold declarationKind? at h
  split at h
  · simp only [Token.isIdentifier, *]
    decide
  · simp only [Token.isIdentifier, *]
    decide
  · cases h

theorem startsUsing_accounts (inLoop : Bool) : Accounts [] (startsUsing inLoop) fun _ => [] :=
  .seq (.peek _) fun _ => .pure rfl

theorem importEvaluates_accounts : Accounts [] importEvaluates fun _ => [] :=
  .seq .nextToken fun _ => .pure rfl

theorem letDeclaresInLoop_looks (p : Token × List Char) :
    LooksAt p letDeclaresInLoop fun b => b = true → p.1.isWord "let" = true := by
  refine .bind (.isAtWord _) fun b hb => ?_
  subst hb
  split
  · rename_i hword
    exact .bind .nextToken fun _ _ => .pure fun _ => hword
  · exact .pure nofun

section Productions

variable {g : Grammar} (hg : g.Accounted) (mode : Mode)

include hg

/-! ## Declarations -/

theorem declarator_accounts : Accounts [] (declarator g mode) (Binding.marks true) :=
  .bind (hg.binding _ true) fun _ => .seq (.accept _) fun _ => .ite
    (.bind (hg.assignment _) fun _ => .pure (by simp)) (.pure rfl)

theorem declarators_accounts : Accounts [] (declarators g mode) (bindingMarks true) := by
  rw [funext (bindingMarks_eq true)]
  exact .commaItems (declarator_accounts hg mode) _

theorem declaredVariables_accounts (kind : DeclarationKind) (isOpen : Bool) :
    Accounts [] (declaredVariables g mode kind isOpen) (bindingMarks true) :=
  .bind (declarators_accounts hg mode) fun _ => .seq (.complainIf _) fun _ =>
    .seq .endStatement fun _ => .pure rfl

theorem variableStatement_accounts {p : Token × List Char}
    (hp : p.1.isWord "let" = true ∨ p.1.isIdentifier = false) (kind : DeclarationKind) :
    AccountsAt p [] (do passWord; variableStatement g mode kind) Stmt.marks :=
  .absent [.words modifierWords, .words ["await"]] rfl (.bind (declarationWord_accounts hp) fun _ =>
    .bind (declaredVariables_accounts hg mode kind false) fun _ => .pure rfl)

theorem usingDeclarators_accounts :
    Accounts [] (usingDeclarators g mode) fun bs => declarationWords ++ bindingMarks true bs := by
  refine .absent [.words modifierWords] rfl (.bind
    (.perhaps rfl (.acceptWord ["await"] (by simp))) fun _ =>
      .ite (.seq (.complainIf _) ?rest) (?rest ()))
  exact fun _ => .bind (.expectWord ["let", "using"] (by simp)) fun _ =>
    .bind (declarators_accounts hg mode) fun _ => .seq (.complainIf _) fun _ => .pure rfl

theorem usingStatement_accounts : Accounts [] (usingStatement g mode) Stmt.marks :=
  .bind (usingDeclarators_accounts hg mode) fun _ => .seq (.complainIf _) fun _ =>
    .seq .endStatement fun _ => .pure rfl

omit hg in
theorem functionDeclaration_gives (isAsync : Bool) (place : Place) (anonymous : Bool)
    (p : Token × List Char) : GivesAt p (functionDeclaration g mode isAsync place anonymous)
      fun s => ∃ name ps body, s = .function name ps body := by
  refine .bind fun _ _ => .bind fun _ _ => .bind fun _ _ => .bind fun _ _ => ?_
  split <;> exact .bind fun _ _ => .bind fun _ _ => .bind fun _ _ => .pure ⟨_, _, _, rfl⟩

theorem functionDeclaration_accounts (seen : List Mark) (isAsync : Bool) (place : Place)
    (anonymous : Bool) : Accounts (seen ++ [.words modifierWords])
      (functionDeclaration g mode isAsync place anonymous) fun s => seen ++ s.marks := by
  refine .seq (.expectReserved (by decide)) fun _ => .seq (.accept _) fun _ =>
    .seq (.complainIf _) fun _ => .seq .token fun _ =>
      .ite (.bind (someBinder_accounts _) ?rest) (.bind noBinder_accounts ?rest)
  exact fun _ => .seq (.complainIf _) fun _ => .bind (functionRest_accounts hg _ _) fun _ =>
    .pure (by simp)

theorem startedFunction_accounts (seen : List Mark) (place : Place) (anonymous : Bool) :
    Accounts seen (do
      let isAsync ← acceptWord "async"
      functionDeclaration g mode isAsync place anonymous) fun s => seen ++ s.marks :=
  .bind (.perhaps rfl (.acceptWord modifierWords (by decide))) fun isAsync =>
    functionDeclaration_accounts hg mode seen isAsync place anonymous

theorem classDeclaration_accounts (seen : List Mark) :
    Accounts (seen ++ classWords) (classDeclaration g mode) fun s => seen ++ s.marks :=
  .andThen (classRest_accounts hg mode seen) fun _ => .pure rfl

theorem namedSignature_keeps : Keeps .dropped (namedSignature g mode) := by
  have hps : Keeps .dropped (parameters g mode) := .drop (parameters_accounts hg mode)
  have hword (w : String) : Keeps .dropped (modifier w false true) := .drop (modifier_accounts _ _ _)
  refine .bind (.drop (modifiersAfter_accounts _ _ _)) fun _ =>
    .bind (.silently (.complainIf _)) fun _ => .bind (hword _) fun _ =>
      .ite (.bind .pure ?rest) (.bind (hword _) ?rest)
  refine fun _ => .bind (.drop (propertyName_accounts hg mode)) fun _ =>
    .bind (.silently (.complainIf _)) fun _ => .ite (.bind hps fun _ => .silently (.complainIf _))
      (.ite (.bind hps fun _ => .silently (.complainIf _)) ?_)
  exact .bind (.silently (.accept _)) fun _ => .bind (.silently (.isAt _)) fun _ =>
    .ite (.bind hps fun _ => .pure) .pure

theorem signature_keeps : Keeps .dropped (signature g mode) := by
  refine fun p => .isAtWord (.nextToken ?_)
  extract_lets stop rest
  have hstop (u : Unit) : Keeps .dropped (stop u) :=
    .bind (.silently (.accept _)) fun _ => .ite (.silently .endStatement) .pure
  have hrest (u : Unit) : Keeps .dropped (rest u) :=
    .bind (.silently (.isAt _)) fun _ => .ite
      (.bind (.drop (parameters_accounts hg mode)) fun _ => hstop ())
      (.bind (namedSignature_keeps hg mode) hstop)
  refine .ite (fun hc => ?_) fun _ => hrest () p
  have hword : p.1.isWord "new" = true := by simp_all
  exact .andThen (.drop (.reserved hword (by decide))) hrest

/-- An interface leaves nothing behind. -/
theorem interfaceDeclaration_accounts {p : Token × List Char} (hp : p.1.isWord "interface" = true) :
    AccountsAt p [] (interfaceDeclaration g mode) fun _ => [.aside] := by
  have hname : Keeps .dropped (identifier mode) := .drop (identifier_accounts mode)
  have hqualified (bound : Nat) : Keeps .dropped (qualifiedRest bound) := by
    refine .bind (.itemsUntil _ ?_ _) fun _ => .pure
    exact .bind (.silently (.expect _)) fun _ => .bind (.drop .anyWord) fun _ => .pure
  have hextended : Keeps .dropped (do let _ ← identifier mode; qualifiedRest g.bound) :=
    .bind hname fun _ => hqualified _
  have hread : Keeps .dropped (interfaceDeclaration g mode) := by
    refine .bind (.drop (.expectWord ["interface"] (by simp))) fun _ => .bind hname fun _ =>
      .bind (.silently (.acceptReserved (by decide))) fun _ => .ite
        (.bind (.commaItems hextended _) fun _ => ?rest) ?rest
    exact .bind (.silently (.expect _)) fun _ => .bind (.itemsUntil _ (signature_keeps hg mode) _)
      fun _ => .silently (.expect _)
  exact (hread.alone rfl p).single rfl fun _ _ => .interface hp

/-! ## Exports -/

omit hg in
theorem Accounts.decorated {seen : List Mark} {r : Reader Stmt} {ms : Stmt → List Mark}
    (before after : Bool) (h : Accounts (.decorators :: .decorators :: seen) r ms) :
    Accounts ((if before then [.decorators] else []) ++ (if after then [.decorators] else []) ++ seen)
      r ms := by
  cases before with
  | true =>
    cases after with
    | true => exact h
    | false => exact .absentBefore [.decorators] rfl h
  | false =>
    cases after with
    | true => exact .absentBefore [.decorators] rfl h
    | false => exact .absentBefore [.decorators, .decorators] rfl h

omit hg in
theorem Accounts.undecorated {f : Unit → Reader Stmt} {ms : Stmt → List Mark}
    {before after : Bool} (seen : List Mark) (h : Accounts seen (f ()) ms) :
    Accounts ((if before then [.decorators] else []) ++ (if after then [.decorators] else []) ++ seen)
      (Reader.complainIf (before || after) >>= f) ms := by
  refine fun p => .faultless (h p) fun hc => ?_
  obtain ⟨rfl, rfl⟩ : before = false ∧ after = false := by simpa using hc
  exact h p

theorem exportDefault_accounts (decorated : Bool) :
    Accounts (if decorated then [.decorators] else []) (exportDefault g mode decorated)
      Stmt.marks := by
  have hclass (names : List String) : Accounts (.decorators :: classWords) (do
      return Stmt.exported names [← classDeclaration g mode]) Stmt.marks :=
    .andThen (classDeclaration_accounts hg mode [.decorators]) fun _ => .pure (by simp)
  refine .seq (.expectReserved (by decide)) fun _ => .bind (decorators_accounts hg mode)
    fun again p => .complainIf (.nextToken (.isAtWord (.ite (fun hc => ?_) fun _ =>
      .isAtWord (.ite (fun _ => ?_)
        fun _ => (Accounts.undecorated [] ?_).of_eq (List.append_nil _) p))))
  · have hword : p.1.isWord "abstract" = true := by simp_all
    refine .bind (.keyword modifierWords hword (by decide)) fun _ => ?_
    exact .decorated decorated again (hclass _)
  · exact .absent [.words modifierWords] rfl (Accounts.decorated decorated again (hclass _) p)
  · refine .seq startsFunction_accounts fun _ => .ite ?_ fun p => .isAtWord (.ite
      (fun hword => .bind (interfaceDeclaration_accounts hg mode hword) fun _ => .pure rfl)
      fun _ => ?_)
    · refine .absent [.decorators] rfl (.bind (.perhaps rfl (.acceptWord modifierWords (by decide)))
        fun _ => .andThen (functionDeclaration_accounts hg mode [.decorators] _ _ _) fun _ => ?_)
      exact .pure (by simp)
    · exact .absent [.decorators] rfl (.bind (hg.assignment mode p) fun _ => .seq .endStatement fun _ =>
        .pure (by simp))

theorem exportedDeclaration_accounts (decorated : Bool) :
    Accounts (if decorated then [.decorators] else []) (exportedDeclaration g mode decorated)
      Stmt.marks := by
  refine .bind (decorators_accounts hg mode) fun again => .seq (.complainIf _) fun _ =>
    .bind (modifiersAfter_accounts _ _ _) fun words => .seq (.isAtWord _) fun _ => .ite
      (.seq (.complainIf _) fun _ => .decorated decorated again (.andThen
        (classRest_accounts hg mode [.decorators]) fun _ => .pure (by simp)))
      (.undecorated _ (.absentBefore [.decorators] rfl (.seq (.isAtWord _) fun _ => .ite ?_ ?_)))
  · refine .seq (.complainIf _) fun _ p => .andThenWith (functionDeclaration_gives mode _ _ _ p)
      (functionDeclaration_accounts hg mode [.decorators] _ _ _ p) fun s hs => ?_
    obtain ⟨name, ps, body, rfl⟩ := hs
    exact .pure (by simp)
  refine .seq (.complainIf _) fun _ p => .isAtWord ?_
  extract_lets rest
  have hrest (hp : p.1.isWord "let" = true ∨ p.1.isIdentifier = false) (kind : DeclarationKind) :
      AccountsAt p [.decorators, .words modifierWords] (rest kind) Stmt.marks :=
    .absent [.words ["await"]] rfl (.bind (declarationWord_accounts hp) fun _ =>
      .bind (declaredVariables_accounts hg mode kind _) fun _ => .pure (by simp [declarationWords]))
  refine .ite (fun hword => hrest (.inl hword) _) fun _ => .token ?_
  cases hkind : declarationKind? p.1 with
  | some kind => exact hrest (.inr (isIdentifier_of_declarationKind? hkind)) kind
  | none => exact Accounts.fail_bind p

theorem exportDeclaration_accounts (decorated : Bool) :
    Accounts (if decorated then [.decorators] else []) (exportDeclaration g mode decorated)
      Stmt.marks := by
  have hnames {r : Reader Stmt} (h : Accounts [.decorators] r Stmt.marks) :
      Accounts (if decorated then [.decorators] else []) r Stmt.marks := by
    cases decorated with
    | true => exact h
    | false => exact .absent [.decorators] rfl h
  have hlist := hnames (exportList_accounts g.bound)
  have hall := hnames (exportAll_accounts g.bound)
  have hdefault := exportDefault_accounts hg mode decorated
  have hdeclared := exportedDeclaration_accounts hg mode decorated
  -- the cases are those of the token, not those of the decorators
  generalize (if decorated = true then [Mark.decorators] else []) = seen at *
  refine .seq (.expectReserved (by decide)) fun _ => .seq .token fun t => ?_
  split
  · exact hlist
  · exact hall
  · exact hdefault
  · exact hdeclared

/-! ## Simple statements -/

theorem expressionStatement_accounts : Accounts [] (expressionStatement g mode) Stmt.marks := by
  refine .bind (expression_accounts hg mode) fun e p => .isAt ?_
  split
  · rename_i hcolon
    refine .ofUse [.label] (.seq (.silent (Token.isIdentifier_of_isPunct hcolon)) fun _ =>
      .bind (hg.statement _ _) fun _ => .pure rfl) (fun _ _ => .label) rfl
  · exact .seq (Accounts.endStatement p) fun _ => .pure rfl

omit hg in
theorem jump_accounts {p : Token × List Char}
    (hp : p.1.isWord "break" = true ∨ p.1.isWord "continue" = true) :
    AccountsAt p [] (jump mode) Stmt.marks := by
  have hsilent : p.1.isIdentifier = false := hp.elim
    (Token.isIdentifier_of_isWord · (by decide)) (Token.isIdentifier_of_isWord · (by decide))
  have hjump : jump mode = (do
      passWord
      let t ← token
      if t.isIdentifier && !t.newline then some <$> identifier mode else pure none) >>=
        fun _ => do endStatement; return Stmt.inert := by
    unfold jump
    simp only [bind_assoc]
    congr 1; funext _; congr 1; funext t
    split
    · simp
    · simp
  have hlabel : AccountsAt p [] (do
      passWord
      let t ← token
      if t.isIdentifier && !t.newline then some <$> identifier mode else pure none)
        fun label => label.toList.map (.use · false) :=
    .seq (.passWord (.silent hsilent)) fun _ => .seq .token fun _ => .ite
      (.map (identifier_accounts mode) fun _ => rfl) (.pure rfl)
  rw [hjump]
  refine .bind (hlabel.single (m := .aside) rfl fun label q hq => ?_) fun _ =>
    .seq .endStatement fun _ => .pure rfl
  cases label with
  | none => exact hq.trans (.absent rfl)
  | some id => exact .jump hp hq

section Reserved

variable {p : Token × List Char} (hp : p.1.isIdentifier = false)

include hp

theorem returnStatement_accounts : AccountsAt p [] (returnStatement g mode) Stmt.marks :=
  .complainIf (.seq (.passWord (.silent hp)) fun _ => .seq .token fun _ => .ite
    (.absent [.aside] rfl (.seq .endStatement fun _ => .pure rfl))
    (.bind (expression_accounts hg _) fun _ => .seq .endStatement fun _ => .pure rfl))

theorem throwStatement_accounts : AccountsAt p [] (throwStatement g mode) Stmt.marks :=
  .seq (.passWord (.silent hp)) fun _ => .seq .token fun _ => .seq (.complainIf _) fun _ =>
    .bind (expression_accounts hg _) fun _ => .seq .endStatement fun _ => .pure rfl

/-! ## Statements that hold others -/

theorem ifStatement_accounts : AccountsAt p [] (ifStatement g mode) Stmt.marks :=
  .seq (.passWord (.silent hp)) fun _ => .bind (condition_accounts hg mode) fun _ =>
    .bind (hg.statement _ _) fun _ => .seq (.acceptReserved (by decide)) fun _ => .ite
      (.bind (hg.statement _ _) fun _ => .pure (by simp)) (.pure (by simp))

theorem headedStatement_accounts : AccountsAt p [] (headedStatement g mode) Stmt.marks :=
  .seq (.passWord (.silent hp)) fun _ => .bind (condition_accounts hg mode) fun _ =>
    .bind (hg.statement _ _) fun _ => .pure (by simp)

theorem doStatement_accounts : AccountsAt p [] (doStatement g mode) Stmt.marks :=
  .seq (.passWord (.silent hp)) fun _ => .bind (hg.statement _ _) fun _ =>
    .seq (.expectReserved (by decide)) fun _ => .bind (condition_accounts hg mode) fun _ =>
      .seq (.accept _) fun _ => .pure (by simp)

omit hp in
theorem switchCase_accounts : Accounts [] (switchCase g mode) fun ss => ss.flatMap Stmt.marks := by
  have hrest (test : List Stmt) (ends : Token → Bool) : Accounts (test.flatMap Stmt.marks) (do
      expect .colon
      return test ++ (← itemsUntil ends (g.statement mode .list) g.bound))
      fun ss => ss.flatMap Stmt.marks :=
    .seq (.expect _) fun _ => .bind (.itemsUntil _ (hg.statement _ _) _) fun body => .pure (by simp)
  refine .seq (.acceptReserved (by decide)) fun _ => .ite (.bind (.pure rfl) fun _ => hrest _ _)
    (.seq (.expectReserved (by decide)) fun _ => .bind (expression_accounts hg mode) fun _ => ?_)
  exact (hrest _ _).of_eq (by simp)

theorem switchStatement_accounts : AccountsAt p [] (switchStatement g mode) Stmt.marks :=
  .seq (.passWord (.silent hp)) fun _ => .bind (condition_accounts hg mode) fun _ =>
    .seq (.expect _) fun _ => .bind (.itemsUntil _ (switchCase_accounts hg mode) _) fun cases =>
      .seq (.expect _) fun _ => .pure (by simp [← List.flatMap_id, List.flatMap_assoc])

omit hp in
theorem catchClause_accounts : Accounts [] (catchClause g mode) Stmt.marks := by
  have hrest (parameter : List Binding) : Accounts (bindingMarks false parameter) (do
      return Stmt.catchClause parameter (← statementBlock g mode)) Stmt.marks :=
    .bind (statementBlock_accounts hg mode) fun _ => .pure (by simp)
  refine .seq (.accept _) fun _ => .ite (.bind (hg.binding mode false) fun b =>
    .seq (.expect _) fun _ => ?_) (hrest [])
  exact (hrest [b]).of_eq (by simp)

theorem tryStatement_accounts : AccountsAt p [] (tryStatement g mode) Stmt.marks := by
  refine .seq (.passWord (.silent hp)) fun _ => .bind (statementBlock_accounts hg mode) fun body =>
    .seq (.acceptReserved (by decide)) fun _ => ?_
  extract_lets clauses
  have hclauses (caught : List Stmt) :
      Accounts (stmtMarks body ++ stmtMarks caught) (clauses caught) Stmt.marks := by
    refine .seq (.acceptReserved (by decide)) fun _ => ?_
    extract_lets rest
    have hrest (final : List Stmt) :
        Accounts (stmtMarks body ++ (stmtMarks caught ++ stmtMarks final)) (rest final) Stmt.marks :=
      .seq (.complainIf _) fun _ => .pure (by simp)
    exact .ite (.bind (statementBlock_accounts hg mode) fun final =>
      (hrest [.block final]).of_eq (by simp)) ((hrest []).of_eq (by simp))
  exact .ite (.bind (catchClause_accounts hg mode) fun x => (hclauses [x]).of_eq (by simp))
    ((hclauses []).of_eq (by simp))

end Reserved

/-! ## Loops -/

theorem loopRest_accounts (start : List Stmt) :
    Accounts (.words ["await"] :: stmtMarks start) (loopRest g mode start) Stmt.marks := by
  refine .seq (.expect _) fun _ => .seq (.isAt _) fun _ => ?_
  extract_lets stepping
  have hstepping (test : List Expr) :
      Accounts (.words ["await"] :: (stmtMarks start ++ exprMarks test)) (stepping test)
        Stmt.marks := by
    refine .seq (.expect _) fun _ => .seq (.isAt _) fun _ => ?_
    extract_lets rest
    have hrest (step : List Expr) :
        Accounts (.words ["await"] :: (stmtMarks start ++ (exprMarks test ++ exprMarks step)))
          (rest step) Stmt.marks :=
      .seq (.expect _) fun _ => .bind (hg.statement _ _) fun _ => .pure (by simp)
    exact .ite ((hrest []).of_eq (by simp)) (.bind (expression_accounts hg _) fun e =>
      (hrest [e]).of_eq (by simp))
  exact .ite ((hstepping []).of_eq (by simp)) (.bind (expression_accounts hg _) fun e =>
    (hstepping [e]).of_eq (by simp))

theorem subjectRest_accounts {p : Token × List Char} (overItems : Bool)
    (hp : p.1.isWord "of" = true ∨ p.1.isWord "in" = true) :
    AccountsAt p [] (subjectRest g mode overItems)
      fun x => .words ["of"] :: (x.1.marks ++ x.2.marks) := by
  have hword : AccountsAt p [] passWord fun _ => [.words ["of"]] := by
    obtain hof | hin := hp
    · exact .keyword _ hof (by simp)
    · exact (AccountsAt.reserved hin (by decide)).single rfl fun _ _ hq => hq.trans (.absent rfl)
  refine .bind hword fun _ => .ite (.bind (hg.assignment _) ?rest)
    (.bind (expression_accounts hg mode) ?rest)
  exact fun _ => .seq (.expect _) fun _ => .bind (hg.statement _ _) fun _ => .pure rfl

theorem declaringLoop_accounts (awaited : Bool) (kind : DeclarationKind) (isUsing : Bool)
    (bs : List Binding) :
    Accounts (.words ["await"] :: (declarationWords ++ bindingMarks true bs))
      (declaringLoop g mode awaited kind isUsing bs) Stmt.marks :=
  fun _ => .isAtWord (.isAtWord (.complainIf (.ite
    (fun hc => .bind (subjectRest_accounts hg mode _ ((Bool.or_eq_true _ _).mp hc)) fun _ =>
      .pure (by simp))
    fun _ => .complainIf ((loopRest_accounts hg mode _).of_eq (by simp) _))))

theorem evaluatingLoop_accounts (awaited : Bool) :
    Accounts [.words ["await"]] (evaluatingLoop g mode awaited) Stmt.marks := by
  refine .seq .token fun _ => .seq .nextToken fun _ => .bind (expression_accounts hg _) fun e p =>
    .isAtWord (.isAtWord (.complainIf (.ite (fun hc => .complainIf ?_)
      fun _ => (loopRest_accounts hg mode _).of_eq (by simp) p)))
  split
  · exact .fail
  · rename_i target justified htarget
    have hjustified := (Justifies.refl [.words ["await"]]).append (Expr.justifies_toTarget? htarget)
    rw [Nat.zero_add] at hjustified
    exact .justified hjustified (.bind (subjectRest_accounts hg mode _ ((Bool.or_eq_true _ _).mp hc))
      fun _ => .pure (by simp))

theorem forStatement_accounts {p : Token × List Char} (hp : p.1.isIdentifier = false) :
    AccountsAt p [] (forStatement g mode) Stmt.marks := by
  have hdeclares {p : Token × List Char} {head : Mode} {awaited : Bool} {kind : DeclarationKind}
      (hp : p.1.isWord "let" = true ∨ p.1.isIdentifier = false) :
      AccountsAt p [.words ["await"]] (do
        passWord
        declaringLoop g mode awaited kind false (← declarators g head)) Stmt.marks :=
    .absent [.words modifierWords, .words ["await"]] rfl (.bind (declarationWord_accounts hp) fun _ =>
      .bind (declarators_accounts hg _) fun _ => declaringLoop_accounts hg mode _ _ _ _)
  refine .seq (.passWord (.silent hp)) fun _ => .bind
    (.perhaps rfl (.acceptWord ["await"] (by simp))) fun _ => .seq (.complainIf _) fun _ =>
      .seq (.expect _) fun _ => .seq (.isAt _) fun _ => .ite
        (.seq (.complainIf _) fun _ => loopRest_accounts hg mode []) fun p => .token ?_
  split
  · rename_i kind hkind
    exact hdeclares (.inr (isIdentifier_of_declarationKind? hkind))
  · exact .look (letDeclaresInLoop_looks p) fun _ hlet => .ite (fun hc => hdeclares (.inl (hlet hc)))
      fun _ => .seq (startsUsing_accounts true p) fun _ => .ite
        (.bind (usingDeclarators_accounts hg _) fun _ => declaringLoop_accounts hg mode _ _ _ _)
        (evaluatingLoop_accounts hg mode _)

/-! ## The beginning of a statement -/

theorem letStatement_accounts {p : Token × List Char} (hp : p.1.isWord "let" = true)
    (place : Place) : AccountsAt p [] (letStatement g mode place) Stmt.marks :=
  .nextToken (.ite
    (fun _ => .bind (hg.assignment mode p) fun _ => .seq .endStatement fun _ => .pure rfl)
    fun _ => .ite (fun _ => .bind (expression_accounts hg mode p) fun _ => .pure rfl) fun _ => .ite
      (fun _ => .bind (identifier_accounts mode p) fun _ => .seq .endStatement fun _ => .pure rfl)
      fun _ => .complainIf (variableStatement_accounts hg mode (.inl hp) _))

theorem decoratedStatement_accounts (place : Place) :
    Accounts [] (decoratedStatement g mode place) Stmt.marks := by
  refine .bind (decorators_accounts hg mode) fun found => .seq (.isAtWord _) fun _ => .ite
    (exportDeclaration_accounts hg mode found) (.seq (.complainIf _) fun _ => ?_)
  have hclass := modifiedClass_accounts hg mode
  cases found with
  | true => exact .andThen hclass fun _ => .pure rfl
  | false => exact .absent [.decorators] rfl (.andThen hclass fun _ => .pure rfl)

theorem wordStatement_accounts {p : Token × List Char} {w : String} {escaped : Bool}
    (hlexeme : p.1.lexeme = .name w escaped) (place : Place) :
    AccountsAt p [] (wordStatement g mode place w) Stmt.marks := by
  have hreserved (hw : isReserved w = true) : p.1.isIdentifier = false := by
    simp [Token.isIdentifier, hlexeme, hw]
  have hword : p.1.isWord w = true := by simp [Token.isWord, hlexeme]
  unfold wordStatement
  split
  · exact ifStatement_accounts hg mode (hreserved (by decide))
  · exact forStatement_accounts hg mode (hreserved (by decide))
  · exact headedStatement_accounts hg mode (hreserved (by decide))
  · exact headedStatement_accounts hg mode (hreserved (by decide))
  · exact doStatement_accounts hg mode (hreserved (by decide))
  · exact jump_accounts mode (.inl hword)
  · exact jump_accounts mode (.inr hword)
  · exact returnStatement_accounts hg mode (hreserved (by decide))
  · exact throwStatement_accounts hg mode (hreserved (by decide))
  · exact switchStatement_accounts hg mode (hreserved (by decide))
  · exact tryStatement_accounts hg mode (hreserved (by decide))
  · exact .seq (.passWord (.silent (hreserved (by decide)))) fun _ => .seq .endStatement fun _ =>
      .absent [.aside] rfl (.pure rfl)
  · exact .complainIf (.absent classWords rfl (classDeclaration_accounts hg mode [] p))
  · exact variableStatement_accounts hg mode (.inr (hreserved (by decide))) _
  · exact .complainIf (variableStatement_accounts hg mode (.inr (hreserved (by decide))) _)
  · exact .token (.ite (fun _ => expressionStatement_accounts hg mode p)
      fun _ => letStatement_accounts hg mode hword _)
  · exact .seq (importEvaluates_accounts p) fun _ => .ite
      (expressionStatement_accounts hg mode) (importDeclaration_accounts mode _)
  · exact exportDeclaration_accounts hg mode false p
  · exact .seq (startsFunction_accounts p) fun _ => .ite
      (startedFunction_accounts hg mode [] _ _) (.seq (startsUsing_accounts false) fun _ => .ite
        (usingStatement_accounts hg mode) (expressionStatement_accounts hg mode))

theorem statementRead_accounts (place : Place) :
    Accounts [] (statementRead g mode place) Stmt.marks := by
  refine fun p => .token ?_
  split
  · exact .bind (statementBlock_accounts hg mode p) fun _ => .pure rfl
  · exact .seq (.silent (by simp [Token.isIdentifier, *])) fun _ => .absent [.aside] rfl (.pure rfl)
  · exact decoratedStatement_accounts hg mode place p
  · exact wordStatement_accounts hg mode ‹_› place
  · exact expressionStatement_accounts hg mode p

/-! ## The grammar -/

theorem Grammar.Accounted.step : g.step.Accounted where
  assignment := assignmentExpr_accounts hg
  binary := binaryExpr_accounts hg
  unary := unaryExpr_accounts hg
  primary := primaryExpr_accounts hg
  binding := bindingTarget_accounts hg
  statement := statementRead_accounts hg

end Productions

theorem grammar_accounted (bound : Nat) : ∀ depth, (grammar bound depth).Accounted
  | 0 => ⟨fun _ => .fail, fun _ _ => .fail, fun _ => .fail, fun _ => .fail, fun _ _ => .fail,
      fun _ _ => .fail⟩
  | depth + 1 => (grammar_accounted bound depth).step

/-- What is read from a text is spelled from its first token on, and nothing is pending. -/
theorem spells_of_readFrom {α : Type} {cs : List Char} {r : Grammar → Reader α}
    (ms : α → List Mark) {a : α} (hr : ∀ g, g.Accounted → Accounts [] (r g) ms)
    (h : readFrom cs r = some a) : ∃ s₀ s, r (grammarFor cs.length) s₀ = some (a, s) ∧
      Spells (nextTokenOf 0 cs) (ms a) s.place ∧ .pending ∉ ms a := by
  obtain ⟨⟨a', s⟩, hrun, hclean⟩ := Option.bind_eq_some_iff.mp h
  obtain ⟨⟨hfaulty, hopen⟩, rfl⟩ : (s.faulty = false ∧ s.openDefaults = 0) ∧ a' = a := by
    simpa using hclean
  obtain ⟨-, hkeeps⟩ := hr _ (grammar_accounted _ _) _ _ _ _ rfl hrun hfaulty
  have hreached := (hkeeps id).2 _ (.refl _)
  have hpending : Mark.pending ∉ ms a' := by
    have hcount := hreached.count_le
    rw [hopen] at hcount
    exact List.count_eq_zero.mp (by omega)
  have hsettled : settled (ms a') = ms a' :=
    List.filter_eq_self.mpr fun m hm => by simpa using fun heq : m = .pending => hpending (heq ▸ hm)
  exact ⟨_, s, hrun, hsettled ▸ hreached.spells, hpending⟩

/-- An expression is spelled by its marks. -/
theorem spells_of_parseExpression? (h : parseExpression? source = some e) :
    ∃ q, Spells (nextTokenOf 0 source.toList) e.marks q ∧ .pending ∉ e.marks := by
  obtain ⟨-, s, -, hspells⟩ := spells_of_readFrom _ (fun _ hg => expression_accounts hg {}) h
  exact ⟨s.place, hspells⟩

/-- The identifiers of an expression are those that were read, in order. -/
theorem Track.reads_of_parseExpression? (k : Track) (h : parseExpression? source = some e) :
    ∃ q, k.reads (nextTokenOf 0 source.toList) e.written q := by
  obtain ⟨q, hspells, -⟩ := spells_of_parseExpression? h
  exact ⟨q, e.matched.idents ▸ hspells.reads k⟩

/-- Where a watch holds of the first token, all identifiers of the expression are good. -/
theorem all_of_parseExpression? (w : Watch) (h : parseExpression? source = some e)
    (hstart : w.holds (nextTokenOf 0 source.toList).1 (nextTokenOf 0 source.toList).2) :
    ∀ id ∈ e.written, w.good id := by
  obtain ⟨q, hreads⟩ := w.track.reads_of_parseExpression? h
  exact (hreads hstart).2

end TemplateCompiler.Script
