import TemplateCompiler.Proofs.Script.Accounting
import TemplateCompiler.Script.Grammar.Assignment
import TemplateCompiler.Script.Grammar.Primary

/-! # Accounts of expressions

Every production of expressions accounts for the words that it reads if the productions that it uses
do.
-/

namespace TemplateCompiler.Script

open Reader

variable {t : Token} {α : Type}

/-- The productions inside others account for what they read. -/
structure Grammar.Accounted (g : Grammar) : Prop where
  assignment : ∀ mode, Accounts [] (g.assignment mode) Expr.marks
  binary : ∀ mode least, Accounts [] (g.binary mode least) Expr.marks
  unary : ∀ mode, Accounts [] (g.unary mode) Expr.marks
  primary : ∀ mode, Accounts [] (g.primary mode) Expr.marks
  binding : ∀ mode record, Accounts [] (g.binding mode) (Binding.marks record)
  statement : ∀ mode place, Accounts [] (g.statement mode place) Stmt.marks

/-- The marks of the name of a property. -/
@[simp] def PropertyName.marks (name : PropertyName) : List Mark :=
  match name.ident with
  | some id => [.use id false]
  | none => name.key.marks

/-- Parameters and body of a function. -/
@[simp] def functionMarks (x : List Binding × List Stmt) : List Mark :=
  bindingMarks false x.1 ++ stmtMarks x.2

/-- The parts of a class. -/
@[simp] def classMarks (x : Option Ident × Option Expr × List Member) : List Mark :=
  (Expr.classDef x.1 x.2.1 x.2.2).marks

/-! ## Names -/

/-- A word that could name a variable is read as an identifier. -/
theorem AccountsAt.anyWord {p : Token × List Char} (hp : p.1.isIdentifier = true) :
    AccountsAt p [] Reader.anyWord fun id => [.use id false] := by
  rintro s id s' rfl hrun hfaulty
  obtain ⟨name, escaped, hlexeme, hreserved⟩ : ∃ name escaped,
      s.token.lexeme = .name name escaped ∧ isReserved name = false := by
    change s.token.isIdentifier = true at hp
    unfold Token.isIdentifier at hp
    split at hp
    · exact ⟨_, _, ‹_›, by simpa using hp⟩
    · cases hp
  have hword : s.token.word? = some name := by simp [Token.word?, hlexeme]
  have htoken (f : Token → Reader Ident) : (Reader.token >>= f) s = f s.token s := rfl
  have hread : Reader.anyWord s = (Reader.advance s).map fun x =>
      ({ name, start := s.token.start, stop := s.token.stop }, x.2) := by
    rw [Reader.anyWord, htoken, hword]
    rfl
  rw [hread, Option.map_eq_some_iff] at hrun
  obtain ⟨⟨⟨⟩, s₁⟩, hadvance, heq⟩ := hrun
  obtain ⟨rfl, rfl⟩ := Prod.mk.inj heq
  obtain rfl := congrArg Prod.snd (Option.some.inj hadvance)
  exact passed (q := nextPlace s.place) rfl rfl rfl hfaulty rfl fun hflawed =>
    .use hflawed hword hreserved

theorem identifier_accounts (mode : Mode) :
    Accounts [] (identifier mode) fun id => [.use id false] := by
  refine fun p => .token (.ite (fun hid => ?_) fun _ => .fail)
  exact .bind (.anyWord hid) fun _ => .seq (.complainIf _) fun _ => .pure rfl

theorem binder_accounts (mode : Mode) : Accounts [] (identifier mode) fun id => [.binder id] :=
  fun p => (identifier_accounts mode p).remark (fun _ _ hq => .binder hq) fun _ => Nat.le_refl _

theorem someBinder_accounts (mode : Mode) :
    Accounts [] (some <$> identifier mode) fun name => name.toList.map .binder :=
  .map (binder_accounts mode) fun _ => rfl

theorem noBinder_accounts :
    Accounts [] (pure none : Reader (Option Ident)) fun name => name.toList.map .binder :=
  .pure rfl

theorem AccountsAt.ofUse {p : Token × List Char} {id : Ident} {r : Reader α} {ms : α → List Mark}
    (seen : List Mark) (h : AccountsAt p seen r ms)
    (hspells : ∀ p q, Spells p [.use id false] q → Spells p seen q) (hseen : settled seen = seen) :
    AccountsAt p [.use id false] r ms := by
  refine h.recast _ (fun p q hq => ?_) ?_
  · rw [hseen]
    exact hspells p q hq
  · rw [List.count_eq_zero.mpr]
    · exact Nat.zero_le _
    · rw [← hseen]
      simp [settled]

theorem Accounts.ofUse {id : Ident} {r : Reader α} {ms : α → List Mark} (seen : List Mark)
    (h : Accounts seen r ms) (hspells : ∀ p q, Spells p [.use id false] q → Spells p seen q)
    (hseen : settled seen = seen) : Accounts [.use id false] r ms :=
  fun p => (h p).ofUse seen hspells hseen

theorem modifier_accounts (w : String) (sameLine star : Bool) :
    Accounts [] (modifier w sameLine star) fun b => if b then [.words [w]] else [] :=
  fun _ => .isAtWord (.ite (fun hw => .nextToken (.ite
    (fun _ => .bind (.keyword [w] hw (by simp)) fun _ => .pure rfl) fun _ => .pure rfl))
    fun _ => .pure rfl)

theorem modifierFollows_looks (ofMember : Bool) (seen : List String) (p : Token × List Char) :
    LooksAt p (modifierFollows ofMember seen)
      fun b => b = true → ∃ w ∈ modifierWords, p.1.word? = some w := by
  refine .bind .token fun t ht => ?_
  subst ht
  split
  · exact .pure nofun
  · rename_i w hword
    refine .bind .nextToken fun next _ => ?_
    split
    · exact .pure nofun
    · rename_i hmodifier
      have hw : w ∈ modifierWords := by simp_all
      split <;> exact .pure fun _ => ⟨w, hw, hword⟩

theorem modifiersAfter_accounts (ofMember : Bool) :
    ∀ n seen, Accounts [] (modifiersAfter ofMember n seen) fun _ => [.words modifierWords]
  | 0, _ => .fail
  | n + 1, seen => by
    refine fun p => .look (modifierFollows_looks ofMember seen p) fun b hb => .ite (fun hc => ?_)
      fun _ => .absent [.words modifierWords] rfl (.pure rfl)
    obtain ⟨w, hw, hword⟩ := hb hc
    exact .token (.complainIf (.bind (.passWord (.advance (fun _ => .word hword hw) (by simp)))
      fun _ => .within rfl (modifiersAfter_accounts ofMember n _)))

theorem startsFunction_accounts : Accounts [] startsFunction fun _ => [] :=
  .seq (.isAtWord _) fun _ => .ite (.pure rfl) (.seq (.isAtWord _) fun _ =>
    .ite (.seq .nextToken fun _ => .pure rfl) (.pure rfl))

section Productions

variable {g : Grammar} (hg : g.Accounted) (mode : Mode)

theorem propertyName_gives (p : Token × List Char) :
    GivesAt p (propertyName g mode) fun name => ∀ id, name.ident = some id →
      name.key = .fixed id.name := by
  refine .token ?_
  split
  · exact .bind fun _ _ => .pure (by simp)
  · exact .bind fun _ _ => .pure (by simp)
  · exact .bind fun _ _ => .pure (by simp)
  · exact .bind fun _ _ => .pure (by simp)
  · rename_i text escaped hlexeme
    refine .andThen .anyWord fun id hid _ => .pure fun id' hid' => ?_
    have htext : text = id.name := by simpa [Token.word?, hlexeme] using hid
    obtain ⟨-, rfl⟩ : p.1.isIdentifier = true ∧ id = id' := by simpa using hid'
    rw [htext]
  · exact .bind fun _ _ => .bind fun _ _ => .bind fun _ _ => .pure (by simp)
  · exact .fail

include hg

theorem propertyName_accounts : Accounts [] (propertyName g mode) PropertyName.marks := by
  have hfixed {p : Token × List Char} {text : String} (hp : p.1.names text) (isPrivate : Bool) :
      AccountsAt p [] (do advance; return { key := .fixed text, isPrivate }) PropertyName.marks :=
    .bind (.advance (fun _ => .name hp) (by simp)) fun _ => .pure rfl
  refine fun p => .token ?_
  split
  · exact hfixed (by simp [Token.names, *]) false
  · exact hfixed (by simp [Token.names, *]) false
  · exact hfixed (by simp [Token.names, *]) false
  · exact hfixed (by simp [Token.names, *]) true
  · rename_i text escaped hlexeme
    by_cases hid : p.1.isIdentifier = true
    · exact .bind (.anyWord hid) fun id => .pure (by simp [hid])
    · have hword : p.1.word? = some text := by simp [Token.word?, hlexeme]
      have hname : AccountsAt p [] Reader.anyWord fun _ => [.name text] := by
        refine .token ?_
        rw [hword]
        exact .bind (.advance (fun _ => .name (by simp [Token.names, hlexeme])) (by simp)) fun _ =>
          .pure rfl
      exact .bind hname fun id => .pure (by simp [hid])
  · rename_i hlexeme
    exact .seq (.silent (by simp [Token.isIdentifier, hlexeme])) fun _ =>
      .bind (hg.assignment _) fun _ => .seq (.expect _) fun _ => .pure (by simp)
  · exact .fail

omit hg in
theorem Accounts.asKey {name : PropertyName} {r : Reader α} {ms : α → List Mark}
    (hname : ∀ id, name.ident = some id → name.key = .fixed id.name)
    (h : Accounts name.key.marks r ms) : Accounts name.marks r ms := by
  cases hid : name.ident with
  | none => exact h.of_eq (by simp [hid])
  | some id =>
    have hmarks : name.marks = [.use id false] := by simp [hid]
    have hkey : name.key.marks = [.name id.name] := by simp [hname id hid]
    rw [hmarks]
    exact .ofUse [.name id.name] (hkey ▸ h) (fun _ _ => .named) rfl

theorem propertyKey_accounts : Accounts [] (propertyName g mode) fun name => name.key.marks := by
  intro p
  rw [← bind_pure (propertyName g mode)]
  exact .andThenWith (propertyName_gives mode p) (propertyName_accounts hg mode p) fun _ hname =>
    .asKey hname (.pure rfl)

/-! ## Patterns, functions and brackets -/

theorem expression_accounts : Accounts [] (expression g mode) Expr.marks := by
  refine .bind (.commaItems (hg.assignment _) _) fun es => ?_
  split
  · exact .pure (by simp)
  · exact .pure (by simp)

theorem condition_accounts : Accounts [] (condition g mode) Expr.marks :=
  .seq (.expect _) fun _ => .bind (expression_accounts hg mode) fun _ =>
    .seq (.expect _) fun _ => .pure rfl

section Patterns

variable (record : Bool)

theorem bindingElement_accounts : Accounts [] (bindingElement g mode) (Binding.marks record) :=
  .bind (hg.binding mode record) fun _ => .seq (.accept _) fun _ => .ite
    (.bind (hg.assignment _) fun _ => .pure (by simp)) (.pure rfl)

theorem restElement_accounts : Accounts [] (restElement g mode) (Binding.marks record) :=
  .bind (hg.binding mode record) fun _ => .seq (.accept _) fun _ => .ite
    (.seq .complain fun _ => .bind (hg.assignment _) fun _ => .pure (by simp)) (.pure rfl)

theorem bindingProperty_accounts : Accounts [] (bindingProperty g mode) (Binding.marks record) := by
  refine .seq (.accept _) fun _ => .ite (restElement_accounts hg mode record) fun p =>
    .andThenWith (propertyName_gives mode p) (propertyName_accounts hg mode p) fun name hname => ?_
  cases hid : name.ident with
  | none =>
    exact .seq (.complainIf _) fun _ => .seq (.expect _) fun _ =>
      .bind (bindingElement_accounts hg mode record) fun _ => .pure (by simp [hid])
  | some id =>
    have hkey := hname id hid
    have hmarks : name.marks = [.use id false] := by simp [hid]
    have hboth {r : Reader Binding}
        (h : Accounts [.name id.name, .bound record id] r (Binding.marks record)) :
        Accounts [.use id false] r (Binding.marks record) :=
      .ofUse _ h (fun _ _ => .keyed record) (by cases record <;> rfl)
    rw [hmarks]
    refine .seq (.accept _) fun _ => .ite (.ofUse [.name id.name] ?_ (fun _ _ => .named) rfl)
      (.seq (.accept _) fun _ => .ite (hboth ?_) (hboth ?_))
    · exact .bind (bindingElement_accounts hg mode record) fun _ => .pure (by simp [hkey])
    · exact .bind (hg.assignment _) fun _ => .pure (by simp [hkey])
    · exact .pure (by simp [hkey])

theorem bindingTarget_accounts : Accounts [] (bindingTarget g mode) (Binding.marks record) := by
  refine .seq (.accept _) fun _ => .ite
    (.bind (.commaList _ (bindingProperty_accounts hg mode record) _) fun _ =>
      .seq (.complainIf _) fun _ => .ite .fail_bind ?_) (.seq (.accept _) fun _ => .ite ?_ ?_)
  · exact .seq (.expect _) fun _ => .pure (by simp)
  · exact .bind (.commaList _ (.seq (.isAt _) fun _ => .ite (.pure rfl) (.seq (.accept _) fun _ =>
      .ite (restElement_accounts hg mode record) (bindingElement_accounts hg mode record))) _) fun _ =>
        .seq (.complainIf _) fun _ => .seq (.expect _) fun _ => .pure (by simp)
  · cases record with
    | true => exact .bind (identifier_accounts mode) fun _ => .pure rfl
    | false => exact .bind (binder_accounts mode) fun _ => .pure rfl

end Patterns

theorem statementBlock_accounts : Accounts [] (statementBlock g mode) stmtMarks :=
  .seq (.expect _) fun _ => .bind (.itemsUntil _ (hg.statement mode _) _) fun _ =>
    .seq (.expect _) fun _ => .pure (by simp)

theorem parameters_accounts : Accounts [] (parameters g mode) (bindingMarks false) :=
  .seq (.expect _) fun _ => .bind (.commaList _ (.seq (.accept _) fun _ =>
    .ite (restElement_accounts hg mode false) (bindingElement_accounts hg mode false)) _) fun _ =>
    .seq (.complainIf _) fun _ => .seq (.expect _) fun _ => .pure (by simp)

theorem functionRest_accounts (isAsync isGenerator : Bool) :
    Accounts [] (functionRest g isAsync isGenerator) functionMarks :=
  .bind (parameters_accounts hg _) fun _ => .bind (statementBlock_accounts hg _) fun _ =>
    .pure (by simp)

/-! ## Chains -/

theorem spreadable_accounts : Accounts [] (spreadable g mode) Expr.marks :=
  .seq (.accept _) fun _ => .ite (.bind (hg.assignment _) fun _ => .pure (by simp))
    (hg.assignment _)

theorem arguments_accounts : Accounts [] (arguments g mode) exprMarks :=
  .seq (.expect _) fun _ => .bind (.commaList _ (spreadable_accounts hg mode) _) fun _ =>
    .seq (.expect _) fun _ => .pure (by simp)

omit hg in
theorem resumeTemplate_accounts : Accounts [] resumeTemplate fun _ => [] := by
  intro _ s a s' _ hrun hfaulty
  unfold resumeTemplate at hrun
  split at hrun
  · rename_i hbrace
    obtain ⟨⟨lexeme, after⟩, htext, heq⟩ := Option.bind_eq_some_iff.mp hrun
    obtain ⟨-, rfl⟩ := Prod.mk.inj (Option.some.inj heq)
    exact ⟨hfaulty, fun hs => ⟨hs, fun s₀ h₀ =>
      h₀.trans ⟨.resumed hbrace htext, Nat.le_refl _⟩⟩⟩
  · cases hrun

theorem templateParts_accounts :
    ∀ n, Accounts [] (templateParts g mode n) fun x => exprMarks x.2
  | 0 => .fail
  | n + 1 => by
    refine fun p => .token ?_
    split
    · exact .seq (.silent (by simp [Token.isIdentifier, *])) fun _ => .pure rfl
    · exact .seq (.silent (by simp [Token.isIdentifier, *])) fun _ =>
        .bind (expression_accounts hg _) fun _ => .seq resumeTemplate_accounts fun _ =>
          .bind (templateParts_accounts n) fun _ => .pure (by simp)
    · exact .fail

omit hg in
theorem memberAccess_accounts {e : Expr} : Accounts e.marks (memberAccess e) Expr.marks := by
  refine fun p => .token ?_
  split
  · rename_i text escaped hlexeme
    have hname : p.1.names text := by simp [Token.names, hlexeme]
    exact .bind (.advance (fun _ => .name hname) (by simp)) fun _ => .pure (by simp)
  · exact .seq (.silent (by simp [Token.isIdentifier, *])) fun _ => .pure (by simp)
  · exact .fail

theorem indexAccess_accounts {e : Expr} :
    Accounts e.marks (indexAccess g mode e) Expr.marks :=
  .seq (.expect _) fun _ => .bind (expression_accounts hg _) fun _ => .seq (.expect _) fun _ =>
    .pure (by simp)

theorem chainRest_accounts (calls : Bool) : ∀ n e isOptional,
    Accounts e.marks (chainRest g mode calls n e isOptional) fun x => x.1.marks
  | 0, _, _ => .fail
  | n + 1, e, isOptional => by
    have hcall (isOptional : Bool) : Accounts e.marks (arguments g mode >>= fun es =>
        chainRest g mode calls n (.form .call (e :: es)) isOptional) fun x => x.1.marks :=
      .bind (arguments_accounts hg mode) fun es =>
        (chainRest_accounts calls n _ _).of_eq (by simp)
    have hsilent {p : Token × List Char} {x : Punct} (h : p.1.lexeme = .punct x) :
        p.1.isIdentifier = false := by simp [Token.isIdentifier, h]
    refine fun p => .token ?_
    split
    · exact .seq (.silent (hsilent ‹_›)) fun _ => .andThen memberAccess_accounts fun _ =>
        chainRest_accounts calls n _ _
    · refine .nextToken (.ite
        (fun _ => .ite (fun _ => .seq (.silent (hsilent ‹_›)) fun _ => hcall _) fun _ => .pure rfl)
        fun _ => .seq (.silent (hsilent ‹_›)) fun _ => .ite
          (.andThen (indexAccess_accounts hg mode) fun _ => chainRest_accounts calls n _ _)
          (.andThen memberAccess_accounts fun _ => chainRest_accounts calls n _ _))
    · exact .ite (fun _ => .pure rfl) fun _ => .andThen (indexAccess_accounts hg mode p) fun _ =>
        chainRest_accounts calls n _ _
    · exact .ite (fun _ => hcall _ p) fun _ => .pure rfl
    · exact .complainIf (.bind (templateParts_accounts hg mode _ p) fun _ =>
        (chainRest_accounts calls n _ _).of_eq (by simp))
    · exact .pure rfl

theorem leftHandSide_accounts : Accounts [] (leftHandSide g mode) Expr.marks := by
  refine .bind (hg.primary mode) fun _ => .andThen (chainRest_accounts hg mode _ _ _ _) fun x =>
    .seq (.complainIf _) fun _ => .pure ?_
  split
  · simp
  · rfl

/-- Decorators are read and dropped. -/
theorem decorators_accounts :
    Accounts [] (decorators g mode) fun found => if found then [.decorators] else [] := by
  have hitem : Accounts [] (do
      expect .at
      let _ ← leftHandSide g { mode with decorating := true }) fun _ => [.decorators] :=
    fun _ => .expecting fun hat => .aside (Token.isIdentifier_of_isPunct hat)
      (leftHandSide_accounts hg _) rfl (fun _ _ => .decorator hat) fun _ => .pure rfl
  have hitems (n : Nat) : Accounts [] (itemsUntil (!·.isPunct .at) (do
      expect .at
      let _ ← leftHandSide g { mode with decorating := true }) n)
      fun found => if found.isEmpty then [] else [.decorators] := by
    cases n with
    | zero => exact .fail
    | succ n =>
      refine .seq .token fun _ => .ite (.pure rfl) (.bind hitem fun _ => ?_)
      exact .andThen (Keeps.itemsUntil _ (.within rfl hitem) n) fun _ => .pure rfl
  refine .bind (hitems _) fun found => .pure ?_
  cases found with
  | nil => rfl
  | cons _ _ => rfl

/-! ## Classes -/

omit hg in
theorem checkMemberName_accounts (words : List String) (name : PropertyName)
    (isMethod isPlain : Bool) :
    Accounts [] (checkMemberName words name isMethod isPlain) fun _ => [] := by
  unfold checkMemberName
  split
  · exact .pure rfl
  · exact .ite (.complainIf _) (.ite (.seq (.complainIf _) fun _ => .complainIf _)
      (.ite (.seq (.complainIf _) fun _ => .complainIf _) (.pure rfl)))

theorem accessorMember_accounts (words : List String) (isGetter : Bool) :
    Accounts memberWords (accessorMember g mode words isGetter) Member.marks := by
  refine .bind (propertyKey_accounts hg mode) fun _ =>
    .seq (checkMemberName_accounts _ _ _ _) fun _ => .seq (.complainIf _) fun _ =>
      .bind (functionRest_accounts hg _ _) fun _ => .ite (.seq (.complainIf _) ?rest) (.seq (.complainIf _) ?rest)
  exact fun _ => .pure (by simp)

theorem fieldValue_accounts (isAccessor : Bool) :
    Accounts [] (fieldValue g mode isAccessor) optionalMarks :=
  .seq (.accept _) fun _ => .ite (.ite (.bind (hg.assignment _) fun _ => .pure rfl)
    (.bind (expression_accounts hg _) fun _ => .pure rfl)) (.pure rfl)

theorem namedMember_accounts (decorated : Bool) (words : List String) :
    Accounts memberWords (namedMember g mode decorated words) Member.marks := by
  refine .seq (.accept _) fun _ => .bind (propertyKey_accounts hg mode) fun _ =>
    .seq (.accept _) fun _ => .seq (.isAt _) fun _ =>
      .seq (checkMemberName_accounts _ _ _ _) fun _ =>
        .ite (.bind (functionRest_accounts hg _ _) fun _ => .pure (by simp)) ?_
  exact .seq (.accept _) fun _ => .seq (.complainIf _) fun _ =>
    .bind (fieldValue_accounts hg mode _) fun _ => .seq .endStatement fun _ => .pure (by simp)

theorem classMember_accounts : Accounts [] (classMember g mode) Member.marks := by
  refine .bind (.perhaps rfl (decorators_accounts hg mode)) fun decorated =>
    .bind (modifiersAfter_accounts true _ _) fun words p =>
      .isAtWord (.nextToken (.ite (fun hstatic => ?_) fun _ => ?_))
  · have hword : p.1.isWord "static" = true := by simp_all
    exact .complainIf (.bind (.keyword ["static"] hword (by simp)) fun _ =>
      .bind (statementBlock_accounts hg _) fun _ => .pure (by simp [classWords]))
  · refine .bind (modifier_accounts "get" _ _ p) fun isGetter => ?_
    cases isGetter with
    | true => exact .absent [.words ["set"]] rfl (accessorMember_accounts hg mode words true)
    | false =>
      refine .absent [.words ["get"]] rfl (.bind (modifier_accounts "set" _ _) fun isSetter => ?_)
      cases isSetter with
      | true => exact accessorMember_accounts hg mode words false
      | false => exact .absent [.words ["set"]] rfl (namedMember_accounts hg mode decorated words)

omit hg in
theorem implementedName_accounts (bound : Nat) : Keeps .specifiers (implementedName bound) := by
  have hword : Keeps .specifiers Reader.anyWord := .within rfl .anyWord
  refine .bind hword fun _ => .bind (.itemsUntil _ ?_ _) fun _ => .pure
  exact .bind (.silently (.expect _)) fun _ => .bind hword fun _ => .pure

/-- Of the classes that are extended only the first one counts. -/
theorem extended_accounts : ∀ n, Accounts [] (commaItems (leftHandSide g mode) n)
    fun es => optionalMarks es.head? ++ [.extra]
  | 0 => .fail
  | n + 1 => by
    have hextra (n : Nat) {p : Token × List Char} (hcomma : p.1.isPunct .comma = true) :
        AccountsAt p [] (Reader.advance >>= fun _ => commaItems (leftHandSide g mode) n)
          fun _ => [.extra] := by
      have hsilent := Token.isIdentifier_of_isPunct hcomma
      induction n generalizing p with
      | zero => exact .seq (.silent hsilent) fun _ => .fail
      | succ n ih =>
        refine .aside hsilent (leftHandSide_accounts hg mode) rfl (fun _ _ => .extra hcomma)
          fun _ p => .accepting (fun hcomma => ?_) (.pure rfl)
        have hrest := AccountsAt.within rfl (ih hcomma (Token.isIdentifier_of_isPunct hcomma))
        exact hrest.regroup fun _ => .pure rfl
    refine .bind (leftHandSide_accounts hg mode) fun e p => .accepting (fun hcomma => ?_)
      (.absent [.extra] rfl (.pure rfl))
    exact (hextra n hcomma).after.regroup fun _ => .pure rfl

section Heritage

variable {p : Token × List Char} {next : Reader (Option Expr)}

theorem extends_drops (hword : p.1.isWord "extends" = true) (hnext : Keeps .dropped next) :
    AccountsAt p [.dropped] (do
      passWord
      let es ← commaItems (leftHandSide g mode) g.bound
      let _ ← next
      return es.head?) fun _ => [.dropped] :=
  .andThen (.drop (.reserved hword (by decide))) fun _ => .andThen
    (fun p => (Accounts.commaItems (leftHandSide_accounts hg mode) _ p).drop) fun _ =>
      .andThen hnext fun _ => .pure rfl

omit hg in
theorem implements_drops {bound : Nat} (hword : p.1.isWord "implements" = true)
    (hnext : Keeps .dropped next) : AccountsAt p [.dropped] (do
      passWord
      let _ ← commaItems (implementedName bound) bound
      next) fun _ => [.dropped] := by
  have hnames := (Keeps.commaItems (implementedName_accounts bound) bound).alone rfl
  exact .andThen (.drop (.keyword ["implements"] hword (by simp))) fun _ =>
    .andThen (fun p => (hnames p).drop) fun _ => hnext

omit hg in
theorem implements_accounts {bound : Nat} {seen : List Mark} {ns : Option Expr → List Mark}
    (hword : p.1.isWord "implements" = true) (hnext : Accounts (seen ++ [.aside]) next ns) :
    AccountsAt p seen (do
      passWord
      let _ ← commaItems (implementedName bound) bound
      next) ns := by
  have hnames := (AccountsAt.specifier hword).andThen fun _ =>
    Keeps.commaItems (implementedName_accounts bound) bound
  exact (hnames.single rfl fun _ _ => .implemented hword).after.regroup fun _ => hnext

end Heritage

theorem heritageClauses_drops : ∀ n extended implemented,
    Keeps .dropped (heritageClauses g mode n extended implemented)
  | 0, _, _ => .fail
  | n + 1, _, _ => fun _ => .isAtWord (.ite
      (fun hword => .complainIf (extends_drops hg mode hword (heritageClauses_drops n _ _)))
      fun _ => .isAtWord (.ite
        (fun hword => .complainIf (implements_drops hword (heritageClauses_drops n _ _)))
        fun _ => .pure rfl))

theorem heritageClauses_implemented {seen : List Mark} {ns : Option Expr → List Mark}
    (hns : ns none = seen) (extended : Bool) :
    ∀ n, Accounts seen (heritageClauses g mode n extended true) ns
  | 0 => .fail
  | n + 1 => fun _ => .isAtWord (.ite
      (fun hword => .faultless (extends_drops hg mode hword (heritageClauses_drops hg mode n _ _))
        fun hc => by simp at hc)
      fun _ => .isAtWord (.ite
        (fun hword => .faultless (implements_drops hword (heritageClauses_drops hg mode n _ _)) nofun)
        fun _ => .pure hns))

theorem heritageClauses_extended {seen : List Mark} (ns : Option Expr → List Mark)
    (hns : ns none = seen ++ [.aside]) :
    ∀ n, Accounts seen (heritageClauses g mode n true false) ns
  | 0 => .fail
  | n + 1 => fun _ => .isAtWord (.ite
      (fun hword => .faultless
        (extends_drops hg mode hword (heritageClauses_drops hg mode n _ _)) nofun)
      fun _ => .isAtWord (.ite
        (fun hword => .complainIf (implements_accounts hword
          (heritageClauses_implemented hg mode hns true n)))
        fun _ => .absent [.aside] rfl (.pure hns)))

theorem heritageClauses_accounts : ∀ n, Accounts [] (heritageClauses g mode n false false)
    fun heritage => optionalMarks heritage ++ [.extra, .aside]
  | 0 => .fail
  | n + 1 => fun _ => .isAtWord (.ite
      (fun hword => .complainIf (.seq (.reserved hword (by decide)) fun _ =>
        .bind (extended_accounts hg mode _) fun es => .andThen
          (heritageClauses_extended hg mode (fun _ => optionalMarks es.head? ++ [.extra, .aside])
            (by simp) n) fun _ => .pure rfl))
      fun _ => .isAtWord (.ite
        (fun hword => .complainIf (.absent [.extra] rfl (implements_accounts hword
          (heritageClauses_implemented hg mode (by rfl) false n))))
        fun _ => .absent [.extra, .aside] rfl (.pure rfl)))

theorem classRest_accounts (seen : List Mark) :
    Accounts (seen ++ classWords) (classRest g mode) fun x => seen ++ classMarks x := by
  have hmember : Accounts [] (do
      if ← accept .semicolon then return []
      return [← classMember g mode]) fun ms => ms.flatMap Member.marks :=
    .seq (.accept _) fun _ => .ite (.pure rfl)
      (.bind (classMember_accounts hg mode) fun _ => .pure (by simp))
  refine .seq (.expectReserved (by decide)) fun _ => .seq .token fun _ => .ite
    (.bind (someBinder_accounts mode) ?rest) (.bind noBinder_accounts ?rest)
  exact fun _ => .bind (heritageClauses_accounts hg mode _) fun _ => .seq (.expect _) fun _ =>
    .bind (.itemsUntil _ hmember _) fun members => .seq (.expect _) fun _ =>
      .pure (by simp [← List.flatMap_id, List.flatMap_assoc])

theorem modifiedClass_accounts : Accounts [.decorators] (modifiedClass g mode) classMarks :=
  .bind (modifiersAfter_accounts false _ _) fun _ => .seq (.complainIf _) fun _ =>
    classRest_accounts hg mode []

/-! ## Operands -/

omit hg in
theorem regexLiteral_accounts {p : Token × List Char}
    (hslash : p.1.isPunct .slash = true ∨ p.1.isPunct .slashAssign = true) :
    AccountsAt p [] regexLiteral Expr.marks := by
  rintro s e s' rfl hrun hfaulty
  obtain ⟨after, htext, heq⟩ := Option.bind_eq_some_iff.mp hrun
  obtain ⟨rfl, rfl⟩ := Prod.mk.inj (Option.some.inj heq)
  exact AccountsAt.passed rfl rfl rfl hfaulty rfl fun _ => .regex hslash htext

theorem templateLiteral_accounts : Accounts [] (templateLiteral g mode) Expr.marks :=
  .bind (templateParts_accounts hg mode _) fun _ => .seq (.complainIf _) fun _ => .pure (by simp)

theorem arrayLiteral_accounts : Accounts [] (arrayLiteral g mode) Expr.marks :=
  .seq (.expect _) fun _ => .bind (.commaList _ (.seq (.isAt _) fun _ =>
    .ite (.pure (show Expr.marks _ = [] from rfl)) (spreadable_accounts hg mode)) _) fun _ =>
    .seq (.expect _) fun _ => .pure (by simp)

omit hg in
theorem methodKind_accounts :
    Accounts [] methodKind fun m => if m.isMarked then methodWords else [] := by
  refine .bind (modifier_accounts "async" _ _) fun isAsync => .seq (.accept _) fun isGenerator => ?_
  cases isAsync with
  | true => exact .absent [.words ["get"], .words ["set"]] rfl (.pure rfl)
  | false =>
    cases isGenerator with
    | true => exact .absent methodWords rfl (.pure rfl)
    | false =>
      refine .bind (modifier_accounts "get" _ _) fun isGetter => ?_
      cases isGetter with
      | true =>
        exact .absentBefore [.words ["async"]] rfl (.absent [.words ["set"]] rfl (.pure rfl))
      | false =>
        refine .bind (modifier_accounts "set" _ _) fun isSetter => ?_
        cases isSetter with
        | true => exact .absentBefore [.words ["async"], .words ["get"]] rfl (.pure rfl)
        | false => exact .pure rfl

theorem methodProperty_accounts (m : MethodKind) (name : PropertyName) :
    Accounts (methodWords ++ name.key.marks) (methodProperty g m name) Property.marks := by
  refine .absent [.words ["async"]] rfl (.bind (functionRest_accounts hg _ _) fun _ =>
    .ite (.seq (.complainIf _) ?rest) (?rest ()))
  exact fun _ => .ite (.seq (.complainIf _) fun _ => .pure (by simp)) (.pure (by simp))

theorem property_accounts : Accounts [] (property g mode) Property.marks := by
  refine .seq (.accept _) fun _ => .ite (.bind (hg.assignment _) fun _ => .pure rfl)
    (.bind methodKind_accounts fun m => ?_)
  cases hmarked : m.isMarked with
  | true =>
    refine .bind (propertyKey_accounts hg mode) fun name => .seq (.complainIf _) fun _ =>
      .seq (.isAt _) fun _ p => .ite (fun _ => methodProperty_accounts hg m name p) fun hc => ?_
    exact absurd (by simp) hc
  | false =>
    refine fun p => .andThenWith (propertyName_gives mode p) (propertyName_accounts hg mode p)
      fun name hname => ?_
    have hkey {r : Reader Property}
        (h : Accounts (methodWords ++ name.key.marks) r Property.marks) :
        Accounts name.marks r Property.marks := .asKey hname (.absentBefore methodWords rfl h)
    refine .seq (.complainIf _) fun _ => .seq (.isAt _) fun _ =>
      .ite (hkey (methodProperty_accounts hg m name)) (.seq (.accept _) fun _ => .ite
        (hkey (.bind (hg.assignment _) fun _ => .pure (by simp))) ?_)
    split
    · exact .fail
    · rename_i id hid
      have hmarks : name.marks = [.use id false] := by simp [hid]
      rw [hmarks]
      refine .ofUse [.use id true] (.ite .fail_bind (.seq (.accept _) fun _ => .ite
        (.bind (hg.assignment _) fun fallback => .bind .opened fun _ => ?_) (.pure rfl)))
        (fun _ _ => .shorthand) rfl
      -- the default is counted after it is read
      refine .recast (Property.shorthand id (some fallback)).marks (.pure rfl)
        (fun _ _ hq => ?_) ?_
      · simpa [settled] using hq
      · simp

theorem objectLiteral_accounts : Accounts [] (objectLiteral g mode) Expr.marks :=
  .seq (.expect _) fun _ => .bind (.commaList _ (property_accounts hg _) _) fun _ =>
    .seq (.expect _) fun _ => .pure (by simp)

theorem functionExpr_accounts : Accounts [] (functionExpr g) Expr.marks := by
  refine .bind (.perhaps rfl (.acceptWord ["async"] (by simp))) fun _ =>
    .seq (.expectReserved (by decide)) fun _ => .seq (.accept _) fun _ => .seq .token fun _ =>
      .ite (.bind (someBinder_accounts _) ?rest) (.bind noBinder_accounts ?rest)
  exact fun _ => .bind (functionRest_accounts hg _ _) fun _ => .pure (by simp)

theorem classExpr_accounts : Accounts [] (classExpr g mode) Expr.marks :=
  .bind (.perhaps rfl (decorators_accounts hg mode)) fun _ => .ite
    (.andThen (modifiedClass_accounts hg mode) fun _ => .pure rfl)
    (.absent [.words modifierWords] rfl (.andThen (classRest_accounts hg mode []) fun _ => .pure rfl))

theorem parenthesized_accounts : Accounts [] (parenthesized g mode) Expr.marks :=
  condition_accounts hg mode.inside

theorem importArguments_accounts :
    Accounts [.words ["source", "defer"]] (importArguments g mode) Expr.marks := by
  have hclose (source : Expr) : Accounts ([.words ["source", "defer"]] ++ source.marks ++ [.extra])
      (do expect .rparen; return .form .importCall [source]) Expr.marks :=
    .seq (.expect _) fun _ => .pure (by simp)
  refine .seq (.expect _) fun _ => .bind (hg.assignment _) fun source p => .accepting
    (fun hcomma => .advance_isAt ?_) (.isAt (.absent [.extra] rfl (hclose source p)))
  have hsilent := Token.isIdentifier_of_isPunct hcomma
  cases (nextPlace p).1.isPunct .rparen with
  | true => exact .seq (.silent hsilent) fun _ => .absent [.extra] rfl (hclose source)
  | false =>
    exact .aside hsilent (hg.assignment _) rfl (fun _ _ => .extra hcomma) fun _ =>
      .seq (.accept _) fun _ => hclose source

theorem importExpr_accounts : Accounts [] (importExpr g mode) Expr.marks := by
  refine .seq (.expectReserved (by decide)) fun _ => .seq (.accept _) fun _ => .ite
    (.bind (.acceptWord ["meta", "target"] (by simp)) fun isMeta => ?_)
    (.absent [.words ["source", "defer"]] rfl (importArguments_accounts hg mode))
  cases isMeta with
  | true => exact .pure rfl
  | false =>
    refine .bind (.acceptWord ["source", "defer"] (by simp)) fun isSource => ?_
    cases isSource with
    | true => exact importArguments_accounts hg mode
    | false =>
      exact .bind (.expectWord ["source", "defer"] (by simp)) fun _ =>
        importArguments_accounts hg mode

theorem newExpr_accounts : Accounts [] (newExpr g mode) Expr.marks := by
  refine .seq (.expectReserved (by decide)) fun _ => .seq (.accept _) fun _ => .ite
    (.bind (.expectWord ["meta", "target"] (by simp)) fun _ => .pure rfl)
    (.seq (.isAt _) fun _ => .bind (hg.primary mode) fun _ => .andThen
      (chainRest_accounts hg mode _ _ _ _) fun _ => .seq (.complainIf _) fun _ =>
        .seq (.isAt _) fun _ =>
          .ite (.bind (arguments_accounts hg mode) ?rest) (.bind (.pure rfl) ?rest))
  exact fun _ => .pure (by simp)

omit hg in
theorem superExpr_accounts : Accounts [] superExpr Expr.marks :=
  .seq (.expectReserved (by decide)) fun _ => .seq .token fun _ => .seq (.complainIf _) fun _ =>
    .pure rfl

theorem wordOperand_accounts {p : Token × List Char} {w : String} {escaped : Bool}
    (hlexeme : p.1.lexeme = .name w escaped) :
    AccountsAt p [] (wordOperand g mode w) Expr.marks := by
  have hliteral {value : Literal} {v : String} (hw : (w == v) = true) (hv : isReserved v = true)
      (hvalue : value.marks = []) :
      AccountsAt p [] (do passWord; return Expr.literal value) Expr.marks := by
    refine .seq (.reserved (w := v) ?_ hv) fun _ => .pure hvalue
    rw [Token.isWord, hlexeme]
    exact hw
  exact .ite (fun h => hliteral h (by decide) rfl) fun _ =>
    .ite (fun h => hliteral h (by decide) rfl) fun _ =>
    .ite (fun h => hliteral h (by decide) rfl) fun _ =>
    .ite (fun h => hliteral h (by decide) rfl) fun _ =>
    .ite (fun _ => classExpr_accounts hg mode p) fun _ =>
    .ite (fun _ => newExpr_accounts hg mode p) fun _ =>
    .ite (fun _ => superExpr_accounts p) fun _ =>
    .ite (fun _ => importExpr_accounts hg mode p) fun _ =>
    .seq (startsFunction_accounts p) fun _ =>
      .ite (functionExpr_accounts hg) (.bind (identifier_accounts mode) fun _ => .pure rfl)

theorem primaryExpr_accounts : Accounts [] (primaryExpr g mode) Expr.marks := by
  have hliteral {p : Token × List Char} {value : Literal} (hp : p.1.isIdentifier = false)
      (hvalue : value.marks = []) :
      AccountsAt p [] (do advance; return Expr.literal value) Expr.marks :=
    .seq (.silent hp) fun _ => .pure hvalue
  refine fun p => .token ?_
  split
  · exact wordOperand_accounts hg mode ‹_›
  · exact hliteral (by simp [Token.isIdentifier, *]) rfl
  · exact hliteral (by simp [Token.isIdentifier, *]) rfl
  · exact hliteral (by simp [Token.isIdentifier, *]) rfl
  · exact templateLiteral_accounts hg mode p
  · exact parenthesized_accounts hg mode p
  · exact arrayLiteral_accounts hg mode p
  · exact objectLiteral_accounts hg mode p
  · exact regexLiteral_accounts (.inl (by simp [Token.isPunct, *]))
  · exact regexLiteral_accounts (.inr (by simp [Token.isPunct, *]))
  · exact classExpr_accounts hg mode p
  · exact .fail

/-! ## Operators -/

omit hg in
theorem isIdentifier_of_binaryOp? {op : BinaryOp} (h : t.binaryOp? = some op) :
    t.isIdentifier = false := by
  unfold Token.binaryOp? at h
  split at h
  · simp [Token.isIdentifier, *]
  · simp only [Token.isIdentifier, *]
    decide
  · simp only [Token.isIdentifier, *]
    decide
  · cases h

theorem binaryRest_accounts (least : Nat) : ∀ n left grouped,
    Accounts left.marks (binaryRest g mode least n left grouped) Expr.marks
  | 0, _, _ => .fail
  | n + 1, left, grouped => by
    refine fun p => .token ?_
    split
    · exact .ite (fun _ => Accounts.fail_bind p) fun _ => .pure rfl
    · rename_i op hop
      refine .ite (fun _ => .pure rfl) fun _ => .seq
        (.passWord (.silent (isIdentifier_of_binaryOp? hop))) fun _ => .seq (.isAt _) fun _ =>
          .bind (hg.binary _ _) fun _ => .seq (.complainIf _) fun _ =>
            .seq (.complainIf _) fun _ => ?_
      exact (binaryRest_accounts least n _ _).of_eq (by simp)

theorem privateIn_accounts {p : Token × List Char} {name : String}
    (hlexeme : p.1.lexeme = .privateName name) :
    AccountsAt p [] (privateIn g mode name) Expr.marks :=
  .ite (fun _ => Accounts.fail_bind p) fun _ =>
    .seq (.silent (by simp [Token.isIdentifier, hlexeme])) fun _ =>
      .seq (.expectReserved (by decide)) fun _ => .bind (hg.binary _ _) fun _ =>
        .ite .fail_bind (.pure (by simp))

theorem binaryExpr_accounts (least : Nat) : Accounts [] (binaryExpr g mode least) Expr.marks := by
  refine fun p => .isAt (.token ?_)
  have hrest (left : Expr) (grouped : Bool) := binaryRest_accounts hg mode least g.bound left grouped
  split
  · exact .bind (privateIn_accounts hg mode ‹_›) fun _ => hrest _ _
  · exact .bind (hg.unary mode p) fun _ => hrest _ _

omit hg in
theorem operandFollows_looks {p : Token × List Char} {P : Bool → Prop} (hP : ∀ b, P b) :
    LooksAt p operandFollows P := by
  refine .bind .nextToken fun t _ => ?_
  split
  · exact .pure (hP _)
  · split
    · exact .pure (hP _)
    · exact .pure (hP _)
    · exact .pure (hP _)
    · exact .pure (hP _)
    · exact .pure (hP _)

omit hg in
theorem startsAwait_looks (p : Token × List Char) :
    LooksAt p (startsAwait mode) fun b => b = true → p.1.isWord "await" = true := by
  refine .bind (.isAtWord _) fun b hb => ?_
  subst hb
  split
  · rename_i hword
    split
    · exact .pure fun _ => hword
    · refine .bind .nextToken fun t _ => ?_
      split
      · exact .pure nofun
      · exact operandFollows_looks fun _ _ => hword
  · exact .pure nofun

omit hg in
theorem startsYield_looks (p : Token × List Char) :
    LooksAt p (startsYield mode) fun b => b = true → p.1.isWord "yield" = true := by
  refine .bind (.isAtWord _) fun b hb => ?_
  subst hb
  split
  · rename_i hword
    split
    · exact .pure fun _ => hword
    · exact operandFollows_looks fun _ _ => hword
  · exact .pure nofun

omit hg in
theorem updateOf_accounts (e : Expr) : Accounts e.marks (updateOf e) Expr.marks := by
  unfold updateOf
  split
  · rename_i target htarget
    exact .pure (Expr.marks_toSimpleTarget? htarget)
  · exact .fail

omit hg in
theorem isIdentifier_of_updateOperator (h : updateOperator t = true) : t.isIdentifier = false := by
  rw [updateOperator, Bool.or_eq_true] at h
  exact h.elim Token.isIdentifier_of_isPunct Token.isIdentifier_of_isPunct

omit hg in
theorem isIdentifier_of_unaryOperator (h : unaryOperator t = true) : t.isIdentifier = false := by
  unfold unaryOperator at h
  split at h
  · simp [Token.isIdentifier, *]
  · rename_i w escaped hlexeme
    have hword (v : String) : w = v → t.isWord v = true := by
      rintro rfl
      simp [Token.isWord, hlexeme]
    have hw : w = "delete" ∨ w = "typeof" ∨ w = "void" := by simpa using h
    obtain hw | hw | hw := hw <;> exact Token.isIdentifier_of_isWord (hword _ hw) (by decide)
  · cases h

theorem updatedExpr_accounts : Accounts [] (updatedExpr g mode) Expr.marks := by
  refine .bind (leftHandSide_accounts hg mode) fun e p =>
    .token (.ite (fun hc => ?_) fun _ => .pure rfl)
  have hupdate : updateOperator p.1 = true := by simp_all
  unfold updateOf
  split
  · rename_i target htarget
    rw [pure_bind]
    exact .seq (.silent (isIdentifier_of_updateOperator hupdate)) fun _ =>
      .pure (Expr.marks_toSimpleTarget? htarget)
  · exact Accounts.fail_bind p

theorem unaryExpr_accounts : Accounts [] (unaryExpr g mode) Expr.marks :=
  fun p => .token (.ite
    (fun hupdate => .seq (.silent (isIdentifier_of_updateOperator hupdate)) fun _ =>
      .bind (hg.unary mode) fun _ => updateOf_accounts _)
    fun _ => .ite
      (fun hunary => .seq (.passWord (.silent (isIdentifier_of_unaryOperator hunary))) fun _ =>
        .bind (hg.unary mode) fun _ => .pure (by simp))
      fun _ => .look (startsAwait_looks mode p) fun _ hawait => .ite
        (fun hc => .complainIf (.bind (.keyword ["await"] (hawait hc) (by simp)) fun _ =>
          .bind (hg.unary _) fun _ => .pure (by simp)))
        fun _ => updatedExpr_accounts hg mode p)

/-! ## Arrow functions and assignments -/

theorem arrowBody_accounts (isAsync : Bool) :
    Accounts [] (arrowBody g mode isAsync) stmtMarks :=
  .seq (.isAt _) fun _ => .ite (statementBlock_accounts hg _)
    (.bind (hg.assignment _) fun _ => .pure (by simp))

omit hg in
theorem passArrow_accounts : Accounts [] passArrow fun _ => [] :=
  .seq .token fun _ => .seq (.complainIf _) fun _ => .expect _

omit hg in
theorem passAsync_accounts : Accounts [] passAsync fun _ => [.words ["async"]] :=
  fun _ => .isAtWord (.ite
    (fun hword => .bind (.keyword ["async"] hword (by simp)) fun _ => .seq .token fun _ =>
      .ite .fail_bind (.pure rfl))
    fun _ => .absent [.words ["async"]] rfl (.pure rfl))

theorem arrowHead_accounts :
    Accounts [] (arrowHead g mode) fun x => .words ["async"] :: bindingMarks false x.2 :=
  .bind passAsync_accounts fun _ => .bind (parameters_accounts hg _) fun _ =>
    .seq passArrow_accounts fun _ => .pure rfl

theorem arrowHead?_accounts : Accounts [] (arrowHead? g mode)
    fun x => x.toList.flatMap fun head => .words ["async"] :: bindingMarks false head.2 :=
  .attempt (.bind (arrowHead_accounts hg mode) fun _ => .seq .token fun _ =>
    .ite .fail_bind (.pure rfl))

theorem parenthesizedArrow?_accounts :
    Accounts [] (parenthesizedArrow? g mode) optionalMarks := by
  refine .seq (.peek _) fun likelihood => ?_
  have hrest {f : Option (Bool × List Binding) → Reader (Option Expr)} (hnone : f none = pure none)
      (hsome : ∀ head, f (some head) = do return some (.arrow head.2 (← arrowBody g mode head.1)))
      (head : Option (Bool × List Binding)) :
      Accounts (head.toList.flatMap fun x => .words ["async"] :: bindingMarks false x.2) (f head)
        optionalMarks := by
    cases head with
    | none =>
      rw [hnone]
      exact .pure rfl
    | some head =>
      rw [hsome]
      exact .bind (arrowBody_accounts hg mode _) fun _ => .pure (by simp)
  split
  · refine .andThen ?_ (hrest rfl fun _ => rfl)
    exact .map (arrowHead_accounts hg mode) (by simp)
  · exact .andThen (arrowHead?_accounts hg mode) (hrest rfl fun _ => rfl)
  · exact .andThen (.pure rfl) (hrest rfl fun _ => rfl)

omit hg in
/-- Before a name and an arrow, `async` needs no mark. -/
theorem startsAsyncArrow_looks (p : Token × List Char) :
    LooksAt p startsAsyncArrow fun b => b = true → Spells p [] (nextPlace p) := by
  have hgives : GivesAt p (do
      expectWord "async"
      let t ← token
      if t.newline || !t.isIdentifier then fail
      advance
      isAt .arrow) fun b => b = true → Spells p [] (nextPlace p) := by
    refine .expectWord fun hword => .token (.ite (fun _ => .fail_bind) fun hname => .advance ?_)
    refine .isAt fun harrow => .async hword ?_ harrow
    simp_all
  rintro s rfl
  refine ⟨_, rfl, fun hfound => ?_⟩
  obtain ⟨s', hrun⟩ : ∃ s', (do
      expectWord "async"
      let t ← token
      if t.newline || !t.isIdentifier then fail
      advance
      isAt .arrow : Reader Bool) s = some (true, s') := by
    simpa using hfound
  exact hgives s true s' rfl hrun rfl

theorem bareArrow_accounts (id : Ident) (isAsync : Bool) :
    Accounts [.use id false] (bareArrow g mode id isAsync) Expr.marks := by
  refine .ofUse [.words ["async"], .binder id] (.seq passArrow_accounts fun _ =>
    .bind (arrowBody_accounts hg mode _) fun _ => .pure (by simp [Mark.bound])) (fun p q hq => ?_) rfl
  exact (Spells.absent (m := .words ["async"]) rfl).trans hq.binder

theorem yieldExpr_accounts {p : Token × List Char} (hword : p.1.isWord "yield" = true) :
    AccountsAt p [] (yieldExpr g mode) Expr.marks :=
  .complainIf (.bind (.keyword ["yield"] hword (by simp)) fun _ => .seq .token fun _ =>
    .ite (.pure rfl) (.seq (.accept _) fun _ => .seq .token fun _ => .ite (.pure rfl)
      (.bind (hg.assignment _) fun _ => .pure (by simp))))

omit hg in
theorem isIdentifier_of_assignmentOperator (h : assignmentOperator t = true) :
    t.isIdentifier = false := by
  rw [assignmentOperator, Bool.or_eq_true, Bool.or_eq_true] at h
  exact h.elim (fun h => h.elim Token.isIdentifier_of_isPunct Token.isIdentifier_of_isPunct)
    Token.isIdentifier_of_isPunct

theorem assignTo_accounts {p : Token × List Char} (hp : assignmentOperator p.1 = true) (left : Expr)
    (grouped : Bool) : AccountsAt p left.marks (assignTo g mode left grouped) Expr.marks := by
  refine .ite (fun _ => Accounts.fail_bind p) fun _ => ?_
  split
  · exact .fail
  · rename_i target justified htarget
    exact .justified (Expr.justifies_toTarget? htarget)
      (.seq (.silent (isIdentifier_of_assignmentOperator hp)) fun _ =>
        .bind (hg.assignment _) fun _ => .pure rfl)

theorem conditionalRest_accounts (test : Expr) :
    Accounts test.marks (conditionalRest g mode test) Expr.marks :=
  .seq (.accept _) fun _ => .ite (.bind (hg.assignment _) fun _ => .seq (.expect _) fun _ =>
    .bind (hg.assignment _) fun _ => .pure (by simp)) (.pure rfl)

theorem assignmentExpr_accounts : Accounts [] (assignmentExpr g mode) Expr.marks := by
  refine fun p => .token (.look (startsYield_looks mode p) fun _ hyield => .ite
    (fun hc => yieldExpr_accounts hg mode (hyield hc)) fun _ =>
      .bind (parenthesizedArrow?_accounts hg mode p) fun found => ?_)
  cases found with
  | some e => exact .pure rfl
  | none =>
    have hpass {p : Token × List Char} {isAsync : Bool} {next : Unit → Reader Expr}
        (hasync : isAsync = true → Spells p [] (nextPlace p))
        (hnext : ∀ u, Accounts [] (next u) Expr.marks) :
        AccountsAt p [] (if isAsync = true then passWord >>= next else next ()) Expr.marks :=
      .ite (fun hc => .seq (.passWord (.advanceSilent (hasync hc))) hnext) fun _ => hnext () p
    refine fun p => .look (startsAsyncArrow_looks p) fun _ hasync => hpass hasync fun _ =>
      .bind (hg.binary _ _) fun left p => .isAt ?_
    split
    · exact bareArrow_accounts hg mode _ _ p
    · exact .token (.ite (fun hc => assignTo_accounts hg mode hc _ _) fun _ =>
        conditionalRest_accounts hg mode _ p)

end Productions

end TemplateCompiler.Script
