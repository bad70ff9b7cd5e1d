import TemplateCompiler.Proofs.Script.Literals
import TemplateCompiler.Script.Shape

/-! # Reading string literals

An expression is a string literal exactly if its tokens are those of one, perhaps in parentheses, and
the token behind them does not continue it.
-/

namespace TemplateCompiler.Script

open Reader

variable {b : Bool} {c : Prop} {e : Expr} {n : Nat} {s' : ReaderState} {t : Token}

/-! ## Results of readers -/

/-- Whatever the reader gives is as the last argument says. -/
def Yields {α : Type} (r : Reader α) (p : α → Prop) : Prop := ∀ s a s', r s = some (a, s') → p a

theorem bind_eq_some {α β : Type} {r : Reader α} {f : α → Reader β} {s : ReaderState} {b : β} :
    (r >>= f) s = some (b, s') ↔ ∃ a s₁, r s = some (a, s₁) ∧ f a s₁ = some (b, s') := by
  simp [Bind.bind, StateT.bind, Option.bind_eq_some_iff]

theorem of_token_bind {α : Type} {f : Token → Reader α} {s : ReaderState}
    {x : Option (α × ReaderState)} (h : (token >>= f) s = x) : ∃ r, f s.token = r ∧ r s = x :=
  ⟨_, rfl, h⟩

theorem of_isAt_bind {α : Type} {p : Punct} {f : Bool → Reader α} {s : ReaderState}
    {x : Option (α × ReaderState)} (h : (isAt p >>= f) s = x) :
    ∃ r, f (s.token.isPunct p) = r ∧ r s = x := ⟨_, rfl, h⟩

namespace Yields

variable {α β : Type} {r : Reader α} {f : α → Reader β} {p : α → Prop} {q : β → Prop}

theorem pure {a : α} (h : p a) : Yields (Pure.pure a : Reader α) p := by
  rintro s _ _ ⟨⟩
  exact h

theorem fail : Yields (Reader.fail : Reader α) p := fun _ _ _ h => nomatch h

theorem bind (h : Yields r p) (hf : ∀ a, p a → Yields (f a) q) : Yields (r >>= f) q := by
  intro s b s' hrun
  obtain ⟨a, s₁, hr, hrun⟩ := bind_eq_some.mp hrun
  exact hf a (h s a s₁ hr) s₁ b s' hrun

theorem seq (hf : ∀ a, Yields (f a) q) : Yields (r >>= f) q :=
  bind (p := fun _ => True) (fun _ _ _ _ => trivial) fun a _ => hf a

theorem ite [Decidable c] {r' : Reader α} (h : Yields r p) (h' : Yields r' p) :
    Yields (if c then r else r') p := by
  split
  · exact h
  · exact h'

end Yields

/-- The reader gives something else than a string literal. -/
abbrev YieldsOther (r : Reader Expr) : Prop := Yields r fun e => e.stringValue? = none

theorem other_of_run {r : Reader Expr} {s : ReaderState} (h : r s = some (e, s'))
    (hr : YieldsOther r) : e.stringValue? = none := hr s e s' h

section Productions

variable (g : Grammar) (mode : Mode)

theorem memberAccess_yields (e : Expr) : YieldsOther (memberAccess e) := by
  refine .seq fun t => ?_
  split
  · exact .seq fun _ => .pure rfl
  · exact .seq fun _ => .pure rfl
  · exact .fail

theorem indexAccess_yields (e : Expr) : YieldsOther (indexAccess g mode e) :=
  .seq fun _ => .seq fun _ => .seq fun _ => .pure rfl

theorem chainRest_yields (calls : Bool) : ∀ n e isOptional, e.stringValue? = none →
    Yields (chainRest g mode calls n e isOptional) fun x => x.1.stringValue? = none
  | 0, _, _, _ => .fail
  | n + 1, e, isOptional, he => by
    refine .seq fun t => ?_
    have hmember : YieldsOther (memberAccess e) := memberAccess_yields e
    have hindex : YieldsOther (indexAccess g mode e) := indexAccess_yields g mode e
    split
    · exact .seq fun _ => .bind hmember fun _ => chainRest_yields calls n _ _
    · refine .seq fun next => .ite (.ite (.seq fun _ => .seq fun _ => ?_) (.pure he))
        (.seq fun _ => .ite (.bind hindex fun _ => chainRest_yields calls n _ _)
          (.bind hmember fun _ => chainRest_yields calls n _ _))
      exact chainRest_yields calls n _ _ rfl
    · exact .ite (.pure he) (.bind hindex fun _ => chainRest_yields calls n _ _)
    · exact .ite (.seq fun _ => chainRest_yields calls n _ _ rfl) (.pure he)
    · exact .seq fun _ => .seq fun _ => chainRest_yields calls n _ _ rfl
    · exact .pure he

theorem updateOf_yields (e : Expr) : YieldsOther (updateOf e) := by
  unfold updateOf
  split
  · exact .pure rfl
  · exact .fail

theorem binaryRest_yields (least : Nat) : ∀ n left grouped, left.stringValue? = none →
    YieldsOther (binaryRest g mode least n left grouped)
  | 0, _, _, _ => .fail
  | n + 1, left, grouped, hleft => by
    refine .seq fun t => ?_
    split
    · exact .ite (.seq fun _ => .pure hleft) (.pure hleft)
    · exact .ite (.pure hleft) (.seq fun _ => .seq fun _ => .seq fun _ => .seq fun _ =>
        .seq fun _ => binaryRest_yields least n _ _ rfl)

theorem classExpr_yields : YieldsOther (classExpr g mode) :=
  .seq fun _ => .ite (.seq fun _ => .pure rfl) (.seq fun _ => .pure rfl)

theorem newExpr_yields : YieldsOther (newExpr g mode) :=
  .seq fun _ => .seq fun _ => .ite (.seq fun _ => .pure rfl) (.seq fun _ => .seq fun _ => .seq fun _ =>
    .seq fun _ => .seq fun _ => .ite (.seq fun _ => .pure rfl) (.seq fun _ => .pure rfl))

theorem importExpr_yields : YieldsOther (importExpr g mode) := by
  have harguments : YieldsOther (importArguments g mode) :=
    .seq fun _ => .seq fun _ => .seq fun _ => .seq fun _ => .ite
      (.seq fun _ => .seq fun _ => .seq fun _ => .pure rfl) (.seq fun _ => .pure rfl)
  exact .seq fun _ => .seq fun _ => .ite (.seq fun _ => .ite (.pure rfl) (.seq fun _ =>
    .ite harguments (.seq fun _ => harguments))) harguments

theorem functionExpr_yields : YieldsOther (functionExpr g) :=
  .seq fun _ => .seq fun _ => .seq fun _ => .seq fun _ => .ite
    (.seq fun _ => .seq fun _ => .pure rfl) (.seq fun _ => .seq fun _ => .pure rfl)

theorem wordOperand_yields (w : String) : YieldsOther (wordOperand g mode w) :=
  .ite (.seq fun _ => .pure rfl) (.ite (.seq fun _ => .pure rfl) (.ite (.seq fun _ => .pure rfl)
    (.ite (.seq fun _ => .pure rfl) (.ite (classExpr_yields g mode) (.ite (newExpr_yields g mode)
      (.ite (.seq fun _ => .seq fun _ => .seq fun _ => .pure rfl) (.ite (importExpr_yields g mode)
        (.seq fun _ => .ite (functionExpr_yields g) (.seq fun _ => .pure rfl)))))))))

theorem regexLiteral_yields : YieldsOther regexLiteral := by
  intro s e s' h
  obtain ⟨rest, -, heq⟩ := Option.bind_eq_some_iff.mp h
  obtain ⟨rfl, -⟩ := Prod.mk.inj (Option.some.inj heq)
  rfl

theorem yieldExpr_yields : YieldsOther (yieldExpr g mode) :=
  .seq fun _ => .seq fun _ => .seq fun _ => .ite (.pure rfl) (.seq fun _ => .seq fun _ =>
    .ite (.pure rfl) (.seq fun _ => .pure rfl))

theorem bareArrow_yields (id : Ident) (isAsync : Bool) : YieldsOther (bareArrow g mode id isAsync) :=
  .seq fun _ => .seq fun _ => .pure rfl

theorem assignTo_yields (left : Expr) (grouped : Bool) : YieldsOther (assignTo g mode left grouped) := by
  refine .ite (.seq fun _ => ?_) ?_
  all_goals
    split
    · exact .fail
    · exact .seq fun _ => .seq fun _ => .seq fun _ => .pure rfl

end Productions

/-! ## The productions that a literal passes through -/

/-- Read from the state `s`, the result is a literal exactly if its tokens are there and none that
`more` names is behind them. -/
def SpineAt (s : ReaderState) (r : Reader Expr) (more : Token → Bool) : Prop :=
  ∀ e s', r s = some (e, s') →
    (∀ v, e.stringValue? = some v → LiteralAt v s.spot s'.spot ∧ more s'.token = false) ∧
    (∀ v q, LiteralAt v s.spot q → more q.1 = false → e.stringValue? = some v ∧ s'.spot = q)

def Spine (r : Reader Expr) (more : Token → Bool) : Prop := ∀ s, SpineAt s r more

/-- Reading on after an expression gives something else if `more` says so of the token, and otherwise
leaves a literal as it is. -/
structure Extends (k : Expr → Reader Expr) (more : Token → Bool) : Prop where
  other : ∀ e, e.stringValue? = none → YieldsOther (k e)
  joined : ∀ e s e' s', k e s = some (e', s') → more s.token = true → e'.stringValue? = none
  kept : ∀ e s e' s', k e s = some (e', s') → more s.token = false → e.stringValue? ≠ none →
    e' = e ∧ s'.spot = s.spot

variable {more more' : Token → Bool} {s : ReaderState}

theorem SpineAt.other {r : Reader Expr} (h : YieldsOther r) (hs : s.token.inLiteral = false) :
    SpineAt s r more := by
  intro e s' hrun
  refine ⟨fun v hv => ?_, fun v q hread _ => ?_⟩
  · simp [h s e s' hrun] at hv
  · have := hread.inLiteral
    simp [ReaderState.spot, hs] at this

theorem SpineAt.token {f : Token → Reader Expr} (h : SpineAt s (f s.token) more) :
    SpineAt s (Reader.token >>= f) more := h

theorem SpineAt.isAt {p : Punct} {f : Bool → Reader Expr}
    (h : SpineAt s (f (s.token.isPunct p)) more) : SpineAt s (Reader.isAt p >>= f) more := h

/-- What follows an expression joins it to another one, or leaves it alone. -/
theorem SpineAt.extend {r : Reader Expr} {k : Expr → Reader Expr} (hr : SpineAt s r more)
    (hk : Extends k more') : SpineAt s (r >>= k) fun t => more t || more' t := by
  intro e' s' hrun
  obtain ⟨e, s₁, hrun₁, hrun⟩ := bind_eq_some.mp hrun
  obtain ⟨hvalue, hread⟩ := hr e s₁ hrun₁
  refine ⟨fun v hv => ?_, fun v q hq hmore => ?_⟩
  · have he : e.stringValue? ≠ none := fun he => by simp [hk.other e he s₁ e' s' hrun] at hv
    have hmore : more' s₁.token = false := by
      cases hmore : more' s₁.token with
      | false => rfl
      | true => simp [hk.joined e s₁ e' s' hrun hmore] at hv
    obtain ⟨rfl, hspot⟩ := hk.kept e s₁ e' s' hrun hmore he
    obtain ⟨hq, hmore₁⟩ := hvalue v hv
    have htoken : s'.token = s₁.token := congrArg Prod.fst hspot
    exact ⟨hspot ▸ hq, by simp [htoken, hmore₁, hmore]⟩
  · rw [Bool.or_eq_false_iff] at hmore
    obtain ⟨hv, rfl⟩ := hread v q hq hmore.1
    obtain ⟨rfl, hspot⟩ := hk.kept e s₁ e' s' hrun hmore.2 (by simp [hv])
    exact ⟨hv, hspot⟩

/-! ## Operands -/

/-- `in` is an operator, and brackets belong to the expression before them. -/
def Mode.isOpen (mode : Mode) : Prop := mode.allowIn = true ∧ mode.decorating = false

theorem spot_of_advance (h : advance s = some ((), s')) : s'.spot = s.spot.next := by
  obtain rfl := congrArg Prod.snd (Option.some.inj h)
  rfl

theorem spot_of_complainIf (h : complainIf b s = some ((), s')) : s'.spot = s.spot := by
  cases b <;> cases h <;> rfl

theorem advance_of_expect {p : Punct} (h : expect p s = some ((), s')) :
    s.token.lexeme = .punct p ∧ s'.spot = s.spot.next := by
  change (if s.token.isPunct p then advance else fail) s = _ at h
  split at h
  · rename_i hp
    exact ⟨by simpa [Token.isPunct] using hp, spot_of_advance h⟩
  · cases h

variable {g : Grammar} {mode : Mode}

/-- A template without substitutions is one token. -/
theorem templateParts_spot {es : List Expr} {values : List (Option String)}
    (h : templateParts g mode n s = some ((values, es), s')) :
    (es = [] → ∃ value, values = [value] ∧ s.token.lexeme = .template value true ∧
      s'.spot = s.spot.next) ∧
    (∀ value, s.token.lexeme = .template value true → values = [value] ∧ es = [] ∧
      s'.spot = s.spot.next) := by
  cases n with
  | zero => cases h
  | succ n =>
    obtain ⟨r, hr, h⟩ := of_token_bind h
    split at hr <;> subst hr
    · rename_i value hlexeme
      obtain ⟨⟨⟩, s₂, hadvance, ⟨⟩⟩ := bind_eq_some.mp h
      have hspot := spot_of_advance hadvance
      refine ⟨fun _ => ⟨value, rfl, hlexeme, hspot⟩, fun value' hlexeme' => ?_⟩
      obtain ⟨rfl, -⟩ := Lexeme.template.inj (hlexeme.symm.trans hlexeme')
      exact ⟨rfl, rfl, hspot⟩
    · rename_i value hlexeme
      obtain ⟨_, _, _, h⟩ := bind_eq_some.mp h
      obtain ⟨_, _, _, h⟩ := bind_eq_some.mp h
      obtain ⟨_, _, _, h⟩ := bind_eq_some.mp h
      obtain ⟨_, _, _, ⟨⟩⟩ := bind_eq_some.mp h
      refine ⟨nofun, fun value' hlexeme' => ?_⟩
      simp [hlexeme] at hlexeme'
    · cases h

theorem templateLiteral_spine (ht : ∃ value closed, s.token.lexeme = .template value closed) :
    SpineAt s (templateLiteral g mode) fun _ => false := by
  intro e s' h
  obtain ⟨⟨values, es⟩, s₁, hparts, h⟩ := bind_eq_some.mp h
  obtain ⟨hwhole, hread⟩ := templateParts_spot hparts
  obtain ⟨⟨⟩, s₂, hcomplain, ⟨⟩⟩ := bind_eq_some.mp h
  have hspot : s'.spot = s₁.spot := spot_of_complainIf hcomplain
  refine ⟨fun v hv => ?_, fun v q hq _ => ?_⟩
  · cases es with
    | cons => cases hv
    | nil =>
      obtain ⟨value, rfl, hlexeme, hnext⟩ := hwhole rfl
      obtain rfl : value = some v := by simpa [Expr.stringValue?] using hv
      exact ⟨hspot ▸ hnext ▸ .template hlexeme, rfl⟩
  · obtain ⟨value, closed, ht⟩ := ht
    cases hq with
    | string hlexeme => simp [ReaderState.spot, ht] at hlexeme
    | parens hlexeme => simp [ReaderState.spot, ht] at hlexeme
    | template hlexeme =>
      obtain ⟨rfl, rfl, hnext⟩ := hread _ hlexeme
      exact ⟨rfl, hspot.trans hnext⟩

theorem parenthesized_spine (hexpr : Spine (expression g mode.inside) Token.continues)
    (ht : s.token.lexeme = .punct .lparen) :
    SpineAt s (parenthesized g mode) fun _ => false := by
  have hclose {r : Spot} (hr : r.1.lexeme = .punct .rparen) : r.1.continues = false := by
    simp [Token.continues, Token.continuesChain, Token.binaryOp?, Punct.binaryOp?, updateOperator,
      assignmentOperator, Token.isPunct, hr]
  intro e s' h
  obtain ⟨⟨⟩, s₁, hopen, h⟩ := bind_eq_some.mp h
  obtain ⟨e₁, s₂, hinner, h⟩ := bind_eq_some.mp h
  obtain ⟨⟨⟩, s₃, hend, ⟨⟩⟩ := bind_eq_some.mp h
  obtain ⟨-, hnext⟩ := advance_of_expect hopen
  obtain ⟨hparen, hnext'⟩ := advance_of_expect hend
  obtain ⟨hvalue, hread⟩ := hexpr s₁ e s₂ hinner
  refine ⟨fun v hv => ⟨?_, rfl⟩, fun v q hq _ => ?_⟩
  · rw [hnext']
    exact .parens ht (hnext ▸ (hvalue v hv).1) hparen
  · cases hq with
    | string hlexeme => simp [ReaderState.spot, ht] at hlexeme
    | template hlexeme => simp [ReaderState.spot, ht] at hlexeme
    | parens _ hq hr =>
      obtain ⟨hv, hspot⟩ := hread v _ (hnext ▸ hq) (hclose hr)
      exact ⟨hv, hspot ▸ hnext'⟩

theorem primaryExpr_spine (hexpr : Spine (expression g mode.inside) Token.continues) :
    Spine (primaryExpr g mode) fun _ => false := by
  intro s
  refine SpineAt.token ?_
  split
  · exact .other (wordOperand_yields g mode _) (by simp [Token.inLiteral, *])
  · exact .other (.seq fun _ => .pure rfl) (by simp [Token.inLiteral, *])
  · exact .other (.seq fun _ => .pure rfl) (by simp [Token.inLiteral, *])
  · rename_i value hlexeme
    intro e s' h
    obtain ⟨⟨⟩, s₁, hadvance, ⟨⟩⟩ := bind_eq_some.mp h
    have hspot := spot_of_advance hadvance
    refine ⟨fun v hv => ⟨?_, rfl⟩, fun v q hq _ => ?_⟩
    · obtain rfl : value = v := Option.some.inj hv
      exact hspot ▸ .string hlexeme
    · cases hq with
      | string hlexeme' =>
        obtain rfl := Lexeme.string.inj (hlexeme.symm.trans hlexeme')
        exact ⟨rfl, hspot⟩
      | template hlexeme' => simp [ReaderState.spot, hlexeme] at hlexeme'
      | parens hlexeme' => simp [ReaderState.spot, hlexeme] at hlexeme'
  · exact templateLiteral_spine ⟨_, _, ‹_›⟩
  · exact parenthesized_spine hexpr ‹_›
  · refine .other (.seq fun _ => .seq fun _ => .seq fun _ => .pure rfl) (by simp [Token.inLiteral, *])
  · refine .other (.seq fun _ => .seq fun _ => .seq fun _ => .pure rfl) (by simp [Token.inLiteral, *])
  · exact .other regexLiteral_yields (by simp [Token.inLiteral, *])
  · exact .other regexLiteral_yields (by simp [Token.inLiteral, *])
  · exact .other (classExpr_yields g mode) (by simp [Token.inLiteral, *])
  · intro _ _ h
    cases h

/-- A chain either ends at once or is no literal. -/
theorem chainRest_spot (hmode : mode.isOpen) {isOptional : Bool} {x : Expr × Bool}
    (h : chainRest g mode true n e isOptional s = some (x, s')) :
    s.token.continuesChain = false ∧ x = (e, isOptional) ∧ s' = s ∨
      s.token.continuesChain = true ∧ x.1.stringValue? = none := by
  cases n with
  | zero => cases h
  | succ n =>
    have hmember : YieldsOther (memberAccess e) := memberAccess_yields e
    have hindex : YieldsOther (indexAccess g mode e) := indexAccess_yields g mode e
    have hrest {e : Expr} {b : Bool} (he : e.stringValue? = none) :
        Yields (chainRest g mode true n e b) fun x => x.1.stringValue? = none :=
      chainRest_yields g mode true n e b he
    obtain ⟨r, hr, h⟩ := of_token_bind h
    have hchain {r : Reader (Expr × Bool)} (h : r s = some (x, s'))
        (hr : Yields r fun x => x.1.stringValue? = none) : x.1.stringValue? = none := hr s x s' h
    split at hr <;> subst hr
    case h_6 =>
      cases h
      refine .inl ⟨?_, rfl, rfl⟩
      unfold Token.continuesChain
      split <;> simp_all
    all_goals refine .inr ⟨by simp [Token.continuesChain, *], hchain h ?_⟩
    · exact .seq fun _ => .bind hmember fun _ => hrest
    · exact .seq fun _ => .ite (.seq fun _ => .seq fun _ => hrest rfl) (.seq fun _ =>
        .ite (.bind hindex fun _ => hrest) (.bind hmember fun _ => hrest))
    · rw [hmode.2]
      exact .bind hindex fun _ => hrest
    · exact .seq fun _ => hrest rfl
    · exact .seq fun _ => .seq fun _ => hrest rfl

theorem leftHandSide_extends (hmode : mode.isOpen) : Extends (fun e => do
    let (e, isOptional) ← chainRest g mode true g.bound e false
    complainIf (isOptional && mode.decorating)
    return if isOptional then .form .chain [e] else e) Token.continuesChain where
  other e he := by
    refine .bind (chainRest_yields g mode true _ _ _ he) fun x hx => .seq fun _ => .pure ?_
    split
    · rfl
    · exact hx
  joined e s e' s' h hmore := by
    obtain ⟨x, s₁, hchain, h⟩ := bind_eq_some.mp h
    obtain ⟨hend, -⟩ | ⟨-, hx⟩ := chainRest_spot hmode hchain
    · simp [hmore] at hend
    · obtain ⟨_, _, _, ⟨⟩⟩ := bind_eq_some.mp h
      split
      · rfl
      · exact hx
  kept e s e' s' h hmore _ := by
    obtain ⟨x, s₁, hchain, hrest⟩ := bind_eq_some.mp h
    obtain ⟨-, rfl, rfl⟩ | ⟨hjoined, -⟩ := chainRest_spot hmode hchain
    · cases hrest
      exact ⟨rfl, rfl⟩
    · simp [hmore] at hjoined

theorem updatedExpr_extends : Extends (fun e => do
    let t ← token
    if updateOperator t && !t.newline then
      let e ← updateOf e
      advance
      return e
    return e) fun t => updateOperator t && !t.newline where
  other e he := .seq fun _ => .ite (.bind (updateOf_yields e) fun _ he' => .seq fun _ => .pure he')
    (.pure he)
  joined e s e' s' h hmore := by
    obtain ⟨r, hr, h⟩ := of_token_bind h
    rw [if_pos hmore] at hr
    subst hr
    obtain ⟨e₁, s₁, hupdate, h⟩ := bind_eq_some.mp h
    obtain ⟨_, _, _, ⟨⟩⟩ := bind_eq_some.mp h
    exact updateOf_yields e _ _ _ hupdate
  kept e s e' s' h hmore _ := by
    obtain ⟨r, hr, h⟩ := of_token_bind h
    rw [if_neg (by simp [hmore])] at hr
    subst hr
    cases h
    exact ⟨rfl, rfl⟩

theorem binaryRest_extends (hmode : mode.isOpen) (grouped : Bool) :
    Extends (fun left => binaryRest g mode 0 g.bound left grouped) fun t => t.binaryOp?.isSome where
  other e he := binaryRest_yields g mode 0 _ e grouped he
  joined e s e' s' h hmore := by
    cases hbound : g.bound with
    | zero =>
      rw [hbound] at h
      cases h
    | succ n =>
      rw [hbound] at h
      obtain ⟨r, hr, h⟩ := of_token_bind h
      split at hr
      · simp_all
      · rename_i op hop
        have hbinds : op.binds 0 = true := by cases op <;> rfl
        rw [if_neg (by simp [hbinds, hmode.1])] at hr
        subst hr
        exact other_of_run h (.seq fun _ => .seq fun _ => .seq fun _ => .seq fun _ => .seq fun _ =>
          binaryRest_yields g mode 0 _ _ _ rfl)
  kept e s e' s' h hmore _ := by
    cases hbound : g.bound with
    | zero =>
      rw [hbound] at h
      cases h
    | succ n =>
      rw [hbound] at h
      obtain ⟨r, hr, h⟩ := of_token_bind h
      split at hr
      · split at hr <;> subst hr
        · cases h
        · cases h
          exact ⟨rfl, rfl⟩
      · simp_all

/-! ## Looking ahead -/

/-- The reader reads nothing. -/
def Stays {α : Type} (r : Reader α) : Prop := ∀ s a s', r s = some (a, s') → s' = s

namespace Stays

variable {α β : Type} {r : Reader α} {f : α → Reader β}

theorem pure (a : α) : Stays (Pure.pure a : Reader α) := by
  rintro s _ _ ⟨⟩
  rfl

theorem nextToken : Stays Reader.nextToken := by
  rintro s _ _ ⟨⟩
  rfl

theorem bind (h : Stays r) (hf : ∀ a, Stays (f a)) : Stays (r >>= f) := by
  intro s b s' hrun
  obtain ⟨a, s₁, hr, hrun⟩ := bind_eq_some.mp hrun
  exact (hf a s₁ b s' hrun).trans (h s a s₁ hr)

theorem ite [Decidable c] {r' : Reader α} (h : Stays r) (h' : Stays r') :
    Stays (if c then r else r') := by
  split
  · exact h
  · exact h'

end Stays

theorem operandFollows_stays : Stays operandFollows := by
  refine .bind .nextToken fun t => .ite (.pure _) ?_
  split <;> exact .pure _

/-- A reader that only asks about the coming tokens, and of which a literal is no answer. -/
def Refuses (r : Reader Bool) : Prop :=
  ∀ s b s', r s = some (b, s') → s' = s ∧ (b = true → s.token.inLiteral = false)

theorem inLiteral_of_isWord {w : String} (h : t.isWord w = true) : t.inLiteral = false := by
  unfold Token.inLiteral
  split <;> simp_all [Token.isWord]

theorem inLiteral_of_isIdentifier (h : t.isIdentifier = true) : t.inLiteral = false := by
  unfold Token.inLiteral
  split <;> simp_all [Token.isIdentifier]

theorem refuses_of_word {w : String} {r : Reader Bool} (hr : Stays r) :
    Refuses (isAtWord w >>= fun b => if b then r else pure false) := by
  intro s b s' h
  obtain ⟨atWord, s₁, ⟨⟩, h⟩ := bind_eq_some.mp h
  cases hword : s.token.isWord w with
  | false =>
    simp only [hword] at h
    cases h
    exact ⟨rfl, nofun⟩
  | true =>
    simp only [hword] at h
    exact ⟨hr s b s' h, fun _ => inLiteral_of_isWord hword⟩

theorem startsAwait_refuses (mode : Mode) : Refuses (startsAwait mode) :=
  refuses_of_word (.ite (.pure _) (.bind .nextToken fun _ => .ite (.pure _) operandFollows_stays))

theorem startsYield_refuses (mode : Mode) : Refuses (startsYield mode) :=
  refuses_of_word (.ite (.pure _) operandFollows_stays)

theorem SpineAt.ite [Decidable c] {r r' : Reader Expr} (h : c → SpineAt s r more)
    (h' : ¬ c → SpineAt s r' more) : SpineAt s (if c then r else r') more := by
  split
  · exact h ‹_›
  · exact h' ‹_›

theorem SpineAt.unless {look : Reader Bool} {r r' : Reader Expr} (hlook : Refuses look)
    (hr : YieldsOther r) (hr' : SpineAt s r' more) :
    SpineAt s (look >>= fun b => if b then r else r') more := by
  intro e s' h
  obtain ⟨b, s₁, hrun, h⟩ := bind_eq_some.mp h
  obtain ⟨rfl, hb⟩ := hlook s b s₁ hrun
  cases b with
  | true => exact SpineAt.other hr (hb rfl) e s' h
  | false => exact hr' e s' h

/-! ## Operators -/

theorem inLiteral_of_operator (h : updateOperator t = true ∨ unaryOperator t = true) :
    t.inLiteral = false := by
  unfold Token.inLiteral
  split <;> simp_all [updateOperator, unaryOperator, Token.isPunct]

theorem unaryExpr_spine (hmode : mode.isOpen) (hprimary : Spine (g.primary mode) fun _ => false) :
    Spine (unaryExpr g mode) fun t =>
      t.continuesChain || (updateOperator t && !t.newline) := by
  intro s
  refine SpineAt.token (.ite (fun hupdate => ?_) fun _ => .ite (fun hunary => ?_) fun _ =>
    .unless (startsAwait_refuses mode) (.seq fun _ => .seq fun _ => .seq fun _ => .pure rfl) ?_)
  · exact .other (.seq fun _ => .seq fun e => updateOf_yields e) (inLiteral_of_operator (.inl hupdate))
  · exact .other (.seq fun _ => .seq fun e => .pure rfl) (inLiteral_of_operator (.inr hunary))
  · exact ((hprimary s).extend (leftHandSide_extends hmode)).extend updatedExpr_extends

theorem binaryExpr_spine (hmode : mode.isOpen) (hunary : Spine (g.unary mode) more) :
    Spine (binaryExpr g mode 0) fun t => more t || t.binaryOp?.isSome := by
  intro s
  have hrest := @binaryRest_extends g mode hmode (s.token.isPunct .lparen)
  refine SpineAt.isAt (SpineAt.token ?_)
  dsimp only
  split
  · refine SpineAt.extend (.other ?_ ?_) hrest
    · exact .ite .fail (.seq fun _ => .seq fun _ => .seq fun _ => .ite .fail (.pure rfl))
    · simp [Token.inLiteral, *]
  · exact (hunary s).extend hrest

/-! ## Assignments -/

theorem accept_spot {p : Punct} (h : accept p s = some (b, s')) :
    b = s.token.isPunct p ∧ (b = false → s' = s) := by
  change (if s.token.isPunct p then (do advance; return true : Reader Bool) else pure false) s = _ at h
  split at h
  · obtain ⟨_, _, _, ⟨⟩⟩ := bind_eq_some.mp h
    exact ⟨Eq.symm ‹_›, nofun⟩
  · cases h
    exact ⟨by simp_all, fun _ => rfl⟩

theorem conditionalRest_extends :
    Extends (fun test => conditionalRest g mode test) fun t => t.isPunct .question where
  other e he := .seq fun _ => .ite (.seq fun _ => .seq fun _ => .seq fun _ => .pure rfl) (.pure he)
  joined e s e' s' h hmore := by
    obtain ⟨b, s₁, haccept, h⟩ := bind_eq_some.mp h
    obtain ⟨rfl, -⟩ := accept_spot haccept
    rw [if_pos hmore] at h
    exact other_of_run h (.seq fun _ => .seq fun _ => .seq fun _ => .pure rfl)
  kept e s e' s' h hmore he := by
    obtain ⟨b, s₁, haccept, h⟩ := bind_eq_some.mp h
    obtain ⟨rfl, hstay⟩ := accept_spot haccept
    obtain rfl := hstay hmore
    rw [if_neg (by simp [hmore])] at h
    cases h
    exact ⟨rfl, rfl⟩

theorem assignmentRest_extends (grouped isAsync : Bool) : Extends (fun left => do
    match left, ← isAt .arrow with
    | .ident id, true => bareArrow g mode id isAsync
    | _, _ =>
      if assignmentOperator (← token) then assignTo g mode left grouped
      else conditionalRest g mode left) fun t => assignmentOperator t || t.isPunct .question where
  other e he := by
    refine .seq fun _ => ?_
    split
    · exact bareArrow_yields g mode _ isAsync
    · exact .seq fun _ => .ite (assignTo_yields g mode e grouped) (conditionalRest_extends.other e he)
  joined e s e' s' h hmore := by
    obtain ⟨r, hr, h⟩ := of_isAt_bind h
    split at hr <;> subst hr
    · exact bareArrow_yields g mode _ isAsync s e' s' h
    · obtain ⟨r, hr, h⟩ := of_token_bind h
      split at hr <;> subst hr
      · exact assignTo_yields g mode _ grouped s e' s' h
      · exact conditionalRest_extends.joined _ s e' s' h (by simp_all)
  kept e s e' s' h hmore he := by
    rw [Bool.or_eq_false_iff] at hmore
    obtain ⟨r, hr, h⟩ := of_isAt_bind h
    split at hr <;> subst hr
    · exact absurd rfl he
    · obtain ⟨r, hr, h⟩ := of_token_bind h
      rw [if_neg (by simp [hmore])] at hr
      subst hr
      exact conditionalRest_extends.kept _ s e' s' h hmore.2 he

theorem passAsync_of_inLiteral (h : s.token.inLiteral = true) : passAsync s = some (false, s) := by
  have hword : s.token.isWord "async" = false := by
    cases hword : s.token.isWord "async" with
    | false => rfl
    | true => exact nomatch (inLiteral_of_isWord hword).symm.trans h
  change (if s.token.isWord "async" then _ else pure false : Reader Bool) s = _
  rw [hword]
  rfl

/-- A literal is no list of parameters. -/
theorem parametersLikelihood_of_literal {v : String} {q : Spot} (h : LiteralAt v s.spot q)
    {x : Likelihood}
    (hrun : (do let _ ← passAsync; parametersLikelihood : Reader Likelihood) s = some (x, s')) :
    x = .ruledOut := by
  obtain ⟨isAsync, s₁, hasync, hrun⟩ := bind_eq_some.mp hrun
  cases (passAsync_of_inLiteral h.inLiteral).symm.trans hasync
  obtain ⟨⟨⟩, s₁, hparen, hrun⟩ := bind_eq_some.mp hrun
  obtain ⟨hlexeme, hnext⟩ := advance_of_expect hparen
  obtain ⟨r, hr, hrun⟩ := of_token_bind hrun
  cases h with
  | string hq => exact nomatch hlexeme.symm.trans hq
  | template hq => exact nomatch hlexeme.symm.trans hq
  | parens _ hq _ =>
    have hfirst : LiteralAt v s₁.spot _ := hnext ▸ hq
    have hid : s₁.token.isIdentifier = false := (Token.of_inLiteral hfirst.inLiteral).1
    have hruled : r = pure .ruledOut := by
      obtain hl | hl | hl := hfirst.cases_lexeme <;> change s₁.token.lexeme = _ at hl <;>
        simpa [hl, hid] using hr.symm
    subst hruled
    cases hrun
    rfl

theorem arrowHead?_spot (h : arrowHead? g mode s = some (none, s')) : s' = s := by
  unfold arrowHead? attempt at h
  split at h <;> cases h
  rfl

theorem parenthesizedArrow?_spot {x : Option Expr} (h : parenthesizedArrow? g mode s = some (x, s')) :
    (x = none → s' = s) ∧ (∀ e, x = some e → e.stringValue? = none) ∧
      ∀ v q, LiteralAt v s.spot q → x = none := by
  obtain ⟨likelihood, s₁, hpeek, h⟩ := bind_eq_some.mp h
  obtain ⟨hlikelihood, rfl⟩ := Prod.mk.inj (Option.some.inj hpeek)
  have hliteral {v : String} {q : Spot} {y : Likelihood} (hq : LiteralAt v s.spot q)
      (hy : likelihood = some y) : y = .ruledOut := by
    obtain ⟨z, hrun, rfl⟩ := Option.map_eq_some_iff.mp (hlikelihood.trans hy)
    exact parametersLikelihood_of_literal hq hrun
  match likelihood, h with
  | some .certain, h =>
    obtain ⟨head, s₂, hhead, h⟩ := bind_eq_some.mp h
    rw [map_eq_pure_bind] at hhead
    obtain ⟨⟨isAsync, ps⟩, _, -, ⟨⟩⟩ := bind_eq_some.mp hhead
    obtain ⟨body, s₃, -, ⟨⟩⟩ := bind_eq_some.mp h
    refine ⟨nofun, ?_, fun v q hq => nomatch hliteral hq rfl⟩
    rintro e ⟨⟩
    rfl
  | some .possible, h =>
    obtain ⟨head, s₂, hhead, h⟩ := bind_eq_some.mp h
    cases head with
    | none =>
      cases h
      exact ⟨fun _ => arrowHead?_spot hhead, nofun, fun _ _ _ => rfl⟩
    | some head =>
      obtain ⟨body, s₃, -, ⟨⟩⟩ := bind_eq_some.mp h
      refine ⟨nofun, ?_, fun v q hq => nomatch hliteral hq rfl⟩
      rintro e ⟨⟩
      rfl
  | some .ruledOut, h | none, h =>
    cases h
    exact ⟨fun _ => rfl, nofun, fun _ _ _ => rfl⟩

theorem startsAsyncArrow_spot (h : startsAsyncArrow s = some (b, s')) :
    s' = s ∧ (b = true → s.token.inLiteral = false ∧
      ∀ s₁, passWord s = some ((), s₁) → s₁.token.inLiteral = false) := by
  obtain ⟨found, s₁, hpeek, ⟨⟩⟩ := bind_eq_some.mp h
  obtain ⟨hfound, rfl⟩ := Prod.mk.inj (Option.some.inj hpeek)
  refine ⟨rfl, fun hb => ?_⟩
  obtain ⟨⟨b, s₁⟩, hrun, rfl⟩ := Option.map_eq_some_iff.mp (hfound.trans (by simpa using hb))
  obtain ⟨⟨⟩, s₂, hword, hrun⟩ := bind_eq_some.mp hrun
  obtain ⟨r, hr, hrun⟩ := of_token_bind hrun
  change (if s.token.isWord "async" then passWord else fail) s = _ at hword
  split at hword
  · refine ⟨inLiteral_of_isWord ‹_›, fun s₃ hpass => ?_⟩
    cases hword.symm.trans hpass
    split at hr
    · subst hr
      cases hrun
    · exact inLiteral_of_isIdentifier (by simp_all)
  · cases hword

theorem assignmentExpr_spine (hbinary : Spine (g.binary mode 0) more) :
    Spine (assignmentExpr g mode) fun t => more t || (assignmentOperator t || t.isPunct .question) := by
  intro s
  refine SpineAt.token (.unless (startsYield_refuses mode) (yieldExpr_yields g mode) ?_)
  intro e s' h
  obtain ⟨x, s₁, harrow, h⟩ := bind_eq_some.mp h
  obtain ⟨hstay, hother, hliteral⟩ := parenthesizedArrow?_spot harrow
  cases x with
  | some e₁ =>
    cases h
    refine ⟨fun v hv => ?_, fun v q hq _ => ?_⟩
    · simp [hother _ rfl] at hv
    · cases hliteral v q hq
  | none =>
    obtain rfl : s = s₁ := (hstay rfl).symm
    obtain ⟨isAsync, s₂, hasync, h⟩ := bind_eq_some.mp h
    obtain ⟨hstay, hword⟩ := startsAsyncArrow_spot hasync
    obtain rfl : s = s₂ := hstay.symm
    have hrest := @assignmentRest_extends g mode (s.token.isPunct .lparen) isAsync
    cases isAsync with
    | false => exact (hbinary s).extend hrest e s' h
    | true =>
      obtain ⟨⟨⟩, s₂, hpass, h⟩ := bind_eq_some.mp h
      obtain ⟨hliteral, hliteral'⟩ := hword rfl
      have hother : e.stringValue? = none := by
        cases he : e.stringValue? with
        | none => rfl
        | some v =>
          have hread := (((hbinary s₂).extend hrest e s' h).1 v he).1
          exact nomatch (hliteral' s₂ hpass).symm.trans hread.inLiteral
      refine ⟨fun v hv => ?_, fun v q hq _ => ?_⟩
      · simp [hother] at hv
      · exact nomatch hliteral.symm.trans hq.inLiteral

theorem commaItems_nonempty {α : Type} {item : Reader α} : Yields (commaItems item n) (· ≠ []) := by
  cases n with
  | zero => exact .fail
  | succ n =>
    exact .seq fun a => .seq fun _ => .ite (.seq fun _ => .pure (List.cons_ne_nil _ _))
      (.pure (List.cons_ne_nil _ _))

/-- A comma means that there are several items. -/
theorem commaItems_spot {α : Type} {item : Reader α} {n : Nat} {a : α} {as : List α}
    {s' : ReaderState}
    (h : (accept .comma >>= fun more =>
      if more then commaItems item n >>= fun as => pure (a :: as) else pure [a]) s =
        some (as, s')) :
    s.token.isPunct .comma = false ∧ as = [a] ∧ s' = s ∨
      s.token.isPunct .comma = true ∧ ∃ b bs, as = a :: b :: bs := by
  obtain ⟨more, s₁, haccept, h⟩ := bind_eq_some.mp h
  obtain ⟨rfl, hstay⟩ := accept_spot haccept
  cases hcomma : s.token.isPunct .comma with
  | false =>
    obtain rfl := hstay hcomma
    rw [hcomma] at h
    cases h
    exact .inl ⟨rfl, rfl, rfl⟩
  | true =>
    rw [hcomma] at h
    obtain ⟨bs, s₂, hitems, ⟨⟩⟩ := bind_eq_some.mp h
    obtain ⟨b, bs, rfl⟩ := List.exists_cons_of_ne_nil (commaItems_nonempty _ _ _ hitems)
    exact .inr ⟨rfl, b, bs, rfl⟩

theorem expression_spine
    (hassignment : Spine (g.assignment { mode with decorating := false }) more) :
    Spine (expression g mode) fun t => more t || t.isPunct .comma := by
  intro s
  cases hbound : g.bound with
  | zero =>
    intro e s' h
    rw [expression, hbound] at h
    cases h
  | succ n =>
    rw [expression, hbound, commaItems, bind_assoc]
    refine (hassignment s).extend ⟨fun e he s e' s' h => ?_, fun e s e' s' h hmore => ?_,
      fun e s e' s' h hmore _ => ?_⟩
    all_goals
      obtain ⟨es, s₁, hitems, hrest⟩ := bind_eq_some.mp h
      obtain ⟨hcomma, rfl, rfl⟩ | ⟨hcomma, e₁, es, rfl⟩ := commaItems_spot hitems
    · cases hrest
      exact he
    · cases hrest
      rfl
    · exact nomatch hcomma.symm.trans hmore
    · cases hrest
      rfl
    · cases hrest
      exact ⟨rfl, rfl⟩
    · exact nomatch hmore.symm.trans hcomma

/-! ## The grammar -/

/-- Literals are read as they should in every production that they pass through. -/
structure Grammar.ReadsLiterals (g : Grammar) : Prop where
  primary : ∀ mode, Spine (g.primary mode) fun _ => false
  unary : ∀ mode, mode.isOpen → Spine (g.unary mode) fun t =>
    t.continuesChain || (updateOperator t && !t.newline)
  binary : ∀ mode, mode.isOpen → Spine (g.binary mode 0) fun t =>
    t.continuesChain || (updateOperator t && !t.newline) || t.binaryOp?.isSome
  assignment : ∀ mode, mode.isOpen → Spine (g.assignment mode) fun t =>
    t.continuesChain || (updateOperator t && !t.newline) || t.binaryOp?.isSome ||
      (assignmentOperator t || t.isPunct .question)

namespace Grammar.ReadsLiterals

theorem expression (hg : g.ReadsLiterals) (hmode : mode.allowIn = true) :
    Spine (Script.expression g mode) Token.continues := by
  have hspine := expression_spine (hg.assignment { mode with decorating := false } ⟨hmode, rfl⟩)
  have hmore : Token.continues = fun t => t.continuesChain || (updateOperator t && !t.newline) ||
      t.binaryOp?.isSome || (assignmentOperator t || t.isPunct .question) || t.isPunct .comma := by
    funext t
    simp only [Token.continues, Bool.or_assoc]
  exact hmore ▸ hspine

theorem step (hg : g.ReadsLiterals) : g.step.ReadsLiterals where
  primary _ := primaryExpr_spine (hg.expression rfl)
  unary mode hmode := unaryExpr_spine hmode (hg.primary mode)
  binary mode hmode := binaryExpr_spine hmode (hg.unary mode hmode)
  assignment mode hmode := assignmentExpr_spine (hg.binary mode hmode)

end Grammar.ReadsLiterals

theorem grammar_readsLiterals (bound depth : Nat) : (grammar bound depth).ReadsLiterals := by
  induction depth with
  | zero =>
    have hfail {more : Token → Bool} : Spine fail more := fun _ _ _ h => nomatch h
    exact ⟨fun _ => hfail, fun _ _ => hfail, fun _ _ => hfail, fun _ _ => hfail⟩
  | succ depth ih => exact ih.step

/-- An expression is a literal exactly if it begins with one that nothing continues. -/
theorem stringValue?_eq_some_iff {source : String} {v : String}
    (h : parseExpression? source = some e) :
    e.stringValue? = some v ↔ ∃ q, LiteralAt v (nextTokenOf 0 source.toList) q ∧ q.1.continues = false := by
  unfold parseExpression? readFrom at h
  obtain ⟨⟨e₁, s⟩, hrun, h⟩ := Option.bind_eq_some_iff.mp h
  dsimp only at h
  split at h
  · cases h
  · cases h
    obtain ⟨hvalue, hread⟩ := (grammar_readsLiterals _ _).expression rfl _ _ _ hrun
    constructor
    · intro hv
      exact ⟨s.spot, hvalue v hv⟩
    · rintro ⟨q, hq, hmore⟩
      exact (hread v q hq hmore).1

end TemplateCompiler.Script
