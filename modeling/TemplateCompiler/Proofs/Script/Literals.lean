import TemplateCompiler.Proofs.Script.Branching

/-! # String literals

The tokens of a string literal, perhaps in parentheses. Where one of two texts that part at an
identifier begins with a literal, so does the other, unless it reads past the identifier.
-/

namespace TemplateCompiler.Script

open Text (isIdentStart)

/-- A token with the text behind it. -/
abbrev Spot := Token × List Char

def Spot.next (q : Spot) : Spot := nextTokenOf q.1.stop q.2

def ReaderState.spot (s : ReaderState) : Spot := (s.token, s.rest)

/-- A string literal stands between the two tokens, perhaps in parentheses. -/
inductive LiteralAt (value : String) : Spot → Spot → Prop
  | string {q : Spot} : q.1.lexeme = .string value → LiteralAt value q q.next
  | template {q : Spot} : q.1.lexeme = .template (some value) true → LiteralAt value q q.next
  | parens {q r : Spot} :
      q.1.lexeme = .punct .lparen → LiteralAt value q.next r → r.1.lexeme = .punct .rparen →
      LiteralAt value q r.next

theorem Token.of_inLiteral {t : Token} (h : t.inLiteral = true) :
    t.isIdentifier = false ∧ t.isPunct .rbrace = false ∧ t.isPunct .slash = false ∧
      t.isPunct .slashAssign = false := by
  unfold inLiteral at h
  split at h
  iterate 4 simp [isIdentifier, isPunct, *]
  cases h

namespace LiteralAt

variable {value : String} {q r : Spot}

theorem cases_lexeme (h : LiteralAt value q r) :
    q.1.lexeme = .string value ∨ q.1.lexeme = .template (some value) true ∨
      q.1.lexeme = .punct .lparen := by
  cases h with
  | string hq => exact .inl hq
  | template hq => exact .inr (.inl hq)
  | parens hq _ _ => exact .inr (.inr hq)

theorem inLiteral (h : LiteralAt value q r) : q.1.inLiteral = true := by
  obtain hq | hq | hq := h.cases_lexeme <;> simp [Token.inLiteral, hq]

theorem ahead_of_next {p : Nat} (hq : q.1.inLiteral = true) (h : Ahead p q.next.1 q.next.2) :
    Ahead p q.1 q.2 := by
  obtain ⟨hid, hbrace, hslash, hassign⟩ := Token.of_inLiteral hq
  exact .step hid hbrace hslash hassign h

theorem ahead {p : Nat} (h : LiteralAt value q r) (hr : Ahead p r.1 r.2) : Ahead p q.1 q.2 := by
  induction h with
  | string hq => exact ahead_of_next (by simp [Token.inLiteral, hq]) hr
  | template hq => exact ahead_of_next (by simp [Token.inLiteral, hq]) hr
  | parens hq _ hr' ih =>
    refine ahead_of_next (by simp [Token.inLiteral, hq]) (ih ?_)
    exact ahead_of_next (by simp [Token.inLiteral, hr']) hr

variable {p : Nat} {x y : List Char} {t₀ : Char}

theorem forked_next {q q' : Spot} (ht : isIdentStart t₀ = true) (h : Forked p x (t₀ :: y) q q')
    (hq' : q'.1.inLiteral = true) :
    Ahead p q.1 q.2 ∨ q.1 = q'.1 ∧ Forked p x (t₀ :: y) q.next q'.next := by
  cases h with
  | agree hfork => exact .inr ⟨rfl, nextTokenOf_forked hfork ht⟩
  | ahead h => exact .inl h
  | apart h => simp [h] at hq'

/-- A literal in one text is one in the other, unless the other reads past the place where the texts
part. -/
theorem forked {q q' r' : Spot} (ht : isIdentStart t₀ = true) (h : LiteralAt value q' r')
    (hq : Forked p x (t₀ :: y) q q') :
    Ahead p q.1 q.2 ∨ ∃ r, LiteralAt value q r ∧ Forked p x (t₀ :: y) r r' := by
  induction h generalizing q with
    (obtain hahead | ⟨heq, hnext⟩ := forked_next ht hq (by simp [Token.inLiteral, *])
     · exact .inl hahead)
  | string hq' => exact .inr ⟨q.next, .string (heq ▸ hq'), hnext⟩
  | template hq' => exact .inr ⟨q.next, .template (heq ▸ hq'), hnext⟩
  | parens hq' _ hr' ih =>
    have hparen : q.1.lexeme = .punct .lparen := heq ▸ hq'
    have hin : q.1.inLiteral = true := by simp [Token.inLiteral, hparen]
    obtain hahead | ⟨r, hread, hr⟩ := ih hnext
    · exact .inl (ahead_of_next hin hahead)
    obtain hahead | ⟨heq', hnext'⟩ := forked_next ht hr (by simp [Token.inLiteral, hr'])
    · exact .inl (ahead_of_next hin (hread.ahead hahead))
    · exact .inr ⟨r.next, .parens hparen hread (heq' ▸ hr'), hnext'⟩

theorem forked_whole {q q' r' : Spot} (ht : isIdentStart t₀ = true) (h : LiteralAt value q' r')
    (hr' : r'.1.continues = false) (hq : Forked p x (t₀ :: y) q q') :
    Ahead p q.1 q.2 ∨ ∃ r, LiteralAt value q r ∧ r.1.continues = false := by
  obtain hahead | ⟨r, hread, hr⟩ := h.forked ht hq
  · exact .inl hahead
  cases hr with
  | agree => exact .inr ⟨_, hread, hr'⟩
  | ahead hahead => exact .inl (hread.ahead hahead)
  | apart _ hcontinues =>
    refine .inr ⟨r, hread, ?_⟩
    cases hr : r.1.continues with
    | false => rfl
    | true => simp [hcontinues hr] at hr'

end LiteralAt

end TemplateCompiler.Script
