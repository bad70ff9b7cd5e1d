import TemplateCompiler.Proofs.Script.Scanning
import TemplateCompiler.Script.Grammar.Assignment

/-! # Texts that begin alike

Two texts agree up to some byte, where one of them goes on with a name. Their tokens agree up to one
that reaches there, or that ends there.
-/

namespace TemplateCompiler.Script

open Text (isIdentStart isIdentPart)

variable {cs : List Char} {mode : Gap} {t : Token}

/-! ## Tokens around a literal -/

/-- The token continues a chain that has begun. -/
def Token.continuesChain (t : Token) : Bool :=
  match t.lexeme with
  | .punct .dot | .punct .questionDot | .punct .lbracket | .punct .lparen | .template _ _ => true
  | _ => false

/-- An expression before the token is part of a larger one. -/
def Token.continues (t : Token) : Bool :=
  t.continuesChain || (updateOperator t && !t.newline) || t.binaryOp?.isSome || assignmentOperator t
    || t.isPunct .question || t.isPunct .comma

/-- The token may be part of a string literal, perhaps in parentheses. -/
def Token.inLiteral (t : Token) : Bool :=
  match t.lexeme with
  | .punct .lparen | .punct .rparen | .string _ | .template _ _ => true
  | _ => false

theorem Token.continues_congr {t' : Token} (hlexeme : t.lexeme = t'.lexeme)
    (hnewline : t.newline = t'.newline) : t.continues = t'.continues := by
  simp only [continues, continuesChain, updateOperator, isPunct, binaryOp?, assignmentOperator,
    hlexeme, hnewline]

/-- The words that continue an expression are reserved. -/
theorem Token.isReserved_of_continues {text : String} {escaped : Bool}
    (hlexeme : t.lexeme = .name text escaped) (h : t.continues = true) :
    isReserved text = true := by
  have hword : t.binaryOp?.isSome = true := by
    simpa [continues, continuesChain, updateOperator, isPunct, assignmentOperator, hlexeme] using h
  unfold binaryOp? at hword
  rw [hlexeme] at hword
  split at hword <;> rename_i heq
  · cases heq
  · cases heq
    decide
  · cases heq
    decide
  · cases hword

theorem Token.name_of_isIdentifier (h : t.isIdentifier = true) :
    ∃ text escaped, t.lexeme = .name text escaped ∧ isReserved text = false := by
  unfold isIdentifier at h
  split at h
  · rename_i text escaped hlexeme
    exact ⟨text, escaped, hlexeme, by simpa using h⟩
  · cases h

/-! ## Where the texts part -/

/-- The text `x` begins at the byte `n`, and its first character is the first to reach beyond the byte
`p`. -/
structure Fork (p n : Nat) (x : List Char) : Prop where
  le : n ≤ p
  lt : ∀ c ∈ x.head?, p < n + c.utf8Size

variable {p : Nat} {x y : List Char} {t₀ : Char}

theorem utf8Length_le_of_prefix {ds : List Char} (h : cs <+: ds) :
    utf8Length cs ≤ utf8Length ds := by
  obtain ⟨rest, rfl⟩ := h
  simp

/-- What reaches into `x` reaches beyond the byte `p`. -/
theorem Fork.lt_bytesRead {n : Nat} {l rest : List Char} (h : Fork p (n + utf8Length l) x)
    (hrest : rest.length < x.length) : p < n + bytesRead (l ++ x) rest := by
  cases x with
  | nil => simp at hrest
  | cons c x =>
    have hlt := h.lt c rfl
    have hprefix : l ++ [c] <+: (l ++ c :: x).take ((l ++ c :: x).length - rest.length) := by
      rw [List.prefix_take_iff]
      refine ⟨⟨x, by simp⟩, ?_⟩
      simp only [List.length_append, List.length_cons, List.length_nil] at hrest ⊢
      omega
    have hle := utf8Length_le_of_prefix hprefix
    simp only [utf8Length_append, utf8Length_cons, utf8Length_nil] at hle
    unfold bytesRead
    omega

/-- What is read before `x` is the same whatever comes there. -/
theorem bytesRead_append {l d : List Char} (h : d <:+ l) (x : List Char) :
    bytesRead (l ++ x) (d ++ x) + utf8Length d = utf8Length l := by
  obtain ⟨e, rfl⟩ := h
  have hlength : (e ++ d ++ x).length - (d ++ x).length = e.length := by
    simp only [List.length_append]
    omega
  rw [bytesRead, hlength, List.append_assoc, List.take_left]
  simp

/-! ## Tokens that reach beyond -/

/-- The token that is found behind a gap. -/
def tokenAfter (offset : Nat) : Option (Nat × Bool × List Char) → Token × List Char
  | none =>
    ({ lexeme := .eof, start := offset, stop := offset, newline := false, flawed := true }, [])
  | some (start, newline, cs) =>
    let (lexeme, flawed, rest) := scan start cs
    ({ lexeme, start, stop := start + bytesRead cs rest, newline, flawed }, rest)

theorem nextTokenOf_eq (n : Nat) (cs : List Char) :
    nextTokenOf n cs = tokenAfter n (skipGap .plain cs n false) := rfl

theorem continues_tokenAfter {offset n : Nat} {nl : Bool} {cs' : List Char}
    (h : (scan n cs).1 = (scan n cs').1) : (tokenAfter offset (some (n, nl, cs))).1.continues =
      (tokenAfter offset (some (n, nl, cs'))).1.continues :=
  Token.continues_congr h rfl

/-- Behind a gap that ends beyond the byte `p`. -/
theorem past_of_gap {offset : Nat} {gap : Option (Nat × Bool × List Char)}
    (h : ∀ start nl cs, gap = some (start, nl, cs) → p < start) :
    Past p (tokenAfter offset gap).1 (tokenAfter offset gap).2 := by
  cases gap with
  | none => exact ⟨nofun, .inr rfl, nofun⟩
  | some x =>
    have hstart := h x.1 x.2.1 x.2.2 rfl
    refine ⟨fun _ => ?_, .inl ?_, fun _ => ?_⟩
    · simp only [tokenAfter]; omega
    · simp only [tokenAfter]; omega
    · simp only [tokenAfter]; omega

/-! ## First characters -/

theorem eq_slash_of_lexemeAt {c : Char} {q : Punct} (h : LexemeAt c (.punct q))
    (hq : q = .slash ∨ q = .slashAssign) : c = '/' := by
  have hslash : ∀ x ∈ punctuators, x.2 = .slash ∨ x.2 = .slashAssign → x.1.head? = some '/' := by
    decide
  generalize hlexeme : Lexeme.punct q = lexeme at h
  cases h with
  | punct hx hhead =>
    obtain rfl := Lexeme.punct.inj hlexeme
    simpa [hhead] using hslash _ hx hq
  | _ => cases hlexeme

/-- The token of a literal begins with a quote or a parenthesis. -/
theorem inLiteral_of_lexemeAt {c : Char} (h : LexemeAt c t.lexeme)
    (hquote : c ≠ '\x22' ∧ c ≠ '\x27' ∧ c ≠ '\x60') (hparen : c ≠ '(' ∧ c ≠ ')') :
    t.inLiteral = false := by
  have hspelled : ∀ x ∈ punctuators, x.2 = .lparen ∨ x.2 = .rparen →
      x.1.head? = some '(' ∨ x.1.head? = some ')' := by
    decide
  obtain ⟨lexeme, start, stop, newline, flawed⟩ := t
  cases h with
  | @punct x hx hhead =>
    cases hq : x.2
    case lparen => simpa [hhead, hparen] using hspelled x hx (.inl hq)
    case rparen => simpa [hhead, hparen] using hspelled x hx (.inr hq)
    all_goals rfl
  | string _ hc => simp [hquote] at hc
  | template _ _ hc => exact absurd hc hquote.2.2
  | _ => rfl

theorem isIdentifier_of_lexemeAt {c : Char} (h : LexemeAt c t.lexeme) (hc : beginsName c = false) :
    t.isIdentifier = false := by
  obtain ⟨lexeme, start, stop, newline, flawed⟩ := t
  cases h with
  | name _ _ hname => simp [hc] at hname
  | _ => rfl

/-- Either a gap is empty or it takes up the first character. -/
theorem skipGap_cons {c : Char} {n : Nat} {nl : Bool} :
    mode = .plain ∧ skipGap mode (c :: cs) n nl = some (n, nl, c :: cs) ∨
      ∃ mode' cs' n' nl', n + c.utf8Size ≤ n' ∧
        skipGap mode (c :: cs) n nl = skipGap mode' cs' n' nl' := by
  rw [skipGap.eq_def]
  split <;> rename_i heq <;> cases heq
  · exact .inr ⟨_, _, _, _, by simp [Char.utf8Size], rfl⟩
  · exact .inr ⟨_, _, _, _, by simp [Char.utf8Size], rfl⟩
  · split
    · exact .inr ⟨_, _, _, _, Nat.le_refl _, rfl⟩
    · split
      · exact .inr ⟨_, _, _, _, Nat.le_refl _, rfl⟩
      · exact .inl ⟨rfl, rfl⟩
  · split <;> exact .inr ⟨_, _, _, _, Nat.le_refl _, rfl⟩
  · exact .inr ⟨_, _, _, _, by simp [Char.utf8Size], rfl⟩
  · exact .inr ⟨_, _, _, _, Nat.le_refl _, rfl⟩

theorem past_of_skipGap {offset n n' : Nat} {mode' : Gap} {cs' : List Char} {nl nl' : Bool}
    (heq : skipGap mode cs n nl = skipGap mode' cs' n' nl') (hn : p < n') :
    Past p (tokenAfter offset (skipGap mode cs n nl)).1
      (tokenAfter offset (skipGap mode cs n nl)).2 :=
  past_of_gap fun _ _ _ hgap => Nat.lt_of_lt_of_le hn (skipGap_start (heq ▸ hgap))

theorem past_of_comment {offset n : Nat} (h : Fork p n x) (nl : Bool) (hmode : mode ≠ .plain) :
    Past p (tokenAfter offset (skipGap mode x n nl)).1
      (tokenAfter offset (skipGap mode x n nl)).2 := by
  cases x with
  | nil => cases mode <;> exact ⟨nofun, .inr rfl, nofun⟩
  | cons c cs =>
    obtain ⟨rfl, -⟩ | ⟨mode', cs', n', nl', hn, heq⟩ := @skipGap_cons cs mode c n nl
    · exact absurd rfl hmode
    · exact past_of_skipGap heq (Nat.lt_of_lt_of_le (h.lt c rfl) hn)

/-- The token at the place where the texts part. -/
theorem past_of_fork {offset n : Nat} (h : Fork p n x) (nl : Bool) :
    Past p (tokenAfter offset (skipGap .plain x n nl)).1
        (tokenAfter offset (skipGap .plain x n nl)).2 ∨
      (tokenAfter offset (skipGap .plain x n nl)).1.isIdentifier = true ∧
        ∃ c ∈ x.head?, beginsName c = true := by
  cases x with
  | nil => exact .inl ⟨nofun, .inr rfl, nofun⟩
  | cons c cs =>
    obtain ⟨-, heq⟩ | ⟨mode', cs', n', nl', hn, heq⟩ := @skipGap_cons cs .plain c n nl
    · rw [heq]
      have hlexeme : LexemeAt c (tokenAfter offset (some (n, nl, c :: cs))).1.lexeme :=
        lexemeAt n c cs
      by_cases hid : (tokenAfter offset (some (n, nl, c :: cs))).1.isIdentifier = true
      · refine .inr ⟨hid, c, rfl, ?_⟩
        cases hc : beginsName c with
        | true => rfl
        | false => simp [isIdentifier_of_lexemeAt hlexeme hc] at hid
      · refine .inl ⟨fun h => absurd h hid, .inl ?_, fun hslash => ?_⟩
        · have hfork : Fork p (n + utf8Length []) (c :: cs) := h
          exact hfork.lt_bytesRead (scan_length n c cs)
        · have hc : c = '/' := by
            simp only [Token.isPunct, beq_iff_eq] at hslash
            obtain hq | hq := hslash
            · exact eq_slash_of_lexemeAt (hq ▸ hlexeme) (.inl rfl)
            · exact eq_slash_of_lexemeAt (hq ▸ hlexeme) (.inr rfl)
          subst hc
          exact Nat.le_of_lt_succ (h.lt '/' rfl)
    · exact .inl (past_of_skipGap heq (Nat.lt_of_lt_of_le (h.lt c rfl) hn))

/-! ## Gaps -/

/-- How far a gap reaches in two texts that both begin with `d`. -/
inductive GapFork (mode : Gap) (d : List Char) (n : Nat) (nl : Bool) (x y : List Char) : Prop
  /-- The gap ends in `d`. -/
  | within {c : Char} {d' : List Char} {n' : Nat} {nl' : Bool} :
      n' + utf8Length (c :: d') = n + utf8Length d →
      skipGap mode (d ++ x) n nl = some (n', nl', c :: d' ++ x) →
      skipGap mode (d ++ y) n nl = some (n', nl', c :: d' ++ y) → GapFork mode d n nl x y
  /-- All of `d` belongs to the gap. -/
  | whole {mode' : Gap} {nl' : Bool} :
      skipGap mode (d ++ x) n nl = skipGap mode' x (n + utf8Length d) nl' →
      skipGap mode (d ++ y) n nl = skipGap mode' y (n + utf8Length d) nl' → GapFork mode d n nl x y
  /-- The end of `d` and the beginning of `x` together begin or end a comment. -/
  | beyond {mode' : Gap} {c : Char} {x' : List Char} {nl' : Bool} :
      x = c :: x' →
      skipGap mode (d ++ x) n nl = skipGap mode' x' (n + utf8Length d + c.utf8Size) nl' →
      GapFork mode d n nl x y

theorem skipGap_plain {c : Char} {n : Nat} {nl : Bool}
    (h : c = '/' → ∀ d ∈ cs.head?, d ≠ '/' ∧ d ≠ '*') : skipGap .plain (c :: cs) n nl =
      if isLineBreak c then skipGap .plain cs (n + c.utf8Size) true
      else if isSpace c then skipGap .plain cs (n + c.utf8Size) nl
      else some (n, nl, c :: cs) := by
  rw [skipGap]
  · rintro cs rfl rfl
    exact (h rfl '/' rfl).1 rfl
  · rintro cs rfl rfl
    exact (h rfl '*' rfl).2 rfl

theorem skipGap_block {c : Char} {n : Nat} {nl : Bool} (h : c = '*' → cs.head? ≠ some '/') :
    skipGap .blockComment (c :: cs) n nl =
      skipGap .blockComment cs (n + c.utf8Size) (nl || isLineBreak c) := by
  rw [skipGap]
  rintro cs rfl rfl
  exact h rfl rfl

theorem skipGap_name (ht : isIdentStart t₀ = true) {n : Nat} {nl : Bool} :
    skipGap .plain (t₀ :: y) n nl = some (n, nl, t₀ :: y) := by
  have hline : isLineBreak t₀ = false := by
    cases h : isLineBreak t₀ with
    | false => rfl
    | true => simp [isIdentStart_of_isLineBreak h] at ht
  have hspace : isSpace t₀ = false := by
    cases h : isSpace t₀ with
    | false => rfl
    | true => simp [isIdentStart_of_isSpace h] at ht
  have hslash : t₀ ≠ '/' := by rintro rfl; revert ht; decide
  rw [skipGap_plain fun h => absurd h hslash]
  simp [hline, hspace]

theorem GapFork.step {mode' : Gap} {d d' : List Char} {n n' : Nat} {nl nl' : Bool}
    (h : GapFork mode' d' n' nl' x y) (hlength : n' + utf8Length d' = n + utf8Length d)
    (hx : skipGap mode (d ++ x) n nl = skipGap mode' (d' ++ x) n' nl')
    (hy : skipGap mode (d ++ y) n nl = skipGap mode' (d' ++ y) n' nl') :
    GapFork mode d n nl x y := by
  cases h with
  | within hl hx' hy' => exact .within (hl.trans hlength) (hx.trans hx') (hy.trans hy')
  | whole hx' hy' => exact .whole (hlength ▸ hx.trans hx') (hlength ▸ hy.trans hy')
  | beyond hc hx' => exact .beyond hc (hlength ▸ hx.trans hx')

theorem gapFork (ht : isIdentStart t₀ = true) (mode : Gap) (d : List Char) (n : Nat) (nl : Bool) :
    GapFork mode d n nl x (t₀ :: y) := by
  have hslash : t₀ ≠ '/' ∧ t₀ ≠ '*' := by
    constructor <;> (rintro rfl; revert ht; decide)
  fun_induction skipGap mode d n nl with
  | case1 cs n nl ih | case2 cs n nl ih =>
    exact ih.step (by simp [Char.utf8Size]; omega) rfl rfl
  | case3 c cs n nl h₁ h₂ hline ih =>
    have hc : c ≠ '/' := by rintro rfl; revert hline; decide
    refine ih.step (by simp; omega) ?_ ?_ <;>
      rw [List.cons_append, skipGap_plain (by simp [hc]), if_pos hline]
  | case4 c cs n nl h₁ h₂ hline hspace ih =>
    have hc : c ≠ '/' := by rintro rfl; revert hspace; decide
    refine ih.step (by simp; omega) ?_ ?_ <;>
      rw [List.cons_append, skipGap_plain (by simp [hc]), if_neg hline, if_pos hspace]
  | case5 c cs n nl h₁ h₂ hline hspace =>
    have hend {z : List Char} (hz : c = '/' → ∀ d ∈ (cs ++ z).head?, d ≠ '/' ∧ d ≠ '*') :
        skipGap .plain (c :: cs ++ z) n nl = some (n, nl, c :: cs ++ z) := by
      rw [List.cons_append, skipGap_plain hz, if_neg hline, if_neg hspace]
    have hy : c = '/' → ∀ d ∈ (cs ++ t₀ :: y).head?, d ≠ '/' ∧ d ≠ '*' := by
      rintro rfl d hd
      cases cs with
      | nil => exact Option.some.inj hd ▸ hslash
      | cons e cs =>
        obtain rfl : e = d := Option.some.inj hd
        exact ⟨fun he => h₁ cs rfl (he ▸ rfl), fun he => h₂ cs rfl (he ▸ rfl)⟩
    by_cases hx : c = '/' → ∀ d ∈ (cs ++ x).head?, d ≠ '/' ∧ d ≠ '*'
    · exact .within rfl (hend hx) (hend hy)
    · simp only [Classical.not_imp, Classical.not_forall] at hx
      obtain ⟨rfl, e, he, hcomment⟩ := hx
      obtain rfl : cs = [] := by
        cases cs with
        | nil => rfl
        | cons e' cs => exact absurd (hy rfl e' rfl) (Option.some.inj he ▸ hcomment)
      obtain ⟨x, rfl⟩ := List.head?_eq_some_iff.mp he
      by_cases hline : e = '/'
      · subst hline
        exact .beyond rfl rfl
      · obtain rfl : e = '*' := by simpa [hline] using hcomment
        exact .beyond rfl rfl
  | case6 c cs n nl hline ih =>
    refine ih.step (by simp; omega) ?_ ?_ <;> rw [List.cons_append, skipGap, if_pos hline]
  | case7 c cs n nl hline ih =>
    refine ih.step (by simp; omega) ?_ ?_ <;> rw [List.cons_append, skipGap, if_neg hline]
  | case8 cs n nl ih => exact ih.step (by simp [Char.utf8Size]; omega) rfl rfl
  | case9 c cs n nl h ih =>
    have hy : c = '*' → (cs ++ t₀ :: y).head? ≠ some '/' := by
      rintro rfl hd
      cases cs with
      | nil => exact hslash.1 (Option.some.inj hd)
      | cons e cs => exact h cs rfl (Option.some.inj hd ▸ rfl)
    by_cases hx : c = '*' → (cs ++ x).head? ≠ some '/'
    · exact ih.step (by simp; omega) (skipGap_block hx) (skipGap_block hy)
    · simp only [Classical.not_imp, Classical.not_not] at hx
      obtain ⟨rfl, he⟩ := hx
      obtain rfl : cs = [] := by
        cases cs with
        | nil => rfl
        | cons e cs => exact absurd he (hy rfl)
      obtain ⟨x, rfl⟩ := List.head?_eq_some_iff.mp he
      exact .beyond rfl rfl
  | case10 n nl => exact .whole rfl rfl
  | case11 mode n nl h => exact .whole rfl rfl

/-! ## Tokens -/

/-- What comes of reading a token in two texts that part at the byte `p`: both readings agree, or the
first one gets past `p`, or the second one is not in a literal any more. -/
inductive Forked (p : Nat) (x y : List Char) : Token × List Char → Token × List Char → Prop
  | agree {t : Token} {d : List Char} :
      Fork p (t.stop + utf8Length d) x → Forked p x y (t, d ++ x) (t, d ++ y)
  | ahead {s s' : Token × List Char} : Ahead p s.1 s.2 → Forked p x y s s'
  | apart {s s' : Token × List Char} :
      s'.1.inLiteral = false → (s.1.continues = true → s'.1.continues = true) → Forked p x y s s'

section Scans

variable {offset n : Nat} {nl : Bool} {l : List Char} (hfork : Fork p (n + utf8Length l) x)

include hfork

theorem Forked.of_scan {lexeme : Lexeme} {flawed : Bool} {d : List Char} (hd : d <:+ l)
    (hx : scan n (l ++ x) = (lexeme, flawed, d ++ x))
    (hy : scan n (l ++ y) = (lexeme, flawed, d ++ y)) :
    Forked p x y (tokenAfter offset (some (n, nl, l ++ x)))
      (tokenAfter offset (some (n, nl, l ++ y))) := by
  have hbytes := bytesRead_append hd x
  have hbytes' := bytesRead_append hd y
  have heq : bytesRead (l ++ x) (d ++ x) = bytesRead (l ++ y) (d ++ y) := by omega
  simp only [tokenAfter, hx, hy, ← heq]
  refine .agree ?_
  have hstop : n + bytesRead (l ++ x) (d ++ x) + utf8Length d = n + utf8Length l := by omega
  simpa only [hstop] using hfork

/-- A token that reaches into `x`, or that takes up the rest of the text. -/
theorem past_of_scan {lexeme : Lexeme} {flawed : Bool} {rest : List Char}
    (hx : scan n (l ++ x) = (lexeme, flawed, rest)) (hrest : rest.length < x.length ∨ rest = [])
    (hname : ∀ text escaped, lexeme = .name text escaped → isReserved text = true)
    (hslash : ∀ q, lexeme = .punct q → q ≠ .slash ∧ q ≠ .slashAssign) :
    Ahead p (tokenAfter offset (some (n, nl, l ++ x))).1
      (tokenAfter offset (some (n, nl, l ++ x))).2 := by
  refine .past ⟨fun h => ?_, ?_, fun h => ?_⟩
  · simp only [tokenAfter, hx, Token.isIdentifier] at h
    split at h
    · simp [hname _ _ rfl] at h
    · cases h
  · simp only [tokenAfter, hx]
    exact hrest.imp hfork.lt_bytesRead id
  · simp only [tokenAfter, hx, Token.isPunct, beq_iff_eq] at h
    obtain h | h := h
    · exact absurd rfl (hslash _ h).1
    · exact absurd rfl (hslash _ h).2

end Scans

/-! ## Spellings of punctuators -/

theorem isIdentStart_of_mem_punctuators : ∀ z ∈ punctuators, ∀ c ∈ z.1, isIdentStart c = false := by
  have hall : (punctuators.all fun z => z.1.all fun c => !isIdentStart c) = true := by decide +kernel
  intro z hz c hc
  simpa using List.all_eq_true.mp (List.all_eq_true.mp hall z hz) c hc

theorem prefix_of_spelling (ht : isIdentStart t₀ = true) {z : List Char × Punct}
    (hz : z ∈ punctuators) {l : List Char} (h : z.1 <+: l ++ t₀ :: y) : z.1 <+: l := by
  by_cases hlength : z.1.length ≤ l.length
  · exact List.prefix_of_prefix_length_le h (List.prefix_append l _) hlength
  · have hl : l ++ [t₀] <+: z.1 :=
      List.prefix_of_prefix_length_le ⟨y, by simp⟩ h (by simp; omega)
    have hmem : t₀ ∈ z.1 := hl.mem (by simp)
    simp [isIdentStart_of_mem_punctuators z hz t₀ hmem] at ht

/-- The same spelling comes first in both texts if it ends where they agree. -/
theorem find?_spelling (ht : isIdentStart t₀ = true) {z : List Char × Punct} {l : List Char}
    (h : (punctuators.find? fun z => z.1.isPrefixOf (l ++ x)) = some z)
    (hlength : z.1.length ≤ l.length) :
    (punctuators.find? fun z => z.1.isPrefixOf (l ++ t₀ :: y)) = some z := by
  rw [List.find?_eq_some_iff_append] at h ⊢
  obtain ⟨hz, before, after, hsplit, hbefore⟩ := h
  have hl : z.1 <+: l :=
    List.prefix_of_prefix_length_le (List.isPrefixOf_iff_prefix.mp hz) (List.prefix_append l x) hlength
  refine ⟨List.isPrefixOf_iff_prefix.mpr (hl.trans (List.prefix_append l _)), before, after, hsplit,
    fun z' hz' => ?_⟩
  have hmem : z' ∈ punctuators := hsplit ▸ List.mem_append_left _ hz'
  cases hprefix : z'.1.isPrefixOf (l ++ t₀ :: y) with
  | false => rfl
  | true =>
    have hl' := prefix_of_spelling ht hmem (List.isPrefixOf_iff_prefix.mp hprefix)
    have hx := List.isPrefixOf_iff_prefix.mpr (hl'.trans (List.prefix_append l x))
    simpa [hx] using hbefore z' hz'

/-- Whatever punctuator begins with a slash or a question mark continues the expression before it. -/
theorem continues_special {offset n : Nat} {nl : Bool} {c : Char} (hc : c = '/' ∨ c = '?') :
    (tokenAfter offset (some (n, nl, c :: cs))).1.continues = true := by
  have hall : ∀ z ∈ punctuators, z.1.head? = some '/' ∨ z.1.head? = some '?' → ∀ nl,
      Token.continues { lexeme := .punct z.2, start := 0, stop := 0, newline := nl } = true := by
    decide
  have hfind : (punctuators.find? fun z => z.1.isPrefixOf (c :: cs)).isSome = true := by
    rw [List.find?_isSome]
    obtain rfl | rfl := hc
    · exact ⟨(['/'], .slash), by decide, rfl⟩
    · exact ⟨(['?'], .question), by decide, rfl⟩
  have hpunct : (punct? (c :: cs)).isSome = true := by
    unfold punct?
    split
    · split <;> rfl
    · simpa [Option.isSome_bind] using hfind
  have hscan : scan n (c :: cs) = scanOther (punct? (c :: cs)) := by
    obtain rfl | rfl := hc <;> rfl
  obtain ⟨r, hr⟩ := Option.isSome_iff_exists.mp hpunct
  obtain ⟨q, hq⟩ : ∃ q, (scan n (c :: cs)).1 = .punct q := by
    obtain ⟨z, -, hz, -, -⟩ := spelling_of_punct? hr
    exact ⟨z.2, by rw [hscan, hr]; exact hz⟩
  have hlexeme := lexemeAt n c cs
  generalize hl : (scan n (c :: cs)).1 = lexeme at hlexeme
  cases hlexeme with
  | @punct z hz hhead =>
    rw [← hall z hz (by obtain rfl | rfl := hc <;> simp [hhead]) nl]
    exact Token.continues_congr hl rfl
  | _ => cases hl.symm.trans hq

theorem continues_of_lexemeAt_hash (h : LexemeAt '#' t.lexeme) : t.continues = false := by
  obtain ⟨lexeme, start, stop, newline, flawed⟩ := t
  cases h with
  | punct hz hhead =>
    have hnone : ∀ z ∈ punctuators, z.1.head? ≠ some '#' := by decide
    exact absurd hhead (hnone _ hz)
  | name _ _ hc => exact absurd hc (by decide)
  | template _ _ hc => cases hc
  | _ => rfl

section Kinds

variable {offset n : Nat} {nl : Bool} {c : Char} {d : List Char}
  (hfork : Fork p (n + utf8Length (c :: d)) x)

include hfork

theorem forked_paren (hc : c = '(' ∨ c = ')') :
    Forked p x y (tokenAfter offset (some (n, nl, c :: d ++ x)))
      (tokenAfter offset (some (n, nl, c :: d ++ y))) := by
  obtain rfl | rfl := hc <;> exact .of_scan hfork (List.suffix_cons _ _) rfl rfl

theorem forked_string (hc : c = '\x22' ∨ c = '\x27') :
    Forked p x y (tokenAfter offset (some (n, nl, c :: d ++ x)))
      (tokenAfter offset (some (n, nl, c :: d ++ y))) := by
  have hbars : barsEscape c = true := by obtain rfl | rfl := hc <;> rfl
  have hslash : c ≠ '\\' := by obtain rfl | rfl := hc <;> decide
  have hscan : scan n (c :: d ++ x) = scanString c (d ++ x) := scan_string hc
  cases hchars : stringChars? c ((d ++ x).length + 1) (d ++ x) with
  | none =>
    have hx : scan n (c :: d ++ x) = (.invalid, true, []) := by rw [hscan, scanString, hchars]
    exact .ahead (past_of_scan hfork hx (.inr rfl) (by simp) (by simp))
  | some r =>
    obtain ⟨value, flawed, rest⟩ := r
    have hx : scan n (c :: d ++ x) = (.string (String.ofList value), flawed, rest) := by
      rw [hscan, scanString, hchars]
    have hread := stringRead_of_stringChars? hchars
    by_cases hrest : x.length ≤ rest.length
    · obtain ⟨d', rfl, -, hsuffix, hread'⟩ := hread.following hbars hrest
      refine .of_scan hfork (hsuffix.trans (List.suffix_cons _ _)) hx ?_
      change scan n (c :: (d ++ y)) = _
      rw [scan_string hc, scanString,
        stringChars?_of_stringRead hslash (Nat.lt_succ_self _) (hread' y)]
    · exact .ahead (past_of_scan hfork hx (.inl (Nat.lt_of_not_le hrest)) (by simp)
        (by simp))

theorem forked_template (hc : c = '\x60') :
    Forked p x y (tokenAfter offset (some (n, nl, c :: d ++ x)))
      (tokenAfter offset (some (n, nl, c :: d ++ y))) := by
  subst hc
  have hscan (z : List Char) : scan n ('\x60' :: d ++ z) = scanOther (template? (d ++ z)) := rfl
  cases hchars : templateChars? ((d ++ x).length + 1) (d ++ x) with
  | none =>
    have hx : scan n ('\x60' :: d ++ x) = (.invalid, true, []) := by
      rw [hscan, template?, hchars]
      rfl
    exact .ahead (past_of_scan hfork hx (.inr rfl) (by simp) (by simp))
  | some r =>
    obtain ⟨value, last, rest⟩ := r
    have hx : scan n ('\x60' :: d ++ x) =
        (.template (value.map String.ofList) last, false, rest) := by
      rw [hscan, template?, hchars]
      rfl
    have hread := templateRead_of_templateChars? hchars
    by_cases hrest : x.length ≤ rest.length
    · obtain ⟨d', rfl, -, hsuffix, hread'⟩ := hread.following hrest
      refine .of_scan hfork (hsuffix.trans (List.suffix_cons _ _)) hx ?_
      rw [hscan, template?, templateChars?_of_templateRead (Nat.lt_succ_self _) (hread' y)]
      rfl
    · exact .ahead (past_of_scan hfork hx (.inl (Nat.lt_of_not_le hrest)) (by simp)
        (by simp))

/-- A word that continues the expression before it is reserved, and no name follows it at once. -/
theorem forked_name (hc : beginsName c = true) :
    Forked p x y (tokenAfter offset (some (n, nl, c :: d ++ x)))
      (tokenAfter offset (some (n, nl, c :: d ++ y))) := by
  have hne {e : Char} (he : beginsName e = false) : c ≠ e := fun h => by simp [h, he] at hc
  have hapart : (tokenAfter offset (some (n, nl, c :: d ++ y))).1.inLiteral = false :=
    inLiteral_of_lexemeAt (lexemeAt n c (d ++ y))
      ⟨hne (by decide), hne (by decide), hne (by decide)⟩ ⟨hne (by decide), hne (by decide)⟩
  have hscan (z : List Char) : scan n (c :: d ++ z) = scanName (c :: d ++ z) .name := scan_name hc
  cases hcontinues : (tokenAfter offset (some (n, nl, c :: d ++ x))).1.continues with
  | false => exact .apart hapart fun h => absurd (hcontinues.symm.trans h) Bool.false_ne_true
  | true =>
    cases hname : name? (c :: d ++ x) with
    | none =>
      have hx : scan n (c :: d ++ x) = (.name "" true, true, []) := by
        rw [hscan, scanName, hname]
      refine .ahead (past_of_scan hfork hx (.inr rfl) ?_ (by simp))
      rintro _ _ ⟨⟩
      exact Token.isReserved_of_continues (congrArg Prod.fst hx) hcontinues
    | some r =>
      obtain ⟨text, escaped, rest⟩ := r
      have hx : scan n (c :: d ++ x) = (.name text escaped, false, rest) := by
        rw [hscan, scanName, hname]
      have hreserved : isReserved text = true :=
        Token.isReserved_of_continues (congrArg Prod.fst hx) hcontinues
      obtain ⟨e, ds, htext, hread⟩ := name?_eq_some_iff.mp hname
      by_cases hshort : rest.length < x.length
      · refine .ahead (past_of_scan hfork hx (.inl hshort) ?_ (by simp))
        rintro _ _ ⟨⟩
        exact hreserved
      by_cases hlong : x.length < rest.length
      · -- Something else than a name follows before the texts part.
        obtain ⟨d', -, hread'⟩ := hread.following hlong
        have hy : scan n (c :: d ++ y) = (.name text escaped, false, d' ++ y) := by
          rw [hscan, scanName, name?_eq_some_iff.mpr ⟨e, ds, htext, hread' y⟩]
        have hlexeme : (scan n (c :: d ++ y)).1 = (scan n (c :: d ++ x)).1 := by rw [hx, hy]
        exact .apart hapart fun h => (continues_tokenAfter hlexeme).trans h
      · -- The word ends where the texts part, and what follows it is no name.
        obtain rfl : rest = x :=
          (List.suffix_of_suffix_length_le hread.suffix (List.suffix_append (c :: d) x)
            (by omega)).eq_of_length (by omega)
        have hstop : (tokenAfter offset (some (n, nl, c :: d ++ rest))).1.stop =
            n + utf8Length (c :: d) := by
          have := bytesRead_append (List.nil_suffix (l := c :: d)) rest
          simp only [tokenAfter, hx]
          simpa using this
        refine .ahead (.step ?_ ?_ ?_ ?_ ?_)
        · simp only [tokenAfter, hx, Token.isIdentifier, hreserved, Bool.not_true]
        · simp only [tokenAfter, hx, Token.isPunct]; rfl
        · simp only [tokenAfter, hx, Token.isPunct]; rfl
        · simp only [tokenAfter, hx, Token.isPunct]; rfl
        · have hrest : (tokenAfter offset (some (n, nl, c :: d ++ rest))).2 = rest := by
            simp only [tokenAfter, hx]
          rw [hstop, hrest, nextTokenOf_eq]
          obtain hpast | ⟨-, e', he', hname'⟩ :=
            @past_of_fork _ _ (n + utf8Length (c :: d)) _ hfork false
          · exact .past hpast
          · obtain ⟨hslash, hpart⟩ := hread.stopped (by simp) e' he'
            have hstart : isIdentStart e' = true := by simpa [beginsName, hslash] using hname'
            simp [isIdentPart_of_isIdentStart hstart] at hpart

/-- A punctuator continues the expression before it in both texts, unless it reaches beyond the place
where they part. -/
theorem forked_punct (ht : isIdentStart t₀ = true) (hc : beginsPunct c = true)
    (hnumber : beginsNumber c (d ++ x) = false) (hparen : c ≠ '(' ∧ c ≠ ')') :
    Forked p x (t₀ :: y) (tokenAfter offset (some (n, nl, c :: d ++ x)))
      (tokenAfter offset (some (n, nl, c :: d ++ t₀ :: y))) := by
  have hnumber' : beginsNumber c (d ++ t₀ :: y) = false := by
    cases d with
    | nil =>
      have hdigit : c.isDigit = false := by simp_all [beginsPunct]
      have hdigit' : t₀.isDigit = false := by
        cases h : t₀.isDigit with
        | false => rfl
        | true => simp [isIdentStart_of_isDigit h] at ht
      simp [beginsNumber, hdigit, hdigit']
    | cons e d => exact hnumber
  have hquote : c ≠ '\x22' ∧ c ≠ '\x27' ∧ c ≠ '\x60' := by simp_all [beginsPunct]
  have hapart : (tokenAfter offset (some (n, nl, c :: d ++ t₀ :: y))).1.inLiteral = false :=
    inLiteral_of_lexemeAt (lexemeAt n c (d ++ t₀ :: y)) hquote hparen
  have hx : scan n (c :: d ++ x) = scanOther (punct? (c :: d ++ x)) := scan_punct hc hnumber
  have hy : scan n (c :: d ++ t₀ :: y) = scanOther (punct? (c :: d ++ t₀ :: y)) :=
    scan_punct hc hnumber'
  by_cases hspecial : c = '/' ∨ c = '?'
  · exact .apart hapart fun _ => continues_special hspecial
  rw [not_or] at hspecial
  cases hpunct : punct? (c :: d ++ x) with
  | none =>
    have hx : scan n (c :: d ++ x) = (.invalid, true, []) := by rw [hx, hpunct]; rfl
    exact .ahead (past_of_scan hfork hx (.inr rfl) (by simp) (by simp))
  | some r =>
    obtain ⟨z, hfind, rfl⟩ := Option.map_eq_some_iff.mp
      ((punct?_eq_find hspecial.2 (d ++ x)).symm.trans hpunct)
    have hx : scan n (c :: d ++ x) =
        (.punct z.2, false, (c :: (d ++ x)).drop z.1.length) := by rw [hx, hpunct]; rfl
    by_cases hlong : (c :: d).length < z.1.length
    · refine .ahead (past_of_scan hfork hx (.inl ?_) (by simp) ?_)
      · have hprefix : z.1 <+: c :: (d ++ x) := by simpa using List.find?_some hfind
        have hlength := hprefix.length_le
        simp only [List.length_drop, List.length_cons, List.length_append] at hlength hlong ⊢
        omega
      · rintro q ⟨⟩
        have hlexeme := lexemeAt n c (d ++ x)
        change LexemeAt c (scan n (c :: d ++ x)).1 at hlexeme
        rw [hx] at hlexeme
        exact ⟨fun hq => hspecial.1 (eq_slash_of_lexemeAt hlexeme (.inl hq)),
          fun hq => hspecial.1 (eq_slash_of_lexemeAt hlexeme (.inr hq))⟩
    · have hfind' := @find?_spelling x y t₀ ht z (c :: d) hfind (by omega)
      have hlexeme : (scan n (c :: d ++ t₀ :: y)).1 = (scan n (c :: d ++ x)).1 := by
        rw [hx, hy]
        change (scanOther (punct? (c :: (d ++ t₀ :: y)))).1 = _
        rw [punct?_eq_find hspecial.2]
        change (scanOther ((punctuators.find? fun z =>
          z.1.isPrefixOf (c :: d ++ t₀ :: y)).map _)).1 = _
        rw [hfind']
        rfl
      exact .apart hapart fun h => (continues_tokenAfter hlexeme).trans h

theorem forked_of_scan (ht : isIdentStart t₀ = true) :
    Forked p x (t₀ :: y) (tokenAfter offset (some (n, nl, c :: d ++ x)))
      (tokenAfter offset (some (n, nl, c :: d ++ t₀ :: y))) := by
  by_cases hparen : c = '(' ∨ c = ')'
  · exact forked_paren hfork hparen
  rw [not_or] at hparen
  -- A number, a private name or nothing at all does not continue an expression.
  have hapart (hquote : c ≠ '\x22' ∧ c ≠ '\x27' ∧ c ≠ '\x60')
      (hlexeme : LexemeAt '#' (tokenAfter offset (some (n, nl, c :: d ++ x))).1.lexeme) :
      Forked p x (t₀ :: y) (tokenAfter offset (some (n, nl, c :: d ++ x)))
        (tokenAfter offset (some (n, nl, c :: d ++ t₀ :: y))) :=
    .apart (inLiteral_of_lexemeAt (lexemeAt n c (d ++ t₀ :: y)) hquote hparen)
      fun h => nomatch (continues_of_lexemeAt_hash hlexeme).symm.trans h
  cases beginning c (d ++ x) with
  | hash hc =>
    subst hc
    exact hapart (by decide) (lexemeAt n '#' (d ++ x))
  | template hc => exact forked_template hfork hc
  | string hc => exact forked_string hfork hc
  | number hc =>
    refine hapart ?_ ?_
    · have hne {e : Char} (he : ∀ cs, beginsNumber e cs = false) : c ≠ e := fun h => by
        simp [h, he] at hc
      exact ⟨hne fun _ => rfl, hne fun _ => rfl, hne fun _ => rfl⟩
    · change LexemeAt '#' (scan n (c :: (d ++ x))).1
      rw [scan_number hc]
      exact lexemeAt_number _
  | name hc => exact forked_name hfork hc
  | punct hc hnumber => exact forked_punct hfork ht hc hnumber hparen

end Kinds

/-- Reading one token in two texts that part where one of them goes on with a name. -/
theorem nextTokenOf_forked {n : Nat} {d : List Char} (hfork : Fork p (n + utf8Length d) x)
    (ht : isIdentStart t₀ = true) :
    Forked p x (t₀ :: y) (nextTokenOf n (d ++ x)) (nextTokenOf n (d ++ t₀ :: y)) := by
  rw [nextTokenOf_eq, nextTokenOf_eq]
  cases @gapFork x y t₀ ht .plain d n false with
  | within hlength hx hy =>
    rw [hx, hy]
    exact forked_of_scan (hlength ▸ hfork) ht
  | beyond hc hx =>
    subst hc
    exact .ahead (.past (past_of_skipGap hx (hfork.lt _ rfl)))
  | @whole mode nl hx hy =>
    rw [hx, hy]
    by_cases hmode : mode = .plain
    · subst hmode
      obtain hpast | ⟨hid, -⟩ := @past_of_fork p x n _ hfork nl
      · exact .ahead (.past hpast)
      · refine .apart ?_ fun h => ?_
        · rw [skipGap_name ht]
          have hne {c : Char} (hc : isIdentStart c = false) : t₀ ≠ c := fun h => by
            simp [h, hc] at ht
          exact inLiteral_of_lexemeAt (lexemeAt _ t₀ y)
            ⟨hne (by decide), hne (by decide), hne (by decide)⟩ ⟨hne (by decide), hne (by decide)⟩
        · obtain ⟨text, escaped, hlexeme, hreserved⟩ := Token.name_of_isIdentifier hid
          simp [Token.isReserved_of_continues hlexeme h] at hreserved
    · exact .ahead (.past (past_of_comment hfork nl hmode))

end TemplateCompiler.Script
