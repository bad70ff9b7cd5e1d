import TemplateCompiler.Proofs.Script.Marks
import TemplateCompiler.Proofs.Script.Watching

/-! # Accounting for what is read

Every word of a text is accounted for by a mark of the tree that is read from it. The rules follow
the operations that readers are built from.
-/

namespace TemplateCompiler.Script

variable {c : Prop} {t : Token} {w : String} {x : Punct}

/-! ## Spelling -/

/-- The token after a place, with the text after it. -/
def nextPlace (p : Token × List Char) : Token × List Char := nextTokenOf p.1.stop p.2

/-- The token is a word or a literal with the given value. -/
def Token.names (t : Token) (text : String) : Prop :=
  match t.lexeme with
  | .name value _ | .privateName value | .number value | .bigint value | .string value =>
    value = text
  | _ => False

theorem Token.isIdentifier_of_isPunct (h : t.isPunct x = true) : t.isIdentifier = false := by
  have hlexeme : t.lexeme = .punct x := by simpa [isPunct] using h
  simp [isIdentifier, hlexeme]

theorem Token.isIdentifier_of_isWord (h : t.isWord w = true) (hw : isReserved w = true) :
    t.isIdentifier = false := by
  unfold isWord at h
  split at h
  · rename_i text escaped hlexeme
    simp [isIdentifier, hlexeme, eq_of_beq h, hw]
  · cases h

theorem Token.word?_of_isWord (h : t.isWord w = true) : t.word? = some w := by
  unfold isWord at h
  split at h
  · rename_i text escaped hlexeme
    simp [word?, hlexeme, eq_of_beq h]
  · cases h

/-- Between two places the text spells the marks, and no more: each word that could be an identifier
belongs to one of them. -/
inductive Spells : Token × List Char → List Mark → Token × List Char → Prop
  | refl (p) : Spells p [] p
  | trans {p q r xs ys} : Spells p xs q → Spells q ys r → Spells p (xs ++ ys) r
  /-- Reserved words, and tokens that are no words. -/
  | silent {p} : p.1.isIdentifier = false → Spells p [] (nextPlace p)
  | resumed {t rest lexeme after} : t.isPunct .rbrace = true →
      template? rest = some (lexeme, after) →
      Spells (t, rest) [] ({ t with lexeme, stop := t.stop + bytesRead rest after }, after)
  | regex {t rest after} : t.isPunct .slash = true ∨ t.isPunct .slashAssign = true →
      regex? (regexText t rest) = some after →
      Spells (t, rest) [] (nextTokenOf (t.start + 1 + bytesRead (regexText t rest) after) after)
  /-- `async` before a single parameter and its arrow. -/
  | async {p} : p.1.isWord "async" = true → (nextPlace p).1.isIdentifier = true →
      (nextPlace (nextPlace p)).1.isPunct .arrow = true → Spells p [] (nextPlace p)
  | use {p name} : p.1.flawed = false → p.1.word? = some name → isReserved name = false →
      Spells p [.use { name, start := p.1.start, stop := p.1.stop } false] (nextPlace p)
  | shorthand {p q id} : Spells p [.use id false] q → Spells p [.use id true] q
  | binder {p q id} : Spells p [.use id false] q → Spells p [.binder id] q
  | label {p q id} : Spells p [.use id false] q → Spells p [.label] q
  | named {p q id} : Spells p [.use id false] q → Spells p [.name id.name] q
  /-- In a pattern one identifier may be both a key and the name that it binds. -/
  | keyed {p q id} (record : Bool) :
      Spells p [.use id false] q → Spells p [.name id.name, .bound record id] q
  | name {p text} : p.1.names text → Spells p [.name text] (nextPlace p)
  | absent {p m} : m.repeats = true → Spells p [m] p
  | again {p q r m} : m.repeats = true → Spells p [m] q → Spells q [m] r → Spells p [m] r
  | word {p w allowed} : p.1.word? = some w → w ∈ allowed → Spells p [.words allowed] (nextPlace p)
  | specifier {p} : p.1.word?.isSome = true → Spells p [.specifiers] (nextPlace p)
  | decorator {p q} {e : Expr} : p.1.isPunct .at = true → Spells p (settled e.marks) q →
      Spells p [.decorators] q
  | extra {p q} {e : Expr} : p.1.isPunct .comma = true → Spells p (settled e.marks) q →
      Spells p [.extra] q
  | jump {p q id} : p.1.isWord "break" = true ∨ p.1.isWord "continue" = true →
      Spells p [.use id false] q → Spells p [.aside] q
  | implemented {p q} : p.1.isWord "implements" = true → Spells p [.specifiers] q →
      Spells p [.aside] q
  | interface {p q} : p.1.isWord "interface" = true → Spells p [.dropped] q → Spells p [.aside] q
  | dropped {p q ms} : Spells p ms q → Spells p [.dropped] q

theorem identsOf_repeats {m : Mark} (hm : m.repeats = true) : identsOf [m] = [] := by
  cases m with
  | use | binder => cases hm
  | _ => rfl

/-- What a text spells, it reads, whatever is said of its identifiers. -/
theorem Spells.reads {p q : Token × List Char} {ms : List Mark} (h : Spells p ms q) (k : Track) :
    k.reads p (identsOf ms) q := by
  induction h with
  | refl p => exact k.refl p
  | trans _ _ ih ih' => exact identsOf_append _ _ ▸ k.trans ih ih'
  | silent | async | name | word | specifier => exact k.next _ _
  | resumed hbrace htext => exact k.resumed hbrace htext
  | regex hslash htext => exact k.regex hslash htext
  | use hflawed hword hreserved => exact k.named hflawed hword hreserved
  | shorthand _ ih | binder _ ih => exact ih
  | keyed record _ ih => cases record <;> exact ih
  | absent hm => exact identsOf_repeats hm ▸ k.refl _
  | again hm _ _ ih ih' =>
    rw [identsOf_repeats hm] at ih ih' ⊢
    exact k.trans ih ih'
  | label _ ih | named _ ih | decorator _ _ ih | extra _ _ ih | jump _ _ ih | implemented _ _ ih
  | interface _ _ ih | dropped _ ih => exact k.fewer ih (List.nil_sublist _)

theorem Spells.absents {p : Token × List Char} :
    ∀ {ms : List Mark}, (∀ m ∈ ms, m.repeats = true) → Spells p ms p
  | [], _ => .refl p
  | m :: _, hms => (Spells.absent (hms m (by simp))).trans
      (absents fun m' hm' => hms m' (List.mem_cons_of_mem m hm'))

/-! ## Readers -/

@[simp] theorem settled_append (xs ys : List Mark) :
    settled (xs ++ ys) = settled xs ++ settled ys := List.filter_append ..

theorem ne_pending {m : Mark} (hm : m.repeats = true) : m ≠ .pending := by
  rintro rfl
  cases hm

theorem settled_absents {ms : List Mark} (hms : ∀ m ∈ ms, m.repeats = true) : settled ms = ms :=
  List.filter_eq_self.mpr fun m hm => by simp [ne_pending (hms m hm)]

theorem count_pending_absents {ms : List Mark} (hms : ∀ m ∈ ms, m.repeats = true) :
    ms.count .pending = 0 :=
  List.count_eq_zero.mpr fun hmem => ne_pending (hms _ hmem) rfl

theorem settled_repeats {m : Mark} (hm : m.repeats = true) : settled [m] = [m] :=
  settled_absents (by simpa using hm)

/-- From the first state to the second one, the text spells the marks, and the defaults that are not
justified are counted. -/
structure ReaderState.Reached (s₀ : ReaderState) (ms : List Mark) (s : ReaderState) : Prop where
  spells : Spells s₀.place (settled ms) s.place
  count_le : s₀.openDefaults + ms.count .pending ≤ s.openDefaults

theorem ReaderState.Reached.refl (s : ReaderState) : s.Reached [] s := ⟨.refl _, Nat.le_refl _⟩

theorem ReaderState.Reached.trans {s s₁ s₂ : ReaderState} {xs ys : List Mark} (h : s.Reached xs s₁)
    (h' : s₁.Reached ys s₂) : s.Reached (xs ++ ys) s₂ where
  spells := settled_append xs ys ▸ h.spells.trans h'.spells
  count_le := by
    have hx := h.count_le
    have hy := h'.count_le
    rw [List.count_append]
    omega

/-- Whatever the reader gives from the place `p` on satisfies `P`. -/
def GivesAt {α : Type} (p : Token × List Char) (r : Reader α) (P : α → Prop) : Prop :=
  ∀ s a s', s.place = p → r s = some (a, s') → P a

namespace GivesAt

variable {α β : Type} {p : Token × List Char} {r : Reader α} {f : α → Reader β} {P : α → Prop}
  {Q : β → Prop}

theorem pure {a : α} (h : P a) : GivesAt p (Pure.pure a : Reader α) P := by
  intro s b s' _ hrun
  obtain ⟨rfl, -⟩ := Prod.mk.inj (Option.some.inj hrun)
  exact h

theorem fail : GivesAt p (Reader.fail : Reader α) P := fun _ _ _ _ hrun => nomatch hrun

theorem fail_bind : GivesAt p ((Reader.fail : Reader α) >>= f) Q := fun _ _ _ _ hrun => nomatch hrun

theorem andThen (h : GivesAt p r P) (hf : ∀ a, P a → ∀ q, GivesAt q (f a) Q) :
    GivesAt p (r >>= f) Q := by
  intro s b s' hp hrun
  obtain ⟨⟨a, s₁⟩, hr, hrest⟩ := Option.bind_eq_some_iff.mp hrun
  exact hf a (h s a s₁ hp hr) s₁.place s₁ b s' rfl hrest

theorem bind (hf : ∀ a q, GivesAt q (f a) Q) : GivesAt p (r >>= f) Q :=
  andThen (P := fun _ => True) (fun _ _ _ _ _ => trivial) fun a _ => hf a

theorem token {f : Token → Reader β} (h : GivesAt p (f p.1) Q) :
    GivesAt p (Reader.token >>= f) Q := by
  rintro s b s' rfl hrun
  exact h s b s' rfl hrun

theorem isAt {Q : Bool → Prop} (h : Q (p.1.isPunct x)) : GivesAt p (Reader.isAt x) Q := by
  rintro s b s' rfl hrun
  obtain ⟨rfl, -⟩ := Prod.mk.inj (Option.some.inj hrun)
  exact h

theorem ite [Decidable c] {r' : Reader α} (h : c → GivesAt p r P) (h' : ¬c → GivesAt p r' P) :
    GivesAt p (if c then r else r') P := by
  by_cases hc : c
  · rw [if_pos hc]
    exact h hc
  · rw [if_neg hc]
    exact h' hc

theorem advance {f : Unit → Reader β} (h : GivesAt (nextPlace p) (f ()) Q) :
    GivesAt p (Reader.advance >>= f) Q := by
  rintro s b s' rfl hrun
  exact h _ b s' rfl hrun

theorem expectWord {f : Unit → Reader β} (h : p.1.isWord w = true → GivesAt (nextPlace p) (f ()) Q) :
    GivesAt p (Reader.expectWord w >>= f) Q := by
  rintro s b s' rfl hrun
  obtain ⟨⟨⟨⟩, s₁⟩, hpass, hrest⟩ := Option.bind_eq_some_iff.mp hrun
  change (if s.token.isWord w = true then Reader.passWord else Reader.fail) s = _ at hpass
  by_cases hword : s.token.isWord w = true
  · rw [if_pos hword] at hpass
    change (Reader.complainIf s.token.isEscaped >>= fun _ => Reader.advance) s = _ at hpass
    have hplace : s₁.place = nextPlace s.place := by
      cases hescaped : s.token.isEscaped with
      | false | true =>
        rw [hescaped] at hpass
        obtain rfl := congrArg Prod.snd (Option.some.inj hpass)
        rfl
    exact h hword s₁ b s' hplace hrest
  · rw [if_neg hword] at hpass
    cases hpass

theorem anyWord : GivesAt p Reader.anyWord fun id => p.1.word? = some id.name := by
  refine .token ?_
  split
  · exact .bind fun _ _ => .pure ‹_›
  · exact .fail

end GivesAt

/-- At the place `p` the reader only looks, and what it finds satisfies `P`. -/
def LooksAt {α : Type} (p : Token × List Char) (r : Reader α) (P : α → Prop) : Prop :=
  ∀ s, s.place = p → ∃ a, r s = some (a, s) ∧ P a

namespace LooksAt

variable {α β : Type} {p : Token × List Char} {r : Reader α} {f : α → Reader β} {P : α → Prop}
  {Q : β → Prop}

theorem pure {a : α} (h : P a) : LooksAt p (Pure.pure a : Reader α) P := fun _ _ => ⟨a, rfl, h⟩

theorem bind (h : LooksAt p r P) (hf : ∀ a, P a → LooksAt p (f a) Q) : LooksAt p (r >>= f) Q := by
  intro s hp
  obtain ⟨a, hr, ha⟩ := h s hp
  obtain ⟨b, hb, hQ⟩ := hf a ha s hp
  refine ⟨b, ?_, hQ⟩
  simpa [Bind.bind, StateT.bind, hr] using hb

theorem token : LooksAt p Reader.token (· = p.1) := fun s hp => ⟨s.token, rfl, hp ▸ rfl⟩

theorem nextToken : LooksAt p Reader.nextToken (· = (nextPlace p).1) :=
  fun _ hp => ⟨_, rfl, hp ▸ rfl⟩

theorem isAt (x : Punct) : LooksAt p (Reader.isAt x) (· = p.1.isPunct x) :=
  token.bind fun _ ht => .pure (ht ▸ rfl)

theorem isAtWord (w : String) : LooksAt p (Reader.isAtWord w) (· = p.1.isWord w) :=
  token.bind fun _ ht => .pure (ht ▸ rfl)

end LooksAt

/-- From the place `p` on, mistakes are not forgotten. Where none is noted in the end, the reader
adds to the marks `seen` before, and its result accounts for all of them. -/
def AccountsAt {α : Type} (p : Token × List Char) (seen : List Mark) (r : Reader α)
    (marks : α → List Mark) : Prop :=
  ∀ s a s', s.place = p → r s = some (a, s') → s'.faulty = false →
    s.faulty = false ∧ (s.Noted → s'.Noted ∧
      ∀ s₀ : ReaderState, s₀.Reached seen s → s₀.Reached (marks a) s')

/-- The same from every place on. -/
def Accounts {α : Type} (seen : List Mark) (r : Reader α) (marks : α → List Mark) : Prop :=
  ∀ p, AccountsAt p seen r marks

namespace AccountsAt

variable {α β : Type} {p : Token × List Char} {seen : List Mark} {r r' : Reader α}
  {f : α → Reader β} {ms ms' : α → List Mark} {ns : β → List Mark} {m : Mark}

theorem pure {a : α} (h : ms a = seen) : AccountsAt p seen (Pure.pure a : Reader α) ms := by
  intro s b s' _ hrun hfaulty
  obtain ⟨rfl, rfl⟩ : a = b ∧ s = s' := Prod.mk.inj (Option.some.inj hrun)
  exact ⟨hfaulty, fun hs => ⟨hs, fun _ h₀ => h ▸ h₀⟩⟩

theorem fail : AccountsAt p seen (Reader.fail : Reader α) ms := fun _ _ _ _ hrun => nomatch hrun

/-- What the first reader accounts for is known only where no mistake is noted in the end, so that
the second one cannot rely on it. What it always gives can be relied on. -/
theorem andThenWith {P : α → Prop} (hP : GivesAt p r P) (h : AccountsAt p seen r ms)
    (hf : ∀ a, P a → Accounts (ms a) (f a) ns) : AccountsAt p seen (r >>= f) ns := by
  intro s b s' hp hrun hfaulty
  obtain ⟨⟨a, s₁⟩, hr, hrest⟩ : ∃ x, r s = some x ∧ f x.1 x.2 = some (b, s') := by
    simpa [Bind.bind, StateT.bind, Option.bind_eq_some_iff] using hrun
  obtain ⟨hclean₁, hkeeps₁⟩ := hf a (hP s a s₁ hp hr) s₁.place s₁ b s' rfl hrest hfaulty
  obtain ⟨hclean, hkeeps⟩ := h s a s₁ hp hr hclean₁
  refine ⟨hclean, fun hs => ?_⟩
  obtain ⟨hs₁, ha⟩ := hkeeps hs
  exact ⟨(hkeeps₁ hs₁).1, fun s₀ h₀ => (hkeeps₁ hs₁).2 s₀ (ha s₀ h₀)⟩

theorem andThen (h : AccountsAt p seen r ms) (hf : ∀ a, Accounts (ms a) (f a) ns) :
    AccountsAt p seen (r >>= f) ns :=
  andThenWith (P := fun _ => True) (fun _ _ _ _ _ => trivial) h fun a _ => hf a

theorem after (h : AccountsAt p [] r ms) : AccountsAt p seen r fun a => seen ++ ms a := by
  intro s a s' hp hrun hfaulty
  obtain ⟨hclean, hkeeps⟩ := h s a s' hp hrun hfaulty
  refine ⟨hclean, fun hs => ⟨(hkeeps hs).1, fun s₀ h₀ => ?_⟩⟩
  exact h₀.trans ((hkeeps hs).2 s (.refl s))

theorem bind (h : AccountsAt p [] r ms) (hf : ∀ a, Accounts (seen ++ ms a) (f a) ns) :
    AccountsAt p seen (r >>= f) ns :=
  h.after.andThen hf

theorem seq (h : AccountsAt p [] r fun _ => []) (hf : ∀ a, Accounts seen (f a) ns) :
    AccountsAt p seen (r >>= f) ns :=
  h.bind fun a => (List.append_nil seen).symm ▸ hf a

/-- What is spelled from this place on can be told otherwise. -/
theorem remark (h : AccountsAt p [] r ms)
    (hspells : ∀ a q, Spells p (settled (ms a)) q → Spells p (settled (ms' a)) q)
    (hcount : ∀ a, (ms' a).count .pending ≤ (ms a).count .pending) : AccountsAt p [] r ms' := by
  rintro s a s' rfl hrun hfaulty
  obtain ⟨hclean, hkeeps⟩ := h s a s' rfl hrun hfaulty
  refine ⟨hclean, fun hs => ⟨(hkeeps hs).1, fun s₀ h₀ => ?_⟩⟩
  have hreached := (hkeeps hs).2 s (.refl s)
  refine h₀.trans ⟨hspells a _ hreached.spells, ?_⟩
  exact Nat.le_trans (Nat.add_le_add_left (hcount a) _) hreached.count_le

theorem single (h : AccountsAt p [] r ms) (hm : m.repeats = true)
    (hspells : ∀ a q, Spells p (settled (ms a)) q → Spells p [m] q) :
    AccountsAt p [] r fun _ => [m] := by
  refine h.remark (fun a q hq => ?_) fun a => ?_
  · rw [settled_repeats hm]
    exact hspells a q hq
  · simp [ne_pending hm]

/-- Two readers are taken for one. -/
theorem regroup {γ : Type} {k : β → Reader γ} {ks : γ → List Mark}
    (h : AccountsAt p seen (r >>= f) ns) (hk : ∀ b, Accounts (ns b) (k b) ks) :
    AccountsAt p seen (r >>= fun a => f a >>= k) ks := by
  rw [← bind_assoc]
  exact h.andThen hk

/-- What was seen before can be told otherwise. -/
theorem recast (seen' : List Mark) (h : AccountsAt p seen' r ms)
    (hspells : ∀ p q, Spells p (settled seen) q → Spells p (settled seen') q)
    (hcount : seen'.count .pending ≤ seen.count .pending) : AccountsAt p seen r ms := by
  intro s a s' hp hrun hfaulty
  obtain ⟨hclean, hkeeps⟩ := h s a s' hp hrun hfaulty
  refine ⟨hclean, fun hs => ⟨(hkeeps hs).1, fun s₀ h₀ => (hkeeps hs).2 s₀ ?_⟩⟩
  exact ⟨hspells _ _ h₀.spells,
    Nat.le_trans (Nat.add_le_add_left hcount _) h₀.count_le⟩

theorem absentBefore (xs : List Mark) (hall : xs.all Mark.repeats = true)
    (h : AccountsAt p (xs ++ seen) r ms) : AccountsAt p seen r ms := by
  have hxs := List.all_eq_true.mp hall
  refine h.recast _ (fun p q hq => ?_) ?_
  · rw [settled_append, settled_absents hxs]
    exact (Spells.absents hxs).trans hq
  · exact Nat.le_of_eq (by rw [List.count_append, count_pending_absents hxs, Nat.zero_add])

theorem absent (xs : List Mark) (hall : xs.all Mark.repeats = true)
    (h : AccountsAt p (seen ++ xs) r ms) : AccountsAt p seen r ms := by
  have hxs := List.all_eq_true.mp hall
  refine h.recast _ (fun p q hq => ?_) ?_
  · rw [settled_append, settled_absents hxs]
    exact hq.trans (Spells.absents hxs)
  · exact Nat.le_of_eq (by rw [List.count_append, count_pending_absents hxs, Nat.add_zero])

theorem within (hm : m.repeats = true) (h : AccountsAt p [] r fun _ => [m]) :
    AccountsAt p [m] r fun _ => [m] := by
  intro s a s' hp hrun hfaulty
  obtain ⟨hclean, hkeeps⟩ := h s a s' hp hrun hfaulty
  refine ⟨hclean, fun hs => ⟨(hkeeps hs).1, fun s₀ h₀ => ?_⟩⟩
  have hreached := (hkeeps hs).2 s (.refl s)
  refine ⟨?_, Nat.le_trans h₀.count_le ?_⟩
  · have hfirst := h₀.spells
    have hsecond := hreached.spells
    rw [settled_repeats hm] at hfirst hsecond ⊢
    exact hfirst.again hm hsecond
  · exact Nat.le_trans (Nat.le_add_right _ _) hreached.count_le

theorem drop (h : AccountsAt p [] r ms) : AccountsAt p [.dropped] r fun _ => [.dropped] :=
  .within rfl (h.single rfl fun _ _ hq => .dropped hq)

theorem ite [Decidable c] (h : c → AccountsAt p seen r ms) (h' : ¬c → AccountsAt p seen r' ms) :
    AccountsAt p seen (if c then r else r') ms := by
  by_cases hc : c
  · rw [if_pos hc]
    exact h hc
  · rw [if_neg hc]
    exact h' hc

/-! ### Looking -/

theorem look {P : α → Prop} (hr : LooksAt p r P) (hf : ∀ a, P a → AccountsAt p seen (f a) ns) :
    AccountsAt p seen (r >>= f) ns := by
  intro s b s' hp hrun hfaulty
  obtain ⟨a, hr, ha⟩ := hr s hp
  have hrest : f a s = some (b, s') := by
    simpa [Bind.bind, StateT.bind, hr] using hrun
  exact hf a ha s b s' hp hrest hfaulty

theorem token {f : Token → Reader β} (h : AccountsAt p seen (f p.1) ns) :
    AccountsAt p seen (Reader.token >>= f) ns := look .token fun _ ha => ha ▸ h

theorem isAt {f : Bool → Reader β} (h : AccountsAt p seen (f (p.1.isPunct x)) ns) :
    AccountsAt p seen (Reader.isAt x >>= f) ns := look (.isAt x) fun _ ha => ha ▸ h

theorem isAtWord {f : Bool → Reader β} (h : AccountsAt p seen (f (p.1.isWord w)) ns) :
    AccountsAt p seen (Reader.isAtWord w >>= f) ns := look (.isAtWord w) fun _ ha => ha ▸ h

theorem nextToken {f : Token → Reader β} (h : AccountsAt p seen (f (nextPlace p).1) ns) :
    AccountsAt p seen (Reader.nextToken >>= f) ns := look .nextToken fun _ ha => ha ▸ h

theorem complainIf {c : Bool} {f : Unit → Reader β} (h : AccountsAt p seen (f ()) ns) :
    AccountsAt p seen (Reader.complainIf c >>= f) ns := by
  cases c with
  | false => exact h
  | true =>
    intro s b s' hp hrun hfaulty
    exact absurd (h { s with faulty := true } b s' hp hrun hfaulty).1 (by simp)

/-- Where no mistake is noted in the end, there was none here. -/
theorem faultless {c : Bool} {f : Unit → Reader β} {seen' : List Mark} {ns' : β → List Mark}
    (h' : AccountsAt p seen' (f ()) ns') (h : c = false → AccountsAt p seen (f ()) ns) :
    AccountsAt p seen (Reader.complainIf c >>= f) ns := by
  cases c with
  | false => exact h rfl
  | true =>
    intro s b s' hp hrun hfaulty
    exact absurd (h' { s with faulty := true } b s' hp hrun hfaulty).1 (by simp)

theorem justified {n : Nat} {seen' : List Mark} {f : PUnit → Reader β} (hn : Justifies n seen seen')
    (h : AccountsAt p seen' (f ⟨⟩) ns) : AccountsAt p seen
      ((modify fun s : ReaderState => { s with openDefaults := s.openDefaults - n }) >>= f) ns := by
  intro s b s' hp hrun hfaulty
  obtain ⟨hclean, hkeeps⟩ := h { s with openDefaults := s.openDefaults - n } b s' hp hrun hfaulty
  refine ⟨hclean, fun hs => ⟨(hkeeps hs).1, fun s₀ h₀ => (hkeeps hs).2 s₀ ?_⟩⟩
  refine ⟨hn.settled_eq ▸ h₀.spells, ?_⟩
  have hle := h₀.count_le
  have heq := hn.count_eq
  dsimp only
  omega

/-! ### Passing tokens -/

/-- The token is passed, which leads to the place `q`. -/
theorem passed {s s' : ReaderState} {q : Token × List Char} {xs : List Mark} (hplace : s'.place = q)
    (hnoted : s'.faulty = (s.faulty || q.1.flawed)) (hopen : s'.openDefaults = s.openDefaults)
    (hfaulty : s'.faulty = false) (hpending : xs.count .pending = 0)
    (hspells : s.token.flawed = false → Spells s.place (settled xs) q) :
    s.faulty = false ∧ (s.Noted → s'.Noted ∧
      ∀ s₀ : ReaderState, s₀.Reached [] s → s₀.Reached xs s') := by
  subst hplace
  obtain ⟨hclean, hflawed⟩ : s.faulty = false ∧ s'.place.1.flawed = false := by
    rwa [hnoted, Bool.or_eq_false_iff] at hfaulty
  refine ⟨hclean, fun hs => ⟨fun h => ?_, fun s₀ h₀ => h₀.trans ⟨hspells ?_, ?_⟩⟩⟩
  · exact absurd (hflawed.symm.trans h) Bool.false_ne_true
  · cases htok : s.token.flawed with
    | false => rfl
    | true => exact absurd (hclean.symm.trans (hs htok)) Bool.false_ne_true
  · rw [hpending, hopen]
    exact Nat.le_refl _

theorem advance (hspells : p.1.flawed = false → Spells p [m] (nextPlace p))
    (hpending : m ≠ .pending) : AccountsAt p [] Reader.advance fun _ => [m] := by
  rintro s a s' rfl hrun hfaulty
  obtain rfl := congrArg Prod.snd (Option.some.inj hrun)
  have hsettled : settled [m] = [m] := by simp [settled, hpending]
  exact passed (q := nextPlace s.place) rfl rfl rfl hfaulty (by simp [hpending]) fun hflawed =>
    hsettled.symm ▸ hspells hflawed

theorem advanceSilent (hspells : Spells p [] (nextPlace p)) :
    AccountsAt p [] Reader.advance fun _ => [] := by
  rintro s a s' rfl hrun hfaulty
  obtain rfl := congrArg Prod.snd (Option.some.inj hrun)
  exact passed rfl rfl rfl hfaulty rfl fun _ => hspells

theorem silent (h : p.1.isIdentifier = false) : AccountsAt p [] Reader.advance fun _ => [] :=
  .advanceSilent (.silent h)

theorem passWord {ms : Unit → List Mark} (h : AccountsAt p [] Reader.advance ms) :
    AccountsAt p [] Reader.passWord ms := .token (.complainIf h)

theorem accepting {f : Bool → Reader β}
    (h : p.1.isPunct x = true → AccountsAt p seen (Reader.advance >>= fun _ => f true) ns)
    (h' : AccountsAt p seen (f false) ns) : AccountsAt p seen (Reader.accept x >>= f) ns := by
  rw [Reader.accept, bind_assoc]
  refine .isAt ?_
  cases hx : p.1.isPunct x with
  | true => simpa using h hx
  | false => simpa using h'

theorem expecting {f : Unit → Reader β}
    (h : p.1.isPunct x = true → AccountsAt p seen (Reader.advance >>= f) ns) :
    AccountsAt p seen (Reader.expect x >>= f) ns := by
  rw [Reader.expect, bind_assoc]
  refine .isAt ?_
  cases hx : p.1.isPunct x with
  | true => simpa using h hx
  | false => exact fun _ _ _ _ hrun => nomatch hrun

theorem aside {r : Reader α} (hp : p.1.isIdentifier = false) (h : Accounts [] r ms)
    (hm : m.repeats = true) (hspells : ∀ a q, Spells p (settled (ms a)) q → Spells p [m] q)
    (hf : ∀ a, Accounts (seen ++ [m]) (f a) ns) :
    AccountsAt p seen (Reader.advance >>= fun _ => r >>= f) ns := by
  have hread : AccountsAt p [] (Reader.advance >>= fun _ => r) ms := (silent hp).seq fun _ => h
  exact (hread.single hm hspells).after.regroup hf

theorem advance_isAt {f : Bool → Reader β}
    (h : AccountsAt p seen (Reader.advance >>= fun _ => f ((nextPlace p).1.isPunct x)) ns) :
    AccountsAt p seen (Reader.advance >>= fun _ => Reader.isAt x >>= f) ns := by
  rintro s b s' rfl hrun hfaulty
  exact h s b s' rfl hrun hfaulty

theorem reserved (h : p.1.isWord w = true) (hw : isReserved w = true) :
    AccountsAt p [] Reader.passWord fun _ => [] :=
  .passWord (.silent (Token.isIdentifier_of_isWord h hw))

theorem keyword (allowed : List String) (h : p.1.isWord w = true) (hw : w ∈ allowed) :
    AccountsAt p [] Reader.passWord fun _ => [.words allowed] :=
  .passWord (.advance (fun _ => .word (Token.word?_of_isWord h) hw) (by simp))

theorem specifier (h : p.1.isWord w = true) :
    AccountsAt p [] Reader.passWord fun _ => [.specifiers] :=
  .passWord (.advance (fun _ => .specifier (by rw [Token.word?_of_isWord h]; rfl)) (by simp))

end AccountsAt

/-! ## Readers anywhere -/

namespace Accounts

variable {α β : Type} {seen seen' : List Mark} {r r' : Reader α} {f : α → Reader β}
  {ms : α → List Mark} {ns : β → List Mark} {m : Mark}

theorem pure {a : α} (h : ms a = seen) : Accounts seen (Pure.pure a : Reader α) ms :=
  fun _ => .pure h

theorem fail : Accounts seen (Reader.fail : Reader α) ms := fun _ => .fail

theorem fail_bind : Accounts seen ((Reader.fail : Reader α) >>= f) ns :=
  fun _ _ _ _ _ hrun => nomatch hrun

theorem andThen (h : Accounts seen r ms) (hf : ∀ a, Accounts (ms a) (f a) ns) :
    Accounts seen (r >>= f) ns := fun p => (h p).andThen hf

theorem bind (h : Accounts [] r ms) (hf : ∀ a, Accounts (seen ++ ms a) (f a) ns) :
    Accounts seen (r >>= f) ns := fun p => (h p).bind hf

theorem seq (h : Accounts [] r fun _ => []) (hf : ∀ a, Accounts seen (f a) ns) :
    Accounts seen (r >>= f) ns := fun p => (h p).seq hf

theorem recast (seen' : List Mark) (h : Accounts seen' r ms)
    (hspells : ∀ p q, Spells p (settled seen) q → Spells p (settled seen') q)
    (hcount : seen'.count .pending ≤ seen.count .pending) : Accounts seen r ms :=
  fun p => (h p).recast seen' hspells hcount

theorem absentBefore (xs : List Mark) (hall : xs.all Mark.repeats = true)
    (h : Accounts (xs ++ seen) r ms) : Accounts seen r ms :=
  fun p => (h p).absentBefore xs hall

theorem absent (xs : List Mark) (hall : xs.all Mark.repeats = true)
    (h : Accounts (seen ++ xs) r ms) : Accounts seen r ms :=
  fun p => (h p).absent xs hall

/-- Whether the mark is written or not, it may stand for what is read. -/
theorem perhaps {r : Reader Bool} (hm : m.repeats = true)
    (h : Accounts [] r fun b => if b then [m] else []) : Accounts [] r fun _ => [m] := by
  rw [← bind_pure r]
  refine h.andThen fun b => ?_
  cases b with
  | false => exact .absent [m] (by simpa using hm) (.pure rfl)
  | true => exact .pure rfl

theorem of_eq (h : Accounts seen' r ms) (heq : seen' = seen) : Accounts seen r ms := heq ▸ h

theorem map {g : α → β} (h : Accounts seen r ms) (hg : ∀ a, ns (g a) = ms a) :
    Accounts seen (g <$> r) ns := by
  rw [← bind_pure_comp]
  exact h.andThen fun a => .pure (hg a)

theorem ite [Decidable c] (h : Accounts seen r ms) (h' : Accounts seen r' ms) :
    Accounts seen (if c then r else r') ms := fun p => .ite (fun _ => h p) fun _ => h' p

theorem within (hm : m.repeats = true) (h : Accounts [] r fun _ => [m]) :
    Accounts [m] r fun _ => [m] := fun p => .within hm (h p)

theorem silently (h : Accounts [] r fun _ => []) : Accounts seen r fun _ => seen := by
  intro p
  have hafter : AccountsAt p seen r fun _ => seen ++ [] := (h p).after
  rwa [List.append_nil] at hafter

/-! ### Looking and noting -/

theorem look (h : ∀ s, ∃ a, r s = some (a, s)) : Accounts [] r fun _ => [] := by
  intro _ s a s' _ hrun hfaulty
  obtain ⟨b, hb⟩ := h s
  obtain ⟨-, rfl⟩ : b = a ∧ s = s' := by simpa [hb] using hrun
  exact ⟨hfaulty, fun hs => ⟨hs, fun _ => id⟩⟩

theorem token : Accounts [] Reader.token fun _ => [] := .look fun s => ⟨s.token, rfl⟩

theorem nextToken : Accounts [] Reader.nextToken fun _ => [] :=
  .look fun s => ⟨(nextTokenOf s.token.stop s.rest).1, rfl⟩

theorem isAt (x : Punct) : Accounts [] (Reader.isAt x) fun _ => [] :=
  .look fun s => ⟨s.token.isPunct x, rfl⟩

theorem isAtWord (w : String) : Accounts [] (Reader.isAtWord w) fun _ => [] :=
  .look fun s => ⟨s.token.isWord w, rfl⟩

theorem peek (r : Reader α) : Accounts [] (Reader.peek r) fun _ => [] :=
  .look fun s => ⟨(r s).map Prod.fst, rfl⟩

theorem attempt (h : Accounts [] r ms) :
    Accounts [] (Reader.attempt r) fun x => x.toList.flatMap ms := by
  intro p s x s' hp hrun hfaulty
  cases hr : r s with
  | none =>
    obtain ⟨rfl, rfl⟩ : none = x ∧ s = s' := by simpa [Reader.attempt, hr] using hrun
    exact ⟨hfaulty, fun hs => ⟨hs, fun _ => id⟩⟩
  | some y =>
    obtain ⟨rfl, rfl⟩ : some y.1 = x ∧ y.2 = s' := by simpa [Reader.attempt, hr] using hrun
    simpa using h p s y.1 y.2 hp hr hfaulty

theorem complain : Accounts [] Reader.complain fun _ => [] := by
  intro _ s a s' _ hrun hfaulty
  obtain rfl : { s with faulty := true } = s' := congrArg Prod.snd (Option.some.inj hrun)
  cases hfaulty

theorem complainIf (mistake : Bool) : Accounts [] (Reader.complainIf mistake) fun _ => [] := by
  cases mistake with
  | true => exact complain
  | false => exact .pure rfl

theorem opened : Accounts [] (modify fun s : ReaderState =>
    { s with openDefaults := s.openDefaults + 1 }) fun _ => [.pending] := by
  intro _ s a s' _ hrun hfaulty
  obtain rfl : { s with openDefaults := s.openDefaults + 1 } = s' :=
    congrArg Prod.snd (Option.some.inj hrun)
  exact ⟨hfaulty, fun hs => ⟨hs, fun s₀ h₀ => ⟨h₀.spells, Nat.succ_le_succ h₀.count_le⟩⟩⟩

/-! ### Passing tokens -/

theorem accept (x : Punct) : Accounts [] (Reader.accept x) fun _ => [] :=
  fun _ => .isAt (.ite
    (fun h => .seq (.silent (Token.isIdentifier_of_isPunct h)) fun _ => .pure rfl)
    fun _ => .pure rfl)

theorem expect (x : Punct) : Accounts [] (Reader.expect x) fun _ => [] :=
  fun _ => .isAt (.ite (fun h => .silent (Token.isIdentifier_of_isPunct h)) fun _ => .fail)

theorem acceptReserved (hw : isReserved w = true) : Accounts [] (Reader.acceptWord w) fun _ => [] :=
  fun _ => .isAtWord (.ite (fun h => .seq (.reserved h hw) fun _ => .pure rfl) fun _ => .pure rfl)

theorem expectReserved (hw : isReserved w = true) : Accounts [] (Reader.expectWord w) fun _ => [] :=
  fun _ => .isAtWord (.ite (fun h => .reserved h hw) fun _ => .fail)

theorem acceptWord (allowed : List String) (hw : w ∈ allowed) :
    Accounts [] (Reader.acceptWord w) fun b => if b then [.words allowed] else [] :=
  fun _ => .isAtWord (.ite (fun h => .bind (.keyword allowed h hw) fun _ => .pure rfl)
    fun _ => .pure rfl)

theorem expectWord (allowed : List String) (hw : w ∈ allowed) :
    Accounts [] (Reader.expectWord w) fun _ => [.words allowed] :=
  fun _ => .isAtWord (.ite (fun h => .keyword allowed h hw) fun _ => .fail)

theorem anyWord : Accounts [] Reader.anyWord fun _ => [.specifiers] := by
  refine fun p => .token ?_
  split
  · rename_i name hname
    exact .bind (.advance (fun _ => .specifier (by rw [hname]; rfl)) (by simp)) fun _ => .pure rfl
  · exact .fail

theorem stringLiteral : Accounts [] Reader.stringLiteral fun _ => [] := by
  refine fun p => .token ?_
  split
  · rename_i hlexeme
    exact .seq (.silent (by simp [Token.isIdentifier, hlexeme])) fun _ => .pure rfl
  · exact .fail

theorem endStatement : Accounts [] Reader.endStatement fun _ => [] :=
  fun _ => .token (.ite (fun h => .silent (Token.isIdentifier_of_isPunct h)) fun _ =>
    .ite (fun _ => .pure rfl) fun _ => .fail)

/-! ### Lists -/

theorem commaList (close : Punct) (h : Accounts [] r ms) :
    ∀ n, Accounts [] (Reader.commaList close r n) fun x => x.1.flatMap ms
  | 0 => .fail
  | n + 1 => by
    refine .seq (.isAt close) fun _ => .ite (.pure rfl) (.bind h fun a => ?_)
    refine .seq (.isAt close) fun _ => .ite (.pure (by simp)) (.seq (.expect .comma) fun _ => ?_)
    refine .seq (.isAt close) fun _ => .ite (.pure (by simp)) ?_
    exact .bind (commaList close h n) fun _ => .pure (by simp)

theorem commaItems (h : Accounts [] r ms) :
    ∀ n, Accounts [] (Reader.commaItems r n) fun as => as.flatMap ms
  | 0 => .fail
  | n + 1 => by
    refine .bind h fun a => .seq (.accept .comma) fun _ => .ite ?_ (.pure (by simp))
    exact .bind (commaItems h n) fun _ => .pure (by simp)

theorem itemsUntil (stop : Token → Bool) (h : Accounts [] r ms) :
    ∀ n, Accounts [] (Reader.itemsUntil stop r n) fun as => as.flatMap ms
  | 0 => .fail
  | n + 1 => by
    refine .seq .token fun _ => .ite (.pure rfl) (.bind h fun a => ?_)
    exact .bind (itemsUntil stop h n) fun _ => .pure (by simp)

end Accounts

/-! ## Readers within a mark -/

/-- The reader reads nothing but what the mark stands for. -/
def Keeps {α : Type} (m : Mark) (r : Reader α) : Prop := Accounts [m] r fun _ => [m]

namespace Keeps

variable {α β : Type} {m : Mark} {r r' : Reader α} {f : α → Reader β}

theorem alone (h : Keeps m r) (hm : m.repeats = true) : Accounts [] r fun _ => [m] :=
  .absent [m] (by simpa using hm) h

theorem silently (h : Accounts [] r fun _ => []) : Keeps m r := Accounts.silently h

theorem drop {ms : α → List Mark} (h : Accounts [] r ms) : Keeps .dropped r := fun p => (h p).drop

theorem pure {a : α} : Keeps m (Pure.pure a : Reader α) := Accounts.pure rfl

theorem fail : Keeps m (Reader.fail : Reader α) := Accounts.fail

theorem bind (h : Keeps m r) (hf : ∀ a, Keeps m (f a)) : Keeps m (r >>= f) := Accounts.andThen h hf

theorem ite [Decidable c] (h : Keeps m r) (h' : Keeps m r') :
    Keeps m (if c then r else r') := Accounts.ite h h'

theorem commaList (close : Punct) (h : Keeps m r) : ∀ n, Keeps m (Reader.commaList close r n)
  | 0 => .fail
  | n + 1 => by
    refine .bind (.silently (.isAt close)) fun _ => .ite .pure (.bind h fun a => ?_)
    refine .bind (.silently (.isAt close)) fun _ => .ite .pure
      (.bind (.silently (.expect .comma)) fun _ => ?_)
    refine .bind (.silently (.isAt close)) fun _ => .ite .pure ?_
    exact .bind (commaList close h n) fun _ => .pure

theorem commaItems (h : Keeps m r) : ∀ n, Keeps m (Reader.commaItems r n)
  | 0 => .fail
  | n + 1 => .bind h fun _ => .bind (.silently (.accept .comma)) fun _ =>
    .ite (.bind (commaItems h n) fun _ => .pure) .pure

theorem itemsUntil (stop : Token → Bool) (h : Keeps m r) :
    ∀ n, Keeps m (Reader.itemsUntil stop r n)
  | 0 => .fail
  | n + 1 => .bind (.silently .token) fun _ => .ite .pure
      (.bind h fun _ => .bind (itemsUntil stop h n) fun _ => .pure)

end Keeps

end TemplateCompiler.Script
