import TemplateCompiler.Proofs.Script.Branching
import TemplateCompiler.Proofs.Script.Statements

/-! # Where identifiers are written

The identifiers of a script stand in its text at the bytes they say, one after the other.
-/

namespace TemplateCompiler.Script

/-! ## What is passed -/

/-- From byte `n` to byte `n'`, the text `cs` is passed up to `rest`. -/
def Passes (cs rest : List Char) (n n' : Nat) : Prop :=
  ∃ gap, cs = gap ++ rest ∧ n' = n + utf8Length gap

theorem Passes.refl (cs : List Char) (n : Nat) : Passes cs cs n n := ⟨[], rfl, rfl⟩

theorem Passes.cons {c : Char} {cs rest : List Char} {n n' : Nat}
    (h : Passes cs rest (n + c.utf8Size) n') : Passes (c :: cs) rest n n' := by
  obtain ⟨gap, rfl, rfl⟩ := h
  exact ⟨c :: gap, rfl, by simp [Nat.add_assoc]⟩

theorem passes_of_skipGap {mode : Gap} {cs rest : List Char} {n n' : Nat} {nl nl' : Bool}
    (h : skipGap mode cs n nl = some (n', nl', rest)) : Passes cs rest n n' := by
  fun_induction skipGap mode cs n nl with
  | case1 n nl cs ih => exact .cons (.cons (ih h))
  | case2 n nl cs ih => exact .cons (.cons (ih h))
  | case3 _ _ _ _ _ _ _ ih => exact .cons (ih h)
  | case4 _ _ _ _ _ _ _ _ ih => exact .cons (ih h)
  | case5 =>
    obtain ⟨rfl, -, rfl⟩ : _ ∧ _ ∧ _ := by simpa using h
    exact .refl _ _
  | case6 _ _ _ _ _ ih => exact .cons (ih h)
  | case7 _ _ _ _ _ ih => exact .cons (ih h)
  | case8 n nl cs ih => exact .cons (.cons (ih h))
  | case9 _ _ _ _ _ ih => exact .cons (ih h)
  | case10 => cases h
  | case11 =>
    obtain ⟨rfl, -, rfl⟩ : _ ∧ _ ∧ _ := by simpa using h
    exact .refl _ _

theorem regexBody?_suffix {inClass escaped : Bool} {cs rest : List Char}
    (h : regexBody? inClass escaped cs = some rest) : rest <:+ cs := by
  fun_induction regexBody? inClass escaped cs <;> grind [suffix_cons_of_suffix, List.suffix_cons]

theorem regex?_suffix {cs rest : List Char} (h : regex? cs = some rest) : rest <:+ cs := by
  obtain ⟨after, hbody, h⟩ := Option.bind_eq_some_iff.mp h
  obtain ⟨-, heq⟩ := Option.ite_none_right_eq_some.mp h
  rw [← Option.some.inj heq]
  exact (List.drop_suffix _ _).trans (regexBody?_suffix hbody)

/-! ## Tokens -/

/-- What is known of the text of a token: names have one, and slashes are written as they are. -/
structure Spelled (lexeme : Lexeme) (word : List Char) : Prop where
  name : ∀ text escaped, lexeme = .name text escaped → word ≠ []
  slash : lexeme = .punct .slash → word = ['/']
  slashAssign : lexeme = .punct .slashAssign → word = ['/', '=']

theorem spelled_of_scan {offset : Nat} {cs word : List Char}
    (h : cs = word ++ (scan offset cs).2.2) : Spelled (scan offset cs).1 word := by
  cases cs with
  | nil => exact ⟨nofun, nofun, nofun⟩
  | cons c cs =>
    have hslash (q : Punct) (hq : q = .slash ∨ q = .slashAssign)
        (hlexeme : (scan offset (c :: cs)).1 = .punct q) : ∃ x ∈ punctuators, x.2 = q ∧ word = x.1 := by
      obtain rfl : c = '/' := eq_slash_of_lexemeAt (hlexeme ▸ lexemeAt offset c cs) hq
      rw [scan_punct (by decide) (by simp [beginsNumber])] at hlexeme h
      cases hpunct : punct? ('/' :: cs) with
      | none => simp [hpunct, scanOther] at hlexeme
      | some y =>
        obtain ⟨x, hx, hy, ⟨after, hspelling⟩, hrest⟩ := spelling_of_punct? hpunct
        have hq : y.1 = .punct q := by simpa [hpunct, scanOther] using hlexeme
        refine ⟨x, hx, Lexeme.punct.inj (hy.symm.trans hq), ?_⟩
        have hafter : y.2 = after := by rw [hrest, ← hspelling, List.drop_left]
        have hword : x.1 ++ after = word ++ after := by
          rw [hspelling, ← hafter]
          simpa [hpunct, scanOther] using h
        exact (List.append_cancel_right hword).symm
    refine ⟨fun text escaped _ hword => ?_, fun hlexeme => ?_, fun hlexeme => ?_⟩
    · subst hword
      have hlength := scan_length offset c cs
      rw [← List.nil_append (scan offset (c :: cs)).2.2, ← h] at hlength
      exact Nat.lt_irrefl _ hlength
    · obtain ⟨x, hx, hq, rfl⟩ := hslash .slash (.inl rfl) hlexeme
      exact (show ∀ x ∈ punctuators, x.2 = .slash → x.1 = ['/'] by decide) x hx hq
    · obtain ⟨x, hx, hq, rfl⟩ := hslash .slashAssign (.inr rfl) hlexeme
      exact (show ∀ x ∈ punctuators, x.2 = .slashAssign → x.1 = ['/', '='] by decide) x hx hq

/-- The token stands in the text at the bytes it says. What follows it is what is left to read, unless
reading has given up. -/
def Located (text : List Char) (p : Token × List Char) : Prop :=
  ∃ before word after, text = before ++ (word ++ after) ∧ utf8Length before = p.1.start ∧
    utf8Length (before ++ word) = p.1.stop ∧ (p.2 = after ∨ p.2 = []) ∧ Spelled p.1.lexeme word

theorem located_nextTokenOf (before rest : List Char) :
    Located (before ++ rest) (nextTokenOf (utf8Length before) rest) := by
  unfold nextTokenOf
  split
  · exact ⟨before, [], rest, rfl, rfl, by simp, .inr rfl, nofun, nofun, nofun⟩
  · rename_i start nl cs hgap
    obtain ⟨gap, rfl, rfl⟩ := passes_of_skipGap hgap
    obtain ⟨word, hword⟩ : (scan (utf8Length before + utf8Length gap) cs).2.2 <:+ cs := by
      cases cs with
      | nil => exact List.nil_suffix
      | cons c cs => exact (scan_suffix _ c cs).trans (List.suffix_cons _ _)
    refine ⟨before ++ gap, word, _, by simp [hword], by simp, ?_, .inl rfl,
      spelled_of_scan hword.symm⟩
    have hbytes := bytesRead_append_right word (scan (utf8Length before + utf8Length gap) cs).2.2
    rw [hword] at hbytes
    simp [hbytes, Nat.add_assoc]

section Located

variable {text : List Char} {t : Token} {rest after : List Char}

theorem Located.next (h : Located text (t, rest)) : Located text (nextTokenOf t.stop rest) := by
  obtain ⟨before, word, more, rfl, -, hstop, hrest, -⟩ := h
  rw [← List.append_assoc, ← hstop]
  obtain rfl | rfl := hrest
  · exact located_nextTokenOf _ _
  · exact ⟨before ++ word, [], more, by simp, rfl, by simp [nextTokenOf, skipGap, scan, bytesRead],
      .inr rfl, nofun, nofun, nofun⟩

theorem Located.resumed {lexeme : Lexeme} (h : Located text (t, rest))
    (htext : template? rest = some (lexeme, after)) :
    Located text ({ t with lexeme, stop := t.stop + bytesRead rest after }, after) := by
  obtain ⟨before, word, more, rfl, hstart, hstop, hrest, -⟩ := h
  obtain rfl | rfl := hrest
  · obtain ⟨piece, rfl⟩ := template?_suffix htext
    obtain ⟨x, -, heq⟩ := Option.bind_eq_some_iff.mp htext
    obtain ⟨rfl, -⟩ := Prod.mk.inj (Option.some.inj heq)
    refine ⟨before, word ++ piece, after, by simp, hstart, ?_, .inl rfl, nofun, nofun, nofun⟩
    simp only [bytesRead_append_right, utf8Length_append] at hstop ⊢
    omega
  · cases htext

theorem Located.regex (h : Located text (t, rest))
    (hslash : t.isPunct .slash = true ∨ t.isPunct .slashAssign = true)
    (htext : regex? (regexText t rest) = some after) :
    Located text (nextTokenOf (t.start + 1 + bytesRead (regexText t rest) after) after) := by
  obtain ⟨before, word, more, rfl, hstart, -, hrest, hspelled⟩ := h
  dsimp only at hstart
  obtain rfl : rest = more := by
    refine hrest.resolve_right ?_
    rintro rfl
    unfold regexText at htext
    split at htext <;> cases htext
  have hword : word ++ rest = '/' :: regexText t rest := by
    obtain hslash | hslash := hslash
    · have hlexeme : t.lexeme = .punct .slash := by simpa [Token.isPunct] using hslash
      simp [hspelled.slash hlexeme, regexText, Token.isPunct, hlexeme]
    · have hlexeme : t.lexeme = .punct .slashAssign := by simpa [Token.isPunct] using hslash
      simp [hspelled.slashAssign hlexeme, regexText, Token.isPunct, hlexeme]
  obtain ⟨body, hbody⟩ := regex?_suffix htext
  have hbytes : t.start + 1 + bytesRead (regexText t rest) after =
      utf8Length (before ++ '/' :: body) := by
    have hslash : Char.utf8Size '/' = 1 := by decide
    rw [← hbody, bytesRead_append_right, utf8Length_append, utf8Length_cons, hstart, hslash]
    omega
  rw [hword, hbytes, ← hbody, ← List.cons_append, ← List.append_assoc]
  exact located_nextTokenOf _ _

end Located

/-! ## Identifiers -/

/-- The identifier is written in the text at the bytes it says. -/
def Placed (text : List Char) (id : Ident) : Prop :=
  ∃ before word after, text = before ++ (word ++ after) ∧ word ≠ [] ∧
    utf8Length before = id.start ∧ utf8Length (before ++ word) = id.stop

/-- The identifiers are written one after the other between two bytes of the text. -/
structure Laid (text : List Char) (lo : Nat) (ids : List Ident) (hi : Nat) : Prop where
  le : lo ≤ hi
  within : ∀ x ∈ ids, lo ≤ x.start ∧ x.stop ≤ hi
  placed : ∀ x ∈ ids, Placed text x
  ordered : ids.Pairwise fun x y => x.stop ≤ y.start

namespace Laid

variable {text : List Char} {lo mid hi : Nat} {xs ys : List Ident}

theorem nil (h : lo ≤ hi) : Laid text lo [] hi := ⟨h, by simp, by simp, .nil⟩

theorem append (hxs : Laid text lo xs mid) (hys : Laid text mid ys hi) :
    Laid text lo (xs ++ ys) hi where
  le := Nat.le_trans hxs.le hys.le
  within x hx := by
    have := hxs.le
    have := hys.le
    rcases List.mem_append.mp hx with hx | hx
    · have := hxs.within x hx
      omega
    · have := hys.within x hx
      omega
  placed x hx := (List.mem_append.mp hx).elim (hxs.placed x) (hys.placed x)
  ordered := List.pairwise_append.mpr ⟨hxs.ordered, hys.ordered, fun x hx y hy =>
    Nat.le_trans (hxs.within x hx).2 (hys.within y hy).1⟩

theorem sublist (hxs : Laid text lo xs hi) (h : ys.Sublist xs) : Laid text lo ys hi :=
  ⟨hxs.le, fun y hy => hxs.within y (h.subset hy), fun y hy => hxs.placed y (h.subset hy),
    hxs.ordered.sublist h⟩

end Laid

theorem Placed.start_lt_stop {text : List Char} {id : Ident} (h : Placed text id) :
    id.start < id.stop := by
  obtain ⟨before, word, after, -, hword, hstart, hstop⟩ := h
  obtain ⟨c, cs, rfl⟩ := List.exists_cons_of_ne_nil hword
  have := c.utf8Size_pos
  simp only [utf8Length_append, utf8Length_cons] at hstop
  omega

/-- Reading goes forward in the text and lays the identifiers there. -/
def Forward (text : List Char) (p : Token × List Char) (ids : List Ident) (q : Token × List Char) :
    Prop :=
  Located text p → Located text q ∧ Laid text p.1.start ids q.1.start

namespace Forward

variable {text : List Char} {p q r : Token × List Char} {ids ids' : List Ident} {t : Token}
  {rest : List Char}

theorem refl (p : Token × List Char) : Forward text p [] p :=
  fun h => ⟨h, .nil (Nat.le_refl _)⟩

theorem trans (hxs : Forward text p ids q) (hys : Forward text q ids' r) :
    Forward text p (ids ++ ids') r :=
  fun h => ⟨(hys (hxs h).1).1, (hxs h).2.append (hys (hxs h).1).2⟩

theorem fewer (hxs : Forward text p ids q) (hsub : ids'.Sublist ids) : Forward text p ids' q :=
  fun h => ⟨(hxs h).1, (hxs h).2.sublist hsub⟩

theorem next (t : Token) (rest : List Char) :
    Forward text (t, rest) [] (nextTokenOf t.stop rest) := by
  intro h
  refine ⟨h.next, .nil (Nat.le_trans ?_ (nextTokenOf_start t.stop rest))⟩
  obtain ⟨before, word, after, -, hstart, hstop, -⟩ := h
  simp only [utf8Length_append] at hstart hstop ⊢
  omega

theorem resumed {lexeme : Lexeme} {after : List Char} (htext : template? rest = some (lexeme, after)) :
    Forward text (t, rest) []
      ({ t with lexeme, stop := t.stop + bytesRead rest after }, after) :=
  fun h => ⟨h.resumed htext, .nil (Nat.le_refl _)⟩

theorem regex {after : List Char} (hslash : t.isPunct .slash = true ∨ t.isPunct .slashAssign = true)
    (htext : regex? (regexText t rest) = some after) :
    Forward text (t, rest) []
      (nextTokenOf (t.start + 1 + bytesRead (regexText t rest) after) after) := by
  intro h
  refine ⟨h.regex hslash htext, .nil (Nat.le_trans ?_ (nextTokenOf_start _ after))⟩
  dsimp only
  omega

theorem named {name : String} (hword : t.word? = some name) :
    Forward text (t, rest) [{ name, start := t.start, stop := t.stop }]
      (nextTokenOf t.stop rest) := by
  intro h
  have hnext := h.next
  obtain ⟨before, word, after, htext, hstart, hstop, hrest, hspelled⟩ := h
  have hne : word ≠ [] := by
    unfold Token.word? at hword
    split at hword
    · exact hspelled.name _ _ ‹_›
    · cases hword
  have hplaced : Placed text ⟨name, t.start, t.stop⟩ :=
    ⟨before, word, after, htext, hne, hstart, hstop⟩
  have hlt := hplaced.start_lt_stop
  have hle := nextTokenOf_start t.stop rest
  dsimp only at hlt hle
  refine ⟨hnext, by dsimp only; omega, ?_, ?_, List.pairwise_singleton _ _⟩
  · simpa using hle
  · simpa using hplaced

end Forward

def placeTrack (text : List Char) : Track where
  reads := Forward text
  refl := Forward.refl
  trans := Forward.trans
  fewer := Forward.fewer
  next := Forward.next
  resumed _ := Forward.resumed
  regex := Forward.regex
  named _ hword _ := Forward.named hword

/-- The identifiers of an expression are written in its text, one after the other. -/
theorem laid_of_parseExpression? {source : String} {e : Expr}
    (h : parseExpression? source = some e) : ∃ lo hi, Laid source.toList lo e.written hi := by
  obtain ⟨q, hreads⟩ := (placeTrack source.toList).reads_of_parseExpression? h
  exact ⟨_, _, (hreads (located_nextTokenOf [] source.toList)).2⟩

theorem Laid.nodup {text : List Char} {lo hi : Nat} {ids : List Ident} (h : Laid text lo ids hi) :
    ids.Nodup := by
  refine List.Pairwise.imp_of_mem (fun {x y} hx _ hle heq => ?_) h.ordered
  have := (h.placed x hx).start_lt_stop
  rw [heq] at hle this
  omega

end TemplateCompiler.Script
