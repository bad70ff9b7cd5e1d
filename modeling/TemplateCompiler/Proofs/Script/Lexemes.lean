import TemplateCompiler.Script.Lexer

/-! # Names, strings and templates as rules

What a name, a string or a piece of a template is, said without a bound on its length. Where a string
or a piece of a template ends, what comes after it does not matter, and no more does it where text
follows a name that cannot belong to it.
-/

namespace TemplateCompiler.Script

open Text (isIdentStart isIdentPart)

variable {c : Char} {d x : List Char} {fuel n : Nat} {octal : Bool}

/-! ## Escapes -/

/-- The reader takes `u` and does not look at what follows it. -/
def Takes {α : Type} (r : List Char → Option (α × List Char)) (u : List Char) (a : α) : Prop :=
  u ≠ [] ∧ ∀ rest, r (u ++ rest) = some (a, rest)

theorem takes_of_bracedCode? {acc : Option Nat} {cs rest : List Char}
    (h : bracedCode? acc cs = some (n, rest)) :
    ∃ u, cs = u ++ rest ∧ Takes (bracedCode? acc) u n := by
  fun_induction bracedCode? acc cs with
  | case1 m cs =>
    obtain ⟨rfl, rfl⟩ : m = n ∧ cs = rest := by simpa using h
    exact ⟨['\x7d'], rfl, by simp, fun _ => by simp [bracedCode?]⟩
  | case2 acc c cs hopen ih =>
    obtain ⟨d, hd, h⟩ := Option.bind_eq_some_iff.mp h
    obtain ⟨hn, h⟩ := Option.ite_none_right_eq_some.mp h
    obtain ⟨u, rfl, -, hu⟩ := ih d h
    refine ⟨c :: u, rfl, by simp, fun rest => ?_⟩
    rw [List.cons_append, bracedCode?, hd]
    · simpa [hn] using hu rest
    · exact hopen
  | case3 => cases h

theorem takes_of_fourHex? {cs rest : List Char} (h : fourHex? cs = some (n, rest)) :
    ∃ u, cs = u ++ rest ∧ Takes fourHex? u n := by
  unfold fourHex? at h
  split at h
  · rename_i a b c d cs
    simp only [Option.bind_eq_bind, Option.bind_eq_some_iff, Option.some.injEq, Prod.mk.injEq] at h
    obtain ⟨a', ha, b', hb, c', hc, d', hd, rfl, rfl⟩ := h
    exact ⟨[a, b, c, d], rfl, by simp, fun _ => by simp [fourHex?, ha, hb, hc, hd]⟩
  · cases h

theorem unicodeEscape?_cons (hc : c ≠ '\x7b') (cs : List Char) :
    unicodeEscape? (c :: cs) = fourHex? (c :: cs) := by
  rw [unicodeEscape?]
  exact fun _ hcons => hc (List.cons.inj hcons).1

theorem takes_of_unicodeEscape? {cs rest : List Char} (h : unicodeEscape? cs = some (n, rest)) :
    ∃ u, cs = u ++ rest ∧ Takes unicodeEscape? u n := by
  cases cs with
  | nil => cases h
  | cons c cs =>
    by_cases hc : c = '\x7b'
    · subst hc
      obtain ⟨u, rfl, -, hu⟩ := takes_of_bracedCode? h
      exact ⟨'\x7b' :: u, rfl, by simp, hu⟩
    · rw [unicodeEscape?_cons hc] at h
      obtain ⟨u, hcs, hne, hu⟩ := takes_of_fourHex? h
      obtain ⟨a, u, rfl⟩ := List.exists_cons_of_ne_nil hne
      obtain ⟨rfl, rfl⟩ := List.cons.inj hcs
      exact ⟨c :: u, rfl, hne, fun rest => by rw [← hu rest]; exact unicodeEscape?_cons hc _⟩

theorem stringCodePoint?_suffix {cs rest : List Char} {d : Char}
    (h : stringCodePoint? cs = some (d, rest)) : rest <:+ cs := by
  obtain ⟨⟨high, after⟩, hhigh, h⟩ := Option.bind_eq_some_iff.mp h
  obtain ⟨u, rfl, -, -⟩ := takes_of_unicodeEscape? hhigh
  refine List.IsSuffix.trans ?_ (List.suffix_append u after)
  have hlow {more rest : List Char} {low : Nat} (hlow : fourHex? more = some (low, rest)) :
      rest <:+ '\\' :: 'u' :: more := by
    obtain ⟨u, rfl, -, -⟩ := takes_of_fourHex? hlow
    exact ⟨'\\' :: 'u' :: u, rfl⟩
  grind

theorem octalEscape_suffix (first : Char) (cs : List Char) : (octalEscape first cs).2 <:+ cs :=
  List.drop_suffix _ _

theorem escape?_suffix {cs ds rest : List Char} (h : escape? octal cs = some (ds, rest)) :
    ∃ c tail, cs = c :: tail ∧ rest <:+ tail := by
  unfold escape? at h
  split at h
  · cases h
  · obtain ⟨-, rfl⟩ := Prod.mk.inj (Option.some.inj h)
    exact ⟨_, _, rfl, List.suffix_cons _ _⟩
  · split at h
    · simp only [Option.bind_eq_bind, Option.bind_eq_some_iff, Option.some.injEq, Prod.mk.injEq] at h
      obtain ⟨a, -, b, -, -, rfl⟩ := h
      exact ⟨_, _, rfl, [_, _], rfl⟩
    · cases h
  · obtain ⟨⟨d, after⟩, hd, heq⟩ := Option.map_eq_some_iff.mp h
    obtain ⟨-, rfl⟩ := Prod.mk.inj heq
    exact ⟨_, _, rfl, stringCodePoint?_suffix hd⟩
  · rename_i c cs _ _ _
    have := octalEscape_suffix c cs
    exact ⟨c, cs, rfl, by grind⟩

theorem escape?_length {cs ds rest : List Char} (h : escape? octal cs = some (ds, rest)) :
    rest.length < cs.length := by
  obtain ⟨c, tail, rfl, hrest⟩ := escape?_suffix h
  exact Nat.lt_succ_of_le hrest.length_le

/-- An escape of one character, or in octal. -/
theorem escape?_cons {cs : List Char} (hx : c ≠ 'x') (hu : c ≠ 'u')
    (hcr : ¬(c = '\r' ∧ cs.head? = some '\n')) : escape? octal (c :: cs) =
      if isLineBreak c then some ([], cs)
      else if let some d := singleEscapes.lookup c then some ([d], cs)
      else if c == '0' && !(cs.head?.map Char.isDigit).getD false then some (['\x00'], cs)
      else if octal && isOctal c then some ([(octalEscape c cs).1], (octalEscape c cs).2)
      else if !octal && c.isDigit then none
      else some ([c], cs) := by
  have hbreak : ∀ cs', c = '\r' → cs = '\n' :: cs' → False :=
    fun cs' hc hcs => hcr ⟨hc, by rw [hcs]; rfl⟩
  exact escape?.eq_6 octal c cs hbreak hx hu

/-! ## Characters that end an escape -/

/-- No escape goes beyond this character, unless it stands right after the backslash. -/
def barsEscape (c : Char) : Bool := c == '\x22' || c == '\x27' || c == '\x60' || c == '$'

/-- The reader does not get past `b` and takes no notice of what follows it. -/
def Bars {α : Type} (r : List Char → Option (α × List Char)) (b : Char) (cs : List Char) : Prop :=
  ∀ rest, r (cs ++ b :: rest) = (r cs).map fun x => (x.1, x.2 ++ b :: rest)

theorem of_barsEscape {p : Char → Prop} {b : Char} (hb : barsEscape b = true)
    (h : p '\x22' ∧ p '\x27' ∧ p '\x60' ∧ p '$') : p b := by
  simp only [barsEscape, Bool.or_eq_true, beq_iff_eq] at hb
  obtain ((rfl | rfl) | rfl) | rfl := hb
  · exact h.1
  · exact h.2.1
  · exact h.2.2.1
  · exact h.2.2.2

section Bars

variable {b : Char} (hb : barsEscape b = true)

include hb

theorem hexValue?_of_barsEscape : hexValue? b = none :=
  of_barsEscape (p := (hexValue? · = none)) hb (by decide)

theorem bars_bracedCode? (cs : List Char) (acc : Option Nat) : Bars (bracedCode? acc) b cs := by
  intro rest
  have hbrace : b ≠ '\x7d' := of_barsEscape (p := (· ≠ '\x7d')) hb (by decide)
  fun_induction bracedCode? acc cs with
  | case1 n cs => simp [bracedCode?]
  | case2 acc c cs hopen ih =>
    rw [List.cons_append, bracedCode?]
    · cases hexValue? c with
      | none => rfl
      | some d =>
        simp only [Option.bind_eq_bind, Option.bind_some]
        split
        · exact ih d
        · rfl
    · exact hopen
  | case3 acc =>
    rw [List.nil_append, bracedCode?]
    · simp [hexValue?_of_barsEscape hb]
    · exact fun _ _ h => hbrace h

theorem bars_fourHex? (cs : List Char) : Bars fourHex? b cs := by
  intro rest
  have hhex : hexValue? b = none := hexValue?_of_barsEscape hb
  match cs with
  | [] => rcases rest with _ | ⟨_, _ | ⟨_, _ | ⟨_, rest⟩⟩⟩ <;> simp [fourHex?, hhex]
  | [_] => rcases rest with _ | ⟨_, _ | ⟨_, rest⟩⟩ <;> simp [fourHex?, hhex]
  | [_, _] => rcases rest with _ | ⟨_, rest⟩ <;> simp [fourHex?, hhex]
  | [_, _, _] => simp [fourHex?, hhex]
  | c₁ :: c₂ :: c₃ :: c₄ :: cs =>
    simp only [fourHex?, List.cons_append]
    cases hexValue? c₁ <;> cases hexValue? c₂ <;> cases hexValue? c₃ <;> cases hexValue? c₄ <;> rfl

theorem bars_unicodeEscape? (cs : List Char) : Bars unicodeEscape? b cs := by
  intro rest
  have hbrace : b ≠ '\x7b' := of_barsEscape (p := (· ≠ '\x7b')) hb (by decide)
  cases cs with
  | nil =>
    rw [List.nil_append, unicodeEscape?_cons hbrace]
    exact bars_fourHex? hb [] rest
  | cons c cs =>
    by_cases hc : c = '\x7b'
    · subst hc
      exact bars_bracedCode? hb cs none rest
    · rw [List.cons_append, unicodeEscape?_cons hc, unicodeEscape?_cons hc]
      exact bars_fourHex? hb (c :: cs) rest

theorem bars_stringCodePoint? (cs : List Char) : Bars stringCodePoint? b cs := by
  intro rest
  have hslash : b ≠ '\\' := of_barsEscape (p := (· ≠ '\\')) hb (by decide)
  have hu : b ≠ 'u' := of_barsEscape (p := (· ≠ 'u')) hb (by decide)
  unfold stringCodePoint?
  rw [bars_unicodeEscape? hb cs rest]
  cases unicodeEscape? cs with
  | none => rfl
  | some x =>
    obtain ⟨high, after⟩ := x
    simp only [Option.bind_eq_bind, Option.map_some, Option.bind_some]
    by_cases hhigh : isHighSurrogate high
    · -- The second surrogate may begin before `b`, but does not extend to it.
      rcases after with _ | ⟨c, _ | ⟨d, more⟩⟩
      · simp [hhigh, hslash]
      · simp [hhigh, hu]
      · by_cases hcd : c = '\\' ∧ d = 'u'
        · obtain ⟨rfl, rfl⟩ := hcd
          simp only [hhigh, if_true, List.cons_append, bars_fourHex? hb more rest]
          cases fourHex? more with
          | none => rfl
          | some x =>
            by_cases hlow : isLowSurrogate x.1 <;> simp [hlow]
        · grind
    · by_cases hlow : isLowSurrogate high <;> simp [hhigh, hlow]

theorem bars_octalEscape (first : Char) (cs rest : List Char) :
    octalEscape first (cs ++ b :: rest) =
      ((octalEscape first cs).1, (octalEscape first cs).2 ++ b :: rest) := by
  have hoctal : isOctal b = false := of_barsEscape (p := (isOctal · = false)) hb (by decide)
  have hmore (room : Nat) : ((cs ++ b :: rest).take room).takeWhile isOctal =
      (cs.take room).takeWhile isOctal := by
    induction cs generalizing room with
    | nil => cases room <;> simp [hoctal]
    | cons c cs ih =>
      cases room with
      | zero => rfl
      | succ room => simp only [List.cons_append, List.take_succ_cons, List.takeWhile_cons, ih]
  have hlength (room : Nat) : ((cs.take room).takeWhile isOctal).length ≤ cs.length :=
    ((List.takeWhile_prefix _).trans (List.take_prefix _ _)).length_le
  simp only [octalEscape, hmore, List.drop_append_of_le_length (hlength _)]

theorem bars_escape? (octal : Bool) (c : Char) (cs : List Char) :
    Bars (escape? octal) b (c :: cs) := by
  intro rest
  have hhex : hexValue? b = none := hexValue?_of_barsEscape hb
  rw [List.cons_append]
  by_cases hx : c = 'x'
  · subst hx
    rcases cs with _ | ⟨a, _ | ⟨a', cs⟩⟩
    · cases rest <;> simp [escape?, hhex]
    · simp [escape?, hhex]
    · simp only [escape?, List.cons_append]
      cases hexValue? a <;> cases hexValue? a' <;> rfl
  by_cases hu : c = 'u'
  · subst hu
    simp only [escape?, bars_stringCodePoint? hb cs rest, Option.map_map]
    rfl
  by_cases hcr : c = '\r' ∧ cs.head? = some '\n'
  · obtain ⟨rfl, hnl⟩ := hcr
    obtain ⟨cs, rfl⟩ := List.head?_eq_some_iff.mp hnl
    rfl
  · have hcr' : ¬(c = '\r' ∧ (cs ++ b :: rest).head? = some '\n') := by
      cases cs with
      | nil => simp [of_barsEscape (p := (· ≠ '\n')) hb (by decide)]
      | cons => exact hcr
    have hdigit : ((cs ++ b :: rest).head?.map Char.isDigit).getD false =
        (cs.head?.map Char.isDigit).getD false := by
      cases cs with
      | nil => simp [of_barsEscape (p := (·.isDigit = false)) hb (by decide)]
      | cons => rfl
    rw [escape?_cons hx hu hcr, escape?_cons hx hu hcr', hdigit, bars_octalEscape hb]
    repeat' split
    all_goals rfl

/-- An escape that leaves `b` is the same whatever follows `b`. -/
theorem escape?_following {cs ds after : List Char}
    (h : escape? octal (cs ++ x) = some (ds, after ++ x)) (hafter : b ∈ after) (y : List Char) :
    escape? octal (cs ++ y) = some (ds, after ++ y) := by
  obtain ⟨e, d, rfl⟩ := List.append_of_mem hafter
  obtain ⟨c, tail, hcs, u, htail⟩ := escape?_suffix h
  obtain rfl : cs = c :: (u ++ e) ++ b :: d := by
    rw [← htail] at hcs
    exact List.append_cancel_right (hcs.trans (by simp))
  have hbars (z : List Char) := bars_escape? hb octal c (u ++ e) (d ++ z)
  simp only [← List.cons_append, ← List.append_assoc] at hbars h ⊢
  rw [hbars] at h ⊢
  obtain ⟨⟨ds', e'⟩, hread, heq⟩ := Option.map_eq_some_iff.mp h
  obtain ⟨rfl, hrest⟩ := Prod.mk.inj heq
  obtain rfl : e' = e := by simpa using hrest
  rw [hread, Option.map_some]

theorem escape?_following_none {cs : List Char} (h : escape? octal (c :: cs ++ x) = none)
    (hcs : b ∈ cs) (y : List Char) : escape? octal (c :: cs ++ y) = none := by
  obtain ⟨e, d, rfl⟩ := List.append_of_mem hcs
  have hbars (z : List Char) := bars_escape? hb octal c e (d ++ z)
  simp only [← List.cons_append, ← List.append_assoc] at hbars h ⊢
  rw [hbars] at h ⊢
  exact Option.map_eq_none_iff.mpr (Option.map_eq_none_iff.mp h)

end Bars

/-! ## Dividing a text -/

/-- Of two ways to divide a text, the one that leaves more divides it earlier. -/
theorem eq_cons_of_append {cs : List Char} (h : d ++ x = c :: cs) (hx : x.length ≤ cs.length) :
    ∃ d', d = c :: d' ∧ cs = d' ++ x := by
  cases d with
  | nil =>
    obtain rfl : x = c :: cs := h
    exact absurd hx (by simp)
  | cons c' d =>
    obtain ⟨rfl, rfl⟩ := List.cons.inj h
    exact ⟨d, rfl, rfl⟩

theorem escape?_division {ds after : List Char} (h : escape? octal (d ++ x) = some (ds, after))
    (hx : x.length ≤ after.length) : ∃ d', after = d' ++ x ∧ d' <:+ d := by
  obtain ⟨c, tail, hcs, hafter⟩ := escape?_suffix h
  have hafter : after <:+ d ++ x := hcs ▸ hafter.trans (List.suffix_cons c tail)
  obtain ⟨d', rfl⟩ : x <:+ after :=
    List.suffix_of_suffix_length_le (List.suffix_append d x) hafter hx
  obtain ⟨u, hu⟩ := hafter
  rw [← List.append_assoc] at hu
  exact ⟨d', rfl, u, List.append_cancel_right hu⟩

/-! ## Names -/

/-- The character may stand in a name, at its beginning or further on. -/
def fitsName (start : Bool) (c : Char) : Bool := if start then isIdentStart c else isIdentPart c

/-- The text begins with a name, or its rest, of the given characters. -/
inductive NameRead : Bool → List Char → List Char → Bool → List Char → Prop
  | stop {start : Bool} {rest : List Char} :
      (∀ c ∈ rest.head?, c ≠ '\\' ∧ fitsName start c = false) → NameRead start rest [] false rest
  | char {start escaped : Bool} {c : Char} {cs ds rest : List Char} :
      c ≠ '\\' → fitsName start c = true → NameRead false cs ds escaped rest →
      NameRead start (c :: cs) (c :: ds) escaped rest
  | escape {start escaped : Bool} {n : Nat} {u cs ds rest : List Char} :
      Takes unicodeEscape? u n → n = (Char.ofNat n).toNat → fitsName start (Char.ofNat n) = true →
      NameRead false cs ds escaped rest →
      NameRead start ('\\' :: 'u' :: (u ++ cs)) (Char.ofNat n :: ds) true rest

theorem nameChars?_char {start : Bool} {cs : List Char} (hc : c ≠ '\\') :
    nameChars? (fuel + 1) start (c :: cs) =
      if fitsName start c then (nameChars? fuel false cs).map fun x => (c :: x.1, x.2)
      else some ([], false, c :: cs) := by
  have hfits : (if start then isIdentStart else isIdentPart) c = fitsName start c := by
    cases start <;> rfl
  simp only [nameChars?, beq_iff_eq, hc, if_false, hfits]
  cases nameChars? fuel false cs <;> rfl

theorem nameChars?_escape {start : Bool} {code : List Char} :
    nameChars? (fuel + 1) start ('\\' :: 'u' :: code) = (unicodeEscape? code).bind fun x =>
      if x.1 = (Char.ofNat x.1).toNat ∧ fitsName start (Char.ofNat x.1) = true then
        (nameChars? fuel false x.2).map fun y => (Char.ofNat x.1 :: y.1, true, y.2.2)
      else none := by
  have hfits (c : Char) : (if start then isIdentStart else isIdentPart) c = fitsName start c := by
    cases start <;> rfl
  simp only [nameChars?, beq_self_eq_true, if_true, hfits, Bool.and_eq_true, beq_iff_eq]
  cases unicodeEscape? code with
  | none => rfl
  | some x =>
    simp only [Option.bind_eq_bind, Option.bind_some]
    congr 1
    cases nameChars? fuel false x.2 <;> rfl

theorem nameRead_of_nameChars? {start escaped : Bool} {cs ds rest : List Char}
    (hfuel : cs.length < fuel) (h : nameChars? fuel start cs = some (ds, escaped, rest)) :
    NameRead start cs ds escaped rest := by
  induction fuel generalizing start escaped cs ds with
  | zero => simp at hfuel
  | succ fuel ih =>
    cases cs with
    | nil =>
      obtain ⟨rfl, rfl, rfl⟩ : [] = ds ∧ false = escaped ∧ [] = rest := by
        simpa [nameChars?] using h
      exact .stop (by simp)
    | cons c cs =>
      by_cases hc : c = '\\'
      · subst hc
        obtain ⟨code, rfl⟩ : ∃ code, cs = 'u' :: code := by
          simp only [nameChars?, beq_self_eq_true, if_true] at h
          split at h
          · exact ⟨_, rfl⟩
          · cases h
        rw [nameChars?_escape, Option.bind_eq_some_iff] at h
        obtain ⟨⟨n, after⟩, hcode, h⟩ := h
        obtain ⟨⟨hn, hfits⟩, h⟩ := Option.ite_none_right_eq_some.mp h
        obtain ⟨⟨ds, escaped, rest⟩, hmore, heq⟩ := Option.map_eq_some_iff.mp h
        obtain ⟨rfl, rfl, rfl⟩ := by simpa using heq
        obtain ⟨u, rfl, hu⟩ := takes_of_unicodeEscape? hcode
        refine .escape hu hn hfits (ih ?_ hmore)
        simp only [List.length_cons, List.length_append] at hfuel
        omega
      · rw [nameChars?_char hc] at h
        split at h
        · rename_i hfits
          obtain ⟨⟨ds, escaped, rest⟩, hmore, heq⟩ := Option.map_eq_some_iff.mp h
          obtain ⟨rfl, rfl, rfl⟩ := by simpa using heq
          exact .char hc hfits (ih (by simpa using hfuel) hmore)
        · rename_i hfits
          obtain ⟨rfl, rfl, rfl⟩ := by simpa using h
          exact .stop (by simpa using ⟨hc, by simpa using hfits⟩)

theorem nameChars?_of_nameRead {start escaped : Bool} {cs ds rest : List Char}
    (hfuel : cs.length < fuel) (h : NameRead start cs ds escaped rest) :
    nameChars? fuel start cs = some (ds, escaped, rest) := by
  induction h generalizing fuel with
    obtain ⟨fuel, rfl⟩ := Nat.exists_eq_succ_of_ne_zero (Nat.ne_zero_of_lt hfuel)
  | @stop start rest hstop =>
    cases rest with
    | nil => rfl
    | cons c cs =>
      obtain ⟨hc, hfits⟩ := hstop c rfl
      simp [nameChars?_char hc, hfits]
  | @char start escaped c cs ds rest hc hfits _ ih =>
    simp [nameChars?_char hc, hfits, ih (by simpa using hfuel)]
  | @escape start escaped n u cs ds rest hu hn hfits _ ih =>
    have hmore := @ih fuel
      (by simp only [List.length_cons, List.length_append] at hfuel; omega)
    rw [nameChars?_escape, hu.2, Option.bind_some, if_pos ⟨hn, hfits⟩, hmore, Option.map_some]

theorem name?_eq_some_iff {cs rest : List Char} {text : String} {escaped : Bool} :
    name? cs = some (text, escaped, rest) ↔
      ∃ c ds, text = String.ofList (c :: ds) ∧ NameRead true cs (c :: ds) escaped rest := by
  constructor
  · intro h
    unfold name? at h
    split at h
    · rename_i c ds escaped' rest' hchars
      obtain ⟨rfl, rfl, rfl⟩ : String.ofList (c :: ds) = text ∧ escaped' = escaped ∧ rest' = rest := by
        simpa using h
      exact ⟨c, ds, rfl, nameRead_of_nameChars? (Nat.lt_succ_self _) hchars⟩
    · cases h
  · rintro ⟨c, ds, rfl, hread⟩
    rw [name?, nameChars?_of_nameRead (Nat.lt_succ_self _) hread]

namespace NameRead

variable {start escaped : Bool} {cs ds rest : List Char}

section

variable (h : NameRead start cs ds escaped rest)

include h

theorem suffix : rest <:+ cs := by
  induction h with
  | stop => exact List.suffix_refl _
  | char _ _ _ ih => exact ih.trans (List.suffix_cons _ _)
  | @escape _ _ _ u _ _ _ _ _ _ _ ih => exact ih.trans ⟨'\\' :: 'u' :: u, rfl⟩

theorem length_le : rest.length ≤ cs.length :=
  h.suffix.length_le

theorem fits (hstart : start = false) : ∀ d ∈ ds, isIdentPart d = true := by
  induction h with
  | stop => simp
  | char _ hfits _ ih =>
    subst hstart
    exact List.forall_mem_cons.mpr ⟨hfits, ih rfl⟩
  | escape _ _ hfits _ ih =>
    subst hstart
    exact List.forall_mem_cons.mpr ⟨hfits, ih rfl⟩

/-- A name goes on as long as it can. -/
theorem stopped (hds : ds ≠ []) : ∀ c ∈ rest.head?, c ≠ '\\' ∧ isIdentPart c = false := by
  have hrest {start escaped : Bool} {cs ds rest : List Char}
      (h : NameRead start cs ds escaped rest) (hstart : start = false) :
      ∀ c ∈ rest.head?, c ≠ '\\' ∧ isIdentPart c = false := by
    induction h with
    | stop hstop =>
      subst hstart
      exact hstop
    | char _ _ _ ih => exact ih rfl
    | escape _ _ _ _ ih => exact ih rfl
  cases h with
  | stop => exact absurd rfl hds
  | char _ _ hread => exact hrest hread rfl
  | escape _ _ _ hread => exact hrest hread rfl

theorem suffix_tail (hds : ds ≠ []) : rest <:+ cs.tail := by
  cases h with
  | stop => exact absurd rfl hds
  | char _ _ hread => exact hread.suffix
  | @escape _ _ _ u _ _ _ _ _ _ hread => exact hread.suffix.trans ⟨'u' :: u, rfl⟩

end

/-- What is behind the character that ends the name does not matter. -/
theorem following (h : NameRead start (d ++ x) ds escaped rest) (hrest : x.length < rest.length) :
    ∃ d', rest = d' ++ x ∧ ∀ y, NameRead start (d ++ y) ds escaped (d' ++ y) := by
  generalize hcs : d ++ x = cs at h
  induction h generalizing d with
  | stop hstop =>
    obtain ⟨c, d, rfl⟩ : ∃ c d', d = c :: d' := by
      cases d with
      | nil => simp [← hcs] at hrest
      | cons c d => exact ⟨c, d, rfl⟩
    subst hcs
    exact ⟨c :: d, rfl, fun y => .stop hstop⟩
  | @char start escaped c cs ds rest hc hfits hread ih =>
    have hlength := hread.length_le
    obtain ⟨d, rfl, rfl⟩ := eq_cons_of_append hcs (by omega)
    obtain ⟨d', rfl, hd'⟩ := ih hrest rfl
    exact ⟨d', rfl, fun y => .char hc hfits (hd' y)⟩
  | @escape start escaped n u cs ds rest hu hn hfits hread ih =>
    -- The escape ends before `x`, since the rest of the name does.
    have hlength := hread.length_le
    obtain ⟨d', rfl⟩ : x <:+ cs :=
      List.suffix_of_suffix_length_le ⟨d, hcs⟩ ⟨'\\' :: 'u' :: u, rfl⟩ (by omega)
    obtain ⟨d'', rfl, hd''⟩ := ih hrest rfl
    obtain rfl : d = '\\' :: 'u' :: (u ++ d') :=
      List.append_cancel_right (hcs.trans (by simp))
    refine ⟨d'', rfl, fun y => ?_⟩
    simpa using NameRead.escape hu hn hfits (hd'' y)

end NameRead

/-! ## Strings -/

/-- The text begins with the rest of a string that is quoted like this. -/
inductive StringRead (quote : Char) : List Char → List Char → Bool → List Char → Prop
  | close {rest : List Char} : StringRead quote (quote :: rest) [] false rest
  | char {c : Char} {cs value rest : List Char} {flawed : Bool} :
      c ≠ quote → c ≠ '\n' → c ≠ '\r' → c ≠ '\\' → StringRead quote cs value flawed rest →
      StringRead quote (c :: cs) (c :: value) flawed rest
  | escape {cs ds after value rest : List Char} {flawed : Bool} :
      escape? true cs = some (ds, after) → StringRead quote after value flawed rest →
      StringRead quote ('\\' :: cs) (ds ++ value) flawed rest
  | flaw {cs value rest : List Char} {flawed : Bool} :
      escape? true cs = none → StringRead quote (cs.drop 1) value flawed rest →
      StringRead quote ('\\' :: cs) value true rest

section Strings

variable {quote : Char}

theorem stringRead_of_stringChars? {cs value rest : List Char} {flawed : Bool}
    (h : stringChars? quote fuel cs = some (value, flawed, rest)) :
    StringRead quote cs value flawed rest := by
  induction fuel generalizing cs value flawed with
  | zero => cases h
  | succ fuel ih =>
    cases cs with
    | nil => cases h
    | cons c cs =>
      rw [stringChars?] at h
      by_cases hquote : c = quote
      · obtain ⟨rfl, rfl, rfl⟩ := by simpa [hquote] using h
        exact hquote ▸ .close
      by_cases hline : c = '\n' ∨ c = '\r'
      · simp [hquote, hline] at h
      by_cases hslash : c = '\\'
      · subst hslash
        cases hescape : escape? true cs <;> simp only [beq_iff_eq, hquote, hescape] at h <;>
          obtain ⟨⟨value, flawed, rest⟩, hmore, heq⟩ := Option.bind_eq_some_iff.mp h <;>
          obtain ⟨rfl, rfl, rfl⟩ := by simpa using heq
        · exact .flaw hescape (ih hmore)
        · exact .escape hescape (ih hmore)
      · simp only [beq_iff_eq, hquote, Bool.or_eq_true, hline, hslash, if_false] at h
        obtain ⟨⟨value, flawed, rest⟩, hmore, heq⟩ := Option.bind_eq_some_iff.mp h
        obtain ⟨rfl, rfl, rfl⟩ := by simpa using heq
        rw [not_or] at hline
        exact .char hquote hline.1 hline.2 hslash (ih hmore)

theorem stringChars?_of_stringRead (hquote : quote ≠ '\\') {cs value rest : List Char}
    {flawed : Bool} (hfuel : cs.length < fuel) (h : StringRead quote cs value flawed rest) :
    stringChars? quote fuel cs = some (value, flawed, rest) := by
  induction h generalizing fuel with
    obtain ⟨fuel, rfl⟩ := Nat.exists_eq_succ_of_ne_zero (Nat.ne_zero_of_lt hfuel)
  | close => simp [stringChars?]
  | char h₁ h₂ h₃ h₄ _ ih =>
    simp [stringChars?, h₁, h₂, h₃, h₄, ih (by simpa using hfuel)]
  | escape hescape _ ih =>
    have hlength := escape?_length hescape
    have hmore := @ih fuel (by simp only [List.length_cons] at hfuel; omega)
    simp [stringChars?, hquote.symm, hescape, hmore]
  | flaw hescape _ ih =>
    have hmore := @ih fuel
      (by simp only [List.length_cons, List.length_drop] at hfuel ⊢; omega)
    simp [-List.drop_one, stringChars?, hquote.symm, hescape, hmore]

namespace StringRead

variable {cs value rest : List Char} {flawed : Bool}

theorem cons_suffix (h : StringRead quote cs value flawed rest) : ∃ c, c :: rest <:+ cs := by
  induction h with
  | close => exact ⟨_, List.suffix_rfl⟩
  | char _ _ _ _ _ ih => exact ih.imp fun _ h => h.trans (List.suffix_cons _ _)
  | escape hescape _ ih =>
    obtain ⟨c, tail, rfl, hafter⟩ := escape?_suffix hescape
    exact ih.imp fun _ h => (h.trans hafter).trans ⟨['\\', c], rfl⟩
  | flaw _ _ ih =>
    exact ih.imp fun _ h => (h.trans (List.drop_suffix _ _)).trans (List.suffix_cons _ _)

theorem length_lt (h : StringRead quote cs value flawed rest) : rest.length < cs.length :=
  h.cons_suffix.elim fun _ h => h.length_le

theorem suffix (h : StringRead quote cs value flawed rest) : rest <:+ cs :=
  h.cons_suffix.elim fun c h => (List.suffix_cons c rest).trans h

/-- What is behind the closing quote does not matter. -/
theorem following (hquote : barsEscape quote = true)
    (h : StringRead quote (d ++ x) value flawed rest) (hrest : x.length ≤ rest.length) :
    ∃ d', rest = d' ++ x ∧ quote ∈ d ∧ d' <:+ d ∧
      ∀ y, StringRead quote (d ++ y) value flawed (d' ++ y) := by
  generalize hcs : d ++ x = cs at h
  induction h generalizing d with
  | @close rest =>
    obtain ⟨d', rfl, rfl⟩ := eq_cons_of_append hcs hrest
    exact ⟨d', rfl, by simp, List.suffix_cons _ _, fun y => .close⟩
  | @char c cs value rest flawed h₁ h₂ h₃ h₄ hread ih =>
    have hlength := hread.length_lt
    obtain ⟨d', rfl, rfl⟩ := eq_cons_of_append hcs (by omega)
    obtain ⟨d'', rfl, hmem, hsuffix, hread'⟩ := ih hrest rfl
    exact ⟨d'', rfl, List.mem_cons_of_mem _ hmem, hsuffix.trans (List.suffix_cons _ _),
      fun y => .char h₁ h₂ h₃ h₄ (hread' y)⟩
  | @escape cs ds after value rest flawed hescape hread ih =>
    have hlength := hread.length_lt
    have hafter := (escape?_length hescape)
    obtain ⟨d, rfl, rfl⟩ := eq_cons_of_append hcs (by omega)
    obtain ⟨a, rfl, ha⟩ := escape?_division hescape (by omega)
    obtain ⟨d', rfl, hmem, hsuffix, hread'⟩ := ih hrest rfl
    exact ⟨d', rfl, List.mem_cons_of_mem _ (ha.mem hmem),
      (hsuffix.trans ha).trans (List.suffix_cons _ _),
      fun y => .escape (escape?_following hquote hescape hmem y) (hread' y)⟩
  | @flaw cs value rest flawed hescape hread ih =>
    have hlength := hread.length_lt
    rw [List.length_drop] at hlength
    obtain ⟨d', rfl, rfl⟩ := eq_cons_of_append hcs (by omega)
    cases d' with
    | nil => simp only [List.nil_append] at hlength; omega
    | cons e d' =>
      obtain ⟨d'', rfl, hmem, hsuffix, hread'⟩ := ih hrest rfl
      have hsuffix' : d'' <:+ '\\' :: e :: d' := hsuffix.trans ⟨['\\', e], rfl⟩
      exact ⟨d'', rfl, by simp [hmem], hsuffix',
        fun y => .flaw (escape?_following_none hquote hescape hmem y) (hread' y)⟩

end StringRead

end Strings

/-! ## Templates -/

/-- The text begins with the rest of a piece of a template. -/
inductive TemplateRead : List Char → Option (List Char) → Bool → List Char → Prop
  | close {rest : List Char} : TemplateRead ('\x60' :: rest) (some []) true rest
  | substitution {rest : List Char} : TemplateRead ('$' :: '\x7b' :: rest) (some []) false rest
  | lineBreak {cs rest : List Char} {value : Option (List Char)} {last : Bool} :
      TemplateRead cs value last rest →
      TemplateRead ('\r' :: '\n' :: cs) (value.map (['\n'] ++ ·)) last rest
  | carriageReturn {cs rest : List Char} {value : Option (List Char)} {last : Bool} :
      cs.head? ≠ some '\n' → TemplateRead cs value last rest →
      TemplateRead ('\r' :: cs) (value.map (['\n'] ++ ·)) last rest
  | escape {cs ds after rest : List Char} {value : Option (List Char)} {last : Bool} :
      escape? false cs = some (ds, after) → TemplateRead after value last rest →
      TemplateRead ('\\' :: cs) (value.map (ds ++ ·)) last rest
  | flaw {c : Char} {cs rest : List Char} {value : Option (List Char)} {last : Bool} :
      escape? false (c :: cs) = none → TemplateRead cs value last rest →
      TemplateRead ('\\' :: c :: cs) none last rest
  | char {c : Char} {cs rest : List Char} {value : Option (List Char)} {last : Bool} :
      c ≠ '\x60' → ¬(c = '$' ∧ cs.head? = some '\x7b') → c ≠ '\r' → c ≠ '\\' →
      TemplateRead cs value last rest → TemplateRead (c :: cs) (value.map ([c] ++ ·)) last rest

theorem templateRead_of_templateChars? {cs rest : List Char} {value : Option (List Char)}
    {last : Bool} (h : templateChars? fuel cs = some (value, last, rest)) :
    TemplateRead cs value last rest := by
  induction fuel generalizing cs value last with
  | zero => cases h
  | succ fuel ih =>
    cases cs with
    | nil => cases h
    | cons c cs =>
      have hmore {ds after : List Char} (h : (do
          let x ← templateChars? fuel after
          some (x.1.map (ds ++ ·), x.2)) = some (value, last, rest)) :
          ∃ value', TemplateRead after value' last rest ∧ value = value'.map (ds ++ ·) := by
        obtain ⟨⟨value', last, rest⟩, hread, heq⟩ := Option.bind_eq_some_iff.mp h
        obtain ⟨rfl, rfl, rfl⟩ := by simpa using heq
        exact ⟨value', ih hread, rfl⟩
      simp only [templateChars?] at h
      by_cases hclose : c = '\x60'
      · subst hclose
        obtain ⟨rfl, rfl, rfl⟩ := by simpa using h
        exact .close
      rw [if_neg (by simpa using hclose)] at h
      by_cases hsubst : c = '$' ∧ cs.head? = some '\x7b'
      · obtain ⟨rfl, hhead⟩ := hsubst
        obtain ⟨cs, rfl⟩ := List.head?_eq_some_iff.mp hhead
        obtain ⟨rfl, rfl, rfl⟩ := by simpa using h
        exact .substitution
      rw [if_neg (by simpa using hsubst)] at h
      by_cases hreturn : c = '\r'
      · subst hreturn
        rw [if_pos (by simp)] at h
        obtain ⟨value', hread, rfl⟩ := hmore h
        by_cases hhead : cs.head? = some '\n'
        · obtain ⟨cs, rfl⟩ := List.head?_eq_some_iff.mp hhead
          exact .lineBreak hread
        · exact .carriageReturn hhead (by simpa [hhead] using hread)
      rw [if_neg (by simpa using hreturn)] at h
      by_cases hslash : c = '\\'
      · subst hslash
        rw [if_pos (by simp)] at h
        cases hescape : escape? false cs with
        | some x =>
          rw [hescape] at h
          obtain ⟨value', hread, rfl⟩ := hmore h
          exact .escape hescape hread
        | none =>
          rw [hescape] at h
          cases cs with
          | nil => cases h
          | cons d cs =>
            obtain ⟨⟨value', last, rest⟩, hread, heq⟩ := Option.bind_eq_some_iff.mp h
            obtain ⟨rfl, rfl, rfl⟩ := by simpa using heq
            exact .flaw hescape (ih hread)
      rw [if_neg (by simpa using hslash)] at h
      obtain ⟨value', hread, rfl⟩ := hmore h
      exact .char hclose hsubst hreturn hslash hread

theorem templateChars?_of_templateRead {cs rest : List Char} {value : Option (List Char)}
    {last : Bool} (hfuel : cs.length < fuel) (h : TemplateRead cs value last rest) :
    templateChars? fuel cs = some (value, last, rest) := by
  induction h generalizing fuel with
    obtain ⟨fuel, rfl⟩ := Nat.exists_eq_succ_of_ne_zero (Nat.ne_zero_of_lt hfuel)
  | close | substitution => rfl
  | lineBreak _ ih =>
    have hmore := @ih fuel (by simp only [List.length_cons] at hfuel; omega)
    simp [templateChars?, hmore]
  | carriageReturn hhead _ ih =>
    simp [templateChars?, hhead, ih (by simpa using hfuel)]
  | escape hescape _ ih =>
    have hlength := escape?_length hescape
    have hmore := @ih fuel (by simp only [List.length_cons] at hfuel; omega)
    simp [templateChars?, hescape, hmore]
  | flaw hescape _ ih =>
    have hmore := @ih fuel (by simp only [List.length_cons] at hfuel; omega)
    simp [templateChars?, hescape, hmore]
  | char h₁ h₂ h₃ h₄ _ ih =>
    simp [templateChars?, h₁, h₂, h₃, h₄, ih (by simpa using hfuel)]

namespace TemplateRead

variable {cs rest : List Char} {value : Option (List Char)} {last : Bool}

theorem cons_suffix (h : TemplateRead cs value last rest) : ∃ c, c :: rest <:+ cs := by
  induction h with
  | close => exact ⟨_, List.suffix_rfl⟩
  | substitution => exact ⟨_, List.suffix_cons _ _⟩
  | lineBreak _ ih => exact ih.imp fun _ h => h.trans ⟨['\r', '\n'], rfl⟩
  | carriageReturn _ _ ih | char _ _ _ _ _ ih =>
    exact ih.imp fun _ h => h.trans (List.suffix_cons _ _)
  | escape hescape _ ih =>
    obtain ⟨c, tail, rfl, hafter⟩ := escape?_suffix hescape
    exact ih.imp fun _ h => (h.trans hafter).trans ⟨['\\', c], rfl⟩
  | @flaw c _ _ _ _ _ _ ih => exact ih.imp fun _ h => h.trans ⟨['\\', c], rfl⟩

theorem length_lt (h : TemplateRead cs value last rest) : rest.length < cs.length :=
  h.cons_suffix.elim fun _ h => h.length_le

theorem suffix (h : TemplateRead cs value last rest) : rest <:+ cs :=
  h.cons_suffix.elim fun c h => (List.suffix_cons c rest).trans h

/-- What is behind the end of the piece does not matter. -/
theorem following (h : TemplateRead (d ++ x) value last rest) (hrest : x.length ≤ rest.length) :
    ∃ d', rest = d' ++ x ∧ (∃ b ∈ d, barsEscape b = true) ∧ d' <:+ d ∧
      ∀ y, TemplateRead (d ++ y) value last (d' ++ y) := by
  generalize hcs : d ++ x = cs at h
  induction h generalizing d with
  | @close rest =>
    obtain ⟨d, rfl, rfl⟩ := eq_cons_of_append hcs hrest
    exact ⟨d, rfl, ⟨'\x60', by simp, rfl⟩, List.suffix_cons _ _, fun y => .close⟩
  | @substitution rest =>
    obtain ⟨d, rfl, hrest'⟩ := eq_cons_of_append hcs (by simp only [List.length_cons]; omega)
    obtain ⟨d, rfl, rfl⟩ := eq_cons_of_append hrest'.symm hrest
    exact ⟨d, rfl, ⟨'$', by simp, rfl⟩, ⟨['$', '\x7b'], rfl⟩, fun y => .substitution⟩
  | @lineBreak cs rest value last hread ih =>
    have hlength := hread.length_lt
    obtain ⟨d, rfl, hcs'⟩ := eq_cons_of_append hcs (by simp only [List.length_cons]; omega)
    obtain ⟨d, rfl, rfl⟩ := eq_cons_of_append hcs'.symm (by omega)
    obtain ⟨d', rfl, ⟨b, hmem, hb⟩, hsuffix, hread'⟩ := ih hrest rfl
    exact ⟨d', rfl, ⟨b, by simp [hmem], hb⟩, hsuffix.trans ⟨['\r', '\n'], rfl⟩,
      fun y => .lineBreak (hread' y)⟩
  | @carriageReturn cs rest value last hhead hread ih =>
    have hlength := hread.length_lt
    obtain ⟨d, rfl, rfl⟩ := eq_cons_of_append hcs (by omega)
    obtain ⟨d', rfl, ⟨b, hmem, hb⟩, hsuffix, hread'⟩ := ih hrest rfl
    have hhead' (y : List Char) : (d ++ y).head? ≠ some '\n' := by
      obtain ⟨c, d, rfl⟩ := List.exists_cons_of_ne_nil (List.ne_nil_of_mem hmem)
      exact hhead
    exact ⟨d', rfl, ⟨b, by simp [hmem], hb⟩, hsuffix.trans (List.suffix_cons _ _),
      fun y => .carriageReturn (hhead' y) (hread' y)⟩
  | @escape cs ds after rest value last hescape hread ih =>
    have hlength := hread.length_lt
    have hafter := escape?_length hescape
    obtain ⟨d, rfl, rfl⟩ := eq_cons_of_append hcs (by omega)
    obtain ⟨a, rfl, ha⟩ := escape?_division hescape (by omega)
    obtain ⟨d', rfl, ⟨b, hmem, hb⟩, hsuffix, hread'⟩ := ih hrest rfl
    exact ⟨d', rfl, ⟨b, List.mem_cons_of_mem _ (ha.mem hmem), hb⟩,
      (hsuffix.trans ha).trans (List.suffix_cons _ _),
      fun y => .escape (escape?_following hb hescape hmem y) (hread' y)⟩
  | @flaw c cs rest value last hescape hread ih =>
    have hlength := hread.length_lt
    obtain ⟨d, rfl, hcs'⟩ := eq_cons_of_append hcs (by simp only [List.length_cons]; omega)
    obtain ⟨d, rfl, rfl⟩ := eq_cons_of_append hcs'.symm (by omega)
    obtain ⟨d', rfl, ⟨b, hmem, hb⟩, hsuffix, hread'⟩ := ih hrest rfl
    exact ⟨d', rfl, ⟨b, by simp [hmem], hb⟩, hsuffix.trans ⟨['\\', c], rfl⟩,
      fun y => .flaw (escape?_following_none hb hescape hmem y) (hread' y)⟩
  | @char c cs rest value last h₁ h₂ h₃ h₄ hread ih =>
    have hlength := hread.length_lt
    obtain ⟨d, rfl, rfl⟩ := eq_cons_of_append hcs (by omega)
    obtain ⟨d', rfl, ⟨b, hmem, hb⟩, hsuffix, hread'⟩ := ih hrest rfl
    have h₂' (y : List Char) : ¬(c = '$' ∧ (d ++ y).head? = some '\x7b') := by
      obtain ⟨c', d, rfl⟩ := List.exists_cons_of_ne_nil (List.ne_nil_of_mem hmem)
      exact h₂
    exact ⟨d', rfl, ⟨b, by simp [hmem], hb⟩, hsuffix.trans (List.suffix_cons _ _),
      fun y => .char h₁ (h₂' y) h₃ h₄ (hread' y)⟩

end TemplateRead

end TemplateCompiler.Script
