import TemplateCompiler.Proofs.Script.Lexemes
import TemplateCompiler.Proofs.Script.Watching

/-! # How far tokens reach

Every token takes up text, so that reading moves on. A place that the reader has passed is not where
any later identifier begins.
-/

namespace TemplateCompiler.Script

open Text (isIdentStart isIdentPart)

variable {isDigit : Char → Bool} {lexeme : Lexeme} {n : Nat} {rest : List Char}

/-! ## Bytes -/

theorem foldl_utf8Size (cs : List Char) (n : Nat) :
    cs.foldl (fun n c => n + c.utf8Size) n = n + utf8Length cs := by
  induction cs generalizing n with
  | nil => rfl
  | cons c cs ih =>
    rw [utf8Length, List.foldl_cons, List.foldl_cons, ih, ih]
    omega

@[simp] theorem utf8Length_nil : utf8Length [] = 0 := rfl

@[simp] theorem utf8Length_cons (c : Char) (cs : List Char) :
    utf8Length (c :: cs) = c.utf8Size + utf8Length cs := by
  rw [utf8Length, List.foldl_cons, foldl_utf8Size, Nat.zero_add]

@[simp] theorem utf8Length_append (cs ds : List Char) :
    utf8Length (cs ++ ds) = utf8Length cs + utf8Length ds := by
  induction cs with
  | nil => simp
  | cons c cs ih => simp [ih, Nat.add_assoc]

theorem bytesRead_append_right (word rest : List Char) :
    bytesRead (word ++ rest) rest = utf8Length word := by
  simp [bytesRead]

theorem skipGap_start {mode : Gap} {cs : List Char} {n' : Nat} {nl nl' : Bool}
    (h : skipGap mode cs n nl = some (n', nl', rest)) : n ≤ n' := by
  fun_induction skipGap mode cs n nl <;> grind

/-! ## Numbers -/

theorem suffix_cons_of_suffix {c : Char} {cs : List Char} (h : rest <:+ cs) : rest <:+ c :: cs :=
  h.trans (List.suffix_cons c cs)

@[grind →]
theorem moreDigits?_suffix {cs : List Char} (h : moreDigits? isDigit cs = some rest) :
    rest <:+ cs := by
  fun_induction moreDigits? isDigit cs <;> grind [suffix_cons_of_suffix]

@[grind →]
theorem digits?_suffix {cs : List Char} (h : digits? isDigit cs = some rest) :
    rest <:+ cs.tail := by
  unfold digits? at h
  split at h <;> grind

@[grind →]
theorem optionalDigits?_suffix {cs : List Char} (h : optionalDigits? cs = some rest) :
    rest <:+ cs := by
  unfold optionalDigits? at h
  split at h <;> grind [suffix_cons_of_suffix]

@[grind →]
theorem optionalExponent?_suffix {cs : List Char} (h : optionalExponent? cs = some rest) :
    rest <:+ cs := by
  unfold optionalExponent? at h
  split at h <;> grind [suffix_cons_of_suffix, List.tail_suffix, List.IsSuffix.trans]

@[grind →]
theorem fraction?_suffix {cs : List Char} (h : fraction? cs = some rest) : rest <:+ cs := by
  obtain ⟨after, hdigits, hexponent⟩ := Option.bind_eq_some_iff.mp h
  exact (optionalExponent?_suffix hexponent).trans (optionalDigits?_suffix hdigits)

@[grind →]
theorem basedNumber?_suffix {cs : List Char} {big : Bool}
    (h : basedNumber? isDigit cs = some (big, rest)) : rest <:+ cs := by
  obtain ⟨after, hdigits, h⟩ := Option.bind_eq_some_iff.mp h
  have hafter := (digits?_suffix hdigits).trans (List.tail_suffix cs)
  split at h <;> grind [List.IsSuffix.trans, List.suffix_cons]

@[grind →]
theorem oldOctal?_suffix {cs : List Char} (h : oldOctal? cs = some rest) : rest <:+ cs := by
  have hdrop := List.dropWhile_suffix (l := cs) Char.isDigit
  unfold oldOctal? at h
  grind [List.IsSuffix.trans, List.suffix_cons]

theorem numberChars?_suffix {cs : List Char} {big : Bool} (h : numberChars? cs = some (big, rest)) :
    rest <:+ cs.tail := by
  unfold numberChars? at h
  split at h
  · grind [Option.map_eq_some_iff, suffix_cons_of_suffix]
  · grind [Option.bind_eq_some_iff, List.IsSuffix.trans, List.tail_suffix]
  · obtain ⟨after, hdigits, h⟩ := Option.bind_eq_some_iff.mp h
    have hafter := digits?_suffix hdigits
    split at h <;> grind [Option.map_eq_some_iff, List.IsSuffix.trans, List.suffix_cons]

/-! ## Punctuators -/

theorem length_of_mem_punctuators : ∀ x ∈ punctuators, 0 < x.1.length := by decide

/-- A punctuator is spelled as the table says. -/
theorem spelling_of_punct? {cs : List Char} (h : punct? cs = some (lexeme, rest)) :
    ∃ x ∈ punctuators, lexeme = .punct x.2 ∧ x.1 <+: cs ∧ rest = cs.drop x.1.length := by
  unfold punct? at h
  split at h
  · split at h
    · obtain ⟨rfl, rfl⟩ := Prod.mk.inj (Option.some.inj h)
      exact ⟨(['?'], .question), by decide, rfl, by simp, rfl⟩
    · obtain ⟨rfl, rfl⟩ := Prod.mk.inj (Option.some.inj h)
      exact ⟨(['?', '.'], .questionDot), by decide, rfl, by simp, rfl⟩
  · obtain ⟨x, hfind, h⟩ := Option.bind_eq_some_iff.mp h
    obtain ⟨rfl, rfl⟩ := Prod.mk.inj (Option.some.inj h)
    exact ⟨x, List.mem_of_find?_eq_some hfind, rfl, by simpa using List.find?_some hfind, rfl⟩

theorem punct?_eq_find {c : Char} (hc : c ≠ '?') (cs : List Char) :
    punct? (c :: cs) = (punctuators.find? fun x => x.1.isPrefixOf (c :: cs)).map fun x =>
      (.punct x.2, (c :: cs).drop x.1.length) := by
  unfold punct?
  split
  · rename_i heq
    exact absurd (List.cons.inj heq).1 hc
  · cases punctuators.find? fun x => x.1.isPrefixOf (c :: cs) <;> rfl

theorem punct?_suffix {cs : List Char} (h : punct? cs = some (lexeme, rest)) :
    rest <:+ cs.tail := by
  obtain ⟨x, hx, -, -, rfl⟩ := spelling_of_punct? h
  obtain ⟨n, hn⟩ := Nat.exists_eq_add_one_of_ne_zero
    (Nat.ne_of_gt (length_of_mem_punctuators x hx))
  rw [hn, ← List.drop_tail]
  exact List.drop_suffix _ _

/-! ## Tokens -/

theorem scanName_suffix (cs : List Char) (lexeme : String → Bool → Lexeme) :
    (scanName cs lexeme).2.2 <:+ cs.tail := by
  unfold scanName
  split
  · rename_i hname
    obtain ⟨c, ds, -, hread⟩ := name?_eq_some_iff.mp hname
    exact hread.suffix_tail (by simp)
  · exact List.nil_suffix

theorem scanNumber_suffix (cs : List Char) : (scanNumber cs).2.2 <:+ cs.tail := by
  unfold scanNumber
  split
  · rename_i hnumber
    obtain ⟨⟨big, rest⟩, hchars, h⟩ := Option.bind_eq_some_iff.mp hnumber
    simp only [Option.ite_none_left_eq_some] at h
    obtain ⟨-, rfl⟩ := Prod.mk.inj (Option.some.inj h.2)
    exact numberChars?_suffix hchars
  · exact List.nil_suffix

theorem scanString_suffix (quote : Char) (cs : List Char) : (scanString quote cs).2.2 <:+ cs := by
  unfold scanString
  split
  · rename_i hchars
    exact (stringRead_of_stringChars? hchars).suffix
  · exact List.nil_suffix

theorem template?_suffix {cs : List Char} (h : template? cs = some (lexeme, rest)) :
    rest <:+ cs := by
  obtain ⟨⟨value, last, rest⟩, hchars, heq⟩ := Option.bind_eq_some_iff.mp h
  obtain ⟨-, rfl⟩ := Prod.mk.inj (Option.some.inj heq)
  exact (templateRead_of_templateChars? hchars).suffix

theorem scanOther_suffix {scanned : Option (Lexeme × List Char)} {cs : List Char}
    (h : ∀ lexeme rest, scanned = some (lexeme, rest) → rest <:+ cs) :
    (scanOther scanned).2.2 <:+ cs := by
  unfold scanOther
  split
  · exact h _ _ rfl
  · exact List.nil_suffix

/-! ## The first character of a token -/

theorem isIdentStart_of_mem {c : Char} (codes : List Nat)
    (h : ∀ n ∈ codes, isIdentStart (Char.ofNat n) = false) (hc : c.toNat ∈ codes) :
    isIdentStart c = false := by
  have := h c.toNat hc
  rwa [Char.ofNat_toNat] at this

theorem isIdentStart_of_isDigit {c : Char} (hc : c.isDigit = true) : isIdentStart c = false := by
  have hcode : 48 ≤ c.toNat ∧ c.toNat ≤ 57 := by
    simpa [Char.isDigit, UInt32.le_iff_toNat_le] using hc
  refine isIdentStart_of_mem (List.range' 48 10) (by decide) ?_
  simp only [List.mem_range'_1]
  omega

theorem isIdentStart_of_isSpace {c : Char} (hc : isSpace c = true) : isIdentStart c = false := by
  refine isIdentStart_of_mem ([0x20, 0x09, 0x0B, 0x0C, 0x85, 0xA0, 0x1680, 0x202F, 0x205F, 0x3000,
    0xFEFF] ++ List.range' 0x2000 12) (by decide +kernel) ?_
  simp only [isSpace, Bool.or_eq_true, beq_iff_eq, Bool.and_eq_true, decide_eq_true_eq] at hc
  simp only [List.mem_append, List.mem_cons, List.mem_range'_1, List.not_mem_nil]
  omega

theorem isIdentStart_of_isLineBreak {c : Char} (hc : isLineBreak c = true) :
    isIdentStart c = false := by
  refine isIdentStart_of_mem [0x0A, 0x0D, 0x2028, 0x2029] (by decide +kernel) ?_
  simp only [isLineBreak, Bool.or_eq_true, beq_iff_eq] at hc
  obtain ((rfl | rfl) | hc) | hc := hc
  · decide
  · decide
  · simp [hc]
  · simp [hc]

theorem isIdentPart_of_isIdentStart {c : Char} (hc : isIdentStart c = true) :
    isIdentPart c = true := by
  unfold isIdentStart at hc
  unfold isIdentPart
  by_cases hascii : c.toNat < 0x80
  · simp only [hascii, if_true, Bool.or_eq_true] at hc
    simp only [hascii, if_true, Text.isWordChar, Char.isAlphanum, Bool.or_eq_true]
    grind
  · simp only [hascii, if_false] at hc
    simp [hascii, hc]

/-- The text begins with a number. -/
def beginsNumber (c : Char) (cs : List Char) : Bool :=
  c.isDigit || (c == '.' && cs.head?.any Char.isDigit)

/-- The character begins neither a literal nor a name. -/
def beginsPunct (c : Char) : Bool :=
  !(c == '#' || c == '\x60' || c == '\x22' || c == '\x27' || c.isDigit || beginsName c)

/-- How a token begins, which says what is read. -/
inductive Beginning (c : Char) (cs : List Char) : Prop
  | hash : c = '#' → Beginning c cs
  | template : c = '\x60' → Beginning c cs
  | string : c = '\x22' ∨ c = '\x27' → Beginning c cs
  | number : beginsNumber c cs = true → Beginning c cs
  | name : beginsName c = true → Beginning c cs
  | punct : beginsPunct c = true → beginsNumber c cs = false → Beginning c cs

theorem beginning (c : Char) (cs : List Char) : Beginning c cs := by
  by_cases hnumber : beginsNumber c cs = true
  · exact .number hnumber
  by_cases hpunct : beginsPunct c = true
  · exact .punct hpunct (by simpa using hnumber)
  simp only [beginsPunct, beginsNumber, Bool.not_eq_true', Bool.not_eq_false, Bool.or_eq_true,
    beq_iff_eq, not_or] at hpunct hnumber
  obtain ((((hc | hc) | hc) | hc) | hc) | hc := hpunct
  · exact .hash hc
  · exact .template hc
  · exact .string (.inl hc)
  · exact .string (.inr hc)
  · exact absurd hc hnumber.1
  · exact .name hc

section Beginnings

variable {offset : Nat} {c : Char} {cs : List Char}

theorem scan_plain (h₁ : c ≠ '#') (h₂ : c ≠ '\x60')
    (h₃ : ¬(c = '.' ∧ cs.head?.any Char.isDigit = true)) :
    scan offset (c :: cs) =
      if c == '\x22' || c == '\x27' then scanString c cs
      else if c.isDigit then scanNumber (c :: cs)
      else if beginsName c then scanName (c :: cs) .name
      else scanOther (punct? (c :: cs)) := by
  by_cases hpoint : c = '.'
  · subst hpoint
    cases cs with
    | nil => rfl
    | cons d cs =>
      have hd : d.isDigit = false := by simpa using h₃
      have hname : beginsName '.' = false := by decide
      simp [scan, hd, hname]
  · rw [scan.eq_def]
    split <;> simp_all

theorem scan_string (hc : c = '\x22' ∨ c = '\x27') : scan offset (c :: cs) = scanString c cs := by
  obtain rfl | rfl := hc <;> rfl

theorem scan_number (hc : beginsNumber c cs = true) :
    scan offset (c :: cs) = scanNumber (c :: cs) := by
  by_cases hpoint : c = '.'
  · subst hpoint
    cases cs with
    | nil => cases hc
    | cons d cs =>
      have hd : d.isDigit = true := by simpa [beginsNumber] using hc
      simp [scan, hd]
  · have hdigit : c.isDigit = true := by simpa [beginsNumber, hpoint] using hc
    have hne {d : Char} (hd : d.isDigit = false) : c ≠ d := fun h => by simp [h, hd] at hdigit
    have h₁ : c ≠ '#' := hne (by decide)
    have h₂ : c ≠ '\x60' := hne (by decide)
    have h₃ : c ≠ '\x22' := hne (by decide)
    have h₄ : c ≠ '\x27' := hne (by decide)
    simp [scan_plain h₁ h₂ (by simp [hpoint]), h₃, h₄, hdigit]

theorem scan_name (hc : beginsName c = true) :
    scan offset (c :: cs) = scanName (c :: cs) .name := by
  have hne {d : Char} (hd : beginsName d = false) : c ≠ d := fun h => by simp [h, hd] at hc
  have h₁ : c ≠ '#' := hne (by decide)
  have h₂ : c ≠ '\x60' := hne (by decide)
  have h₃ : c ≠ '\x22' := hne (by decide)
  have h₄ : c ≠ '\x27' := hne (by decide)
  have h₅ : c ≠ '.' := hne (by decide)
  have hdigit : c.isDigit = false := by
    cases hd : c.isDigit with
    | false => rfl
    | true =>
      have hslash : c ≠ '\\' := fun h => by simp [h] at hd
      simp [beginsName, hslash, isIdentStart_of_isDigit hd] at hc
  simp [scan_plain h₁ h₂ (by simp [h₅]), h₃, h₄, hdigit, hc]

theorem scan_punct (hc : beginsPunct c = true) (hnumber : beginsNumber c cs = false) :
    scan offset (c :: cs) = scanOther (punct? (c :: cs)) := by
  simp only [beginsPunct, Bool.not_eq_true', Bool.or_eq_false_iff, beq_eq_false_iff_ne] at hc
  obtain ⟨⟨⟨⟨⟨h₁, h₂⟩, h₃⟩, h₄⟩, h₅⟩, h₆⟩ := hc
  have hpoint : ¬(c = '.' ∧ cs.head?.any Char.isDigit = true) := by
    rintro ⟨rfl, hdigit⟩
    simp [beginsNumber, hdigit] at hnumber
  simp [scan_plain h₁ h₂ hpoint, h₃, h₄, h₅, h₆]

/-- The lexemes that the first character allows. -/
inductive LexemeAt (c : Char) : Lexeme → Prop
  | punct {x : List Char × Punct} : x ∈ punctuators → x.1.head? = some c → LexemeAt c (.punct x.2)
  | name (text : String) (escaped : Bool) : beginsName c = true → LexemeAt c (.name text escaped)
  | string (value : String) : c = '\x22' ∨ c = '\x27' → LexemeAt c (.string value)
  | template (value : Option String) (last : Bool) : c = '\x60' → LexemeAt c (.template value last)
  | privateName (text : String) : LexemeAt c (.privateName text)
  | number (text : String) : LexemeAt c (.number text)
  | bigint (text : String) : LexemeAt c (.bigint text)
  | hashbang : LexemeAt c .hashbang
  | invalid : LexemeAt c .invalid

theorem lexemeAt_number (cs : List Char) : LexemeAt c (scanNumber cs).1 := by
  unfold scanNumber
  split
  · rename_i hnumber
    obtain ⟨⟨big, rest'⟩, -, h⟩ := Option.bind_eq_some_iff.mp hnumber
    simp only [Option.ite_none_left_eq_some] at h
    obtain ⟨rfl, -⟩ := Prod.mk.inj (Option.some.inj h.2)
    cases big with
    | true => exact .bigint _
    | false => exact .number _
  · extract_lets unfinished
    cases unfinished with
    | true => exact .number _
    | false => exact .invalid

theorem lexemeAt_punct (cs : List Char) : LexemeAt c (scanOther (punct? (c :: cs))).1 := by
  cases hpunct : punct? (c :: cs) with
  | none => exact .invalid
  | some x =>
    obtain ⟨y, hy, hlexeme, hspelling, -⟩ := spelling_of_punct? hpunct
    have hne : y.1 ≠ [] := List.length_pos_iff.mp (length_of_mem_punctuators y hy)
    obtain ⟨d, ds, hds⟩ := List.exists_cons_of_ne_nil hne
    rw [hds] at hspelling
    change LexemeAt c x.1
    rw [hlexeme]
    exact .punct hy (by rw [hds, (List.cons_prefix_cons.mp hspelling).1]; rfl)

theorem lexemeAt (offset : Nat) (c : Char) (cs : List Char) :
    LexemeAt c (scan offset (c :: cs)).1 := by
  cases beginning c cs with
  | hash hc =>
    subst hc
    simp only [scan]
    split
    · exact .hashbang
    · split
      · unfold scanName
        split
        · exact .privateName _
        · exact .privateName _
      · exact .invalid
  | template hc =>
    subst hc
    change LexemeAt _ (scanOther (template? cs)).1
    unfold template?
    cases templateChars? (cs.length + 1) cs with
    | none => exact .invalid
    | some x => exact .template _ _ rfl
  | string hc =>
    rw [scan_string hc, scanString]
    split
    · exact .string _ hc
    · exact .invalid
  | number hc =>
    rw [scan_number hc]
    exact lexemeAt_number (c :: cs)
  | name hc =>
    rw [scan_name hc, scanName]
    split
    · exact .name _ _ hc
    · exact .name _ _ hc
  | punct hc hnumber =>
    rw [scan_punct hc hnumber]
    exact lexemeAt_punct cs

end Beginnings

/-- Every token takes up some of the text, and the rest of the text follows. -/
theorem scan_suffix (offset : Nat) (c : Char) (cs : List Char) :
    (scan offset (c :: cs)).2.2 <:+ cs := by
  cases beginning c cs with
  | hash hc =>
    subst hc
    simp only [scan]
    split
    · exact List.dropWhile_suffix _
    · split
      · exact (scanName_suffix _ _).trans (List.tail_suffix _)
      · exact List.nil_suffix
  | template hc =>
    subst hc
    exact scanOther_suffix fun _ _ => template?_suffix
  | string hc =>
    rw [scan_string hc]
    exact scanString_suffix c cs
  | number hc =>
    rw [scan_number hc]
    exact scanNumber_suffix (c :: cs)
  | name hc =>
    rw [scan_name hc]
    exact scanName_suffix (c :: cs) _
  | punct hc hnumber =>
    rw [scan_punct hc hnumber]
    exact scanOther_suffix fun _ _ => punct?_suffix

theorem scan_length (offset : Nat) (c : Char) (cs : List Char) :
    (scan offset (c :: cs)).2.2.length < (c :: cs).length :=
  Nat.lt_succ_of_le (scan_suffix offset c cs).length_le

/-- The token begins where the text does or later, and it takes up text unless nothing is left. -/
theorem nextTokenOf_start (n : Nat) (cs : List Char) : n ≤ (nextTokenOf n cs).1.start := by
  unfold nextTokenOf
  split
  · exact Nat.le_refl n
  · rename_i hgap
    exact skipGap_start hgap

theorem nextTokenOf_start_le (n : Nat) (cs : List Char) :
    (nextTokenOf n cs).1.start ≤ (nextTokenOf n cs).1.stop := by
  unfold nextTokenOf
  split
  · exact Nat.le_refl n
  · exact Nat.le_add_right _ _

/-! ## Names -/

/-- The name begins as names do. -/
def IsName (name : String) : Prop := ∃ c cs, name.toList = c :: cs ∧ isIdentStart c = true

/-- The letters of a name that is written without escapes. -/
def IsWord (w : String) : Prop :=
  ∃ c cs, w.toList = c :: cs ∧ isIdentStart c = true ∧ ∀ d ∈ cs, isIdentPart d = true

theorem IsWord.isName {w : String} (h : IsWord w) : IsName w := by
  obtain ⟨c, cs, hword, hc, -⟩ := h
  exact ⟨c, cs, hword, hc⟩

/-- A name that is read is one. -/
theorem isWord_of_scan {offset : Nat} {cs : List Char} {text : String} {escaped : Bool}
    (h : scan offset cs = (.name text escaped, false, rest)) : IsWord text := by
  cases cs with
  | nil => cases h
  | cons c cs =>
    have hlexeme := lexemeAt offset c cs
    rw [h] at hlexeme
    cases hlexeme with
    | name _ _ hc =>
      rw [scan_name hc, scanName] at h
      split at h
      · rename_i text' escaped' rest' hname
        obtain ⟨rfl, rfl⟩ : text' = text ∧ escaped' = escaped := by simpa using congrArg Prod.fst h
        obtain ⟨d, ds, rfl, hread⟩ := name?_eq_some_iff.mp hname
        refine ⟨d, ds, by simp, ?_⟩
        cases hread with
        | char _ hfits hread => exact ⟨hfits, hread.fits rfl⟩
        | escape _ _ hfits hread => exact ⟨hfits, hread.fits rfl⟩
      · cases h

theorem isWord_of_word? {n : Nat} {cs : List Char} {name : String}
    (hflawed : (nextTokenOf n cs).1.flawed = false)
    (hword : (nextTokenOf n cs).1.word? = some name) : IsWord name := by
  unfold nextTokenOf at hflawed hword
  split at hword
  · cases hword
  · rename_i start nl rest hgap
    simp only [hgap] at hflawed
    unfold Token.word? at hword
    split at hword
    · rename_i text escaped hlexeme
      obtain rfl := Option.some.inj hword
      exact isWord_of_scan (Prod.ext hlexeme (Prod.ext hflawed rfl))
    · cases hword

/-- Names have the letters of names, and are none of the reserved words, wherever they are read. -/
def nameWatch : Watch where
  holds t _ := ∀ name, t.flawed = false → t.word? = some name → IsWord name
  good id := IsWord id.name ∧ isReserved id.name = false
  next _ _ := isWord_of_word?
  resumed {t rest lexeme after} _ _ htext name _ hword := by
    obtain ⟨x, -, heq⟩ := Option.bind_eq_some_iff.mp htext
    obtain ⟨rfl, rfl⟩ := Prod.mk.inj (Option.some.inj heq)
    cases hword
  regex _ _ _ _ := isWord_of_word?
  named h hflawed hword hreserved := ⟨h _ hflawed hword, hreserved⟩

/-! ## Places that are passed -/

/-- The reader is past the byte `p`: no token from this one on can be an identifier there. -/
structure Past (p : Nat) (t : Token) (rest : List Char) : Prop where
  start_ne : t.isIdentifier = true → t.start ≠ p
  reached : p < t.stop ∨ rest = []
  /-- What is read as a regular expression begins with the slash. -/
  slash : t.isPunct .slash = true ∨ t.isPunct .slashAssign = true → p ≤ t.start

/-- The reader passes the byte `p` without an identifier that begins there. -/
inductive Ahead (p : Nat) : Token → List Char → Prop
  | past {t : Token} {rest : List Char} : Past p t rest → Ahead p t rest
  | step {t : Token} {rest : List Char} :
      t.isIdentifier = false → t.isPunct .rbrace = false → t.isPunct .slash = false →
      t.isPunct .slashAssign = false →
      Ahead p (nextTokenOf t.stop rest).1 (nextTokenOf t.stop rest).2 → Ahead p t rest

variable {p : Nat}

theorem past_of_lt (h : p < n) (cs : List Char) :
    Past p (nextTokenOf n cs).1 (nextTokenOf n cs).2 := by
  have hstart := nextTokenOf_start n cs
  have hstop := nextTokenOf_start_le n cs
  exact ⟨fun _ => by omega, .inl (by omega), fun _ => by omega⟩

theorem past_nil (n : Nat) : Past p (nextTokenOf n []).1 (nextTokenOf n []).2 :=
  ⟨nofun, .inr rfl, nofun⟩

theorem Past.next {t : Token} (h : Past p t rest) :
    Past p (nextTokenOf t.stop rest).1 (nextTokenOf t.stop rest).2 := by
  obtain hstop | rfl := h.reached
  · exact past_of_lt hstop rest
  · exact past_nil t.stop

/-- Once the byte `p` is passed, no identifier begins there. -/
def placeWatch (p : Nat) : Watch where
  holds := Ahead p
  good id := id.start ≠ p
  next h := by
    cases h with
    | past h => exact .past h.next
    | step _ _ _ _ h => exact h
  resumed {t rest lexeme after} h hbrace htext := by
    cases h with
    | past h =>
      obtain ⟨x, -, heq⟩ := Option.bind_eq_some_iff.mp htext
      obtain ⟨rfl, rfl⟩ := Prod.mk.inj (Option.some.inj heq)
      refine .past ⟨nofun, ?_, nofun⟩
      obtain hstop | rfl := h.reached
      · exact .inl (Nat.lt_add_right _ hstop)
      · cases htext
    | step _ h => simp [h] at hbrace
  regex {t rest after} h hslash htext := by
    cases h with
    | past h => exact .past (past_of_lt (by have := h.slash hslash; omega) after)
    | step _ _ h₁ h₂ => simp [h₁, h₂] at hslash
  named {t rest name} h _ hword hreserved := by
    have hid : t.isIdentifier = true := by
      unfold Token.word? at hword
      unfold Token.isIdentifier
      split at hword
      · obtain rfl := Option.some.inj hword
        simp [hreserved]
      · cases hword
    cases h with
    | past h => exact h.start_ne hid
    | step h => simp [h] at hid

end TemplateCompiler.Script
