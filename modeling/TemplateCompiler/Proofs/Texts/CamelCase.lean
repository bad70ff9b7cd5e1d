import Mathlib.Data.List.Infix
import TemplateCompiler.Text.Case

/-! # Camel case

A hyphen and the letter or digit behind it become one capital. A hyphen before an underscore stays.
-/

namespace TemplateCompiler.Text

/-- The text `t` is `s` with every match of a hyphen and a character in `p` replaced by that
character in upper case: the leftmost match, then those behind it. -/
inductive Replaced (p : Char → Bool) : List Char → List Char → Prop
  | none {s} (h : ∀ c, p c → ¬['-', c] <:+: s) : Replaced p s s
  | leftmost {s c t u} (h : ∀ d, p d → ¬['-', d] <:+: s ++ ['-']) (hc : p c)
      (hrest : Replaced p t u) : Replaced p (s ++ '-' :: c :: t) (s ++ c.toUpper :: u)

/-- What `\w` stands for in a pattern. -/
def isPatternWord (c : Char) : Bool := c.isAlphanum || c == '_'

variable {p : Char → Bool} {a c : Char} {s t u : List Char}

/-! ## Reading from the left -/

theorem replaced_nil : Replaced p [] t ↔ t = [] := by
  constructor
  · intro h
    generalize hs : [] = s at h
    cases h <;> simp_all
  · rintro rfl
    exact .none (by simp)

/-- A match at the beginning is the leftmost one. -/
theorem replaced_match (hc : p c) :
    Replaced p ('-' :: c :: s) t ↔ ∃ u, t = c.toUpper :: u ∧ Replaced p s u := by
  constructor
  · intro h
    generalize hr : '-' :: c :: s = r at h
    have hprefix : ['-', c] <+: r := hr ▸ by simp
    cases h with
    | none h => exact absurd hprefix.isInfix (h c hc)
    | @leftmost gap d r _ h _ hrest =>
      cases gap with
      | nil =>
        obtain ⟨rfl, rfl⟩ : c = d ∧ s = r := by simpa using hr
        exact ⟨_, rfl, hrest⟩
      | cons b gap =>
        have hgap : b :: gap ++ ['-'] <+: b :: gap ++ '-' :: d :: r := by simp
        exact absurd (List.prefix_of_prefix_length_le hprefix hgap (by simp)).isInfix (h c hc)
  · rintro ⟨u, rfl, h⟩
    exact .leftmost (s := []) (fun d _ hd => by simpa using hd.length_le) hc h

/-- Where no match begins the text is kept. -/
theorem replaced_keep (ha : ∀ c, p c → ¬['-', c] <+: a :: s) :
    Replaced p (a :: s) t ↔ ∃ u, t = a :: u ∧ Replaced p s u := by
  constructor
  · intro h
    generalize hr : a :: s = r at h
    cases h with
    | none h =>
      subst hr
      exact ⟨s, rfl, .none fun c hc hm => h c hc (hm.trans (List.suffix_cons a s).isInfix)⟩
    | @leftmost gap c _ _ h hc hrest =>
      cases gap with
      | nil => exact absurd (by simp [hr]) (ha c hc)
      | cons b gap =>
        obtain ⟨rfl, rfl⟩ := List.cons.inj hr
        refine ⟨_, rfl, .leftmost (fun d hd hm => h d hd (hm.trans ?_)) hc hrest⟩
        exact (List.suffix_cons a _).isInfix
  · rintro ⟨u, rfl, h⟩
    cases h with
    | none h => exact .none fun c hc hm => (List.infix_cons_iff.mp hm).elim (ha c hc) (h c hc)
    | @leftmost gap c _ _ h hc hrest =>
      refine .leftmost (s := a :: gap) (fun d hd hm => ?_) hc hrest
      rcases List.infix_cons_iff.mp hm with hm | hm
      · exact ha d hd (hm.trans (by simp))
      · exact h d hd hm

/-- A text is read from the left, and past each match. -/
@[elab_as_elim]
theorem match_induction (p : Char → Bool) {motive : List Char → Prop} (nil : motive [])
    (found : ∀ c s, p c → motive s → motive ('-' :: c :: s))
    (kept : ∀ a s, (∀ c, p c → ¬['-', c] <+: a :: s) → motive s → motive (a :: s)) :
    ∀ s, motive s
  | [] => nil
  | [a] => kept a [] (by simp) nil
  | a :: c :: s => by
    by_cases h : a = '-' ∧ p c
    · exact h.1 ▸ found c s h.2 (match_induction p nil found kept s)
    · refine kept a (c :: s) (fun d hd hm => h ?_) (match_induction p nil found kept (c :: s))
      simp only [List.cons_prefix_cons] at hm
      exact ⟨hm.1.symm, hm.2.1 ▸ hd⟩

theorem Replaced.unique (h : Replaced p s t) (h' : Replaced p s u) : t = u := by
  induction s using match_induction p generalizing t u with
  | nil => rw [replaced_nil.mp h, replaced_nil.mp h']
  | found c s hc ih =>
    obtain ⟨t, rfl, ht⟩ := (replaced_match hc).mp h
    obtain ⟨u, rfl, hu⟩ := (replaced_match hc).mp h'
    rw [ih ht hu]
  | kept a s ha ih =>
    obtain ⟨t, rfl, ht⟩ := (replaced_keep ha).mp h
    obtain ⟨u, rfl, hu⟩ := (replaced_keep ha).mp h'
    rw [ih ht hu]

/-! ## The pending hyphen -/

theorem camelizeChars_keep (ha : ∀ c, c.isAlphanum → ¬['-', c] <+: a :: s) :
    camelizeChars false (a :: s) = a :: camelizeChars false s := by
  by_cases h : a = '-'
  · cases s with
    | nil => simp [camelizeChars, h]
    | cons c s =>
      have hc : c.isAlphanum = false := by simpa [h] using ha c
      simp [camelizeChars, h, hc]
  · simp [camelizeChars, h]

theorem replaced_camelizeChars (s : List Char) :
    Replaced Char.isAlphanum s (camelizeChars false s) := by
  induction s using match_induction Char.isAlphanum with
  | nil => exact replaced_nil.mpr rfl
  | found c s hc ih => simpa [replaced_match hc, camelizeChars, hc] using ih
  | kept a s ha ih => simpa [replaced_keep ha, camelizeChars_keep ha] using ih

/-- The first hyphen before an underscore makes the difference: it is kept. -/
theorem replaced_isPatternWord_iff :
    Replaced isPatternWord s (camelizeChars false s) ↔ ¬['-', '_'] <:+: s := by
  induction s using match_induction Char.isAlphanum with
  | nil => simp [replaced_nil, camelizeChars]
  | found c s hc ih =>
    have hword : isPatternWord c := by simp [isPatternWord, hc]
    have hne : '_' ≠ c ∧ '-' ≠ c := by constructor <;> rintro rfl <;> cases hc
    simp [replaced_match hword, camelizeChars, hc, ih, List.infix_cons_iff, hne]
  | kept a s ha ih =>
    rw [camelizeChars_keep ha, List.infix_cons_iff, not_or, ← ih]
    by_cases h : ['-', '_'] <+: a :: s
    · obtain ⟨r, hr⟩ := h
      obtain ⟨rfl, rfl⟩ := List.cons.inj hr
      simp [replaced_match (show isPatternWord '_' from rfl)]
    · have hkeep : ∀ c, isPatternWord c → ¬['-', c] <+: a :: s := by
        intro c hc
        rcases Bool.or_eq_true_iff.mp hc with hc | hc
        · exact ha c hc
        · rwa [eq_of_beq hc]
      simp [replaced_keep hkeep, h]

/-- The matches of a hyphen and a letter or digit are replaced, and nothing else. These are all
matches of `-\w` if no hyphen stands before an underscore, and only then. -/
theorem camelize_replaces (s : String) :
    (∀ t, camelize s = t ↔ Replaced Char.isAlphanum s.toList t.toList) ∧
      ((∀ t, camelize s = t ↔ Replaced isPatternWord s.toList t.toList) ↔
        ¬['-', '_'] <:+: s.toList) := by
  have hchars : (camelize s).toList = camelizeChars false s.toList := String.toList_ofList
  have hiff {p : Char → Bool} (h : Replaced p s.toList (camelize s).toList) (t : String) :
      camelize s = t ↔ Replaced p s.toList t.toList :=
    ⟨fun ht => ht ▸ h, fun ht => String.toList_inj.mp (h.unique ht)⟩
  rw [← replaced_isPatternWord_iff, ← hchars]
  exact ⟨hiff (hchars ▸ replaced_camelizeChars _), fun h => (h _).mp rfl, hiff⟩

theorem camelize_keeps_underscore :
    camelize "a-_b" = "a-_b" ∧ Replaced isPatternWord "a-_b".toList "a_b".toList := by
  have hb : Replaced isPatternWord ['b'] ['b'] := .none (by simp [List.infix_cons_iff])
  exact ⟨by decide, .leftmost (s := ['a']) (by simp [List.infix_cons_iff]) (c := '_') rfl hb⟩

end TemplateCompiler.Text
