import TemplateCompiler.Proofs.Script.Idents
import TemplateCompiler.Script.Reader

/-! # Watching a reader

A reader goes from place to place in a text. What reading on keeps can be said of all identifiers that
are read.
-/

namespace TemplateCompiler.Script

/-- The text after the slash of a regular expression. -/
def regexText (t : Token) (rest : List Char) : List Char :=
  if t.isPunct .slashAssign then '=' :: rest else rest

/-- A property of tokens with the text after them that reading on keeps, and the property of
identifiers that comes with it. -/
structure Watch where
  holds : Token → List Char → Prop
  good : Ident → Prop
  next : ∀ {t rest}, holds t rest →
    holds (nextTokenOf t.stop rest).1 (nextTokenOf t.stop rest).2
  resumed : ∀ {t rest lexeme after}, holds t rest → t.isPunct .rbrace = true →
    template? rest = some (lexeme, after) →
    holds { t with lexeme, stop := t.stop + bytesRead rest after } after
  /-- A slash may turn out to begin a regular expression. -/
  regex : ∀ {t rest after}, holds t rest →
    t.isPunct .slash = true ∨ t.isPunct .slashAssign = true → regex? (regexText t rest) = some after →
    holds (nextTokenOf (t.start + 1 + bytesRead (regexText t rest) after) after).1
      (nextTokenOf (t.start + 1 + bytesRead (regexText t rest) after) after).2
  named : ∀ {t rest name}, holds t rest → t.flawed = false → t.word? = some name →
    isReserved name = false → good { name, start := t.start, stop := t.stop }

/-- What can be said of the identifiers that are read between two places. A place is a token with the
text after it. -/
structure Track where
  reads : Token × List Char → List Ident → Token × List Char → Prop
  refl : ∀ p, reads p [] p
  trans : ∀ {p q r xs ys}, reads p xs q → reads q ys r → reads p (xs ++ ys) r
  /-- A reader may forget what it has read. -/
  fewer : ∀ {p q xs ys}, reads p xs q → ys.Sublist xs → reads p ys q
  next : ∀ t rest, reads (t, rest) [] (nextTokenOf t.stop rest)
  resumed : ∀ {t rest lexeme after}, t.isPunct .rbrace = true →
    template? rest = some (lexeme, after) →
    reads (t, rest) [] ({ t with lexeme, stop := t.stop + bytesRead rest after }, after)
  regex : ∀ {t rest after}, t.isPunct .slash = true ∨ t.isPunct .slashAssign = true →
    regex? (regexText t rest) = some after →
    reads (t, rest) [] (nextTokenOf (t.start + 1 + bytesRead (regexText t rest) after) after)
  named : ∀ {t rest name}, t.flawed = false → t.word? = some name → isReserved name = false →
    reads (t, rest) [{ name, start := t.start, stop := t.stop }] (nextTokenOf t.stop rest)

/-- Where the watch holds, it goes on to hold, and all identifiers are good. -/
def Watch.track (w : Watch) : Track where
  reads p xs q := w.holds p.1 p.2 → w.holds q.1 q.2 ∧ ∀ x ∈ xs, w.good x
  refl _ h := ⟨h, nofun⟩
  trans hxs hys h := by
    obtain ⟨hq, hgood⟩ := hxs h
    exact ⟨(hys hq).1, fun x hx => (List.mem_append.mp hx).elim (hgood x) ((hys hq).2 x)⟩
  fewer hxs hsub h := ⟨(hxs h).1, fun x hx => (hxs h).2 x (hsub.subset hx)⟩
  next _ _ h := ⟨w.next h, nofun⟩
  resumed hbrace htext h := ⟨w.resumed h hbrace htext, nofun⟩
  regex hslash htext h := ⟨w.regex h hslash htext, nofun⟩
  named hflawed hword hreserved h :=
    ⟨w.next h, by simpa using w.named h hflawed hword hreserved⟩

namespace ReaderState

def place (s : ReaderState) : Token × List Char := (s.token, s.rest)

/-- A flaw of the token has been noted. -/
def Noted (s : ReaderState) : Prop := s.token.flawed = true → s.faulty = true

end ReaderState

end TemplateCompiler.Script
