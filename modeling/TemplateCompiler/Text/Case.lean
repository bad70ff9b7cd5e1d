import TemplateCompiler.Text.UpperCase

/-! # Letter case of names -/

namespace TemplateCompiler.Text

/-- Drops the hyphen before an ASCII letter or digit and capitalises that character. `pending`
says that a hyphen has been read and not yet written. -/
def camelizeChars (pending : Bool) : List Char → List Char
  | [] => if pending then ['-'] else []
  | c :: cs =>
    if pending && c.isAlphanum then c.toUpper :: camelizeChars false cs
    else
      let kept := if c == '-' then camelizeChars true cs else c :: camelizeChars false cs
      if pending then '-' :: kept else kept

/-- `font-size` becomes `fontSize`. -/
def camelize (s : String) : String := String.ofList (camelizeChars false s.toList)

def capitalize (s : String) : String :=
  match s.toList with
  | [] => ""
  | c :: cs => String.ofList (upperChar c ++ cs)

/-- The property under which a component receives the handler of an event: `click` becomes
`onClick`. -/
def handlerKey (event : String) : String := "on" ++ capitalize (camelize event)

/-- The part of a list before the last element satisfying `p`, and the part after it. -/
def splitLast? {α : Type} (p : α → Bool) (xs : List α) : Option (List α × List α) :=
  match xs.reverse.span (fun x => !p x) with
  | (_, []) => none
  | (after, _ :: before) => some (before.reverse, after.reverse)

/-- The name by which a component stored in a file refers to itself: `src/foo-bar.html?v=1` gives
`FooBar`. A file without stem or extension gives no name. -/
def selfName? (filename : String) : Option String := do
  let path := filename.toList.takeWhile (· ≠ '?')
  let base := (path.reverse.takeWhile fun c => c ≠ '/' ∧ c ≠ '\\').reverse
  let (stem, ext) ← splitLast? (· == '.') base
  if stem.isEmpty || ext.isEmpty || !ext.all (fun c => c.isAlphanum || c == '_') then none
  else some (capitalize (camelize (String.ofList stem)))

end TemplateCompiler.Text
