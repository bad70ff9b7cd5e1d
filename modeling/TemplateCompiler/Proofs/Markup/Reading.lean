import Mathlib.Data.List.Infix
import TemplateCompiler.Transform.Element

/-! # Reading markup

The grammar that markup is written in, as a reader: tags, attribute values in double quotes, text,
comments, and tags that have no content and so no end tag. What is written for a tree reads as that
tree.
-/

namespace TemplateCompiler.Markup

variable {as bs rest : List Char} {attributes : List (String × String)} {c : Char} {name s : String}
  {references : List (String × Char)} {t : Token}

/-! ## Trees -/

/-- What markup stands for. An attribute without a value has an empty one. -/
inductive Tree
  | text (data : String)
  | comment (data : String)
  | element (name : String) (attributes : List (String × String)) (children : List Tree)

inductive Token
  | text (data : String)
  | comment (data : String)
  | opening (name : String) (attributes : List (String × String))
  | closing (name : String)

def Tree.isText : Tree → Bool
  | text _ => true
  | _ => false

def Token.isText : Token → Bool
  | text _ => true
  | _ => false

/-! ## Character references -/

/-- References that stand for characters of a text. -/
def textReferences : List (String × Char) := [("&amp;", '&'), ("&lt;", '<'), ("&gt;", '>')]

/-- References that stand for characters of an attribute value. -/
def attributeReferences : List (String × Char) := [("&amp;", '&'), ("&quot;", '\x22')]

/-- The characters that are meant. The first `skip` characters belong to a reference that has been
read. -/
def decode (references : List (String × Char)) : Nat → List Char → List Char
  | _, [] => []
  | skip + 1, _ :: cs => decode references skip cs
  | 0, c :: cs =>
    match references.find? (·.1.toList.isPrefixOf (c :: cs)) with
    | some (reference, meant) => meant :: decode references (reference.toList.length - 1) cs
    | none => c :: decode references 0 cs

/-! ## Tokens -/

/-- A character of a name. -/
def isNameChar (c : Char) : Bool :=
  !Text.isBlank c && !(['<', '>', '/', '=', '\x22', '\x27'].contains c)

/-- What stands before the first occurrence of `mark`, and what after it. -/
def splitAt? (mark : List Char) : List Char → Option (List Char × List Char)
  | [] => none
  | c :: cs =>
    if mark.isPrefixOf (c :: cs) then some ([], (c :: cs).drop mark.length)
    else (splitAt? mark cs).map fun (before, after) => (c :: before, after)

/-- The value after the name of an attribute, which is empty if there is none. -/
def value? : List Char → Option (String × List Char)
  | '=' :: '\x22' :: cs =>
    match cs.dropWhile (· != '\x22') with
    | [] => none
    | _ :: rest =>
      some (String.ofList (decode attributeReferences 0 (cs.takeWhile (· != '\x22'))), rest)
  | cs => some ("", cs)

/-- The attributes of an opening tag, of which there are less than `limit`, and what follows the
tag. -/
def attributes? : Nat → List Char → Option (List (String × String) × List Char)
  | limit + 1, ' ' :: cs => do
    let (value, rest) ← value? (cs.dropWhile isNameChar)
    let (attributes, rest) ← attributes? limit rest
    some ((String.ofList (cs.takeWhile isNameChar), value) :: attributes, rest)
  | _, '>' :: cs => some ([], cs)
  | _, _ => none

def opening? (cs : List Char) : Option (Token × List Char) := do
  let (attributes, rest) ← attributes? cs.length (cs.dropWhile isNameChar)
  some (.opening (String.ofList (cs.takeWhile isNameChar)) attributes, rest)

def closing? (cs : List Char) : Option (Token × List Char) :=
  match cs.dropWhile isNameChar with
  | '>' :: rest => some (.closing (String.ofList (cs.takeWhile isNameChar)), rest)
  | _ => none

/-- The first token and what follows it. -/
def token? : List Char → Option (Token × List Char)
  | '<' :: cs =>
    if "!--".toList.isPrefixOf cs then
      (splitAt? "-->".toList (cs.drop 3)).map fun (data, rest) =>
        (.comment (String.ofList data), rest)
    else
      match cs with
      | '/' :: cs => closing? cs
      | cs => opening? cs
  | cs =>
    some (.text (String.ofList (decode textReferences 0 (cs.takeWhile (· != '<')))),
      cs.dropWhile (· != '<'))

/-- All tokens, of which there are at most `limit`. -/
def tokens? : Nat → List Char → Option (List Token)
  | _, [] => some []
  | 0, _ :: _ => none
  | limit + 1, cs => do
    let (token, rest) ← token? cs
    let tokens ← tokens? limit rest
    some (token :: tokens)

/-! ## Reading -/

/-- A tag that is not closed yet, with the trees before it. -/
structure OpenTag where
  name : String
  attributes : List (String × String)
  before : List Tree

/-- The trees that the tokens make after those already `done` inside the open tags. -/
def trees? (isVoid : String → Bool) : List OpenTag → List Tree → List Token → Option (List Tree)
  | [], done, [] => some done
  | _ :: _, _, [] => none
  | tags, done, .text data :: ts => trees? isVoid tags (done ++ [.text data]) ts
  | tags, done, .comment data :: ts => trees? isVoid tags (done ++ [.comment data]) ts
  | tags, done, .opening name attributes :: ts =>
    if isVoid name then trees? isVoid tags (done ++ [.element name attributes []]) ts
    else trees? isVoid (⟨name, attributes, done⟩ :: tags) [] ts
  | [], _, .closing _ :: _ => none
  | tag :: tags, done, .closing name :: ts =>
    if tag.name = name then
      trees? isVoid tags (tag.before ++ [.element tag.name tag.attributes done]) ts
    else none

/-- The trees that markup stands for. Tags that are `isVoid` have no content. -/
def read (isVoid : String → Bool) (markup : String) : Option (List Tree) :=
  (tokens? markup.toList.length markup.toList).bind (trees? isVoid [] [])

/-! ## Writing -/

def writeAttributes (attributes : List (String × String)) : String :=
  String.join (attributes.map fun a => attributeMarkup a.1 a.2)

def Token.write : Token → String
  | text data => Text.escapeText data
  | comment data => "<!--" ++ data ++ "-->"
  | opening name attributes => "<" ++ name ++ writeAttributes attributes ++ ">"
  | closing name => "</" ++ name ++ ">"

mutual

def Tree.tokens (isVoid : String → Bool) : Tree → List Token
  | .text data => [.text data]
  | .comment data => [.comment data]
  | .element name attributes children =>
    .opening name attributes ::
      if isVoid name then [] else allTokens isVoid children ++ [.closing name]

def allTokens (isVoid : String → Bool) : List Tree → List Token
  | [] => []
  | t :: ts => t.tokens isVoid ++ allTokens isVoid ts

end

def writeTokens (ts : List Token) : String := String.join (ts.map Token.write)

def Tree.write (isVoid : String → Bool) (t : Tree) : String := writeTokens (t.tokens isVoid)

theorem write_text (isVoid : String → Bool) (data : String) :
    (Tree.text data).write isVoid = Text.escapeText data := by
  simp [Tree.write, Tree.tokens, writeTokens, Token.write, String.join_cons]

theorem write_comment (isVoid : String → Bool) (data : String) :
    (Tree.comment data).write isVoid = "<!--" ++ data ++ "-->" := by
  simp [Tree.write, Tree.tokens, writeTokens, Token.write, String.join_cons]

theorem Tree.write_element (isVoid : String → Bool) (name : String)
    (attributes : List (String × String)) (children : List Tree) :
    (Tree.element name attributes children).write isVoid =
      "<" ++ name ++ writeAttributes attributes ++ ">" ++
        if isVoid name then ""
        else String.join (children.map (·.write isVoid)) ++ "</" ++ name ++ ">" := by
  have hall : ∀ ts : List Tree,
      writeTokens (allTokens isVoid ts) = String.join (ts.map (·.write isVoid)) := by
    intro ts
    induction ts with
    | nil => rfl
    | cons t ts ih =>
      rw [allTokens, writeTokens, List.map_append, String.join_append, List.map_cons,
        String.join_cons, ← ih]
      rfl
  rw [← hall, Tree.write, Tree.tokens]
  split
  · simp [writeTokens, Token.write, String.join_cons]
  · simp [writeTokens, Token.write, String.join_cons, String.join_append, String.append_assoc]

/-- The name consists of characters that names are made of. -/
def isName (s : String) : Bool := s.toList.all isNameChar

/-- The name of a tag does not begin like a comment. -/
def isTagName (s : String) : Bool := isName s && !"!--".toList.isPrefixOf s.toList

/-- The comment does not end early. -/
def isCommentData (data : String) : Bool := !decide ("-->".toList <:+: data.toList)

def Token.isReadable : Token → Bool
  | text data => !data.isEmpty
  | comment data => isCommentData data
  | opening name attributes => isTagName name && attributes.all fun a => isName a.1
  | closing name => isName name

/-- The tokens can be told apart. `afterText` says that a text comes before them. -/
def areReadable (afterText : Bool) : List Token → Bool
  | [] => true
  | t :: ts => t.isReadable && !(afterText && t.isText) && areReadable t.isText ts

mutual

/-- The tree can be read from what is written for it. -/
def Tree.isWritable (isVoid : String → Bool) : Tree → Bool
  | .text data => !data.isEmpty
  | .comment data => isCommentData data
  | .element name attributes children =>
    isTagName name && (attributes.all fun a => isName a.1) && (!isVoid name || children.isEmpty) &&
      areWritable isVoid false children

/-- The trees can be read one after another: there are no two texts in a row. `afterText` says that
a text comes before them. -/
def areWritable (isVoid : String → Bool) (afterText : Bool) : List Tree → Bool
  | [] => true
  | t :: ts => t.isWritable isVoid && !(afterText && t.isText) && areWritable isVoid t.isText ts

end

/-! ## Characters -/

theorem decode_append (references : List (String × Char)) (as cs : List Char) :
    decode references as.length (as ++ cs) = decode references 0 cs := by
  induction as with
  | nil => rfl
  | cons a as ih => rw [List.cons_append, List.length_cons, decode, ih]

theorem decode_reference {meant : Char} {r : List Char} {reference : String}
    (hr : reference.toList = c :: r) (cs : List Char)
    (h : references.find? (·.1.toList.isPrefixOf (c :: (r ++ cs))) = some (reference, meant)) :
    decode references 0 (c :: (r ++ cs)) = meant :: decode references 0 cs := by
  rw [decode, h]
  simp only [hr, List.length_cons, Nat.add_sub_cancel, decode_append]

theorem decode_plain (cs : List Char) (h : ∀ r ∈ references, r.1.toList.head? = some '&')
    (hc : c ≠ '&') : decode references 0 (c :: cs) = c :: decode references 0 cs := by
  have hnone : references.find? (·.1.toList.isPrefixOf (c :: cs)) = none := by
    refine List.find?_eq_none.mpr fun r hr => ?_
    have hhead := h r hr
    cases hcs : r.1.toList with
    | nil => simp [hcs] at hhead
    | cons d ds =>
      obtain rfl : d = '&' := by simpa [hcs] using hhead
      simp [List.isPrefixOf, Ne.symm hc]
  rw [decode, hnone]

/-- Decoding undoes an escaping that it undoes for every character. -/
theorem decode_flatMap {escape : Char → List Char}
    (h : ∀ c cs, decode references 0 (escape c ++ cs) = c :: decode references 0 cs)
    (cs : List Char) : decode references 0 (cs.flatMap escape) = cs := by
  induction cs with
  | nil => rfl
  | cons c cs ih => rw [List.flatMap_cons, h, ih]

theorem decode_escapeText (s : String) :
    decode textReferences 0 (Text.escapeText s).toList = s.toList := by
  rw [Text.escapeText, String.toList_ofList]
  refine decode_flatMap (fun c cs => ?_) _
  unfold Text.escapeTextChar
  split_ifs with hamp hlt hgt
  · obtain rfl : c = '&' := by simpa using hamp
    exact decode_reference rfl cs rfl
  · obtain rfl : c = '<' := by simpa using hlt
    exact decode_reference rfl cs rfl
  · obtain rfl : c = '>' := by simpa using hgt
    exact decode_reference rfl cs rfl
  · exact decode_plain cs (by decide) (by simpa using hamp)

theorem decode_escapeAttribute (s : String) :
    decode attributeReferences 0 (Text.escapeAttribute s).toList = s.toList := by
  rw [Text.escapeAttribute, String.toList_ofList]
  refine decode_flatMap (fun c cs => ?_) _
  unfold Text.escapeAttributeChar
  split_ifs with hamp hquote
  · obtain rfl : c = '&' := by simpa using hamp
    exact decode_reference rfl cs rfl
  · obtain rfl : c = '\x22' := by simpa using hquote
    exact decode_reference rfl cs rfl
  · exact decode_plain cs (by decide) (by simpa using hamp)

theorem escapeText_eq_empty_iff (s : String) : Text.escapeText s = "" ↔ s = "" := by
  have hchar : ∀ c, Text.escapeTextChar c ≠ [] := by
    intro c
    unfold Text.escapeTextChar
    repeat' split
    all_goals simp
  rw [← String.toList_eq_nil_iff, ← String.toList_eq_nil_iff, Text.escapeText,
    String.toList_ofList]
  cases s.toList with
  | nil => simp
  | cons c cs => simp [hchar c]

theorem ne_of_all {cs : List Char} {d : Char} (h : cs.all (· != d) = true) (hc : c ∈ cs) :
    c ≠ d := by
  simpa using List.all_eq_true.mp h c hc

theorem ne_of_mem_escapeText (h : c ∈ (Text.escapeText s).toList) : c ≠ '<' := by
  rw [Text.escapeText, String.toList_ofList, List.mem_flatMap] at h
  obtain ⟨d, -, hc⟩ := h
  unfold Text.escapeTextChar at hc
  split_ifs at hc with hamp hlt hgt
  · exact ne_of_all (by decide) hc
  · exact ne_of_all (by decide) hc
  · exact ne_of_all (by decide) hc
  · obtain rfl := List.mem_singleton.mp hc
    simpa using hlt

theorem ne_of_mem_escapeAttribute (h : c ∈ (Text.escapeAttribute s).toList) : c ≠ '\x22' := by
  rw [Text.escapeAttribute, String.toList_ofList, List.mem_flatMap] at h
  obtain ⟨d, -, hc⟩ := h
  unfold Text.escapeAttributeChar at hc
  split_ifs at hc with hamp hquote
  · exact ne_of_all (by decide) hc
  · exact ne_of_all (by decide) hc
  · obtain rfl := List.mem_singleton.mp hc
    simpa using hquote

/-! ## Reading one token -/

theorem takeWhile_append {p : Char → Bool} (has : ∀ c ∈ as, p c = true)
    (hbs : ∀ c ∈ bs.head?, p c = false) : (as ++ bs).takeWhile p = as := by
  rw [List.takeWhile_append_of_pos has]
  cases bs with
  | nil => simp
  | cons b bs => simp [hbs b rfl]

theorem dropWhile_append {p : Char → Bool} (has : ∀ c ∈ as, p c = true)
    (hbs : ∀ c ∈ bs.head?, p c = false) : (as ++ bs).dropWhile p = bs := by
  rw [List.dropWhile_append_of_pos has]
  cases bs with
  | nil => simp
  | cons b bs => simp [hbs b rfl]

theorem isNameChar_of_isName (h : isName s = true) : ∀ c ∈ s.toList, isNameChar c = true :=
  List.all_eq_true.mp h

/-- A comment ends where it is meant to. -/
theorem splitAt?_commentEnd {data : List Char} (h : ¬"-->".toList <:+: data) (rest : List Char) :
    splitAt? "-->".toList (data ++ ("-->".toList ++ rest)) = some (data, rest) := by
  induction data with
  | nil => rfl
  | cons c cs ih =>
    have hcs : ¬"-->".toList <:+: cs := fun hinfix => h (List.infix_cons hinfix)
    have hprefix : "-->".toList.isPrefixOf (c :: cs ++ ("-->".toList ++ rest)) = false := by
      -- An end that begins inside the data and goes beyond it would not match.
      rw [Bool.eq_false_iff, ne_eq, List.isPrefixOf_iff_prefix]
      intro hprefix
      refine h (List.IsPrefix.isInfix ?_)
      match cs with
      | [] => simp at hprefix
      | [d] => simp at hprefix
      | d :: e :: cs => simpa using hprefix
    rw [List.cons_append] at hprefix ⊢
    simp only [splitAt?, hprefix, Bool.false_eq_true, ite_false, ih hcs, Option.map_some]

/-- What follows an attribute: another one, or the end of the tag. -/
def EndsAttribute (cs : List Char) : Prop := ∃ rest, cs = ' ' :: rest ∨ cs = '>' :: rest

theorem EndsAttribute.head {cs : List Char} (h : EndsAttribute cs) :
    ∀ c ∈ cs.head?, isNameChar c = false ∧ c ≠ '=' ∧ c ∉ "!--".toList := by
  obtain ⟨rest, rfl | rfl⟩ := h
  · simp [isNameChar, Text.isBlank]
  · simp [isNameChar]

/-- The value of an attribute after its name. -/
def valueMarkup (value : String) : String :=
  if value.isEmpty then "" else "=\x22" ++ Text.escapeAttribute value ++ "\x22"

theorem toList_attributeMarkup (key value : String) :
    (attributeMarkup key value).toList = ' ' :: (key.toList ++ (valueMarkup value).toList) := by
  unfold attributeMarkup valueMarkup
  split <;> simp

theorem toList_writeAttributes_cons (a : String × String) (as : List (String × String)) :
    (writeAttributes (a :: as)).toList =
      ' ' :: (a.1.toList ++ ((valueMarkup a.2).toList ++ (writeAttributes as).toList)) := by
  simp [writeAttributes, String.join_cons, toList_attributeMarkup]

theorem endsAttribute_writeAttributes (attributes : List (String × String)) (rest : List Char) :
    EndsAttribute ((writeAttributes attributes).toList ++ '>' :: rest) := by
  cases attributes with
  | nil => exact ⟨rest, .inr rfl⟩
  | cons a as =>
    rw [toList_writeAttributes_cons]
    exact ⟨_, .inl rfl⟩

theorem value?_valueMarkup (value : String) (h : EndsAttribute rest) :
    value? ((valueMarkup value).toList ++ rest) = some (value, rest) := by
  unfold valueMarkup
  split
  · rename_i hempty
    obtain rfl := String.isEmpty_iff.mp hempty
    obtain ⟨rest, rfl | rfl⟩ := h <;> rfl
  · have hall : ∀ c ∈ (Text.escapeAttribute value).toList, (c != '\x22') = true := fun c hc => by
      simpa using ne_of_mem_escapeAttribute hc
    have hhead : ∀ c ∈ ('\x22' :: rest).head?, (c != '\x22') = false := by simp
    simp only [String.toList_append, List.append_assoc]
    change value? ('=' :: '\x22' :: ((Text.escapeAttribute value).toList ++ '\x22' :: rest)) = _
    rw [value?, dropWhile_append hall hhead, takeWhile_append hall hhead, decode_escapeAttribute,
      String.ofList_toList]

/-- No character of a value belongs to the name before it. -/
theorem head_valueMarkup (value : String) (h : EndsAttribute rest) :
    ∀ c ∈ ((valueMarkup value).toList ++ rest).head?, isNameChar c = false := by
  unfold valueMarkup
  split
  · exact fun c hc => (h.head c hc).1
  · simp [isNameChar]

theorem attributes?_writeAttributes {limit : Nat} (hnames : ∀ a ∈ attributes, isName a.1 = true)
    (hlimit : attributes.length ≤ limit) (rest : List Char) :
    attributes? limit ((writeAttributes attributes).toList ++ '>' :: rest) =
      some (attributes, rest) := by
  induction attributes generalizing limit with
  | nil => cases limit <;> rfl
  | cons a as ih =>
    obtain ⟨limit, rfl⟩ := Nat.exists_eq_add_one.mpr (Nat.lt_of_lt_of_le (Nat.succ_pos _) hlimit)
    have hends := endsAttribute_writeAttributes as rest
    have hname := isNameChar_of_isName (hnames a (by simp))
    have hhead := head_valueMarkup a.2 hends
    rw [toList_writeAttributes_cons, List.cons_append, List.append_assoc, List.append_assoc,
      attributes?, dropWhile_append hname hhead, takeWhile_append hname hhead,
      value?_valueMarkup a.2 hends, String.ofList_toList]
    have hrest := ih (fun b hb => hnames b (by simp [hb])) (Nat.le_of_succ_le_succ hlimit)
    simp [hrest]

theorem not_prefix_append {p : List Char} (h : ¬p <+: as) (hbs : ∀ c ∈ bs.head?, c ∉ p) :
    ¬p <+: as ++ bs := by
  intro hprefix
  rcases List.prefix_or_prefix_of_prefix hprefix (List.prefix_append as bs) with hp | ⟨q, rfl⟩
  · exact h hp
  · rw [List.prefix_append_right_inj] at hprefix
    cases q with
    | nil => simp at h
    | cons c q =>
      obtain ⟨rest, rfl⟩ := hprefix
      exact hbs c rfl (by simp)

theorem opening?_write (hname : isName name = true) (hnames : ∀ a ∈ attributes, isName a.1 = true)
    (rest : List Char) :
    opening? (name.toList ++ ((writeAttributes attributes).toList ++ '>' :: rest)) =
      some (.opening name attributes, rest) := by
  have hends := endsAttribute_writeAttributes attributes rest
  have hchars := isNameChar_of_isName hname
  have hhead := fun c hc => (hends.head c hc).1
  have hlength : attributes.length ≤ (writeAttributes attributes).toList.length := by
    clear hends hhead hnames
    induction attributes with
    | nil => simp
    | cons a as ih =>
      rw [toList_writeAttributes_cons]
      simp only [List.length_cons, List.length_append]
      omega
  have hlimit : attributes.length ≤
      (name.toList ++ ((writeAttributes attributes).toList ++ '>' :: rest)).length := by
    simp only [List.length_append, List.length_cons]
    omega
  rw [opening?, dropWhile_append hchars hhead, takeWhile_append hchars hhead,
    attributes?_writeAttributes hnames hlimit, String.ofList_toList]
  rfl

theorem closing?_write (hname : isName name = true) (rest : List Char) :
    closing? (name.toList ++ '>' :: rest) = some (.closing name, rest) := by
  have hchars := isNameChar_of_isName hname
  have hhead : ∀ c ∈ ('>' :: rest).head?, isNameChar c = false := by simp [isNameChar]
  rw [closing?, dropWhile_append hchars hhead, takeWhile_append hchars hhead,
    String.ofList_toList]
  rfl

theorem token?_escapeText {data : String} (hdata : data ≠ "") (hrest : ∀ c ∈ rest.head?, c = '<') :
    token? ((Text.escapeText data).toList ++ rest) = some (.text data, rest) := by
  have hall : ∀ c ∈ (Text.escapeText data).toList, (c != '<') = true := fun c hc => by
    simpa using ne_of_mem_escapeText hc
  have hhead : ∀ c ∈ rest.head?, (c != '<') = false := fun c hc => by simp [hrest c hc]
  have hne : (Text.escapeText data).toList ≠ [] := by
    simpa [escapeText_eq_empty_iff] using hdata
  unfold token?
  split
  · rename_i cs heq
    cases htext : (Text.escapeText data).toList with
    | nil => exact absurd htext hne
    | cons c text =>
      rw [htext, List.cons_append] at heq
      obtain ⟨rfl, -⟩ := List.cons.inj heq
      simpa using hall '<' (by simp [htext])
  · rw [takeWhile_append hall hhead, dropWhile_append hall hhead, decode_escapeText,
      String.ofList_toList]

theorem token?_opening (hname : isTagName name = true)
    (hnames : ∀ a ∈ attributes, isName a.1 = true) (rest : List Char) :
    token? ('<' :: (name.toList ++ ((writeAttributes attributes).toList ++ '>' :: rest))) =
      some (.opening name attributes, rest) := by
  simp only [isTagName, Bool.and_eq_true, Bool.not_eq_true', Bool.eq_false_iff, ne_eq,
    List.isPrefixOf_iff_prefix] at hname
  have hends := endsAttribute_writeAttributes attributes rest
  have hcomment := not_prefix_append hname.2 fun c hc => (hends.head c hc).2.2
  have hopening := opening?_write hname.1 hnames rest
  rw [← List.isPrefixOf_iff_prefix, ← ne_eq, ← Bool.eq_false_iff] at hcomment
  simp only [token?, hcomment, Bool.false_eq_true, ite_false]
  -- A name does not begin with a slash, and neither does what follows one.
  have hslash : ∀ cs, name.toList ++ ((writeAttributes attributes).toList ++ '>' :: rest) ≠
      '/' :: cs := by
    intro cs heq
    have hhead :
        '/' ∈ (name.toList ++ ((writeAttributes attributes).toList ++ '>' :: rest)).head? := by
      simp [heq]
    cases hchars : name.toList with
    | nil =>
      rw [hchars, List.nil_append] at hhead
      obtain ⟨_, h | h⟩ := hends <;> simp [h] at hhead
    | cons c chars =>
      obtain rfl : c = '/' := by simpa [hchars] using hhead
      have := isNameChar_of_isName hname.1 '/' (by simp [hchars])
      simp [isNameChar] at this
  split
  · rename_i cs heq
    exact absurd heq (hslash cs)
  · exact hopening

/-- A token is read from what is written for it, unless it is a text that goes on. -/
theorem token?_write (h : t.isReadable = true) (hrest : t.isText = true → ∀ c ∈ rest.head?, c = '<') :
    token? (t.write.toList ++ rest) = some (t, rest) := by
  cases t with
  | text data => exact token?_escapeText (by simpa [Token.isReadable] using h) (hrest rfl)
  | comment data =>
    have hdata : ¬"-->".toList <:+: data.toList := by
      simpa [Token.isReadable, isCommentData] using h
    have hend := splitAt?_commentEnd hdata rest
    have hwrite : (Token.comment data).write.toList ++ rest =
        '<' :: '!' :: '-' :: '-' :: (data.toList ++ ("-->".toList ++ rest)) := by
      simp [Token.write]
    rw [hwrite]
    unfold token?
    simp only [List.drop_succ_cons, List.drop_zero, hend, Option.map_some, String.ofList_toList]
    rfl
  | opening name attributes =>
    simp only [Token.isReadable, Bool.and_eq_true, List.all_eq_true] at h
    have hwrite : (Token.opening name attributes).write.toList ++ rest =
        '<' :: (name.toList ++ ((writeAttributes attributes).toList ++ '>' :: rest)) := by
      simp [Token.write]
    rw [hwrite]
    exact token?_opening h.1 h.2 rest
  | closing name =>
    have hwrite : (Token.closing name).write.toList ++ rest =
        '<' :: '/' :: (name.toList ++ '>' :: rest) := by
      simp [Token.write]
    rw [hwrite, token?]
    exact closing?_write h rest

/-! ## Reading all tokens -/

theorem head_write_of_not_isText (h : t.isText = false) : t.write.toList.head? = some '<' := by
  cases t with
  | text data => simp [Token.isText] at h
  | comment data | opening name attributes | closing name => simp [Token.write]

theorem write_ne_nil (h : t.isReadable = true) : t.write.toList ≠ [] := by
  cases t with
  | text data =>
    simpa [Token.write, escapeText_eq_empty_iff, Token.isReadable] using h
  | comment data | opening name attributes | closing name => simp [Token.write]

theorem toList_writeTokens_cons (t : Token) (ts : List Token) :
    (writeTokens (t :: ts)).toList = t.write.toList ++ (writeTokens ts).toList := by
  simp [writeTokens, String.join_cons]

/-- Tokens that can be told apart are read from what is written for them. -/
theorem tokens?_writeTokens {ts : List Token} {afterText : Bool} {limit : Nat}
    (h : areReadable afterText ts = true) (hlimit : ts.length ≤ limit) :
    tokens? limit (writeTokens ts).toList = some ts := by
  induction ts generalizing afterText limit with
  | nil => cases limit <;> rfl
  | cons t ts ih =>
    simp only [areReadable, Bool.and_eq_true] at h
    obtain ⟨limit, rfl⟩ := Nat.exists_eq_add_one.mpr (Nat.lt_of_lt_of_le (Nat.succ_pos _) hlimit)
    have hnext : t.isText = true → ∀ c ∈ (writeTokens ts).toList.head?, c = '<' := by
      intro htext
      cases ts with
      | nil => simp [writeTokens]
      | cons u us =>
        have hus := h.2
        simp only [areReadable, htext, Bool.true_and, Bool.and_eq_true,
          Bool.not_eq_true'] at hus
        have hu : u.isText = false := hus.1.2
        simp [toList_writeTokens_cons, head_write_of_not_isText hu]
    have htoken := token?_write h.1.1 hnext
    have hrest := ih h.2 (Nat.le_of_succ_le_succ hlimit)
    rw [toList_writeTokens_cons]
    cases hwrite : t.write.toList with
    | nil => exact absurd hwrite (write_ne_nil h.1.1)
    | cons c cs =>
      rw [hwrite, List.cons_append] at htoken
      rw [List.cons_append, tokens?, htoken]
      · simp [hrest]
      · simp

/-! ## Reading trees -/

variable {isVoid : String → Bool}

mutual

theorem Tree.areReadable_tokens {t : Tree} {afterText : Bool} {ts : List Token}
    (h : t.isWritable isVoid = true) (hafter : (afterText && t.isText) = false)
    (hts : areReadable t.isText ts = true) : areReadable afterText (t.tokens isVoid ++ ts) = true :=
  match t with
  | .text data => by
    have hreadable : (Token.text data).isReadable = true := h
    have hfirst : (afterText && (Token.text data).isText) = false := hafter
    have hrest : areReadable (Token.text data).isText ts = true := hts
    simp [Tree.tokens, areReadable, hreadable, hfirst, hrest]
  | .comment data => by
    have hreadable : (Token.comment data).isReadable = true := h
    simpa [Tree.tokens, areReadable, Token.isText, Tree.isText, hreadable] using hts
  | .element name attributes children => by
    simp only [Tree.isWritable, isTagName, Bool.and_eq_true] at h
    obtain ⟨⟨⟨hname, hattributes⟩, -⟩, hchildren⟩ := h
    have hopening : (Token.opening name attributes).isReadable = true := by
      simp only [Token.isReadable, isTagName, Bool.and_eq_true]
      exact ⟨hname, hattributes⟩
    rw [Tree.tokens, List.cons_append, areReadable, hopening]
    cases isVoid name with
    | true => simpa [Token.isText, Tree.isText] using hts
    | false =>
      have hclosing : ∀ b, areReadable b (.closing name :: ts) = true := fun b => by
        simpa [areReadable, Token.isReadable, Token.isText] using ⟨hname.1, hts⟩
      simpa [Token.isText] using areReadable_allTokens hchildren hclosing

/-- The tokens of trees without two texts in a row can be told apart. -/
theorem areReadable_allTokens {ts : List Tree} {afterText : Bool} {us : List Token}
    (h : areWritable isVoid afterText ts = true) (hus : ∀ b, areReadable b us = true) :
    areReadable afterText (allTokens isVoid ts ++ us) = true :=
  match ts with
  | [] => hus afterText
  | t :: ts => by
    simp only [areWritable, Bool.and_eq_true, Bool.not_eq_true'] at h
    rw [allTokens, List.append_assoc]
    exact t.areReadable_tokens h.1.1 h.1.2 (areReadable_allTokens h.2 hus)

end

mutual

theorem Tree.trees?_tokens {t : Tree} (h : t.isWritable isVoid = true) (tags : List OpenTag)
    (done : List Tree) (ts : List Token) :
    trees? isVoid tags done (t.tokens isVoid ++ ts) = trees? isVoid tags (done ++ [t]) ts :=
  match t with
  | .text data => by rw [Tree.tokens, List.singleton_append, trees?]
  | .comment data => by rw [Tree.tokens, List.singleton_append, trees?]
  | .element name attributes children => by
    simp only [Tree.isWritable, Bool.and_eq_true, Bool.or_eq_true] at h
    obtain ⟨⟨-, hvoid⟩, hchildren⟩ := h
    rw [Tree.tokens, List.cons_append, trees?]
    cases hname : isVoid name with
    | true =>
      obtain rfl : children = [] := by simpa [hname] using hvoid
      simp
    | false =>
      have hinside := trees?_allTokens hchildren (⟨name, attributes, done⟩ :: tags) []
        (.closing name :: ts)
      simpa [trees?] using hinside

theorem trees?_allTokens {fs : List Tree} {afterText : Bool}
    (h : areWritable isVoid afterText fs = true) (tags : List OpenTag) (done : List Tree)
    (ts : List Token) :
    trees? isVoid tags done (allTokens isVoid fs ++ ts) = trees? isVoid tags (done ++ fs) ts :=
  match fs with
  | [] => by rw [allTokens, List.nil_append, List.append_nil]
  | f :: fs => by
    simp only [areWritable, Bool.and_eq_true] at h
    rw [allTokens, List.append_assoc, f.trees?_tokens h.1.1, trees?_allTokens h.2,
      List.append_assoc, List.singleton_append]

end

theorem length_le_length_writeTokens {ts : List Token} {afterText : Bool}
    (h : areReadable afterText ts = true) : ts.length ≤ (writeTokens ts).toList.length := by
  induction ts generalizing afterText with
  | nil => simp
  | cons t ts ih =>
    simp only [areReadable, Bool.and_eq_true] at h
    have hpos := List.length_pos_iff.mpr (write_ne_nil h.1.1)
    have hrest := ih h.2
    rw [toList_writeTokens_cons, List.length_cons, List.length_append]
    omega

/-- A tree that can be written is read from what is written for it. -/
theorem read_write {t : Tree} (h : t.isWritable isVoid = true) :
    read isVoid (t.write isVoid) = some [t] := by
  have hreadable : areReadable false (t.tokens isVoid) = true := by
    simpa using t.areReadable_tokens h rfl (show areReadable t.isText [] = true from rfl)
  have htokens := tokens?_writeTokens hreadable (length_le_length_writeTokens hreadable)
  have htrees := t.trees?_tokens h [] [] []
  rw [List.append_nil] at htrees
  rw [read, Tree.write, htokens, Option.bind_some, htrees]
  rfl

end TemplateCompiler.Markup
