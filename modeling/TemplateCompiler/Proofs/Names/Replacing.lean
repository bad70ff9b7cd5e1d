import TemplateCompiler.Proofs.Names.Bound
import TemplateCompiler.Proofs.Script.Operating

/-! # What stands in place of a name

A qualified name is an operand wherever the name itself is one. It can be assigned to, unless it is
a call.
-/

namespace TemplateCompiler

open Script (Expr Mode ReaderState ScopeTree IsWord EndsName isReserved isWord_of_letters chainFrom
  grammar leftHandSide nextTokenOf nameWatch parseExpression? utf8Length utf8Length_append
  utf8Length_cons)
open Text (isIdentPart isIdentStart splice)

variable {o : Options} {s : Session} {script : Expr} {name head w text : String} {p : Expr → Prop}

/-- Where an operand is expected and `name` is a name, the text reads as an operand that satisfies
`p`, and reading goes on with what follows. -/
def ReadsAs (text name : String) (p : Expr → Prop) : Prop :=
  ∀ (bound depth pos : Nat) (mode : Mode) (rest : List Char) (s : ReaderState),
    mode.reserves name = false → EndsName rest →
    (nextTokenOf (pos + utf8Length text.toList) rest).1.isWord "function" = false →
    ∃ e n, p e ∧ bound ≤ n ∧
      leftHandSide (grammar (bound + 1) (depth + 4)) mode (s.at pos (text.toList ++ rest)) =
        chainFrom (grammar (bound + 1) (depth + 4)) mode n e
          (s.at (pos + utf8Length text.toList) rest)

/-- Where a property is expected, the text reads as the key `name` before the text `value`. -/
def ReadsAsPair (text name value : String) : Prop :=
  ∀ (g : Script.Grammar) (mode : Mode) (pos : Nat) (rest : List Char) (s : ReaderState),
    Script.property g mode (s.at pos (text.toList ++ rest)) =
      (g.assignment mode (s.at (pos + utf8Length name.toList + 2) (value.toList ++ rest))).map
        fun x => (.pair (.fixed name) x.1, x.2)

/-- The name is assumed to hold a value that may have to be unwrapped. -/
def Options.unwraps (o : Options) (name : String) : Bool :=
  o.inline && (o.binding? name == some .setupMaybeRef || o.binding? name == some .setupLet)

theorem readsAs_name (hw : IsWord name) (hreserved : isReserved name = false) :
    ReadsAs name name fun e => e.toTarget?.isSome = true := by
  intro bound depth pos mode rest s hmode hrest hnext
  exact ⟨_, bound + 1, rfl, Nat.le_succ _, Script.leftHandSide_name hw hreserved hmode hrest hnext⟩

theorem readsAs_member (hhead : IsWord head) (hreserved : isReserved head = false)
    (hmode : ∀ mode : Mode, mode.reserves name = false → mode.reserves head = false) (hw : IsWord w)
    (htext : text.toList = head.toList ++ '.' :: w.toList) :
    ReadsAs text name fun e => e.toTarget?.isSome = true := by
  intro bound depth pos mode rest s hname hrest hnext
  have hlength : pos + utf8Length text.toList =
      pos + utf8Length head.toList + 1 + utf8Length w.toList := by
    simp only [htext, utf8Length_append, utf8Length_cons, show Char.utf8Size '.' = 1 by decide]
    omega
  refine ⟨.form (.member w) [.ident ⟨head, pos, pos + utf8Length head.toList⟩], bound, rfl,
    Nat.le_refl _, ?_⟩
  rw [hlength, htext, List.append_assoc, List.cons_append,
    Script.leftHandSide_name hhead hreserved (hmode mode hname), Script.chainFrom_member hw hrest]
  · simp [EndsName, show isIdentPart '.' = false by decide]
  · rw [Script.nextTokenOf_dot hw]
    rfl

theorem readsAs_call (hhead : IsWord head) (hreserved : isReserved head = false)
    (hmode : ∀ mode : Mode, mode.reserves head = false) (hw : IsWord name)
    (hname : isReserved name = false)
    (htext : text.toList = head.toList ++ '(' :: (name.toList ++ [')'])) :
    ReadsAs text name fun e => e.toTarget?.isSome = false := by
  intro bound depth pos mode rest s hreserves hrest hnext
  have hlength : pos + utf8Length text.toList =
      pos + utf8Length head.toList + 1 + utf8Length name.toList + 1 := by
    simp only [htext, utf8Length_append, utf8Length_cons, Script.utf8Length_nil,
      show Char.utf8Size '(' = 1 by decide, show Char.utf8Size ')' = 1 by decide]
    omega
  refine ⟨.form .call [.ident ⟨head, pos, pos + utf8Length head.toList⟩,
    .ident ⟨name, pos + utf8Length head.toList + 1,
      pos + utf8Length head.toList + 1 + utf8Length name.toList⟩], bound, rfl, Nat.le_refl _, ?_⟩
  rw [hlength, htext, List.append_assoc, List.cons_append, List.append_assoc, List.singleton_append,
    Script.leftHandSide_name hhead hreserved (hmode mode), Script.chainFrom_call hw hname hreserves]
  · simp [EndsName, show isIdentPart '(' = false by decide]
  · rw [Script.nextTokenOf_lparen]
    rfl

theorem readsAs_property (object : String) (hw : IsWord name)
    (hletters : object.toList.head?.any isIdentStart = true ∧
      object.toList.tail.all isIdentPart = true)
    (hother : isReserved object = false ∧ object ≠ "await" ∧ object ≠ "yield")
    (htext : text.toList = object.toList ++ '.' :: name.toList) :
    ReadsAs text name fun e => e.toTarget?.isSome = true := by
  have hword : IsWord object := isWord_of_letters hletters.1 hletters.2
  refine readsAs_member hword hother.1 (fun mode _ => ?_) hw htext
  simp [Mode.reserves, hother.2]

/-- A qualified name is an operand, and a target unless it is unwrapped. -/
theorem readsAs_qualify (hw : IsWord name) (hreserved : isReserved name = false) :
    ReadsAs (o.qualify name) name fun e => e.toTarget?.isSome = !o.unwraps name := by
  have hunref (text : String)
      (htext : text.toList = "_unref".toList ++ '(' :: (name.toList ++ [')'])) :
      ReadsAs text name fun e => e.toTarget?.isSome = false :=
    readsAs_call (isWord_of_letters (by decide) (by decide)) (by decide)
      (fun mode => by simp [Mode.reserves]) hw hreserved htext
  unfold Options.qualify Options.unwraps
  cases o.inline with
  | true =>
    simp only [if_true, Bool.true_and]
    split
    case h_6 hmaybe hlet _ =>
      simp only [beq_eq_false_iff_ne.mpr hmaybe, beq_eq_false_iff_ne.mpr hlet, Bool.or_self,
        Bool.not_false]
      exact readsAs_property "_ctx" hw (by decide) (by decide) (by simp)
    all_goals rw [‹o.binding? name = _›]
    · exact readsAs_name hw hreserved
    · exact readsAs_member (w := "value") hw hreserved (fun _ h => h)
        (isWord_of_letters (by decide) (by decide)) (by simp)
    · exact hunref _ (by simp)
    · exact hunref _ (by simp)
    · exact readsAs_property "__props" hw (by decide) (by decide) (by simp)
  | false =>
    simp only [Bool.false_eq_true, if_false, Bool.false_and, Bool.not_false]
    split
    · exact readsAs_property "$data" hw (by decide) (by decide) (by simp)
    · exact readsAs_property "$props" hw (by decide) (by decide) (by simp)
    · exact readsAs_property "$options" hw (by decide) (by decide) (by simp)
    · exact readsAs_property "$setup" hw (by decide) (by decide) (by simp)
    · exact readsAs_property "_ctx" hw (by decide) (by decide) (by simp)

/-! ## Expressions -/

/-- What is written for a shorthand is a key with the qualified name as its value, and what is written
for any other reference is the qualified name. -/
def WritesQualified (o : Options) (r : Script.Reference) : Prop :=
  if r.shorthand then
    ReadsAsPair (String.ofList (qualifyingEdit o r).text) r.ident.name (o.qualify r.ident.name)
  else String.ofList (qualifyingEdit o r).text = o.qualify r.ident.name

theorem writesQualified {r : Script.Reference} (hw : IsWord r.ident.name) : WritesQualified o r := by
  unfold WritesQualified
  cases hshorthand : r.shorthand with
  | true =>
    intro g mode pos rest s
    have hhead : ((o.qualify r.ident.name).toList ++ rest).head?.any isIdentStart = true := by
      obtain ⟨c, cs, hname, hc, -⟩ := hw
      unfold Options.qualify
      split <;> split <;> simp [hname, hc] <;> decide
    simpa [qualifyingEdit, hshorthand] using Script.property_pair hw hhead
  | false => simp [qualifyingEdit, hshorthand]

theorem edits_fit {e : Expression} (h : parseExpression? e.content = some script) :
    Fits 0 (e.edits o s script) e.content.toList := by
  obtain ⟨lo, hi, hlaid⟩ := Script.laid_of_parseExpression? h
  unfold Expression.edits
  split
  · exact .nil _ _
  · have hrs := hlaid.sublist (qualifiedReferences_sublist (s := s) hlaid)
    refine @fits_of_laid _ _ [] e.content.toList [] (fun _ _ => ⟨rfl, rfl⟩)
      ⟨by simp, fun x hx => ⟨Nat.zero_le _, ?_⟩, ?_, hrs.ordered⟩
    · obtain ⟨before, word, after, htext, -, -, hstop⟩ := hrs.placed x hx
      simp only [htext, utf8Length_append, List.nil_append] at hstop ⊢
      omega
    · simpa using hrs.placed

/-- Qualifying replaces the open references of the expression, and nothing else. What stands in
place of a reference is an operand as the reference is, and a target like it unless it is
unwrapped. A shorthand keeps its key before the operand. -/
theorem qualified_replaces_operands {e : Expression}
    (h : parseExpression? e.content = some script) :
    ∃ e', e.qualified o s = .ok e' ∧
      Fits 0 (e.edits o s script) e.content.toList ∧
      e'.content.toList = splice 0 (e.edits o s script) e.content.toList ∧
      ∀ r ∈ qualifiedReferences s (ScopeTree.ofExpr script),
        (ReadsAs r.ident.name r.ident.name fun t => t.toTarget?.isSome = true) ∧
        (ReadsAs (o.qualify r.ident.name) r.ident.name fun t =>
          t.toTarget?.isSome = !o.unwraps r.ident.name) ∧
        WritesQualified o r := by
  obtain ⟨e', hok, hcontent⟩ := qualified_eq_splice (o := o) (s := s) h
  obtain ⟨lo, hi, hlaid⟩ := Script.laid_of_parseExpression? h
  refine ⟨e', hok, edits_fit h, hcontent, fun r hr => ?_⟩
  have hid : r.ident ∈ script.written :=
    (qualifiedReferences_sublist hlaid).subset (List.mem_map_of_mem hr)
  obtain ⟨hword, hreserved⟩ :=
    Script.all_of_parseExpression? nameWatch h (fun _ => Script.isWord_of_word?) _ hid
  exact ⟨readsAs_name hword hreserved, readsAs_qualify hword hreserved, writesQualified hword⟩

/-- Names of several kinds, used and assigned to. -/
def mixedAssignment : Expression where
  content := "[a.b, c, d] = [x, y, { z }]"
  isStatic := false
  location := default

def mixedOptions : Options where
  qualifyNames := true
  inline := true
  bindings := [("a", .setupMaybeRef), ("c", .setupRef), ("d", .props), ("x", .setupLet)]

theorem qualified_replaces_operands_mixedAssignment :
    (mixedAssignment.qualified mixedOptions {}).toOption.map (·.content) =
      some "[_unref(a).b, c.value, __props.d] = [_unref(x), _ctx.y, { z: _ctx.z }]" ∧
    ∃ script, parseExpression? mixedAssignment.content = some script ∧
      ∃ e', mixedAssignment.qualified mixedOptions {} = .ok e' ∧
        Fits 0 (mixedAssignment.edits mixedOptions {} script) mixedAssignment.content.toList ∧
        e'.content.toList =
          splice 0 (mixedAssignment.edits mixedOptions {} script) mixedAssignment.content.toList ∧
        ∀ r ∈ qualifiedReferences {} (ScopeTree.ofExpr script),
          (ReadsAs r.ident.name r.ident.name fun t => t.toTarget?.isSome = true) ∧
          (ReadsAs (mixedOptions.qualify r.ident.name) r.ident.name fun t =>
            t.toTarget?.isSome = !mixedOptions.unwraps r.ident.name) ∧
          WritesQualified mixedOptions r := by
  refine ⟨by decide +kernel, ?_⟩
  have hparse : (parseExpression? mixedAssignment.content).isSome = true := by decide +kernel
  obtain ⟨script, hscript⟩ := Option.isSome_iff_exists.mp hparse
  exact ⟨script, hscript, qualified_replaces_operands hscript⟩

/-- An unwrapped name is no target: these texts can be read, but not what they become. -/
theorem unwrapped_targets_unreadable :
    ([("x = 1", "_unref(x) = 1"), ("x++", "_unref(x)++"), ("[x] = y", "[_unref(x)] = _ctx.y")].all
      fun (content, result) =>
        (parseExpression? content).isSome && (parseExpression? result).isNone &&
          ((⟨content, false, default⟩ : Expression).qualified
            { qualifyNames := true, inline := true, bindings := [("x", .setupMaybeRef)] }
            {}).toOption.any (·.content == result)) = true := by
  decide +kernel

end TemplateCompiler
