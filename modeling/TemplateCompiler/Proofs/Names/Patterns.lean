import TemplateCompiler.Proofs.Names.Bound
import TemplateCompiler.Proofs.Names.Sources
import TemplateCompiler.Proofs.Script.Arrangement
import TemplateCompiler.Proofs.Script.PatternReading
import TemplateCompiler.Proofs.Script.Quoting
import TemplateCompiler.Proofs.Script.Recorded
import TemplateCompiler.Proofs.Transform.Made

/-! # Patterns of loops

The pattern of a loop is passed on as it is written. Names are qualified in all other expressions of
a loop, but not in the defaults and the computed keys of its pattern.
-/

namespace TemplateCompiler

open Script (Binding Ident Laid Placed Stmt parseProgram? utf8Length utf8Length_append)
open Template (Fragment Node)

/-! ## Texts -/

/-- An identifier within a part of a text is written in that part. -/
theorem Script.Placed.within {before x after : List Char} {id : Ident}
    (h : Placed (before ++ (x ++ after)) id) (hstart : utf8Length before ≤ id.start)
    (hstop : id.stop ≤ utf8Length (before ++ x)) :
    Placed x ⟨id.name, id.start - utf8Length before, id.stop - utf8Length before⟩ := by
  obtain ⟨a, word, b, htext, hword, ha, hend⟩ := h
  obtain ⟨gap, rfl, hgap⟩ := exists_append_of_utf8Length_le htext (by omega)
  simp only [utf8Length_append] at ha hend hstop
  have hgap : (gap ++ word) ++ b = x ++ after := by simpa using hgap.symm
  obtain ⟨rest, rfl, -⟩ := exists_append_of_utf8Length_le hgap (by rw [utf8Length_append]; omega)
  refine ⟨gap, word, rest, by simp, hword, by dsimp only; omega, ?_⟩
  rw [utf8Length_append]
  dsimp only
  omega

/-- The identifiers of a program are written in its text, one after the other. -/
theorem Script.laid_of_parseProgram? {source : String} {body : List Stmt}
    (h : parseProgram? source = some body) :
    ∃ lo hi, Laid source.toList lo (stmtsWritten body) hi := by
  obtain ⟨q, -, hspells, -⟩ := spells_of_parseProgram? h
  have hlaid := (hspells.reads (placeTrack source.toList) (located_nextTokenOf [] source.toList)).2
  exact ⟨_, _, (stmts_matched body).idents ▸ hlaid⟩

/-! ## Names of patterns -/

namespace Script

mutual

theorem Binding.idents_sublist : ∀ b : Binding, b.idents.Sublist b.written
  | .name _ => .refl _
  | .array bs | .object bs => bindingIdents_sublist bs
  | .withDefault b _ => b.idents_sublist.trans (List.sublist_append_left _ _)
  | .hole => .slnil
  | .rest b => b.idents_sublist
  | .property _ b => b.idents_sublist.trans (List.sublist_append_right _ _)

theorem bindingIdents_sublist : ∀ bs : List Binding, (bindingIdents bs).Sublist (bindingsWritten bs)
  | [] => .slnil
  | b :: bs => b.idents_sublist.append (bindingIdents_sublist bs)

end

theorem Laid.unique {text : List Char} {lo lo' hi hi' : Nat} {xs ys : List Ident}
    (hxs : Laid text lo xs hi) (hys : Laid text lo' ys hi') (h : ∀ id, id ∈ xs ↔ id ∈ ys) :
    xs = ys := by
  refine List.Perm.eq_of_pairwise (fun x y hx hy hle hge => ?_) hxs.ordered hys.ordered
    ((List.perm_ext_iff_of_nodup hxs.nodup hys.nodup).mpr fun _ => h _)
  have := (hxs.placed x hx).start_lt_stop
  have := (hys.placed y hy).start_lt_stop
  omega

variable {pattern : String} {names : List String}

theorem patternNames?_eq_some : patternNames? pattern = some names ↔ ∃ kind b bs body,
    parseProgram? ("let " ++ pattern ++ " = _;") = some (.declare kind (b :: bs) :: body) ∧
      b.idents.map (·.name) = names := by
  constructor
  · intro h
    obtain ⟨program, hparse, hnames⟩ := Option.bind_eq_some_iff.mp h
    split at hnames
    · exact ⟨_, _, _, _, hparse, Option.some.inj hnames⟩
    · cases hnames
  · rintro ⟨kind, b, bs, body, hparse, rfl⟩
    rw [patternNames?, hparse]
    rfl

end Script

/-- A pattern has names exactly if a program comes from it, between `let` and a value, that begins
with a declaration. They are those that the first declared pattern binds, in the order in which they
are written. More may be declared there, and other statements may follow. A text that is one pattern
has the names of this pattern. -/
theorem pattern_names_iff (pattern : String) (names : List String) :
    (Script.patternNames? pattern = some names ↔ ∃ kind b bs body ids lo hi,
      parseProgram? ("let " ++ pattern ++ " = _;") = some (.declare kind (b :: bs) :: body) ∧
        (∀ id, id ∈ ids ↔ b.Binds id) ∧ Laid ("let " ++ pattern ++ " = _;").toList lo ids hi ∧
        ids.map (·.name) = names) ∧
      ∀ b, Script.IsPattern pattern b → Script.patternNames? pattern = some (b.idents.map (·.name)) := by
  have hlaid {kind b bs body}
      (h : parseProgram? ("let " ++ pattern ++ " = _;") = some (.declare kind (b :: bs) :: body)) :
      ∃ lo hi, Laid ("let " ++ pattern ++ " = _;").toList lo b.idents hi := by
    obtain ⟨lo, hi, hlaid⟩ := Script.laid_of_parseProgram? h
    refine ⟨lo, hi, hlaid.sublist (.trans ?_ (List.sublist_append_left (_ ++ _) _))⟩
    exact b.idents_sublist.trans (List.sublist_append_left _ _)
  refine ⟨Script.patternNames?_eq_some.trans ⟨?_, ?_⟩, fun _ h => h.names_eq⟩
  · rintro ⟨kind, b, bs, body, hparse, hnames⟩
    obtain ⟨lo, hi, h⟩ := hlaid hparse
    exact ⟨kind, b, bs, body, _, lo, hi, hparse, fun _ => b.mem_idents, h, hnames⟩
  · rintro ⟨kind, b, bs, body, ids, lo, hi, hparse, hids, h, hnames⟩
    obtain ⟨_, _, hb⟩ := hlaid hparse
    obtain rfl := h.unique hb fun id => (hids id).trans b.mem_idents.symm
    exact ⟨kind, b, bs, body, hparse, hnames⟩

/-- Several patterns, and a pattern with a value, pass for the first pattern. One with a comment behind
it has no names. -/
theorem patterns_misread :
    Script.patternNames? "a, b" = some ["a"] ∧ Script.patternNames? "a = b" = some ["a"] ∧
      Script.patternNames? "\x7b a \x7d // x" = none := by
  decide +kernel

/-! ## Values of loops -/

/-- The value is the pattern as it is written, between white space. The names of the pattern are read
from a text in which the value begins at the byte `start`, and whatever occurs free in the value
stands there with its own letters. -/
def KeepsPattern (pattern : String) (value : List Char) : Prop :=
  ∃ before after kind b bs body start, pattern.toList = before ++ (value ++ after) ∧
    (∀ c ∈ before ++ after, Text.isWhiteSpace c = true) ∧
    parseProgram? ("let " ++ pattern ++ " = _;") = some (.declare kind (b :: bs) :: body) ∧
    start = utf8Length ("let ".toList ++ before) ∧
    ∀ x ∈ b.free false, start ≤ x.ident.start → x.ident.stop ≤ start + utf8Length value →
      Placed value ⟨x.ident.name, x.ident.start - start, x.ident.stop - start⟩

theorem keepsPattern_trim {pattern : String} {names : List String}
    (h : Script.patternNames? pattern = some names) :
    KeepsPattern pattern (Text.trim pattern).toList := by
  obtain ⟨before, after, heq, hblank⟩ := Script.exists_append_trim pattern
  obtain ⟨kind, b, bs, body, hparse, -⟩ := Script.patternNames?_eq_some.mp h
  refine ⟨before, after, kind, b, bs, body, _, heq, hblank, hparse, rfl, fun x hx hstart hstop => ?_⟩
  obtain ⟨lo, hi, hlaid⟩ := Script.laid_of_parseProgram? hparse
  have hplaced := hlaid.placed x.ident (by
    simp [Script.stmtsWritten, Script.bindingsWritten, (b.separated false).free_written x hx])
  have htext : ("let " ++ pattern ++ " = _;").toList = ("let ".toList ++ before) ++
      ((Text.trim pattern).toList ++ (after ++ " = _;".toList)) := by
    rw [String.toList_append, String.toList_append, heq]
    simp only [List.append_assoc]
  rw [htext] at hplaced
  exact hplaced.within hstart (by rwa [utf8Length_append])

variable {o : Options}

/-- The value of every loop is the pattern of a loop of the template, in which no name is
qualified whatever the options say. -/
theorem compile_keeps_patterns {root : Fragment} {r : Compiled} (hpasses : o.passes = Pass.all)
    (h : compile o root = .ok r) :
    ∀ b ∈ r.block.blocks, ∀ id subject value index key body fallback,
      .loop id subject value index key body fallback ∈ b.allOperations →
      ∃ e, .eachBlock e ∈ (o.prepare root).nodes ∧ KeepsPattern e.context value.content.toList ∧
        value = .dynamic value.content e.location := by
  intro b hb id subject value index key body fallback hop
  obtain ⟨f', hf', hnodes⟩ := compile_parts hpasses h b hb
  obtain ⟨depth, f, s, s', hmakes, -⟩ := compile_made hpasses h b hb
  obtain ⟨names, hs⟩ := s.exists_binds
  have hfrom := hmakes.from_fragment (visit_deriving hpasses depth) (visit_node_eq hpasses depth) hs
  obtain ⟨hnode, hops, -⟩ := Block.from_iff.mp hfrom
  obtain rfl : f = f' := by simpa using hnode.symm.trans hf'
  obtain ⟨ms, i, ⟨-, e, rest, new, rfl, hnew, -, rfl, -⟩, hsub⟩ :=
    (hops _ hop).source (f := Node.nodes) fun n _ hm =>
      List.Subset.trans (Node.nodes_subset_inside hm) (List.subset_cons_self n n.inside)
  obtain ⟨pattern, hpattern, -⟩ := Option.map_eq_some_iff.mp hnew
  refine ⟨e, hnodes ?_, keepsPattern_trim hpattern, rfl⟩
  have hmem : .eachBlock e ∈ [Node.fragment f].flatMap Node.nodes := hsub (by simp [Node.nodes])
  simpa [Node.nodes, Node.inside] using hmem

/-- A loop whose pattern has defaults and computed keys:
`{#each rows as { a = b, [k]: [c = a + d] }}{a + b}{/each}`. -/
def defaultingLoop : Fragment :=
  ⟨[.eachBlock ⟨⟨"rows", {}⟩, " \x7b a = b, [k]: [c = a + d] \x7d ", none, none,
    ⟨[.interpolation ⟨"a + b", {}⟩], {}⟩, none, {}⟩], {}⟩

/-- The values of the loops that a block runs itself. -/
def Block.loopValues (b : Block) : List String :=
  b.operations.filterMap fun op =>
    match op with
    | .loop _ _ value _ _ _ _ => some value.content
    | _ => none

theorem compile_keeps_patterns_defaultingLoop :
    ∃ r, compile { qualifyNames := true } defaultingLoop = .ok r ∧
      ∀ b ∈ r.block.blocks, ∀ id subject value index key body fallback,
        .loop id subject value index key body fallback ∈ b.allOperations →
        ∃ e, .eachBlock e ∈ (Options.prepare { qualifyNames := true } defaultingLoop).nodes ∧
          KeepsPattern e.context value.content.toList ∧
          value = .dynamic value.content e.location :=
  exists_ok (by decide +kernel) fun _ => compile_keeps_patterns rfl

/-- Names that are free in a pattern stay bare, also if they are qualified elsewhere. -/
theorem defaultingLoop_bare :
    Options.qualify { qualifyNames := true } "b" = "_ctx.b" ∧
      (compile { qualifyNames := true } defaultingLoop).toOption.map (·.block.loopValues) =
        some ["\x7b a = b, [k]: [c = a + d] \x7d"] := by
  decide +kernel

end TemplateCompiler
