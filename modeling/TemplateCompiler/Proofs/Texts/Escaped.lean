import TemplateCompiler.Proofs.Insertion.Markup

/-! # Literal content is escaped

An element that holds nothing but texts and literal interpolations is markup from its opening tag to
its closing tag, and what stands between them is escaped whatever the element is.
-/

namespace TemplateCompiler

open Template (Element Fragment)
open Transform

variable {o : Options}

theorem join_map_escapeText (data : List String) :
    String.join (data.map Text.escapeText) = Text.escapeText (String.join data) := by
  induction data with
  | nil => rfl
  | cons text data ih =>
    rw [List.map_cons, String.join_cons, ih, String.join_cons]
    simp [Text.escapeText]

/-- The markup of an element with literal content. -/
theorem Spells.of_literals {e : Element} {d : NodeInfo} {text : String} {data : List String}
    (h : Spells o (.element e) d text) (hvoid : Template.isVoidTag e.name = false)
    (hdata : Literals e.children data) :
    ∃ attributes, IsAttributesOf e attributes ∧ text = openingTag o e attributes ++
      (Text.escapeText (String.join data) ++ "</" ++ e.name ++ ">") := by
  rw [← join_map_escapeText]
  cases h with
  | void _ h => simp [h] at hvoid
  | literal _ _ hattributes _ hshows hliteral =>
    rw [hdata.literalMarkup?_eq hshows] at hliteral
    obtain rfl := Option.some.inj hliteral
    exact ⟨_, hattributes, rfl⟩
  | element _ _ hattributes _ hpieces =>
    obtain rfl := hpieces data hdata
    exact ⟨_, hattributes, rfl⟩

/-- What a compiled template registers is the markup of nodes of its blocks, spelled out down to
every element inside. There an element with literal content has that content escaped between its
tags, also if its name says that the content is raw text. -/
theorem compile_escapes_literals {root : Fragment} {r : Compiled} (hpasses : o.passes = Pass.all)
    (h : compile o root = .ok r) :
    (∀ b ∈ r.block.blocks, Spelled o r.templates b.node b.dynamic) ∧
      ∀ e d text data, Spells o (.element e) d text → Template.isVoidTag e.name = false →
        Literals e.children data → ∃ attributes, IsAttributesOf e attributes ∧
          text = openingTag o e attributes ++
            (Text.escapeText (String.join data) ++ "</" ++ e.name ++ ">") := by
  refine ⟨fun b hb => ?_, fun e d text data hspells => hspells.of_literals⟩
  obtain ⟨depth, f, s, s', ⟨c, hrun, rfl, rfl⟩, htemplates⟩ := compile_made hpasses h b hb
  have hfresh := Context.newBlock_fresh f s
  obtain ⟨_, hwalk⟩ := visit_fragment_ok hpasses hfresh rfl hrun
  have hnode : c.toBlock.node = .fragment f := hwalk.samePlace.node
  rw [hnode]
  exact (visit_records hpasses depth _ c hfresh hrun).recorded.mono htemplates

def rawScript : Element :=
  ⟨"script", .regular, [],
    [.text ⟨"a && ", "a && ", {}⟩, .interpolation ⟨"'b<c'", {}⟩], {}⟩

/-- A script and a style sheet, each with something to escape. -/
def rawTextTemplate : Fragment :=
  ⟨[.element rawScript,
    .element ⟨"style", .regular, [], [.text ⟨"a > b {}", "a > b {}", {}⟩], {}⟩], {}⟩

theorem compile_escapes_literals_rawTextTemplate :
    ∃ r, compile {} rawTextTemplate = .ok r ∧
      ∀ b ∈ r.block.blocks, Spelled {} r.templates b.node b.dynamic ∧
        ∀ d i, Within b.node b.dynamic (.element rawScript) d → d.template = some i →
          ∃ attributes, IsAttributesOf rawScript attributes ∧
            r.templates[i]? = some (openingTag {} rawScript attributes ++
              (Text.escapeText (String.join ["a && ", "b<c"]) ++ "</script>")) := by
  refine exists_ok (by decide +kernel) fun r h b hb => ?_
  obtain ⟨hspelled, hliteral⟩ := compile_escapes_literals rfl h
  refine ⟨hspelled b hb, fun d i hd hi => ?_⟩
  obtain ⟨text, htext, hspells⟩ := hspelled b hb _ d hd i hi
  have hdata : Literals rawScript.children ["a && ", "b<c"] :=
    .cons rfl (.cons (by decide +kernel) .nil)
  obtain ⟨attributes, hattributes, rfl⟩ := hliteral _ d text _ hspells (by decide) hdata
  exact ⟨attributes, hattributes, htext⟩

/-- What is written between the tags of a script or a style sheet can differ from its text. -/
theorem rawTextTemplate_templates :
    (compile {} rawTextTemplate).toOption.map (·.templates) =
      some ["<script>a &amp;&amp; b&lt;c</script>", "<style>a &gt; b {}</style>"] := by
  decide +kernel

end TemplateCompiler
