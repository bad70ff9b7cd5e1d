import TemplateCompiler.Proofs.Template.Condensing
import TemplateCompiler.Proofs.Template.Nodes

/-! # Condensing twice

Where no two texts stand side by side, condensing finds all layout at once: what it takes away has
no text next to it, so a text that stays keeps the neighbours it was judged by.
-/

namespace TemplateCompiler.Template

open Text

variable {n : Node} {ns : List Node}

/-! ## Texts -/

theorem condenseChars_condenseChars (afterBlank : Bool) (cs : List Char) :
    condenseChars afterBlank (condenseChars afterBlank cs) = condenseChars afterBlank cs := by
  induction cs generalizing afterBlank with
  | nil => rfl
  | cons c cs ih =>
    have hspace : isBlank ' ' = true := rfl
    cases hc : isBlank c <;> cases afterBlank <;> simp [condenseChars, hc, hspace, ih]

theorem condense_condense (s : String) : condense (condense s) = condense s := by
  rw [condense, condense, String.toList_ofList, condenseChars_condenseChars]

theorem isAllBlank_condense (s : String) : isAllBlank (condense s) = isAllBlank s := by
  have hall (t : String) : isAllBlank t = (t.toList.filter isNotBlank).isEmpty := by
    rw [isAllBlank, Bool.eq_iff_iff, List.isEmpty_iff, List.filter_eq_nil_iff, List.all_eq_true]
    simp [isNotBlank]
  rw [hall, hall, condense, String.toList_ofList, filter_condenseChars]

theorem hasLineBreak_condense (t : TextNode) : hasLineBreak (condense t.data) = false := by
  rw [hasLineBreak, List.any_eq_false]
  intro c hc hbreak
  have hspace := (narrowed_condense t).blank c hc
  rcases Bool.or_eq_true_iff.mp hbreak with h | h <;> simp_all [isBlank]

/-! ## Lists of nodes -/

theorem isLayout_of_not_isText {before after : Option Node} (h : n.isText = false) :
    isLayout before n after = false := by
  cases n <;> simp_all [isLayout, Node.isText]

/-- A node that stays once stays again, if it has kept its neighbours. -/
theorem isLayout_condense {before before' after after' : Option Node}
    (h : isLayout before n after = false) (hbefore : before.isSome → before'.isSome)
    (hafter : after.isSome → after'.isSome) : isLayout before' n.condense after' = false := by
  cases n with
  | text t =>
    rw [Node.condense, isLayout, hasLineBreak_condense, isAllBlank_condense]
    rw [isLayout] at h
    cases hblank : isAllBlank t.data with
    | false => rfl
    | true =>
      cases before <;> cases after <;> simp_all
  | _ => rfl

mutual

/-- No list of nodes inside the node has two texts side by side. -/
def Node.isSeparated : Node → Bool
  | .fragment f => f.isSeparated
  | .element ⟨_, _, _, children, _⟩ => areSeparated children
  | .ifBlock ⟨_, consequent, alternate, _, _⟩ => consequent.isSeparated && optionalSeparated alternate
  | .eachBlock ⟨_, _, _, _, body, fallback, _⟩ => body.isSeparated && optionalSeparated fallback
  | .keyBlock _ body _ => body.isSeparated
  | _ => true

def Fragment.isSeparated : Fragment → Bool
  | ⟨children, _⟩ => areSeparated children

def optionalSeparated : Option Fragment → Bool
  | none => true
  | some f => f.isSeparated

/-- No two texts stand side by side, here or inside one of the nodes. -/
def areSeparated : List Node → Bool
  | [] => true
  | n :: ns => !(n.isText && ns.head?.any (·.isText)) && n.isSeparated && areSeparated ns

end

theorem areSeparated_cons : areSeparated (n :: ns) = true ↔
      (n.isText = true → ns.head?.any (·.isText) = false) ∧ n.isSeparated = true ∧
        areSeparated ns = true := by
  cases h : n.isText <;> simp [areSeparated, h, and_assoc]

/-- After a text that stays, the next node stays, too. -/
theorem isSome_head?_condenseNodes (h : n.isText = true → ns.head?.any (·.isText) = false)
    (hn : n.isText = true) (hns : ns.head?.isSome = true) :
    (condenseNodes (some n) ns).head?.isSome = true := by
  cases ns with
  | nil => cases hns
  | cons m ms =>
    have hm : m.isText = false := by simpa using h hn
    rw [condenseNodes, isLayout_of_not_isText hm]
    rfl

/-- The nodes that condensing leaves are not layout, whatever `before'` has come to be. -/
theorem condenseNodes_condenseNodes (before before' : Option Node) (hs : areSeparated ns = true)
    (h : ∀ n ∈ ns, n.condense.condense = n.condense)
    (hbefore : ns.head?.any (·.isText) = true → before.isSome = true → before'.isSome = true) :
    condenseNodes before' (condenseNodes before ns) = condenseNodes before ns := by
  induction ns generalizing before before' with
  | nil => rfl
  | cons n ns ih =>
    obtain ⟨hapart, -, hrest⟩ := areSeparated_cons.mp hs
    have htail := fun m hm => h m (List.mem_cons_of_mem n hm)
    rw [condenseNodes]
    cases hlayout : isLayout before n ns.head? with
    | true =>
      have hn : n.isText = true := by
        by_contra hn
        simp [isLayout_of_not_isText (Bool.eq_false_iff.mpr hn)] at hlayout
      exact ih _ _ hrest htail fun htext => by simp [hapart hn] at htext
    | false =>
      have hagain : isLayout before' n.condense (condenseNodes (some n) ns).head? = false := by
        cases hn : n.isText with
        | false => exact isLayout_of_not_isText (n.isText_condense.trans hn)
        | true =>
          exact isLayout_condense hlayout (hbefore hn)
            (isSome_head?_condenseNodes hapart hn)
      simp only [Bool.false_eq_true, ite_false]
      rw [condenseNodes, hagain, h n List.mem_cons_self, ih _ _ hrest htail fun _ _ => rfl]
      rfl

/-- Where a text is taken away, no text comes to stand beside another. -/
theorem areSeparated_condenseNodes (before : Option Node) (hs : areSeparated ns = true)
    (h : ∀ n ∈ ns, n.condense.isSeparated = true) : areSeparated (condenseNodes before ns) = true ∧
      ((condenseNodes before ns).head?.any (·.isText) = true → ns.head?.any (·.isText) = true) := by
  induction ns generalizing before with
  | nil => exact ⟨rfl, id⟩
  | cons n ns ih =>
    obtain ⟨hapart, -, hrest⟩ := areSeparated_cons.mp hs
    obtain ⟨hall, hhead⟩ := ih (some n) hrest fun m hm => h m (List.mem_cons_of_mem n hm)
    rw [condenseNodes]
    split
    · rename_i hlayout
      refine ⟨hall, fun htext => ?_⟩
      by_contra hn
      simp [isLayout_of_not_isText (Bool.eq_false_iff.mpr hn)] at hlayout
    · refine ⟨areSeparated_cons.mpr ⟨fun hn => ?_, h n List.mem_cons_self, hall⟩, fun htext => ?_⟩
      · rw [n.isText_condense] at hn
        exact Bool.eq_false_iff.mpr fun htext => by simp [hapart hn] at hhead; simp [hhead] at htext
      · simpa using htext

/-! ## Trees -/

/-- Condensing the node again changes nothing, and no two texts in it come side by side. -/
structure Node.Settled (n : Node) : Prop where
  again : n.condense.condense = n.condense
  separated : n.condense.isSeparated = true

theorem condenseNodes_settled (hs : areSeparated ns = true) (h : ∀ n ∈ ns, n.Settled) :
    condenseNodes none (condenseNodes none ns) = condenseNodes none ns ∧
      areSeparated (condenseNodes none ns) = true :=
  ⟨condenseNodes_condenseNodes none none hs (fun n hn => (h n hn).again) (by simp),
    (areSeparated_condenseNodes none hs fun n hn => (h n hn).separated).1⟩

mutual

theorem Node.settled : ∀ n : Node, n.isSeparated = true → n.Settled
  | .text t, _ => ⟨by simp [Node.condense, condense_condense], rfl⟩
  | .element ⟨name, kind, attributes, children, location⟩, h => by
    obtain ⟨hagain, hseparated⟩ := condenseNodes_settled h (nodes_settled children h)
    simp only [Node.isSeparated] at h
    cases hname : isPreformattedTag name with
    | true => constructor <;> simp [Node.condense, Element.condense, Node.isSeparated, hname, h]
    | false =>
      constructor <;>
        simp [Node.condense, Element.condense, Node.isSeparated, hname, hagain, hseparated]
  | .fragment f, h =>
    have hf := f.settled h
    ⟨congrArg Node.fragment hf.1, hf.2⟩
  | .ifBlock ⟨test, consequent, alternate, elseIf, location⟩, h => by
    obtain ⟨hc, ha⟩ := Bool.and_eq_true_iff.mp h
    have hconsequent := consequent.settled hc
    have halternate := optional_settled alternate ha
    exact ⟨by simp only [Node.condense, IfBlock.condense, hconsequent.1, halternate.1],
      Bool.and_eq_true_iff.mpr ⟨hconsequent.2, halternate.2⟩⟩
  | .eachBlock ⟨subject, context, index, key, body, fallback, location⟩, h => by
    obtain ⟨hb, hf⟩ := Bool.and_eq_true_iff.mp h
    have hbody := body.settled hb
    have hfallback := optional_settled fallback hf
    exact ⟨by simp only [Node.condense, EachBlock.condense, hbody.1, hfallback.1],
      Bool.and_eq_true_iff.mpr ⟨hbody.2, hfallback.2⟩⟩
  | .keyBlock code body location, h =>
    have hbody := body.settled h
    ⟨congrArg (Node.keyBlock code · location) hbody.1, hbody.2⟩
  | .comment .., _ => ⟨rfl, rfl⟩
  | .interpolation _, _ => ⟨rfl, rfl⟩
  | .rawMarkup _, _ => ⟨rfl, rfl⟩
  | .awaitBlock .., _ => ⟨rfl, rfl⟩
  | .constTag _, _ => ⟨rfl, rfl⟩
  | .debugTag .., _ => ⟨rfl, rfl⟩

theorem Fragment.settled : ∀ f : Fragment, f.isSeparated = true →
    f.condense.condense = f.condense ∧ f.condense.isSeparated = true
  | ⟨children, location⟩, h =>
    have hchildren := condenseNodes_settled h (nodes_settled children h)
    ⟨congrArg (Fragment.mk · location) hchildren.1, hchildren.2⟩

theorem optional_settled : ∀ f : Option Fragment, optionalSeparated f = true →
    condenseOptional (condenseOptional f) = condenseOptional f ∧
      optionalSeparated (condenseOptional f) = true
  | none, _ => ⟨rfl, rfl⟩
  | some f, h =>
    have hf := f.settled h
    ⟨congrArg some hf.1, hf.2⟩

theorem nodes_settled : ∀ ns : List Node, areSeparated ns = true → ∀ n ∈ ns, n.Settled
  | [], _ => by simp
  | n :: ns, h =>
    have hcons := areSeparated_cons.mp h
    List.forall_mem_cons.mpr ⟨n.settled hcons.2.1, nodes_settled ns hcons.2.2⟩

end

/-- Where no two texts stand side by side, condensing twice is condensing once, and no two texts
come to stand side by side. -/
theorem Fragment.condense_idempotent (f : Fragment) (h : f.isSeparated = true) :
    f.condense.condense = f.condense ∧ f.condense.isSeparated = true :=
  f.settled h

/-- Texts at the ends, on a line break between elements, before an interpolation and in a
preformatted element. -/
def paddedFragment : Fragment :=
  let blank : Node := .text { data := "\n  ", raw := "\n  " }
  let element (name : String) (children : List Node) : Node :=
    .element ⟨name, .regular, [], children, {}⟩
  { children :=
      [blank, element "p" [.text { data := "a \n b", raw := "" }], blank,
        element "pre" [blank], blank, .interpolation { content := "x" }, blank,
        .ifBlock ⟨{ content := "y" }, ⟨[blank, element "i" [], blank], {}⟩, none, false, {}⟩]
    location := {} }

theorem condense_idempotent_padded :
    paddedFragment.isSeparated = true ∧
      paddedFragment.condense.condense = paddedFragment.condense ∧
      paddedFragment.condense.isSeparated = true :=
  ⟨by decide +kernel, paddedFragment.condense_idempotent (by decide +kernel)⟩

end TemplateCompiler.Template
