import TemplateCompiler.Proofs.Texts.Parts

/-! # Rules for texts in a block

The rules say what it is for a block to keep the texts of its nodes. A visit is one of many in its
block, so the rules are met for every block that it can be part of.
-/

namespace TemplateCompiler

open Template (Branches EachBlock Element Fragment IfBlock Node)
open Transform

/-! ## Rules -/

/-- All texts that the operations create or set are those of nodes of the block. -/
def Block.OwnsTexts (b : Block) : Prop :=
  ∀ op ∈ b.allOperations, ∀ x,
    (op.textMade? (some x)).isSome = true ∨ (op.textSet? (some x)).isSome = true →
      ∃ k ∈ b.dynamic.nodes, k.id = some x

/-- The markup is what stands for the node in that of its parent, or it is registered. -/
def Piece.IsFound (templates : List String) (q : Piece) (markup : String) : Prop :=
  q.markup = markup ∨ ∃ i, q.info.template = some i ∧ templates[i]? = some markup

/-- The texts inside the node, where loops introduce the names, are all kept. The operations are
those of the block of the node. -/
inductive KeepsText (o : Options) (templates : List String) :
    List String → List Operation → Node → Piece → Prop
  /-- A node that shows nothing inside. -/
  | leaf {names : List String} {ops : List Operation} {n : Node} {q : Piece} :
      n.isOpen = false → n.regions = [] → textsSet ops q.info.id = [] →
      KeepsText o templates names ops n q
  /-- The operation that creates the node shows what is inside, in blocks of their own. -/
  | region {names : List String} {ops : List Operation} {n : Node} {q : Piece} {op : Operation} :
      n.isOpen = false → op ∈ ops → op.created?.isSome = true → op.created? = q.info.id →
      textsSet ops q.info.id = [] → op.shown.length = n.regions.length →
      (∀ scope f b, ((scope, f), b) ∈ n.regions.zip op.shown →
        b.node = .fragment f ∧ b.OwnsTexts) →
      (∀ scope f b, ((scope, f), b) ∈ n.regions.zip op.shown →
        KeepsText o templates (scope ++ names) b.allOperations (.fragment f) ⟨b.dynamic, ""⟩) →
      KeepsText o templates names ops n q
  /-- Each child of a fragment has markup of its own. -/
  | fragment {names : List String} {ops : List Operation} {f : Fragment} {q : Piece}
      {qs : List Piece} {parts : List TextPart} :
      q.info.children = qs.map (·.info) → textsSet ops q.info.id = [] →
      textsMade ops q.info.id = [] →
      CarriesAll ops f.children qs parts →
      List.Forall₂ (Renders o names) (f.children.filter (·.isTextLike)) parts →
      (∀ k ∈ qs, k.markup ≠ "" → ∃ i, k.info.template = some i ∧ templates[i]? = some k.markup) →
      (∀ n k, (n, k) ∈ f.children.zip qs → KeepsText o templates names ops n k) →
      KeepsText o templates names ops (.fragment f) q
  /-- The children of an element are part of its markup, after the texts that it shows itself. -/
  | element {names : List String} {ops : List Operation} {e : Element} {q : Piece}
      {qs : List Piece} {texts : List String} {whole parts : List TextPart}
      {attributes markup : String} :
      e.kind = .regular → q.info.children = qs.map (·.info) →
      ShowsWhole ops q.info.id texts whole → CarriesAll ops e.children qs parts →
      List.Forall₂ (Renders o names) (e.children.filter (·.isTextLike)) (whole ++ parts) →
      IsAttributesOf e attributes →
      markup = openingTag o e attributes ++
        (if Template.isVoidTag e.name then ""
          else String.join (texts ++ qs.map (·.markup)) ++ "</" ++ e.name ++ ">") →
      q.IsFound templates markup →
      (∀ n k, (n, k) ∈ e.children.zip qs → KeepsText o templates names ops n k) →
      KeepsText o templates names ops (.element e) q

/-! ## Operations of a visit among others -/

/-- The operations are the new ones and others, none of which is about a node with one of the ids. -/
def Among (ops new : List Operation) (ids : Nat → Prop) : Prop :=
  ∃ rest, ops.Perm (new ++ rest) ∧ ∀ op ∈ rest, ∀ x, ids x → op.subject? ≠ some x

namespace Among

variable {ops new xs ys : List Operation} {ids ids' : Nat → Prop} {x : Nat}

theorem all (ops : List Operation) (ids : Nat → Prop) : Among ops ops ids :=
  ⟨[], by simp, by simp⟩

theorem congr (h : Among ops new ids) (hnew : new.Perm xs) : Among ops xs ids := by
  obtain ⟨rest, hperm, hrest⟩ := h
  exact ⟨rest, hperm.trans (hnew.append_right rest), hrest⟩

theorem mono (h : Among ops new ids) (hids : ∀ x, ids' x → ids x) : Among ops new ids' := by
  obtain ⟨rest, hperm, hrest⟩ := h
  exact ⟨rest, hperm, fun op hop x hx => hrest op hop x (hids x hx)⟩

theorem left (h : Among ops (xs ++ ys) ids) (hids : ∀ x, ids' x → ids x)
    (hys : ∀ op ∈ ys, ∀ x, ids' x → op.subject? ≠ some x) : Among ops xs ids' := by
  obtain ⟨rest, hperm, hrest⟩ := h
  refine ⟨ys ++ rest, by rwa [← List.append_assoc], fun op hop x hx => ?_⟩
  rcases List.mem_append.mp hop with hop | hop
  · exact hys op hop x hx
  · exact hrest op hop x (hids x hx)

theorem right (h : Among ops (xs ++ ys) ids) (hids : ∀ x, ids' x → ids x)
    (hxs : ∀ op ∈ xs, ∀ x, ids' x → op.subject? ≠ some x) : Among ops ys ids' :=
  (h.congr List.perm_append_comm).left hids hxs

theorem filterMap_perm {β : Type} {f : Operation → Option β} (h : Among ops new ids) (hx : ids x)
    (hf : ∀ op b, f op = some b → op.subject? = some x) :
    (ops.filterMap f).Perm (new.filterMap f) := by
  obtain ⟨rest, hperm, hrest⟩ := h
  have hnone : rest.filterMap f = [] := by
    refine List.filterMap_eq_nil_iff.mpr fun op hop => ?_
    by_contra hsome
    obtain ⟨b, hb⟩ := Option.ne_none_iff_exists'.mp hsome
    exact hrest op hop x hx (hf op b hb)
  have hall := hperm.filterMap f
  rwa [List.filterMap_append, hnone, List.append_nil] at hall

theorem textsMade_perm (h : Among ops new ids) (hx : ids x) :
    (textsMade ops (some x)).Perm (textsMade new (some x)) :=
  h.filterMap_perm hx fun _ _ hop => (Operation.subject?_of_textMade? hop).1

theorem textsSet_perm (h : Among ops new ids) (hx : ids x) :
    (textsSet ops (some x)).Perm (textsSet new (some x)) :=
  h.filterMap_perm hx fun _ _ hop => Operation.subject?_of_textSet? hop

theorem textsMade_eq_nil {id : Option Nat} (h : Among ops new ids) (hid : ∀ x, id = some x → ids x)
    (hnew : ∀ op ∈ new, op.textMade? id = none) : textsMade ops id = [] := by
  cases id with
  | none =>
    refine List.filterMap_eq_nil_iff.mpr fun op _ => ?_
    cases op <;> simp [Operation.textMade?]
  | some x =>
    have hnil : textsMade new (some x) = [] := List.filterMap_eq_nil_iff.mpr hnew
    exact List.perm_nil.mp (hnil ▸ h.textsMade_perm (hid x rfl))

theorem textsSet_eq_nil {id : Option Nat} (h : Among ops new ids) (hid : ∀ x, id = some x → ids x)
    (hnew : ∀ op ∈ new, op.textSet? id = none) : textsSet ops id = [] := by
  cases id with
  | none =>
    refine List.filterMap_eq_nil_iff.mpr fun op _ => ?_
    cases op <;> simp [Operation.textSet?]
  | some x =>
    have hnil : textsSet new (some x) = [] := List.filterMap_eq_nil_iff.mpr hnew
    exact List.perm_nil.mp (hnil ▸ h.textsSet_perm (hid x rfl))

end Among

/-! ## Visits in a block -/

/-- The operations that the block of `k` has beyond those of `c`. -/
def Context.Adds (c k : Context) (new : List Operation) : Prop :=
  k.block.allOperations.Perm (new ++ c.block.allOperations)

/-- The piece is the node of the context later on. A node that is created apart may have a
placeholder. -/
structure Stands (k : Context) (q : Piece) : Prop where
  later : k.dynamic.Later q.info
  fresh : k.dynamic.id = none → ∀ x, q.info.id = some x → k.session.nextId ≤ x
  markup : q.markup = k.template ∨ k.dynamic.flags.insert = true ∧ q.markup = "<!>"
  template : k.template = "" → q.info.template = k.dynamic.template
  flags : k.removed = false → k.dynamic.flags.insert = false →
    q.info.flags.nonTemplate = k.dynamic.flags.nonTemplate ∧ q.info.flags.insert = false

/-- A visit from `c` to `k` in a block with the operations, where its node is the piece. -/
structure Embeds (c k : Context) (ops : List Operation) (templates : List String) (q : Piece) :
    Prop where
  among : ∀ new, c.Adds k new →
    Among ops new fun x => c.session.Gives k.session x ∨ q.info.id = some x
  templates : k.session.templates <+: templates
  stands : Stands k q

/-- The id of the node, if it has one, was given out before. -/
def Context.IsNumbered (c : Context) : Prop := ∀ x, c.dynamic.id = some x → x < c.session.nextId

/-- Whatever block a visit is part of, the texts inside its node are kept. -/
structure Keeps (o : Options) (names : List String) (c k : Context) : Prop where
  inside : ∀ ops templates q, Embeds c k ops templates q →
    KeepsText o templates names ops c.node q
  apart : ∀ ops templates q, Embeds c k ops templates q → c.node.isTextLike = false →
    textsMade ops q.info.id = []

section Adds

variable {c c₁ k : Context} {new new' : List Operation}

theorem Context.Adds.trans (h : c.Adds c₁ new) (h' : c₁.Adds k new') : c.Adds k (new' ++ new) := by
  have hall : k.block.allOperations.Perm (new' ++ (new ++ c.block.allOperations)) :=
    List.Perm.trans h' (List.Perm.append_left new' h)
  rwa [← List.append_assoc] at hall

theorem Context.Adds.perm (h : c.Adds k new) (h' : c.Adds k new') : new.Perm new' :=
  (List.perm_append_right_iff _).mp (List.Perm.trans (List.Perm.symm h) h')

theorem Context.Adds.of_same (h : k.block = c.block) : c.Adds k [] := by
  rw [Adds, h]
  exact .refl _

theorem Context.Adds.of_add (c : Context) (x : Contribution)
    (h : k.block = c.block.add x) : c.Adds k [x.op] := by
  rw [Adds, h]
  exact c.block.allOperations_add x

theorem Allots.adds {xs : List Contribution} (h : Allots c xs k) : c.Adds k (xs.map (·.op)) :=
  h.block.allOperations

theorem Allots.gives {xs : List Contribution} (h : Allots c xs k) (hid : c.dynamic.id = none)
    (hchildren : c.dynamic.children = []) (hnew : c.Adds k new) :
    ∀ op ∈ new, ∀ x, op.subject? = some x → c.session.Gives k.session x := by
  intro op hop x hx
  obtain ⟨y, hy, rfl⟩ := List.mem_map.mp ((hnew.perm h.adds).subset hop)
  rcases h.named y hy x (Operation.mem_named_of_subject? hx) with hown | hinside | hgives
  · simp [hid] at hown
  · simp [hchildren, nodeIds] at hinside
  · exact hgives

end Adds

end TemplateCompiler
