import TemplateCompiler.Proofs.Insertion.Arranging
import TemplateCompiler.Proofs.Names.Literals
import TemplateCompiler.Proofs.Transform.Made

/-! # The markup of elements

The markup of an element holds that of its children, with a placeholder for each child that has one.
Other children that are created apart have no part in it. What is registered for a node is its
markup.
-/

namespace TemplateCompiler

open Template (Element Fragment Node)
open Transform

variable {attributes : String} {data pieces : List String} {frame : Frame} {i : Nat}
  {ks : List NodeInfo} {ns : List Node} {xs : List Contribution}

/-! ## Literal content -/

/-- What a text or a literal interpolation reads. -/
def Template.Node.literal? : Node → Option String
  | text t => some t.data
  | interpolation code => (Expression.ofCode code).literalValue?
  | _ => none

/-- The nodes are texts and literal interpolations, and read as given. -/
def Literals (ns : List Node) (data : List String) : Prop :=
  List.Forall₂ (fun n text => n.literal? = some text) ns data

theorem Literals.isTextLike (h : Literals ns data) : ∀ n ∈ ns, n.isTextLike = true := by
  induction h with
  | nil => simp
  | @cons n _ _ _ hn _ ih =>
    refine List.forall_mem_cons.mpr ⟨?_, ih⟩
    cases n <;> simp_all [Node.literal?, Node.isTextLike]

/-- Values show what literal nodes read. -/
theorem Literals.literalMarkup?_eq {o : Options} {names : List String} {values : List Expression}
    (h : Literals ns data) (hshows : List.Forall₂ (Shows o names) ns values) :
    literalMarkup? values = some (data.map Text.escapeText) := by
  unfold literalMarkup?
  induction hshows generalizing data with
  | nil =>
    cases h
    rfl
  | @cons n v ns values hn _ ih =>
    obtain _ | @⟨_, text, _, rest, htext, hrest⟩ := h
    have hv : v.literalValue? = some text := by
      cases hn with
      | text t => simpa [Expression.literalValue?, Expression.static, Node.literal?] using htext
      | interpolation hv => exact hv.literalValue?_eq.trans htext
    simp [List.mapM_cons, hv, ih hrest]

/-! ## Attributes -/

/-- The text is that of attributes whose names plain attributes of the element have. -/
def IsAttributesOf (e : Element) (text : String) : Prop :=
  ∃ pairs, text = Markup.writeAttributes pairs ∧
    ∀ a ∈ pairs, ∃ value location, .plain a.1 value location ∈ e.attributes

theorem FixedAttributes.isAttributesOf {o : Options} {names : List String} {e : Element}
    {props : List Property} {text : String} (h : FixedAttributes o names e props text)
    (hprops : Property.ofAttributes e.attributes = .ok props) (hkind : e.kind = .regular) :
    IsAttributesOf e text := by
  obtain ⟨pairs, htext, hpairs⟩ := h
  refine ⟨pairs, htext, fun a ha => ?_⟩
  obtain ⟨p, hp, hstatic⟩ := hpairs a ha
  exact hp.exists_plain hprops hkind hstatic

/-! ## Rules -/

mutual

/-- The text is the markup of the node, and its attributes are those of the node. -/
inductive Spells (o : Options) : Node → NodeInfo → String → Prop
  | text (t : Template.TextNode) (d : NodeInfo) : Spells o (.text t) d (Text.escapeText t.data)
  | comment (data : String) (location : Location) (d : NodeInfo) :
      Spells o (.comment data location) d ("<!--" ++ data ++ "-->")
  /-- The children of a fragment have markup of their own. -/
  | fragment (f : Fragment) (d : NodeInfo) : Spells o (.fragment f) d ""
  | void {e : Element} {d : NodeInfo} {attributes : String} :
      e.kind = .regular → Template.isVoidTag e.name = true → IsAttributesOf e attributes →
      Spells o (.element e) d (openingTag o e attributes)
  | literal {e : Element} {d : NodeInfo} {attributes : String} {names : List String}
      {values : List Expression} {texts : List String} :
      e.kind = .regular → Template.isVoidTag e.name = false → IsAttributesOf e attributes →
      IsTextContainer e → List.Forall₂ (Shows o names) e.children values →
      literalMarkup? values = some texts →
      (∀ k ∈ d.children, k.anchor = none ∧ k.flags.nonTemplate = true) →
      Spells o (.element e) d
        (openingTag o e attributes ++ (String.join texts ++ "</" ++ e.name ++ ">"))
  /-- Texts and literal values are written out here, too. -/
  | element {e : Element} {d : NodeInfo} {attributes : String} {pieces : List String} :
      e.kind = .regular → Template.isVoidTag e.name = false → IsAttributesOf e attributes →
      SpellsAll o e.children d.children pieces →
      (∀ data, Literals e.children data → pieces = data.map Text.escapeText) →
      Spells o (.element e) d
        (openingTag o e attributes ++ (String.join pieces ++ "</" ++ e.name ++ ">"))

/-- The texts are what the children come to in the markup of their parent. -/
inductive SpellsAll (o : Options) : List Node → List NodeInfo → List String → Prop
  | nil : SpellsAll o [] [] []
  | placeholder {n : Node} {k : NodeInfo} {a : Nat} {ns : List Node} {ks : List NodeInfo}
      {pieces : List String} :
      k.anchor = some a → SpellsAll o ns ks pieces →
      SpellsAll o (n :: ns) (k :: ks) ("<!>" :: pieces)
  | apart {n : Node} {k : NodeInfo} {ns : List Node} {ks : List NodeInfo} {pieces : List String} :
      k.anchor = none → k.flags.nonTemplate = true → SpellsAll o ns ks pieces →
      SpellsAll o (n :: ns) (k :: ks) ("" :: pieces)
  | markup {n : Node} {k : NodeInfo} {text : String} {ns : List Node} {ks : List NodeInfo}
      {pieces : List String} :
      k.anchor = none → k.flags.nonTemplate = false → Spells o n k text → SpellsAll o ns ks pieces →
      SpellsAll o (n :: ns) (k :: ks) (text :: pieces)

end

/-- What is registered for the node and for those inside it is spelled out. -/
def Spelled (o : Options) (templates : List String) (n : Node) (d : NodeInfo) : Prop :=
  ∀ m k, Within n d m k → ∀ i, k.template = some i →
    ∃ text, templates[i]? = some text ∧ Spells o m k text

variable {o : Options} {templates templates' : List String} {n : Node} {d d' : NodeInfo}

theorem Spells.congr {text : String} (hchildren : d'.children = d.children)
    (h : Spells o n d text) : Spells o n d' text := by
  cases h with
  | text t => exact .text t d'
  | comment data location => exact .comment data location d'
  | fragment f => exact .fragment f d'
  | void hkind hvoid hattributes => exact .void hkind hvoid hattributes
  | literal hkind hvoid hattributes htext hshows hliteral hplain =>
    exact .literal hkind hvoid hattributes htext hshows hliteral (hchildren ▸ hplain)
  | element hkind hvoid hattributes hall hdata =>
    exact .element hkind hvoid hattributes (hchildren ▸ hall) hdata

theorem Spelled.mono (h : templates <+: templates') (hd : Spelled o templates n d) :
    Spelled o templates' n d := by
  intro m k hwithin i hi
  obtain ⟨text, htext, hmarks⟩ := hd m k hwithin i hi
  obtain ⟨more, rfl⟩ := h
  obtain ⟨hlt, -⟩ := List.getElem?_eq_some_iff.mp htext
  exact ⟨text, (List.getElem?_append_left hlt).trans htext, hmarks⟩

theorem Spelled.of_children
    (hself : ∀ i, d.template = some i → ∃ text, templates[i]? = some text ∧ Spells o n d text)
    (hchildren : ∀ (i : Nat) m k, n.children[i]? = some m → d.children[i]? = some k →
      Spelled o templates m k) : Spelled o templates n d :=
  forall_within hself hchildren

theorem Spelled.child (h : Spelled o templates n d) {m : Node} {k : NodeInfo}
    (hm : n.children[i]? = some m) (hk : d.children[i]? = some k) : Spelled o templates m k :=
  fun m' k' hwithin => h m' k' (.child hm hk hwithin)

theorem Spelled.congr (hchildren : d'.children = d.children) (htemplate : d'.template = d.template)
    (h : Spelled o templates n d) : Spelled o templates n d' := by
  refine forall_within_congr hchildren (fun hself i hi => ?_) h
  obtain ⟨text, htext, hmarks⟩ := hself i (htemplate ▸ hi)
  exact ⟨text, htext, hmarks.congr hchildren⟩

/-! ## Children -/

theorem SpellsAll.modify (h : SpellsAll o ns ks pieces) (i a : Nat) :
    SpellsAll o ns (ks.modify i (NodeInfo.withAnchor a)) (pieces.set i "<!>") := by
  induction i generalizing ns ks pieces with
  | zero =>
    cases h with
    | nil => exact .nil
    | placeholder _ hrest | apart _ _ hrest | markup _ _ _ hrest =>
      rw [List.modify_zero_cons, List.set_cons_zero]
      exact .placeholder rfl hrest
  | succ i ih =>
    cases h with
    | nil => exact .nil
    | placeholder ha hrest => exact .placeholder ha (ih hrest)
    | apart ha hnon hrest => exact .apart ha hnon (ih hrest)
    | markup ha hnon hmarks hrest => exact .markup ha hnon hmarks (ih hrest)

theorem SpellsAll.placeAll (h : SpellsAll o ns ks pieces) (anchors : List (Nat × Nat)) :
    SpellsAll o ns (placeAll anchors ks)
      (anchors.foldl (fun ts x => ts.set x.1 "<!>") pieces) := by
  induction anchors generalizing ks pieces with
  | nil => exact h
  | cons y anchors ih => exact ih (h.modify y.1 y.2)

theorem SpellsAll.join_eq (h : SpellsAll o ns ks pieces)
    (hks : ∀ k ∈ ks, k.anchor = none ∧ k.flags.nonTemplate = true) : String.join pieces = "" := by
  induction ns generalizing ks pieces with
  | nil =>
    cases h
    rfl
  | cons n ns ih =>
    cases h with
    | placeholder ha => simp [ha] at hks
    | markup _ hnon => simp [hnon] at hks
    | apart _ _ hrest =>
      rw [String.join_cons, ih hrest fun k hk => hks k (by simp [hk])]
      rfl

theorem spelled_placeAll
    (h : ∀ (i : Nat) m k, ns[i]? = some m → ks[i]? = some k → Spelled o templates m k)
    (anchors : List (Nat × Nat)) :
    ∀ (i : Nat) m k, ns[i]? = some m → (placeAll anchors ks)[i]? = some k →
      Spelled o templates m k := by
  induction anchors generalizing ks with
  | nil => exact h
  | cons y anchors ih =>
    refine ih fun i m k hm hk => ?_
    rw [List.getElem?_modify, Option.map_eq_map, Option.map_eq_some_iff] at hk
    obtain ⟨k', hk', rfl⟩ := hk
    split
    · exact Spelled.congr (d := k') rfl rfl (h i m k' hm hk')
    · exact h i m k' hm hk'

/-! ## Walks -/

/-- A visit leaves the markup of its node, and all markup that was registered is on record. -/
structure Records (o : Options) (c c' : Context) : Prop where
  apart : c'.removed = true ∨ c'.dynamic.flags.nonTemplate = true → c'.template = ""
  markup : c'.removed = false → c'.dynamic.flags.nonTemplate = false →
    Spells o c.node c'.dynamic c'.template
  recorded : Spelled o c'.session.templates c.node c'.dynamic
  /-- A node that another one takes over is left alone. -/
  absorbed : c.isAbsorbed = true → c' = c.flag { nonTemplate := true }
  text : ∀ t, c.node = .text t → c.isAbsorbed = false → c' = c.write (Text.escapeText t.data)

section Walk

variable {isFragment : Bool} {c c' k : Context}

theorem Records.settled_piece (h : Records o c k) :
    ((k.settled false).dynamic.flags.nonTemplate = true → k.template = "") ∧
      ((k.settled false).dynamic.flags.nonTemplate = false →
        Spells o c.node (k.settled false).dynamic k.template) := by
  unfold Context.settled
  cases hremoved : k.removed with
  | true => exact ⟨fun _ => h.apart (.inl hremoved), by simp [Context.flag, Flags.union]⟩
  | false => exact ⟨fun hnon => h.apart (.inr hnon), h.markup hremoved⟩

theorem Context.registered_markup (c : Context) :
    c.registered.dynamic.template = c.dynamic.template ∨
      c.template ≠ "" ∧ ∃ i, c.registered.dynamic.template = some i ∧
        c.registered.session.templates[i]? = some c.template := by
  unfold registered
  split
  · exact .inl rfl
  · rename_i hempty
    exact .inr ⟨by simpa using hempty, _, rfl, c.session.getElem?_addTemplate c.template⟩

/-- The markup that settling a child registers, if it does, is that of the child. -/
theorem Context.settled_markup (k : Context) (isFragment : Bool) :
    (k.settled isFragment).dynamic.template = k.dynamic.template ∨
      k.removed = false ∧ k.template ≠ "" ∧ ∃ i, (k.settled isFragment).dynamic.template = some i ∧
        (k.settled isFragment).session.templates[i]? = some k.template := by
  have hreturned : k.returned.dynamic = k.referenced.registered.dynamic ∧
      k.returned.session = k.referenced.registered.session := by
    unfold returned
    dsimp only
    split <;> exact ⟨rfl, rfl⟩
  unfold settled
  split
  · exact .inl rfl
  · rename_i hremoved
    split
    · rw [hreturned.1, hreturned.2]
      rcases k.referenced.registered_markup with hsame | ⟨htemplate, hregistered⟩
      · exact .inl (hsame.trans k.referenced_template)
      · exact .inr ⟨by simpa using hremoved, htemplate, hregistered⟩
    · exact .inl rfl

/-- Settling a child registers its markup. -/
theorem Records.settled_spelled (h : Records o c k) :
    Spelled o (k.settled isFragment).session.templates c.node
      (k.settled isFragment).dynamic := by
  have hgrows : Grows o k (k.settled isFragment) := k.settled_grows isFragment
  have hchildren := (k.settled_later isFragment).children
  have hrecorded := h.recorded.mono hgrows.templates
  refine .of_children (fun i hi => ?_) fun i m d hm hd => hrecorded.child hm (hchildren ▸ hd)
  rcases k.settled_markup isFragment with hsame | ⟨hremoved, htemplate, j, hj, htext⟩
  · obtain ⟨text, htext, hmarks⟩ := hrecorded _ _ (.self _ _) i (hsame ▸ hi)
    exact ⟨text, htext, hmarks.congr hchildren⟩
  · obtain rfl : j = i := Option.some.inj (hj.symm.trans hi)
    refine ⟨_, htext, (h.markup hremoved ?_).congr hchildren⟩
    exact Bool.eq_false_iff.mpr fun hnon => htemplate (h.apart (.inr hnon))

/-- A walk over children collects their markup. -/
structure WalkRecords (o : Options) (isFragment : Bool) (ns : List Node) (c c' : Context)
    (ks : List NodeInfo) (pieces : List String) : Prop where
  children : c'.dynamic.children = c.dynamic.children ++ ks
  pieces : isFragment = false →
    c'.childrenTemplate = c.childrenTemplate ++ pieces ∧ SpellsAll o ns ks pieces
  recorded : ∀ (i : Nat) m k, ns[i]? = some m → ks[i]? = some k →
    Spelled o c'.session.templates m k

theorem VisitsChildren.records {depth : Nat} (hconserves : Ensures (visit o depth) Conserves)
    (hgrows : Ensures (visit o depth) (Grows o)) (hvisit : Ensures (visit o depth) (Records o))
    (h : VisitsChildren (visit o depth) isFragment frame i ns c c') :
    ∃ ks pieces, WalkRecords o isFragment ns c c' ks pieces := by
  induction h with
  | nil => exact ⟨[], [], by simp, fun _ => ⟨by simp, .nil⟩, by simp⟩
  | @cons _ _ i n ns c k c' hframe hrun _ hrest ih =>
    have hchild := hvisit _ _ (hframe.child_fresh c) hrun
    obtain ⟨hanchor, -⟩ := hconserves _ _ (hframe.child_fresh c) hrun
    obtain ⟨ks, pieces, hwalk⟩ := ih
    refine ⟨(k.settled isFragment).dynamic :: ks, k.template :: pieces, ?_, ?_, ?_⟩
    · rw [hwalk.children]
      simp [Context.adopt]
    · rintro rfl
      obtain ⟨hpieces, hmarks⟩ := hwalk.pieces rfl
      refine ⟨?_, ?_⟩
      · rw [hpieces]
        simp [Context.adopt, Context.settled_place.2]
      · have hanchor' : (k.settled false).dynamic.anchor = none :=
          k.settled_anchor.trans hanchor
        obtain ⟨hapart, hmarkup⟩ := hchild.settled_piece
        cases hnon : (k.settled false).dynamic.flags.nonTemplate with
        | true =>
          rw [hapart hnon]
          exact .apart hanchor' hnon hmarks
        | false => exact .markup hanchor' hnon (hmarkup hnon) hmarks
    · exact forall_getElem?_cons (hchild.settled_spelled.mono (hrest.grows hgrows).templates)
        hwalk.recorded

section

variable {depth : Nat} (hvisit : Ensures (visit o depth) (Records o))
  (h : VisitsChildren (visit o depth) false frame i ns c c')

include hvisit h

/-- Children that are all taken over are left alone. -/
theorem VisitsChildren.absorbed (hframe : i + ns.length ≤ frame.consumedUntil) :
    ∃ ks, c'.dynamic.children = c.dynamic.children ++ ks ∧
      ∀ d ∈ ks, d.anchor = none ∧ d.flags.nonTemplate = true ∧ d.flags.insert = false := by
  induction h with
  | nil => exact ⟨[], by simp, by simp⟩
  | @cons frame frame' i n ns c k c' hcovers hrun hparent _ ih =>
    rw [List.length_cons] at hframe
    have hi : i < frame.consumedUntil := by omega
    have habsorbed : (c.child n i frame).isAbsorbed = true := decide_eq_true hi
    have hk := (hvisit _ _ (hcovers.child_fresh c) hrun).absorbed habsorbed
    have hsame : frame = frame' := by
      rw [hk] at hparent
      simpa [Context.flag, Context.child] using hparent
    obtain ⟨ks, hks, hall⟩ := ih (by rw [← hsame]; omega)
    refine ⟨(k.settled false).dynamic :: ks, ?_, ?_⟩
    · rw [hks]
      simp [Context.adopt]
    · intro d hd
      rcases List.mem_cons.mp hd with rfl | hd
      · subst hk
        exact ⟨rfl, rfl, rfl⟩
      · exact hall d hd

/-- Texts that nothing has taken over are written as they come. -/
theorem VisitsChildren.texts (hframe : frame.consumedUntil ≤ i)
    (hns : ∀ n ∈ ns, n.isInterpolation = false) (hdata : Literals ns data) :
    c'.childrenTemplate = c.childrenTemplate ++ data.map Text.escapeText ∧
      ∃ ks, c'.dynamic.children = c.dynamic.children ++ ks ∧ ∀ d ∈ ks, d.flags.insert = false := by
  induction h generalizing data with
  | nil =>
    cases hdata
    exact ⟨by simp, [], by simp, by simp⟩
  | @cons frame frame' i n ns c k c' hcovers hrun hparent _ ih =>
    obtain _ | @⟨_, text, _, rest, htext, hrest⟩ := hdata
    obtain ⟨hn, hrestns⟩ := List.forall_mem_cons.mp hns
    obtain ⟨t, rfl, rfl⟩ : ∃ t, n = .text t ∧ t.data = text := by
      cases n <;> simp_all [Node.literal?, Node.isInterpolation]
    have hk := (hvisit _ _ (hcovers.child_fresh c) hrun).text t rfl
      (decide_eq_false (Nat.not_lt.mpr hframe))
    obtain rfl : frame = frame' := by simpa [hk, Context.write, Context.child] using hparent
    obtain ⟨hpieces, ks, hks, hinsert⟩ := ih (by omega) hrestns hrest
    refine ⟨?_, (k.settled false).dynamic :: ks, by simp [hks, Context.adopt],
      List.forall_mem_cons.mpr ⟨?_, hinsert⟩⟩
    · simp [hpieces, Context.adopt, Context.settled_place.2, hk, Context.write, Context.child]
    · rw [hk]
      rfl

end

end Walk

/-! ## Elements -/

section Elements

variable {names : List String} {e : Element} {c c' : Context}

theorem OwnWork.childrenTemplate_eq (h : OwnWork c xs c') :
    c'.childrenTemplate = c.childrenTemplate := by
  cases h <;> rfl

/-- Only literal content is in the markup before the children are visited, and literal content is
left to the children only if they are all texts. -/
theorem ContainerWork.content (h : ContainerWork o names e c c') :
    c'.childrenTemplate = c.childrenTemplate ∧ (∀ data, Literals e.children data →
        c' = c ∧ ∀ n ∈ e.children, n.isInterpolation = false) ∨
      IsTextContainer e ∧ c'.consumedChildren = e.children.length ∧
        ∃ values, List.Forall₂ (Shows o names) e.children values ∧
          literalMarkup? values = some c'.childrenTemplate := by
  cases h with
  | idle hother =>
    refine .inl ⟨rfl, fun data hdata => ⟨rfl, ?_⟩⟩
    simpa using fun hsome => hother ⟨hdata.isTextLike, hsome⟩
  | markup hchildren =>
    refine .inl ⟨rfl, fun data hdata => ?_⟩
    rw [hchildren] at hdata
    cases hdata with
    | cons hcode => cases hcode
  | text _ hshows hnone =>
    refine .inl ⟨rfl, fun data hdata => ?_⟩
    simp [hdata.literalMarkup?_eq hshows] at hnone
  | literal htext hshows hliteral => exact .inr ⟨htext, rfl, _, hshows, hliteral⟩

/-- The markup of an element, from that of its children before any placeholder is set. -/
theorem spells_native {d : NodeInfo} {anchors : List (Nat × Nat)} (hkind : e.kind = .regular)
    (hattributes : IsAttributesOf e attributes) (hd : d.children = placeAll anchors ks)
    (hmarks : SpellsAll o e.children ks pieces)
    (hcontent : c.childrenTemplate = anchors.foldl (fun ts x => ts.set x.1 "<!>") pieces)
    (hdata : ∀ data, Literals e.children data → c.childrenTemplate = data.map Text.escapeText) :
    Spells o (.element e) d (openingTag o e attributes ++ c.content e) := by
  unfold Context.content
  cases hvoid : Template.isVoidTag e.name with
  | true =>
    rw [if_pos rfl, String.append_empty]
    exact .void hkind hvoid hattributes
  | false =>
    rw [hcontent] at hdata ⊢
    exact .element hkind hvoid hattributes (hd ▸ hmarks.placeAll anchors) hdata

/-- The markup of an element with literal content. -/
theorem spells_literal {d : NodeInfo} {values : List Expression} {texts : List String}
    (hkind : e.kind = .regular) (hattributes : IsAttributesOf e attributes)
    (htext : IsTextContainer e) (hshows : List.Forall₂ (Shows o names) e.children values)
    (hliteral : literalMarkup? values = some texts)
    (hd : ∀ k ∈ d.children, k.anchor = none ∧ k.flags.nonTemplate = true)
    (hmarks : SpellsAll o e.children d.children pieces)
    (hcontent : c.childrenTemplate = texts ++ pieces) :
    Spells o (.element e) d (openingTag o e attributes ++ c.content e) := by
  unfold Context.content
  cases hvoid : Template.isVoidTag e.name with
  | true =>
    rw [if_pos rfl, String.append_empty]
    exact .void hkind hvoid hattributes
  | false =>
    rw [hcontent, String.join_append, hmarks.join_eq hd, String.append_empty]
    exact .literal hkind hvoid hattributes htext hshows hliteral hd

/-- An element leaves its markup, or registers it if it is misplaced. -/
theorem Records.of_place {k : Context} {markup : String} (hn : c.node = .element e)
    (hk : k.template = "" ∧ k.removed = false ∧ k.dynamic.template = none ∧
      k.dynamic.flags.nonTemplate = false) (habsorbed : c.isAbsorbed = false)
    (hmarks : ∀ d, d.children = k.dynamic.children → Spells o (.element e) d markup)
    (hchildren : ∀ (i : Nat) m d, e.children[i]? = some m → k.dynamic.children[i]? = some d →
      Spelled o k.session.templates m d) : Records o c ((k.closed e).place e markup) := by
  obtain ⟨htemplate, hremoved, hmarkup, hnon⟩ := hk
  have hlater := (k.place_later e markup).children
  have hgrows : Grows o k ((k.closed e).place e markup) := k.place_grows e markup
  have hrecorded : (∀ i, ((k.closed e).place e markup).dynamic.template = some i →
      ((k.closed e).place e markup).session.templates[i]? = some markup) →
      Spelled o ((k.closed e).place e markup).session.templates c.node
        ((k.closed e).place e markup).dynamic := by
    intro hself
    rw [hn]
    refine .of_children (fun i hi => ⟨markup, hself i hi, hmarks _ hlater⟩) fun i m d hm hd => ?_
    exact (hchildren i m d hm (hlater ▸ hd)).mono hgrows.templates
  cases hmisplaced : (k.closed e).isMisplaced e with
  | true =>
    refine ⟨fun _ => ?_, ?_, hrecorded ?_, by simp [habsorbed], by simp [hn]⟩
    · simp [Context.place, hmisplaced, Context.flag, htemplate, Context.referenced]
    · simp [Context.place, hmisplaced, Context.flag, Flags.union, Flags.inserted]
    · intro i hi
      unfold Context.place at hi ⊢
      rw [if_pos hmisplaced] at hi ⊢
      obtain rfl := Option.some.inj hi
      exact Session.getElem?_addTemplate _ _
  | false =>
    refine ⟨?_, fun _ _ => ?_, hrecorded ?_, by simp [habsorbed], by simp [hn]⟩
    · simp [Context.place, hmisplaced, Context.write, hremoved, hnon]
    · rw [hn]
      have hwritten : ((k.closed e).place e markup).template = markup := by
        simp [Context.place, hmisplaced, Context.write, htemplate]
      rw [hwritten]
      exact hmarks _ hlater
    · intro i hi
      simp [Context.place, hmisplaced, Context.write, hmarkup] at hi

end Elements

/-! ## Visits -/

section Visits

variable {names : List String} {depth : Nat} {c c' : Context}

theorem Creates.records {visit : Transform Unit} {id : Nat} {op : Operation} (hc : c.Fresh)
    (h : Creates o names visit c id xs op c') : Records o c c' where
  apart := fun _ => h.template.trans hc.template
  markup := by simp [h.dynamic]
  recorded := .of_children (by simp [h.dynamic, hc.markup]) (by simp [h.dynamic, hc.children])
  absorbed := by simp [h.isAbsorbed_eq hc]
  text := fun t hn => by simpa [hn, Node.isCreated] using h.isCreated

variable (hconserves : Ensures (visit o depth) Conserves)
  (hgrows : Ensures (visit o depth) (Grows o))
  (hvisit : Ensures (visit o depth) (Records o))

include hconserves hgrows hvisit

theorem records_native {e : Element} {c₁ c₂ k : Context} {props : List Property} (hc : c.Fresh)
    (h : Builds o names (visit o depth) e props xs c c₁ c₂ k)
    (hattributes : IsAttributesOf e attributes) :
    Records o c ((k.closed e).place e (openingTag o e attributes ++ k.content e)) := by
  obtain ⟨ks, pieces, hrecords⟩ := h.walk.records hconserves hgrows hvisit
  obtain ⟨anchors, ops, parent, hplaced, hpieces, -, -, hinserting⟩ := c₂.insertAll_spec
  have hks : c₂.dynamic.children = ks := by
    rw [hrecords.children, h.childless hc, List.nil_append]
  rw [hks] at hplaced hinserting
  obtain ⟨hcontent, hmarks⟩ := hrecords.pieces rfl
  have hchildren : k.dynamic.children = placeAll anchors ks := h.work.later.children.trans hplaced
  have htemplate : k.childrenTemplate =
      anchors.foldl (fun ts x => ts.set x.1 "<!>") (c₁.childrenTemplate ++ pieces) := by
    rw [h.work.childrenTemplate_eq, hpieces, hcontent]
  have hk := h.unplaced
  refine .of_place h.node ⟨hk.template.trans hc.template, hk.removed.trans hc.removed,
    hk.markup.trans hc.markup, hk.nonTemplate.trans hc.nonTemplate⟩ ?_ (fun d hd => ?_) ?_
  · exact hc.isAbsorbed_eq (by simp [h.node, Node.isAbsorbable])
  · rcases h.container.content with ⟨hempty, htexts⟩ | ⟨htext, hconsumed, values, hshows, hliteral⟩
    · rw [hempty, hc.childrenTemplate, List.nil_append] at htemplate
      refine spells_native h.kind hattributes (hd.trans hchildren) hmarks htemplate ?_
      intro data hdata
      obtain ⟨rfl, hns⟩ := htexts data hdata
      obtain ⟨hwritten, ks', hks', hinsert⟩ := h.walk.texts hvisit
        (by simp [Frame.ofNode, hc.consumedChildren]) hns hdata
      obtain rfl : ks = ks' := by simpa [hrecords.children] using hks'
      obtain rfl := hinserting.anchors_eq_nil hinsert
      rw [htemplate]
      simpa [hcontent] using hwritten
    · -- All children are taken over, so that none of them is inserted.
      obtain ⟨ks', hks', hapart⟩ := h.walk.absorbed hvisit (by simp [Frame.ofNode, hconsumed])
      obtain rfl : ks = ks' := by simpa [hrecords.children] using hks'
      obtain rfl := hinserting.anchors_eq_nil fun d hd => (hapart d hd).2.2
      have hd' : d.children = ks := hd.trans hchildren
      refine spells_literal h.kind hattributes htext hshows hliteral (fun d' hmem => ?_)
        (hd' ▸ hmarks) htemplate
      exact ⟨(hapart d' (hd' ▸ hmem)).1, (hapart d' (hd' ▸ hmem)).2.1⟩
  · intro i m d hm hd
    rw [hchildren] at hd
    have hgrows : Grows o c₂ k := c₂.insertAll_grows.trans (h.work.grows h.isOwn)
    exact (spelled_placeAll hrecords.recorded anchors i m d hm hd).mono hgrows.templates

/-- What a visit leaves, if the visits inside do. -/
theorem Visits.records (hc : c.Fresh) (h : Visits o names (visit o depth) c c') :
    Records o c c' := by
  have hother : c.node.isAbsorbable = false → c.isAbsorbed = false := hc.isAbsorbed_eq
  have hrecorded : ∀ {d : NodeInfo}, d.children = [] → d.template = none →
      ∀ templates, Spelled o templates c.node d := fun hchildren hmarkup _ =>
    .of_children (by simp [hmarkup]) (by simp [hchildren])
  cases h.proceeds with
  | absorbed habsorbed hn =>
    refine ⟨fun _ => hc.template, by simp [Context.flag, Flags.union], ?_, fun _ => rfl, ?_⟩
    · exact hrecorded (d := (c.flag _).dynamic) hc.children hc.markup _
    · simp [habsorbed]
  | @text t hn habsorbed =>
    refine ⟨?_, fun _ _ => ?_, hrecorded hc.children hc.markup _, by simp [habsorbed], by simp [hn]⟩
    · simp [Context.write, hc.removed, hc.nonTemplate]
    · simpa [Context.write, hc.template, hn] using Spells.text t _
  | @comment data location hn _ =>
    refine ⟨?_, fun _ _ => ?_, hrecorded hc.children hc.markup _, ?_, by simp [hn]⟩
    · simp [Context.write, hc.removed, hc.nonTemplate]
    · simpa [Context.write, hc.template, hn] using Spells.comment data location _
    · simp [hother (by simp [hn, Node.isAbsorbable])]
  | dropped hn =>
    refine ⟨fun _ => hc.template, by simp, hrecorded hc.children hc.markup _, ?_, by simp [hn]⟩
    simp [hother (by simp [hn, Node.isAbsorbable])]
  | created hcreates => exact hcreates.records hc
  | native hbuilds hattributes =>
    exact records_native hconserves hgrows hvisit hc hbuilds
      (hattributes.isAttributesOf hbuilds.read hbuilds.kind)
  | @fragment f c' hn hwalk =>
    obtain ⟨ks, pieces, hrecords⟩ := hwalk.records hconserves hgrows hvisit
    have hks : c'.dynamic.children = ks := by
      rw [hrecords.children, hc.children, List.nil_append]
    have htemplate : c'.template = "" := hwalk.samePlace.template.trans hc.template
    refine ⟨fun _ => htemplate, fun _ _ => ?_, .of_children ?_ ?_, ?_, by simp [hn]⟩
    · rw [hn, htemplate]
      exact .fragment f _
    · simp [hwalk.unplaced.markup, hc.markup]
    · rw [hn, hks]
      exact hrecords.recorded
    · simp [hother (by simp [hn, Node.isAbsorbable])]

end Visits

theorem visit_records (hpasses : o.passes = Pass.all) (depth : Nat) :
    Ensures (visit o depth) (Records o) := by
  refine visit_ensures hpasses (fun depth ih c c' names hc hvisits => ?_) depth
  exact hvisits.records (visit_conserves hpasses depth) (visit_grows hpasses depth) ih hc

/-! ## Compiled templates -/

theorem nodup_ids_of_compile {root : Fragment} {r : Compiled} (hpasses : o.passes = Pass.all)
    (h : compile o root = .ok r) {b : Block} (hb : b ∈ r.block.blocks) : b.dynamic.ids.Nodup := by
  obtain ⟨depth, s, hmakes, -⟩ := compile_ok hpasses h
  have hnodup : r.block.ownedIds.Nodup :=
    (hmakes.ownedIds_perm hpasses).nodup_iff.mpr List.nodup_range
  have hsublist : b.ids.Sublist r.block.ownedIds := by
    rw [Block.ownedIds, List.flatMap_def]
    exact List.sublist_flatten_of_mem (List.mem_map_of_mem hb)
  exact hnodup.sublist ((List.sublist_append_left _ _).trans hsublist)

/-- In every block of a compiled template, something is known of each child, and the operations on an
element show all its children in their order, each inserted child once and each placeholder used
once. What is registered for a node of the block is its markup, with its attributes in the opening
tag, and with the children and placeholders of elements at their places. -/
theorem compile_shows_children_in_order {root : Fragment} {r : Compiled}
    (hpasses : o.passes = Pass.all) (h : compile o root = .ok r) :
    ∀ b ∈ r.block.blocks, b.dynamic.children.length = b.node.children.length ∧
      (∀ e d, Within b.node b.dynamic (.element e) d → e.kind = .regular →
        d.children.length = e.children.length ∧ Arranged b.operations d) ∧
      Spelled o r.templates b.node b.dynamic := by
  intro b hb
  have hnodup := nodup_ids_of_compile hpasses h hb
  obtain ⟨depth, f, s, s', ⟨c, hrun, rfl, rfl⟩, htemplates⟩ := compile_made hpasses h b hb
  have hfresh := Context.newBlock_fresh f s
  obtain ⟨new, harranges⟩ := visit_arranges hpasses depth _ c hfresh hrun
  have hrecords := visit_records hpasses depth _ c hfresh hrun
  obtain ⟨d, hwalk⟩ := visit_fragment_ok hpasses hfresh rfl hrun
  have hnode : c.toBlock.node = .fragment f := hwalk.samePlace.node
  have hoperations : c.toBlock.operations = new := harranges.operations
  rw [hnode, hoperations]
  exact ⟨hwalk.length_children.trans (Nat.zero_add _), harranges.arranged _ (.refl _) hnodup,
    hrecords.recorded.mono htemplates⟩

/-- A list with children to insert before, between and after its items. -/
def interleavedTemplate : Fragment :=
  ⟨[.element ⟨"ul", .regular, [],
    [.ifBlock ⟨⟨"a", {}⟩, ⟨[.element ⟨"li", .regular, [], [], {}⟩], {}⟩, none, false, {}⟩,
      .element ⟨"li", .regular, [], [.text ⟨"one", "one", {}⟩], {}⟩,
      .comment "two" {},
      .element ⟨"Item", .component, [], [], {}⟩,
      .interpolation ⟨"b", {}⟩,
      .element ⟨"li", .regular, [], [], {}⟩,
      .eachBlock ⟨⟨"items", {}⟩, "item", none, none, ⟨[.interpolation ⟨"item", {}⟩], {}⟩, none, {}⟩], {}⟩],
    {}⟩

theorem compile_shows_children_in_order_interleavedTemplate :
    ∃ r, compile {} interleavedTemplate = .ok r ∧ ∀ b ∈ r.block.blocks,
      b.dynamic.children.length = b.node.children.length ∧
      (∀ e d, Within b.node b.dynamic (.element e) d → e.kind = .regular →
        d.children.length = e.children.length ∧ Arranged b.operations d) ∧
      Spelled {} r.templates b.node b.dynamic :=
  exists_ok (by decide +kernel) fun _ => compile_shows_children_in_order rfl

end TemplateCompiler
