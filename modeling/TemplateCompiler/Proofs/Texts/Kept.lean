import TemplateCompiler.Proofs.Texts.Walks

/-! # Texts are kept

Every text and every interpolation of a template shows once, in the order of the template: in the
markup that is registered, or as values of the operations of a block.
-/

namespace TemplateCompiler

open Template (Branches EachBlock Element Fragment IfBlock Node)
open Transform

variable {e : Element} {x : Nat} {xs : List Contribution}

variable {o : Options} {names templates : List String} {ops : List Operation} {c k : Context}
  {q : Piece}

/-! ## Nodes that one operation creates -/

theorem FromProps.textSet? {id : Nat} {props : List Property} {x : Contribution}
    (h : FromProps o names e id props x) (x' : Option Nat) : x.op.textSet? x' = none := by
  rcases h with ⟨d, -, hd⟩ | hplaces
  · cases hd with
    | event | reference => rw [dependingOn_op]; rfl
    | model | plainReference | action => rfl
  · cases hplaces <;> rfl

theorem Keeps.of_idle (hopen : c.node.isOpen = false) (hregions : c.node.regions = [])
    (hblock : k.block = c.block) : Keeps o names c k where
  inside := fun _ _ _ hembeds =>
    .leaf hopen hregions
      ((hembeds.among [] (.of_same hblock)).textsSet_eq_nil (fun _ => .inr) (by simp))
  apart := fun _ _ _ hembeds _ =>
    (hembeds.among [] (.of_same hblock)).textsMade_eq_nil (fun _ => .inr) (by simp)

theorem KeepsText.of_region {n : Node} {op : Operation} {x : Nat} (hopen : n.isOpen = false)
    (hop : op ∈ ops) (hcreated : op.created? = some x) (hid : q.info.id = some x)
    (hset : textsSet ops q.info.id = [])
    (hregions : List.Forall₂ (fun r b => BlockKeeps o templates (r.1 ++ names) r.2 b) n.regions
      op.shown) : KeepsText o templates names ops n q := by
  obtain ⟨hlength, hall⟩ := List.forall₂_iff_zip.mp hregions
  refine .region hopen hop (by simp [hcreated]) (hcreated.trans hid.symm) hset hlength.symm ?_ ?_
  · exact fun scope f b hmem => ⟨(hall hmem).node, (hall hmem).owns⟩
  · exact fun scope f b hmem => (hall hmem).keeps

/-- A node that is created apart keeps texts if its regions do. -/
theorem Creates.keeps {visit : Transform Unit} {x : Nat} {xs : List Contribution} {op : Operation}
    (h : Creates o names visit c x xs op k)
    (hregions : ∀ templates, k.session.templates <+: templates →
      List.Forall₂ (fun r b => BlockKeeps o templates (r.1 ++ names) r.2 b) c.node.regions
        op.shown) : Keeps o names c k := by
  obtain ⟨e, props, hown⟩ := h.own
  have hopen := Node.isOpen_of_isCreated h.isCreated
  have hid : k.dynamic.id = some x := by rw [h.dynamic]
  have hadds : c.Adds k (op :: xs.map (·.op)) := by
    have hxs : c.block.Receives xs (xs.foldl Block.add c.block) := .of_foldl rfl
    rw [Context.Adds, h.block, List.cons_append]
    exact (Block.allOperations_add _ (.once op)).trans (hxs.allOperations.cons op)
  constructor
  · intro ops templates q hembeds
    have hamong := hembeds.among _ hadds
    have hop : op ∈ ops := by
      obtain ⟨rest, hperm, -⟩ := hamong
      exact hperm.mem_iff.mpr (by simp)
    refine .of_region hopen hop h.created (hembeds.stands.later.id x hid) ?_
      (hregions templates hembeds.templates)
    refine hamong.textsSet_eq_nil (fun _ => .inr) fun op' hop' => ?_
    rcases List.mem_cons.mp hop' with rfl | hop'
    · exact Operation.textSet?_of_created? h.created
    · obtain ⟨y, hy, rfl⟩ := List.mem_map.mp hop'
      exact FromProps.textSet? (.inl (hown y hy)) _
  · intro ops templates q hembeds hlike
    refine (hembeds.among _ hadds).textsMade_eq_nil (fun _ => .inr) fun op' hop' => ?_
    rcases List.mem_cons.mp hop' with rfl | hop'
    · cases op' with
      | createText =>
        have hinterpolation := h.isText _ _ _ rfl
        cases hn : c.node <;> simp [hn, Node.isInterpolation, Node.isTextLike] at *
      | _ => rfl
    · obtain ⟨y, hy, rfl⟩ := List.mem_map.mp hop'
      exact Operation.textMade?_of_created? (Operation.created?_of_isOwn (h.isOwn y hy))

/-! ## Elements -/

theorem ShowsWhole.congr {ops' : List Operation} {id : Option Nat} {texts : List String}
    {whole : List TextPart} (h : ShowsWhole ops id texts whole)
    (hperm : (textsSet ops' id).Perm (textsSet ops id)) : ShowsWhole ops' id texts whole := by
  cases h with
  | inlined texts hnone => exact .inlined texts (List.perm_nil.mp (hnone ▸ hperm))
  | set hvalues => exact .set (List.perm_singleton.mp (hvalues ▸ hperm))

/-- What an element does about its content as a whole accounts for all its children or for none. -/
theorem ContainerWork.showsWhole {c₁ : Context} (hc : c.Fresh) (h : ContainerWork o names e c c₁) :
    ∃ new texts whole, c.Adds c₁ new ∧ c₁.childrenTemplate = texts ∧
      (∀ op ∈ new, op.created? = none ∧ op.subject? = c₁.dynamic.id) ∧
      (∀ id, (∀ x, c₁.dynamic.id = some x → id = some x) → ShowsWhole new id texts whole) ∧
      (c₁ = c ∧ whole = [] ∨ c₁.consumedChildren = e.children.length ∧
        List.Forall₂ (Renders o names) (e.children.filter (·.isTextLike)) whole) := by
  have hall : IsTextContainer e → e.children.filter (·.isTextLike) = e.children := fun htexts =>
    List.filter_eq_self.mpr htexts.1
  cases h with
  | idle =>
    refine ⟨[], [], [], .of_same rfl, hc.childrenTemplate, by simp, ?_, .inl ⟨rfl, rfl⟩⟩
    exact fun x _ => .inlined [] rfl
  | @markup code value hchildren =>
    have hadds : c.Adds (Context.add { c.referenced with consumedChildren := 1 }
        (.whenever [value] (.setHtml c.ownId value))) [.setHtml c.ownId value] :=
      .of_add c (.whenever [value] (.setHtml c.ownId value)) rfl
    refine ⟨_, [], [], hadds, hc.childrenTemplate, ?_, ?_, .inr ⟨by simp [Context.add, hchildren], ?_⟩⟩
    · simp [Operation.created?, Operation.subject?, Context.add]
    · exact fun x _ => .inlined [] rfl
    · simp [hchildren, Node.isTextLike]
  | @literal values texts htexts hshows hliteral =>
    refine ⟨[], texts, texts.map .markup, .of_same rfl, rfl, by simp, ?_, .inr ⟨rfl, ?_⟩⟩
    · exact fun x _ => .inlined texts rfl
    · rw [hall htexts]
      exact renders_of_literalMarkup hshows hliteral
  | @text values htexts hshows =>
    have hadds : c.Adds (Context.add { c.referenced with consumedChildren := e.children.length }
        (.whenever values (.setText c.ownId values))) [.setText c.ownId values] :=
      .of_add c (.whenever values (.setText c.ownId values)) rfl
    refine ⟨_, [], values.map .value, hadds, hc.childrenTemplate, ?_, ?_, .inr ⟨rfl, ?_⟩⟩
    · simp [Operation.created?, Operation.subject?, Context.add]
    · intro id hid
      obtain rfl : id = some c.ownId := hid _ (by simp [Context.add])
      exact .set (by simp [textsSet, Operation.textSet?])
    · rw [hall htexts]
      exact renders_of_shows hshows

/-- The children of an element once placeholders are set. -/
theorem becomes_placeAll {anchors : List (Nat × Nat)} {ds : List Piece}
    (h : ∀ y ∈ anchors, ∀ d, ds[y.1]? = some d → d.info.flags.insert = true) :
    ∃ qs, List.Forall₂ Piece.Becomes ds qs ∧
      qs.map (·.info) = placeAll anchors (ds.map (·.info)) ∧
      qs.map (·.markup) = anchors.foldl (fun ts x => ts.set x.1 "<!>") (ds.map (·.markup)) := by
  have hall : ∀ (anchors : List (Nat × Nat)) (ps : List Piece),
      (∀ y ∈ anchors, ∀ d, ds[y.1]? = some d → d.info.flags.insert = true) →
      List.Forall₂ Piece.Becomes ds ps →
      ∃ qs, List.Forall₂ Piece.Becomes ds qs ∧
        qs.map (·.info) = placeAll anchors (ps.map (·.info)) ∧
        qs.map (·.markup) = anchors.foldl (fun ts x => ts.set x.1 "<!>") (ps.map (·.markup)) := by
    intro anchors
    induction anchors with
    | nil => exact fun ps _ hps => ⟨ps, hps, rfl, rfl⟩
    | cons y anchors ih =>
      intro ps hinsert hps
      have hstep : List.Forall₂ Piece.Becomes ds
          (ps.modify y.1 fun p => ⟨p.info.withAnchor y.2, "<!>"⟩) := by
        refine forall₂_modify hps y.1 fun d p hd hp => ?_
        have hd' := hinsert y (by simp) d hd
        refine ⟨⟨hp.replaces.id, ?_, hp.replaces.template, hp.replaces.children⟩, ?_, ?_⟩
        · simp [NodeInfo.withAnchor, Flags.minus, hp.replaces.insert]
        · simp [hd']
        · exact .inr ⟨hd', rfl⟩
      obtain ⟨qs, hqs, hinfo, hmarkup⟩ :=
        ih _ (fun z hz => hinsert z (by simp [hz])) hstep
      refine ⟨qs, hqs, hinfo.trans ?_, hmarkup.trans ?_⟩
      · refine congrArg (placeAll anchors) (List.ext_getElem? fun j => ?_)
        simp only [List.getElem?_map, List.getElem?_modify]
        cases ps[j]? with
        | none => rfl
        | some p => by_cases hj : y.1 = j <;> simp [hj]
      · refine congrArg (List.foldl _ · anchors) (List.ext_getElem? fun j => ?_)
        simp only [List.getElem?_map, List.getElem?_modify, List.getElem?_set, List.length_map]
        by_cases hj : y.1 = j
        · subst hj
          by_cases hlt : y.1 < ps.length <;> simp [hlt]
        · cases ps[j]? <;> simp [hj]
  exact hall anchors ds h (List.forall₂_same.mpr fun d _ => .refl d)

theorem textsSet_append (xs ys : List Operation) (id : Option Nat) :
    textsSet (xs ++ ys) id = textsSet xs id ++ textsSet ys id := List.filterMap_append

theorem textsSet_none (ops : List Operation) : textsSet ops none = [] := by
  refine List.filterMap_eq_nil_iff.mpr fun op _ => ?_
  cases op <;> simp [Operation.textSet?]

/-- Inserting children is not about any of them. -/
theorem Context.insertAll_adds (c : Context) :
    ∃ new, c.Adds c.insertAll new ∧ ∀ op ∈ new, op.subject? = none := by
  obtain ⟨anchors, new, -, -, hblock, parent, -, hinserting⟩ :=
    insertRuns_spec (insertions [] false (c.dynamic.children.zipIdx.map Prod.swap)) c
  refine ⟨new, ?_, fun op hop => ?_⟩
  · have hreceives : c.block.Receives (new.map .once) c.insertAll.block := by
      refine .of_foldl ?_
      rw [List.foldl_map]
      exact hblock
    have hperm := hreceives.allOperations
    rwa [List.map_map, show Contribution.op ∘ Contribution.once = id from rfl, List.map_id] at hperm
  · have hparent := hinserting.parent?_eq op hop
    cases op <;> simp_all [Operation.parent?, Operation.subject?]

/-- The markup of an element that has been placed is where it belongs. -/
theorem Context.place_found (c : Context) (e : Element) (markup : String) (hc : c.template = "")
    (hinsert : c.dynamic.flags.insert = false) {q : Piece}
    (hq : Stands ((c.closed e).place e markup) q)
    (htemplates : ((c.closed e).place e markup).session.templates <+: templates) :
    q.IsFound templates markup := by
  by_cases hmisplaced : (c.closed e).isMisplaced e = true
  · have hplace : (c.closed e).place e markup = Context.flag
        { (c.closed e).referenced with
          session := ((c.closed e).referenced.session.addTemplate markup).2
          dynamic := { (c.closed e).referenced.dynamic with
            template := some ((c.closed e).referenced.session.addTemplate markup).1 } }
        .inserted := if_pos hmisplaced
    rw [hplace] at hq htemplates
    refine .inr ⟨_, hq.template ((c.closed_template e).trans hc), ?_⟩
    exact getElem?_of_prefix htemplates (Session.getElem?_addTemplate _ _)
  · have hplace : (c.closed e).place e markup = (c.closed e).write markup := if_neg hmisplaced
    rw [hplace] at hq
    rcases hq.markup with hmarkup | ⟨hinserted, -⟩
    · exact .inl (by simpa [write, hc] using hmarkup)
    · simp [write, hinsert] at hinserted

/-- The operations of an element, from the steps of its visit: those on its content as a whole,
those of its children, and then their insertion and the properties of the element. -/
structure ElementOperations (c c₁ c₂ c' : Context) (whole children inserting props : List Operation) :
    Prop where
  adds : c.Adds c' (props ++ (inserting ++ (children ++ whole)))
  walk : c₁.Adds c₂ children
  id : ∀ x, c₁.dynamic.id = some x → c'.dynamic.id = some x
  whole : ∀ op ∈ whole, op.created? = none ∧ ∀ x, op.subject? = some x → c'.dynamic.id = some x
  children : ∀ op ∈ children, ∀ x, op.subject? = some x → c₁.session.Gives c₂.session x
  inserting : ∀ op ∈ inserting, op.subject? = none
  props : ∀ op ∈ props, op.created? = none ∧ (∀ id, op.textSet? id = none) ∧
    ∀ x, op.subject? = some x → c'.dynamic.id = some x
  before : c.session.nextId ≤ c₁.session.nextId
  after : c₂.session.nextId ≤ c'.session.nextId
  /-- The element has its id from before or after the visits of its children. -/
  outside : ∀ x, c'.dynamic.id = some x → ¬c₁.session.Gives c₂.session x

namespace ElementOperations

variable {c₁ c₂ c' : Context} {whole children inserting props : List Operation}

section

variable (h : ElementOperations c c₁ c₂ c' whole children inserting props)
  (hembeds : Embeds c c' ops templates q)

include h hembeds

theorem outside_piece (hx : q.info.id = some x) : ¬c₁.session.Gives c₂.session x := by
  cases hid : c'.dynamic.id with
  | none =>
    have hle := Nat.le_trans h.after (hembeds.stands.fresh hid x hx)
    exact fun hgives => absurd hgives.2 (Nat.not_lt.mpr hle)
  | some y =>
    obtain rfl : y = x := Option.some.inj ((hembeds.stands.later.id y hid).symm.trans hx)
    exact h.outside y hid

theorem among_children : Among ops children (c₁.session.Gives c₂.session) := by
  have hall := hembeds.among _ h.adds
  refine ((hall.right ?_ ?_).right (fun _ hx => hx) ?_).left (fun _ hx => hx) ?_
  · exact fun x hx => .inl (hx.mono h.before h.after)
  · exact fun op hop x hx hsubject => h.outside x ((h.props op hop).2.2 x hsubject) hx
  · exact fun op hop x _ => by simp [h.inserting op hop]
  · exact fun op hop x hx hsubject => h.outside x ((h.whole op hop).2 x hsubject) hx

/-- The text of the element is set only as a whole. -/
theorem textsSet_perm : (textsSet ops q.info.id).Perm (textsSet whole q.info.id) := by
  cases hid : q.info.id with
  | none => rw [textsSet_none, textsSet_none]
  | some x =>
    have hprops : textsSet props (some x) = [] :=
      List.filterMap_eq_nil_iff.mpr fun op hop => (h.props op hop).2.1 _
    have hinserting : textsSet inserting (some x) = [] := by
      refine List.filterMap_eq_nil_iff.mpr fun op hop => Operation.textSet?_of_subject? ?_
      simp [h.inserting op hop]
    have hchildren : textsSet children (some x) = [] := by
      refine List.filterMap_eq_nil_iff.mpr fun op hop => Operation.textSet?_of_subject? ?_
      intro y hy hsubject
      exact h.outside_piece hembeds (hid.trans hy) (h.children op hop y hsubject)
    have hperm := (hembeds.among _ h.adds).textsSet_perm (.inr hid)
    rwa [textsSet_append, textsSet_append, textsSet_append, hprops, hinserting, hchildren] at hperm

theorem textsMade_eq_nil : textsMade ops q.info.id = [] := by
  refine (hembeds.among _ h.adds).textsMade_eq_nil (fun _ => .inr) fun op hop => ?_
  simp only [List.mem_append] at hop
  rcases hop with hop | hop | hop | hop
  · exact Operation.textMade?_of_created? (h.props op hop).1
  · exact Operation.textMade?_of_subject? (by simp [h.inserting op hop])
  · refine Operation.textMade?_of_subject? fun x hx hsubject => ?_
    exact h.outside_piece hembeds hx (h.children op hop x hsubject)
  · exact Operation.textMade?_of_created? (h.whole op hop).1

end

end ElementOperations

section Visits

variable {depth : Nat} (hpasses : o.passes = Pass.all)

include hpasses

theorem elementOperations {c₁ c₂ k : Context} {props : List Property} {whole : List Operation}
    (markup : String) (hnumbered : c.IsNumbered)
    (h : Builds o names (visit o depth) e props xs c c₁ c₂ k) (hadds : c.Adds c₁ whole)
    (hwhole : ∀ op ∈ whole, op.created? = none ∧ op.subject? = c₁.dynamic.id) :
    ∃ children inserting, ElementOperations c c₁ c₂ ((k.closed e).place e markup) whole children
      inserting (xs.map (·.op)) := by
  obtain ⟨ws, hws⟩ := h.walk.allots (visit_conserves hpasses depth) (visit_allots hpasses depth)
  obtain ⟨inserting, hins, hinserting⟩ := c₂.insertAll_adds
  have hplace : Allots k [] ((k.closed e).place e markup) := k.place_allots e markup
  have howns := h.work.allots fun x hx => (h.own x hx).named_eq
  have hmore : Gains c₂ ((k.closed e).place e markup) :=
    c₂.insertAll_gains.trans (howns.toGains.trans hplace.toGains)
  have hkept : ∀ x, c₁.dynamic.id = some x → ((k.closed e).place e markup).dynamic.id = some x := by
    intro x hx
    have hinserted : c₂.insertAll.dynamic.id = some x :=
      Context.insertRuns_id _ (h.walk.id_eq.trans hx)
    exact (k.place_later e markup).id x (h.work.later.id x hinserted)
  refine ⟨ws.map (·.op), inserting, ?_, hws.adds, hkept, ?_, ?_, hinserting, ?_,
    h.container.gains.nextId, hmore.nextId, ?_⟩
  · exact (((hadds.trans hws.adds).trans hins).trans howns.adds).trans hplace.adds
  · exact fun op hop =>
      ⟨(hwhole op hop).1, fun x hx => hkept x ((hwhole op hop).2.symm.trans hx)⟩
  · intro op hop x hx
    obtain ⟨y, hy, rfl⟩ := List.mem_map.mp hop
    exact hws.within y hy x (Operation.mem_named_of_subject? hx)
  · intro op hop
    obtain ⟨y, hy, rfl⟩ := List.mem_map.mp hop
    refine ⟨Operation.created?_of_isOwn (h.isOwn y hy), (h.own y hy).textSet?, fun x hx => ?_⟩
    have hnamed := Operation.mem_named_of_subject? hx
    rw [(h.own y hy).named_eq, List.mem_singleton] at hnamed
    exact (k.place_later e markup).id x (hnamed ▸ h.work.id_of_mem hy)
  · intro x hx hgives
    rcases hmore.id x hx with hown | hlate
    · rw [h.walk.id_eq] at hown
      have hlt : x < c₁.session.nextId := by
        rcases h.container.gains.id x hown with hown | hgiven
        · exact Nat.lt_of_lt_of_le (hnumbered x hown) h.container.gains.nextId
        · exact hgiven.2
      exact absurd hgives.1 (Nat.not_le.mpr hlt)
    · exact absurd hgives.2 (Nat.not_lt.mpr hlate.1)

variable
  (hvisit : Ensures (visit o depth) fun c c' =>
    c.IsNumbered → ∀ names, c.session.Binds names → Keeps o names c c')

include hvisit

section

variable (hc : c.Fresh) (hnumbered : c.IsNumbered) (hb : c.session.Binds names)

include hc hnumbered hb

theorem keeps_native {c₁ c₂ k : Context} {props : List Property} {attributes : String}
    (h : Builds o names (visit o depth) e props xs c c₁ c₂ k)
    (hattributes : IsAttributesOf e attributes) :
    Keeps o names c ((k.closed e).place e (openingTag o e attributes ++ k.content e)) := by
  obtain ⟨cont, texts, whole, hcont, htexts, hcontOps, hwhole, hall⟩ := h.container.showsWhole hc
  obtain ⟨children, inserting, hops⟩ := elementOperations hpasses
    (openingTag o e attributes ++ k.content e) hnumbered h hcont hcontOps
  obtain ⟨ds, hds⟩ := h.walk.keeps hpasses hvisit
  obtain ⟨anchors, _, parent, hplaced, hpieces, -, -, hinserting⟩ := c₂.insertAll_spec
  have hks : c₂.dynamic.children = ds.map (·.info) := by
    rw [hds.children, h.childless hc, List.nil_append]
  rw [hks] at hplaced hinserting
  rw [hds.pieces rfl, htexts] at hpieces
  have hinserted : ∀ y ∈ anchors, ∀ d, ds[y.1]? = some d → d.info.flags.insert = true := by
    intro y hy d hd
    obtain ⟨d', hd', hinsert⟩ := hinserting.anchored hy
    rw [List.getElem?_map, hd] at hd'
    obtain rfl : d.info = d' := Option.some.inj hd'
    exact hinsert
  obtain ⟨qs, hqs, hinfo, hmarkup⟩ := becomes_placeAll hinserted
  -- An element that shows its content as a whole has nothing to insert.
  have hcontent : k.childrenTemplate = texts ++ qs.map (·.markup) := by
    rw [h.work.childrenTemplate_eq, hpieces, hmarkup]
    rcases hall with ⟨rfl, -⟩ | ⟨hconsumed, -⟩
    · rw [← htexts, hc.childrenTemplate, List.nil_append, List.nil_append]
    · obtain ⟨ks, hks', hapart⟩ :=
        h.walk.absorbed (visit_records hpasses depth) (by simp [Frame.ofNode, hconsumed])
      rw [h.childless hc, List.nil_append, hks] at hks'
      obtain rfl := hinserting.anchors_eq_nil fun d hd => (hapart d (hks' ▸ hd)).2.2
      rfl
  refine ⟨fun ops templates q hembeds => ?_, fun ops templates q hembeds _ =>
    hops.textsMade_eq_nil hembeds⟩
  have hgrows : c₂.session.templates <+: templates := by
    refine List.IsPrefix.trans ?_ hembeds.templates
    have hplace : Grows o k _ := k.place_grows e (openingTag o e attributes ++ k.content e)
    exact ((c₂.insertAll_grows.trans (h.work.grows h.isOwn)).trans
      hplace).templates
  obtain ⟨⟨parts, hcarries, hparts⟩, hinside⟩ := hds.kept names ops templates qs
    (hb.congr h.container.count_eq)
    (fun new hnew => (hops.among_children hembeds).congr (hops.walk.perm hnew)) hgrows hqs
  rw [h.node]
  refine .element h.kind ?_ ((hwhole q.info.id ?_).congr (hops.textsSet_perm hembeds)) hcarries ?_
    hattributes ?_ (k.place_found e _ ?_ ?_ hembeds.stands hembeds.templates) hinside
  · rw [hembeds.stands.later.children, (k.place_later e _).children, h.work.later.children, hplaced,
      hinfo]
  · exact fun x hx => hembeds.stands.later.id x (hops.id x hx)
  · rcases hall with ⟨rfl, rfl⟩ | ⟨hconsumed, hrenders⟩
    · simpa [Frame.ofNode, hc.consumedChildren] using hparts
    · rw [Frame.ofNode, hconsumed, Nat.sub_zero, List.drop_length] at hparts
      obtain rfl : parts = [] := by simpa using hparts
      rwa [List.append_nil]
  · rw [← hcontent]
    rfl
  · exact h.unplaced.template.trans hc.template
  · exact h.unplaced.insert.trans hc.insert

theorem keeps_fragment {f : Fragment} (hn : c.node = .fragment f)
    (hwalk : VisitsChildren (visit o depth) true (Frame.ofNode c.node 0) 0 f.children c k) :
    Keeps o names c k := by
  obtain ⟨ws, hws⟩ := hwalk.allots (visit_conserves hpasses depth) (visit_allots hpasses depth)
  obtain ⟨ds, hds⟩ := hwalk.keeps hpasses hvisit
  -- No child has the id of the fragment.
  have houtside : ∀ {ops templates q}, Embeds c k ops templates q → ∀ op ∈ ws.map (·.op),
      ∀ x, q.info.id = some x → op.subject? ≠ some x := by
    intro ops templates q hembeds op hop x hx hsubject
    obtain ⟨y, hy, rfl⟩ := List.mem_map.mp hop
    have hgives := hws.within y hy x (Operation.mem_named_of_subject? hsubject)
    cases hid : c.dynamic.id with
    | none =>
      have hle := hembeds.stands.fresh (hwalk.id_eq.trans hid) x hx
      exact absurd hgives.2 (Nat.not_lt.mpr hle)
    | some z =>
      have hown := hembeds.stands.later.id z (hwalk.id_eq.trans hid)
      obtain rfl : z = x := Option.some.inj (hown.symm.trans hx)
      exact absurd hgives.1 (Nat.not_le.mpr (hnumbered z hid))
  have hset : ∀ {ops templates q}, Embeds c k ops templates q → textsSet ops q.info.id = [] := by
    intro ops templates q hembeds
    exact (hembeds.among _ hws.adds).textsSet_eq_nil (fun _ => .inr) fun op hop =>
      Operation.textSet?_of_subject? (houtside hembeds op hop)
  have hmade : ∀ {ops templates q}, Embeds c k ops templates q → textsMade ops q.info.id = [] := by
    intro ops templates q hembeds
    exact (hembeds.among _ hws.adds).textsMade_eq_nil (fun _ => .inr) fun op hop =>
      Operation.textMade?_of_subject? (houtside hembeds op hop)
  refine ⟨fun ops templates q hembeds => ?_, fun ops templates q hembeds _ => hmade hembeds⟩
  obtain ⟨⟨parts, hcarries, hparts⟩, hinside⟩ := hds.kept names ops templates ds hb
    (fun new hnew => (hembeds.among new hnew).mono fun _ => .inl) hembeds.templates
    (List.forall₂_same.mpr fun d _ => .refl d)
  rw [hn]
  refine .fragment ?_ (hset hembeds) (hmade hembeds) hcarries (by simpa [Frame.ofNode] using hparts)
    (fun d hd hmarkup => ?_) hinside
  · rw [hembeds.stands.later.children, hds.children, hc.children, List.nil_append]
  · obtain ⟨j, hj, htext⟩ := hds.registered rfl d hd hmarkup
    exact ⟨j, hj, getElem?_of_prefix hembeds.templates htext⟩

/-- A visit keeps texts, if the visits inside do. -/
theorem Visits.keeps (h : Visits o names (visit o depth) c k) : Keeps o names c k := by
  cases h.proceeds with
  | absorbed _ habsorbable =>
    cases hnode : c.node <;> simp [hnode, Node.isAbsorbable] at habsorbable <;>
      exact .of_idle (by simp [hnode, Node.isOpen]) (by simp [hnode, Node.regions]) rfl
  | text hn | comment hn | dropped hn => exact .of_idle (by rw [hn]; rfl) (by rw [hn]; rfl) rfl
  | created hcreates =>
    obtain ⟨_, -, hmakes⟩ := hcreates.makes
    exact hcreates.keeps fun templates htemplates =>
      hmakes.keeps hpasses hvisit hb htemplates
  | native hbuilds hattributes =>
    exact keeps_native hpasses hvisit hc hnumbered hb hbuilds
      (hattributes.isAttributesOf hbuilds.read hbuilds.kind)
  | fragment hn hwalk => exact keeps_fragment hpasses hvisit hc hnumbered hb hn hwalk

end

end Visits

/-! ## Compiled templates -/

theorem visit_keeps (hpasses : o.passes = Pass.all) (depth : Nat) :
    Ensures (visit o depth) fun c k =>
      c.IsNumbered → ∀ names, c.session.Binds names → Keeps o names c k := by
  refine visit_induction hpasses (fun depth ih c k hc hvisits hnumbered names hb => ?_) depth
  exact (hvisits names hb).keeps hpasses ih hc hnumbered hb

/-- In every block of a compiled template, each text and each interpolation shows once and in its
place: in markup, as a value of the text that an operation creates for a run, or as a value that
the text of an element is set to. -/
theorem compile_keeps_texts {root : Fragment} {r : Compiled} (hpasses : o.passes = Pass.all)
    (h : compile o root = .ok r) : BlockKeeps o r.templates [] (o.prepare root) r.block := by
  obtain ⟨depth, s, hmakes, htemplates⟩ := compile_ok hpasses h
  have hbinds : ({} : Session).Binds [] := by
    simp [Session.Binds, Session.count, Session.isIdentifier]
  exact hmakes.keeps hpasses (visit_keeps hpasses depth) hbinds (htemplates ▸ List.prefix_rfl)

/-- Two runs of texts around a branch, an element whose text is set and one whose text is written. -/
def textsTemplate : Fragment :=
  ⟨[.text ⟨"a<b", "a<b", {}⟩, .interpolation ⟨"c", {}⟩, .text ⟨"d", "d", {}⟩,
    .ifBlock ⟨⟨"e", {}⟩, ⟨[.interpolation ⟨"f", {}⟩, .text ⟨"g", "g", {}⟩], {}⟩, none, false, {}⟩,
    .interpolation ⟨"h", {}⟩,
    .element ⟨"p", .regular, [], [.text ⟨"i", "i", {}⟩, .interpolation ⟨"j", {}⟩], {}⟩,
    .element ⟨"b", .regular, [], [.text ⟨"k", "k", {}⟩, .interpolation ⟨"'<'", {}⟩], {}⟩], {}⟩

theorem compile_keeps_texts_textsTemplate :
    ∃ r, compile {} textsTemplate = .ok r ∧
      BlockKeeps {} r.templates [] (Options.prepare {} textsTemplate) r.block :=
  exists_ok (by decide +kernel) fun _ => compile_keeps_texts rfl

end TemplateCompiler
