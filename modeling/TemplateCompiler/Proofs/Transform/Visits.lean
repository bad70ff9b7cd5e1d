import TemplateCompiler.Proofs.Names.Loops
import TemplateCompiler.Proofs.Transform.Passes

/-! # Visits of nodes

One rule for each kind of node says what a visit of it comes to. All that is proved of compiled
templates goes by induction over these rules.
-/

namespace TemplateCompiler

open Template (EachBlock Element Fragment IfBlock Node)
open Transform

variable {props : List Property}

/-! ## Rules -/

/-- The slot outlet takes its name from one of the properties. -/
inductive NameFrom (o : Options) (names : List String) (props : List Property) : Expression → Prop
  | fixed {a : StaticAttribute} :
      .fixed a ∈ props → a.name = "name" → NameFrom o names props (.static a.value a.location)
  | bound {d : Directive} {raw name : Expression} :
      .bound d ∈ props → d.name = "bind" → d.staticArg? = some "name" → d.exp = some raw →
      Processed o names raw name → NameFrom o names props name

/-- The interpolation that `c` belongs to and the text-like nodes right after it. -/
def Context.textRun (c : Context) (frame : Frame) : List Node :=
  (frame.children.drop c.index).takeWhile (·.isTextLike)

/-- The contribution comes from a property of the element. -/
def FromProps (o : Options) (names : List String) (e : Element) (id : Nat) (props : List Property)
    (x : Contribution) : Prop :=
  (∃ d, .bound d ∈ props ∧ Contributes o names e id d x) ∨ Places o names e id props x

/-- A visit in `c`, where loops introduce `names`, leads to the last argument. Nodes inside are
visited by `visit`. -/
inductive Visits (o : Options) (names : List String) (visit : Transform Unit) (c : Context) :
    Context → Prop
  | absorbed :
      c.isAbsorbed = true → c.node.isAbsorbable = true →
      Visits o names visit c (c.flag { nonTemplate := true })
  | text {t : Template.TextNode} :
      c.node = .text t → c.isAbsorbed = false →
      Visits o names visit c (c.write (Text.escapeText t.data))
  | comment {data : String} {location : Location} :
      c.node = .comment data location → o.comments = true →
      Visits o names visit c (c.write ("<!--" ++ data ++ "-->"))
  | dropped {data : String} {location : Location} :
      c.node = .comment data location → o.comments = false →
      Visits o names visit c { c with removed := true }
  | interpolation {code : Template.Code} {frame : Frame} {values : List Expression} :
      c.node = .interpolation code → c.parent = some frame → c.isAbsorbed = false →
      List.Forall₂ (Shows o names) (c.textRun frame) values →
      Visits o names visit c
        (({ c with
            parent := some (frame.consumeUntil (c.index + (c.textRun frame).length))
          }.referenced.flag .inserted).add
          (.once (.createText c.ownId values !(values.all (·.isConstant)))))
  | condition {b : IfBlock} {test : Expression} {positive : Block} {negative : Alternative}
      {s s' : Session} :
      c.node = .ifBlock b → Processed o names (.ofCode b.test) test →
      MakesBlock visit (.fragment b.consequent) (c.flag .inserted).referenced.session positive s →
      MakesAlternative o visit (Template.alternateBranches b.alternate) s negative s' →
      Visits o names visit c
        (((c.flag .inserted).referenced.during s').add
          (.once (.branch c.ownId test positive negative)))
  | loop {b : EachBlock} {op : Operation} {s : Session} :
      c.node = .eachBlock b →
      MakesLoop o visit c.ownId b (c.flag .inserted).referenced.session op s →
      Visits o names visit c (((c.flag .inserted).referenced.during s).add (.once op))
  | outlet {e : Element} {props others : List Property} {name : Expression} {result : PropResult}
      {xs : List Contribution} {k : Context} {fallback : Option Block} {s : Session} :
      c.node = .element e → e.kind = .slotOutlet →
      Property.ofAttributes e.attributes = .ok props → others ⊆ props →
      NameFrom o names props name ∨ name = .static "default" e.location →
      OwnWork (c.referenced.flag .inserted) xs k → ContributionsFrom o names e c.ownId others xs →
      ResultFrom o names e others result →
      MakesOptional visit (outletContent? e) k.session fallback s →
      (∀ x ∈ xs, x.op.suits e.kind = true) → RegistersAll o names c.ownId props xs →
      Visits o names visit c
        (Context.add { k.during s with node := .element e.withoutChildren }
          (.once (.slotOutlet c.ownId name result.groups fallback)))
  | component {e : Element} {fs : List (String × Fragment)} {slots : List (String × Block)}
      {s s' : Session} {props : List Property} {result : PropResult} {xs : List Contribution}
      {k : Context} {tag : String} {asset : Bool} :
      c.node = .element e → e.kind = .component → slotsOf e = .ok fs →
      MakesSlots visit fs c.session slots s → Property.ofAttributes e.attributes = .ok props →
      s' = s ∨ s' = s.addComponent tag →
      OwnWork { c.during s' with slots, node := .element e.withoutChildren } xs k →
      ContributionsFrom o names e.withoutChildren (c.during s').ownId props xs →
      ResultFrom o names e.withoutChildren props result →
      (∀ x ∈ xs, x.op.suits e.kind = true) →
      (s' = if asset then s.addComponent tag else s) →
      RegistersAll o names (c.during s').ownId props xs →
      Visits o names visit c
        (Context.add { (k.flag .inserted).referenced with slots := [] }
          (.once (.createComponent (c.during s').ownId tag result.groups slots asset)))
  | native {e : Element} {c₁ c₂ k : Context} {props : List Property} {xs : List Contribution}
      {attributes : String} :
      c.node = .element e → e.kind = .regular → ContainerWork o names e c c₁ →
      VisitsChildren visit false (Frame.ofNode c.node c₁.consumedChildren) 0 e.children c₁ c₂ →
      Property.ofAttributes e.attributes = .ok props → OwnWork c₂.insertAll xs k →
      (∀ x ∈ xs, FromProps o names e c₂.insertAll.ownId props x) →
      FixedAttributes o names e props attributes →
      RegistersAll o names c₂.insertAll.ownId props xs →
      Visits o names visit c
        ((k.closed e).place e (openingTag o e attributes ++ k.content e))
  | fragment {f : Fragment} {c' : Context} :
      c.node = .fragment f →
      VisitsChildren visit true (Frame.ofNode c.node 0) 0 f.children c c' →
      Visits o names visit c c'

variable {o : Options} {names : List String} {visit : Transform Unit} {c c' : Context}

theorem FromProps.isOwn {e : Element} {id : Nat} {x : Contribution}
    (h : FromProps o names e id props x) : x.op.isOwn = true := by
  rcases h with ⟨d, -, hd⟩ | h
  · exact hd.isOwn
  · cases h <;> rfl

theorem ContributionsFrom.isOwn {e : Element} {id : Nat} {xs : List Contribution}
    (h : ContributionsFrom o names e id props xs) : ∀ x ∈ xs, x.op.isOwn = true := by
  intro x hx
  obtain ⟨d, -, hd⟩ := h x hx
  exact hd.isOwn

/-! ## Texts and comments -/

theorem createText_ok {code : Template.Code} {frame : Frame} (hb : c.session.Binds names)
    (hn : c.node = .interpolation code) (hframe : c.parent = some frame)
    (habsorbed : c.isAbsorbed = false) (h : createText o frame c = .ok () c') :
    Visits o names visit c c' := by
  simp only [createText, get_bind, modify_bind, getSession_bind, bind_eq_ok, ofExcept_eq_ok,
    reference_run, setFlags_run, registerOperation_run] at h
  obtain ⟨values, _, ⟨hvalues, rfl⟩, _, _, ⟨⟩, _, _, ⟨⟩, ⟨⟩⟩ := h
  refine .interpolation hn hframe habsorbed (textValues_ok hb ?_ hvalues)
  exact List.all_eq_true.mp List.all_takeWhile

theorem Context.Fresh.isAbsorbable (hc : c.Fresh) (h : c.isAbsorbed = true) :
    c.node.isAbsorbable = true := by
  cases hframe : c.parent with
  | none => simp [Context.isAbsorbed, hframe] at h
  | some frame =>
    obtain ⟨ns, hcovers⟩ := hc.frame frame hframe
    simp only [Context.isAbsorbed, hframe, Option.any_some, decide_eq_true_eq] at h
    refine hcovers.absorbed c.node ?_
    rw [show frame.consumedUntil - c.index = frame.consumedUntil - c.index - 1 + 1 by omega]
    simp

theorem Context.Fresh.isBlockRoot_eq (hc : c.Fresh) (hn : ∀ f, c.node ≠ .fragment f) :
    c.isBlockRoot = false := by
  cases hroot : c.isBlockRoot with
  | false => rfl
  | true =>
    obtain ⟨f, hf⟩ := hc.root (.inl hroot)
    exact absurd hf (hn f)

/-- The nodes that only the pass for texts concerns. -/
def Template.Node.isInline : Node → Bool
  | .text _ | .comment _ _ | .interpolation _ | .rawMarkup _ => true
  | _ => false

theorem transformText_ok (hc : c.Fresh) (hb : c.session.Binds names)
    (hn : c.node.isInline = true) (h : transformText o c = .ok () c') :
    Visits o names visit c c' := by
  rw [transformText, get_bind] at h
  cases habsorbed : c.parent.any (c.index < ·.consumedUntil) with
  | true =>
    rw [habsorbed] at h
    obtain ⟨-, rfl⟩ := EStateM.Result.ok.inj h
    exact .absorbed habsorbed (hc.isAbsorbable habsorbed)
  | false =>
    simp only [habsorbed, Bool.false_eq_true, ite_false] at h
    cases hnode : c.node with
    | text t =>
      simp only [hnode, appendTemplate_run] at h
      obtain ⟨-, rfl⟩ := EStateM.Result.ok.inj h
      exact .text hnode habsorbed
    | comment data location =>
      cases hcomments : o.comments <;> simp only [hnode, hcomments] at h <;>
        obtain ⟨-, rfl⟩ := EStateM.Result.ok.inj h
      · exact .dropped hnode hcomments
      · exact .comment hnode hcomments
    | interpolation code =>
      cases hframe : c.parent with
      | none =>
        obtain ⟨f, hf⟩ := hc.root (.inr hframe)
        simp [hf] at hnode
      | some frame =>
        simp only [hnode, hframe] at h
        exact createText_ok hb hnode hframe habsorbed h
    | rawMarkup code => simp [hnode] at h
    | _ => simp [hnode, Node.isInline] at hn

/-- A visit follows a rule if the one pass that the node belongs to does. -/
theorem visits_lone {p : Pass} {t : Transform Unit} (hpasses : o.passes = Pass.all)
    (hp : p.run o visit = do t; return []) (hc : c.Fresh) (hroot : ∀ f, c.node ≠ .fragment f)
    (hbelongs : c.BelongsTo p)
    (hstep : ∀ k, t c = .ok () k →
      Visits o names visit c k ∧ k.isBlockRoot = c.isBlockRoot ∧ k.BelongsTo p)
    (h : visitWith o visit c = .ok () c') : Visits o names visit c c' := by
  obtain ⟨before, after, hall⟩ := List.append_of_mem (show p ∈ Pass.all by cases p <;> decide)
  have hnodup : (before ++ p :: after).Nodup := hall ▸ (by decide : Pass.all.Nodup)
  exact (hstep c' (visitWith_lone_ok (hpasses.trans hall) (List.nodup_middle.mp hnodup).notMem hp
    hc.removed (hc.isBlockRoot_eq hroot) hbelongs (fun k hk => (hstep k hk).2) h)).1

/-! ## Nodes that belong to one pass -/

theorem Context.Fresh.isAbsorbed_eq (hc : c.Fresh) (hn : c.node.isAbsorbable = false) :
    c.isAbsorbed = false := by
  cases habsorbed : c.isAbsorbed with
  | false => rfl
  | true => simp [hc.isAbsorbable habsorbed] at hn

/-- A node that cannot be part of a text and that one pass concerns. -/
theorem Context.Fresh.belongsTo {p : Pass} (hc : c.Fresh) (hn : c.node.isAbsorbable = false)
    (h : ∀ q, q ≠ p → q.concerns c.node = false) : c.BelongsTo p where
  concerns := h
  absorbed := fun _ => hc.isAbsorbed_eq hn

theorem Session.Binds.referenced (hb : c.session.Binds names) :
    c.referenced.session.Binds names :=
  hb.congr fun name => by simp [Session.count]

theorem NameFrom.mono {props' : List Property} {x : Expression} (h : props ⊆ props')
    (hx : NameFrom o names props x) : NameFrom o names props' x := by
  cases hx with
  | fixed ha hname => exact .fixed (h ha) hname
  | bound hd hname harg hexp hx => exact .bound (h hd) hname harg hexp hx

/-- The name of an outlet comes from one of the properties, and the others are among them. -/
theorem outletName_ok {others : List Property} {name : Option Expression}
    (hb : c.session.Binds names) (h : outletName o props c = .ok (name, others) c') :
    others ⊆ props ∧ (∀ x, name = some x → NameFrom o names props x) ∧
      others.filterMap (·.action? o) = props.filterMap (·.action? o) ∧ c = c' := by
  induction props generalizing name others c' with
  | nil =>
    obtain ⟨hpair, rfl⟩ := EStateM.Result.ok.inj h
    obtain ⟨rfl, rfl⟩ := Prod.mk.inj hpair
    simp
  | cons p ps ih =>
    have hmono : ∀ {x}, NameFrom o names ps x → NameFrom o names (p :: ps) x :=
      fun hx => hx.mono (List.subset_cons_self p ps)
    have hor : ∀ {later own : Option Expression},
        (∀ x, later = some x → NameFrom o names ps x) →
        (∀ x, own = some x → NameFrom o names (p :: ps) x) →
        ∀ x, (later <|> own) = some x → NameFrom o names (p :: ps) x := by
      intro later own hlater hown x hx
      cases later with
      | none => exact hown x (by simpa using hx)
      | some y => exact hmono (hlater x (by simpa using hx))
    cases p with
    | fixed a =>
      simp only [outletName, bind_eq_ok, Prod.exists] at h
      obtain ⟨later, rest, c₁, hrun, h⟩ := h
      obtain ⟨hrest, hlater, hsame, rfl⟩ := ih hrun
      by_cases hname : a.name = "name"
      · simp only [hname, beq_self_eq_true, ite_true, pure_run] at h
        cases h
        refine ⟨List.subset_cons_of_subset _ hrest, hor hlater ?_, hsame, rfl⟩
        rintro x ⟨⟩
        exact .fixed (by simp) hname
      · simp only [beq_eq_false_iff_ne.mpr hname, Bool.false_eq_true, ite_false, pure_run] at h
        cases h
        exact ⟨List.cons_subset_cons _ hrest, fun x hx => hmono (hlater x hx),
          by simp [List.filterMap_cons, hsame], rfl⟩
    | bound d =>
      unfold outletName at h
      split at h
      · rename_i hd
        simp only [Bool.and_eq_true, beq_iff_eq] at hd
        simp only [bind_eq_ok, Prod.exists, pure_run] at h
        obtain ⟨own, _, hown, later, rest, c₁, hrun, ⟨⟩⟩ := h
        obtain ⟨hprocessed, rfl⟩ := mapM_qualify_processed hb hown
        obtain ⟨hrest, hlater, hsame, rfl⟩ := ih hrun
        refine ⟨List.subset_cons_of_subset _ hrest, hor hlater ?_, ?_, rfl⟩
        · rintro x rfl
          cases hexp : d.exp with
          | none => simp [ProcessedOption, hexp] at hprocessed
          | some raw =>
            rw [hexp] at hprocessed
            exact .bound (by simp) hd.1 hd.2 hexp hprocessed
        · rw [List.filterMap_cons_none (by simp [Property.action?, d.isAction_of_name .bind hd.1])]
          exact hsame
      · simp only [bind_eq_ok, Prod.exists, pure_run] at h
        obtain ⟨later, rest, c₁, hrun, ⟨⟩⟩ := h
        obtain ⟨hrest, hlater, hsame, rfl⟩ := ih hrun
        exact ⟨List.cons_subset_cons _ hrest, fun x hx => hmono (hlater x hx),
          by simp [List.filterMap_cons, hsame], rfl⟩

section

variable (hpasses : o.passes = Pass.all) (hc : c.Fresh) (hb : c.session.Binds names)
  (h : visitWith o visit c = .ok () c')

include hpasses hc hb h

theorem visits_inline (hn : c.node.isInline = true) : Visits o names visit c c' := by
  have hbelongs : ∀ k : Context, k.node.isInline = true → k.BelongsTo .texts := by
    intro k hk
    refine ⟨fun q hq => ?_, by simp⟩
    cases hnode : k.node <;> cases q <;> simp_all [Node.isInline, Pass.concerns]
  have hroot : ∀ f, c.node ≠ .fragment f := fun f hf => by simp [hf, Node.isInline] at hn
  refine visits_lone hpasses rfl hc hroot (hbelongs c hn) ?_ h
  intro k hk
  have hvisits : Visits o names visit c k := transformText_ok hc hb hn hk
  have hsame : k.node = c.node ∧ k.isBlockRoot = c.isBlockRoot := by
    cases hvisits with
    | condition hnode | loop hnode | outlet hnode | component hnode | native hnode
    | fragment hnode => simp [hnode, Node.isInline] at hn
    | _ => exact ⟨rfl, rfl⟩
  exact ⟨hvisits, hsame.2, hbelongs k (hsame.1 ▸ hn)⟩

theorem visits_condition {b : IfBlock} (hn : c.node = .ifBlock b) : Visits o names visit c c' := by
  have hbelongs : c.BelongsTo .conditions :=
    hc.belongsTo (by simp [hn, Node.isAbsorbable]) fun q hq => by
      cases q <;> simp_all [Pass.concerns]
  refine visits_lone hpasses rfl hc (by simp [hn]) hbelongs ?_ h
  intro k hk
  simp only [transformCondition, get_bind, hn, bind_eq_ok, setFlags_run, reference_run,
    createBlock_eq_ok, registerOperation_run] at hk
  obtain ⟨_, _, ⟨⟩, _, _, ⟨⟩, test, _, hrun, positive, _, ⟨s, hpositive, rfl⟩, negative, _, hrest,
    ⟨⟩⟩ := hk
  have hbinds : (c.flag .inserted).session.Binds names := hb
  obtain ⟨htest, rfl⟩ := qualify_processed hbinds.referenced hrun
  obtain ⟨s', hnegative, rfl⟩ := createAlternative_ok hrest
  exact ⟨.condition hn htest hpositive hnegative, rfl, hbelongs.concerns, hbelongs.absorbed⟩

omit hb in
theorem visits_loop {b : EachBlock} (hn : c.node = .eachBlock b) : Visits o names visit c c' := by
  have hbelongs : c.BelongsTo .loops :=
    hc.belongsTo (by simp [hn, Node.isAbsorbable]) fun q hq => by
      cases q <;> simp_all [Pass.concerns]
  refine visits_lone hpasses rfl hc (by simp [hn]) hbelongs ?_ h
  intro k hk
  simp only [transformLoop, get_bind, hn, bind_eq_ok, setFlags_run, reference_run,
    registerOperation_run] at hk
  obtain ⟨_, _, ⟨⟩, _, _, ⟨⟩, op, _, hrun, ⟨⟩⟩ := hk
  obtain ⟨s, hloop, rfl⟩ := createLoop_ok hrun
  exact ⟨.loop hn hloop, rfl, hbelongs.concerns, hbelongs.absorbed⟩

theorem visits_outlet {e : Element} (hn : c.node = .element e) (hkind : e.kind = .slotOutlet) :
    Visits o names visit c c' := by
  have hbelongs : c.BelongsTo .slotOutlets :=
    hc.belongsTo (by simp [hn, Node.isAbsorbable]) fun q hq => by
      cases q <;> simp_all [Pass.concerns]
  refine visits_lone hpasses rfl hc (by simp [hn]) hbelongs ?_ h
  intro k hk
  simp only [transformSlotOutlet, get_bind, hn, hkind, beq_self_eq_true, ite_true, bind_eq_ok,
    setFlags_run, reference_run, ofExcept_eq_ok, Prod.exists] at hk
  obtain ⟨_, _, ⟨⟩, _, _, ⟨⟩, props, _, ⟨hprops, rfl⟩, name, others, _, hname, result, k₁, hbuild,
    hk⟩ := hk
  have hbinds : (c.referenced.flag .inserted).session.Binds names := hb.referenced
  obtain ⟨hothers, hfrom, hsame, rfl⟩ := outletName_ok hbinds hname
  obtain ⟨xs, hwork, hxs, hsuits, hresult, hactions⟩ := buildProps_ok (fun _ hp _ => hp) hbinds hbuild
  rw [RegistersAll, hsame] at hactions
  have hid : (c.referenced.flag .inserted).ownId = c.ownId := c.referenced_ownId
  obtain ⟨fallback, s, hfallback, rfl⟩ : ∃ fallback s,
      MakesOptional visit (outletContent? e) k₁.session fallback s ∧
      k = Context.add { k₁.during s with node := .element e.withoutChildren }
        (.once (.slotOutlet c.ownId (name.getD (.static "default" e.location)) result.groups
          fallback)) := by
    unfold outletContent?
    cases hblank : e.children.all (·.isBlankText) with
    | true =>
      simp only [hblank, ite_true, pure_bind] at hk
      obtain ⟨-, rfl⟩ := EStateM.Result.ok.inj hk
      exact ⟨none, k₁.session, .none _, rfl⟩
    | false =>
      simp only [hblank, Bool.false_eq_true, ite_false, map_eq_pure_bind, bind_assoc, bind_eq_ok,
        createBlock_eq_ok, pure_run, replaceNode_run, registerOperation_run] at hk
      obtain ⟨_, _, ⟨s, hblock, rfl⟩, _, _, ⟨⟩, _, _, ⟨⟩, ⟨⟩⟩ := hk
      exact ⟨_, s, .some hblock, rfl⟩
  refine ⟨.outlet hn hkind hprops hothers ?_ hwork (hid ▸ hxs) hresult hfallback hsuits
    (hid ▸ hactions), ?_, ?_, ?_⟩
  · cases name with
    | none => exact .inr rfl
    | some x => exact .inl (hfrom x rfl)
  · cases hwork <;> rfl
  · intro q hq
    cases q <;> simp_all [Pass.concerns, Context.add, Element.withoutChildren]
  · cases hwork <;> exact hbelongs.absorbed

end

/-! ## Components -/

theorem finishComponent_ok {e : Element} (hb : c.session.Binds names)
    (h : finishComponent o e props c = .ok () c') :
    ∃ tag asset s' result xs k, (s' = if asset then c.session.addComponent tag else c.session) ∧
      OwnWork (c.during s') xs k ∧ ContributionsFrom o names e (c.during s').ownId props xs ∧
      ResultFrom o names e props result ∧ (∀ x ∈ xs, x.op.suits e.kind = true) ∧
      RegistersAll o names (c.during s').ownId props xs ∧
      c' = Context.add { (k.flag .inserted).referenced with slots := [] }
        (.once (.createComponent (c.during s').ownId tag result.groups c.slots asset)) := by
  simp only [finishComponent, getSession_bind] at h
  generalize resolveComponent o c.session e.name = resolved at h
  obtain ⟨tag, asset⟩ := resolved
  obtain ⟨s', hs', hbuild⟩ : ∃ s', (s' = if asset then c.session.addComponent tag else c.session) ∧
      (do
        let result ← buildProps o e props true
        setFlags .inserted
        let id ← reference
        let slots := (← get).slots
        modify fun ctx => { ctx with slots := [] }
        registerOperation (.createComponent id tag result.groups slots asset) : Transform Unit)
        (c.during s') = .ok () c' := by
    cases asset with
    | true => exact ⟨_, rfl, h⟩
    | false => exact ⟨_, rfl, h⟩
  simp only [bind_eq_ok, setFlags_run, reference_run, get_bind, modify_run, registerOperation_run]
    at hbuild
  obtain ⟨result, k, hrun, _, _, ⟨⟩, _, _, ⟨⟩, _, _, ⟨⟩, ⟨⟩⟩ := hbuild
  have hbinds : (c.during s').session.Binds names := by
    rw [hs']
    split <;> exact hb
  obtain ⟨xs, hwork, hxs, hsuits, hresult, hactions⟩ := buildProps_ok (fun _ hp _ => hp) hbinds hrun
  have hid : (k.flag .inserted).ownId = (c.during s').ownId := hwork.ownId
  have hslots : (k.flag .inserted).referenced.slots = c.slots := hwork.samePlace.slots
  exact ⟨tag, asset, s', result, xs, k, hs', hwork, hxs, hresult, hsuits, hactions,
    by rw [hid, hslots]⟩

theorem finishVisit_element_ok {e : Element} (hn : c.node = .element e)
    (h : finishVisit o [.element] c = .ok () c') :
    ∃ props k, Property.ofAttributes e.attributes = .ok props ∧
      (if e.isComponent then finishComponent o e props else finishNative o e props) c = .ok () k ∧
      c' = if k.isBlockRoot then k.registered else k := by
  obtain ⟨k, hk, rfl⟩ := finishVisit_ok h
  change (finishElement o >>= fun _ => pure ()) c = _ at hk
  rw [bind_pure_unit, finishElement, get_bind, hn] at hk
  simp only [Node.element?, bind_eq_ok, ofExcept_eq_ok] at hk
  obtain ⟨props, _, ⟨hprops, rfl⟩, hk⟩ := hk
  exact ⟨props, k, hprops, hk, rfl⟩

theorem visits_component {e : Element} (hpasses : o.passes = Pass.all) (hvisit : Disciplined visit)
    (hc : c.Fresh) (hb : c.session.Binds names) (hn : c.node = .element e)
    (hkind : e.kind = .component) (h : visitWith o visit c = .ok () c') :
    Visits o names visit c c' := by
  have hsplit : o.passes = Pass.all.take 4 ++ [.elements, .componentSlots, .children] := hpasses
  have hbefore : c.IsDone (Pass.all.take 4) :=
    ⟨by simp [Pass.all, Pass.concerns, hn, hkind],
      fun _ => hc.isAbsorbed_eq (by simp [hn, Node.isAbsorbable]), hc.removed⟩
  obtain ⟨exits, k, hrun, hexits⟩ := visitWith_ok hsplit hbefore h
  obtain ⟨rest, hrest, rfl⟩ := runPasses_elements hn (.inr hkind) hc.removed hrun
  have hslots : ∀ k₁, transformComponentSlots visit c = .ok () k₁ →
      ∃ fs slots s, slotsOf e = .ok fs ∧ MakesSlots visit fs c.session slots s ∧
        k₁ = { c.during s with slots, node := .element e.withoutChildren } := by
    intro k₁ hk₁
    simp only [transformComponentSlots, get_bind, hn, hkind, beq_self_eq_true, ite_true,
      bind_eq_ok, ofExcept_eq_ok, modify_run, replaceNode_run] at hk₁
    obtain ⟨fs, _, ⟨hfs, rfl⟩, slots, _, hmake, _, _, ⟨⟩, ⟨⟩⟩ := hk₁
    obtain ⟨s, hslots, rfl⟩ := createSlots_ok hmake
    exact ⟨fs, slots, s, hfs, hslots, rfl⟩
  obtain ⟨k₁, hk₁, hrest⟩ := runPasses_step rfl (fun k₁ hk₁ => by
    obtain ⟨_, _, _, -, -, rfl⟩ := hslots k₁ hk₁
    exact hc.removed) hrest
  obtain ⟨fs, slots, s, hfs, hmake, rfl⟩ := hslots k₁ hk₁
  have hafter : Context.IsDone { c.during s with slots, node := .element e.withoutChildren }
      [.children] :=
    ⟨by simp [Pass.concerns, Element.withoutChildren, hkind], by simp, hc.removed⟩
  obtain ⟨rfl, rfl⟩ := EStateM.Result.ok.inj (hafter.runPasses_eq.symm.trans hrest)
  rcases hexits with ⟨hnone, -⟩ | ⟨es, hes, hfinish⟩
  · simp at hnone
  · obtain rfl : [.element] = es := by simpa using hes
    obtain ⟨props, k, hprops, hk, rfl⟩ := finishVisit_element_ok rfl hfinish
    have hcomponent : e.withoutChildren.isComponent = true := by
      simp [Element.isComponent, Element.withoutChildren, hkind]
    rw [if_pos hcomponent] at hk
    have hbinds : s.Binds names := hb.congr (hmake.makes.count_eq hvisit)
    obtain ⟨tag, asset, s', result, xs, k', hs', hwork, hxs, hresult, hsuits, hactions, hk'⟩ :=
      finishComponent_ok hbinds hk
    have hroot : k.isBlockRoot = false := by
      rw [hk']
      exact hwork.samePlace.isBlockRoot.trans (hc.isBlockRoot_eq (by simp [hn]))
    have hadded : s' = s ∨ s' = s.addComponent tag := by
      cases asset with
      | true => exact .inr hs'
      | false => exact .inl hs'
    rw [hroot, hk']
    exact .component hn hkind hfs hmake hprops hadded hwork hxs hresult hsuits hs' hactions

/-! ## Elements and fragments -/

theorem Frame.covers_ofNode (n : Node) (consumed : Nat)
    (h : ∀ m ∈ n.children.take consumed, m.isAbsorbable = true) :
    (Frame.ofNode n consumed).Covers 0 n.children :=
  ⟨rfl, h⟩

namespace ContainerWork

variable {e : Element} {c₁ : Context}

theorem absorbed (h : ContainerWork o names e c c₁) (hc : c.consumedChildren = 0) :
    ∀ m ∈ e.children.take c₁.consumedChildren, m.isAbsorbable = true := by
  have hlike : ∀ m : Node, m.isTextLike = true → m.isAbsorbable = true := by
    intro m hm
    cases m <;> simp_all [Node.isTextLike, Node.isAbsorbable]
  cases h with
  | idle => simp [hc]
  | markup he _ => simp [he, Context.add, Node.isAbsorbable]
  | literal he _ _ => exact fun m hm => hlike m (he.1 m (List.mem_of_mem_take hm))
  | text he _ => exact fun m hm => hlike m (he.1 m (List.mem_of_mem_take hm))

theorem place_eq (h : ContainerWork o names e c c₁) :
    c₁.node = c.node ∧ c₁.removed = c.removed ∧ c₁.isBlockRoot = c.isBlockRoot := by
  cases h <;> exact ⟨rfl, rfl, rfl⟩

theorem count_eq (h : ContainerWork o names e c c₁) (name : String) :
    c₁.session.count name = c.session.count name := by
  cases h <;> simp [Session.count, Context.add]

end ContainerWork

theorem Context.insertAll_identifiers (c : Context) :
    c.insertAll.session.identifiers = c.session.identifiers :=
  insertAll_eq (·.session.identifiers) c (fun _ _ => rfl) (by simp) fun _ _ => rfl

/-- A visit of a fragment, whether it succeeds or not, is no more than the walk. -/
theorem visitWith_fragment (hpasses : o.passes = Pass.all) {f : Fragment} (hc : c.Fresh)
    (hn : c.node = .fragment f) :
    visitWith o visit c = visitChildren visit true (Frame.ofNode c.node 0) 0 f.children c := by
  have hsplit : o.passes = Pass.all.take 6 ++ [.children] := hpasses
  have hbefore : c.IsDone (Pass.all.take 6) :=
    ⟨by simp [Pass.all, Pass.concerns, hn],
      fun _ => hc.isAbsorbed_eq (by simp [hn, Node.isAbsorbable]), hc.removed⟩
  have hchildren : Pass.children.run o visit c =
      (visitChildren visit true (Frame.ofNode c.node 0) 0 f.children >>= fun _ => pure []) c := by
    rw [Pass.run]
    change EStateM.bind _ _ c = EStateM.bind _ _ c
    simp only [EStateM.bind, transformChildren, get_bind, hn, hc.consumedChildren]
  rw [visitWith]
  cases hwalk : visitChildren visit true (Frame.ofNode c.node 0) 0 f.children c with
  | error d k =>
    have hrun : runPasses o visit o.passes c = .error d k := by
      rw [hsplit, hbefore.runPasses_append, runPasses]
      exact bind_error (hchildren.trans (bind_error hwalk _)) _
    exact bind_error hrun _
  | ok u k =>
    have hsame := visitChildren_samePlace hwalk
    have hremoved : k.removed = false := hsame.removed.trans hc.removed
    have hrun : runPasses o visit o.passes c = .ok (some []) k := by
      rw [hsplit, hbefore.runPasses_append]
      exact runPasses_cons_run (hchildren.trans (bind_run hwalk _)) hremoved (runPasses_nil_run k)
    -- A fragment has no markup of its own, so there is nothing to register.
    have hregistered : k.registered = k := by
      simp [Context.registered, hsame.template, hc.template]
    obtain ⟨i, hi⟩ := @registerTemplate_run k
    rw [bind_run hrun]
    change (do
      if (← get).isBlockRoot then
        let _ ← registerTemplate : Transform Unit) k = _
    rw [get_bind]
    split
    · rw [bind_run hi, hregistered, pure_run]
    · rfl

section

variable (hpasses : o.passes = Pass.all) (hvisit : Disciplined visit) (hc : c.Fresh)

include hpasses hvisit hc

theorem visits_native {e : Element} (hb : c.session.Binds names) (hn : c.node = .element e)
    (hkind : e.kind = .regular) (h : visitWith o visit c = .ok () c') :
    Visits o names visit c c' := by
  have hsplit : o.passes = Pass.all.take 3 ++ [.texts, .elements, .componentSlots, .children] :=
    hpasses
  have habsorbed := hc.isAbsorbed_eq (by simp [hn, Node.isAbsorbable])
  have hbefore : c.IsDone (Pass.all.take 3) :=
    ⟨by simp [Pass.all, Pass.concerns, hn, hkind], fun _ => habsorbed, hc.removed⟩
  obtain ⟨exits, k, hrun, hexits⟩ := visitWith_ok hsplit hbefore h
  have htexts : ∀ c₁, transformText o c = .ok () c₁ → ContainerWork o names e c c₁ := by
    intro c₁ hc₁
    rw [Context.isAbsorbed] at habsorbed
    simp only [transformText, get_bind, habsorbed, Bool.false_eq_true, ite_false, hn, hkind,
      beq_self_eq_true, ite_true] at hc₁
    exact transformContainer_ok hb hc₁
  obtain ⟨c₁, hc₁, hrun⟩ := runPasses_step rfl
    (fun c₁ hc₁ => (htexts c₁ hc₁).place_eq.2.1.trans hc.removed) hrun
  have hcontainer := htexts c₁ hc₁
  obtain ⟨hnode, hremoved, hroot⟩ := hcontainer.place_eq
  rw [hn] at hnode
  rw [hc.removed] at hremoved
  obtain ⟨rest, hrest, rfl⟩ := runPasses_elements hnode (.inl hkind) hremoved hrun
  have hslots : c₁.IsDone [.componentSlots] :=
    ⟨by simp [Pass.concerns, hnode, hkind], by simp, hremoved⟩
  have hlast : runPasses o visit [.children] c₁ = .ok rest k :=
    hslots.runPasses_append.symm.trans hrest
  have hchildren : ∀ k, transformChildren visit c₁ = .ok () k → ∃ c₂,
      VisitsChildren visit false (Frame.ofNode c.node c₁.consumedChildren) 0 e.children c₁ c₂ ∧
        k = c₂.insertAll := by
    intro k hk
    simp only [transformChildren, get_bind, hnode, hkind, beq_self_eq_true, ite_true,
      bind_eq_ok] at hk
    obtain ⟨⟨⟩, c₂, hwalk, hinsert⟩ := hk
    obtain ⟨-, rfl⟩ := EStateM.Result.ok.inj (insertChildren_run.symm.trans hinsert)
    refine ⟨c₂, ?_, rfl⟩
    rw [hn]
    exact visitChildren_ok hvisit
      (Frame.covers_ofNode (.element e) _ (hcontainer.absorbed hc.consumedChildren)) hwalk
  have hkeeps : ∀ k, transformChildren visit c₁ = .ok () k → k.removed = false := by
    intro k hk
    obtain ⟨c₂, hwalk, rfl⟩ := hchildren k hk
    exact c₂.insertAll_samePlace.removed.trans (hwalk.samePlace.removed.trans hremoved)
  obtain ⟨k₁, hk₁, hend⟩ := runPasses_step rfl hkeeps hlast
  obtain ⟨rfl, rfl⟩ := EStateM.Result.ok.inj hend
  obtain ⟨c₂, hwalk, rfl⟩ := hchildren k₁ hk₁
  have hplace := hwalk.samePlace.trans c₂.insertAll_samePlace
  rcases hexits with ⟨hnone, -⟩ | ⟨es, hes, hfinish⟩
  · simp at hnone
  · obtain rfl : [.element] = es := by simpa using hes
    obtain ⟨props, k, hprops, hk, rfl⟩ := finishVisit_element_ok (hplace.node.trans hnode) hfinish
    have hcomponent : ¬ e.isComponent = true := by simp [Element.isComponent, hkind]
    rw [if_neg hcomponent] at hk
    have hbinds : c₂.insertAll.session.Binds names := hb.congr fun name => by
      rw [Session.count, c₂.insertAll_identifiers]
      exact (hwalk.count_eq hvisit name).trans (hcontainer.count_eq name)
    obtain ⟨xs, k', attributes, hwork, hxs, hattributes, hactions, hk'⟩ := finishNative_ok hbinds hk
    have hisRoot : k.isBlockRoot = false := by
      rw [hk', Context.place_isBlockRoot, Context.closed_isBlockRoot, hwork.samePlace.isBlockRoot,
        hplace.isBlockRoot, hroot, hc.isBlockRoot_eq (by simp [hn])]
    rw [hisRoot, hk']
    exact .native hn hkind hcontainer hwalk hprops hwork hxs hattributes hactions

theorem visits_fragment {f : Fragment} (hn : c.node = .fragment f)
    (h : visitWith o visit c = .ok () c') : Visits o names visit c c' := by
  rw [visitWith_fragment hpasses hc hn] at h
  refine .fragment hn ?_
  rw [hn] at h ⊢
  exact visitChildren_ok hvisit (Frame.covers_ofNode (.fragment f) 0 (by simp)) h

/-- Every successful visit follows the rule for its kind of node. -/
theorem visits_of_ok (hb : c.session.Binds names) (h : visitWith o visit c = .ok () c') :
    Visits o names visit c c' := by
  have hconditions : ∀ d, transformCondition o visit c ≠ .error d c := by
    intro d herror
    have hsplit : o.passes = [] ++ .conditions :: Pass.all.drop 1 := hpasses
    exact not_visitWith_ok hsplit ⟨by simp, by simp, hc.removed⟩ (bind_error herror _) h
  cases hn : c.node with
  | fragment f => exact visits_fragment hpasses hvisit hc hn h
  | element e =>
    cases hkind : e.kind with
    | regular => exact visits_native hpasses hvisit hc hb hn hkind h
    | component => exact visits_component hpasses hvisit hc hb hn hkind h
    | slotOutlet => exact visits_outlet hpasses hc hb h hn hkind
    | special =>
      have hsplit : o.passes = Pass.all.take 4 ++ .elements :: Pass.all.drop 5 := hpasses
      have hbefore : c.IsDone (Pass.all.take 4) :=
        ⟨by simp [Pass.all, Pass.concerns, hn, hkind],
          fun _ => hc.isAbsorbed_eq (by simp [hn, Node.isAbsorbable]), hc.removed⟩
      have herror : Pass.elements.run o visit c =
          .error (.notImplemented ("<" ++ e.name ++ ">") e.location) c := by
        simp [Pass.run, transformElement, hn, hkind]
      exact absurd h (not_visitWith_ok hsplit hbefore herror)
  | text t => exact visits_inline hpasses hc hb h (by simp [hn, Node.isInline])
  | comment data location => exact visits_inline hpasses hc hb h (by simp [hn, Node.isInline])
  | interpolation code => exact visits_inline hpasses hc hb h (by simp [hn, Node.isInline])
  | rawMarkup code => exact visits_inline hpasses hc hb h (by simp [hn, Node.isInline])
  | ifBlock b => exact visits_condition hpasses hc hb h hn
  | eachBlock b => exact visits_loop hpasses hc h hn
  | awaitBlock _ _ | keyBlock _ _ _ | constTag _ | debugTag _ _ =>
    exact absurd (by rw [transformCondition, get_bind, hn]; rfl) (hconditions _)

end

end TemplateCompiler
