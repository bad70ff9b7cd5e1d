import TemplateCompiler.Proofs.Markup.Reading
import TemplateCompiler.Proofs.Props.Built
import TemplateCompiler.Transform.Text

/-! # Work on elements

The content that an element sets as a whole, the properties it places, and its markup.
-/

namespace TemplateCompiler

open Template (Element Node)
open Transform

variable {o : Options} {names : List String} {e : Element} {props : List Property}
  {c c' : Context}

/-! ## Texts -/

/-- A text or an interpolation shows the value. -/
inductive Shows (o : Options) (names : List String) : Node → Expression → Prop
  | text (t : Template.TextNode) : Shows o names (.text t) (.static t.data t.location)
  | interpolation {code : Template.Code} {value : Expression} :
      Processed o names (.ofCode code) value → Shows o names (.interpolation code) value

theorem textValues_ok {s : Session} {ns : List Node} {values : List Expression}
    (hs : s.Binds names) (hns : ∀ n ∈ ns, n.isTextLike = true)
    (h : textValues o s ns = .ok values) : List.Forall₂ (Shows o names) ns values := by
  induction ns generalizing values with
  | nil =>
    cases h
    exact .nil
  | cons n ns ih =>
    have hrest := fun m hm => hns m (List.mem_cons_of_mem n hm)
    cases n with
    | text t =>
      cases hv : textValues o s ns with
      | error d => simp [textValues, hv, bind, Except.bind] at h
      | ok vs =>
        simp only [textValues, hv, bind, Except.bind, pure, Except.pure,
          Except.ok.injEq] at h
        subst h
        exact .cons (.text t) (ih hrest hv)
    | interpolation code =>
      cases hq : (Expression.ofCode code).qualified o s with
      | error d => simp [textValues, hq, bind, Except.bind] at h
      | ok value =>
        cases hv : textValues o s ns with
        | error d => simp [textValues, hq, hv, bind, Except.bind] at h
        | ok vs =>
          simp only [textValues, hq, hv, bind, Except.bind, pure, Except.pure,
            Except.ok.injEq] at h
          subst h
          exact .cons (.interpolation (processed_of_qualified hs hq)) (ih hrest hv)
    | _ =>
      have hlike := hns _ (List.mem_cons_self ..)
      simp [Node.isTextLike] at hlike

/-- An element that holds nothing but text and interpolations. -/
def IsTextContainer (e : Element) : Prop :=
  (∀ n ∈ e.children, n.isTextLike = true) ∧ e.children.any (·.isInterpolation) = true

/-- What an element does about its content as a whole, before its children are visited. -/
inductive ContainerWork (o : Options) (names : List String) (e : Element) (c : Context) :
    Context → Prop
  | idle : ¬IsTextContainer e → ContainerWork o names e c c
  | markup {code : Template.Code} {value : Expression} :
      e.children = [.rawMarkup code] → Processed o names (.ofCode code) value →
      ContainerWork o names e c
        (Context.add { c.referenced with consumedChildren := 1 }
          (.whenever [value] (.setHtml c.ownId value)))
  | literal {values : List Expression} {texts : List String} :
      IsTextContainer e → List.Forall₂ (Shows o names) e.children values →
      literalMarkup? values = some texts →
      ContainerWork o names e c
        { c with consumedChildren := e.children.length, childrenTemplate := texts }
  | text {values : List Expression} :
      IsTextContainer e → List.Forall₂ (Shows o names) e.children values →
      literalMarkup? values = none →
      ContainerWork o names e c
        (Context.add { c.referenced with consumedChildren := e.children.length }
          (.whenever values (.setText c.ownId values)))

theorem setText_ok (hc : c.session.Binds names)
    (he : IsTextContainer e) (h : setText o e.children c = .ok () c') :
    ContainerWork o names e c c' := by
  simp only [setText, getSession_bind, bind_eq_ok, ofExcept_eq_ok, modify_bind] at h
  obtain ⟨values, _, ⟨hvalues, rfl⟩, h⟩ := h
  have hshows := textValues_ok hc he.1 hvalues
  cases hliteral : literalMarkup? values with
  | some texts =>
    simp only [hliteral] at h
    obtain ⟨-, rfl⟩ := EStateM.Result.ok.inj h
    exact .literal he hshows hliteral
  | none =>
    simp only [hliteral, bind_run reference_run, registerEffect_run] at h
    obtain ⟨-, rfl⟩ := EStateM.Result.ok.inj h
    exact .text he hshows hliteral

theorem setMarkup_ok {code : Template.Code} (hc : c.session.Binds names)
    (he : e.children = [.rawMarkup code]) (h : setMarkup o code c = .ok () c') :
    ContainerWork o names e c c' := by
  simp only [setMarkup, bind_eq_ok] at h
  obtain ⟨value, _, hrun, _, _, href, h⟩ := h
  obtain ⟨hvalue, rfl⟩ := qualify_processed hc hrun
  obtain ⟨rfl, rfl⟩ := EStateM.Result.ok.inj (reference_run.symm.trans href)
  simp only [modify_run, registerEffect_run] at h
  obtain ⟨_, _, ⟨⟩, ⟨⟩⟩ := h
  exact .markup he hvalue

theorem transformContainer_ok (hc : c.session.Binds names)
    (h : transformContainer o e c = .ok () c') : ContainerWork o names e c c' := by
  generalize ht : transformContainer o e = t at h
  unfold transformContainer at ht
  split at ht
  · rename_i code he
    exact setMarkup_ok hc he (ht ▸ h)
  · split at ht
    · rename_i htext
      simp only [Bool.and_eq_true, List.all_eq_true] at htext
      exact setText_ok hc htext (ht ▸ h)
    · rename_i htext
      simp only [Bool.and_eq_true, List.all_eq_true] at htext
      subst ht
      obtain ⟨-, rfl⟩ := EStateM.Result.ok.inj h
      exact .idle htext

/-! ## Properties -/

/-- The contribution sets properties of the element. -/
inductive Places (o : Options) (names : List String) (e : Element) (id : Nat)
    (props : List Property) : Contribution → Prop
  | prop {p : MergedProp} :
      PropFrom o names e props p → Places o names e id props (.whenever p.values (.setProp id p))
  | groups {groups : List PropGroup} {es : List Expression} :
      (∀ g ∈ groups, GroupFrom o names e props g) →
      (∀ x ∈ es, ExpressionFrom o names e props x) →
      Places o names e id props (.whenever es (.setDynamicProps id groups))

/-- The text is that of attributes, each of them a property that never changes. -/
def FixedAttributes (o : Options) (names : List String) (e : Element) (props : List Property)
    (text : String) : Prop :=
  ∃ pairs, text = Markup.writeAttributes pairs ∧
    ∀ a ∈ pairs, ∃ p, PropFrom o names e props p ∧ p.staticText? = some a

namespace PropResult

/-- The properties that are part of the opening tag. -/
def tagText : PropResult → String
  | fixed props => Markup.writeAttributes (props.filterMap (·.staticText?))
  | dynamic _ _ => ""

/-- What the other properties come to, on the element with the given id. -/
def settings (id : Nat) : PropResult → List Contribution
  | fixed props =>
    (props.filter (·.staticText?.isNone)).map fun p => .whenever p.values (.setProp id p)
  | dynamic groups expressions => [.whenever expressions (.setDynamicProps id groups)]

end PropResult

/-- The context whose block has received contributions. With any, the node has an id. -/
def Context.receive (c : Context) : List Contribution → Context
  | [] => c
  | xs => xs.foldl Context.add c.referenced

theorem Context.receive_cons (c : Context) (x : Contribution) (xs : List Contribution) :
    c.receive (x :: xs) = (c.referenced.add x).receive xs := by
  have hid : (c.referenced.add x).dynamic.id = some c.ownId := c.referenced_id
  cases xs with
  | nil => rfl
  | cons y ys =>
    change _ = (y :: ys).foldl add (c.referenced.add x).referenced
    rw [referenced_of_some hid]
    rfl

theorem placeProps_run (r : PropResult) (c : Context) :
    placeProps r c = .ok r.tagText (c.receive (r.settings c.ownId)) := by
  cases r with
  | dynamic groups expressions =>
    rw [placeProps, bind_run reference_run]
    rfl
  | fixed props =>
    have hall : ∀ (props : List MergedProp) (c : Context), ∃ texts,
        props.mapM placeProp c =
          .ok texts (c.receive ((PropResult.fixed props).settings c.ownId)) ∧
        String.join texts = (PropResult.fixed props).tagText := by
      intro props
      induction props with
      | nil => exact fun c => ⟨[], rfl, rfl⟩
      | cons p props ih =>
        intro c
        cases hp : p.staticText? with
        | some pair =>
          obtain ⟨texts, hrun, htexts⟩ := ih c
          have hplace : placeProp p c = .ok (attributeMarkup pair.1 pair.2) c := by
            simp [placeProp, hp]
          refine ⟨attributeMarkup pair.1 pair.2 :: texts, ?_, ?_⟩
          · rw [List.mapM_cons, bind_run hplace, bind_run hrun]
            simp [PropResult.settings, hp]
          · simp [String.join_cons, htexts, PropResult.tagText, Markup.writeAttributes, hp]
        | none =>
          have hplace : placeProp p c =
              .ok "" (c.referenced.add (.whenever p.values (.setProp c.ownId p))) := by
            simp only [placeProp, hp, bind_run reference_run]
            rfl
          obtain ⟨texts, hrun, htexts⟩ :=
            ih (c.referenced.add (.whenever p.values (.setProp c.ownId p)))
          refine ⟨"" :: texts, ?_, ?_⟩
          · rw [List.mapM_cons, bind_run hplace, bind_run hrun]
            have hid : (c.referenced.add (.whenever p.values (.setProp c.ownId p))).ownId =
                c.ownId := c.referenced_ownId
            simp [PropResult.settings, hp, Context.receive_cons, hid]
          · simp [String.join_cons, htexts, PropResult.tagText, hp]
    obtain ⟨texts, hrun, htexts⟩ := hall props c
    rw [placeProps, bind_run hrun, htexts]
    rfl

theorem OwnWork.receive (c : Context) {xs : List Contribution}
    (h : ∀ x ∈ xs, x.op.lookedUp? = .none) : OwnWork c xs (c.receive xs) := by
  induction xs generalizing c with
  | nil => exact .none
  | cons x xs ih =>
    rw [c.receive_cons]
    exact (OwnWork.single c x (h x (by simp))).trans (ih _ fun y hy => h y (by simp [hy]))

/-- Placing properties is work on the element itself, and yields the text of those that never
change. -/
theorem placeProps_ok {result : PropResult} {text : String} (hr : ResultFrom o names e props result)
    (h : placeProps result c = .ok text c') :
    ∃ xs, OwnWork c xs c' ∧ (∀ x ∈ xs, Places o names e c.ownId props x) ∧
      FixedAttributes o names e props text := by
  obtain ⟨rfl, rfl⟩ := EStateM.Result.ok.inj ((placeProps_run result c).symm.trans h)
  have hplaces : ∀ x ∈ result.settings c.ownId, Places o names e c.ownId props x := by
    cases hr with
    | dynamic hgroups hes => simpa [PropResult.settings] using .groups hgroups hes
    | fixed hps =>
      intro x hx
      obtain ⟨p, hp, rfl⟩ := List.mem_map.mp hx
      exact .prop (hps p (List.mem_filter.mp hp).1)
  refine ⟨_, .receive c fun x hx => ?_, hplaces, ?_⟩
  · cases hplaces x hx <;> rfl
  · cases hr with
    | dynamic => exact ⟨[], rfl, by simp⟩
    | fixed hps =>
      refine ⟨_, rfl, fun a ha => ?_⟩
      obtain ⟨p, hp, hstatic⟩ := List.mem_filterMap.mp ha
      exact ⟨p, hps p hp, hstatic⟩

/-! ## Markup -/

namespace Context

/-- The context of an element that has written its children into its markup. -/
def closed (c : Context) (e : Element) : Context :=
  if Template.isVoidTag e.name then c else { c with childrenTemplate := [] }

/-- The content and the closing tag of an element. -/
def content (c : Context) (e : Element) : String :=
  if Template.isVoidTag e.name then ""
  else String.join c.childrenTemplate ++ "</" ++ e.name ++ ">"

/-- The markup of `e` cannot stand in that of the parent. -/
def isMisplaced (c : Context) (e : Element) : Bool :=
  (c.parent.bind (·.tag)).any fun parent => !Template.isValidNesting parent e.name

/-- The context of an element whose markup has found its place. -/
def place (c : Context) (e : Element) (markup : String) : Context :=
  if c.isMisplaced e then
    let k := c.referenced
    Context.flag
      { k with
        session := (k.session.addTemplate markup).2
        dynamic := { k.dynamic with template := some (k.session.addTemplate markup).1 } }
      .inserted
  else c.write markup

@[simp] theorem closed_isBlockRoot (c : Context) (e : Element) :
    (c.closed e).isBlockRoot = c.isBlockRoot := by
  unfold closed
  split <;> rfl

@[simp] theorem closed_parent (c : Context) (e : Element) : (c.closed e).parent = c.parent := by
  unfold closed
  split <;> rfl

@[simp] theorem closed_block (c : Context) (e : Element) : (c.closed e).block = c.block := by
  unfold closed
  split <;> rfl

@[simp] theorem closed_session (c : Context) (e : Element) :
    (c.closed e).session = c.session := by
  unfold closed
  split <;> rfl

@[simp] theorem closed_template (c : Context) (e : Element) :
    (c.closed e).template = c.template := by
  unfold closed
  split <;> rfl

@[simp] theorem closed_dynamic (c : Context) (e : Element) :
    (c.closed e).dynamic = c.dynamic := by
  unfold closed
  split <;> rfl

@[simp] theorem closed_removed (c : Context) (e : Element) :
    (c.closed e).removed = c.removed := by
  unfold closed
  split <;> rfl

section

variable (c : Context) (e : Element) (markup : String)

theorem place_isBlockRoot : (c.place e markup).isBlockRoot = c.isBlockRoot := by
  unfold place
  split <;> rfl

theorem place_parent : (c.place e markup).parent = c.parent := by
  unfold place
  split <;> rfl

theorem place_block : ((c.closed e).place e markup).block = c.block := by
  unfold place closed
  split <;> split <;> rfl

theorem place_identifiers : (c.place e markup).session.identifiers = c.session.identifiers := by
  unfold place
  split <;> simp [flag, write]

end

end Context

theorem contentMarkup_run : contentMarkup e c = .ok (c.content e) (c.closed e) := by
  unfold contentMarkup Context.content Context.closed
  split <;> rfl

theorem placeMarkup_run (markup : String) : placeMarkup e markup c = .ok () (c.place e markup) := by
  unfold placeMarkup Context.place Context.isMisplaced
  rw [get_bind]
  cases hparent : c.parent.bind (·.tag) with
  | none => simp
  | some parent =>
    cases hvalid : Template.isValidNesting parent e.name with
    | true => simp [hvalid]
    | false =>
      simp only [hvalid, Bool.false_eq_true, ite_false, Option.any_some, Bool.not_false,
        ite_true, bind_run reference_run, bind_run (addTemplate_run _)]
      rfl

/-- The opening tag of an element. -/
def openingTag (o : Options) (e : Element) (attributes : String) : String :=
  "<" ++ e.name ++ (o.scopeId.map (" " ++ ·)).getD "" ++ attributes ++ ">"

/-- An element is finished by work on itself, and its markup then finds its place. -/
theorem finishNative_ok (hc : c.session.Binds names)
    (h : finishNative o e props c = .ok () c') :
    ∃ xs k attributes, OwnWork c xs k ∧
      (∀ x ∈ xs, (∃ d, .bound d ∈ props ∧ Contributes o names e c.ownId d x) ∨
        Places o names e c.ownId props x) ∧
      FixedAttributes o names e props attributes ∧ RegistersAll o names c.ownId props xs ∧
      c' = (k.closed e).place e (openingTag o e attributes ++ k.content e) := by
  simp only [finishNative, bind_eq_ok] at h
  obtain ⟨result, c₁, hbuild, attributes, c₂, hplace, content, c₃, hcontent, h⟩ := h
  obtain ⟨xs, hwork, hxs, -, hresult, hactions⟩ := buildProps_ok (fun _ hp _ => hp) hc hbuild
  obtain ⟨ys, hwork', hys, hattributes⟩ := placeProps_ok hresult hplace
  obtain ⟨rfl, rfl⟩ := EStateM.Result.ok.inj (contentMarkup_run.symm.trans hcontent)
  obtain ⟨-, rfl⟩ := EStateM.Result.ok.inj ((placeMarkup_run _).symm.trans h)
  have hnone : ys.filter (·.op.isAction) = [] := by
    refine List.filter_eq_nil_iff.mpr fun y hy => ?_
    cases hys y hy <;> simp [Contribution.op, Operation.isAction]
  have hall : RegistersAll o names c.ownId props (xs ++ ys) := by
    rwa [RegistersAll, List.filter_append, hnone, List.append_nil]
  refine ⟨xs ++ ys, c₂, attributes, hwork.trans hwork', ?_, hattributes, hall, rfl⟩
  intro x hx
  rcases List.mem_append.mp hx with hx | hx
  · exact .inl (hxs x hx)
  · exact .inr (hwork.ownId ▸ hys x hx)

end TemplateCompiler
