import TemplateCompiler.Proofs.Transform.OwnWork

/-! # What directives come to

A directive either supplies a property, whose key and value are still as they are written, or
contributes to the block of its element, with its expressions processed.
-/

namespace TemplateCompiler

open Template (Element)
open Transform

variable {a : Template.Attribute} {exp : Expression} {result : Option PropEntry}

/-- The optional expression `raw` appears as `e` where `names` are in scope. -/
def ProcessedOption (o : Options) (names : List String) (raw e : Option Expression) : Prop :=
  match raw, e with
  | none, none => True
  | some raw, some e => Processed o names raw e
  | _, _ => False

/-- The property supplies `key` and `value` to its element, before names are qualified. -/
inductive Supplies (e : Element) : Property → Expression → Expression → Prop
  | fixed (a : StaticAttribute) :
      Supplies e (.fixed a) (.static a.name (a.location.withSource a.name))
        (.static a.value (a.location.withSource a.value))
  | bind {d : Directive} {arg key value : Expression} :
      d.name = "bind" → d.arg = some arg → d.exp = some value →
      key = arg ∨ key = .static (Text.camelize arg.content) arg.location ∧ arg.isStatic = true →
      Supplies e (.bound d) key value
  | handler {d : Directive} {arg : Expression} :
      d.name = "on" → d.arg = some arg → e.kind = .component ∨ e.kind = .slotOutlet →
      Supplies e (.bound d) (handlerEntry d arg).key (handlerEntry d arg).value
  | model {d : Directive} {exp : Expression} :
      d.name = "model" → e.kind = .component → d.exp = some exp →
      Supplies e (.bound d) (d.arg.getD (.static "modelValue" d.location)) exp
  | toggle {d : Directive} {entry : PropEntry} :
      d.name = "class" → objectEntry "class" false d = .ok entry →
      Supplies e (.bound d) entry.key entry.value
  | style {d : Directive} {entry : PropEntry} :
      d.name = "style" → objectEntry "style" (d.modifiers.contains "important") d = .ok entry →
      Supplies e (.bound d) entry.key entry.value

/-- A contribution that depends on an expression unless that is literal. -/
def dependingOn (e : Expression) (op : Operation) : Contribution :=
  if e.isStatic then .once op else .whenever [e] op

@[simp] theorem dependingOn_op (e : Expression) (op : Operation) : (dependingOn e op).op = op := by
  unfold dependingOn
  split <;> rfl

/-- The directive contributes to the block, on the element with the given id. -/
inductive Contributes (o : Options) (names : List String) (e : Element) (id : Nat) (d : Directive) :
    Contribution → Prop
  | event {arg key : Expression} {value : Option Expression} {modifiers : EventModifiers} :
      d.name = "on" → d.arg = some arg → Processed o names arg key →
      ProcessedOption o names d.exp value →
      Contributes o names e id d
        (dependingOn key (.setEvent id key value modifiers !key.isStatic))
  | model {raw exp : Expression} {kind : ModelKind} :
      d.name = "model" → d.exp = some raw → Processed o names raw exp →
      Contributes o names e id d
        (.once (.withDirective id "model" { d with exp := some exp } true false (some kind)))
  /-- A plain name that no loop introduces is literal text. -/
  | plainReference {raw : Expression} {inLoop : Bool} :
      d.name = "ref" → d.exp = some raw → raw.isStatic = false →
      Script.isIdentifier (Text.trim raw.content) = true → Text.trim raw.content ∉ names →
      Contributes o names e id d
        (.once (.setTemplateRef id (.static (Text.trim raw.content) raw.location) inLoop))
  | reference {raw value : Expression} {inLoop : Bool} :
      d.name = "ref" → d.exp = some raw → Processed o names raw value →
      Contributes o names e id d (dependingOn value (.setTemplateRef id value inLoop))
  | action {exp : Option Expression} {name : String} {asset : Bool} :
      o.directive? d.name = none → isBuiltinDirective d.name = false →
      ProcessedOption o names d.exp exp →
      Contributes o names e id d (.once (.withDirective id name { d with exp } false asset none))

/-- Whether a directive can lead to the operation on a node of this kind. Handlers are properties of
components and slot outlets, and so are bindings in both directions of components. -/
def Operation.suits (kind : Template.ElementKind) : Operation → Bool
  | setEvent _ _ _ _ _ => kind != .component && kind != .slotOutlet
  | withDirective _ _ _ builtin _ _ => !builtin || kind != .component
  | _ => true

/-- The directive is an action whose name is not that of a builtin directive. -/
def Directive.isAction (o : Options) (d : Directive) : Bool :=
  (o.directive? d.name).isNone && !isBuiltinDirective d.name

/-- A directive on `e` has been carried out: it had no effect, or it supplied an entry, or it made
one contribution. -/
inductive CarriedOut (o : Options) (names : List String) (e : Element) (d : Directive)
    (c : Context) : Option PropEntry → Context → Prop
  | idle : d.isAction o = false → CarriedOut o names e d c none c
  | entry {entry : PropEntry} :
      Supplies e (.bound d) entry.key entry.value → CarriedOut o names e d c (some entry) c
  | contribution {x : Contribution} {c' : Context} :
      Contributes o names e c.ownId d x → x.op.suits e.kind = true → OwnWork c [x] c' →
      CarriedOut o names e d c none c'

/-! ## Running a directive -/

variable {o : Options} {names : List String} {e : Element} {d : Directive} {c c' : Context}

theorem Contributes.isOwn {id : Nat} {x : Contribution} (h : Contributes o names e id d x) :
    x.op.isOwn = true := by
  cases h with
  | event | reference => rw [dependingOn_op]; rfl
  | _ => rfl

theorem qualify_processed {raw : Expression} (hc : c.session.Binds names)
    (h : qualify o raw c = .ok exp c') : Processed o names raw exp ∧ c = c' := by
  obtain ⟨hexp, hc'⟩ := qualify_eq_ok.mp h
  exact ⟨processed_of_qualified hc hexp, hc'⟩

theorem mapM_qualify_processed {raw exp : Option Expression} (hc : c.session.Binds names)
    (h : raw.mapM (qualify o) c = .ok exp c') : ProcessedOption o names raw exp ∧ c = c' := by
  cases raw with
  | none =>
    obtain ⟨rfl, rfl⟩ := EStateM.Result.ok.inj h
    exact ⟨trivial, rfl⟩
  | some raw =>
    change (some <$> qualify o raw) c = _ at h
    rw [map_eq_pure_bind, bind_eq_ok] at h
    obtain ⟨e, _, he, h⟩ := h
    obtain ⟨rfl, rfl⟩ := EStateM.Result.ok.inj h
    exact qualify_processed hc he

theorem Directive.isAction_of_name (d : Directive) (builtin : BuiltinDirective)
    (h : d.name = builtin.name) : d.isAction o = false := by
  have hbuiltin : isBuiltinDirective d.name = true := by cases builtin <;> rw [h] <;> rfl
  simp [isAction, hbuiltin]

theorem bindEntry_ok (hd : d.name = "bind") (h : bindEntry d c = .ok result c') :
    CarriedOut o names e d c result c' := by
  have hidle : d.isAction o = false := d.isAction_of_name .bind hd
  unfold bindEntry at h
  cases harg : d.arg with
  | none =>
    simp only [harg, pure_run] at h
    cases h
    exact .idle hidle
  | some arg =>
    cases hexp : d.exp with
    | none => simp [harg, hexp] at h
    | some value =>
      simp only [harg, hexp] at h
      split at h
      · obtain ⟨rfl, rfl⟩ := EStateM.Result.ok.inj h
        exact .idle hidle
      · obtain ⟨rfl, rfl⟩ := EStateM.Result.ok.inj h
        refine .entry (.bind hd harg hexp ?_)
        dsimp only
        split <;> simp_all

theorem dependingOn_run (k : Expression) (op : Operation) :
    (if k.isStatic then registerOperation op else registerEffect [k] op) c =
      .ok () (c.add (dependingOn k op)) := by
  unfold dependingOn
  split <;> rfl

section

variable (hc : c.session.Binds names)

include hc

/-- Listening to an event is one contribution of the element. -/
theorem listen_ok {arg : Expression} {modifiers : EventModifiers}
    (hkind : e.kind ≠ .component ∧ e.kind ≠ .slotOutlet) (hd : d.name = "on")
    (harg : d.arg = some arg) (h : listen o d arg modifiers c = .ok () c') :
    CarriedOut o names e d c none c' := by
  have hsuits : ∀ key value,
      (Operation.setEvent c.ownId key value modifiers !key.isStatic).suits e.kind = true := by
    simpa [Operation.suits] using hkind
  have hbinds : c.referenced.session.Binds names := by
    refine (OwnWork.some [] c.referenced.session.directives ?_).binds hc
    simp [noteActions]
  rw [listen, bind_run reference_run, bind_eq_ok] at h
  obtain ⟨value, c₁, hvalue, h⟩ := h
  obtain ⟨hexp, rfl⟩ := mapM_qualify_processed hbinds hvalue
  cases hstatic : arg.isStatic with
  | true =>
    simp only [hstatic, ite_true, bind_run (pure_run arg), registerOperation_run] at h
    obtain ⟨-, rfl⟩ := EStateM.Result.ok.inj h
    have hx : Contributes o names e c.ownId d
        (dependingOn arg (.setEvent c.ownId arg value modifiers !arg.isStatic)) :=
      .event hd harg (.kept (.inl hstatic)) hexp
    simp only [dependingOn, hstatic, ite_true] at hx
    exact .contribution hx (hsuits arg value) (.single c _ rfl)
  | false =>
    simp only [hstatic, Bool.false_eq_true, ite_false, bind_eq_ok] at h
    obtain ⟨key, _, hkey, h⟩ := h
    obtain ⟨hprocessed, rfl⟩ := qualify_processed hbinds hkey
    rw [dependingOn_run] at h
    obtain ⟨-, rfl⟩ := EStateM.Result.ok.inj h
    refine .contribution (.event hd harg hprocessed hexp) ?_ (.single c _ ?_)
    · rw [dependingOn_op]
      exact hsuits _ _
    · rw [dependingOn_op]
      rfl

theorem onEntry_ok (hd : d.name = "on") (h : onEntry o d e c = .ok result c') :
    CarriedOut o names e d c result c' := by
  unfold onEntry at h
  cases harg : d.arg with
  | none => simp [harg] at h
  | some arg =>
    simp only [harg] at h
    split at h
    · simp [bind_eq_ok] at h
    · simp only [bind_eq_ok, ofExcept_eq_ok] at h
      obtain ⟨modifiers, _, ⟨-, rfl⟩, h⟩ := h
      split at h
      · rename_i hkind
        obtain ⟨rfl, rfl⟩ := EStateM.Result.ok.inj h
        exact .entry (.handler hd harg (by simpa using hkind))
      · rename_i hkind
        rw [bind_eq_ok] at h
        obtain ⟨_, _, hlisten, h⟩ := h
        obtain ⟨rfl, rfl⟩ := EStateM.Result.ok.inj h
        exact listen_ok hc (by simpa using hkind) hd harg hlisten

theorem modelEntry_ok (hd : d.name = "model") (h : modelEntry o d e c = .ok result c') :
    CarriedOut o names e d c result c' := by
  unfold modelEntry at h
  cases hexp : d.exp with
  | none => simp [hexp] at h
  | some raw =>
    simp only [hexp] at h
    split at h
    · simp [bind_eq_ok] at h
    · split at h
      · rename_i hcomponent
        obtain ⟨rfl, rfl⟩ := EStateM.Result.ok.inj h
        exact .entry (.model hd (by simpa [Element.isComponent] using hcomponent) hexp)
      · rename_i hkind
        simp only [bind_eq_ok, ofExcept_eq_ok, reference_run, registerOperation_run, pure_run,
          EStateM.Result.ok.injEq] at h
        obtain ⟨kind, _, ⟨-, rfl⟩, exp, _, hrun, _, _, ⟨rfl, rfl⟩, _, _, ⟨-, rfl⟩, rfl, rfl⟩ := h
        obtain ⟨hprocessed, rfl⟩ := qualify_processed hc hrun
        refine .contribution (.model hd hexp hprocessed) ?_ (.single _ _ rfl)
        simpa [Contribution.op, Operation.suits, Element.isComponent] using hkind

theorem registerReference_ok (hd : d.name = "ref") (h : registerReference o d c = .ok () c') :
    CarriedOut o names e d c none c' := by
  unfold registerReference at h
  cases hexp : d.exp with
  | none => simp [hexp] at h
  | some raw =>
    simp only [hexp, getSession_bind] at h
    split at h
    · rename_i hplain
      simp only [bind_eq_ok, reference_run, pure_run, getSession_bind] at h
      obtain ⟨_, _, ⟨⟩, _, _, ⟨⟩, h⟩ := h
      obtain ⟨-, rfl⟩ := EStateM.Result.ok.inj h
      simp only [Bool.and_eq_true, Bool.not_eq_true', hc _] at hplain
      exact .contribution
        (.plainReference hd hexp hplain.1.1 hplain.1.2 (by simpa using hplain.2)) rfl
        (.single _ _ rfl)
    · simp only [bind_eq_ok, reference_run, getSession_bind] at h
      obtain ⟨value, _, hrun, _, _, ⟨⟩, h⟩ := h
      obtain ⟨hprocessed, rfl⟩ := qualify_processed hc hrun
      rw [dependingOn_run] at h
      obtain ⟨-, rfl⟩ := EStateM.Result.ok.inj h
      exact .contribution (.reference hd hexp hprocessed) (by rw [dependingOn_op]; rfl)
        (.single _ _ (by rw [dependingOn_op]; rfl))

theorem apply_ok {builtin : BuiltinDirective} (hd : d.name = builtin.name)
    (h : builtin.apply o d e c = .ok result c') : CarriedOut o names e d c result c' := by
  have hobject : ∀ {property : String} {important : Bool},
      (some <$> ofExcept (objectEntry property important d) : Transform _) c = .ok result c' →
      ∃ entry, objectEntry property important d = .ok entry ∧ result = some entry ∧ c = c' := by
    intro property important hrun
    simp only [map_eq_pure_bind, bind_eq_ok, ofExcept_eq_ok, pure_run,
      EStateM.Result.ok.injEq] at hrun
    obtain ⟨entry, _, ⟨hentry, hc₁⟩, hresult, hc'⟩ := hrun
    exact ⟨entry, hentry, hresult.symm, hc₁.trans hc'⟩
  cases builtin with
  | bind => exact bindEntry_ok hd h
  | on => exact onEntry_ok hc hd h
  | model => exact modelEntry_ok hc hd h
  | classToggle =>
    obtain ⟨entry, hentry, rfl, rfl⟩ := hobject h
    exact .entry (.toggle hd hentry)
  | styleProperty =>
    obtain ⟨entry, hentry, rfl, rfl⟩ := hobject h
    exact .entry (.style hd hentry)
  | reference =>
    simp only [BuiltinDirective.apply, bind_eq_ok] at h
    obtain ⟨_, _, hrun, h⟩ := h
    obtain ⟨rfl, rfl⟩ := EStateM.Result.ok.inj h
    exact registerReference_ok hc hd hrun

/-- An action is one contribution, which may also be noted for looking it up. -/
theorem registerAction_ok (hd : o.directive? d.name = none)
    (hbuiltin : isBuiltinDirective d.name = false) (h : registerAction o d c = .ok () c') :
    CarriedOut o names e d c none c' := by
  have hnoted : ∀ actions x, actions = noteActions c.session.directives [x] →
      OwnWork c [x] ((c.during { c.session with directives := actions }).referenced.add x) := by
    intro actions x hactions
    have heq : (c.during { c.session with directives := actions }).referenced.add x =
        c.referenced.contribute [x] actions := by
      cases hid : c.dynamic.id <;>
        simp [Context.referenced, Context.during, Context.add, Context.contribute,
          Session.allocateId, hid]
    exact heq ▸ OwnWork.some [x] actions hactions
  unfold registerAction at h
  cases hprovided : o.setupReference? d.name with
  | none =>
    simp only [hprovided, Option.isNone_none, ite_true, bind_eq_ok, modifySession_run,
      reference_run, registerOperation_run] at h
    obtain ⟨_, _, ⟨⟩, exp, _, hrun, _, _, ⟨⟩, ⟨⟩⟩ := h
    have hc₁ : (c.during (c.session.addDirective d.name)).session.Binds names := hc
    obtain ⟨hprocessed, rfl⟩ := mapM_qualify_processed hc₁ hrun
    exact .contribution (.action hd hbuiltin hprocessed) rfl (hnoted _ _ rfl)
  | some name =>
    simp only [hprovided, Option.isNone_some, Bool.false_eq_true, ite_false, bind_eq_ok,
      reference_run, registerOperation_run] at h
    obtain ⟨exp, _, hrun, _, _, ⟨⟩, ⟨⟩⟩ := h
    obtain ⟨hprocessed, rfl⟩ := mapM_qualify_processed hc hrun
    exact .contribution (.action hd hbuiltin hprocessed) rfl (.single _ _ rfl)

theorem applyDirective_ok {result : Option PropEntry} (h : applyDirective o d e c = .ok result c') :
    CarriedOut o names e d c result c' := by
  unfold applyDirective at h
  cases hdirective : o.directive? d.name with
  | some builtin =>
    simp only [hdirective] at h
    have hname : builtin.name = d.name := by simpa using List.find?_some hdirective
    exact apply_ok hc hname.symm h
  | none =>
    simp only [hdirective] at h
    cases hbuiltin : isBuiltinDirective d.name with
    | true =>
      simp only [hbuiltin, Bool.not_true, Bool.false_eq_true, ite_false, pure_run] at h
      cases h
      exact .idle (by simp [Directive.isAction, hbuiltin])
    | false =>
      simp only [hbuiltin, Bool.not_false, ite_true, bind_eq_ok, pure_run] at h
      obtain ⟨_, _, hrun, ⟨⟩⟩ := h
      exact registerAction_ok hc hdirective hbuiltin hrun

end

/-! ## Written directives -/

/-- What a written directive does. -/
def Template.DirectiveKind.deed? (name : String) : DirectiveKind → Option String
  | .eventHandler => some "on"
  | .binding => some (if name = "this" then "ref" else "model")
  | .classToggle => some "class"
  | .styleProperty => some "style"
  | .action => some name
  | .reference => some "ref"
  | .transition | .animation | .letBinding => none

/-- No written directive binds a property to a name. -/
theorem WrittenDirective.of_toDirective {d : WrittenDirective} {d' : Directive}
    (h : d.toDirective = .ok d') : d.kind.deed? d.name = some d'.name ∧
      (d'.arg = none ∨ d'.arg = some (argument d.name d.location) ∧ d'.name ≠ "bind") := by
  obtain ⟨kind, name, modifiers, value, location⟩ := d
  simp only [toDirective] at h
  cases hvalue : WrittenDirective.value? ⟨kind, name, modifiers, value, location⟩ <;>
  cases hname : WrittenDirective.valueOrName ⟨kind, name, modifiers, value, location⟩ <;>
  cases kind <;> simp only [hvalue, hname] at h <;> (try split at h) <;> cases h <;>
  simp_all [Template.DirectiveKind.deed?]

theorem Property.toDirective_of_ofAttribute {w : WrittenDirective} {p : Property}
    (h : ofAttribute (.directive w.kind w.name w.modifiers w.value w.location) = .ok p) :
    ∃ d, w.toDirective = .ok d ∧ p = .bound d := by
  change Property.bound <$> w.toDirective = _ at h
  cases hd : w.toDirective with
  | error e => simp [hd, Functor.map, Except.map] at h
  | ok d => exact ⟨d, rfl, by simpa [hd, Functor.map, Except.map, eq_comm] using h⟩

theorem Property.arg_isStatic_of_ofAttribute {d : Directive} (h : ofAttribute a = .ok (.bound d)) :
    ∀ arg ∈ d.arg, arg.isStatic = true := by
  cases a with
  | plain name value location =>
    simp only [ofAttribute, plainProperty] at h
    (repeat' split at h) <;> cases h <;> simp [argument, Expression.static]
  | spread code location =>
    cases h
    simp
  | directive kind name modifiers value location =>
    obtain ⟨_, hd, ⟨⟩⟩ :=
      toDirective_of_ofAttribute (w := ⟨kind, name, modifiers, value, location⟩) h
    rcases (WrittenDirective.of_toDirective hd).2 with harg | ⟨harg, -⟩ <;>
      simp [harg, argument, Expression.static]

/-- Each attribute has one property. -/
theorem Property.forall₂_ofAttributes {attributes : List Template.Attribute} {props : List Property}
    (h : ofAttributes attributes = .ok props) :
    List.Forall₂ (fun a p => ofAttribute a = .ok p) attributes props := by
  unfold ofAttributes at h
  induction attributes generalizing props with
  | nil =>
    obtain rfl : [] = props := Except.ok.inj h
    exact .nil
  | cons a as ih =>
    rw [List.mapM_cons] at h
    cases ha : ofAttribute a with
    | error e => simp [ha, bind, Except.bind] at h
    | ok p =>
      cases has : as.mapM ofAttribute with
      | error e => simp [ha, has, bind, Except.bind] at h
      | ok ps =>
        obtain rfl : p :: ps = props := by
          simpa [ha, has, bind, Except.bind, pure, Except.pure] using h
        exact .cons ha (ih has)

theorem Property.exists_of_mem {attributes : List Template.Attribute} {props : List Property}
    {p : Property} (h : ofAttributes attributes = .ok props) (hp : p ∈ props) :
    ∃ a ∈ attributes, ofAttribute a = .ok p := by
  replace h := forall₂_ofAttributes h
  induction h with
  | nil => simp at hp
  | cons ha _ ih =>
    rcases List.mem_cons.mp hp with rfl | hp
    · exact ⟨_, by simp, ha⟩
    · obtain ⟨b, hb, hbp⟩ := ih hp
      exact ⟨b, by simp [hb], hbp⟩

/-- The name of an attribute is no expression, so arguments are literal text. -/
theorem Property.arg_isStatic {attributes : List Template.Attribute} {props : List Property}
    {d : Directive} (h : ofAttributes attributes = .ok props) (hd : .bound d ∈ props) :
    ∀ arg ∈ d.arg, arg.isStatic = true := by
  obtain ⟨a, -, ha⟩ := exists_of_mem h hd
  exact arg_isStatic_of_ofAttribute ha

/-! ## Fixed properties -/

theorem Property.plain_of_fixed {attr : StaticAttribute} (h : ofAttribute a = .ok (.fixed attr)) :
    ∃ value location, a = .plain attr.name value location := by
  cases a with
  | plain name value location =>
    simp only [ofAttribute, plainProperty] at h
    (repeat' split at h) <;> cases h <;> exact ⟨_, _, rfl⟩
  | spread code location => cases h
  | directive kind name modifiers value location =>
    obtain ⟨_, -, ⟨⟩⟩ := toDirective_of_ofAttribute (w := ⟨kind, name, modifiers, value, location⟩) h

theorem isStatic_of_concatChunks? {chunks : List Template.Chunk}
    (h : concatChunks? chunks = some exp) : exp.isStatic = false := by
  simp only [concatChunks?, Option.bind_eq_bind, Option.bind_eq_some_iff, Option.some.injEq] at h
  obtain ⟨_, -, _, -, _, -, rfl⟩ := h
  rfl

/-- A property that is bound to a name has a script as its value. -/
theorem Property.isStatic_of_bind {d : Directive} {arg : Expression}
    (h : ofAttribute a = .ok (.bound d)) (hname : d.name = "bind") (harg : d.arg = some arg)
    (hexp : d.exp = some exp) : exp.isStatic = false := by
  cases a with
  | plain name value location =>
    simp only [ofAttribute, plainProperty] at h
    split at h
    · cases h
    · cases h
    · cases h
      cases hexp
      rfl
    · cases h
      cases hexp
      rfl
    · split at h
      · rename_i hconcat
        cases h
        cases hexp
        exact isStatic_of_concatChunks? hconcat
      · cases h
  | spread code location =>
    cases h
    cases harg
  | directive kind name modifiers value location =>
    obtain ⟨_, hd, ⟨⟩⟩ :=
      toDirective_of_ofAttribute (w := ⟨kind, name, modifiers, value, location⟩) h
    rcases (WrittenDirective.of_toDirective hd).2 with hnone | ⟨-, hother⟩
    · cases hnone.symm.trans harg
    · exact absurd hname hother

end TemplateCompiler
