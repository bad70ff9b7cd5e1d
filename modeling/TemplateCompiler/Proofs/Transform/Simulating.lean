import TemplateCompiler.Proofs.Transform.Comparing
import TemplateCompiler.Proofs.Transform.Making
import TemplateCompiler.Transform.Visit

/-! # Comparing visits

If the small steps of two runs compare, so do whole visits. There is one lemma for each function of
the compiler, from the directives of an element up to the visit of a node.
-/

namespace TemplateCompiler

open Template (Branches EachBlock Element Fragment Node)
open Transform Comparison

variable {c c' : Context}

/-- All that decides what is done in the contexts is the same. -/
structure Context.Similar (c c' : Context) : Prop where
  node : c.node = c'.node
  isBlockRoot : c.isBlockRoot = c'.isBlockRoot
  template : c.template = c'.template
  childrenTemplate : c.childrenTemplate = c'.childrenTemplate
  consumedChildren : c.consumedChildren = c'.consumedChildren
  removed : c.removed = c'.removed
  flags : c.dynamic.flags = c'.dynamic.flags
  tag : c.parent.bind (·.tag) = c'.parent.bind (·.tag)
  isAbsorbed :
    c.parent.any (c.index < ·.consumedUntil) = c'.parent.any (c'.index < ·.consumedUntil)
  isIdentifier : ∀ name, c.session.isIdentifier name = c'.session.isIdentifier name

/-- The options, except that names are qualified or not. -/
abbrev Options.qualifying (o : Options) (b : Bool) : Options := { o with qualifyNames := b }

/-- An operation that runs once if it depends on nothing. -/
abbrev Transform.registerOn (e : Expression) (op : Operation) : Transform Unit :=
  if e.isStatic then registerOperation op else registerEffect [e] op

/-- The values of a text compare, if its expressions do. -/
theorem Comparison.Excepts.textValues {S : Comparison} {Like : Expression → Expression → Prop}
    {o o' : Options} {s s' : Session} (like : ∀ e, Like e e)
    (qualified : ∀ e : Expression, S.Excepts Like (e.qualified o s) (e.qualified o' s'))
    (ns : List Node) :
    S.Excepts (List.Forall₂ Like) (textValues o s ns) (textValues o' s' ns) := by
  induction ns with
  | nil => exact .ok .nil
  | cons n ns ih =>
    cases n with
    | text t => exact ih.bind fun vs vs' hvs => .ok (.cons (like _) hvs)
    | interpolation code =>
      exact (qualified _).bind fun v v' hv => ih.bind fun vs vs' hvs => .ok (.cons hv hvs)
    | _ => exact ih

theorem literalMarkup?_congr {vs vs' : List Expression} (h : List.Forall₂ Eq vs vs') :
    literalMarkup? vs = literalMarkup? vs' :=
  congrArg _ (List.forall₂_eq_eq_eq ▸ h)

/-- The small steps of two runs compare. -/
structure Simulation (o : Options) (b : Bool) extends Comparison where
  similar {c c' : Context} : Related c c' → c.Similar c'
  SameId : Nat → Nat → Prop
  Like : Expression → Expression → Prop
  LikeProps : PropCollector → PropCollector → Prop
  LikeResult : PropResult → PropResult → Prop
  LikeBlock : Context → Block → Block → Prop
  LikeAlternative : Context → Alternative → Alternative → Prop
  /- Values. -/
  like (e : Expression) : Like e e
  literal {vs vs' : List Expression} :
    List.Forall₂ Like vs vs' → literalMarkup? vs = literalMarkup? vs'
  qualified {c c' : Context} : Related c c' → ∀ e : Expression,
    toComparison.Excepts Like (e.qualified o c.session) (e.qualified (o.qualifying b) c'.session)
  likeBlock_later {k k' : Context} {x x' : Block} :
    Later k k' → LikeBlock k x x' → LikeBlock k' x x'
  nothing {w : Context} : LikeAlternative w .nothing .nothing
  otherwise {w : Context} {x x' : Block} :
    LikeBlock w x x' → LikeAlternative w (.block x) (.block x')
  test {w : Context} {i i' : Nat} {e e' : Expression} {x x' : Block} {a a' : Alternative} :
    SameId i i' → Like e e' → LikeBlock w x x' → LikeAlternative w a a' →
      LikeAlternative w (.branch i e x a) (.branch i' e' x' a')
  /- Properties. -/
  noProps : LikeProps {} {}
  addAttribute {p p' : PropCollector} (a : StaticAttribute) :
    LikeProps p p' → LikeProps (p.addAttribute a) (p'.addAttribute a)
  addSpread {p p' : PropCollector} {e e' : Expression} :
    LikeProps p p' → Like e e' → LikeProps (p.addSpread e) (p'.addSpread e')
  addEntry {p p' : PropCollector} {key key' value value' : Expression} (isComponent : Bool)
    (e : PropEntry) : LikeProps p p' → Like key key' → Like value value' →
      LikeProps (p.addEntry isComponent { e with key, value })
        (p'.addEntry isComponent { e with key := key', value := value' })
  result {p p' : PropCollector} : LikeProps p p' → LikeResult p.result p'.result
  /- Steps. -/
  reference {w : Context} : toComparison.Runs w (fun _ => SameId) reference reference
  allocateId {w : Context} : toComparison.Runs w (fun _ => SameId) allocateId allocateId
  setFlags {w : Context} (flags : Flags) :
    toComparison.Runs w Equal (setFlags flags) (setFlags flags)
  appendTemplate {w : Context} (text : String) :
    toComparison.Runs w Equal (appendTemplate text) (appendTemplate text)
  setApart {w : Context} (text : String) :
    toComparison.Runs w (fun _ _ _ => True)
      (do
        let i ← addTemplate text
        modifyDynamic fun d => { d with template := some i }
        return i)
      (do
        let i ← addTemplate text
        modifyDynamic fun d => { d with template := some i }
        return i)
  removeNode {w : Context} : toComparison.Runs w Equal removeNode removeNode
  setContent {w : Context} (texts : List String) :
    toComparison.Runs w Equal (modify fun ctx => { ctx with childrenTemplate := texts })
      (modify fun ctx => { ctx with childrenTemplate := texts })
  consume {w : Context} (n : Nat) :
    toComparison.Runs w Equal (modify fun ctx => { ctx with consumedChildren := n })
      (modify fun ctx => { ctx with consumedChildren := n })
  addComponent {w : Context} (name : String) :
    toComparison.Runs w Equal (modifySession (·.addComponent name))
      (modifySession (·.addComponent name))
  addDirective {w : Context} (name : String) :
    toComparison.Runs w Equal (modifySession (·.addDirective name))
      (modifySession (·.addDirective name))
  narrow {c c' : Context} {e : Element} : Related c c' → c'.node = .element e →
    e.kind ≠ .regular → toComparison.Runs c' Equal (replaceNode (.element e.withoutChildren))
      (replaceNode (.element e.withoutChildren))
  fillSlots {w : Context} {xs xs' : List (String × Block)} :
    List.Forall₂ (fun x x' => x.1 = x'.1 ∧ LikeBlock w x.2 x'.2) xs xs' →
      toComparison.Runs w Equal (modify fun ctx => { ctx with slots := xs })
        (modify fun ctx => { ctx with slots := xs' })
  returnNode {w : Context} {i i' : Nat} : SameId i i' →
    toComparison.Runs w Equal
      (modify fun ctx =>
        { ctx with block := { ctx.block with returns := ctx.block.returns ++ [i] } })
      (modify fun ctx =>
        { ctx with block := { ctx.block with returns := ctx.block.returns ++ [i'] } })
  insertChildren {w : Context} : toComparison.Runs w Equal insertChildren insertChildren
  placeProps {w : Context} {r r' : PropResult} :
    LikeResult r r' → toComparison.Runs w Equal (placeProps r) (placeProps r')
  createText {c c' : Context} : Related c c' → c'.node.isInterpolation = true →
    toComparison.Runs c' Equal (c.parent.forM (createText o))
      (c'.parent.forM (createText (o.qualifying b)))
  /- Operations. -/
  setEvent {w : Context} {i i' : Nat} {key key' : Expression} {value value' : Option Expression}
    (m : EventModifiers) : SameId i i' → Like key key' → Option.Rel Like value value' →
      toComparison.Runs w Equal (registerOn key (.setEvent i key value m !key.isStatic))
        (registerOn key' (.setEvent i' key' value' m !key'.isStatic))
  withDirective {w : Context} {i i' : Nat} {exp exp' : Option Expression} (name : String)
    (d : Directive) (builtin asset : Bool) (kind : Option ModelKind) :
    SameId i i' → Option.Rel Like exp exp' →
      toComparison.Runs w Equal
        (registerOperation (.withDirective i name { d with exp } builtin asset kind))
        (registerOperation (.withDirective i' name { d with exp := exp' } builtin asset kind))
  setTemplateRef {w : Context} {i i' : Nat} {value value' : Expression} :
    SameId i i' → Like value value' →
      toComparison.Runs w Equal
        (do registerOn value (.setTemplateRef i value (0 < (← getSession).loopDepth)))
        (do registerOn value' (.setTemplateRef i' value' (0 < (← getSession).loopDepth)))
  setHtml {w : Context} {i i' : Nat} {value value' : Expression} :
    SameId i i' → Like value value' →
      toComparison.Runs w Equal (registerEffect [value] (.setHtml i value))
        (registerEffect [value'] (.setHtml i' value'))
  setText {w : Context} {i i' : Nat} {vs vs' : List Expression} :
    SameId i i' → List.Forall₂ Like vs vs' →
      toComparison.Runs w Equal (registerEffect vs (.setText i vs))
        (registerEffect vs' (.setText i' vs'))
  createComponent {w : Context} {i i' : Nat} {r r' : PropResult} (tag : String) (asset : Bool) :
    SameId i i' → LikeResult r r' →
      toComparison.Runs w Equal
        (do
          let slots := (← get).slots
          modify fun ctx => { ctx with slots := [] }
          registerOperation (.createComponent i tag r.groups slots asset))
        (do
          let slots := (← get).slots
          modify fun ctx => { ctx with slots := [] }
          registerOperation (.createComponent i' tag r'.groups slots asset))
  branch {w : Context} {i i' : Nat} {e e' : Expression} {x x' : Block} {a a' : Alternative} :
    SameId i i' → Like e e' → LikeBlock w x x' → LikeAlternative w a a' →
      toComparison.Runs w Equal (registerOperation (.branch i e x a))
        (registerOperation (.branch i' e' x' a'))
  loop {w : Context} {i i' : Nat} {e e' : Expression} {key key' : Option Expression} {x x' : Block}
    {f f' : Option Block} (value : Expression) (index : Option Expression) :
    SameId i i' → Like e e' → Option.Rel Like key key' → LikeBlock w x x' →
    Option.Rel (LikeBlock w) f f' →
      toComparison.Runs w Equal (registerOperation (.loop i e value index key x f))
        (registerOperation (.loop i' e' value index key' x' f'))
  slotOutlet {w : Context} {i i' : Nat} {name name' : Expression} {r r' : PropResult}
    {f f' : Option Block} : SameId i i' → Like name name' → LikeResult r r' →
    Option.Rel (LikeBlock w) f f' →
      toComparison.Runs w Equal (registerOperation (.slotOutlet i name r.groups f))
        (registerOperation (.slotOutlet i' name' r'.groups f'))

namespace Simulation

variable {o : Options} {b : Bool} (S : Simulation o b) {w : Context}

/-! ## Names -/

theorem qualify (e : Expression) :
    S.Runs w (fun _ => S.Like) (qualify o e) (qualify (o.qualifying b) e) :=
  .getSession fun _ _ hc _ => .ofExcept (S.qualified hc e)

theorem qualifyAll (x : Option Expression) :
    S.Runs w (fun _ => Option.Rel S.Like) (x.mapM (Transform.qualify o))
      (x.mapM (Transform.qualify (o.qualifying b))) :=
  .optionMapM S.qualify x

/-! ## Directives -/

section

variable (d : Directive)

theorem bindEntry : S.Runs w Equal (bindEntry d) (bindEntry d) := by
  unfold TemplateCompiler.bindEntry
  split
  · exact .pure_eq none
  · exact .throw _
  · exact .ite (fun _ => .pure_eq none) fun _ => .pure_eq _

theorem listen (arg : Expression) (modifiers : EventModifiers) :
    S.Runs w Equal (listen o d arg modifiers) (listen (o.qualifying b) d arg modifiers) := by
  refine S.reference.andThen fun i i' hi => (S.qualifyAll d.exp).andThen fun v v' hv => ?_
  have hevent (key key' : Expression) (hkey : S.Like key key') :=
    S.setEvent (w := w) modifiers hi hkey hv
  exact .ite (fun _ => .andThen (.pure fun _ _ => S.like arg) hevent) fun _ =>
    (S.qualify arg).andThen hevent

theorem onEntry (e : Element) : S.Runs w Equal (onEntry o d e) (onEntry (o.qualifying b) d e) := by
  unfold TemplateCompiler.onEntry
  cases d.arg with
  | none => exact .throw _
  | some arg =>
    refine .ite (fun _ => .throw_bind _) fun _ => .seq (.ofExcept_eq _) fun modifiers => ?_
    exact .ite (fun _ => .pure_eq _) fun _ => (S.listen d arg modifiers).seq fun _ => .pure_eq none

theorem modelEntry (e : Element) :
    S.Runs w Equal (modelEntry o d e) (modelEntry (o.qualifying b) d e) := by
  unfold TemplateCompiler.modelEntry
  cases d.exp with
  | none => exact .throw _
  | some exp =>
    refine .ite (fun _ => .throw_bind _) fun _ => .ite (fun _ => .pure_eq _) fun _ => ?_
    refine .seq (.ofExcept_eq _) fun kind => (S.qualify exp).andThen fun x x' hx => ?_
    refine S.reference.andThen fun i i' hi => ?_
    exact (S.withDirective "model" d true false (some kind) hi (.some hx)).seq fun _ =>
      .pure_eq none

theorem registerReference :
    S.Runs w Equal (registerReference o d) (registerReference (o.qualifying b) d) := by
  unfold TemplateCompiler.registerReference
  cases d.exp with
  | none => exact .throw _
  | some exp =>
    refine .getSession fun c c' hc _ => ?_
    rw [(S.similar hc).isIdentifier]
    have hset (v v' : Expression) (hv : S.Like v v') :=
      (S.reference (w := c')).andThen fun i i' hi => S.setTemplateRef hi hv
    exact .ite (fun _ => .andThen (.pure fun _ _ => S.like _) hset) fun _ =>
      (S.qualify exp).andThen hset

theorem apply (e : Element) (builtin : BuiltinDirective) :
    S.Runs w Equal (builtin.apply o d e) (builtin.apply (o.qualifying b) d e) := by
  have hmap (x : Except Diagnostic PropEntry) :
      S.Runs w Equal (some <$> (ofExcept x : Transform PropEntry)) (some <$> ofExcept x) :=
    (Runs.ofExcept_eq x).map fun _ _ _ => congrArg some
  cases builtin with
  | bind => exact S.bindEntry d
  | on => exact S.onEntry d e
  | model => exact S.modelEntry d e
  | classToggle | styleProperty => exact hmap _
  | reference => exact (S.registerReference d).seq fun _ => .pure_eq none

/-! ## Properties -/

theorem registerAction :
    S.Runs w Equal (registerAction o d) (registerAction (o.qualifying b) d) := by
  have hregister (name : String) (asset : Bool) :=
    (S.qualifyAll (w := w) d.exp).andThen fun x x' hx =>
    S.reference.andThen fun i i' hi => S.withDirective name d false asset none hi hx
  exact .ite (fun _ => (S.addDirective _).seq fun _ => hregister _ _) fun _ => hregister _ _

theorem applyDirective (e : Element) :
    S.Runs w Equal (applyDirective o d e) (applyDirective (o.qualifying b) d e) := by
  unfold TemplateCompiler.applyDirective
  have hdirective : (o.qualifying b).directive? d.name = o.directive? d.name := rfl
  rw [hdirective]
  cases o.directive? d.name with
  | some builtin => exact S.apply d e builtin
  | none =>
    exact .ite (fun _ => (S.registerAction d).seq fun _ => .pure_eq none) fun _ => .pure_eq none

end

theorem collectDirective (e : Element) (isComponent : Bool) {p p' : PropCollector}
    (hp : S.LikeProps p p') (d : Directive) :
    S.Runs w (fun _ => S.LikeProps) (collectDirective o e isComponent p d)
      (collectDirective (o.qualifying b) e isComponent p' d) := by
  unfold TemplateCompiler.collectDirective
  refine .ite (fun _ => ?_) fun _ => (S.applyDirective d e).seq fun entry => ?_
  · cases d.exp with
    | some exp => exact (S.qualify exp).andThen fun x x' hx => .pure fun _ _ => S.addSpread hp hx
    | none => exact .throw_bind _
  · cases entry with
    | none => exact .pure fun _ _ => hp
    | some entry =>
      have hadd (key key' : Expression) (hkey : S.Like key key') :=
        (S.qualify (w := w) entry.value).andThen fun x x' hx => .pure fun _ _ =>
          S.addEntry isComponent entry hp hkey hx
      exact .ite (fun _ => .andThen (.pure fun _ _ => S.like _) hadd) fun _ =>
        (S.qualify entry.key).andThen hadd

theorem buildProps (e : Element) (props : List Property) (isComponent : Bool) :
    S.Runs w (fun _ => S.LikeResult) (buildProps o e props isComponent)
      (buildProps (o.qualifying b) e props isComponent) := by
  refine .andThen (.foldlM (fun p p' x hp => ?_) props S.noProps) fun p p' hp =>
    .pure fun _ _ => S.result hp
  cases x with
  | fixed a => exact .pure fun _ _ => S.addAttribute a hp
  | bound d => exact S.collectDirective e isComponent hp d

/-! ## Elements -/

theorem contentMarkup (e : Element) : S.Runs w Equal (contentMarkup e) (contentMarkup e) := by
  refine .ite (fun _ => .pure_eq "") fun _ => .get fun c c' hc _ => ?_
  rw [(S.similar hc).childrenTemplate]
  exact (S.setContent []).seq fun _ => .pure_eq _

theorem registerTemplate :
    S.Runs w (fun _ _ _ => True) registerTemplate registerTemplate := by
  refine .get fun c c' hc _ => ?_
  rw [(S.similar hc).template]
  refine .ite (fun _ => .pure fun _ _ => trivial) fun _ => ?_
  have hapart := (S.setApart (w := c') c'.template).map (g := some)
    (W := fun _ _ _ => True) fun _ _ _ _ => trivial
  simpa only [map_bind, map_pure] using hapart

theorem placeMarkup (e : Element) (markup : String) :
    S.Runs w Equal (placeMarkup e markup) (placeMarkup e markup) := by
  refine .get fun c c' hc _ => ?_
  rw [(S.similar hc).tag]
  cases c'.parent.bind (·.tag) with
  | none => exact S.appendTemplate markup
  | some parent =>
    refine .ite (fun _ => S.appendTemplate markup) fun _ => S.reference.andThen fun _ _ _ => ?_
    have hapart := (S.setApart (w := c') markup).andThen fun _ _ _ => S.setFlags .inserted
    simpa only [bind_assoc, pure_bind] using hapart

theorem finishNative (e : Element) (props : List Property) :
    S.Runs w Equal (finishNative o e props) (finishNative (o.qualifying b) e props) :=
  (S.buildProps e props false).andThen fun _ _ hr => (S.placeProps hr).seq fun _ =>
    (S.contentMarkup e).seq fun _ => S.placeMarkup e _

theorem resolveComponent_eq (hc : S.Related c c') (tag : String) :
    resolveComponent o c.session tag = resolveComponent (o.qualifying b) c'.session tag := by
  simp only [resolveComponent, (S.similar hc).isIdentifier]
  rfl

theorem finishComponent (e : Element) (props : List Property) :
    S.Runs w Equal (finishComponent o e props) (finishComponent (o.qualifying b) e props) := by
  refine .getSession fun c c' hc _ => ?_
  rw [S.resolveComponent_eq hc]
  generalize resolveComponent _ c'.session e.name = resolved
  obtain ⟨tag, asset⟩ := resolved
  have hcreate := (S.buildProps (w := c') e props true).andThen fun r r' hr =>
    (S.setFlags .inserted).seq fun _ => S.reference.andThen fun i i' hi =>
      S.createComponent tag asset hi hr
  exact .ite (fun _ => (S.addComponent tag).seq fun _ => hcreate) fun _ => hcreate

theorem transformElement : S.Runs w Equal transformElement transformElement := by
  refine .get fun c c' hc _ => ?_
  rw [(S.similar hc).node]
  split
  · split
    · exact .pure_eq _
    · exact .pure_eq _
    · exact .pure_eq _
    · exact .throw _
  · exact .pure_eq _

theorem finishElement : S.Runs w Equal (finishElement o) (finishElement (o.qualifying b)) := by
  refine .get fun c c' hc _ => ?_
  rw [(S.similar hc).node]
  cases c'.node.element? with
  | none => exact .pure_eq ()
  | some e =>
    exact .seq (.ofExcept_eq _) fun props =>
      .ite (fun _ => S.finishComponent e props) fun _ => S.finishNative e props

/-! ## Texts -/

theorem setMarkup (code : Template.Code) :
    S.Runs w Equal (setMarkup o code) (setMarkup (o.qualifying b) code) :=
  (S.qualify _).andThen fun _ _ hv => S.reference.andThen fun _ _ hi => (S.consume 1).seq fun _ =>
    S.setHtml hi hv

theorem setTexts (ns : List Node) :
    S.Runs w Equal (TemplateCompiler.setText o ns)
      (TemplateCompiler.setText (o.qualifying b) ns) := by
  refine .getSession fun c c' hc _ => ?_
  refine .andThen (.ofExcept (.textValues S.like (S.qualified hc) ns)) fun vs vs' hvs => ?_
  refine (S.consume _).seq fun _ => ?_
  rw [S.literal hvs]
  split
  · exact S.setContent _
  · exact S.reference.andThen fun _ _ hi => S.setText hi hvs

theorem transformContainer (e : Element) :
    S.Runs w Equal (transformContainer o e) (transformContainer (o.qualifying b) e) := by
  unfold TemplateCompiler.transformContainer
  split
  · exact S.setMarkup _
  · exact .ite (fun _ => S.setTexts _) fun _ => .pure_eq ()

theorem transformText : S.Runs w Equal (transformText o) (transformText (o.qualifying b)) := by
  refine .get fun c c' hc _ => ?_
  rw [(S.similar hc).isAbsorbed, (S.similar hc).node]
  refine .ite (fun _ => S.setFlags _) fun _ => ?_
  cases hn : c'.node with
  | element e => exact .ite (fun _ => S.transformContainer e) fun _ => .pure_eq ()
  | interpolation code => exact S.createText hc (by rw [hn]; rfl)
  | rawMarkup code => exact .throw _
  | text t => exact S.appendTemplate _
  | comment data location => exact .ite (fun _ => S.appendTemplate _) fun _ => S.removeNode
  | _ => exact .pure_eq ()

/-! ## Blocks -/

/-- Visits of what is inside the nodes compare. -/
structure Inside (v v' : Transform Unit) : Prop where
  block {c c' : Context} {f : Fragment} : S.Related c c' → f ∈ c'.node.asides →
    S.Runs c' S.LikeBlock (createBlock v (.fragment f)) (createBlock v' (.fragment f))
  body {c c' : Context} {e : EachBlock} {names : List String} :
    S.Related c c' → c'.node = .eachBlock e → loopNames? e = some names →
      S.Runs c' (fun k x x' => S.LikeBlock k x.1 x'.1 ∧ Option.Rel S.Like x.2 x'.2)
        (createLoopBody o v names e) (createLoopBody (o.qualifying b) v' names e)
  children {c c' : Context} (isFragment : Bool) : S.Related c c' → c'.node.isOpen = true →
    S.Runs c' Equal
      (visitChildren v isFragment (.ofNode c'.node c'.consumedChildren) 0 c'.node.children)
      (visitChildren v' isFragment (.ofNode c'.node c'.consumedChildren) 0 c'.node.children)

namespace Inside

variable {S} {v v' : Transform Unit} (h : S.Inside v v')

include h

theorem createOptional {f : Option Fragment} (hc : S.Related c c')
    (hf : ∀ g ∈ f, g ∈ c'.node.asides) (hw : S.Later c' w) :
    S.Runs w (fun k => Option.Rel (S.LikeBlock k)) (f.mapM fun f => createBlock v (.fragment f))
      (f.mapM fun f => createBlock v' (.fragment f)) := by
  cases f with
  | none => exact .pure fun _ _ => .none
  | some f =>
    exact ((h.block hc (hf f rfl)).later hw).map fun _ _ _ => .some

theorem createAlternative {branches : Branches} (hc : S.Related c c')
    (hbodies : ∀ f ∈ branches.bodies, f ∈ c'.node.asides) (hw : S.Later c' w) :
    S.Runs w S.LikeAlternative (createAlternative o v branches)
      (createAlternative (o.qualifying b) v' branches) := by
  induction branches generalizing w with
  | done => exact .pure fun _ _ => S.nothing
  | otherwise body =>
    exact ((h.block hc (hbodies body (by simp [Branches.bodies]))).later hw).yield
      fun _ _ _ _ => S.otherwise
  | test condition body rest ih =>
    refine S.allocateId.andThen fun i i' hi => (S.qualify _).andThen fun e e' he => ?_
    refine ((h.block hc (hbodies body (by simp [Branches.bodies]))).later hw).bind
      fun k x x' hk hx => ?_
    exact (ih (fun f hf => hbodies f (by simp [Branches.bodies, hf])) (S.trans hw hk)).yield
      fun _ _ _ hl => S.test hi he (S.likeBlock_later hl hx)

theorem transformCondition :
    S.Runs w Equal (transformCondition o v) (transformCondition (o.qualifying b) v') := by
  refine .get fun c c' hc _ => ?_
  rw [(S.similar hc).node]
  cases hn : c'.node with
  | ifBlock d =>
    have hasides : ∀ f ∈ d.consequent :: (Template.alternateBranches d.alternate).bodies,
        f ∈ c'.node.asides := fun f hf => hn ▸ hf
    refine (S.setFlags _).seq fun _ => S.reference.andThen fun i i' hi => ?_
    refine (S.qualify _).andThen fun e e' he => ?_
    refine (h.block hc (hasides _ (by simp))).bind fun k x x' hk hx => ?_
    refine (h.createAlternative hc (fun f hf => hasides f (by simp [hf])) hk).bind
      fun l a a' hl ha => S.branch hi he (S.likeBlock_later hl hx) ha
  | awaitBlock code location => exact .throw _
  | keyBlock code body location => exact .throw _
  | constTag code => exact .throw _
  | debugTag names location => exact .throw _
  | _ => exact .pure_eq ()

theorem createLoop {d : EachBlock} (hc : S.Related c c') (hn : c'.node = .eachBlock d) {i i' : Nat}
    (hi : S.SameId i i') :
    S.Runs c' (fun k op op' => S.Runs k Equal (registerOperation op) (registerOperation op'))
      (createLoop o v i d) (createLoop (o.qualifying b) v' i' d) := by
  refine (S.qualify _).andThen fun e e' he => ?_
  cases hnames : Script.patternNames? d.context with
  | none => exact .throw _
  | some names =>
    have hbody : loopNames? d = some (names ++ d.index.toList) := by simp [loopNames?, hnames]
    have hfallback : ∀ f ∈ d.fallback, f ∈ c'.node.asides := fun f hf => by
      simpa [hn, Node.asides] using hf
    refine (h.body hc hn hbody).bind fun k x x' hk hx => ?_
    exact (h.createOptional hc hfallback hk).yield fun _ _ _ hl hf =>
      S.loop _ _ hi he hx.2 (S.likeBlock_later hl hx.1) hf

theorem transformLoop : S.Runs w Equal (transformLoop o v) (transformLoop (o.qualifying b) v') := by
  refine .get fun c c' hc _ => ?_
  rw [(S.similar hc).node]
  cases hn : c'.node with
  | eachBlock d =>
    refine (S.setFlags _).seq fun _ => S.reference.andThen fun i i' hi => ?_
    exact (h.createLoop hc hn hi).bind fun _ _ _ _ hop => hop
  | _ => exact .pure_eq ()

omit h in
theorem outletName (props : List Property) :
    S.Runs w (fun _ x x' => Option.Rel S.Like x.1 x'.1 ∧ x.2 = x'.2) (outletName o props)
      (outletName (o.qualifying b) props) := by
  have horElse {x x' y y' : Option Expression} (hx : Option.Rel S.Like x x')
      (hy : Option.Rel S.Like y y') : Option.Rel S.Like (x <|> y) (x' <|> y') := by
    cases hx with
    | none => exact hy
    | some hx => exact .some hx
  induction props with
  | nil => exact .pure fun _ _ => ⟨.none, rfl⟩
  | cons p props ih =>
    cases p with
    | fixed a =>
      refine ih.andThen fun x x' hx => .ite (fun _ => .pure fun _ _ => ?_) fun _ =>
        .pure fun _ _ => ⟨hx.1, congrArg (.fixed a :: ·) hx.2⟩
      exact ⟨horElse hx.1 (.some (S.like _)), hx.2⟩
    | bound d =>
      refine .ite (fun _ => (S.qualifyAll d.exp).andThen fun y y' hy => ?_) fun _ =>
        ih.yield fun _ _ _ _ hx => ⟨hx.1, congrArg (.bound d :: ·) hx.2⟩
      exact ih.yield fun _ _ _ _ hx => ⟨horElse hx.1 hy, hx.2⟩

theorem transformSlotOutlet :
    S.Runs w Equal (transformSlotOutlet o v) (transformSlotOutlet (o.qualifying b) v') := by
  refine .get fun c c' hc _ => ?_
  rw [(S.similar hc).node]
  cases hn : c'.node with
  | element e =>
    refine .ite (fun hkind => ?_) fun _ => .pure_eq ()
    have hkind : e.kind = .slotOutlet := by simpa using hkind
    refine S.reference.andThen fun i i' hi => (S.setFlags _).seq fun _ => ?_
    refine .seq (.ofExcept_eq _) fun props => (outletName props).andThen fun x x' hx => ?_
    obtain ⟨name, others⟩ := x
    obtain ⟨name', others'⟩ := x'
    obtain ⟨hname, rfl⟩ := hx
    refine (S.buildProps e others true).andThen fun r r' hr => ?_
    have hname : S.Like (name.getD (.static "default" e.location))
        (name'.getD (.static "default" e.location)) := by
      cases hname with
      | none => exact S.like _
      | some hname => exact hname
    have hregister {t t' : Transform (Option Block)}
        (ht : S.Runs c' (fun k => Option.Rel (S.LikeBlock k)) t t') :=
      ht.bind fun k f f' hk hf => ((S.narrow hc hn (by simp [hkind])).later hk).seq fun _ =>
        S.slotOutlet hi hname hr hf
    refine .ite (fun _ => hregister (.pure fun _ _ => .none)) fun hblank => hregister ?_
    refine h.createOptional (f := some ⟨e.children, e.location⟩) hc (fun f hf => ?_) (S.refl c')
    obtain rfl := Option.some.inj hf
    simpa [hn, Node.asides, hkind, outletContent?] using hblank
  | _ => exact .pure_eq ()

theorem createSlots (hc : S.Related c c') {fs : List (String × Fragment)}
    (hfs : ∀ x ∈ fs, x.2 ∈ c'.node.asides) (hw : S.Later c' w) :
    S.Runs w (fun k => List.Forall₂ fun x x' => x.1 = x'.1 ∧ S.LikeBlock k x.2 x'.2)
      (fs.mapM fun (name, f) => do return (name, ← createBlock v (.fragment f)))
      (fs.mapM fun (name, f) => do return (name, ← createBlock v' (.fragment f))) := by
  induction fs generalizing w with
  | nil => exact .pure fun _ _ => .nil
  | cons x fs ih =>
    rw [List.mapM_cons, List.mapM_cons]
    have hfirst : S.Runs w
        (fun k (y y' : String × Block) => y.1 = y'.1 ∧ S.LikeBlock k y.2 y'.2)
        (do return (x.1, ← createBlock v (.fragment x.2)))
        (do return (x.1, ← createBlock v' (.fragment x.2))) :=
      ((h.block hc (hfs x (by simp))).later hw).yield fun _ _ _ _ hb => ⟨rfl, hb⟩
    refine hfirst.bind fun k y y' hk hy => ?_
    exact (ih (fun x hx => hfs x (by simp [hx])) (S.trans hw hk)).yield fun _ _ _ hl hys =>
      .cons ⟨hy.1, S.likeBlock_later hl hy.2⟩ hys

theorem transformComponentSlots :
    S.Runs w Equal (transformComponentSlots v) (transformComponentSlots v') := by
  refine .get fun c c' hc _ => ?_
  rw [(S.similar hc).node]
  cases hn : c'.node with
  | element e =>
    refine .ite (fun hkind => ?_) fun _ => .pure_eq ()
    have hkind : e.kind = .component := by simpa using hkind
    cases hslots : slotsOf e with
    | error d => exact .throw_bind d
    | ok fs =>
      have hfs : ∀ x ∈ fs, x.2 ∈ c'.node.asides := fun x hx => by
        simpa [hn, Node.asides, hkind, hslots, Except.toOption] using ⟨x.1, hx⟩
      exact (h.createSlots hc hfs (S.refl c')).bind fun k xs xs' hk hxs =>
        (S.fillSlots hxs).seq fun _ => (S.narrow hc hn (by simp [hkind])).later hk
  | _ => exact .pure_eq ()

/-! ## Children -/

omit h in
theorem returnChild : S.Runs w Equal returnChild returnChild := by
  refine S.reference.andThen fun i i' hi => S.registerTemplate.andThen fun _ _ _ => ?_
  refine .get fun c c' hc _ => ?_
  rw [(S.similar hc).flags]
  exact .ite (fun _ => S.returnNode hi) fun _ => .pure_eq ()

omit h in
theorem visitChild (hv : S.Runs w Equal v v') (isFragment : Bool) :
    S.Runs w Equal (visitChild v isFragment) (visitChild v' isFragment) := by
  refine hv.seq fun _ => .get fun c c' hc _ => ?_
  rw [(S.similar hc).removed]
  exact .ite (fun _ => S.setFlags _) fun _ => .ite (fun _ => returnChild) fun _ => .pure_eq ()

theorem transformChildren : S.Runs w Equal (transformChildren v) (transformChildren v') := by
  refine .get fun c c' hc _ => ?_
  rw [(S.similar hc).node, (S.similar hc).consumedChildren]
  have hchildren (isFragment : Bool) := h.children isFragment hc
  cases hn : c'.node with
  | fragment f =>
    rw [hn] at hchildren
    exact hchildren true rfl
  | element e =>
    rw [hn] at hchildren
    exact .ite (fun hkind => (hchildren false hkind).seq fun _ => S.insertChildren) fun _ =>
      .pure_eq ()
  | _ => exact .pure_eq ()

/-! ## Visits -/

theorem run (pass : Pass) : S.Runs w Equal (pass.run o v) (pass.run (o.qualifying b) v') := by
  cases pass with
  | conditions => exact h.transformCondition.seq fun _ => .pure_eq []
  | loops => exact h.transformLoop.seq fun _ => .pure_eq []
  | slotOutlets => exact h.transformSlotOutlet.seq fun _ => .pure_eq []
  | texts => exact S.transformText.seq fun _ => .pure_eq []
  | elements => exact S.transformElement
  | componentSlots => exact h.transformComponentSlots.seq fun _ => .pure_eq []
  | children => exact h.transformChildren.seq fun _ => .pure_eq []

theorem runPasses (passes : List Pass) :
    S.Runs w Equal (runPasses o v passes) (runPasses (o.qualifying b) v' passes) := by
  induction passes generalizing w with
  | nil => exact .pure_eq _
  | cons pass passes ih =>
    refine (h.run pass).seq fun exits => .get fun c c' hc _ => ?_
    rw [(S.similar hc).removed]
    exact .ite (fun _ => .pure_eq none) fun _ => ih.seq fun _ => .pure_eq _

theorem visitWith : S.Runs w Equal (visitWith o v) (visitWith (o.qualifying b) v') := by
  refine (h.runPasses o.passes).seq fun exits => ?_
  cases exits with
  | none => exact .pure_eq ()
  | some exits =>
    refine .seq (.forM fun exit _ => ?_) fun _ => .get fun c c' hc _ => ?_
    · cases exit
      exact S.finishElement
    · rw [(S.similar hc).isBlockRoot]
      exact .ite (fun _ => S.registerTemplate.andThen fun _ _ _ => .pure_eq ()) fun _ => .pure_eq ()

end Inside

end Simulation

end TemplateCompiler
