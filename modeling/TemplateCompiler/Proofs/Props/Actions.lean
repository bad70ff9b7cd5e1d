import TemplateCompiler.Proofs.Names.Scopes

/-! # Actions

The actions on an element are registered on it, each once and in the order in which they are written,
unless they have the name of a builtin directive. An action with such a name is that directive.
-/

namespace TemplateCompiler

open Template (Element Fragment Node)
open Transform

/-! ## Registered actions -/

/-- The operations of the block that register actions. -/
def Block.actions (b : Block) : List Operation := b.operations.filter (·.isAction)

/-- The children of the element that are in the same block. -/
def Template.Element.inlined (e : Element) : List Node := if e.kind = .regular then e.children else []

/-- The operations register the actions on the element, of which `d` is known. -/
def Attached (o : Options) (names : List String) (e : Element) (d : NodeInfo)
    (ops : List Operation) : Prop :=
  ∃ props, Property.ofAttributes e.attributes = .ok props ∧
    List.Forall₂ (fun a op => ∃ id, d.id = some id ∧ a.Registers o names id (.once op))
      (props.filterMap (·.action? o)) ops

mutual

/-- The operations register the actions on the elements of a block. Those on an element come after
those on its children. -/
inductive Acts (o : Options) (names : List String) : Node → NodeInfo → List Operation → Prop
  | other {n : Node} {d : NodeInfo} :
      (∀ e, n ≠ .element e) → (∀ f, n ≠ .fragment f) → Acts o names n d []
  | fragment {f : Fragment} {d : NodeInfo} {ops : List Operation} :
      ActsAll o names f.children d.children ops → Acts o names (.fragment f) d ops
  | element {e : Element} {d : NodeInfo} {ops own : List Operation} :
      ActsAll o names e.inlined d.children ops → Attached o names e d own →
      Acts o names (.element e) d (ops ++ own)

inductive ActsAll (o : Options) (names : List String) :
    List Node → List NodeInfo → List Operation → Prop
  | nil : ActsAll o names [] [] []
  | cons {n : Node} {ns : List Node} {d : NodeInfo} {ds : List NodeInfo}
      {ops ops' : List Operation} :
      Acts o names n d ops → ActsAll o names ns ds ops' →
      ActsAll o names (n :: ns) (d :: ds) (ops ++ ops')

end

variable {o : Options} {names : List String} {n : Node} {ns : List Node} {d d' : NodeInfo}
  {ks ks' : List NodeInfo} {e : Element} {ops own : List Operation} {c c' : Context}
  {xs : List Contribution} {props : List Property}

theorem Attached.later (h : Attached o names e d own) (hd : d.Later d') :
    Attached o names e d' own := by
  obtain ⟨props, hprops, hall⟩ := h
  refine ⟨props, hprops, hall.imp fun a op hop => ?_⟩
  obtain ⟨id, hid, ha⟩ := hop
  exact ⟨id, hd.id id hid, ha⟩

theorem Acts.later (h : Acts o names n d ops) (hd : d.Later d') : Acts o names n d' ops := by
  cases h with
  | other he hf => exact .other he hf
  | fragment h => exact .fragment (hd.children.symm ▸ h)
  | element h hown => exact .element (hd.children.symm ▸ h) (hown.later hd)

theorem ActsAll.later (h : ActsAll o names ns ks ops) (hks : List.Forall₂ NodeInfo.Later ks ks') :
    ActsAll o names ns ks' ops := by
  induction hks generalizing ns ops with
  | nil =>
    cases h
    exact .nil
  | cons hk _ ih =>
    cases h with
    | cons hn hns => exact .cons (hn.later hk) (ih hns)

theorem Block.actions_add (b : Block) {x : Contribution} (h : x.op.isAction = false) :
    (b.add x).actions = b.actions := by
  obtain ⟨new, hnew, hsub⟩ := b.operations_add [x]
  have hnone : new.filter (·.isAction) = [] := by
    refine List.filter_eq_nil_iff.mpr fun op hop => ?_
    simp [List.mem_singleton.mp (hsub hop), h]
  change ([x].foldl Block.add b).operations.filter _ = _
  rw [hnew, List.filter_append, hnone, List.append_nil]
  rfl

theorem actions_foldl {id : Nat} {as : List Directive} (b : Block)
    (h : List.Forall₂ (Directive.Registers o names id) as (xs.filter (·.op.isAction))) :
    ∃ own, (xs.foldl Block.add b).actions = b.actions ++ own ∧
      List.Forall₂ (fun a op => a.Registers o names id (.once op)) as own := by
  induction xs generalizing as b with
  | nil =>
    cases h
    exact ⟨[], by simp, .nil⟩
  | cons x xs ih =>
    cases hx : x.op.isAction with
    | true =>
      rw [List.filter_cons_of_pos (by exact hx)] at h
      cases h with
      | cons hregisters hrest =>
        obtain ⟨own, hown, hall⟩ := ih (b.add x) hrest
        obtain ⟨exp, name, asset, hexp, rfl⟩ := hregisters
        refine ⟨_ :: own, ?_, .cons ⟨exp, name, asset, hexp, rfl⟩ hall⟩
        rw [List.foldl_cons, hown, List.append_cons]
        simp [Block.actions, Block.add, Block.register, Operation.isAction]
    | false =>
      rw [List.filter_cons_of_neg (by simp [hx])] at h
      obtain ⟨own, hown, hall⟩ := ih (b.add x) h
      exact ⟨own, by rw [List.foldl_cons, hown, b.actions_add hx], hall⟩

theorem OwnWork.attached (h : OwnWork c xs c') (hxs : RegistersAll o names c.ownId props xs)
    (hprops : Property.ofAttributes e.attributes = .ok props) :
    ∃ own, c'.block.actions = c.block.actions ++ own ∧ Attached o names e c'.dynamic own := by
  cases h with
  | none =>
    have hnone : props.filterMap (·.action? o) = [] := List.forall₂_nil_right_iff.mp hxs
    exact ⟨[], by simp, props, hprops, by rw [hnone]; exact .nil⟩
  | some xs actions =>
    obtain ⟨own, hown, hall⟩ := actions_foldl c.block hxs
    exact ⟨own, hown, props, hprops, hall.imp fun a op ha => ⟨c.ownId, c.referenced_id, ha⟩⟩

/-! ## Visits -/

/-- A visit registers the actions on the elements of its block. -/
def Acted (o : Options) (c c' : Context) : Prop :=
  ∀ names, c.session.Binds names →
    ∃ new, c'.block.actions = c.block.actions ++ new ∧ Acts o names c.node c'.dynamic new

section Visits

variable {visit : Transform Unit} (hdisciplined : Disciplined visit) (hvisit : Ensures visit (Acted o))

include hdisciplined hvisit

theorem VisitsChildren.acts {isFragment : Bool} {frame : Frame} {i : Nat}
    (h : VisitsChildren visit isFragment frame i ns c c') (hb : c.session.Binds names) :
    ∃ ks new, c'.dynamic.children = c.dynamic.children ++ ks ∧
      c'.block.actions = c.block.actions ++ new ∧ ActsAll o names ns ks new := by
  induction h with
  | nil => exact ⟨[], [], by simp, by simp, .nil⟩
  | @cons frame _ i n ns c k c' hframe hrun _ _ ih =>
    obtain ⟨new₁, hnew₁, hk⟩ := hvisit _ _ (hframe.child_fresh c) hrun names hb
    obtain ⟨ks, new₂, hks, hnew₂, hall⟩ := ih (hb.congr (hdisciplined.count_child hframe hrun))
    refine ⟨_ :: ks, new₁ ++ new₂, ?_, ?_, .cons (hk.later (k.settled_later isFragment)) hall⟩
    · rw [hks]
      simp [Context.adopt]
    · rw [hnew₂, ← List.append_assoc]
      refine congrArg (· ++ new₂) (Eq.trans ?_ hnew₁)
      exact congrArg (List.filter _) (k.settled_operations isFragment)

theorem Visits.acts (hc : c.Fresh) (hb : c.session.Binds names) (h : Visits o names visit c c') :
    ∃ new, c'.block.actions = c.block.actions ++ new ∧ Acts o names c.node c'.dynamic new := by
  have hcreated : ∀ {e own}, c.node = .element e → e.kind ≠ .regular → c'.dynamic.children = [] →
      Attached o names e c'.dynamic own → Acts o names c.node c'.dynamic own := by
    intro e own hn hkind hchildren hown
    rw [hn]
    change Acts o names _ _ ([] ++ own)
    refine .element ?_ hown
    rw [hchildren, Element.inlined, if_neg hkind]
    exact .nil
  cases h with
  | absorbed _ hn =>
    refine ⟨[], by simp [Context.flag], .other ?_ ?_⟩ <;> rintro _ heq <;>
      simp [heq, Node.isAbsorbable] at hn
  | text hn | comment hn | dropped hn =>
    exact ⟨[], by simp [Context.write], .other (by simp [hn]) (by simp [hn])⟩
  | interpolation hn | condition hn =>
    exact ⟨[], by rw [List.append_nil]; exact c.block.actions_add rfl,
      .other (by simp [hn]) (by simp [hn])⟩
  | loop hn hloop =>
    cases hloop
    exact ⟨[], by rw [List.append_nil]; exact c.block.actions_add rfl,
      .other (by simp [hn]) (by simp [hn])⟩
  | @outlet e _ _ _ _ _ k _ _ hn hkind hprops _ _ hwork _ _ _ _ hactions =>
    have hid : (c.referenced.flag .inserted).ownId = c.ownId := c.referenced_ownId
    obtain ⟨own, hown, hattached⟩ := hwork.attached (hid ▸ hactions) hprops
    refine ⟨own, (k.block.actions_add rfl).trans hown, hcreated hn (by simp [hkind]) ?_ hattached⟩
    exact hwork.later.children.trans (c.referenced_children.trans hc.children)
  | @component e _ _ _ _ _ _ _ k _ _ hn hkind _ _ hprops _ hwork _ _ _ _ hactions =>
    obtain ⟨own, hown, hattached⟩ := hwork.attached hactions hprops
    have hreferenced := (k.flag .inserted).referenced_later
    have hlater : k.dynamic.Later (k.flag .inserted).referenced.dynamic :=
      ⟨hreferenced.children, hreferenced.id⟩
    refine ⟨own, (k.block.actions_add rfl).trans hown, hcreated hn (by simp [hkind]) ?_
      (hattached.later hlater)⟩
    exact hlater.children.trans (hwork.later.children.trans hc.children)
  | @native e c₁ c₂ k _ _ attributes hn hkind hcontainer hwalk hprops hwork _ _ hactions =>
    have hc₁ : c₁.block.actions = c.block.actions ∧ c₁.dynamic.children = [] := by
      cases hcontainer with
      | idle | literal => exact ⟨rfl, hc.children⟩
      | markup | text => exact ⟨c.block.actions_add rfl, c.referenced_children.trans hc.children⟩
    obtain ⟨ks, new, hks, hnew, hall⟩ :=
      hwalk.acts hdisciplined hvisit (hb.congr hcontainer.count_eq)
    obtain ⟨anchors, ops, parent, hplaced, -, hoperations, -, hinserting⟩ := c₂.insertAll_spec
    have hinserted : c₂.insertAll.block.actions = c₂.block.actions := by
      have hnone : ops.filter (·.isAction) = [] := by
        refine List.filter_eq_nil_iff.mpr fun op hop => ?_
        have hparent := hinserting.parent?_eq op hop
        cases op <;> simp_all [Operation.parent?, Operation.isAction]
      rw [Block.actions, hoperations, List.filter_append, hnone, List.append_nil]
      rfl
    obtain ⟨own, hown, hattached⟩ := hwork.attached hactions hprops
    have hlater := k.place_later e (openingTag o e attributes ++ k.content e)
    refine ⟨new ++ own, ?_, ?_⟩
    · rw [k.place_block, hown, hinserted, hnew, hc₁.1, List.append_assoc]
    · rw [hn]
      refine .element ?_ (hattached.later hlater)
      rw [hlater.children, hwork.later.children, hplaced, hks, hc₁.2, List.nil_append,
        Element.inlined, if_pos hkind]
      exact hall.later (later_placeAll anchors ks)
  | @fragment f _ hn hwalk =>
    obtain ⟨ks, new, hks, hnew, hall⟩ := hwalk.acts hdisciplined hvisit hb
    refine ⟨new, hnew, ?_⟩
    rw [hc.children, List.nil_append] at hks
    rw [hn]
    exact .fragment (hks ▸ hall)

end Visits

theorem visit_acted (hpasses : o.passes = Pass.all) (depth : Nat) :
    Ensures (visit o depth) (Acted o) :=
  visit_induction hpasses (fun depth ih _ _ hc hvisits names hb =>
    (hvisits names hb).acts (visit_disciplined hpasses depth) ih hc hb) depth

/-! ## Compiled templates -/

/-- An action is registered and does nothing else. -/
theorem collectDirective_action {d : Directive} {isComponent : Bool} {k k' : PropCollector}
    (hd : d.isAction o = true) (hb : c.session.Binds names)
    (h : collectDirective o e isComponent k d c = .ok k' c') :
    k' = k ∧ ∃ x, d.Registers o names c.ownId x ∧ c'.block = c.block.add x := by
  obtain ⟨piece, hpiece, rfl⟩ := collectDirective_eq_ok.mp h
  cases hpiece with
  | object hname => simp [d.isAction_of_name .bind hname] at hd
  | silent _ hrun =>
    cases applyDirective_ok hb hrun with
    | idle hidle => simp [hidle] at hd
    | @contribution x _ hx _ hwork =>
      have hall := hx.registersAll
      refine ⟨rfl, x, ?_, hwork.block_eq⟩
      cases haction : x.op.isAction <;> simp_all [RegistersAll, Property.action?]
  | entry _ hrun =>
    cases applyDirective_ok hb hrun with
    | entry hsupplies => simp [hsupplies.isAction] at hd

/-- In every block the actions are those on its elements, each registered once on its element, in
the order of the attributes. Nothing else comes of them. This leaves out the actions that have the
name of a builtin directive. -/
theorem compile_registers_actions {root : Fragment} {r : Compiled} (hpasses : o.passes = Pass.all)
    (h : compile o root = .ok r) :
    (∀ b ∈ r.block.blocks, ∃ names f, InScope (o.prepare root) names f ∧ b.node = .fragment f ∧
      Acts o names b.node b.dynamic b.actions) ∧
    ∀ d e isComponent k k' names c c', d.isAction o = true → c.session.Binds names →
      collectDirective o e isComponent k d c = .ok k' c' →
      k' = k ∧ ∃ x, d.Registers o names c.ownId x ∧ c'.block = c.block.add x := by
  refine ⟨fun b hb => ?_, fun d e _ k k' names c c' hd hc => collectDirective_action hd hc⟩
  obtain ⟨names, depth, f, s, s', hf, hs, ⟨c, hrun, rfl, -⟩, -⟩ := compile_scoped hpasses h b hb
  have hfresh := Context.newBlock_fresh f s
  have hnode : c.node = .fragment f := visit_node_eq hpasses depth f _ _ hfresh rfl hrun
  obtain ⟨new, hnew, hacts⟩ := visit_acted hpasses depth _ _ hfresh hrun names (hs.newBlock f)
  refine ⟨names, f, hf, hnode, ?_⟩
  rw [Context.toBlock, hnode]
  exact (show c.block.actions = new from hnew) ▸ hacts

/-- An element with an action, and with two that have names of builtin directives:
`<div use:tip.top={x} use:bind={y} use:ref={z}></div>`. -/
def actionsTemplate : Fragment :=
  let action (name : String) (modifiers : List String) (exp : String) : Template.Attribute :=
    .directive .action name modifiers (.chunks [.code ⟨exp, {}⟩]) {}
  ⟨[.element ⟨"div", .regular,
    [action "tip" ["top"] "x", action "bind" [] "y", action "ref" [] "z"], [], {}⟩], {}⟩

theorem compile_registers_actions_actionsTemplate :
    ∃ r, compile {} actionsTemplate = .ok r ∧
      ∀ b ∈ r.block.blocks, ∃ names f, InScope (Options.prepare {} actionsTemplate) names f ∧
        b.node = .fragment f ∧ Acts {} names b.node b.dynamic b.actions :=
  exists_ok (by decide +kernel) fun _ h => (compile_registers_actions rfl h).1

/-- Only one of the three actions is registered. -/
theorem actionsTemplate_actions :
    (compile {} actionsTemplate).toOption.map (·.block.actions.length) = some 1 := by
  decide +kernel

end TemplateCompiler
