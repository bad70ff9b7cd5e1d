import TemplateCompiler.Proofs.Names.Scopes

/-! # Nodes are created before they are used

The operation that creates a node comes before those that use it. Directives of a component or a slot
outlet are the one exception: they are carried out before it is created.
-/

namespace TemplateCompiler

open Template (Attribute DirectiveKind Element ElementKind Fragment Node)
open Transform

/-! ## Attachments -/

/-- Whether the attribute leads to an operation on the component or slot outlet that it belongs to:
a reference, an action, or a binding in both directions of an outlet. -/
def Template.Attribute.isAttached (kind : ElementKind) : Attribute → Bool
  | .directive .action _ _ _ _ | .directive .reference _ _ _ _ => true
  | .directive .binding name _ _ _ => name == "this" || kind != .component
  | _ => false

namespace Operation

/-- Whether the operation attaches a reference or a directive to a node. -/
def attaches : Operation → Bool
  | setTemplateRef _ _ _ | withDirective _ _ _ _ _ _ => true
  | _ => false

/-- Whether the operation creates what an element of this kind stands for. -/
def creates (kind : ElementKind) : Operation → Bool
  | createComponent _ _ _ _ _ => kind == .component
  | slotOutlet _ _ _ _ => kind == .slotOutlet
  | _ => false

/-- The first operation uses no node that the second one creates, except that it attaches something
to a component or slot outlet. `P` says which elements have which ids. -/
def UsesNoLater (P : Element → Nat → Prop) (earlier later : Operation) : Prop :=
  ∀ x, later.created? = some x → x ∈ earlier.named →
    ∃ e, P e x ∧ (∃ a ∈ e.attributes, a.isAttached e.kind = true) ∧
      earlier.attaches = true ∧ later.creates e.kind = true

variable {P Q : Element → Nat → Prop} {earlier later : Operation}

theorem UsesNoLater.mono (h : UsesNoLater P earlier later) (hPQ : ∀ e x, P e x → Q e x) :
    UsesNoLater Q earlier later := by
  intro x hcreated hnamed
  obtain ⟨e, he, hrest⟩ := h x hcreated hnamed
  exact ⟨e, hPQ e x he, hrest⟩

theorem UsesNoLater.of_created? (h : later.created? = none) : UsesNoLater P earlier later := by
  intro x hcreated
  simp [h] at hcreated

end Operation

/-- A directive that leads to an operation on a component or slot outlet is attached. -/
theorem isAttached_of_ofAttribute {a : Attribute} {d : Directive} {kind : ElementKind}
    (ha : Property.ofAttribute a = .ok (.bound d))
    (hd : d.name = "ref" ∨ d.name = "model" ∧ kind ≠ .component ∨
      isBuiltinDirective d.name = false) : a.isAttached kind = true := by
  have hbuiltin : ∀ name ∈ ["bind", "on", "class", "style"], d.name ≠ name := by
    rintro name hname rfl
    simp only [List.mem_cons, List.not_mem_nil, or_false] at hname
    rcases hname with hname | hname | hname | hname <;>
      simp [hname, isBuiltinDirective, BuiltinDirective.all, BuiltinDirective.name] at hd
  cases a with
  | plain name value location =>
    simp only [Property.ofAttribute, plainProperty] at ha
    (repeat' split at ha) <;> cases ha <;> exact absurd rfl (hbuiltin "bind" (by simp))
  | spread code location =>
    cases ha
    exact absurd rfl (hbuiltin "bind" (by simp))
  | directive written name modifiers value location =>
    obtain ⟨_, hd', ⟨⟩⟩ :=
      Property.toDirective_of_ofAttribute (w := ⟨written, name, modifiers, value, location⟩) ha
    have hdeed : written.deed? name = some d.name := (WrittenDirective.of_toDirective hd').1
    cases written with
    | action | reference => rfl
    | binding =>
      by_cases hthis : name = "this"
      · simp [Attribute.isAttached, hthis]
      · have hmodel : d.name = "model" := by
          simpa [DirectiveKind.deed?, hthis] using hdeed.symm
        rcases hd with hd | ⟨-, hkind⟩ | hd
        · simp [hmodel] at hd
        · simp [Attribute.isAttached, hkind]
        · simp [hmodel, isBuiltinDirective, BuiltinDirective.all, BuiltinDirective.name] at hd
    | eventHandler | classToggle | styleProperty =>
      simp only [DirectiveKind.deed?, Option.some.injEq] at hdeed
      exact absurd hdeed.symm (hbuiltin _ (by simp))
    | transition | animation | letBinding => simp [DirectiveKind.deed?] at hdeed

/-- What directives contribute to a component or slot outlet is attached to it. -/
theorem Contributes.attaches {o : Options} {names : List String} {e e' : Element} {id : Nat}
    {props : List Property} {d : Directive} {x : Contribution}
    (hkind : e.kind = .component ∨ e.kind = .slotOutlet)
    (hprops : Property.ofAttributes e.attributes = .ok props) (hd : .bound d ∈ props)
    (hsuits : x.op.suits e.kind = true) (h : Contributes o names e' id d x) :
    (∃ a ∈ e.attributes, a.isAttached e.kind = true) ∧ x.op.attaches = true := by
  obtain ⟨a, ha, hproperty⟩ := Property.exists_of_mem hprops hd
  have hattached : _ → ∃ a ∈ e.attributes, a.isAttached e.kind = true :=
    fun hname => ⟨a, ha, isAttached_of_ofAttribute hproperty hname⟩
  cases h with
  | event =>
    rw [dependingOn_op] at hsuits
    rcases hkind with hkind | hkind <;> simp [Operation.suits, hkind] at hsuits
  | model hname =>
    have hother : e.kind ≠ .component := by
      simpa [Contribution.op, Operation.suits] using hsuits
    exact ⟨hattached (.inr (.inl ⟨hname, hother⟩)), rfl⟩
  | plainReference hname => exact ⟨hattached (.inl hname), rfl⟩
  | reference hname => exact ⟨hattached (.inl hname), by rw [dependingOn_op]; rfl⟩
  | action _ hbuiltin => exact ⟨hattached (.inr (.inr hbuiltin)), rfl⟩

/-! ## The order of operations -/

/-- The node or one inside it is the element, with this id. -/
def HasElement (n : Node) (d : NodeInfo) (e : Element) (x : Nat) : Prop :=
  ∃ k, Within n d (.element e) k ∧ k.id = some x

/-- One of the nodes has the element. -/
def HaveElement (ns : List Node) (ds : List NodeInfo) (e : Element) (x : Nat) : Prop :=
  ∃ (i : Nat) (n : Node) (d : NodeInfo), ns[i]? = some n ∧ ds[i]? = some d ∧ HasElement n d e x

theorem HasElement.later {n : Node} {d d' : NodeInfo} {e : Element} {x : Nat}
    (h : HasElement n d e x) (hlater : d.Later d') : HasElement n d' e x := by
  obtain ⟨k, hwithin, hid⟩ := h
  cases hwithin with
  | self => exact ⟨d', .self .., hlater.id x hid⟩
  | child hm hk hwithin => exact ⟨k, .child hm (hlater.children ▸ hk) hwithin, hid⟩

theorem HaveElement.later {ns : List Node} {ds ds' : List NodeInfo} {e : Element} {x : Nat}
    (h : HaveElement ns ds e x) (hlater : List.Forall₂ NodeInfo.Later ds ds') :
    HaveElement ns ds' e x := by
  obtain ⟨i, n, d, hn, hd, he⟩ := h
  obtain ⟨hi, rfl⟩ := List.getElem?_eq_some_iff.mp hd
  have hi' : i < ds'.length := hlater.length_eq ▸ hi
  exact ⟨i, n, _, hn, List.getElem?_eq_getElem hi', he.later (hlater.get hi hi')⟩

theorem HaveElement.cons {n : Node} {ns : List Node} {d : NodeInfo} {ds : List NodeInfo}
    {e : Element} {x : Nat} (h : HaveElement ns ds e x) : HaveElement (n :: ns) (d :: ds) e x := by
  obtain ⟨i, h⟩ := h
  exact ⟨i + 1, h⟩

theorem HaveElement.within {n : Node} {d : NodeInfo} {e : Element} {x : Nat}
    (h : HaveElement n.children d.children e x) : HasElement n d e x := by
  obtain ⟨i, m, k, hm, hk, l, hwithin, hid⟩ := h
  exact ⟨l, .child hm hk hwithin, hid⟩

/-- A visit adds operations that create nodes before they use them. -/
def Orders (c c' : Context) : Prop :=
  (∀ i, c.dynamic.id = some i → i < c.session.nextId) →
    ∃ new, c'.block.operations = c.block.operations ++ new ∧
      new.Pairwise (Operation.UsesNoLater (HasElement c.node c'.dynamic))

section Visits

variable {o : Options} {names : List String} {visit : Transform Unit} {c c' : Context}
  (hconserves : Ensures visit Conserves)
  (hallots : Ensures visit fun c c' => ∃ xs, Allots c xs c')
  (hvisit : Ensures visit Orders)

include hconserves hallots hvisit

theorem VisitsChildren.orders {isFragment : Bool} {frame : Frame} {i : Nat} {ns : List Node}
    (h : VisitsChildren visit isFragment frame i ns c c') :
    ∃ new ds, c'.block.operations = c.block.operations ++ new ∧
      c'.dynamic.children = c.dynamic.children ++ ds ∧
      new.Pairwise (Operation.UsesNoLater (HaveElement ns ds)) := by
  induction h with
  | nil => exact ⟨[], [], by simp, by simp, .nil⟩
  | @cons frame _ i n ns c k c' hframe hrun _ hrest ih =>
    obtain ⟨new₁, hnew₁, hfirst⟩ := hvisit _ _ (hframe.child_fresh c) hrun (by rintro _ ⟨⟩)
    obtain ⟨new₂, ds, hnew₂, hds, hothers⟩ := ih
    obtain ⟨xs, hxs⟩ := hallots _ _ (hframe.child_fresh c) hrun
    obtain ⟨ys, hys⟩ := hrest.allots hconserves hallots
    have hadopt : (c.adopt isFragment (k.settled isFragment)).block.operations =
        k.block.operations := k.settled_operations isFragment
    refine ⟨new₁ ++ new₂, (k.settled isFragment).dynamic :: ds, ?_, ?_,
      List.pairwise_append.mpr ⟨?_, ?_, ?_⟩⟩
    · rw [hnew₂, hadopt, hnew₁, List.append_assoc]
      rfl
    · rw [hds, Context.adopt, List.append_assoc, List.singleton_append]
    · exact hfirst.imp fun h => h.mono fun e x he =>
        ⟨0, n, _, rfl, rfl, he.later (k.settled_later isFragment)⟩
    · exact hothers.imp fun h => h.mono fun _ _ => HaveElement.cons
    · -- What the first child names has its id before the other children are visited.
      intro earlier hearlier later hlater x hcreated hnamed
      obtain ⟨y₁, hy₁, rfl⟩ := List.mem_map.mp (hxs.block.subset_of_operations hnew₁ hearlier)
      obtain ⟨y₂, hy₂, rfl⟩ := List.mem_map.mp (hys.block.subset_of_operations hnew₂ hlater)
      obtain ⟨⟨⟩⟩ | ⟨⟨⟩⟩ | hbefore := hxs.named y₁ hy₁ x hnamed
      have hafter := hys.within y₂ hy₂ x (by simp [Operation.named_of_created? hcreated])
      have hsettled := (k.settled_allots isFragment).nextId
      have hlt : x < x := Nat.lt_of_lt_of_le hbefore.2 (Nat.le_trans hsettled hafter.1)
      exact absurd hlt (Nat.lt_irrefl x)

omit hconserves hallots hvisit in
/-- A node that an operation creates after directives have been carried out on it. -/
theorem Orders.of_created {b : Block} {xs : List Contribution} {op : Operation} {e : Element}
    (hn : c.node = .element e) (hb : b = xs.foldl Block.add c.block)
    (hblock : c'.block = b.add (.once op)) (hid : c'.dynamic.id = op.created?)
    (hop : op.creates e.kind = true)
    (hxs : ∀ x ∈ xs, x.op.isOwn = true ∧
      (∃ a ∈ e.attributes, a.isAttached e.kind = true) ∧ x.op.attaches = true) :
    Orders c c' := by
  intro _
  obtain ⟨new, hnew, hsub⟩ := c.block.operations_add xs
  have hfrom : ∀ earlier ∈ new, ∃ x ∈ xs, x.op = earlier :=
    fun earlier h => List.mem_map.mp (hsub h)
  refine ⟨new ++ [op], ?_, List.pairwise_append.mpr ⟨?_, List.pairwise_singleton .., ?_⟩⟩
  · rw [hblock, hb, ← List.append_assoc, ← hnew]
    rfl
  · refine List.pairwise_of_forall_mem_list fun earlier _ later hlater => ?_
    obtain ⟨x, hx, rfl⟩ := hfrom later hlater
    exact .of_created? (Operation.created?_of_isOwn (hxs x hx).1)
  · intro earlier hearlier later hlater x hcreated _
    obtain ⟨y, hy, rfl⟩ := hfrom earlier hearlier
    rw [List.mem_singleton.mp hlater] at hcreated ⊢
    exact ⟨e, ⟨_, hn ▸ .self .., hid.trans hcreated⟩, (hxs y hy).2.1, (hxs y hy).2.2, hop⟩

/-- An element of the markup: what it does itself creates nothing, and its children are visited after
what it does about its content. -/
theorem orders_native {e : Element} {c₁ c₂ k : Context} {props : List Property}
    {xs : List Contribution} {markup : String} (hc : c.Fresh)
    (h : Builds o names visit e props xs c c₁ c₂ k) : Orders c ((k.closed e).place e markup) := by
  intro hid
  obtain ⟨ys, hys, hown⟩ := h.container.allots
  obtain ⟨zs, hzs⟩ := h.walk.allots hconserves hallots
  obtain ⟨ops, hinsert, hops⟩ := c₂.insertAll_allots
  obtain ⟨before, hbefore, hsub⟩ := hys.block.operations
  obtain ⟨new, ds, hnew, hds, hordered⟩ := h.walk.orders hconserves hallots hvisit
  obtain ⟨after, hafter, hsub'⟩ := (hinsert.block.trans (.of_foldl h.work.block_eq)).operations
  have hidle : ∀ later ∈ after, later.created? = none := by
    intro later hlater
    obtain ⟨x, hx, rfl⟩ := List.mem_map.mp (hsub' hlater)
    rcases List.mem_append.mp hx with hx | hx
    · obtain ⟨op, hop, rfl⟩ := List.mem_map.mp hx
      exact hops op hop
    · exact Operation.created?_of_isOwn (h.isOwn x hx)
  obtain ⟨-, anchors, -, hplaced, -⟩ := c₂.insertAll_names
  have hlater : c₂.insertAll.dynamic.Later ((k.closed e).place e markup).dynamic :=
    h.work.later.trans (k.place_later e markup)
  have hchildren : ((k.closed e).place e markup).dynamic.children = placeAll anchors ds := by
    rw [hlater.children, hplaced, hds, h.childless hc, List.nil_append]
  refine ⟨before ++ new ++ after, ?_, List.pairwise_append.mpr ⟨List.pairwise_append.mpr
    ⟨?_, ?_, ?_⟩, ?_, ?_⟩⟩
  · rw [k.place_block, hafter, hnew, hbefore]
    simp
  · refine List.pairwise_of_forall_mem_list fun earlier _ later hlater => ?_
    obtain ⟨y, hy, rfl⟩ := List.mem_map.mp (hsub hlater)
    exact .of_created? (Operation.created?_of_isOwn (hown y hy).1)
  · refine hordered.imp fun huses => huses.mono fun e' x he' => ?_
    have hafter := he'.later (later_placeAll anchors ds)
    rw [← hchildren] at hafter
    rw [h.node]
    exact HaveElement.within hafter
  · intro earlier hearlier later hlater x hcreated hnamed
    obtain ⟨y, hy, rfl⟩ := List.mem_map.mp (hsub hearlier)
    obtain ⟨z, hz, rfl⟩ := List.mem_map.mp (hzs.block.subset_of_operations hnew hlater)
    have hle := hzs.within z hz x (by simp [Operation.named_of_created? hcreated])
    have hlt : x < c₁.session.nextId := by
      rcases hys.named y hy x hnamed with h | h | h
      · exact Nat.lt_of_lt_of_le (hid x h) hys.nextId
      · rw [hc.children] at h
        cases h
      · exact h.2
    exact absurd (Nat.lt_of_lt_of_le hlt hle.1) (Nat.lt_irrefl x)
  · exact List.pairwise_of_forall_mem_list fun _ _ later hlater => .of_created? (hidle later hlater)
  · exact fun _ _ later hlater => .of_created? (hidle later hlater)

/-- A visit orders what it adds, if the visits inside do. -/
theorem Visits.orders (hc : c.Fresh) (h : Visits o names visit c c') : Orders c c' := by
  have hone : ∀ {k : Context} {op : Operation}, k.block.operations = c.block.operations →
      Orders c (k.add (.once op)) := by
    intro k op hk _
    exact ⟨[op], congrArg (· ++ [op]) hk, List.pairwise_singleton ..⟩
  cases h with
  | absorbed | text | comment | dropped =>
    exact fun _ => ⟨[], by simp [Context.flag, Context.write], .nil⟩
  | interpolation | condition | loop => exact hone rfl
  | @outlet e props others name result xs k fallback s hn hkind hprops hothers hname hwork hxs hresult
      hfallback hsuits =>
    have hid : k.dynamic.id = some c.ownId := hwork.later.id _ c.referenced_id
    refine .of_created hn hwork.block_eq rfl hid (by simp [Operation.creates, hkind])
      fun x hx => ?_
    obtain ⟨d, hd, hx'⟩ := hxs x hx
    exact ⟨hx'.isOwn, hx'.attaches (.inr hkind) hprops (hothers hd) (hsuits x hx)⟩
  | @component e fs slots s s' props result xs k tag asset hn hkind hfs hmake hprops hs' hwork hxs
      hresult hsuits =>
    have hid := congrArg (·.id) ((hwork.inserted visit).1.trans (Context.inserted_dynamic _))
    refine .of_created hn hwork.block_eq rfl hid (by simp [Operation.creates, hkind])
      fun x hx => ?_
    obtain ⟨d, hd, hx'⟩ := hxs x hx
    exact ⟨hx'.isOwn, hx'.attaches (.inl hkind) hprops hd (hsuits x hx)⟩
  | native hn hkind hcontainer hwalk hprops hwork hxs =>
    exact orders_native hconserves hallots hvisit hc
      ⟨hn, hkind, hcontainer, hwalk, hprops, hwork, hxs⟩
  | @fragment f c' hn hwalk =>
    intro _
    obtain ⟨new, ds, hnew, hds, hordered⟩ := hwalk.orders hconserves hallots hvisit
    rw [hc.children, List.nil_append] at hds
    refine ⟨new, hnew, hordered.imp fun huses => huses.mono fun e x he => ?_⟩
    rw [hn]
    exact HaveElement.within (hds ▸ he)

end Visits

theorem visit_orders {o : Options} (hpasses : o.passes = Pass.all) (depth : Nat) :
    Ensures (visit o depth) Orders := by
  refine visit_ensures hpasses (fun depth ih c c' names hc hvisits => ?_) depth
  exact hvisits.orders (visit_conserves hpasses depth) (visit_allots hpasses depth) ih hc

/-! ## Compiled templates -/

/-- Condensing leaves the kinds and attributes of elements as they are. -/
theorem Options.exists_element {o : Options} {root : Fragment} {e : Element}
    (h : .element e ∈ (o.prepare root).nodes) :
    ∃ e', .element e' ∈ root.nodes ∧ e'.kind = e.kind ∧ e'.attributes = e.attributes := by
  obtain ⟨n, hn, hcondensed⟩ := o.prepare_nodes root _ h
  rcases hcondensed with rfl | hcondensed
  · exact ⟨e, hn, rfl, rfl⟩
  · cases n with
    | element e' =>
      obtain rfl := Node.element.inj hcondensed
      obtain ⟨name, kind, attributes, children, location⟩ := e'
      exact ⟨_, hn, rfl, rfl⟩
    | _ => simp [Node.condense] at hcondensed

theorem Within.mem_nodes {n m : Node} {d k : NodeInfo} (h : Within n d m k) : m ∈ n.nodes := by
  induction h with
  | self => exact List.mem_cons_self ..
  | child hm _ _ ih =>
    exact List.mem_cons_of_mem _ (Node.nodes_subset_inside (List.mem_of_getElem? hm) ih)

/-- In every block, the operation that creates a node comes before those that use it. The only
operations that come earlier attach a reference or a directive to the node, which is a component or a
slot outlet with an attribute that says so. -/
theorem compile_creates_before_use {o : Options} {root : Fragment} {r : Compiled}
    (hpasses : o.passes = Pass.all) (h : compile o root = .ok r) :
    ∀ b ∈ r.block.blocks, b.operations.Pairwise fun earlier later =>
      ∀ x, later.created? = some x → x ∈ earlier.named →
        ∃ e, .element e ∈ root.nodes ∧ (∃ a ∈ e.attributes, a.isAttached e.kind = true) ∧
          earlier.attaches = true ∧ later.creates e.kind = true ∧
          ∃ e' d, Within b.node b.dynamic (.element e') d ∧ d.id = some x ∧
            e.kind = e'.kind ∧ e.attributes = e'.attributes := by
  intro b hb
  obtain ⟨names, depth, f, s, s', hf, -, ⟨c, hrun, rfl, -⟩, -⟩ := compile_scoped hpasses h b hb
  have hid : ∀ i, (Context.newBlock (.fragment f) s).dynamic.id = some i →
      i < (Context.newBlock (.fragment f) s).session.nextId := by
    rintro i ⟨⟩
    exact Nat.lt_succ_self _
  have hfresh := Context.newBlock_fresh f s
  obtain ⟨new, hnew, hordered⟩ := visit_orders hpasses depth _ c hfresh hrun hid
  obtain ⟨_, hwalk⟩ := visit_fragment_ok hpasses hfresh rfl hrun
  have hnode : c.toBlock.node = .fragment f := hwalk.samePlace.node
  have hoperations : c.toBlock.operations = new := hnew
  rw [hoperations]
  refine hordered.imp fun huses x hcreated hnamed => ?_
  obtain ⟨e', ⟨d, hwithin, hd⟩, ⟨a, ha, hattached⟩, hattaches, hcreates⟩ := huses x hcreated hnamed
  have he' : Node.element e' ∈ (o.prepare root).nodes := by
    rcases List.mem_cons.mp hwithin.mem_nodes with heq | he
    · cases heq
    · exact hf.nodes_subset he
  obtain ⟨e, he, hkind, hattributes⟩ := Options.exists_element he'
  exact ⟨e, he, ⟨a, hattributes ▸ ha, hkind ▸ hattached⟩, hattaches, hkind ▸ hcreates, e', d,
    hnode ▸ hwithin, hd, hkind, hattributes⟩

/-- A component with a reference and an action, beside nodes of every other kind that is created. -/
def attachedTemplate : Fragment :=
  ⟨[.element ⟨"p", .regular, [.directive .action "focus" [] .absent {}],
      [.interpolation ⟨"a", {}⟩, .element ⟨"br", .regular, [], [], {}⟩,
        .ifBlock ⟨⟨"b", {}⟩, ⟨[], {}⟩, none, false, {}⟩], {}⟩,
    .element ⟨"Widget", .component,
      [.directive .binding "this" [] (.chunks [.code ⟨"widget", {}⟩]) {},
        .directive .action "tip" [] .absent {}],
      [.element ⟨"slot", .slotOutlet, [], [], {}⟩], {}⟩,
    .eachBlock ⟨⟨"xs", {}⟩, "x", none, none, ⟨[.interpolation ⟨"x", {}⟩], {}⟩, none, {}⟩], {}⟩

theorem compile_creates_before_use_attachedTemplate :
    ∃ r, compile {} attachedTemplate = .ok r ∧
      ∀ b ∈ r.block.blocks, b.operations.Pairwise fun earlier later =>
        ∀ x, later.created? = some x → x ∈ earlier.named →
          ∃ e, .element e ∈ attachedTemplate.nodes ∧
            (∃ a ∈ e.attributes, a.isAttached e.kind = true) ∧
            earlier.attaches = true ∧ later.creates e.kind = true ∧
            ∃ e' d, Within b.node b.dynamic (.element e') d ∧ d.id = some x ∧
              e.kind = e'.kind ∧ e.attributes = e'.attributes :=
  exists_ok (by decide +kernel) fun _ => compile_creates_before_use rfl

/-- A component with a reference to it. -/
def referencedWidget : Fragment :=
  ⟨[.element ⟨"Widget", .component,
    [.directive .binding "this" [] (.chunks [.code ⟨"widget", {}⟩]) {}], [], {}⟩], {}⟩

/-- The reference to the component is set before the component is created. -/
theorem referencedWidget_used_before_created :
    ∃ r reference component, compile {} referencedWidget = .ok r ∧
      r.block.operations = [reference, component] ∧ component.created? = some 1 ∧
      1 ∈ reference.named ∧ reference.created? = none := by
  have hok : (compile {} referencedWidget).toOption.map
      (fun r => r.block.operations.map fun op => (op.created?, op.named)) =
      some [(none, [1]), (some 1, [1])] := by decide +kernel
  obtain ⟨r, h, hok⟩ := exists_ok_of_map hok
  simp only [List.map_eq_cons_iff, List.map_eq_nil_iff, Prod.mk.injEq] at hok
  obtain ⟨reference, _, hops, ⟨hnone, hnamed⟩, component, _, rfl, ⟨hcreated, -⟩, rfl⟩ := hok
  exact ⟨r, reference, component, h, hops, hcreated, by simp [hnamed], hnone⟩

end TemplateCompiler
