import TemplateCompiler.Proofs.Names.Deriving
import TemplateCompiler.Proofs.Template.Nodes

/-! # Blocks are parts of the template

The fragment that a block is made from holds no other nodes than the template it belongs to.
-/

namespace TemplateCompiler

open Template (Branches Element Fragment Node)

variable {o : Options} {names : List String} {ns ms : List Node}

/-- The block is made from a fragment with nodes of `ns` only. -/
def Block.IsPartOf (b : Block) (ns : List Node) : Prop :=
  ∃ f, b.node = .fragment f ∧ f.nodes ⊆ ns

theorem Block.IsPartOf.mono {b : Block} (h : b.IsPartOf ns) (hns : ns ⊆ ms) : b.IsPartOf ms := by
  obtain ⟨f, hf, hsub⟩ := h
  exact ⟨f, hf, List.Subset.trans hsub hns⟩

theorem Block.isPartOf_append {bs bs' : List Block} (h : ∀ b ∈ bs, b.IsPartOf ns)
    (h' : ∀ b ∈ bs', b.IsPartOf ms) : ∀ b ∈ bs ++ bs', b.IsPartOf (ns ++ ms) := by
  intro b hb
  rcases List.mem_append.mp hb with hb | hb
  · exact (h b hb).mono (List.subset_append_left ns ms)
  · exact (h' b hb).mono (List.subset_append_right ns ms)

/-! ## Places and contents -/

/-- What occurs inside nodes occurs at nodes that hold no more than they do. -/
theorem Occurs.source {P : List Node → Nat → Prop} {f : Node → List Node} {d : NodeInfo}
    (hf : ∀ n : Node, ∀ m ∈ n.children, f m ⊆ f n) (h : Occurs P ns d) :
    ∃ ms id, P ms id ∧ ms.flatMap f ⊆ ns.flatMap f := by
  induction h with
  | here _ hP => exact ⟨_, _, hP, List.Subset.refl _⟩
  | @inside n ns d k i _ _ ih =>
    obtain ⟨ms, id, hP, hsub⟩ := ih
    refine ⟨ms, id, hP, fun m hm => ?_⟩
    obtain ⟨n', hn', hm⟩ := List.mem_flatMap.mp (hsub hm)
    rw [List.flatMap_cons]
    exact List.mem_append_left _ (hf n n' (List.mem_of_mem_drop hn') hm)

theorem outletContent_nodes (e : Element) :
    Template.optionalNodes (outletContent? e) ⊆ e.nodes := by
  unfold outletContent?
  split
  · exact List.nil_subset _
  · rw [Template.optionalNodes, Fragment.nodes_eq, e.nodes_eq]
    exact List.Subset.refl _

theorem slotContent_nodes {n : Node} {slot : String × Fragment} (h : slotContent? n = some slot) :
    slot.2.nodes ⊆ n.nodes := by
  cases n with
  | element e =>
    obtain ⟨name, -, ⟨⟩⟩ := Option.bind_eq_some_iff.mp h
    rw [Fragment.nodes_eq]
    split
    · rw [Node.nodes, Node.inside, e.nodes_eq]
      exact List.subset_cons_self _ _
    · simp
  | _ => simp [slotContent?, Node.element?] at h

/-- The slots of a component are filled with what is inside it. -/
theorem slotsOf_nodes {e : Element} {fs : List (String × Fragment)} (h : slotsOf e = .ok fs) :
    fs.flatMap (·.2.nodes) ⊆ e.nodes := by
  have hunnamed : (e.children.filter fun n => (slotContent? n).isNone).flatMap Node.nodes ⊆
      e.children.flatMap Node.nodes :=
    Template.flatMap_nodes_mono (List.filter_subset_self _)
  simp only [slotsOf] at h
  split at h
  · cases h
  · obtain rfl := Except.ok.inj h
    rw [List.flatMap_append, e.nodes_eq]
    refine List.append_subset.mpr ⟨?_, fun m hm => ?_⟩
    · split
      · exact List.nil_subset _
      · simpa [Fragment.nodes_eq] using hunnamed
    · obtain ⟨slot, hslot, hm⟩ := List.mem_flatMap.mp hm
      obtain ⟨n, hn, hcontent⟩ := List.mem_filterMap.mp hslot
      exact Node.nodes_subset_flatMap hn (slotContent_nodes hcontent hm)

/-! ## Blocks -/

mutual

theorem Block.From.parts {names : List String} {f : Fragment} (b : Block)
    (h : b.From o names f) : ∀ p ∈ b.blocks, p.IsPartOf f.nodes := by
  cases b with
  | mk node dynamic effects operations returns =>
    obtain ⟨hnode, hoperations, heffects⟩ := h
    intro p hp
    rw [Block.blocks, List.mem_cons, List.mem_append] at hp
    rcases hp with rfl | hp | hp
    · exact ⟨f, hnode, List.Subset.refl _⟩
    · exact operationsFrom_parts operations hoperations p hp
    · exact effectsFrom_parts effects heffects p hp

theorem effectsFrom_parts {names : List String} {f : Fragment} {d : NodeInfo}
    (effects : List Effect) (h : effectsFrom o names f d effects) :
    ∀ p ∈ effectBlocks effects, p.IsPartOf f.nodes := by
  cases effects with
  | nil => simp [effectBlocks]
  | cons effect effects =>
    cases effect with
    | mk expressions operations =>
      obtain ⟨-, hoperations, hrest⟩ := h
      intro p hp
      rcases List.mem_append.mp hp with hp | hp
      · exact operationsFrom_parts operations hoperations p hp
      · exact effectsFrom_parts effects hrest p hp

theorem operationsFrom_parts {names : List String} {f : Fragment} {d : NodeInfo}
    (ops : List Operation) (h : operationsFrom o names f d ops) :
    ∀ p ∈ operationBlocks ops, p.IsPartOf f.nodes := by
  cases ops with
  | nil => simp [operationBlocks]
  | cons op ops =>
    obtain ⟨hop, hrest⟩ := h
    obtain ⟨ms, id, hfrom, hms⟩ := hop.source (f := Node.inside) fun _ m hm =>
      List.Subset.trans (List.subset_cons_self m m.inside) (Node.nodes_subset_inside hm)
    intro p hp
    rcases List.mem_append.mp hp with hp | hp
    · refine (Operation.From.parts op hfrom p hp).mono ?_
      simpa [Node.inside] using hms
    · exact operationsFrom_parts ops hrest p hp

theorem Operation.From.parts {names : List String} {ns : List Node} {id : Nat} (op : Operation)
    (h : op.From o names ns id) : ∀ p ∈ op.blocks, p.IsPartOf (ns.flatMap Node.inside) := by
  cases op with
  | createComponent i tag groups slots asset =>
    obtain ⟨-, e, rest, props, fs, rfl, -, -, -, hfs, hslots⟩ := h
    intro p hp
    refine (slotsFrom_parts slots hslots p hp).mono (List.Subset.trans (slotsOf_nodes hfs) ?_)
    exact List.subset_append_left _ _
  | branch i test positive negative =>
    obtain ⟨-, b, rest, rfl, -, hpositive, hnegative⟩ := h
    have hnegative' : ∀ p ∈ negative.blocks, p.IsPartOf (Template.optionalNodes b.alternate) :=
      fun p hp => (Alternative.From.parts negative hnegative p hp).mono
        (Template.alternateBranches_nodes b.alternate)
    intro p hp
    cases b
    exact (Block.isPartOf_append (Block.From.parts positive hpositive) hnegative' p hp).mono
      (List.subset_append_left _ _)
  | loop i subject value index key body fallback =>
    obtain ⟨-, b, rest, new, rfl, -, -, -, -, -, hbody, hfallback⟩ := h
    intro p hp
    cases b
    exact (Block.isPartOf_append (Block.From.parts body hbody)
      (optionalFrom_parts fallback hfallback) p hp).mono (List.subset_append_left _ _)
  | slotOutlet i name groups fallback =>
    obtain ⟨-, e, rest, props, others, rfl, -, -, -, -, -, hfallback⟩ := h
    intro p hp
    refine (optionalFrom_parts fallback hfallback p hp).mono
      (List.Subset.trans (outletContent_nodes e) ?_)
    exact List.subset_append_left _ _
  | _ => simp [Operation.blocks]

theorem Alternative.From.parts {names : List String} {branches : Branches} (a : Alternative)
    (h : a.From o names branches) : ∀ p ∈ a.blocks, p.IsPartOf branches.nodes := by
  cases a with
  | nothing => simp [Alternative.blocks]
  | block b =>
    cases branches with
    | otherwise body => exact Block.From.parts b h
    | _ => exact h.elim
  | branch id test positive negative =>
    cases branches with
    | test condition body rest =>
      obtain ⟨-, hpositive, hnegative⟩ := h
      exact Block.isPartOf_append (Block.From.parts positive hpositive)
        (Alternative.From.parts negative hnegative)
    | _ => exact h.elim

theorem slotsFrom_parts {names : List String} {fs : List (String × Fragment)}
    (slots : List (String × Block)) (h : slotsFrom o names fs slots) :
    ∀ p ∈ slotBlocks slots, p.IsPartOf (fs.flatMap (·.2.nodes)) := by
  cases slots with
  | nil => simp [slotBlocks]
  | cons slot slots =>
    cases slot with
    | mk name b =>
      cases fs with
      | nil => exact h.elim
      | cons f fs =>
        obtain ⟨-, hb, hrest⟩ := h
        exact Block.isPartOf_append (Block.From.parts b hb) (slotsFrom_parts slots hrest)

theorem optionalFrom_parts {names : List String} {f : Option Fragment} (b : Option Block)
    (h : optionalFrom o names f b) :
    ∀ p ∈ optionalBlocks b, p.IsPartOf (Template.optionalNodes f) := by
  cases b with
  | none => simp [optionalBlocks]
  | some b =>
    cases f with
    | none => exact h.elim
    | some f => exact Block.From.parts b h

end

/-! ## Compiled templates -/

/-- Every block of a compiled template is a part of the template. -/
theorem compile_parts {root : Fragment} {r : Compiled} (hpasses : o.passes = Pass.all)
    (h : compile o root = .ok r) : ∀ b ∈ r.block.blocks, b.IsPartOf (o.prepare root).nodes := by
  obtain ⟨depth, s, hmake, -⟩ := compile_ok hpasses h
  exact Block.From.parts r.block (hmake.from_fragment (visit_deriving hpasses depth)
    (visit_node_eq hpasses depth) Session.binds_empty)

theorem Options.prepare_nodes (o : Options) (root : Fragment) :
    Template.CondensedFrom (o.prepare root).nodes root.nodes := by
  unfold prepare
  split
  · exact .refl _
  · exact root.condense_nodes

/-- What holds of all nodes of a template, condensed or not, holds of all nodes of its blocks. -/
theorem Block.IsPartOf.forall_nodes {b : Block} {root : Fragment}
    (h : b.IsPartOf (o.prepare root).nodes) {p : Node → Prop}
    (hcondense : ∀ n : Node, p n → p n.condense) (hroot : ∀ n ∈ root.nodes, p n) :
    ∃ f, b.node = .fragment f ∧ ∀ n ∈ f.nodes, p n := by
  obtain ⟨f, hf, hsub⟩ := h
  refine ⟨f, hf, fun n hn => ?_⟩
  obtain ⟨m, hm, rfl | rfl⟩ := o.prepare_nodes root n (hsub hn)
  · exact hroot _ hm
  · exact hcondense m (hroot m hm)

end TemplateCompiler
