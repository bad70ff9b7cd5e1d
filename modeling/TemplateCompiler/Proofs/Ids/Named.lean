import TemplateCompiler.Proofs.Insertion.Markup

/-! # Operations name nodes of their block

Every id that an operation names is that of a node of the same block. A node that is created apart
has an id, and one operation creates it unless it has markup of its own.
-/

namespace TemplateCompiler

open Template (Element Fragment Node)
open Transform

variable {xs : List Contribution}

/-! ## Nodes of a block -/

mutual

/-- The nodes inside a node, at any depth. -/
def NodeInfo.inside : NodeInfo → List NodeInfo
  | ⟨_, _, _, children, _, _⟩ => insideAll children

def insideAll : List NodeInfo → List NodeInfo
  | [] => []
  | d :: ds => d :: d.inside ++ insideAll ds

end

/-- The node and all nodes inside it. -/
def NodeInfo.nodes (d : NodeInfo) : List NodeInfo := d :: d.inside

theorem NodeInfo.inside_eq (d : NodeInfo) : d.inside = insideAll d.children := by
  cases d
  rfl

theorem insideAll_eq_flatMap (ds : List NodeInfo) : insideAll ds = ds.flatMap NodeInfo.nodes := by
  induction ds with
  | nil => rfl
  | cons d ds ih => rw [insideAll, List.flatMap_cons, ih, NodeInfo.nodes]

theorem NodeInfo.nodes_subset_inside {d k : NodeInfo} (h : k ∈ d.children) :
    k.nodes ⊆ d.inside := by
  intro m hm
  rw [d.inside_eq, insideAll_eq_flatMap]
  exact List.mem_flatMap.mpr ⟨k, h, hm⟩

mutual

theorem NodeInfo.filterMap_id_sublist (d : NodeInfo) :
    (d.nodes.filterMap (·.id)).Sublist d.ids := by
  cases d with
  | mk id flags anchor children template hasDynamicChild =>
    have hinside := insideAll_filterMap_id_sublist children
    rw [NodeInfo.nodes, NodeInfo.ids, List.append_assoc]
    cases id with
    | none => exact hinside.trans (List.sublist_append_right _ _)
    | some id => exact (hinside.trans (List.sublist_append_right _ _)).cons_cons id

theorem insideAll_filterMap_id_sublist (ds : List NodeInfo) :
    ((insideAll ds).filterMap (·.id)).Sublist (nodeIds ds) := by
  cases ds with
  | nil => exact .refl _
  | cons d ds =>
    rw [insideAll, List.filterMap_append, nodeIds]
    exact d.filterMap_id_sublist.append (insideAll_filterMap_id_sublist ds)

end

/-! ## What operations name -/

namespace Operation

/-- The nodes that the operation works on, creates or puts into another. -/
def named : Operation → List Nat
  | setProp element _ | setDynamicProps element _ | setText element _ | setHtml element _
  | setEvent element _ _ _ _ | setTemplateRef element _ _
  | withDirective element _ _ _ _ _ => [element]
  | createText id _ _ | createComponent id _ _ _ _ | branch id _ _ _ | loop id _ _ _ _ _ _
  | slotOutlet id _ _ _ => [id]
  | insertNodes elements parent _ | prependNodes elements parent => parent :: elements

/-- The ids that the operation names are those of nodes of the tree, and its placeholder is before
one of them. -/
structure NamesWithin (op : Operation) (d : NodeInfo) : Prop where
  named : ∀ x ∈ op.named, ∃ k ∈ d.nodes, k.id = some x
  anchor : ∀ a, op.anchor? = some a → ∃ k ∈ d.inside, k.anchor = some a

variable {op : Operation} {d d' : NodeInfo}

theorem NamesWithin.later (h : op.NamesWithin d) (hd : d.Later d') : op.NamesWithin d' := by
  have hinside : d'.inside = d.inside := by rw [d'.inside_eq, hd.children, d.inside_eq]
  refine ⟨fun x hx => ?_, hinside ▸ h.anchor⟩
  obtain ⟨k, hk, hid⟩ := h.named x hx
  rcases List.mem_cons.mp hk with rfl | hk
  · exact ⟨d', List.mem_cons_self .., hd.id x hid⟩
  · exact ⟨k, List.mem_cons_of_mem _ (hinside ▸ hk), hid⟩

theorem NamesWithin.of_child (h : op.NamesWithin d) (hd : d ∈ d'.children) :
    op.NamesWithin d' := by
  have hsub := NodeInfo.nodes_subset_inside hd
  constructor
  · intro x hx
    obtain ⟨k, hk, hid⟩ := h.named x hx
    exact ⟨k, List.mem_cons_of_mem _ (hsub hk), hid⟩
  · intro a ha
    obtain ⟨k, hk, hanchor⟩ := h.anchor a ha
    exact ⟨k, hsub (List.mem_cons_of_mem _ hk), hanchor⟩

theorem NamesWithin.of_own {x : Nat} (hnamed : op.named = [x]) (hanchor : op.anchor? = none)
    (hd : d.id = some x) : op.NamesWithin d where
  named := by
    intro y hy
    obtain rfl : y = x := by simpa [hnamed] using hy
    exact ⟨d, List.mem_cons_self .., hd⟩
  anchor := by simp [hanchor]

theorem NamesWithin.of_created {x : Nat} (h : op.created? = some x) (hd : d.id = some x) :
    op.NamesWithin d := by
  cases op with
  | createText | createComponent | branch | loop | slotOutlet =>
    obtain rfl := Option.some.inj h
    exact .of_own rfl rfl hd
  | _ => simp [created?] at h

theorem created?_of_isOwn (h : op.isOwn = true) : op.created? = none := by
  cases op <;> simp_all [isOwn, created?]

theorem anchor?_of_isOwn (h : op.isOwn = true) : op.anchor? = none := by
  cases op <;> simp_all [isOwn, anchor?]

end Operation

section Own

variable {o : Options} {names : List String} {e : Element} {id : Nat} {props : List Property}
  {x : Contribution}

theorem Contributes.named_eq {d : Directive} (h : Contributes o names e id d x) :
    x.op.named = [id] := by
  cases h with
  | event | reference => rw [dependingOn_op]; rfl
  | _ => rfl

theorem FromProps.named_eq (h : FromProps o names e id props x) : x.op.named = [id] := by
  rcases h with ⟨d, -, hd⟩ | h
  · exact hd.named_eq
  · cases h <;> rfl

theorem ContributionsFrom.named_eq (h : ContributionsFrom o names e id props xs) :
    ∀ x ∈ xs, x.op.named = [id] := by
  intro x hx
  obtain ⟨d, -, hd⟩ := h x hx
  exact hd.named_eq

end Own

/-! ## Created nodes -/

/-- The nodes that the operations of a block create. -/
def Block.created (b : Block) : List Nat := b.allOperations.filterMap (·.created?)

/-- The id of a node that is created apart without markup of its own. -/
def NodeInfo.creation? (d : NodeInfo) : Option Nat :=
  if d.flags.insert && d.template.isNone then d.id else none

theorem Block.created_add (b : Block) (x : Contribution) :
    (b.add x).created.Perm (x.op.created?.toList ++ b.created) := by
  refine ((b.allOperations_add x).filterMap _).trans ?_
  cases h : x.op.created? with
  | none => rw [List.filterMap_cons_none h]; exact .refl _
  | some id => rw [List.filterMap_cons_some h]; exact .refl _

theorem Block.count_created_add (b : Block) {op : Operation} {id : Nat}
    (h : op.created? = some id) (x : Nat) :
    (b.add (.once op)).created.count x = b.created.count x + [id].count x := by
  rw [(b.created_add (.once op)).count_eq, Contribution.op, h, Option.toList_some,
    List.count_append, Nat.add_comm]

theorem Block.created_foldl_add (h : ∀ x ∈ xs, x.op.created? = none) (b : Block) :
    (xs.foldl add b).created.Perm b.created := by
  induction xs generalizing b with
  | nil => exact .refl _
  | cons x xs ih =>
    refine (ih (fun y hy => h y (by simp [hy])) (b.add x)).trans ((b.created_add x).trans ?_)
    rw [h x (by simp)]
    exact .refl _

/-! ## Visits -/

/-- A visit adds operations that name nodes of the tree, and creates those that are to be
inserted. -/
structure Names (c c' : Context) : Prop where
  named : ∀ op ∈ c'.block.allOperations, op ∈ c.block.allOperations ∨ op.NamesWithin c'.dynamic
  created : ∀ x, c'.block.created.count x =
    c.block.created.count x + (c'.dynamic.nodes.filterMap NodeInfo.creation?).count x
  identified : ∀ k ∈ c'.dynamic.nodes, k.flags.insert = true → k.id.isSome = true
  /-- What is created apart leaves no markup to its parent. -/
  apart : c'.dynamic.flags.insert = true → c'.template = ""

/-- A walk over children does the same, with what is known of the children. -/
structure WalkNames (c c' : Context) (ks : List NodeInfo) : Prop where
  children : c'.dynamic.children = c.dynamic.children ++ ks
  named : ∀ op ∈ c'.block.allOperations,
    op ∈ c.block.allOperations ∨ ∃ k ∈ ks, op.NamesWithin k
  created : ∀ x, c'.block.created.count x =
    c.block.created.count x + ((insideAll ks).filterMap NodeInfo.creation?).count x
  identified : ∀ k ∈ insideAll ks, k.flags.insert = true → k.id.isSome = true

section Walk

variable {visit : Transform Unit} {isFragment : Bool} {c c' : Context}

theorem NodeInfo.creation?_of_not_insert {d : NodeInfo} (h : d.flags.insert = false) :
    d.creation? = none := by
  simp [creation?, h]

/-- Settling a child changes nothing about how it is created. -/
theorem Context.settled_creation (k : Context) (isFragment : Bool)
    (hapart : k.dynamic.flags.insert = true → k.template = "")
    (hid : k.dynamic.flags.insert = true → k.dynamic.id.isSome = true) :
    (k.settled isFragment).dynamic.flags.insert = k.dynamic.flags.insert ∧
      (k.settled isFragment).dynamic.creation? = k.dynamic.creation? := by
  have hinsert : k.referenced.registered.dynamic.flags.insert = k.dynamic.flags.insert := by
    unfold registered
    split <;> simp
  unfold settled
  split
  · exact ⟨by simp [flag, Flags.union], by simp [flag, Flags.union, NodeInfo.creation?]⟩
  · split
    · rw [k.returned_dynamic]
      refine ⟨hinsert, ?_⟩
      cases hflag : k.dynamic.flags.insert with
      | false =>
        rw [NodeInfo.creation?_of_not_insert hflag,
          NodeInfo.creation?_of_not_insert (hinsert.trans hflag)]
      | true =>
        obtain ⟨id, hsome⟩ := Option.isSome_iff_exists.mp (hid hflag)
        rw [referenced_of_some hsome, registered, if_pos (by simp [hapart hflag])]
    · exact ⟨rfl, rfl⟩

theorem NodeInfo.nodes_creation {d d' : NodeInfo} (hchildren : d'.children = d.children)
    (hcreation : d'.creation? = d.creation?) :
    d'.nodes.filterMap NodeInfo.creation? = d.nodes.filterMap NodeInfo.creation? := by
  rw [nodes, nodes, d'.inside_eq, d.inside_eq, hchildren]
  cases h : d.creation? with
  | none => rw [List.filterMap_cons_none h, List.filterMap_cons_none (hcreation.trans h)]
  | some id => rw [List.filterMap_cons_some h, List.filterMap_cons_some (hcreation.trans h)]

theorem VisitsChildren.names {frame : Frame} {i : Nat} {ns : List Node}
    (hvisit : Ensures visit Names)
    (h : VisitsChildren visit isFragment frame i ns c c') : ∃ ks, WalkNames c c' ks := by
  induction h with
  | nil => exact ⟨[], by simp, fun op hop => .inl hop, by simp [insideAll], by simp [insideAll]⟩
  | @cons _ _ i n ns c k c' hframe hrun _ _ ih =>
    obtain ⟨ks, hwalk⟩ := ih
    have hk := hvisit _ _ (hframe.child_fresh c) hrun
    have hlater := k.settled_later isFragment
    obtain ⟨hinsert, hcreation⟩ := k.settled_creation isFragment hk.apart
      (hk.identified k.dynamic (List.mem_cons_self ..))
    have hoperations : (c.adopt isFragment (k.settled isFragment)).block.allOperations =
        k.block.allOperations := k.settled_allOperations isFragment
    refine ⟨(k.settled isFragment).dynamic :: ks, ?_, ?_, ?_, ?_⟩
    · rw [hwalk.children]
      simp [Context.adopt]
    · intro op hop
      rcases hwalk.named op hop with hop | ⟨d, hd, hnames⟩
      · rw [hoperations] at hop
        refine (hk.named op hop).imp id fun hnames => ?_
        exact ⟨_, List.mem_cons_self .., hnames.later hlater⟩
      · exact .inr ⟨d, List.mem_cons_of_mem _ hd, hnames⟩
    · intro x
      have hchild := hk.created x
      rw [hwalk.created, Block.created, hoperations]
      rw [← NodeInfo.nodes_creation hlater.children hcreation] at hchild
      rw [insideAll, List.filterMap_append, List.count_append, ← NodeInfo.nodes]
      exact (congrArg (· + _) hchild).trans (Nat.add_assoc _ _ _)
    · intro d hd hflag
      rcases List.mem_append.mp hd with hd | hd
      · rcases List.mem_cons.mp hd with rfl | hd
        · obtain ⟨id, hid⟩ := Option.isSome_iff_exists.mp
            (hk.identified k.dynamic (List.mem_cons_self ..) (hinsert ▸ hflag))
          simp [hlater.id id hid]
        · rw [NodeInfo.inside_eq, hlater.children, ← NodeInfo.inside_eq] at hd
          exact hk.identified d (List.mem_cons_of_mem _ hd) hflag
      · exact hwalk.identified d hd hflag

end Walk

/-! ## Placeholders -/

/-- The node differs at most in its placeholder and in being part of the markup around it. -/
structure NodeInfo.Replaces (d d' : NodeInfo) : Prop where
  id : d'.id = d.id
  insert : d'.flags.insert = d.flags.insert
  template : d'.template = d.template
  children : d'.children = d.children

theorem replaces_placeAll (anchors : List (Nat × Nat)) (ks : List NodeInfo) :
    List.Forall₂ NodeInfo.Replaces ks (placeAll anchors ks) := by
  refine forall₂_placeAll (fun _ => ⟨rfl, rfl, rfl, rfl⟩) (fun d d' a hd => ?_) anchors ks
  exact ⟨hd.id, by simp [NodeInfo.withAnchor, Flags.minus, hd.insert], hd.template, hd.children⟩

section Replaced

variable {ks ks' : List NodeInfo} (h : List.Forall₂ NodeInfo.Replaces ks ks')

include h

theorem insideAll_creation_of_replaces :
    (insideAll ks').filterMap NodeInfo.creation? = (insideAll ks).filterMap NodeInfo.creation? := by
  induction h with
  | nil => rfl
  | cons hd _ ih =>
    rw [insideAll, insideAll, List.filterMap_append, List.filterMap_append, ih, ← NodeInfo.nodes,
      ← NodeInfo.nodes, NodeInfo.nodes_creation hd.children]
    simp only [NodeInfo.creation?, hd.id, hd.insert, hd.template]

theorem identified_of_replaces
    (hks : ∀ k ∈ insideAll ks, k.flags.insert = true → k.id.isSome = true) :
    ∀ k ∈ insideAll ks', k.flags.insert = true → k.id.isSome = true := by
  induction h with
  | nil => exact hks
  | @cons d d' _ _ hd _ ih =>
    simp only [insideAll, List.cons_append, List.forall_mem_cons, List.forall_mem_append] at hks ⊢
    obtain ⟨hself, hinside, hrest⟩ := hks
    refine ⟨?_, ?_, ih hrest⟩
    · rw [hd.id, hd.insert]
      exact hself
    · rwa [NodeInfo.inside_eq, hd.children, ← NodeInfo.inside_eq]

theorem exists_later_of_replaces {k : NodeInfo} (hk : k ∈ ks) : ∃ k' ∈ ks', k.Later k' := by
  induction h with
  | nil => simp at hk
  | cons hd _ ih =>
    rcases List.mem_cons.mp hk with rfl | hk
    · exact ⟨_, List.mem_cons_self .., hd.children, fun i hi => hd.id.trans hi⟩
    · obtain ⟨k', hk', hlater⟩ := ih hk
      exact ⟨k', List.mem_cons_of_mem _ hk', hlater⟩

end Replaced

/-! ## Work on a node -/

section Work

variable {o : Options} {names : List String} {e : Element} {c c' : Context}

theorem OwnWork.id_of_mem {x : Contribution} (h : OwnWork c xs c') (hx : x ∈ xs) :
    c'.dynamic.id = Option.some c.ownId := by
  cases h with
  | none => cases hx
  | some xs actions => exact c.referenced_id

theorem ContainerWork.block_eq (h : ContainerWork o names e c c') :
    ∃ xs : List Contribution, c'.block = xs.foldl Block.add c.block ∧
      ∀ x ∈ xs, x.op.isOwn = true ∧ x.op.named = [c.ownId] ∧ c'.dynamic.id = some c.ownId := by
  cases h with
  | idle | literal => exact ⟨[], rfl, by simp⟩
  | @markup code value =>
    refine ⟨[.whenever [value] (.setHtml c.ownId value)], rfl, fun x hx => ?_⟩
    rw [List.mem_singleton.mp hx]
    exact ⟨rfl, rfl, c.referenced_id⟩
  | @text values =>
    refine ⟨[.whenever values (.setText c.ownId values)], rfl, fun x hx => ?_⟩
    rw [List.mem_singleton.mp hx]
    exact ⟨rfl, rfl, c.referenced_id⟩

theorem Context.place_creation (c : Context) (e : Element) (markup : String)
    (hinsert : c.dynamic.flags.insert = false) (htemplate : c.template = "") :
    (((c.closed e).place e markup).dynamic.flags.insert = true →
      ((c.closed e).place e markup).template = "") ∧
    ((c.closed e).place e markup).dynamic.creation? = none := by
  unfold place
  split
  · exact ⟨fun _ => (c.closed_template e).trans htemplate, by simp [flag, NodeInfo.creation?]⟩
  · have hflag : ((c.closed e).write markup).dynamic.flags.insert = false := by
      simp [write, hinsert]
    exact ⟨by simp [hflag], NodeInfo.creation?_of_not_insert hflag⟩

/-- Inserting children registers operations on the node that name the children. -/
theorem Context.insertAll_names (c : Context) :
    ∃ (ops : List Operation) (anchors : List (Nat × Nat)),
      c.insertAll.block = ops.foldl Block.register c.block ∧
      c.insertAll.dynamic.children = placeAll anchors c.dynamic.children ∧
      ∀ op ∈ ops, op.created? = none ∧ op.NamesWithin c.insertAll.dynamic := by
  obtain ⟨anchors, ops, hchildren, -, hblock, parent, hid, hinserting⟩ :=
    insertRuns_spec (insertions [] false (c.dynamic.children.zipIdx.map Prod.swap)) c
  refine ⟨ops, anchors, hblock, hchildren, fun op hop => ?_⟩
  have hparent := hinserting.parent?_eq op hop
  have hne : insertions [] false (c.dynamic.children.zipIdx.map Prod.swap) ≠ [] := by
    intro hnil
    rw [hnil] at hinserting
    cases hinserting
    cases hop
  have hnamed : op.created? = none ∧ op.named = parent :: op.elements := by
    cases op <;> simp_all [Operation.parent?, Operation.created?, Operation.named,
      Operation.elements]
  refine ⟨hnamed.1, fun x hx => ?_, fun a ha => ?_⟩
  · rw [hnamed.2] at hx
    rcases List.mem_cons.mp hx with rfl | hx
    · exact ⟨_, List.mem_cons_self .., hid hne⟩
    · have hmem : x ∈ ops.flatMap (·.elements) := List.mem_flatMap.mpr ⟨op, hop, hx⟩
      rw [hinserting.flatMap_elements, runs_eq, List.mem_filterMap] at hmem
      obtain ⟨⟨i, k⟩, hk, hkid⟩ := hmem
      obtain ⟨k', hk', hlater⟩ := exists_later_of_replaces (replaces_placeAll anchors _)
        (List.mem_of_getElem? (mem_insertedChildren.mp hk).1)
      refine ⟨k', List.mem_cons_of_mem _ (NodeInfo.nodes_subset_inside (hchildren ▸ hk') ?_),
        hlater.id x hkid⟩
      exact List.mem_cons_self ..
  · have hmem : a ∈ anchors.map (·.2) := by
      rw [← hinserting.filterMap_anchor?]
      exact List.mem_filterMap.mpr ⟨op, hop, ha⟩
    obtain ⟨⟨i, b⟩, hy, rfl⟩ := List.mem_map.mp hmem
    obtain ⟨k, hk, -⟩ := hinserting.anchored hy
    have hplaced := getElem?_placeAll hinserting.nodup_positions c.dynamic.children i
    rw [hk, Option.map_some] at hplaced
    refine ⟨_, NodeInfo.nodes_subset_inside (hchildren ▸ List.mem_of_getElem? hplaced)
      (List.mem_cons_self ..), ?_⟩
    simp [anchoredChild, hinserting.lookup_of_mem hy, NodeInfo.withAnchor]

end Work

/-! ## Rules -/

section Rules

variable {o : Options} {names : List String} {visit : Transform Unit} {c c' : Context}

theorem Names.of_idle (hblock : c'.block = c.block) (hchildren : c'.dynamic.children = [])
    (hinsert : c'.dynamic.flags.insert = false) : Names c c' := by
  have hnodes : c'.dynamic.nodes = [c'.dynamic] := by
    rw [NodeInfo.nodes, NodeInfo.inside_eq, hchildren, insideAll]
  refine ⟨fun op hop => .inl (hblock ▸ hop), fun x => ?_, ?_, by simp [hinsert]⟩
  · simp [hblock, hnodes, NodeInfo.creation?_of_not_insert hinsert]
  · simp [hnodes, hinsert]

/-- A node that one operation creates, after work on it. -/
theorem Creates.namesNode {id : Nat} {op : Operation} (hc : c.Fresh)
    (h : Creates o names visit c id xs op c') : Names c c' := by
  have hid : c'.dynamic.id = some id := by rw [h.dynamic]
  have hchildren : c'.dynamic.children = [] := by rw [h.dynamic]; exact hc.children
  have hnodes : c'.dynamic.nodes = [c'.dynamic] := by
    rw [NodeInfo.nodes, NodeInfo.inside_eq, hchildren, insideAll]
  refine ⟨fun op' hop' => ?_, fun x => ?_, ?_, fun _ => h.template.trans hc.template⟩
  · rw [h.block, Block.mem_allOperations_add, Block.mem_allOperations_foldl_add] at hop'
    rcases hop' with rfl | hop' | hop'
    · exact .inr (.of_created h.created hid)
    · obtain ⟨x, hx, rfl⟩ := List.mem_map.mp hop'
      obtain ⟨e, props, hown⟩ := h.own
      exact .inr (.of_own (hown.named_eq x hx) (Operation.anchor?_of_isOwn (hown.isOwn x hx)) hid)
    · exact .inl hop'
  · rw [h.block, Block.count_created_add _ h.created, hnodes, (Block.created_foldl_add (fun x hx =>
      Operation.created?_of_isOwn (h.isOwn x hx)) c.block).count_eq]
    simp [NodeInfo.creation?, h.dynamic, hc.markup]
  · simp [hnodes, hid]

theorem NodeInfo.nodes_creation_of_none {d : NodeInfo} (h : d.creation? = none) :
    d.nodes.filterMap NodeInfo.creation? = (insideAll d.children).filterMap NodeInfo.creation? := by
  rw [nodes, List.filterMap_cons_none h, inside_eq]

theorem names_native {e : Element} {c₁ c₂ k : Context} {props : List Property} {markup : String}
    (hvisit : Ensures visit Names) (hc : c.Fresh) (h : Builds o names visit e props xs c c₁ c₂ k) :
    Names c ((k.closed e).place e markup) := by
  obtain ⟨ys, hys, hown⟩ := h.container.block_eq
  obtain ⟨ks, hnames⟩ := h.walk.names hvisit
  obtain ⟨ops, anchors, hinserted, hplaced, hops⟩ := c₂.insertAll_names
  have hks : c₂.dynamic.children = ks := by
    rw [hnames.children, h.childless hc, List.nil_append]
  have hlater : c₂.insertAll.dynamic.Later ((k.closed e).place e markup).dynamic :=
    h.work.later.trans (k.place_later e markup)
  have hchildren : ((k.closed e).place e markup).dynamic.children = placeAll anchors ks := by
    rw [hlater.children, hplaced, hks]
  have hreplaces := replaces_placeAll anchors ks
  have hblock : ((k.closed e).place e markup).block =
      xs.foldl Block.add ((ops.map .once).foldl Block.add c₂.block) := by
    rw [k.place_block, h.work.block_eq, hinserted, List.foldl_map]
    rfl
  have hid : ∀ id, c₁.dynamic.id = some id →
      ((k.closed e).place e markup).dynamic.id = some id := by
    intro id hid
    exact hlater.id id (Context.insertRuns_id _ (h.walk.id_eq.trans hid))
  have hflags : k.dynamic.flags.insert = false := h.unplaced.insert.trans hc.insert
  obtain ⟨hapart, hcreation⟩ :=
    k.place_creation e markup hflags (h.unplaced.template.trans hc.template)
  have hself := k.place_insert e markup hflags
  refine ⟨fun op hop => ?_, fun x => ?_, fun d hd hflag => ?_, hapart⟩
  · rw [hblock, Block.mem_allOperations_foldl_add, Block.mem_allOperations_foldl_add,
      List.map_map] at hop
    rcases hop with hop | hop | hop
    · obtain ⟨x, hx, rfl⟩ := List.mem_map.mp hop
      refine .inr (.of_own (h.own x hx).named_eq (Operation.anchor?_of_isOwn (h.isOwn x hx)) ?_)
      exact (k.place_later e markup).id _ (h.work.id_of_mem hx)
    · obtain ⟨op', hop', rfl⟩ := List.mem_map.mp hop
      exact .inr ((hops op' hop').2.later hlater)
    · rcases hnames.named op hop with hop | ⟨d, hd, hwithin⟩
      · rw [hys, Block.mem_allOperations_foldl_add] at hop
        rcases hop with hop | hop
        · obtain ⟨y, hy, rfl⟩ := List.mem_map.mp hop
          obtain ⟨hisOwn, hnamed, hsome⟩ := hown y hy
          exact .inr (.of_own hnamed (Operation.anchor?_of_isOwn hisOwn) (hid _ hsome))
        · exact .inl hop
      · obtain ⟨d', hd', hlater'⟩ := exists_later_of_replaces hreplaces hd
        exact .inr ((hwithin.later hlater').of_child (hchildren ▸ hd'))
  · have hnone : ∀ x ∈ ops.map Contribution.once, x.op.created? = none := by
      intro x hx
      obtain ⟨op, hop, rfl⟩ := List.mem_map.mp hx
      exact (hops op hop).1
    have hcreated := hnames.created x
    rw [hys, (Block.created_foldl_add (fun y hy => Operation.created?_of_isOwn (hown y hy).1)
      c.block).count_eq] at hcreated
    rw [hblock, (Block.created_foldl_add (fun y hy => Operation.created?_of_isOwn (h.isOwn y hy))
      _).count_eq, (Block.created_foldl_add hnone _).count_eq, hcreated,
      NodeInfo.nodes_creation_of_none hcreation, hchildren,
      insideAll_creation_of_replaces hreplaces]
  · rcases List.mem_cons.mp hd with rfl | hd
    · exact (hself hflag).2
    · rw [NodeInfo.inside_eq, hchildren] at hd
      exact identified_of_replaces hreplaces hnames.identified d hd hflag

/-- A visit names and creates, if the visits inside do. -/
theorem Visits.namesNodes (hvisit : Ensures visit Names) (hc : c.Fresh)
    (h : Visits o names visit c c') : Names c c' := by
  cases h.proceeds with
  | absorbed =>
    exact .of_idle rfl hc.children (by simp [Context.flag, Flags.union, hc.insert])
  | text | comment | dropped => exact .of_idle rfl hc.children hc.insert
  | created hcreates => exact hcreates.namesNode hc
  | native hbuilds => exact names_native hvisit hc hbuilds
  | @fragment f c' hn hwalk =>
    obtain ⟨ks, hnames⟩ := hwalk.names hvisit
    have hks : c'.dynamic.children = ks := by
      rw [hnames.children, hc.children, List.nil_append]
    have hinsert : c'.dynamic.flags.insert = false := hwalk.flags_eq ▸ hc.insert
    refine ⟨fun op hop => ?_, fun x => ?_, fun d hd hflag => ?_, by simp [hinsert]⟩
    · refine (hnames.named op hop).imp id fun hwithin => ?_
      obtain ⟨d, hd, hwithin⟩ := hwithin
      exact hwithin.of_child (hks ▸ hd)
    · rw [hnames.created,
        NodeInfo.nodes_creation_of_none (NodeInfo.creation?_of_not_insert hinsert), hks]
    · rcases List.mem_cons.mp hd with rfl | hd
      · simp [hinsert] at hflag
      · rw [NodeInfo.inside_eq, hks] at hd
        exact hnames.identified d hd hflag

/-- Every visit names nodes of the tree and creates those that are to be inserted. -/
theorem visit_names (hpasses : o.passes = Pass.all) (depth : Nat) :
    Ensures (TemplateCompiler.visit o depth) Names :=
  visit_ensures hpasses (fun _ ih _ _ _ hc hvisits => hvisits.namesNodes ih hc) depth

end Rules

end TemplateCompiler
