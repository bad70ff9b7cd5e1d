import TemplateCompiler.Proofs.Insertion.Gaps
import TemplateCompiler.Proofs.Names.Scopes

/-! # What is known of nodes

In every block of a compiled template, what is known of the nodes forms a tree of the same shape as
the nodes themselves, and what is known of each of them fits together, also after placeholders are
placed.
-/

namespace TemplateCompiler

open Template (Element Fragment Node)
open Transform

variable {frame : Frame} {ns : List Node} {xs : List Contribution}

/-! ## Shapes -/

/-- There is something known of each child of a fragment or a regular element, in their order. Other
nodes are leaves. -/
inductive DescribedBy : Node → NodeInfo → Prop
  | leaf {n : Node} {d : NodeInfo} : n.isOpen = false → d.children = [] → DescribedBy n d
  | inner {n : Node} {d : NodeInfo} :
      n.isOpen = true → List.Forall₂ DescribedBy n.children d.children → DescribedBy n d

theorem DescribedBy.congr {n : Node} {d d' : NodeInfo} (h : DescribedBy n d)
    (hchildren : d'.children = d.children) : DescribedBy n d' := by
  cases h with
  | leaf hn hd => exact .leaf hn (hchildren.trans hd)
  | inner hn hd => exact .inner hn (hchildren ▸ hd)

theorem describedBy_of_later {ks ks' : List NodeInfo} (h : List.Forall₂ DescribedBy ns ks)
    (hlater : List.Forall₂ NodeInfo.Later ks ks') : List.Forall₂ DescribedBy ns ks' := by
  induction h generalizing ks' with
  | nil =>
    cases hlater
    exact .nil
  | cons hm _ ih =>
    cases hlater with
    | cons hk hks => exact .cons (hm.congr hk.children) (ih hks)

/-! ## Single nodes -/

namespace NodeInfo

/-- The flags say whether the node has an id. -/
def IsMarked (d : NodeInfo) : Prop := d.id.isSome = d.flags.referenced

/-- The node remembers whether the run time has to know one of its children. -/
def SeesChildren (d : NodeInfo) : Prop := d.hasDynamicChild = d.children.any (·.isDynamic)

/-- What is known of a node fits together. -/
structure IsCoherent (d : NodeInfo) : Prop where
  marked : d.IsMarked
  /-- What is to be inserted can be named. -/
  insert : d.flags.insert = true → d.id.isSome = true
  /-- A placeholder stands in the markup for a node that is to be inserted. -/
  anchored : d.anchor.isSome = true → d.flags.insert = true ∧ d.flags.nonTemplate = false
  /-- All else that is to be inserted leaves no trace in the markup. -/
  apart : d.flags.insert = true → d.anchor = none → d.flags.nonTemplate = true
  children : d.SeesChildren

variable {d d' : NodeInfo}

theorem IsReady.isCoherent (h : d.IsReady) (hmarked : d.IsMarked) (hchildren : d.SeesChildren) :
    d.IsCoherent where
  marked := hmarked
  insert hinsert := (h.insert hinsert).2
  anchored hanchor := by simp [h.anchor] at hanchor
  apart hinsert _ := (h.insert hinsert).1
  children := hchildren

theorem IsCoherent.withAnchor (h : d.IsCoherent) (hinsert : d.flags.insert = true) (a : Nat) :
    (d.withAnchor a).IsCoherent where
  marked := by simpa [IsMarked, NodeInfo.withAnchor, Flags.minus] using h.marked
  insert _ := h.insert hinsert
  anchored _ := by simp [NodeInfo.withAnchor, Flags.minus, hinsert]
  apart _ hanchor := by simp [NodeInfo.withAnchor] at hanchor
  children := h.children

theorem withAnchor_isDynamic (hid : d.id.isSome = true) (a : Nat) :
    (d.withAnchor a).isDynamic = d.isDynamic := by
  simp [isDynamic, withAnchor, hid]

/-- Later on, the node has the same children, and its flags still say whether it has an id. -/
structure Retains (d d' : NodeInfo) : Prop where
  children : d'.children = d.children
  hasDynamicChild : d'.hasDynamicChild = d.hasDynamicChild
  marked : d.IsMarked → d'.IsMarked

namespace Retains

theorem refl (d : NodeInfo) : d.Retains d := ⟨rfl, rfl, fun h => h⟩

theorem trans {d'' : NodeInfo} (h : d.Retains d') (h' : d'.Retains d'') : d.Retains d'' :=
  ⟨h'.children.trans h.children, h'.hasDynamicChild.trans h.hasDynamicChild, h'.marked ∘ h.marked⟩

theorem seesChildren (h : d.Retains d') (hd : d.SeesChildren) : d'.SeesChildren := by
  rw [SeesChildren, h.children, h.hasDynamicChild]
  exact hd

end Retains

end NodeInfo

namespace Context

theorem referenced_retains (c : Context) : c.dynamic.Retains c.referenced.dynamic := by
  cases h : c.dynamic.id with
  | none =>
    refine ⟨c.referenced_children, ?_, fun _ => ?_⟩
    · simp [referenced, h]
    · simp [referenced, NodeInfo.IsMarked, Flags.union, h]
  | some id =>
    rw [referenced_of_some h]
    exact .refl _

theorem flag_retains (c : Context) {flags : Flags} (h : flags.referenced = false) :
    c.dynamic.Retains (c.flag flags).dynamic where
  children := rfl
  hasDynamicChild := rfl
  marked hmarked := by simpa [flag, NodeInfo.IsMarked, Flags.union, h] using hmarked

theorem settled_retains (c : Context) (isFragment : Bool) :
    c.dynamic.Retains (c.settled isFragment).dynamic := by
  have hreferenced := c.referenced_retains
  rcases c.settled_dynamic isFragment with h | h | ⟨_, h⟩
  · rw [h]
    exact c.flag_retains rfl
  · rw [h]
    exact .refl _
  · rw [h]
    exact ⟨hreferenced.children, hreferenced.hasDynamicChild, hreferenced.marked⟩

theorem place_retains (c : Context) (e : Element) (markup : String) :
    c.dynamic.Retains ((c.closed e).place e markup).dynamic := by
  rw [← c.closed_dynamic e]
  unfold place
  split
  · have h : (c.closed e).dynamic.Retains ((c.closed e).referenced.flag .inserted).dynamic :=
      (referenced_retains _).trans (flag_retains _ rfl)
    exact ⟨h.children, h.hasDynamicChild, h.marked⟩
  · exact .refl _

theorem insertAll_isMarked {c : Context} (h : c.dynamic.IsMarked) :
    c.insertAll.dynamic.IsMarked :=
  insertAll_induction (R := fun c c' => c.dynamic.IsMarked → c'.dynamic.IsMarked) c
    (fun _ hc => hc) (fun h h' hc => h' (h hc)) (fun _ _ hc => hc)
    (fun c _ => (referenced_retains c).marked) (fun c _ _ => (referenced_retains c).marked) h

theorem insertAll_hasDynamicChild (c : Context) :
    c.insertAll.dynamic.hasDynamicChild = c.dynamic.hasDynamicChild :=
  insertAll_eq (·.dynamic.hasDynamicChild) c (fun _ _ => rfl)
    (fun c => (referenced_retains c).hasDynamicChild) fun _ _ => rfl

end Context

/-! ## Placeholders -/

/-- The nodes with placeholders are the first ones of the runs that operations insert before
placeholders. -/
structure AnchorsAgree (ops : List Operation) (ds : List NodeInfo) : Prop where
  placed : ∀ d ∈ ds, ∀ a, d.anchor = some a →
    ∃ id ids parent, d.id = some id ∧ .insertNodes (id :: ids) parent (some a) ∈ ops
  used : ∀ ids parent a, .insertNodes ids parent (some a) ∈ ops →
    ∃ d ∈ ds, ∃ id rest, ids = id :: rest ∧ d.id = some id ∧ d.anchor = some a

namespace AnchorsAgree

variable {ops ops' : List Operation} {ds ds' : List NodeInfo}

theorem of_plain (hops : ∀ op ∈ ops, op.anchor? = none) (hds : ∀ d ∈ ds, d.anchor = none) :
    AnchorsAgree ops ds where
  placed d hd a ha := by simp [hds d hd] at ha
  used ids parent a hop := absurd (hops _ hop) (by simp [Operation.anchor?])

theorem append (h : AnchorsAgree ops ds) (h' : AnchorsAgree ops' ds') :
    AnchorsAgree (ops ++ ops') (ds ++ ds') where
  placed d hd a ha := by
    rcases List.mem_append.mp hd with hd | hd
    · obtain ⟨id, ids, parent, hid, hop⟩ := h.placed d hd a ha
      exact ⟨id, ids, parent, hid, List.mem_append_left _ hop⟩
    · obtain ⟨id, ids, parent, hid, hop⟩ := h'.placed d hd a ha
      exact ⟨id, ids, parent, hid, List.mem_append_right _ hop⟩
  used ids parent a hop := by
    rcases List.mem_append.mp hop with hop | hop
    · obtain ⟨d, hd, hrest⟩ := h.used ids parent a hop
      exact ⟨d, List.mem_append_left _ hd, hrest⟩
    · obtain ⟨d, hd, hrest⟩ := h'.used ids parent a hop
      exact ⟨d, List.mem_append_right _ hd, hrest⟩

/-- If all ids are different, a node has the placeholder of the run that it begins. -/
theorem anchor_eq_some_iff (h : AnchorsAgree ops ds) (hnodup : (ds.filterMap (·.id)).Nodup)
    {d : NodeInfo} (hd : d ∈ ds) (a : Nat) : d.anchor = some a ↔
      ∃ id ids parent, d.id = some id ∧ .insertNodes (id :: ids) parent (some a) ∈ ops := by
  constructor
  · exact h.placed d hd a
  · rintro ⟨id, ids, parent, hid, hop⟩
    obtain ⟨d', hd', id', rest, heq, hid', ha⟩ := h.used _ _ _ hop
    obtain ⟨rfl, -⟩ := List.cons.inj heq
    obtain rfl := eq_of_id_eq hnodup hd hd' hid hid'
    exact ha

theorem congr (h : AnchorsAgree ops ds) (hds : ∀ d, d ∈ ds' ↔ d ∈ ds) : AnchorsAgree ops ds' where
  placed d hd := h.placed d ((hds d).mp hd)
  used ids parent a hop := by
    obtain ⟨d, hd, hrest⟩ := h.used ids parent a hop
    exact ⟨d, (hds d).mpr hd, hrest⟩

end AnchorsAgree

namespace Inserting

variable {parent : Nat} {anchors : List (Nat × Nat)} {ops : List Operation}

/-- An anchor is placed in front of a run, and an operation puts the run before it. -/
theorem exists_operation {xs : List Insertion} (h : Inserting parent xs anchors ops) :
    ∀ y ∈ anchors, ∃ x ∈ xs, y.1 = (x.run.map (·.1)).headD 0 ∧
      .insertNodes (x.run.filterMap (·.2.id)) parent (some y.2) ∈ ops := by
  induction h with
  | nil => simp
  | front _ ih | back _ ih =>
    intro y hy
    obtain ⟨x, hx, hhead, hop⟩ := ih y hy
    exact ⟨x, List.mem_cons_of_mem _ hx, hhead, List.mem_cons_of_mem _ hop⟩
  | placeholder _ ih =>
    intro y hy
    rcases List.mem_cons.mp hy with rfl | hy
    · exact ⟨_, List.mem_cons_self .., rfl, List.mem_cons_self ..⟩
    · obtain ⟨x, hx, hhead, hop⟩ := ih y hy
      exact ⟨x, List.mem_cons_of_mem _ hx, hhead, List.mem_cons_of_mem _ hop⟩

theorem exists_anchor {xs : List Insertion} (h : Inserting parent xs anchors ops) {ids : List Nat}
    {p a : Nat} (hop : .insertNodes ids p (some a) ∈ ops) :
    ∃ x ∈ xs, ids = x.run.filterMap (·.2.id) ∧ ((x.run.map (·.1)).headD 0, a) ∈ anchors := by
  induction h with
  | nil => simp at hop
  | front _ ih | back _ ih =>
    obtain ⟨x, hx, hids, hmem⟩ := ih (by simpa using hop)
    exact ⟨x, List.mem_cons_of_mem _ hx, hids, hmem⟩
  | placeholder _ ih =>
    rcases List.mem_cons.mp hop with heq | hop
    · obtain ⟨rfl, -, ha⟩ := Operation.insertNodes.inj heq
      obtain rfl := Option.some.inj ha
      exact ⟨_, List.mem_cons_self .., rfl, List.mem_cons_self ..⟩
    · obtain ⟨x, hx, hids, hmem⟩ := ih hop
      exact ⟨x, List.mem_cons_of_mem _ hx, hids, List.mem_cons_of_mem _ hmem⟩

end Inserting

section Placed

variable {ks : List NodeInfo} {parent : Nat} {anchors : List (Nat × Nat)} {ops : List Operation}

/-- A run begins with a child that has an id. -/
theorem exists_head_of_run (hready : ∀ k ∈ ks, k.IsReady) {x : Insertion}
    (h : x ∈ insertions [] false (ks.zipIdx.map Prod.swap)) :
    ∃ i k id rest, (x.run.map (·.1)).headD 0 = i ∧ x.run.filterMap (·.2.id) = id :: rest ∧
      ks[i]? = some k ∧ k.id = some id := by
  obtain ⟨⟨i, k⟩, rest, hrun⟩ := List.exists_cons_of_ne_nil (insertions_ne_nil x h)
  have hmem : (i, k) ∈ insertedChildren ks := by
    rw [← runs_eq]
    exact List.mem_flatMap.mpr ⟨x, h, by simp [hrun]⟩
  obtain ⟨hk, hinsert⟩ := mem_insertedChildren.mp hmem
  obtain ⟨id, hid⟩ := Option.isSome_iff_exists.mp
    ((hready k (List.mem_of_getElem? hk)).insert hinsert).2
  exact ⟨i, k, id, rest.filterMap (·.2.id), by simp [hrun], by simp [hrun, hid], hk, hid⟩

variable (h : Inserting parent (insertions [] false (ks.zipIdx.map Prod.swap)) anchors ops)

include h

/-- The placeholders of the children are those of the operations that insert them. -/
theorem Inserting.anchorsAgree (hready : ∀ k ∈ ks, k.IsReady) :
    AnchorsAgree ops (placeAll anchors ks) where
  placed d hd a ha := by
    obtain ⟨i, k, hk, -, -, hid, hanchor⟩ := h.mem_placeAll hready hd
    obtain ⟨before, after, hanchors, -⟩ := List.lookup_eq_some_iff.mp (hanchor.symm.trans ha)
    obtain ⟨x, hx, hhead, hop⟩ := h.exists_operation (i, a) (by simp [hanchors])
    obtain ⟨j, k', id, rest, hj, hids, hk', hid'⟩ := exists_head_of_run hready hx
    obtain rfl : i = j := hhead.trans hj
    obtain rfl : k = k' := Option.some.inj (hk.symm.trans hk')
    exact ⟨id, rest, parent, hid.trans hid', hids ▸ hop⟩
  used ids p a hop := by
    obtain ⟨x, hx, rfl, hmem⟩ := h.exists_anchor hop
    obtain ⟨i, k, id, rest, rfl, hids, hk, hid⟩ := exists_head_of_run hready hx
    have hplaced := getElem?_placeAll h.nodup_positions ks ((x.run.map (·.1)).headD 0)
    rw [hk, Option.map_some, anchoredChild, h.lookup_of_mem hmem] at hplaced
    exact ⟨k.withAnchor a, List.mem_of_getElem? hplaced, id, rest, hids, hid, rfl⟩

/-- Placeholders are placed at children which the run time has to know anyway. -/
theorem Inserting.any_isDynamic (hready : ∀ k ∈ ks, k.IsReady) :
    (placeAll anchors ks).any (·.isDynamic) = ks.any (·.isDynamic) := by
  have hmap : (placeAll anchors ks).map (·.isDynamic) = ks.map (·.isDynamic) := by
    refine List.ext_getElem? fun i => ?_
    rw [List.getElem?_map, List.getElem?_map]
    cases hplaced : (placeAll anchors ks)[i]? with
    | none =>
      rw [getElem?_placeAll h.nodup_positions, Option.map_eq_none_iff] at hplaced
      simp [hplaced]
    | some k' =>
      obtain ⟨k, hk, ⟨rfl, -⟩ | ⟨hinsert, a, rfl⟩⟩ := h.getElem?_placed hplaced
      · simp [hk]
      · have hid := ((hready k (List.mem_of_getElem? hk)).insert hinsert).2
        simp [hk, NodeInfo.withAnchor_isDynamic hid]
  have hany : ∀ ds : List NodeInfo, ds.any (·.isDynamic) = (ds.map (·.isDynamic)).any id := by simp
  rw [hany, hmap, hany]

theorem Inserting.isCoherent (hcoherent : ∀ k ∈ ks, k.IsCoherent) :
    ∀ k ∈ placeAll anchors ks, k.IsCoherent := by
  intro k' hk'
  obtain ⟨i, hi⟩ := List.mem_iff_getElem?.mp hk'
  obtain ⟨k, hk, ⟨rfl, -⟩ | ⟨hinsert, a, rfl⟩⟩ := h.getElem?_placed hi
  · exact hcoherent k' (List.mem_of_getElem? hk)
  · exact (hcoherent k (List.mem_of_getElem? hk)).withAnchor hinsert a

end Placed

/-! ## Visits -/

/-- The visit of the node has yet to find out about its children. -/
structure Context.Untouched (c : Context) : Prop where
  marked : c.dynamic.IsMarked
  hasDynamicChild : c.dynamic.hasDynamicChild = false

/-- A visit that leads from `c` to `c'` leaves a tree that mirrors the node. -/
structure Reflects (c c' : Context) : Prop where
  described : DescribedBy c.node c'.dynamic
  marked : c'.dynamic.IsMarked
  children : c'.dynamic.SeesChildren
  inside : ∀ d ∈ c'.dynamic.inside, d.IsCoherent
  operations : ∃ new, c'.block.operations = c.block.operations ++ new ∧
    AnchorsAgree new c'.dynamic.inside

/-- A walk over children does so for each of them. -/
structure WalkReflects (ns : List Node) (c c' : Context) (ks : List NodeInfo) : Prop where
  children : c'.dynamic.children = c.dynamic.children ++ ks
  hasDynamicChild :
    c'.dynamic.hasDynamicChild = (c.dynamic.hasDynamicChild || ks.any (·.isDynamic))
  described : List.Forall₂ DescribedBy ns ks
  ready : ∀ k ∈ ks, k.IsReady
  coherent : ∀ k ∈ ks, k.IsCoherent
  inside : ∀ d ∈ ks.flatMap (·.inside), d.IsCoherent
  operations : ∃ new, c'.block.operations = c.block.operations ++ new ∧
    AnchorsAgree new (ks.flatMap (·.inside))

section Visits

variable {o : Options} {names : List String} {visit : Transform Unit} {c c' : Context}

theorem VisitsChildren.reflects {isFragment : Bool} {i : Nat}
    (hready : Ensures visit fun _ c' => c'.dynamic.IsReady)
    (hvisit : Ensures visit fun c c' => c.Untouched → Reflects c c')
    (h : VisitsChildren visit isFragment frame i ns c c') : ∃ ks, WalkReflects ns c c' ks := by
  induction h with
  | nil =>
    exact ⟨[], by simp, by simp, .nil, by simp, by simp, by simp, [], by simp,
      .of_plain (by simp) (by simp)⟩
  | @cons _ _ i n ns c k c' hframe hrun _ _ ih =>
    obtain ⟨ks, hwalk⟩ := ih
    have hfresh := hframe.child_fresh c
    have hk := hvisit _ _ hfresh hrun ⟨rfl, rfl⟩
    have hkReady := hready _ _ hfresh hrun
    have hsettled := settled_isReady isFragment hkReady.anchor hkReady.insert
    have hretains := k.settled_retains isFragment
    have hinside : (k.settled isFragment).dynamic.inside = k.dynamic.inside := by
      rw [NodeInfo.inside_eq, hretains.children, ← NodeInfo.inside_eq]
    refine ⟨(k.settled isFragment).dynamic :: ks, ?_, ?_, ?_, ?_, ?_, ?_, ?_⟩
    · rw [hwalk.children]
      simp [Context.adopt]
    · rw [hwalk.hasDynamicChild]
      simp [Context.adopt, Bool.or_assoc]
    · exact .cons (hk.described.congr hretains.children) hwalk.described
    · exact List.forall_mem_cons.mpr ⟨hsettled, hwalk.ready⟩
    · refine List.forall_mem_cons.mpr ⟨?_, hwalk.coherent⟩
      exact hsettled.isCoherent (hretains.marked hk.marked) (hretains.seesChildren hk.children)
    · rw [List.flatMap_cons, List.forall_mem_append, hinside]
      exact ⟨hk.inside, hwalk.inside⟩
    · obtain ⟨new₁, hnew₁, hagree₁⟩ := hk.operations
      obtain ⟨new₂, hnew₂, hagree₂⟩ := hwalk.operations
      refine ⟨new₁ ++ new₂, ?_, ?_⟩
      · rw [hnew₂, ← List.append_assoc]
        congr 1
        exact (k.settled_operations isFragment).trans hnew₁
      · rw [List.flatMap_cons, hinside]
        exact hagree₁.append hagree₂

theorem VisitsChildren.isMarked {isFragment : Bool} {i : Nat}
    (h : VisitsChildren visit isFragment frame i ns c c') (hc : c.dynamic.IsMarked) :
    c'.dynamic.IsMarked := by
  rw [NodeInfo.IsMarked, h.id_eq, h.flags_eq]
  exact hc

theorem OwnWork.retains (h : OwnWork c xs c') : c.dynamic.Retains c'.dynamic := by
  cases h with
  | none => exact .refl _
  | some xs actions => exact c.referenced_retains

theorem ContainerWork.retains {e : Element} (h : ContainerWork o names e c c') :
    c.dynamic.Retains c'.dynamic := by
  cases h with
  | idle | literal => exact .refl _
  | markup | text => exact c.referenced_retains

theorem Operation.anchor?_of_parent? {op : Operation} (h : op.parent? = none) :
    op.anchor? = none := by
  cases op <;> simp_all [parent?, anchor?]

theorem Creates.retains {id : Nat} {op : Operation} (h : Creates o names visit c id xs op c') :
    c.dynamic.Retains c'.dynamic := by
  refine ⟨by rw [h.dynamic], by rw [h.dynamic], fun hmarked => ?_⟩
  cases hid : c.dynamic.id <;> simp_all [NodeInfo.IsMarked, h.dynamic]

theorem Reflects.of_leaf (new : List Operation) (hc : c.Fresh) (huntouched : c.Untouched)
    (hn : c.node.isOpen = false) (hretains : c.dynamic.Retains c'.dynamic)
    (hoperations : c'.block.operations = c.block.operations ++ new)
    (hnew : ∀ op ∈ new, op.parent? = none) : Reflects c c' := by
  have hchildren : c'.dynamic.children = [] := hretains.children.trans hc.children
  have hinside : c'.dynamic.inside = [] := by rw [NodeInfo.inside_eq, hchildren, insideAll]
  refine ⟨.leaf hn hchildren, hretains.marked huntouched.marked, ?_, by simp [hinside], new,
    hoperations, .of_plain (fun op hop => Operation.anchor?_of_parent? (hnew op hop)) ?_⟩
  · rw [NodeInfo.SeesChildren, hretains.hasDynamicChild, huntouched.hasDynamicChild, hchildren]
    rfl
  · simp [hinside]

/-- What is inside nodes stays there, whatever becomes of the nodes themselves. -/
theorem mem_insideAll_of_later {ks ks' : List NodeInfo}
    (h : List.Forall₂ NodeInfo.Later ks ks') (d : NodeInfo) :
    d ∈ insideAll ks' ↔ d ∈ ks.flatMap (·.inside) ++ ks' := by
  induction h with
  | nil => simp [insideAll]
  | @cons k k' ks ks' hk _ ih =>
    have hinside : k'.inside = k.inside := by
      rw [NodeInfo.inside_eq, hk.children, ← NodeInfo.inside_eq]
    rw [insideAll, List.mem_append, List.mem_cons, ih, hinside]
    simp only [List.mem_append, List.mem_cons, List.flatMap_cons]
    tauto

section

variable (hready : Ensures visit fun _ c' => c'.dynamic.IsReady)
  (hvisit : Ensures visit fun c c' => c.Untouched → Reflects c c') (hc : c.Fresh)
  (huntouched : c.Untouched)

include hready hvisit hc huntouched

theorem reflects_fragment {f : Fragment} (hn : c.node = .fragment f)
    (h : VisitsChildren visit true frame 0 f.children c c') : Reflects c c' := by
  obtain ⟨ks, hwalk⟩ := h.reflects hready hvisit
  obtain ⟨new, hnew, hagree⟩ := hwalk.operations
  have hks : c'.dynamic.children = ks := by rw [hwalk.children, hc.children, List.nil_append]
  have hinside : ∀ d, d ∈ c'.dynamic.inside ↔ d ∈ ks.flatMap (·.inside) ++ ks := by
    rw [NodeInfo.inside_eq, hks]
    exact mem_insideAll_of_later (List.forall₂_same.mpr fun k _ => .refl k)
  refine ⟨.inner (by simp [hn, Node.isOpen]) ?_, h.isMarked huntouched.marked, ?_, ?_, new, hnew,
    ?_⟩
  · rw [hn, hks]
    exact hwalk.described
  · rw [NodeInfo.SeesChildren, hwalk.hasDynamicChild, huntouched.hasDynamicChild, hks,
      Bool.false_or]
  · intro d hd
    exact (List.mem_append.mp ((hinside d).mp hd)).elim (hwalk.inside d) (hwalk.coherent d)
  · have hroots : AnchorsAgree [] ks := .of_plain (by simp) fun k hk => (hwalk.ready k hk).anchor
    rw [← new.append_nil]
    exact (hagree.append hroots).congr hinside

theorem reflects_native {e : Element} {c₁ c₂ k : Context} {props : List Property} {markup : String}
    (h : Builds o names visit e props xs c c₁ c₂ k) : Reflects c ((k.closed e).place e markup) := by
  obtain ⟨before, hbefore, hbeforeParent⟩ := h.container.parent?_eq
  obtain ⟨after, hafter, hafterParent⟩ := h.work.parent?_eq h.isOwn
  obtain ⟨ks, hwalk⟩ := h.walk.reflects hready hvisit
  obtain ⟨new, hnew, hagree⟩ := hwalk.operations
  obtain ⟨anchors, ops, parent, hplaced, -, hoperations, -, hinserting⟩ := c₂.insertAll_spec
  have hc₁ := h.container.retains
  have hks : c₂.dynamic.children = ks := by
    rw [hwalk.children, hc₁.children, hc.children, List.nil_append]
  rw [hks] at hplaced hinserting
  have hlast : c₂.insertAll.dynamic.Retains ((k.closed e).place e markup).dynamic :=
    h.work.retains.trans (k.place_retains e markup)
  have hfinal := hlast.children.trans hplaced
  have hlater := later_placeAll anchors ks
  have hinside : ∀ d, d ∈ ((k.closed e).place e markup).dynamic.inside ↔
      d ∈ ks.flatMap (·.inside) ++ placeAll anchors ks := by
    rw [NodeInfo.inside_eq, hfinal]
    exact mem_insideAll_of_later hlater
  refine ⟨.inner (by simp [h.node, Node.isOpen, h.kind]) ?_, ?_, ?_, ?_,
    before ++ (new ++ ops) ++ after, ?_, ?_⟩
  · rw [h.node, hfinal]
    exact describedBy_of_later hwalk.described hlater
  · have hc₂ := h.walk.isMarked (hc₁.marked huntouched.marked)
    exact hlast.marked (Context.insertAll_isMarked hc₂)
  · rw [NodeInfo.SeesChildren, hlast.hasDynamicChild, c₂.insertAll_hasDynamicChild, hfinal,
      hinserting.any_isDynamic hwalk.ready, hwalk.hasDynamicChild, hc₁.hasDynamicChild,
      huntouched.hasDynamicChild, Bool.false_or]
  · intro d hd
    exact (List.mem_append.mp ((hinside d).mp hd)).elim (hwalk.inside d)
      (hinserting.isCoherent hwalk.coherent d)
  · rw [k.place_block, hafter, hoperations, hnew, hbefore]
    simp only [List.append_assoc]
  · have hplain : ∀ {ops : List Operation}, (∀ op ∈ ops, op.parent? = none) → AnchorsAgree ops [] :=
      fun hops => .of_plain (fun op hop => Operation.anchor?_of_parent? (hops op hop)) (by simp)
    have hall := ((hplain hbeforeParent).append
      (hagree.append (hinserting.anchorsAgree hwalk.ready))).append (hplain hafterParent)
    rw [List.nil_append, List.append_nil] at hall
    exact hall.congr hinside

/-- A visit leaves a tree that mirrors the node, if the visits inside do. -/
theorem Visits.reflects (h : Visits o names visit c c') : Reflects c c' := by
  cases h.proceeds with
  | absorbed _ hn =>
    refine .of_leaf [] hc huntouched ?_ (c.flag_retains rfl) (by simp [Context.flag]) (by simp)
    revert hn
    cases c.node <;> simp [Node.isAbsorbable, Node.isOpen]
  | text hn | comment hn | dropped hn =>
    exact .of_leaf [] hc huntouched (by simp [hn, Node.isOpen]) (.refl _)
      (by simp [Context.write]) (by simp)
  | created hcreates =>
    obtain ⟨new, hnew, hparent⟩ := hcreates.parent?_eq
    exact .of_leaf new hc huntouched (Node.isOpen_of_isCreated hcreates.isCreated)
      hcreates.retains hnew hparent
  | native hbuilds => exact reflects_native hready hvisit hc huntouched hbuilds
  | fragment hn hchildren => exact reflects_fragment hready hvisit hc huntouched hn hchildren

end

theorem visit_isReady (hpasses : o.passes = Pass.all) (depth : Nat) :
    Ensures (TemplateCompiler.visit o depth) fun _ c' => c'.dynamic.IsReady := by
  intro c c' hc h
  obtain ⟨new, harranges⟩ := visit_arranges hpasses depth c c' hc h
  exact ⟨(visit_conserves hpasses depth c c' hc h).1, harranges.insert⟩

/-- Every visit leaves a tree that mirrors the node. -/
theorem visit_reflects (hpasses : o.passes = Pass.all) (depth : Nat) (c c' : Context)
    (hc : c.Fresh) (huntouched : c.Untouched) (h : TemplateCompiler.visit o depth c = .ok () c') :
    Reflects c c' := by
  refine visit_ensures (R := fun c c' => c.Untouched → Reflects c c') hpasses ?_ depth c c' hc h
    huntouched
  intro depth ih c c' names hc hvisits huntouched
  exact hvisits.reflects (visit_isReady hpasses depth) ih hc huntouched

end Visits

/-! ## Compiled templates -/

/-- In every block of a compiled template, what is known of the nodes mirrors them and fits
together. The nodes with placeholders are the first ones of the runs that are inserted before
placeholders. -/
theorem compile_describes_nodes {o : Options} {root : Fragment} {r : Compiled}
    (hpasses : o.passes = Pass.all) (h : compile o root = .ok r) :
    ∀ b ∈ r.block.blocks, DescribedBy b.node b.dynamic ∧ ∀ d ∈ b.dynamic.nodes, d.IsCoherent ∧
      ∀ a, d.anchor = some a ↔
        ∃ id ids parent, d.id = some id ∧
          .insertNodes (id :: ids) parent (some a) ∈ b.operations := by
  intro b hb
  have hnodup := nodup_ids_of_compile hpasses h hb
  obtain ⟨depth, f, s, s', ⟨k, hrun, rfl, -⟩, -⟩ := compile_made hpasses h b hb
  have hfresh := Context.newBlock_fresh f s
  have hk := visit_reflects hpasses depth _ _ hfresh ⟨rfl, rfl⟩ hrun
  have hready := visit_isReady hpasses depth _ _ hfresh hrun
  obtain ⟨new, hnew, hagree⟩ := hk.operations
  obtain ⟨_, hwalk⟩ := visit_fragment_ok hpasses hfresh rfl hrun
  have hroot : AnchorsAgree [] [k.dynamic] := .of_plain (by simp) (by simpa using hready.anchor)
  have hnodes : AnchorsAgree k.block.operations k.dynamic.nodes := by
    rw [hnew]
    exact hroot.append hagree
  refine ⟨?_, fun d hd => ⟨?_, ?_⟩⟩
  · have hnode : k.node = .fragment f := hwalk.samePlace.node
    rw [Context.toBlock, hnode]
    exact hk.described
  · rcases List.mem_cons.mp hd with rfl | hd
    · exact hready.isCoherent hk.marked hk.children
    · exact hk.inside d hd
  · exact hnodes.anchor_eq_some_iff (hnodup.sublist k.dynamic.filterMap_id_sublist) hd

/-- A condition between texts, a comment that is left out, a text that is taken over, and a
component with children. -/
def annotatedTemplate : Fragment :=
  ⟨[.element ⟨"div", .regular, [],
      [.text ⟨"a", "a", {}⟩,
        .ifBlock ⟨⟨"x", {}⟩, ⟨[.element ⟨"p", .regular, [], [], {}⟩], {}⟩, none, false, {}⟩,
        .comment "b" {}, .element ⟨"b", .regular, [], [], {}⟩, .interpolation ⟨"y", {}⟩,
        .text ⟨"c", "c", {}⟩], {}⟩,
    .element ⟨"Panel", .component, [], [.text ⟨"d", "d", {}⟩], {}⟩], {}⟩

theorem compile_describes_nodes_annotatedTemplate :
    ∃ r, compile { comments := false } annotatedTemplate = .ok r ∧
      ∀ b ∈ r.block.blocks, DescribedBy b.node b.dynamic ∧ ∀ d ∈ b.dynamic.nodes, d.IsCoherent ∧
        ∀ a, d.anchor = some a ↔
          ∃ id ids parent, d.id = some id ∧
            .insertNodes (id :: ids) parent (some a) ∈ b.operations :=
  exists_ok (by decide +kernel) fun _ => compile_describes_nodes rfl

end TemplateCompiler
