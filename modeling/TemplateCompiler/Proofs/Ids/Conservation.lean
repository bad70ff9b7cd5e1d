import TemplateCompiler.Proofs.Transform.Compiles

/-! # No id is lost and none is used twice

An id is either still to be given out, or owned by the node that is visited or by an operation of
its block. No step of a visit changes in how many of these places an id is.
-/

namespace TemplateCompiler

open Template (Branches EachBlock Element Fragment Node)
open Transform

variable {d : NodeInfo} {i : Nat} {xs : List Contribution}

/-! ## Places of an id -/

/-- Whether an id is still to be given out, as a number. -/
def Session.unused (s : Session) (x : Nat) : Nat := if s.nextId ≤ x then 1 else 0

/-- In how many places an id is. -/
def Context.places (c : Context) (x : Nat) : Nat :=
  c.dynamic.ids.count x + c.block.operationIds.count x + c.session.unused x

theorem Session.unused_allocateId (s : Session) (x : Nat) :
    [s.nextId].count x + s.allocateId.2.unused x = s.unused x := by
  change _ + (if s.nextId + 1 ≤ x then 1 else 0) = if s.nextId ≤ x then 1 else 0
  rw [List.count_singleton]
  rcases Nat.lt_trichotomy s.nextId x with h | h | h
  · rw [if_neg (by simp; omega), if_pos (by omega), if_pos (by omega)]
  · simp [h]
  · rw [if_neg (by simp; omega), if_neg (by omega), if_neg (by omega)]

namespace Context

variable (c : Context) (x : Nat)

@[simp] theorem places_flag (flags : Flags) : (c.flag flags).places x = c.places x := by
  simp [places, flag, NodeInfo.ids_eq]

@[simp] theorem places_referenced : c.referenced.places x = c.places x := by
  cases h : c.dynamic.id with
  | some id => rw [referenced_of_some h]
  | none =>
    have hunused := c.session.unused_allocateId x
    simp only [places, referenced, h, Option.isSome_none, NodeInfo.ids_eq, List.count_append,
      Option.toList_none, Option.toList_some, Bool.false_eq_true, ite_false, List.count_nil]
    omega

theorem places_add (y : Contribution) :
    (c.add y).places x = c.places x + y.op.ownedIds.count x := by
  have hadd := (c.block.operationIds_add y).count_eq x
  simp only [places, add, hadd, List.count_append]
  omega

theorem places_add_of_isPlain {y : Contribution} (h : y.op.isPlain = true) :
    (c.add y).places x = c.places x := by
  rw [places_add, Operation.ownedIds_of_isPlain h, List.count_nil, Nat.add_zero]

theorem places_newBlock (n : Node) (s : Session) : (newBlock n s).places x = s.unused x := by
  rw [newBlock, places_referenced]
  simp [places, root, NodeInfo.ids_eq, nodeIds, Block.operationIds, Block.allOperations,
    Block.empty]

end Context

/-! ## Making blocks -/

/-- A visit keeps ids in as many places, and puts no placeholder before its own node. -/
def Conserves (c c' : Context) : Prop :=
  c'.dynamic.anchor = none ∧ ∀ x, c'.places x = c.places x

section Making

variable {visit : Transform Unit} {s s' : Session}
  (hvisit : Ensures visit Conserves)

include hvisit

theorem MakesBlock.unused_eq {f : Fragment} {b : Block}
    (h : MakesBlock visit (.fragment f) s b s') (x : Nat) :
    b.ownedIds.count x + s'.unused x = s.unused x := by
  obtain ⟨c, hrun, rfl, rfl⟩ := h
  have hplaces := (hvisit _ _ (Context.newBlock_fresh f s) hrun).2 x
  rw [Context.places_newBlock] at hplaces
  rw [c.toBlock.ownedIds_perm.count_eq, List.count_append, ← hplaces]
  rfl

theorem Makes.unused_eq {rs : List (List String × Fragment)} {is : List Nat} {bs : List Block}
    (h : Makes visit s rs is bs s') (x : Nat) :
    is.count x + ((bs.flatMap Block.blocks).flatMap Block.ids).count x + s'.unused x =
      s.unused x := by
  induction h with
  | nil => simp
  | @id s _ _ _ _ _ ih =>
    have hid := s.unused_allocateId x
    rw [← List.singleton_append, List.count_append]
    omega
  | note hnotes _ ih => exact ih.trans (by rw [Session.unused, hnotes.nextId, Session.unused])
  | block hb _ ih =>
    have hblock := hb.unused_eq hvisit x
    simp only [List.flatMap_cons, List.flatMap_append, List.count_append, Block.ownedIds] at hblock ⊢
    omega
  | @loop names _ _ s s₁ _ _ _ _ hb _ ih =>
    have hblock := hb.unused_eq hvisit x
    have henter : (s.enterLoop names).unused x = s.unused x := by
      rw [Session.enterLoop_eq]
      rfl
    have hleave : (s₁.leaveLoop names).unused x = s₁.unused x := by
      rw [Session.leaveLoop_eq]
      rfl
    simp only [List.flatMap_cons, List.flatMap_append, List.count_append, Block.ownedIds] at hblock ⊢
    omega

end Making

/-! ## Children -/

section Children

variable {visit : Transform Unit} {isFragment : Bool} {c c' : Context}

theorem Session.unused_addTemplate (s : Session) (text : String) (x : Nat) :
    (s.addTemplate text).2.unused x = s.unused x := by
  unfold addTemplate
  split <;> rfl

theorem Context.places_settled (c : Context) (x : Nat) :
    (c.settled isFragment).places x = c.places x := by
  have hregistered : c.referenced.registered.places x = c.places x := by
    rw [← places_referenced c x]
    unfold registered
    split
    · rfl
    · simp [places, NodeInfo.ids_eq, Session.unused_addTemplate]
  have hreturned : c.returned.places x = c.places x := by
    rw [← hregistered]
    unfold returned
    dsimp only
    split <;> rfl
  unfold settled
  split
  · exact c.places_flag x _
  · split
    · exact hreturned
    · rfl

theorem Context.settled_anchor (c : Context) :
    (c.settled isFragment).dynamic.anchor = c.dynamic.anchor := by
  rcases c.settled_dynamic isFragment with h | h | ⟨_, h⟩
  · rw [h]
    rfl
  · rw [h]
  · rw [h]
    exact c.referenced_anchor

/-- A walk over the children conserves ids, and leaves the children without placeholders. -/
theorem VisitsChildren.conserves {frame : Frame} {ns : List Node} (hvisit : Ensures visit Conserves)
    (h : VisitsChildren visit isFragment frame i ns c c')
    (hc : ∀ d ∈ c.dynamic.children, d.anchor = none) :
    (∀ d ∈ c'.dynamic.children, d.anchor = none) ∧ c'.dynamic.anchor = c.dynamic.anchor ∧
      ∀ x, c'.places x = c.places x := by
  induction h with
  | nil => exact ⟨hc, rfl, fun x => rfl⟩
  | @cons _ _ i n _ c k c' hframe hrun _ _ ih =>
    obtain ⟨hanchor, hplaces⟩ := hvisit _ _ (hframe.child_fresh c) hrun
    have hchildren : ∀ d ∈ (c.adopt isFragment (k.settled isFragment)).dynamic.children,
        d.anchor = none := by
      intro d hd
      rcases List.mem_append.mp hd with hd | hd
      · exact hc d hd
      · rw [List.mem_singleton.mp hd, k.settled_anchor, hanchor]
    obtain ⟨hanchors, hown, hrest⟩ := ih hchildren
    refine ⟨hanchors, hown, fun x => (hrest x).trans ?_⟩
    have hk : (k.settled isFragment).places x = (c.child n i _).places x :=
      (k.places_settled x).trans (hplaces x)
    simp only [Context.places, Context.child, Context.adopt, NodeInfo.ids_eq, nodeIds_append,
      nodeIds, List.append_nil, List.count_append, Option.toList_none, List.count_nil] at hk ⊢
    omega

/-! ## Placeholders -/

theorem count_nodeIds_modify {ds : List NodeInfo} (h : ds[i]? = some d) (f : NodeInfo → NodeInfo)
    (x : Nat) : (nodeIds (ds.modify i f)).count x + d.ids.count x =
      (nodeIds ds).count x + (f d).ids.count x := by
  induction ds generalizing i with
  | nil => simp at h
  | cons e ds ih =>
    cases i with
    | zero =>
      obtain rfl : e = d := by simpa using h
      simp only [List.modify_zero_cons, nodeIds, List.count_append]
      omega
    | succ i =>
      have hrest := ih (i := i) (by simpa using h)
      simp only [List.modify_succ_cons, nodeIds, List.count_append]
      omega

/-- A placeholder where there is none uses one id that was still to be given out. -/
theorem Context.places_anchored (h : c.dynamic.children[i]? = some d) (hd : d.anchor = none)
    (x : Nat) : (c.anchored i).places x = c.places x := by
  have hunused := c.session.unused_allocateId x
  have hmodify := count_nodeIds_modify h (NodeInfo.withAnchor c.session.nextId) x
  simp only [places, anchored, NodeInfo.withAnchor, NodeInfo.ids_eq, hd, List.count_append, Option.toList_none,
    Option.toList_some, List.count_nil] at hmodify ⊢
  omega

theorem Context.places_insert {insertion : Insertion} (hi : (insertion.run.map (·.1)).headD 0 = i)
    (h : c.dynamic.children[i]? = some d) (hd : d.anchor = none) (x : Nat) :
    (c.insert insertion).places x = c.places x := by
  obtain ⟨spot, run⟩ := insertion
  cases spot with
  | front | back => exact (places_add_of_isPlain _ x rfl).trans (c.places_referenced x)
  | placeholder =>
    exact (places_add_of_isPlain _ x rfl).trans
      ((places_referenced _ x).trans (places_anchored (hi ▸ h) hd x))

/-- Runs whose children have no placeholders yet can all be inserted. -/
theorem Context.places_insertRuns (insertions : List Insertion) (c : Context)
    (hruns : ∀ insertion ∈ insertions, insertion.run ≠ [])
    (hnodup : ((insertions.flatMap (·.run)).map (·.1)).Nodup)
    (hplain : ∀ i ∈ (insertions.flatMap (·.run)).map (·.1),
      ∃ d, c.dynamic.children[i]? = some d ∧ d.anchor = none) (x : Nat) :
    (insertions.foldl insert c).places x = c.places x := by
  induction insertions generalizing c with
  | nil => rfl
  | cons insertion rest ih =>
    obtain ⟨⟨i, e⟩, run, hrun⟩ := List.exists_cons_of_ne_nil (hruns insertion (by simp))
    have hhead : (insertion.run.map (·.1)).headD 0 = i := by simp [hrun]
    simp only [List.flatMap_cons, hrun, List.cons_append, List.map_cons, List.map_append,
      List.nodup_cons, List.mem_cons] at hnodup hplain
    obtain ⟨d, hd, hanchor⟩ := hplain i (.inl rfl)
    rw [List.foldl_cons, ih]
    · exact places_insert hhead hd hanchor x
    · exact fun r hr => hruns r (by simp [hr])
    · exact (List.nodup_append.mp hnodup.2).2.1
    · -- Another run has no child in common with this one, so its children are as they were.
      intro j hj
      have hne : i ≠ j := fun h => hnodup.1 (List.mem_append_right _ (h ▸ hj))
      obtain ⟨k, hk, hkanchor⟩ := hplain j (.inr (List.mem_append_right _ hj))
      refine ⟨k, ?_, hkanchor⟩
      rw [← hk]
      obtain ⟨spot, all⟩ := insertion
      obtain rfl : all = (i, e) :: run := hrun
      cases spot with
      | front | back => simp [insert, add]
      | placeholder => simp [insert, add, anchored, hne]

theorem Context.places_insertAll (h : ∀ d ∈ c.dynamic.children, d.anchor = none) (x : Nat) :
    c.insertAll.places x = c.places x := by
  have hpositions : ((c.dynamic.children.zipIdx.map Prod.swap).filter
      (·.2.flags.insert)).map (·.1) |>.Sublist (List.range c.dynamic.children.length) := by
    have hrange : (c.dynamic.children.zipIdx.map Prod.swap).map (·.1) =
        List.range c.dynamic.children.length := by
      rw [List.map_map, List.range_eq_range', ← List.zipIdx_map_snd]
      rfl
    exact hrange ▸ List.filter_sublist.map _
  refine places_insertRuns _ c insertions_ne_nil ?_ ?_ x
  · rw [insertions_runs, List.nil_append]
    exact hpositions.nodup List.nodup_range
  · intro i hi
    rw [insertions_runs, List.nil_append] at hi
    have hlt := List.mem_range.mp (hpositions.subset hi)
    exact ⟨c.dynamic.children[i], List.getElem?_eq_getElem hlt, h _ (List.getElem_mem hlt)⟩

theorem Context.insertAll_anchor (c : Context) :
    c.insertAll.dynamic.anchor = c.dynamic.anchor :=
  insertAll_eq (·.dynamic.anchor) c (fun _ _ => rfl) (by simp) fun _ _ => rfl

end Children

/-! ## Visits -/

section Work

variable {o : Options} {names : List String} {e : Element} {props : List Property} {id : Nat}
  {c c' : Context}

theorem Block.count_operationIds_foldl_add (hxs : ∀ y ∈ xs, y.op.isOwn = true) (b : Block) (x : Nat) :
    (xs.foldl add b).operationIds.count x = b.operationIds.count x := by
  induction xs generalizing b with
  | nil => rfl
  | cons y ys ih =>
    rw [List.foldl_cons, ih (fun z hz => hxs z (by simp [hz])), (b.operationIds_add y).count_eq,
      Operation.ownedIds_of_isPlain (Operation.isPlain_of_isOwn (hxs y (by simp))),
      List.nil_append]

/-- Work on a node itself gives out no more than the id of the node. -/
theorem OwnWork.conserves (h : OwnWork c xs c') (hxs : ∀ y ∈ xs, y.op.isOwn = true) :
    c'.dynamic.anchor = c.dynamic.anchor ∧ ∀ x, c'.places x = c.places x := by
  cases h with
  | none => exact ⟨rfl, fun x => rfl⟩
  | some xs actions =>
    refine ⟨c.referenced_anchor, fun x => ?_⟩
    rw [← c.places_referenced x]
    simp only [Context.places, Context.contribute, Block.count_operationIds_foldl_add hxs]
    rfl

theorem ContainerWork.conserves (h : ContainerWork o names e c c') :
    c'.dynamic.anchor = c.dynamic.anchor ∧ ∀ x, c'.places x = c.places x := by
  cases h with
  | idle | literal => exact ⟨rfl, fun x => rfl⟩
  | markup | text =>
    refine ⟨c.referenced_anchor, fun x => ?_⟩
    exact (Context.places_add_of_isPlain _ x rfl).trans (c.places_referenced x)

theorem Context.places_place (c : Context) (e : Element) (markup : String) (x : Nat) :
    ((c.closed e).place e markup).places x = c.places x := by
  have hclosed : (c.closed e).places x = c.places x := by simp [places]
  rw [← hclosed, ← (c.closed e).places_referenced x]
  unfold place
  split
  · simp [places, flag, NodeInfo.ids_eq, Session.unused_addTemplate]
  · exact ((c.closed e).places_referenced x).symm

theorem Context.place_anchor (c : Context) (e : Element) (markup : String) :
    ((c.closed e).place e markup).dynamic.anchor = c.dynamic.anchor := by
  rw [← c.closed_dynamic e]
  unfold place
  split
  · simp [flag]
  · rfl

end Work

section

variable {o : Options} {names : List String} {visit : Transform Unit} {c c' : Context}
  (hvisit : Ensures visit Conserves) (hc : c.Fresh)

include hvisit hc

/-- The ids of the operation and of the blocks it shows are given out when the blocks are made. -/
theorem Creates.conserves {id : Nat} {op : Operation} (h : Creates o names visit c id xs op c') :
    Conserves c c' := by
  refine ⟨by rw [h.dynamic]; exact hc.anchor, fun x => ?_⟩
  obtain ⟨new, hnew, hmakes⟩ := h.makes
  have hid := congrArg (List.count x) hnew
  have hunused := hmakes.unused_eq hvisit x
  have hblock := (Block.operationIds_add (xs.foldl Block.add c.block) (.once op)).count_eq x
  rw [← op.blocks_eq] at hunused
  simp only [Context.places, h.block, h.dynamic, hblock, Contribution.op, Operation.ownedIds,
    Block.count_operationIds_foldl_add h.isOwn, NodeInfo.ids_eq, List.count_append,
    Option.toList_some] at hid hunused ⊢
  omega

/-- What one visit conserves, if the visits inside do. -/
theorem Visits.conserves (h : Visits o names visit c c') : Conserves c c' := by
  cases h.proceeds with
  | absorbed => exact ⟨hc.anchor, fun x => c.places_flag x _⟩
  | text | comment | dropped => exact ⟨hc.anchor, fun x => rfl⟩
  | created hcreates => exact hcreates.conserves hvisit hc
  | native hbuilds =>
    obtain ⟨hanchor₁, hplaces₁⟩ := hbuilds.container.conserves
    obtain ⟨hanchors, hanchor₂, hplaces₂⟩ :=
      hbuilds.walk.conserves hvisit (by simp [hbuilds.childless hc])
    obtain ⟨hanchor₃, hplaces₃⟩ := hbuilds.work.conserves hbuilds.isOwn
    refine ⟨?_, fun x => ?_⟩
    · rw [Context.place_anchor, hanchor₃, Context.insertAll_anchor, hanchor₂, hanchor₁, hc.anchor]
    · rw [Context.places_place, hplaces₃, Context.places_insertAll hanchors, hplaces₂, hplaces₁]
  | fragment hn hwalk =>
    obtain ⟨-, hanchor, hplaces⟩ := hwalk.conserves hvisit (by simp [hc.children])
    exact ⟨hanchor.trans hc.anchor, hplaces⟩

end

/-- Every visit conserves ids. -/
theorem visit_conserves {o : Options} (hpasses : o.passes = Pass.all) (depth : Nat) :
    Ensures (visit o depth) Conserves :=
  visit_ensures hpasses (fun _ ih _ _ _ hc hvisits => hvisits.conserves ih hc) depth

/-! ## Compiled templates -/

/-- A block made in a new session owns all ids that are given out. -/
theorem MakesBlock.ownedIds_perm {o : Options} (hpasses : o.passes = Pass.all) {depth : Nat}
    {f : Fragment} {b : Block} {s : Session}
    (h : MakesBlock (visit o depth) (.fragment f) {} b s) :
    b.ownedIds.Perm (List.range s.nextId) := by
  rw [List.perm_iff_count]
  intro x
  have hx := h.unused_eq (visit_conserves hpasses depth) x
  have hall : ({} : Session).unused x = 1 := if_pos (Nat.zero_le x)
  rw [List.count_range]
  unfold Session.unused at hx hall
  rw [hall] at hx
  split at hx <;> split <;> omega

/-- The ids of a compiled template are the first natural numbers, each owned once: by a node, by a
placeholder or by a test, in the block of the template or in one inside it. The template itself has
the first of them. -/
theorem compile_ids_perm_range {o : Options} {root : Fragment} {r : Compiled}
    (hpasses : o.passes = Pass.all) (h : compile o root = .ok r) :
    r.block.dynamic.id = some 0 ∧
      ∃ n, (r.block.blocks.flatMap Block.ids).Perm (List.range n) := by
  obtain ⟨depth, s, hmakes, -⟩ := compile_ok hpasses h
  refine ⟨?_, s.nextId, hmakes.ownedIds_perm hpasses⟩
  obtain ⟨c, hrun, hblock, -⟩ := hmakes
  obtain ⟨d, hwalk⟩ := visit_fragment_ok hpasses (Context.newBlock_fresh _ _) rfl hrun
  rw [hblock]
  exact hwalk.id_eq

/-- An element with a chain of conditions between two others, and a component that fills a slot. -/
def chainTemplate : Fragment :=
  ⟨[.element ⟨"div", .regular, [],
    [.element ⟨"p", .regular, [], [], {}⟩,
      .ifBlock ⟨⟨"a", {}⟩, ⟨[.interpolation ⟨"a", {}⟩], {}⟩,
        some ⟨[.ifBlock ⟨⟨"b", {}⟩, ⟨[], {}⟩, none, true, {}⟩], {}⟩, false, {}⟩,
      .element ⟨"p", .regular, [], [], {}⟩,
      .element ⟨"Card", .component, [], [.text ⟨"x", "x", {}⟩], {}⟩], {}⟩], {}⟩

theorem compile_ids_perm_range_chainTemplate :
    ∃ r, compile {} chainTemplate = .ok r ∧ r.block.dynamic.id = some 0 ∧
      ∃ n, (r.block.blocks.flatMap Block.ids).Perm (List.range n) :=
  exists_ok (by decide +kernel) fun _ => compile_ids_perm_range rfl

end TemplateCompiler
