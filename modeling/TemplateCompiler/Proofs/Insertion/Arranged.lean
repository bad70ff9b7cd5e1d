import TemplateCompiler.Proofs.Ids.Conservation
import TemplateCompiler.Proofs.Insertion.Mount

/-! # Every element shows its children in order

The operations of a block on one of its elements, applied to the pieces of its markup, show the
children of the element in their order. Each child that is created apart is inserted once, and each
placeholder is used once.
-/

namespace TemplateCompiler

open Template (Element Fragment Node)
open Transform

variable {d : NodeInfo} {x : Nat × NodeInfo}

/-! ## Elements of a block -/

/-- A node with what is known of it is `n` with `d`, or inside it in the same block. -/
inductive Within : Node → NodeInfo → Node → NodeInfo → Prop
  | self (n : Node) (d : NodeInfo) : Within n d n d
  | child {n m m' : Node} {d k k' : NodeInfo} {i : Nat} :
      n.children[i]? = some m → d.children[i]? = some k → Within m k m' k' → Within n d m' k'

section

variable {n : Node} {d' : NodeInfo} {P : Node → NodeInfo → Prop}

theorem forall_within (hself : P n d)
    (hchildren : ∀ (i : Nat) m k, n.children[i]? = some m → d.children[i]? = some k →
      ∀ m' k', Within m k m' k' → P m' k') : ∀ m k, Within n d m k → P m k := by
  intro m k hwithin
  cases hwithin with
  | self => exact hself
  | child hm hk hwithin => exact hchildren _ _ _ hm hk _ _ hwithin

theorem forall_getElem?_cons {m : Node} {k : NodeInfo} {ms : List Node} {ks : List NodeInfo}
    (h : P m k) (hrest : ∀ (i : Nat) m k, ms[i]? = some m → ks[i]? = some k → P m k) :
    ∀ (i : Nat) n d, (m :: ms)[i]? = some n → (k :: ks)[i]? = some d → P n d := by
  rintro (_ | i) n d hn hd
  · cases hn
    cases hd
    exact h
  · exact hrest i n d hn hd

theorem forall_within_congr (hchildren : d'.children = d.children) (hself : P n d → P n d')
    (h : ∀ m k, Within n d m k → P m k) : ∀ m k, Within n d' m k → P m k :=
  forall_within (hself (h n d (.self n d))) fun _ _ _ hm hk m' k' hwithin =>
    h m' k' (.child hm (hchildren ▸ hk) hwithin)

end

/-- Among the operations of a block, those on a node with children show the children in their
order. -/
structure Arranged (ops : List Operation) (d : NodeInfo) : Prop where
  /-- Operations on the pieces of the markup show the children in their order. -/
  order : ((ops.filter (·.insertsInto d.id)).foldl Operation.mount d.pieces).filter
    (!·.isPlaceholder) = d.shown
  /-- A child that is created apart is inserted once. -/
  inserted : ∀ k ∈ d.children, k.flags.insert = true →
    ∃ id, k.id = some id ∧ (ops.flatMap (·.elements)).count id = 1
  /-- No two placeholders are the same. -/
  placeholders : (d.children.filterMap (·.anchor)).Nodup
  /-- A placeholder is used once. -/
  used : ∀ k ∈ d.children, ∀ a, k.anchor = some a → ops.countP (·.anchor? == some a) = 1
  /-- The operations use placeholders that are there. -/
  written : ∀ op ∈ ops, op.insertsInto d.id = true → ∀ a, op.anchor? = some a →
    ∃ k ∈ d.children, k.anchor = some a

/-- The ids that an operation puts into its parent or before. -/
def Operation.uses (op : Operation) : List Nat := op.elements ++ op.anchor?.toList

theorem Operation.count_uses (op : Operation) (x : Nat) :
    op.uses.count x = op.elements.count x + op.anchor?.toList.count x :=
  List.count_append

theorem count_elements_le (ops : List Operation) (x : Nat) :
    (ops.flatMap (·.elements)).count x ≤ (ops.flatMap (·.uses)).count x := by
  induction ops with
  | nil => simp
  | cons op ops ih =>
    simp only [List.flatMap_cons, List.count_append, op.count_uses]
    omega

theorem countP_anchor_le (ops : List Operation) (a : Nat) :
    ops.countP (·.anchor? == some a) ≤ (ops.flatMap (·.uses)).count a := by
  induction ops with
  | nil => simp
  | cons op ops ih =>
    have hop : (if (op.anchor? == some a) = true then 1 else 0) ≤ op.anchor?.toList.count a := by
      cases op.anchor? with
      | none => simp
      | some b => by_cases hb : b = a <;> simp [hb]
    simp only [List.countP_cons, List.flatMap_cons, List.count_append, op.count_uses]
    omega

/-- Operations on other nodes change nothing. -/
theorem Arranged.append {before ops after : List Operation} (h : Arranged ops d)
    (hother : ∀ op ∈ before ++ after, op.insertsInto d.id = false)
    (hunique : ∀ x, ((before ++ ops ++ after).flatMap (·.uses)).count x ≤ 1) :
    Arranged (before ++ ops ++ after) d where
  order := by
    have hfilter : ∀ {l : List Operation}, (∀ op ∈ l, op.insertsInto d.id = false) →
        l.filter (·.insertsInto d.id) = [] := by
      intro l hl
      simpa [List.filter_eq_nil_iff] using hl
    rw [List.filter_append, List.filter_append,
      hfilter fun op hop => hother op (List.mem_append_left _ hop),
      hfilter fun op hop => hother op (List.mem_append_right _ hop), List.nil_append,
      List.append_nil]
    exact h.order
  inserted := by
    intro k hk hinsert
    obtain ⟨id, hid, hcount⟩ := h.inserted k hk hinsert
    refine ⟨id, hid, ?_⟩
    have hle := Nat.le_trans (count_elements_le (before ++ ops ++ after) id) (hunique id)
    simp only [List.flatMap_append, List.count_append] at hle ⊢
    omega
  placeholders := h.placeholders
  used := by
    intro k hk a ha
    have hcount := h.used k hk a ha
    have hle := Nat.le_trans (countP_anchor_le (before ++ ops ++ after) a) (hunique a)
    simp only [List.countP_append] at hle ⊢
    omega
  written := by
    intro op hop hinto a ha
    rcases List.mem_append.mp hop with hop | hop
    · rcases List.mem_append.mp hop with hop | hop
      · simp [hother op (List.mem_append_left _ hop)] at hinto
      · exact h.written op hop hinto a ha
    · simp [hother op (List.mem_append_right _ hop)] at hinto

/-! ## Inserting the children of one element -/

namespace Inserting

variable {parent : Nat} {insertions : List Insertion} {anchors : List (Nat × Nat)}
  {ops : List Operation}

section

variable (h : Inserting parent insertions anchors ops)

include h

theorem parent?_eq : ∀ op ∈ ops, op.parent? = some parent := by
  induction h with
  | nil => simp
  | front _ ih | back _ ih | placeholder _ ih => simpa [Operation.parent?] using ih

theorem filterMap_anchor? : ops.filterMap (·.anchor?) = anchors.map (·.2) := by
  induction h with
  | nil => rfl
  | front _ ih | back _ ih => exact ih
  | @placeholder _ _ _ _ a _ ih => exact congrArg (a :: ·) ih

theorem flatMap_elements :
    ops.flatMap (·.elements) = (insertions.flatMap (·.run)).filterMap (·.2.id) := by
  induction h with
  | nil => rfl
  | front _ ih | back _ ih | placeholder _ ih =>
    rw [List.flatMap_cons, List.flatMap_cons, List.filterMap_append, ← ih]
    rfl

theorem count_uses (x : Nat) : (ops.flatMap (·.uses)).count x =
      ((insertions.flatMap (·.run)).filterMap (·.2.id)).count x + (anchors.map (·.2)).count x := by
  rw [← h.flatMap_elements, ← h.filterMap_anchor?]
  clear h
  induction ops with
  | nil => rfl
  | cons op ops ih =>
    have hanchor : ((op :: ops).filterMap (·.anchor?)).count x =
        op.anchor?.toList.count x + (ops.filterMap (·.anchor?)).count x := by
      cases ha : op.anchor? <;> simp [ha, List.count_cons, Nat.add_comm]
    simp only [List.flatMap_cons, List.count_append, op.count_uses, hanchor, ih]
    omega

end

end Inserting

/-- Placeholders are the only ids that placing them adds. -/
theorem count_nodeIds_placeAll {anchors : List (Nat × Nat)} {ds : List NodeInfo}
    (hnodup : (anchors.map (·.1)).Nodup)
    (hplain : ∀ y ∈ anchors, ∃ d, ds[y.1]? = some d ∧ d.anchor = none) (x : Nat) :
    (nodeIds (placeAll anchors ds)).count x =
      (nodeIds ds).count x + (anchors.map (·.2)).count x := by
  induction anchors generalizing ds with
  | nil => simp [placeAll]
  | cons y anchors ih =>
    obtain ⟨i, a⟩ := y
    obtain ⟨hi, hnodup⟩ := List.nodup_cons.mp hnodup
    obtain ⟨d, hd, hanchor⟩ : ∃ d, ds[i]? = some d ∧ d.anchor = none := hplain (i, a) (by simp)
    have hmodify := count_nodeIds_modify hd (NodeInfo.withAnchor a) x
    have hrest := @ih (ds.modify i (NodeInfo.withAnchor a)) hnodup (by
      intro y hy
      obtain ⟨e, he, heanchor⟩ := hplain y (by simp [hy])
      have hne : i ≠ y.1 := fun h => hi (List.mem_map.mpr ⟨y, hy, h.symm⟩)
      exact ⟨e, by simpa [hne] using he, heanchor⟩)
    have hids : (d.withAnchor a).ids.count x = d.ids.count x + [a].count x := by
      simp only [NodeInfo.ids_eq, NodeInfo.withAnchor, hanchor, List.count_append,
        Option.toList_some, Option.toList_none, List.count_nil]
      omega
    have hcons : (((i, a) :: anchors).map (·.2)).count x =
        [a].count x + (anchors.map (·.2)).count x := by
      rw [List.map_cons, ← List.singleton_append, List.count_append]
    change (nodeIds (placeAll anchors (ds.modify i (NodeInfo.withAnchor a)))).count x = _
    omega

section InsertChildren

variable {ks : List NodeInfo} {parent : Nat} {anchors : List (Nat × Nat)} {ops : List Operation}

/-- The children to be inserted, all of them in one run after another. -/
def insertedChildren (ks : List NodeInfo) : List (Nat × NodeInfo) :=
  (ks.zipIdx.map Prod.swap).filter (·.2.flags.insert)

theorem mem_positions : x ∈ ks.zipIdx.map Prod.swap ↔ ks[x.1]? = some x.2 := by
  rw [← List.mk_mem_zipIdx_iff_getElem?, List.mem_map]
  exact ⟨fun ⟨_, hy, heq⟩ => heq ▸ hy, fun h => ⟨_, h, rfl⟩⟩

theorem mem_insertedChildren :
    x ∈ insertedChildren ks ↔ ks[x.1]? = some x.2 ∧ x.2.flags.insert = true := by
  rw [insertedChildren, List.mem_filter, mem_positions]

theorem positions_eq (ks : List NodeInfo) :
    (ks.zipIdx.map Prod.swap).map (·.1) = List.range ks.length := by
  refine List.ext_getElem (by simp) fun i hi hi' => ?_
  simp

theorem runs_eq (ks : List NodeInfo) :
    (insertions [] false (ks.zipIdx.map Prod.swap)).flatMap (·.run) = insertedChildren ks :=
  insertions_runs [] false _

/-- What inserted children are known by are ids of children. -/
theorem filterMap_insertedChildren_sublist (ks : List NodeInfo) :
    ((insertedChildren ks).filterMap (·.2.id)).Sublist (ks.filterMap (·.id)) := by
  have hall : (ks.zipIdx.map Prod.swap).filterMap (·.2.id) = ks.filterMap (·.id) := by
    rw [List.filterMap_map, ← List.zipIdx_map_fst 0 ks, List.filterMap_map]
    simp
  rw [← hall]
  exact List.filter_sublist.filterMap _

variable (h : Inserting parent (insertions [] false (ks.zipIdx.map Prod.swap)) anchors ops)

include h

theorem Inserting.nodup_positions : (anchors.map (·.1)).Nodup := by
  have hsublist := h.positions_sublist insertions_ne_nil
  rw [runs_eq] at hsublist
  have hrange : ((insertedChildren ks).map (·.1)).Sublist (List.range ks.length) := by
    rw [← positions_eq]
    exact List.filter_sublist.map _
  exact List.nodup_range.sublist (hsublist.trans hrange)

theorem Inserting.anchored {y : Nat × Nat} (hy : y ∈ anchors) :
    ∃ k, ks[y.1]? = some k ∧ k.flags.insert = true := by
  have hmem := h.position_mem insertions_ne_nil y hy
  rw [runs_eq] at hmem
  obtain ⟨⟨i, k⟩, hk, hi⟩ := List.mem_map.mp hmem
  obtain rfl : i = y.1 := hi
  exact ⟨k, mem_insertedChildren.mp hk⟩

theorem Inserting.anchors_eq_nil (hks : ∀ k ∈ ks, k.flags.insert = false) : anchors = [] := by
  refine List.eq_nil_iff_forall_not_mem.mpr fun y hy => ?_
  obtain ⟨k, hk, hinsert⟩ := h.anchored hy
  simp [hks k (List.mem_of_getElem? hk)] at hinsert

theorem Inserting.count_placeAll (hready : ∀ k ∈ ks, k.IsReady) (x : Nat) :
    (nodeIds (placeAll anchors ks)).count x =
      (nodeIds ks).count x + (anchors.map (·.2)).count x := by
  refine count_nodeIds_placeAll h.nodup_positions (fun y hy => ?_) x
  obtain ⟨k, hk, -⟩ := h.anchored hy
  exact ⟨k, hk, (hready k (List.mem_of_getElem? hk)).anchor⟩

/-- The operations use the ids of children and the placeholders between them. -/
theorem Inserting.count_uses_le (hready : ∀ k ∈ ks, k.IsReady) (x : Nat) :
    (ops.flatMap (·.uses)).count x + (ks.flatMap (nodeIds ·.children)).count x ≤
      (nodeIds (placeAll anchors ks)).count x := by
  have hids := (filterMap_insertedChildren_sublist ks).count_le x
  have hcount := count_nodeIds ks x
  rw [h.count_uses, runs_eq, h.count_placeAll hready]
  omega

theorem Inserting.lookup_of_mem {y : Nat × Nat} (hy : y ∈ anchors) :
    anchors.lookup y.1 = some y.2 := by
  obtain ⟨before, after, rfl⟩ := List.append_of_mem hy
  refine List.lookup_eq_some_iff.mpr ⟨before, after, rfl, fun z hz => ?_⟩
  have hnodup := h.nodup_positions
  rw [List.map_append, List.nodup_append] at hnodup
  simpa using (hnodup.2.2 z.1 (List.mem_map_of_mem hz) y.1 (by simp)).symm

/-- A child with placeholders placed is one from before, and has the placeholder for its
position. -/
theorem Inserting.mem_placeAll (hready : ∀ k ∈ ks, k.IsReady) {k' : NodeInfo}
    (hk' : k' ∈ placeAll anchors ks) :
    ∃ i k, ks[i]? = some k ∧ k' = (anchoredChild anchors (i, k)).2 ∧
      k'.flags.insert = k.flags.insert ∧ k'.id = k.id ∧ k'.anchor = anchors.lookup i := by
  obtain ⟨i, hi⟩ := List.mem_iff_getElem?.mp hk'
  rw [getElem?_placeAll h.nodup_positions, Option.map_eq_some_iff] at hi
  obtain ⟨k, hk, rfl⟩ := hi
  refine ⟨i, k, hk, rfl, ?_⟩
  cases hlookup : anchors.lookup i with
  | none => simp [anchoredChild, hlookup, (hready k (List.mem_of_getElem? hk)).anchor]
  | some a => simp [anchoredChild, hlookup, NodeInfo.withAnchor, Flags.minus]

theorem Inserting.shownAt_anchoredChild (hx : x ∈ ks.zipIdx.map Prod.swap) :
    shownAt (anchoredChild anchors x) = shownAt x := by
  obtain ⟨i, k⟩ := x
  cases hlookup : anchors.lookup i with
  | none => simp [anchoredChild, hlookup]
  | some a =>
    obtain ⟨before, after, heq, -⟩ := List.lookup_eq_some_iff.mp hlookup
    obtain ⟨k', hk', hinsert⟩ := h.anchored (show (i, a) ∈ anchors by simp [heq])
    obtain rfl : k' = k := Option.some.inj (hk'.symm.trans (mem_positions.mp hx))
    simp [anchoredChild, hlookup, shownAt, NodeInfo.shown?, NodeInfo.withAnchor, Flags.minus,
      hinsert]

/-- The operations on the pieces of the markup show the children in their order. -/
theorem Inserting.order (hready : ∀ k ∈ ks, k.IsReady) (hanchors : (anchors.map (·.2)).Nodup)
    (hchildren : d.children = placeAll anchors ks) (hid : ops ≠ [] → d.id = some parent) :
    ((ops.filter (·.insertsInto d.id)).foldl Operation.mount d.pieces).filter
      (!·.isPlaceholder) = d.shown := by
  have hfilter : ops.filter (·.insertsInto d.id) = ops := by
    refine List.filter_eq_self.mpr fun op hop => ?_
    simp [Operation.insertsInto, h.parent?_eq op hop, hid (List.ne_nil_of_mem hop)]
  have hzip : d.children.zipIdx.map Prod.swap =
      (ks.zipIdx.map Prod.swap).map (anchoredChild anchors) := by
    rw [hchildren, zipIdx_placeAll h.nodup_positions]
  have hpieces : d.pieces =
      ((ks.zipIdx.map Prod.swap).map (anchoredChild anchors)).filterMap pieceAt := by
    rw [← hzip, List.filterMap_map]
    rfl
  have hshown : d.shown = (ks.zipIdx.map Prod.swap).filterMap shownAt := by
    have hsame : (ks.zipIdx.map Prod.swap).filterMap (fun x => shownAt (anchoredChild anchors x)) =
        (ks.zipIdx.map Prod.swap).filterMap shownAt :=
      List.filterMap_congr fun x hx => h.shownAt_anchoredChild hx
    rw [← hsame, ← Function.comp_def shownAt, ← List.filterMap_map, ← hzip, List.filterMap_map]
    rfl
  rw [hfilter, hpieces, hshown]
  refine h.mountedAt_eq (fun x hx => ?_) (by simp) ?_ hanchors
  · exact hready x.2 (List.mem_of_getElem? (mem_positions.mp hx))
  · rw [List.nil_append, positions_eq]
    exact List.nodup_range

/-- The operations on a node with placeholders placed among its children arrange it. -/
theorem Inserting.arranged (hready : ∀ k ∈ ks, k.IsReady)
    (hchildren : d.children = placeAll anchors ks) (hid : ops ≠ [] → d.id = some parent)
    (hnodup : d.ids.Nodup) : Arranged ops d := by
  have hcount : ∀ x, (nodeIds (placeAll anchors ks)).count x ≤ 1 := by
    intro x
    have hle := List.nodup_iff_count.mp hnodup x
    rw [d.ids_eq, hchildren, List.count_append] at hle
    omega
  have huses : ∀ x, (ops.flatMap (·.uses)).count x ≤ 1 := fun x =>
    Nat.le_trans (Nat.le_trans (Nat.le_add_right _ _) (h.count_uses_le hready x)) (hcount x)
  have hanchors : (anchors.map (·.2)).Nodup := by
    refine List.nodup_iff_count.mpr fun x => ?_
    have hle := hcount x
    rw [h.count_placeAll hready] at hle
    omega
  refine ⟨h.order hready hanchors hchildren hid, ?_, ?_, ?_, ?_⟩
  · intro k' hk' hinsert
    obtain ⟨i, k, hk, -, hflag, hkid, -⟩ := h.mem_placeAll hready (hchildren ▸ hk')
    rw [hflag] at hinsert
    obtain ⟨id, hkid'⟩ :=
      Option.isSome_iff_exists.mp ((hready k (List.mem_of_getElem? hk)).insert hinsert).2
    refine ⟨id, hkid.trans hkid', ?_⟩
    have hmem : id ∈ ops.flatMap (·.elements) := by
      rw [h.flatMap_elements, runs_eq, List.mem_filterMap]
      exact ⟨(i, k), mem_insertedChildren.mpr ⟨hk, hinsert⟩, hkid'⟩
    have hpos := List.count_pos_iff.mpr hmem
    have hle := Nat.le_trans (count_elements_le ops id) (huses id)
    omega
  · refine List.nodup_iff_count.mpr fun x => ?_
    have hle := hcount x
    rw [← hchildren, count_nodeIds] at hle
    omega
  · intro k' hk' a ha
    obtain ⟨i, k, -, -, -, -, hanchor⟩ := h.mem_placeAll hready (hchildren ▸ hk')
    rw [hanchor] at ha
    obtain ⟨before, after, heq, -⟩ := List.lookup_eq_some_iff.mp ha
    have hmem : a ∈ ops.filterMap (·.anchor?) := by
      rw [h.filterMap_anchor?, heq]
      simp
    obtain ⟨op, hop, hopa⟩ := List.mem_filterMap.mp hmem
    have hpos : 0 < ops.countP (·.anchor? == some a) :=
      List.countP_pos_iff.mpr ⟨op, hop, by simp [hopa]⟩
    have hle := Nat.le_trans (countP_anchor_le ops a) (huses a)
    omega
  · intro op hop _ a ha
    have hmem : a ∈ anchors.map (·.2) := by
      rw [← h.filterMap_anchor?]
      exact List.mem_filterMap.mpr ⟨op, hop, ha⟩
    obtain ⟨⟨i, b⟩, hy, rfl⟩ := List.mem_map.mp hmem
    obtain ⟨k, hk, -⟩ := h.anchored hy
    have hplaced := getElem?_placeAll h.nodup_positions ks i
    rw [hk, Option.map_some] at hplaced
    refine ⟨_, hchildren ▸ List.mem_of_getElem? hplaced, ?_⟩
    simp [anchoredChild, h.lookup_of_mem hy, NodeInfo.withAnchor]

end InsertChildren

end TemplateCompiler
