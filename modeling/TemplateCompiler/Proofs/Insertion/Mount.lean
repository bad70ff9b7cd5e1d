import TemplateCompiler.Proofs.Transform.Children

/-! # Putting children in their places

The markup of an element leaves out the children that are created apart. Operations put those back,
before all markup, before a placeholder or after all markup. Together they show the children in
their order.
-/

namespace TemplateCompiler

variable {ds run : List (Nat × NodeInfo)}

/-! ## Items -/

/-- What stands among the children of an element at run time. -/
inductive Item
  /-- The child at a position, as part of the markup. -/
  | markup (index : Nat)
  /-- A node that is created apart. -/
  | created (id : Nat)
  | placeholder (id : Nat)
  deriving DecidableEq

def Item.isPlaceholder : Item → Bool
  | placeholder _ => true
  | _ => false

namespace NodeInfo

/-- What the markup of the parent holds for the child at position `i`. -/
def piece? (i : Nat) (d : NodeInfo) : Option Item :=
  match d.anchor with
  | some a => some (.placeholder a)
  | none => if d.flags.nonTemplate then none else some (.markup i)

/-- What the child at position `i` shows up as: on its own, or as part of the markup. -/
def shown? (i : Nat) (d : NodeInfo) : Option Item :=
  if d.flags.insert then d.id.map .created
  else if d.flags.nonTemplate then none
  else some (.markup i)

/-- The pieces of the markup between the tags of an element. -/
def pieces (d : NodeInfo) : List Item := d.children.zipIdx.filterMap fun (k, i) => k.piece? i

/-- The children of an element that show up, in their order. -/
def shown (d : NodeInfo) : List Item := d.children.zipIdx.filterMap fun (k, i) => k.shown? i

end NodeInfo

/-! ## Operations -/

namespace Operation

/-- The node that the operation puts others into. -/
def parent? : Operation → Option Nat
  | insertNodes _ parent _ | prependNodes _ parent => some parent
  | _ => none

/-- The nodes that the operation puts into another. -/
def elements : Operation → List Nat
  | insertNodes elements _ _ | prependNodes elements _ => elements
  | _ => []

/-- The placeholder that the operation puts nodes before. -/
def anchor? : Operation → Option Nat
  | insertNodes _ _ anchor => anchor
  | _ => none

/-- The operation puts nodes into the one with this id, if it has one. -/
def insertsInto (id : Option Nat) (op : Operation) : Bool :=
  op.parent?.any fun parent => id == some parent

/-- What an operation makes of the items inside its parent. -/
def mount (items : List Item) : Operation → List Item
  | prependNodes elements _ => elements.map .created ++ items
  | insertNodes elements _ none => items ++ elements.map .created
  | insertNodes elements _ (some a) =>
    items.flatMap fun x => if x = .placeholder a then elements.map .created ++ [x] else [x]
  | _ => items

end Operation

/-- Inserting runs of children into `parent` places the anchors in front of positions and takes the
operations. -/
inductive Inserting (parent : Nat) :
    List Insertion → List (Nat × Nat) → List Operation → Prop
  | nil : Inserting parent [] [] []
  | front {run : List (Nat × NodeInfo)} {rest : List Insertion} {anchors : List (Nat × Nat)}
      {ops : List Operation} :
      Inserting parent rest anchors ops →
      Inserting parent (⟨.front, run⟩ :: rest) anchors
        (.prependNodes (run.filterMap (·.2.id)) parent :: ops)
  | back {run : List (Nat × NodeInfo)} {rest : List Insertion} {anchors : List (Nat × Nat)}
      {ops : List Operation} :
      Inserting parent rest anchors ops →
      Inserting parent (⟨.back, run⟩ :: rest) anchors
        (.insertNodes (run.filterMap (·.2.id)) parent none :: ops)
  | placeholder {run : List (Nat × NodeInfo)} {rest : List Insertion} {anchors : List (Nat × Nat)}
      {ops : List Operation} {a : Nat} :
      Inserting parent rest anchors ops →
      Inserting parent (⟨.placeholder, run⟩ :: rest) (((run.map (·.1)).headD 0, a) :: anchors)
        (.insertNodes (run.filterMap (·.2.id)) parent (some a) :: ops)

/-- What becomes of a child when anchors are placed in front of positions. -/
def anchoredChild (anchors : List (Nat × Nat)) (x : Nat × NodeInfo) : Nat × NodeInfo :=
  (x.1, ((anchors.lookup x.1).map fun a => x.2.withAnchor a).getD x.2)

/-! ## Mounting -/

namespace Operation

variable {elements : List Nat} {parent a : Nat}

theorem mount_of_notMem {items : List Item} (h : .placeholder a ∉ items) :
    mount items (.insertNodes elements parent (some a)) = items := by
  induction items with
  | nil => rfl
  | cons x items ih =>
    simp only [List.mem_cons, not_or] at h
    have hx : x ≠ .placeholder a := Ne.symm h.1
    simpa [mount, hx] using ih h.2

theorem mount_append (xs ys : List Item) :
    mount (xs ++ ys) (.insertNodes elements parent (some a)) =
      mount xs (.insertNodes elements parent (some a)) ++
        mount ys (.insertNodes elements parent (some a)) := by
  simp [mount]

end Operation

namespace Inserting

variable {parent : Nat} {insertions : List Insertion} {anchors : List (Nat × Nat)}
  {ops : List Operation}

/-- Operations none of which goes to the front leave alone what is before all their anchors. -/
theorem foldl_mount_append (h : Inserting parent insertions anchors ops)
    (hfront : ∀ i ∈ insertions, i.spot ≠ .front) {xs : List Item}
    (hxs : ∀ a ∈ anchors.map (·.2), .placeholder a ∉ xs) (ys : List Item) :
    ops.foldl Operation.mount (xs ++ ys) = xs ++ ops.foldl Operation.mount ys := by
  induction h generalizing ys with
  | nil => rfl
  | @front run rest => exact absurd rfl (hfront ⟨.front, run⟩ (by simp))
  | back _ ih =>
    rw [List.foldl_cons, List.foldl_cons, ← ih (fun i hi => hfront i (by simp [hi])) hxs]
    simp [Operation.mount]
  | @placeholder run rest anchors ops a _ ih =>
    have ha : Item.placeholder a ∉ xs := hxs a (by simp)
    rw [List.foldl_cons, List.foldl_cons, Operation.mount_append, Operation.mount_of_notMem ha]
    exact ih (fun i hi => hfront i (by simp [hi]))
      (fun b hb => hxs b (List.mem_cons_of_mem _ hb)) _

/-- Anchors are placed in front of children that are to be inserted. -/
theorem positions_sublist (h : Inserting parent insertions anchors ops)
    (hruns : ∀ i ∈ insertions, i.run ≠ []) :
    (anchors.map (·.1)).Sublist ((insertions.flatMap (·.run)).map (·.1)) := by
  induction h with
  | nil => exact .refl _
  | front _ ih | back _ ih =>
    rw [List.flatMap_cons, List.map_append]
    exact (ih fun i hi => hruns i (by simp [hi])).trans (List.sublist_append_right _ _)
  | @placeholder run rest anchors ops a _ ih =>
    obtain ⟨y, ys, rfl⟩ := List.exists_cons_of_ne_nil (hruns ⟨.placeholder, run⟩ (by simp))
    have hrest := ih fun i hi => hruns i (by simp [hi])
    simp only [List.flatMap_cons, List.map_append, List.map_cons, List.headD_cons,
      List.cons_append]
    exact (hrest.trans (List.sublist_append_right _ _)).cons_cons _

theorem position_mem (h : Inserting parent insertions anchors ops)
    (hruns : ∀ i ∈ insertions, i.run ≠ []) :
    ∀ x ∈ anchors, x.1 ∈ (insertions.flatMap (·.run)).map (·.1) :=
  fun _ hx => (h.positions_sublist hruns).subset (List.mem_map_of_mem hx)

end Inserting

theorem insertions_spot_ne_front : ∀ i ∈ insertions run true ds, i.spot ≠ .front := by
  induction ds generalizing run with
  | nil => cases run <;> simp [insertions]
  | cons d ds ih =>
    obtain ⟨i, d⟩ := d
    rw [insertions]
    generalize (if d.flags.insert then run ++ [(i, d)] else run) = run'
    split
    · exact ih
    · cases run' with
      | nil => exact ih
      | cons r run' => simpa using ih

/-! ## The order of children -/

/-- A child before any placeholder is set: it is plain, and if it is to be inserted it is not part
of the markup and has an id. -/
structure NodeInfo.IsReady (d : NodeInfo) : Prop where
  anchor : d.anchor = none
  insert : d.flags.insert = true → d.flags.nonTemplate = true ∧ d.id.isSome = true

section Order

/-- The piece of a child, by its position. -/
def pieceAt (x : Nat × NodeInfo) : Option Item := x.2.piece? x.1

def shownAt (x : Nat × NodeInfo) : Option Item := x.2.shown? x.1

variable {anchors : List (Nat × Nat)} {x : Nat × NodeInfo}

theorem anchoredChild_of_notMem (h : ∀ y ∈ anchors, y.1 ≠ x.1) : anchoredChild anchors x = x := by
  have hnone : anchors.lookup x.1 = none := by
    rw [List.lookup_eq_none_iff]
    intro y hy
    simpa using (h y hy).symm
  simp [anchoredChild, hnone]

theorem anchoredChild_cons_of_ne {i a : Nat} (h : i ≠ x.1) :
    anchoredChild ((i, a) :: anchors) x = anchoredChild anchors x := by
  have hlookup : ((i, a) :: anchors).lookup x.1 = anchors.lookup x.1 := by
    rw [List.lookup_cons, beq_eq_false_iff_ne.mpr h.symm]
  simp only [anchoredChild, hlookup]

/-- Placeholders in the markup are those of the anchors. -/
theorem mem_anchors_of_placeholder {a : Nat} (hready : ∀ x ∈ ds, x.2.IsReady)
    (h : .placeholder a ∈ (ds.map (anchoredChild anchors)).filterMap pieceAt) :
    a ∈ anchors.map (·.2) := by
  simp only [List.mem_filterMap, List.mem_map] at h
  obtain ⟨_, ⟨x, hx, rfl⟩, hpiece⟩ := h
  cases hlookup : anchors.lookup x.1 with
  | none =>
    simp only [anchoredChild, hlookup, Option.map_none, Option.getD_none, pieceAt,
      NodeInfo.piece?, (hready x hx).anchor] at hpiece
    split at hpiece <;> simp at hpiece
  | some b =>
    obtain rfl : b = a := by
      simpa [anchoredChild, hlookup, pieceAt, NodeInfo.piece?, NodeInfo.withAnchor] using hpiece
    obtain ⟨before, after, heq, -⟩ := List.lookup_eq_some_iff.mp hlookup
    simp [heq]

theorem pieceAt_of_insert (hx : x.2.IsReady) (hinsert : x.2.flags.insert = true) :
    pieceAt x = none := by
  simp [pieceAt, NodeInfo.piece?, hx.anchor, (hx.insert hinsert).1]

theorem filterMap_shownAt (hrun : ∀ x ∈ run, x.2.flags.insert = true) :
    run.filterMap shownAt = (run.filterMap (·.2.id)).map .created := by
  rw [List.map_filterMap]
  refine List.filterMap_congr fun x hx => ?_
  simp [shownAt, NodeInfo.shown?, hrun x hx]

theorem pieceAt_of_not_insert (hx : x.2.IsReady) (hinsert : x.2.flags.insert = false) :
    pieceAt x = shownAt x := by
  simp [pieceAt, shownAt, NodeInfo.piece?, NodeInfo.shown?, hx.anchor, hinsert]

theorem filterMap_pieceAt_run (hready : ∀ x ∈ run, x.2.IsReady)
    (hrun : ∀ x ∈ run, x.2.flags.insert = true) : run.filterMap pieceAt = [] := by
  rw [List.filterMap_eq_nil_iff]
  exact fun x hx => pieceAt_of_insert (hready x hx) (hrun x hx)

theorem map_anchoredChild_of_notMem (h : ∀ y ∈ anchors, ∀ x ∈ ds, y.1 ≠ x.1) :
    ds.map (anchoredChild anchors) = ds := by
  refine (List.map_congr_left fun x hx => ?_).trans (List.map_id ds)
  exact anchoredChild_of_notMem fun y hy => h y hy x hx

/-- Of a run that waits for a placeholder, the first child has it. -/
theorem filterMap_pieceAt_anchored {i a : Nat} {d : NodeInfo} (hready : ∀ x ∈ run, x.2.IsReady)
    (hrun : ∀ x ∈ run, x.2.flags.insert = true) (hi : ∀ x ∈ run, i ≠ x.1)
    (hanchors : ∀ y ∈ anchors, ∀ x ∈ run, y.1 ≠ x.1) :
    (((i, d) :: run).map (anchoredChild ((i, a) :: anchors))).filterMap pieceAt =
      [.placeholder a] := by
  have hrest : run.map (anchoredChild ((i, a) :: anchors)) = run := by
    refine map_anchoredChild_of_notMem fun y hy x hx => ?_
    rcases List.mem_cons.mp hy with rfl | hy
    · exact hi x hx
    · exact hanchors y hy x hx
  have hhead : pieceAt (anchoredChild ((i, a) :: anchors) (i, d)) = some (.placeholder a) := by
    simp [anchoredChild, pieceAt, NodeInfo.withAnchor, NodeInfo.piece?]
  rw [List.map_cons, hrest, List.filterMap_cons_some hhead, filterMap_pieceAt_run hready hrun]

/-- What is seen of children after operations on the pieces of their markup. -/
def mountedAt (ops : List Operation) (anchors : List (Nat × Nat)) (ds : List (Nat × NodeInfo)) :
    List Item :=
  (ops.foldl Operation.mount ((ds.map (anchoredChild anchors)).filterMap pieceAt)).filter
    (!·.isPlaceholder)

section Step

variable {parent i a : Nat} {d : NodeInfo} {ds run : List (Nat × NodeInfo)}
  {ops : List Operation}

theorem Inserting.mountedAt_append (h : Inserting parent (insertions [] true ds) anchors ops)
    {xs : List Item} (hxs : ∀ a ∈ anchors.map (·.2), .placeholder a ∉ xs) :
    (ops.foldl Operation.mount (xs ++ (ds.map (anchoredChild anchors)).filterMap pieceAt)).filter
      (!·.isPlaceholder) = xs.filter (!·.isPlaceholder) ++ mountedAt ops anchors ds := by
  rw [h.foldl_mount_append insertions_spot_ne_front hxs, List.filter_append]
  rfl

theorem filter_created (run : List (Nat × NodeInfo)) :
    ((run.filterMap (·.2.id)).map Item.created).filter (!·.isPlaceholder) =
      (run.filterMap (·.2.id)).map Item.created := by
  simp [List.filter_map, Function.comp_def, Item.isPlaceholder]

section

variable (h : Inserting parent (insertions [] true ds) anchors ops)

include h

theorem Inserting.mountedAt_cons (hplain : anchoredChild anchors (i, d) = (i, d))
    (hpiece : pieceAt (i, d) = some (.markup i)) :
    mountedAt ops anchors ((i, d) :: ds) = .markup i :: mountedAt ops anchors ds := by
  have hxs : ∀ a ∈ anchors.map (·.2), .placeholder a ∉ [Item.markup i] := by simp
  rw [mountedAt, List.map_cons, hplain, List.filterMap_cons_some hpiece, ← List.singleton_append,
    h.mountedAt_append hxs]
  rfl

/-- Anchors of later insertions are in front of other children than the ones before. -/
theorem Inserting.position_ne (hnodup : ((run ++ ds).map (·.1)).Nodup) :
    ∀ y ∈ anchors, ∀ x ∈ run, y.1 ≠ x.1 := by
  intro y hy x hx heq
  have hmem := h.position_mem insertions_ne_nil y hy
  rw [insertions_runs, List.nil_append] at hmem
  rw [List.map_append, List.nodup_append] at hnodup
  exact hnodup.2.2 x.1 (List.mem_map_of_mem hx) y.1 ((List.filter_sublist.map _).subset hmem)
    heq.symm

/-- A run at the front comes before the first child in the markup. -/
theorem Inserting.mountedAt_front (hready : ∀ x ∈ run, x.2.IsReady)
    (hrun : ∀ x ∈ run, x.2.flags.insert = true)
    (hanchors : ∀ y ∈ anchors, ∀ x ∈ run ++ [(i, d)], y.1 ≠ x.1)
    (hpiece : pieceAt (i, d) = some (.markup i)) :
    mountedAt (.prependNodes (run.filterMap (·.2.id)) parent :: ops) anchors
        (run ++ (i, d) :: ds) =
      (run.filterMap (·.2.id)).map .created ++ .markup i :: mountedAt ops anchors ds := by
  have hbefore := map_anchoredChild_of_notMem hanchors
  have hsplit : run ++ (i, d) :: ds = (run ++ [(i, d)]) ++ ds := by simp
  have hxs : ∀ a ∈ anchors.map (·.2),
      .placeholder a ∉ (run.filterMap (·.2.id)).map Item.created ++ [.markup i] := by
    intro a _
    simp
  have hrest := h.mountedAt_append hxs
  rw [List.filter_append, filter_created] at hrest
  rw [mountedAt, hsplit, List.map_append, hbefore, List.filterMap_append, List.filterMap_append,
    filterMap_pieceAt_run hready hrun, List.filterMap_cons_some hpiece, List.foldl_cons]
  simpa [Operation.mount, Item.isPlaceholder] using hrest

/-- A run before a placeholder comes right before the child in the markup after it. -/
theorem Inserting.mountedAt_placeholder {j : Nat} {e : NodeInfo}
    (hreadyRest : ∀ x ∈ ds, x.2.IsReady) (hready : ∀ x ∈ run, x.2.IsReady)
    (hrun : ∀ x ∈ run, x.2.flags.insert = true) (hj : ∀ x ∈ run ++ (i, d) :: ds, j ≠ x.1)
    (hanchors : ∀ y ∈ anchors, ∀ x ∈ run ++ [(i, d)], y.1 ≠ x.1) (ha : a ∉ anchors.map (·.2))
    (hpiece : pieceAt (i, d) = some (.markup i)) :
    mountedAt (.insertNodes (((j, e) :: run).filterMap (·.2.id)) parent (some a) :: ops)
        ((j, a) :: anchors) ((j, e) :: run ++ (i, d) :: ds) =
      (((j, e) :: run).filterMap (·.2.id)).map .created ++
        .markup i :: mountedAt ops anchors ds := by
  have hhead : (((j, e) :: run).map (anchoredChild ((j, a) :: anchors))).filterMap pieceAt =
      [.placeholder a] :=
    filterMap_pieceAt_anchored hready hrun (fun x hx => hj x (by simp [hx]))
      (fun y hy x hx => hanchors y hy x (by simp [hx]))
  have hplain : anchoredChild ((j, a) :: anchors) (i, d) = (i, d) := by
    rw [anchoredChild_cons_of_ne (hj (i, d) (by simp))]
    exact anchoredChild_of_notMem fun y hy => hanchors y hy (i, d) (by simp)
  have hds : ds.map (anchoredChild ((j, a) :: anchors)) = ds.map (anchoredChild anchors) :=
    List.map_congr_left fun x hx => anchoredChild_cons_of_ne (hj x (by simp [hx]))
  have hpieces : ((((j, e) :: run) ++ (i, d) :: ds).map
      (anchoredChild ((j, a) :: anchors))).filterMap pieceAt =
      .placeholder a :: .markup i :: (ds.map (anchoredChild anchors)).filterMap pieceAt := by
    rw [List.map_append, List.filterMap_append, hhead, List.map_cons, hplain, hds,
      List.filterMap_cons_some hpiece]
    rfl
  have hnew : .placeholder a ∉ (ds.map (anchoredChild anchors)).filterMap pieceAt :=
    fun hmem => ha (mem_anchors_of_placeholder hreadyRest hmem)
  have hxs : ∀ b ∈ anchors.map (·.2), .placeholder b ∉
      (((j, e) :: run).filterMap (·.2.id)).map Item.created ++ [.placeholder a, .markup i] := by
    intro b hb
    have hne : b ≠ a := fun h => ha (h ▸ hb)
    simp [hne]
  have hmount : ∀ elements : List Nat, Operation.mount (.placeholder a :: .markup i ::
      (ds.map (anchoredChild anchors)).filterMap pieceAt) (.insertNodes elements parent (some a)) =
      elements.map .created ++ [.placeholder a, .markup i] ++
        (ds.map (anchoredChild anchors)).filterMap pieceAt := by
    intro elements
    rw [← List.singleton_append, Operation.mount_append,
      Operation.mount_of_notMem (List.not_mem_cons_of_ne_of_not_mem (by simp) hnew)]
    simp [Operation.mount]
  rw [mountedAt, hpieces, List.foldl_cons, hmount, h.mountedAt_append hxs, List.filter_append,
    filter_created]
  simp [Item.isPlaceholder]

end

/-- Mounting the runs on the pieces of the markup shows all children in their order. `run` is the
run being read, and nothing before it has a piece if there was no markup yet. -/
theorem Inserting.mountedAt_eq {afterMarkup : Bool}
    (h : Inserting parent (insertions run afterMarkup ds) anchors ops)
    (hready : ∀ x ∈ run ++ ds, x.2.IsReady) (hrun : ∀ x ∈ run, x.2.flags.insert = true)
    (hnodup : ((run ++ ds).map (·.1)).Nodup) (hanchors : (anchors.map (·.2)).Nodup) :
    mountedAt ops anchors (run ++ ds) = (run ++ ds).filterMap shownAt := by
  induction ds generalizing run afterMarkup anchors ops with
  | nil =>
    rw [List.append_nil] at hready hnodup ⊢
    cases run with
    | nil =>
      cases h
      rfl
    | cons r run =>
      simp only [insertions, List.isEmpty_cons, Bool.false_eq_true, ite_false] at h
      cases h with
      | back h =>
        cases h
        rw [mountedAt, map_anchoredChild_of_notMem (by simp),
          filterMap_pieceAt_run hready hrun, filterMap_shownAt hrun]
        exact filter_created _
  | cons x ds ih =>
    obtain ⟨i, d⟩ := x
    cases hinsert : d.flags.insert with
    | true =>
      -- The child joins the run.
      have hnon : d.flags.nonTemplate = true := ((hready (i, d) (by simp)).insert hinsert).1
      simp only [insertions, hinsert, hnon, ite_true] at h
      have happend : run ++ (i, d) :: ds = run ++ [(i, d)] ++ ds := by simp
      rw [happend] at hready hnodup ⊢
      refine ih h hready ?_ hnodup hanchors
      intro x hx
      rcases List.mem_append.mp hx with hx | hx
      · exact hrun x hx
      · rw [List.mem_singleton.mp hx]
        exact hinsert
    | false =>
      have hreadyRun : ∀ x ∈ run, x.2.IsReady := fun x hx => hready x (by simp [hx])
      have hreadyRest : ∀ x ∈ ds, x.2.IsReady := fun x hx => hready x (by simp [hx])
      have hpiece : pieceAt (i, d) = shownAt (i, d) :=
        pieceAt_of_not_insert (hready (i, d) (by simp)) hinsert
      have hsplit : run ++ (i, d) :: ds = (run ++ [(i, d)]) ++ ds := by simp
      have hnodupRest : ((([] : List (Nat × NodeInfo)) ++ ds).map (·.1)).Nodup := by
        rw [hsplit, List.map_append] at hnodup
        exact (List.nodup_append.mp hnodup).2.1
      cases hnon : d.flags.nonTemplate with
      | true =>
        have hshown : shownAt (i, d) = none := by
          simp [shownAt, NodeInfo.shown?, hinsert, hnon]
        rw [hshown] at hpiece
        simp only [insertions, hinsert, hnon, Bool.false_eq_true, ite_false, ite_true] at h
        have hperm : ((run ++ (i, d) :: ds).map (·.1)).Perm (i :: (run ++ ds).map (·.1)) :=
          List.perm_middle.map _
        obtain ⟨hi, hnodup'⟩ := List.nodup_cons.mp (hperm.nodup_iff.mp hnodup)
        have hplain : anchoredChild anchors (i, d) = (i, d) := by
          refine anchoredChild_of_notMem fun y hy heq => hi ?_
          have hmem := h.position_mem insertions_ne_nil y hy
          rw [insertions_runs, heq] at hmem
          exact ((List.filter_sublist.append_left run).map _).subset hmem
        have hrest := ih h
          (fun x hx => (List.mem_append.mp hx).elim (hreadyRun x) (hreadyRest x)) hrun hnodup'
          hanchors
        simpa [mountedAt, hplain, hpiece, hshown] using hrest
      | false =>
        have hshown : shownAt (i, d) = some (.markup i) := by
          simp [shownAt, NodeInfo.shown?, hinsert, hnon]
        rw [hshown] at hpiece
        simp only [insertions, hinsert, hnon, Bool.false_eq_true, ite_false] at h
        rw [List.filterMap_append, List.filterMap_cons_some hshown]
        have hrest : ∀ {anchors : List (Nat × Nat)} {ops : List Operation},
            Inserting parent (insertions [] true ds) anchors ops →
            (anchors.map (·.2)).Nodup → mountedAt ops anchors ds = ds.filterMap shownAt :=
          fun h hanchors => ih h (by simpa using hreadyRest) (by simp) hnodupRest hanchors
        cases run with
        | nil =>
          simp only [List.isEmpty_nil, ite_true] at h
          have hne : ∀ y ∈ anchors, ∀ x ∈ [(i, d)], y.1 ≠ x.1 := h.position_ne hnodup
          have hplain : anchoredChild anchors (i, d) = (i, d) :=
            anchoredChild_of_notMem fun y hy => hne y hy (i, d) (by simp)
          rw [List.nil_append, h.mountedAt_cons hplain hpiece, hrest h hanchors]
          rfl
        | cons r run =>
          rw [filterMap_shownAt hrun]
          simp only [List.isEmpty_cons, Bool.false_eq_true, ite_false] at h
          cases afterMarkup with
          | false =>
            cases h with
            | front h =>
              rw [h.mountedAt_front hreadyRun hrun (h.position_ne (hsplit ▸ hnodup))
                hpiece, hrest h hanchors]
          | true =>
            obtain ⟨j, e⟩ := r
            cases h with
            | placeholder h =>
              obtain ⟨ha, hanchors'⟩ := List.nodup_cons.mp hanchors
              have hne := h.position_ne (hsplit ▸ hnodup)
              have hj : ∀ x ∈ run ++ (i, d) :: ds, j ≠ x.1 := by
                intro x hx heq
                exact (List.nodup_cons.mp hnodup).1 (List.mem_map.mpr ⟨x, hx, heq.symm⟩)
              rw [← hrest h hanchors']
              exact h.mountedAt_placeholder hreadyRest
                (fun x hx => hreadyRun x (by simp [hx]))
                (fun x hx => hrun x (by simp [hx])) hj
                (fun y hy x hx => hne y hy x (List.mem_cons_of_mem _ hx)) ha hpiece

end Step

end Order

/-! ## Inserting children in a context -/

/-- The children with placeholders in front of positions. -/
def placeAll (anchors : List (Nat × Nat)) (ds : List NodeInfo) : List NodeInfo :=
  anchors.foldl (fun ds x => ds.modify x.1 (NodeInfo.withAnchor x.2)) ds

theorem getElem?_placeAll {anchors : List (Nat × Nat)} (hnodup : (anchors.map (·.1)).Nodup)
    (ds : List NodeInfo) (i : Nat) :
    (placeAll anchors ds)[i]? = ds[i]?.map fun d => (anchoredChild anchors (i, d)).2 := by
  induction anchors generalizing ds with
  | nil => simp [placeAll, anchoredChild]
  | cons x anchors ih =>
    obtain ⟨j, a⟩ := x
    obtain ⟨hj, hnodup⟩ := List.nodup_cons.mp hnodup
    change (placeAll anchors (ds.modify j (NodeInfo.withAnchor a)))[i]? = _
    rw [ih hnodup]
    by_cases hij : j = i
    · subst hij
      have hplain : ∀ d, anchoredChild anchors (j, d) = (j, d) := fun d =>
        anchoredChild_of_notMem fun y hy heq => hj (List.mem_map.mpr ⟨y, hy, heq⟩)
      simp only [List.getElem?_modify_eq, hplain]
      simp [anchoredChild, Function.comp_def]
    · have hne : ∀ d, anchoredChild ((j, a) :: anchors) (i, d) = anchoredChild anchors (i, d) :=
        fun d => anchoredChild_cons_of_ne hij
      simp [hij, hne]

theorem zipIdx_placeAll {anchors : List (Nat × Nat)} (hnodup : (anchors.map (·.1)).Nodup)
    (ds : List NodeInfo) :
    (placeAll anchors ds).zipIdx.map Prod.swap =
      (ds.zipIdx.map Prod.swap).map (anchoredChild anchors) := by
  refine List.ext_getElem? fun i => ?_
  simp only [List.getElem?_map, List.getElem?_zipIdx, getElem?_placeAll hnodup, Option.map_map,
    Nat.zero_add]
  rfl

namespace Context

theorem insert_id {c : Context} {id : Nat} (h : c.dynamic.id = some id) (insertion : Insertion) :
    (c.insert insertion).dynamic.id = some id := by
  obtain ⟨spot, run⟩ := insertion
  cases spot <;> simp [insert, add, anchored, ownId, h]

theorem insertRuns_id (insertions : List Insertion) {c : Context} {id : Nat}
    (h : c.dynamic.id = some id) : (insertions.foldl insert c).dynamic.id = some id := by
  induction insertions generalizing c with
  | nil => exact h
  | cons insertion rest ih => exact ih (insert_id h insertion)

/-- Inserting runs places anchors and registers operations on the node itself, which then has an
id if there was a run. -/
theorem insertRuns_spec (insertions : List Insertion) (c : Context) :
    ∃ anchors ops,
      (insertions.foldl insert c).dynamic.children = placeAll anchors c.dynamic.children ∧
      (insertions.foldl insert c).childrenTemplate =
        anchors.foldl (fun ts x => ts.set x.1 "<!>") c.childrenTemplate ∧
      (insertions.foldl insert c).block = ops.foldl Block.register c.block ∧
      ∃ parent, (insertions ≠ [] → (insertions.foldl insert c).dynamic.id = some parent) ∧
        Inserting parent insertions anchors ops := by
  induction insertions generalizing c with
  | nil => exact ⟨[], [], rfl, rfl, rfl, 0, by simp, .nil⟩
  | cons insertion rest ih =>
    obtain ⟨anchors, ops, hchildren, htemplate, hblock, parent, hid, hrest⟩ :=
      ih (c.insert insertion)
    -- The id that the first run gives the node is that of all later operations.
    have hsame : ∀ {p}, (c.insert insertion).dynamic.id = some p →
        (rest.foldl insert (c.insert insertion)).dynamic.id = some p ∧
          Inserting p rest anchors ops := by
      intro p hp
      have hfinal := insertRuns_id rest hp
      refine ⟨hfinal, ?_⟩
      cases rest with
      | nil =>
        cases hrest
        exact .nil
      | cons r rest =>
        obtain rfl : parent = p := Option.some.inj ((hid (by simp)).symm.trans hfinal)
        exact hrest
    obtain ⟨spot, run⟩ := insertion
    cases spot with
    | front =>
      obtain ⟨hfinal, hrest⟩ := hsame c.referenced_id
      refine ⟨anchors, _ :: ops, ?_, htemplate, hblock, _, fun _ => hfinal, .front hrest⟩
      exact hchildren.trans (congrArg (placeAll anchors) c.referenced_children)
    | back =>
      obtain ⟨hfinal, hrest⟩ := hsame c.referenced_id
      refine ⟨anchors, _ :: ops, ?_, htemplate, hblock, _, fun _ => hfinal, .back hrest⟩
      exact hchildren.trans (congrArg (placeAll anchors) c.referenced_children)
    | placeholder =>
      obtain ⟨hfinal, hrest⟩ := hsame (c.anchored _).referenced_id
      refine ⟨(_, c.session.nextId) :: anchors, _ :: ops, ?_, htemplate, hblock, _,
        fun _ => hfinal, .placeholder hrest⟩
      exact hchildren.trans (congrArg (placeAll anchors) (c.anchored _).referenced_children)

/-- What inserting all children of a node comes to. -/
theorem insertAll_spec (c : Context) :
    ∃ anchors ops parent,
      c.insertAll.dynamic.children = placeAll anchors c.dynamic.children ∧
      c.insertAll.childrenTemplate =
        anchors.foldl (fun ts x => ts.set x.1 "<!>") c.childrenTemplate ∧
      c.insertAll.block.operations = c.block.operations ++ ops ∧
      (ops ≠ [] → c.insertAll.dynamic.id = some parent) ∧
      Inserting parent (insertions [] false (c.dynamic.children.zipIdx.map Prod.swap)) anchors
        ops := by
  obtain ⟨anchors, ops, hchildren, htemplate, hblock, parent, hid, h⟩ :=
    insertRuns_spec (insertions [] false (c.dynamic.children.zipIdx.map Prod.swap)) c
  have hoperations : ∀ (ops : List Operation) (b : Block),
      (ops.foldl Block.register b).operations = b.operations ++ ops := by
    intro ops
    induction ops with
    | nil => simp
    | cons op ops ih => exact fun b => by simp [ih, Block.register]
  refine ⟨anchors, ops, parent, hchildren, htemplate, ?_, fun hne => hid fun hnil => hne ?_, h⟩
  · exact (congrArg Block.operations hblock).trans (hoperations ops c.block)
  · rw [hnil] at h
    cases h
    rfl

end Context

end TemplateCompiler
