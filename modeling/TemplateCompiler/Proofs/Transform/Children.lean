import TemplateCompiler.Proofs.Transform.Run
import TemplateCompiler.Transform.Children

/-! # Visits of children

What a parent takes over from a child, and what inserting children does, as functions of contexts.
-/

namespace TemplateCompiler

open Template (Node)
open Transform

variable {frame : Frame} {i : Nat} {n : Node} {ns : List Node}

namespace Context

/-- The context whose markup, if there is any, has a number. -/
def registered (c : Context) : Context :=
  if c.template.isEmpty then c
  else
    { c with
      session := (c.session.addTemplate c.template).2
      dynamic := { c.dynamic with template := some (c.session.addTemplate c.template).1 } }

@[simp] theorem registered_identifiers (c : Context) :
    c.registered.session.identifiers = c.session.identifiers := by
  unfold registered
  split <;> simp

/-- The context of a child of a fragment, which is a root of the block. -/
def returned (c : Context) : Context :=
  let k := c.referenced.registered
  if !k.dynamic.flags.nonTemplate || k.dynamic.flags.insert then
    { k with block := { k.block with returns := k.block.returns ++ [c.ownId] } }
  else k

/-- The context of a child whose visit is over. -/
def settled (isFragment : Bool) (c : Context) : Context :=
  if c.removed then c.flag { nonTemplate := true }
  else if isFragment then c.returned
  else c

/-- The context of the parent that has taken over the child `k`. -/
def adopt (isFragment : Bool) (c k : Context) : Context :=
  { c with
    block := k.block
    session := k.session
    childrenTemplate :=
      if isFragment then c.childrenTemplate else c.childrenTemplate ++ [k.template]
    dynamic :=
      { c.dynamic with
        children := c.dynamic.children ++ [k.dynamic]
        hasDynamicChild := c.dynamic.hasDynamicChild || k.dynamic.isDynamic } }

end Context

/-! ## Beginnings -/

/-- Texts, interpolations and raw markup, which another node may take over. -/
def Template.Node.isAbsorbable : Node → Bool
  | .text _ | .interpolation _ | .rawMarkup _ => true
  | _ => false

/-- The frame is that of a parent whose children from position `i` on are `ns`. Those of them that
are taken over are of the right kind. -/
structure Frame.Covers (f : Frame) (i : Nat) (ns : List Node) : Prop where
  rest : f.children.drop i = ns
  absorbed : ∀ n ∈ ns.take (f.consumedUntil - i), n.isAbsorbable = true

/-- The context is one that a visit begins with. -/
structure Context.Fresh (c : Context) : Prop where
  removed : c.removed = false
  template : c.template = ""
  childrenTemplate : c.childrenTemplate = []
  consumedChildren : c.consumedChildren = 0
  slots : c.slots = []
  children : c.dynamic.children = []
  anchor : c.dynamic.anchor = none
  insert : c.dynamic.flags.insert = false
  nonTemplate : c.dynamic.flags.nonTemplate = false
  markup : c.dynamic.template = none
  root : c.isBlockRoot = true ∨ c.parent = none → ∃ f, c.node = .fragment f
  frame : ∀ f, c.parent = some f → ∃ ns, f.Covers c.index (c.node :: ns)

/-- What a visit that leads from `c` to `c'` leaves as it was: the names that loops around
introduce, and the children of the parent that come next. -/
structure Context.Evolves (c c' : Context) : Prop where
  count : ∀ name, c'.session.count name = c.session.count name
  frame : ∀ f ns, c.parent = some f → f.Covers c.index (c.node :: ns) →
    ∃ f', c'.parent = some f' ∧ f'.Covers (c.index + 1) ns

/-- Visits that begin well evolve. -/
def Disciplined (visit : Transform Unit) : Prop :=
  ∀ c c', c.Fresh → visit c = .ok () c' → c.Evolves c'

/-- Visits that begin well and succeed are in the relation. -/
def Ensures (visit : Transform Unit) (R : Context → Context → Prop) : Prop :=
  ∀ c c', c.Fresh → visit c = .ok () c' → R c c'

theorem Frame.Covers.child_fresh {f : Frame} (h : f.Covers i (n :: ns)) (c : Context) :
    (c.child n i f).Fresh where
  removed := rfl
  template := rfl
  childrenTemplate := rfl
  consumedChildren := rfl
  slots := rfl
  children := rfl
  anchor := rfl
  insert := rfl
  nonTemplate := rfl
  markup := rfl
  root := by simp [Context.child]
  frame := by
    intro g hg
    obtain rfl : f = g := by simpa [Context.child] using hg
    exact ⟨ns, h⟩

theorem Frame.Covers.next {f : Frame} (h : f.Covers i (n :: ns)) : f.Covers (i + 1) ns where
  rest := by
    rw [← List.drop_drop, h.rest]
    rfl
  absorbed := by
    intro m hm
    have hlt : 0 < f.consumedUntil - (i + 1) := by
      rcases Nat.eq_zero_or_pos (f.consumedUntil - (i + 1)) with h0 | h0
      · simp [h0] at hm
      · exact h0
    apply h.absorbed m
    rw [show f.consumedUntil - i = f.consumedUntil - (i + 1) + 1 by omega, List.take_succ_cons]
    exact List.mem_cons_of_mem n hm

/-! ## Walking over children -/

/-- The children of `c` from position `i` on are visited in turn. -/
inductive VisitsChildren (visit : Transform Unit) (isFragment : Bool) :
    Frame → Nat → List Node → Context → Context → Prop
  | nil (frame : Frame) (i : Nat) (c : Context) : VisitsChildren visit isFragment frame i [] c c
  | cons {frame frame' : Frame} {i : Nat} {n : Node} {ns : List Node} {c k c' : Context} :
      frame.Covers i (n :: ns) → visit (c.child n i frame) = .ok () k → k.parent = some frame' →
      VisitsChildren visit isFragment frame' (i + 1) ns
        (c.adopt isFragment (k.settled isFragment)) c' →
      VisitsChildren visit isFragment frame i (n :: ns) c c'

variable {visit : Transform Unit} {isFragment : Bool} {c c' : Context}

section

variable (h : VisitsChildren visit isFragment frame i ns c c')

include h

theorem VisitsChildren.samePlace : c.SamePlace c' := by
  induction h with
  | nil => exact .refl _
  | cons _ _ _ _ ih =>
    exact ⟨ih.node, ih.parent, ih.index, ih.isBlockRoot, ih.template, ih.slots,
      ih.consumedChildren, ih.removed⟩

theorem VisitsChildren.id_eq : c'.dynamic.id = c.dynamic.id := by
  induction h with
  | nil => rfl
  | cons _ _ _ _ ih => exact ih

theorem VisitsChildren.flags_eq : c'.dynamic.flags = c.dynamic.flags := by
  induction h with
  | nil => rfl
  | cons _ _ _ _ ih => exact ih

theorem VisitsChildren.length_children :
    c'.dynamic.children.length = c.dynamic.children.length + ns.length := by
  induction h with
  | nil => rfl
  | cons _ _ _ _ ih =>
    rw [ih, Context.adopt, List.length_append, List.length_singleton, List.length_cons]
    omega

end

theorem registerTemplate_run : ∃ i, registerTemplate c = .ok i c.registered := by
  unfold registerTemplate Context.registered
  rw [get_bind]
  split
  · exact ⟨none, rfl⟩
  · exact ⟨_, rfl⟩

theorem returnChild_run : returnChild c = .ok () c.returned := by
  obtain ⟨i, hi⟩ := @registerTemplate_run c.referenced
  rw [returnChild, bind_run reference_run, bind_run hi, get_bind]
  unfold Context.returned
  dsimp only
  split <;> rfl

theorem visitChild_eq_ok :
    visitChild visit isFragment c = .ok () c' ↔
      ∃ k, visit c = .ok () k ∧ c' = k.settled isFragment := by
  have hsettle : ∀ k : Context, (get >>= fun x : Context =>
      if x.removed then setFlags { nonTemplate := true }
      else if isFragment then returnChild
      else pure () : Transform Unit) k = .ok () (k.settled isFragment) := by
    intro k
    rw [get_bind]
    unfold Context.settled
    cases k.removed <;> cases isFragment <;> simp [returnChild_run]
  rw [visitChild, bind_eq_ok]
  constructor
  · rintro ⟨_, k, hk, h⟩
    obtain ⟨-, rfl⟩ := EStateM.Result.ok.inj ((hsettle k).symm.trans h)
    exact ⟨k, hk, rfl⟩
  · rintro ⟨k, hk, rfl⟩
    exact ⟨(), k, hk, hsettle k⟩

theorem Context.settled_place :
    (c.settled isFragment).parent = c.parent ∧ (c.settled isFragment).template = c.template := by
  unfold settled returned registered
  dsimp only
  split
  · exact ⟨rfl, rfl⟩
  · split
    · split <;> split <;> exact ⟨rfl, rfl⟩
    · exact ⟨rfl, rfl⟩

theorem Context.returned_dynamic (c : Context) :
    c.returned.dynamic = c.referenced.registered.dynamic := by
  unfold returned
  dsimp only
  split <;> rfl

/-- Settling a child leaves it out of the markup, changes nothing, or gives it an id and perhaps
markup of its own. -/
theorem Context.settled_dynamic (c : Context) (isFragment : Bool) :
    (c.settled isFragment).dynamic = (c.flag { nonTemplate := true }).dynamic ∨
      (c.settled isFragment).dynamic = c.dynamic ∨
      ∃ template, (c.settled isFragment).dynamic = { c.referenced.dynamic with template } := by
  unfold settled
  split
  · exact .inl rfl
  · split
    · rw [returned_dynamic, registered]
      refine .inr (.inr ?_)
      split
      · cases c.referenced.dynamic
        exact ⟨_, rfl⟩
      · exact ⟨_, rfl⟩
    · exact .inr (.inl rfl)

theorem Context.settled_block (c : Context) (isFragment : Bool) :
    ∃ returns, (c.settled isFragment).block = { c.block with returns } := by
  have hregistered : c.referenced.registered.block = c.block := by
    unfold registered
    split <;> rfl
  have hsame : ∃ returns, c.block = { c.block with returns } := by
    cases c.block
    exact ⟨_, rfl⟩
  unfold settled
  split
  · exact hsame
  · split
    · unfold returned
      dsimp only
      split
      · exact ⟨_, by rw [hregistered]⟩
      · rw [hregistered]
        exact hsame
    · exact hsame

theorem Context.settled_operations (c : Context) (isFragment : Bool) :
    (c.settled isFragment).block.operations = c.block.operations := by
  obtain ⟨_, hblock⟩ := c.settled_block isFragment
  rw [hblock]

theorem Context.settled_allOperations (c : Context) (isFragment : Bool) :
    (c.settled isFragment).block.allOperations = c.block.allOperations := by
  obtain ⟨_, hblock⟩ := c.settled_block isFragment
  rw [hblock]
  rfl

theorem visitChildren_cons_eq (v : Transform Unit) (frame : Frame) (i : Nat) (n : Node)
    (ns : List Node) (c : Context) :
    visitChildren v isFragment frame i (n :: ns) c =
      match visitChild v isFragment (c.child n i frame) with
      | .ok _ k =>
        visitChildren v isFragment (k.parent.getD frame) (i + 1) ns (c.adopt isFragment k)
      | .error e k => .error e { c with block := k.block, session := k.session } := by
  rw [visitChildren]
  change EStateM.bind (inChild n i frame (visitChild v isFragment)) _ c = _
  simp only [EStateM.bind, inChild]
  cases visitChild v isFragment (c.child n i frame) <;> rfl

theorem visitChildren_cons_run {frame' : Frame} {k : Context}
    (hrun : visit (c.child n i frame) = .ok () k) (hparent : k.parent = some frame') :
    visitChildren visit isFragment frame i (n :: ns) c =
      visitChildren visit isFragment frame' (i + 1) ns
        (c.adopt isFragment (k.settled isFragment)) := by
  rw [visitChildren_cons_eq, visitChild_eq_ok.mpr ⟨k, hrun, rfl⟩]
  simp only [Context.settled_place.1, hparent, Option.getD_some]

/-- A successful walk over the children visits each of them in the context it belongs to. -/
theorem visitChildren_ok (hvisit : Disciplined visit) (hframe : frame.Covers i ns)
    (h : visitChildren visit isFragment frame i ns c = .ok () c') :
    VisitsChildren visit isFragment frame i ns c c' := by
  induction ns generalizing frame i c with
  | nil =>
    obtain ⟨-, rfl⟩ := EStateM.Result.ok.inj h
    exact .nil _ _ _
  | cons n ns ih =>
    rw [visitChildren_cons_eq] at h
    cases hrun : visitChild visit isFragment (c.child n i frame) with
    | error e k => simp [hrun] at h
    | ok u k =>
      obtain ⟨k, hk, rfl⟩ := visitChild_eq_ok.mp hrun
      obtain ⟨frame', hframe', hcovers⟩ :=
        (hvisit _ _ (hframe.child_fresh c) hk).frame frame ns rfl hframe
      simp only [hrun, Context.settled_place.1, hframe', Option.getD_some] at h
      exact .cons hframe hk hframe' (ih hcovers h)

theorem visitChildren_samePlace (h : visitChildren visit isFragment frame i ns c = .ok () c') :
    c.SamePlace c' := by
  induction ns generalizing frame i c with
  | nil =>
    obtain ⟨-, rfl⟩ := EStateM.Result.ok.inj h
    exact .refl _
  | cons n ns ih =>
    rw [visitChildren_cons_eq] at h
    split at h
    · have hrest := ih h
      exact ⟨hrest.node, hrest.parent, hrest.index, hrest.isBlockRoot, hrest.template, hrest.slots,
        hrest.consumedChildren, hrest.removed⟩
    · cases h

/-! ## Inserting -/

/-- The child with a placeholder before it. -/
def NodeInfo.withAnchor (a : Nat) (d : NodeInfo) : NodeInfo :=
  { d with flags := d.flags.minus { nonTemplate := true }, anchor := some a }

namespace Context

/-- The context with a placeholder in the place of the child at `index`. -/
def anchored (c : Context) (index : Nat) : Context :=
  { c with
    session := c.session.allocateId.2
    childrenTemplate := c.childrenTemplate.set index "<!>"
    dynamic :=
      { c.dynamic with
        children := c.dynamic.children.modify index (NodeInfo.withAnchor c.session.nextId) } }

/-- The context in which a run of children is inserted. -/
def insert (c : Context) (insertion : Insertion) : Context :=
  let elements := insertion.run.filterMap (·.2.id)
  match insertion.spot with
  | .front => c.referenced.add (.once (.prependNodes elements c.ownId))
  | .back => c.referenced.add (.once (.insertNodes elements c.ownId none))
  | .placeholder =>
    let k := c.anchored ((insertion.run.map (·.1)).headD 0)
    k.referenced.add (.once (.insertNodes elements k.ownId (some c.session.nextId)))

/-- The context in which all children to be inserted are so. -/
def insertAll (c : Context) : Context :=
  (insertions [] false (c.dynamic.children.zipIdx.map Prod.swap)).foldl insert c

end Context

/-- Each child to be inserted is in one run, in the order of the children. -/
theorem insertions_runs (run : List (Nat × NodeInfo)) (afterMarkup : Bool)
    (ds : List (Nat × NodeInfo)) :
    (insertions run afterMarkup ds).flatMap (·.run) = run ++ ds.filter (·.2.flags.insert) := by
  induction ds generalizing run afterMarkup with
  | nil => cases run <;> simp [insertions]
  | cons d ds ih =>
    obtain ⟨i, d⟩ := d
    have hrun : (if d.flags.insert then run ++ [(i, d)] else run) ++
        ds.filter (·.2.flags.insert) = run ++ ((i, d) :: ds).filter (·.2.flags.insert) := by
      cases h : d.flags.insert <;> simp [h]
    rw [← hrun, insertions]
    generalize (if d.flags.insert then run ++ [(i, d)] else run) = run'
    split
    · exact ih run' afterMarkup
    · cases run' with
      | nil => simpa using ih [] true
      | cons r run' => simp [ih]

theorem insertions_ne_nil {run : List (Nat × NodeInfo)} {afterMarkup : Bool}
    {ds : List (Nat × NodeInfo)} :
    ∀ insertion ∈ insertions run afterMarkup ds, insertion.run ≠ [] := by
  induction ds generalizing run afterMarkup with
  | nil => cases run <;> simp [insertions]
  | cons d ds ih =>
    obtain ⟨i, d⟩ := d
    rw [insertions]
    generalize (if d.flags.insert then run ++ [(i, d)] else run) = run'
    split
    · exact ih
    · cases run' with
      | nil => exact ih
      | cons r run' => simpa using ih

/-- Each run is inserted by one operation on the node, before a placeholder that is set if there has
to be one. -/
theorem Context.insertAll_induction {R : Context → Context → Prop} (c : Context)
    (refl : ∀ c, R c c) (trans : ∀ {c₁ c₂ c₃}, R c₁ c₂ → R c₂ c₃ → R c₁ c₃)
    (anchored : ∀ c i, R c (c.anchored i))
    (prepend : ∀ c ids, R c (c.referenced.add (.once (.prependNodes ids c.ownId))))
    (insert : ∀ c ids a, R c (c.referenced.add (.once (.insertNodes ids c.ownId a)))) :
    R c c.insertAll := by
  unfold insertAll
  generalize insertions [] false _ = xs
  induction xs generalizing c with
  | nil => exact refl c
  | cons insertion rest ih =>
    obtain ⟨spot, run⟩ := insertion
    refine trans ?_ (ih _)
    cases spot with
    | front => exact prepend c _
    | back => exact insert c _ _
    | placeholder => exact trans (anchored c _) (insert _ _ _)

/-- What placeholders, references and operations leave alone, inserting children does. -/
theorem Context.insertAll_eq {α : Type} (f : Context → α) (c : Context)
    (anchored : ∀ c i, f (c.anchored i) = f c) (referenced : ∀ c, f c.referenced = f c)
    (add : ∀ c x, f (c.add x) = f c) : f c.insertAll = f c :=
  insertAll_induction (R := fun c c' => f c' = f c) c (fun _ => rfl) (fun h h' => h'.trans h)
    anchored (fun c _ => (add _ _).trans (referenced c)) fun c _ _ => (add _ _).trans (referenced c)

theorem Context.insertAll_samePlace (c : Context) : c.SamePlace c.insertAll :=
  c.insertAll_induction .refl .trans (fun _ _ => ⟨rfl, rfl, rfl, rfl, rfl, rfl, rfl, rfl⟩)
    (fun _ _ => ⟨rfl, rfl, rfl, rfl, rfl, rfl, rfl, rfl⟩)
    fun _ _ _ => ⟨rfl, rfl, rfl, rfl, rfl, rfl, rfl, rfl⟩

theorem insertRun_run (insertion : Insertion) :
    insertRun insertion c = .ok () (c.insert insertion) := by
  obtain ⟨spot, run⟩ := insertion
  cases spot with
  | front => exact bind_run reference_run _
  | back => exact bind_run reference_run _
  | placeholder =>
    have hplace : ∀ i, placeAnchor i c = .ok c.session.nextId (c.anchored i) := fun i => rfl
    exact (bind_run (hplace _) _).trans (bind_run reference_run _)

theorem insertChildren_run : insertChildren c = .ok () c.insertAll := by
  have hall : ∀ (insertions : List Insertion) (c : Context),
      insertions.forM insertRun c = .ok () (insertions.foldl Context.insert c) := by
    intro insertions
    induction insertions with
    | nil => exact fun c => rfl
    | cons insertion rest ih =>
      intro c
      exact (bind_run (insertRun_run insertion) _).trans (ih _)
  exact hall _ c

end TemplateCompiler
