import TemplateCompiler.Proofs.Siblings.Elements

/-! # Blocks inside, after others

A block inside a node is made anew, so what came before it shows only in its ids and in the numbers
of its markup.
-/

namespace TemplateCompiler

open Template (Branches EachBlock Element Fragment IfBlock Node)
open Transform

/-! ## Blocks -/

/-- The content of each slot needs less depth than the component. -/
theorem slotsOf_depth {e : Element} {fs : List (String × Fragment)} (h : slotsOf e = .ok fs) :
    ∀ slot ∈ fs, (Node.fragment slot.2).depth < (Node.element e).depth := by
  have hunnamed := Template.nodesSize_filter_le (fun n => (slotContent? n).isNone) e.children
  have hnamed : ∀ slot ∈ e.children.filterMap slotContent?,
      slot.2.size ≤ Template.nodesSize e.children + 1 := by
    intro slot hslot
    obtain ⟨n, hn, hcontent⟩ := List.mem_filterMap.mp hslot
    have hsize := Template.size_le_nodesSize hn
    cases n with
    | element child =>
      obtain ⟨name, -, ⟨⟩⟩ := Option.bind_eq_some_iff.mp hcontent
      cases child
      simp only [Node.size, Element.size] at hsize
      dsimp only
      split <;> simp only [Fragment.size, Template.nodesSize, Node.size, Element.size] <;> omega
    | _ => simp [slotContent?, Node.element?] at hcontent
  have hdepth : (Node.element e).depth = 2 * (Template.nodesSize e.children + 2) := by
    cases e
    rfl
  intro slot hslot
  simp only [slotsOf] at h
  split at h
  · simp at h
  · cases h
    have hsize : slot.2.size ≤ Template.nodesSize e.children + 1 := by
      rcases List.mem_append.mp hslot with hslot | hslot
      · split at hslot
        · simp at hslot
        · rw [List.mem_singleton.mp hslot]
          exact Nat.succ_le_succ hunnamed
      · exact hnamed slot hslot
    rw [hdepth, Node.depth]
    omega

theorem Template.Branches.bodies_size {branches : Branches} {f : Fragment}
    (h : f ∈ branches.bodies) : f.size ≤ branches.size := by
  induction branches with
  | done => exact nomatch h
  | otherwise body => rw [List.mem_singleton.mp h, Branches.size]
  | test condition body rest ih =>
    rw [Branches.size]
    rcases List.mem_cons.mp h with rfl | h
    · omega
    · have hle := ih h
      omega

/-- What a node shows in blocks of their own needs less depth than the node. -/
theorem Template.Node.asides_depth {n : Node} {f : Fragment} (h : f ∈ n.asides) :
    (Node.fragment f).depth < n.depth := by
  cases n with
  | ifBlock b =>
    have hsize : f.size ≤ b.consequent.size + Template.optionalSize b.alternate := by
      rcases List.mem_cons.mp h with rfl | h
      · omega
      · have hbody := Template.Branches.bodies_size h
        have halternate := Template.alternateBranches_size b.alternate
        omega
    cases b
    simp only [Node.depth, Node.size, IfBlock.size] at hsize ⊢
    omega
  | eachBlock b =>
    have hfallback : b.fallback = some f := by simpa [Node.asides] using h
    cases b
    simp only at hfallback
    simp only [Node.depth, Node.size, EachBlock.size, hfallback, Template.optionalSize]
    omega
  | element e =>
    rw [Node.asides] at h
    split at h
    · cases hslots : slotsOf e with
      | error d => simp [hslots, Except.toOption] at h
      | ok fs =>
        simp only [hslots, Except.toOption, Option.getD_some, List.mem_map] at h
        obtain ⟨slot, hslot, rfl⟩ := h
        exact slotsOf_depth hslots slot hslot
    · obtain ⟨-, rfl⟩ : ¬e.children.all (·.isBlankText) ∧ ⟨e.children, e.location⟩ = f := by
        simpa [outletContent?] using h
      cases e
      simp only [Node.depth, Node.size, Element.size, Fragment.size]
      omega
    · simp at h
  | _ => simp [Node.asides] at h

variable {σ : Shift} {base : Block} {q : Seat} {o : Options} {v₁ v₂ : Transform Unit} {depth : Nat}

/-- The visits agree on nodes that need no more than the depth. -/
def AgreeTo (σ : Shift) (depth : Nat) (v₁ v₂ : Transform Unit) : Prop :=
  ∀ base q, q.depth ≤ depth → Agree σ base q Same v₁ v₂

/-- Contexts of nodes that nothing has been done for. -/
theorem Corresponds.fresh {n : Node} {f₁ f₂ : Option Frame} {isBlockRoot : Bool} {b₁ b₂ : Block}
    {s₁ s₂ : Session} (depth : n.depth ≤ q.depth) (parent : Option.Rel q.Matches f₁ f₂)
    (run : n.isInterpolation = true → q.SameRun) (session : σ.Relates s₁ s₂)
    (distinct : AreDistinct b₂.effects)
    (block : ∀ r, σ.Fits r s₂.templates → b₁ = base.join (b₂.rename r)) :
    Corresponds σ base q
      { node := n, parent := f₁, index := q.index₁, isBlockRoot, block := b₁, session := s₁ }
      { node := n, parent := f₂, index := q.index₂, isBlockRoot, block := b₂, session := s₂ } :=
  { node := rfl, depth, parent, index₁ := rfl, index₂ := rfl, run, isBlockRoot := rfl
    template := rfl, childrenTemplate := rfl, consumedChildren := rfl, removed := rfl
    session, distinct, block, dynamic := fun _ _ => rfl, slots := fun _ _ => rfl }

theorem Shift.Relates.newBlock {s₁ s₂ : Session} (h : σ.Relates s₁ s₂) (n : Node) :
    Corresponds σ Block.empty (Seat.root n.depth) (Context.newBlock n s₁)
      (Context.newBlock n s₂) :=
  Corresponds.referenced (.fresh (Nat.le_refl _) .none (fun _ => rfl) h .nil fun _ _ => rfl)

theorem Corresponds.toBlock {q : Seat} {c₁ c₂ : Context}
    (h : Corresponds σ Block.empty q c₁ c₂) :
    σ.Renamed Block.rename c₂.session.templates c₁.toBlock c₂.toBlock := by
  intro r hr
  have hdistinct := h.distinct.rename r
  rw [Context.toBlock, h.block r hr, h.node, h.dynamic r hr, Context.toBlock]
  cases hb : c₂.block
  rw [hb] at hdistinct
  simp only [Block.join, Block.empty, Block.rename, joinEffects_nil hdistinct, List.nil_append]

theorem agree_createBlock (hv : AgreeTo σ depth v₁ v₂) {n : Node} (hn : n.depth ≤ depth) :
    Agree σ base q (σ.Renamed Block.rename) (createBlock v₁ n) (createBlock v₂ n) := by
  intro c₁ c₂ hc
  have hvisit := hv Block.empty (Seat.root n.depth) hn (hc.session.newBlock n)
  rw [createBlock_eq, createBlock_eq]
  generalize v₁ (Context.newBlock n c₁.session) = r₁ at hvisit
  generalize v₂ (Context.newBlock n c₂.session) = r₂ at hvisit
  cases hvisit with
  | ok hk hs _ =>
    have hs := (Session.Extends.allocateId c₂.session).trans hs
    exact .ok (hc.during hk.session hs.templates) hs hk.toBlock
  | error e k₁ k₂ => exact .error e _ _

theorem agree_createLoopBody (hv : AgreeTo σ depth v₁ v₂) (names : List String) {b : EachBlock}
    (hdepth : (Node.fragment b.body).depth ≤ depth) :
    Agree σ base q
      (fun templates x₁ x₂ => σ.Renamed Block.rename templates x₁.1 x₂.1 ∧
        Option.Rel Eq x₁.2 x₂.2)
      (createLoopBody o v₁ names b) (createLoopBody o v₂ names b) := by
  intro c₁ c₂ hc
  have henter : (c₂.session.enterLoop names).templates = c₂.session.templates := by
    rw [Session.enterLoop_eq]
  have hbody := agree_createBlock hv hdepth
    (hc.during (hc.session.enterLoop names) (henter ▸ List.prefix_rfl))
  rw [createLoopBody_eq, createLoopBody_eq]
  generalize createBlock v₁ _ _ = r₁ at hbody
  generalize createBlock v₂ _ _ = r₂ at hbody
  cases hbody with
  | error e k₁ k₂ => exact .error e _ _
  | @ok body₁ body₂ k₁ k₂ hk hs hbody =>
    have hqualified : ∀ e : Expression, e.qualified o k₁.session = e.qualified o k₂.session :=
      Expression.qualified_congr hk.session.isIdentifier o
    have hleave : (k₂.session.leaveLoop names).templates = k₂.session.templates := by
      rw [Session.leaveLoop_eq]
    have hmore : k₂.session.templates <+: (k₂.session.leaveLoop names).templates :=
      hleave ▸ List.prefix_rfl
    simp only [hqualified]
    split
    · exact .error _ _ _
    · exact .ok (hk.during (hk.session.leaveLoop names) hmore) hs.leaveLoop
        ⟨hbody.of_longer hmore, optionRel_eq.mpr rfl⟩

end TemplateCompiler
