import TemplateCompiler.Proofs.Block.Contents

/-! # Blocks after others

What becomes of a block when other nodes are compiled before it: its ids are larger, its markup has
other numbers, and its effects join those that are there.
-/

namespace TemplateCompiler

variable {e : Effect} {es : List Effect}

/-! ## Ids and numbers -/

/-- How ids and the numbers of markup change. -/
structure Renaming where
  shift : Nat
  template : Nat → Nat

mutual

def NodeInfo.rename (r : Renaming) : NodeInfo → NodeInfo
  | ⟨id, flags, anchor, children, template, hasDynamicChild⟩ =>
    ⟨id.map (· + r.shift), flags, anchor.map (· + r.shift), renameNodes r children,
      template.map r.template, hasDynamicChild⟩

def renameNodes (r : Renaming) : List NodeInfo → List NodeInfo
  | [] => []
  | d :: ds => d.rename r :: renameNodes r ds

end

mutual

def Block.rename (r : Renaming) : Block → Block
  | ⟨node, dynamic, effects, operations, returns⟩ =>
    ⟨node, dynamic.rename r, renameEffects r effects, renameOperations r operations,
      returns.map (· + r.shift)⟩

def Effect.rename (r : Renaming) : Effect → Effect
  | ⟨expressions, operations⟩ => ⟨expressions, renameOperations r operations⟩

def Operation.rename (r : Renaming) : Operation → Operation
  | .setProp element prop => .setProp (element + r.shift) prop
  | .setDynamicProps element props => .setDynamicProps (element + r.shift) props
  | .setText element values => .setText (element + r.shift) values
  | .setHtml element value => .setHtml (element + r.shift) value
  | .setEvent element key value modifiers effect =>
    .setEvent (element + r.shift) key value modifiers effect
  | .setTemplateRef element value inLoop => .setTemplateRef (element + r.shift) value inLoop
  | .createText id values effect => .createText (id + r.shift) values effect
  | .insertNodes elements parent anchor =>
    .insertNodes (elements.map (· + r.shift)) (parent + r.shift) (anchor.map (· + r.shift))
  | .prependNodes elements parent =>
    .prependNodes (elements.map (· + r.shift)) (parent + r.shift)
  | .createComponent id tag props slots asset =>
    .createComponent (id + r.shift) tag props (renameSlots r slots) asset
  | .branch id condition positive negative =>
    .branch (id + r.shift) condition (positive.rename r) (negative.rename r)
  | .loop id subject value index key body fallback =>
    .loop (id + r.shift) subject value index key (body.rename r) (renameOptional r fallback)
  | .slotOutlet id name props fallback =>
    .slotOutlet (id + r.shift) name props (renameOptional r fallback)
  | .withDirective element name directive builtin asset model =>
    .withDirective (element + r.shift) name directive builtin asset model

def Alternative.rename (r : Renaming) : Alternative → Alternative
  | .nothing => .nothing
  | .block b => .block (b.rename r)
  | .branch id condition positive negative =>
    .branch (id + r.shift) condition (positive.rename r) (negative.rename r)

def renameEffects (r : Renaming) : List Effect → List Effect
  | [] => []
  | e :: es => e.rename r :: renameEffects r es

def renameOperations (r : Renaming) : List Operation → List Operation
  | [] => []
  | op :: ops => op.rename r :: renameOperations r ops

def renameSlots (r : Renaming) : List (String × Block) → List (String × Block)
  | [] => []
  | (name, b) :: slots => (name, b.rename r) :: renameSlots r slots

def renameOptional (r : Renaming) : Option Block → Option Block
  | none => none
  | some b => some (b.rename r)

end

variable (r : Renaming)

theorem renameNodes_eq_map (ds : List NodeInfo) : renameNodes r ds = ds.map (·.rename r) := by
  induction ds with
  | nil => rfl
  | cons d ds ih => rw [renameNodes, ih, List.map_cons]

theorem renameOperations_eq_map (ops : List Operation) :
    renameOperations r ops = ops.map (·.rename r) := by
  induction ops with
  | nil => rfl
  | cons op ops ih => rw [renameOperations, ih, List.map_cons]

theorem renameEffects_eq_map (es : List Effect) : renameEffects r es = es.map (·.rename r) := by
  induction es with
  | nil => rfl
  | cons e es ih => rw [renameEffects, ih, List.map_cons]

/-- The renaming that changes nothing. -/
def Renaming.refl : Renaming := ⟨0, id⟩

@[simp] theorem Renaming.refl_shift : Renaming.refl.shift = 0 := rfl

@[simp] theorem Renaming.refl_template : Renaming.refl.template = id := rfl

mutual

theorem NodeInfo.rename_refl : ∀ d : NodeInfo, d.rename .refl = d
  | ⟨_, _, _, children, _, _⟩ => by
    simp [NodeInfo.rename, renameNodes_refl children]

theorem renameNodes_refl : ∀ ds : List NodeInfo, renameNodes .refl ds = ds
  | [] => rfl
  | d :: ds => by rw [renameNodes, d.rename_refl, renameNodes_refl ds]

end

namespace NodeInfo

@[simp] theorem rename_id (d : NodeInfo) : (d.rename r).id = d.id.map (· + r.shift) := by
  cases d
  rfl

@[simp] theorem rename_flags (d : NodeInfo) : (d.rename r).flags = d.flags := by
  cases d
  rfl

@[simp] theorem rename_children (d : NodeInfo) :
    (d.rename r).children = d.children.map (·.rename r) := by
  cases d
  exact renameNodes_eq_map r _

@[simp] theorem isDynamic_rename (d : NodeInfo) : (d.rename r).isDynamic = d.isDynamic := by
  cases d
  simp [isDynamic, rename]

end NodeInfo

mutual

theorem Block.rename_refl : ∀ b : Block, b.rename .refl = b
  | ⟨_, dynamic, effects, operations, returns⟩ => by
    simp [Block.rename, dynamic.rename_refl, renameEffects_refl effects,
      renameOperations_refl operations]

theorem Effect.rename_refl : ∀ e : Effect, e.rename .refl = e
  | ⟨_, operations⟩ => by rw [Effect.rename, renameOperations_refl operations]

theorem Operation.rename_refl : ∀ op : Operation, op.rename .refl = op
  | .setProp .. | .setDynamicProps .. | .setText .. | .setHtml .. | .setEvent ..
  | .setTemplateRef .. | .createText .. | .withDirective .. => rfl
  | .insertNodes .. | .prependNodes .. => by simp [Operation.rename]
  | .createComponent _ _ _ slots _ => by
    simp [Operation.rename, renameSlots_refl slots]
  | .branch _ _ positive negative => by
    rw [Operation.rename, positive.rename_refl, negative.rename_refl]
    rfl
  | .loop _ _ _ _ _ body fallback => by
    rw [Operation.rename, body.rename_refl, renameOptional_refl fallback]
    rfl
  | .slotOutlet _ _ _ fallback => by
    rw [Operation.rename, renameOptional_refl fallback]
    rfl

theorem Alternative.rename_refl : ∀ a : Alternative, a.rename .refl = a
  | .nothing => rfl
  | .block b => by rw [Alternative.rename, b.rename_refl]
  | .branch _ _ positive negative => by
    rw [Alternative.rename, positive.rename_refl, negative.rename_refl]
    rfl

theorem renameEffects_refl : ∀ es : List Effect, renameEffects .refl es = es
  | [] => rfl
  | e :: es => by rw [renameEffects, e.rename_refl, renameEffects_refl es]

theorem renameOperations_refl : ∀ ops : List Operation, renameOperations .refl ops = ops
  | [] => rfl
  | op :: ops => by rw [renameOperations, op.rename_refl, renameOperations_refl ops]

theorem renameSlots_refl : ∀ slots : List (String × Block), renameSlots .refl slots = slots
  | [] => rfl
  | (_, b) :: slots => by rw [renameSlots, b.rename_refl, renameSlots_refl slots]

theorem renameOptional_refl : ∀ b : Option Block, renameOptional .refl b = b
  | none => rfl
  | some b => by rw [renameOptional, b.rename_refl]

end

/-! ## Effects -/

/-- What matters of expressions when effects are compared. -/
def signature (es : List Expression) : List (String × Bool) :=
  es.map fun e => (e.content, e.isStatic)

theorem Expression.sameAll_iff {as bs : List Expression} :
    sameAll as bs = true ↔ signature as = signature bs := by
  induction as generalizing bs with
  | nil => cases bs <;> simp [sameAll, signature]
  | cons a as ih =>
    cases bs with
    | nil => simp [sameAll, signature]
    | cons b bs => simp [sameAll, same, ih, signature]

/-- Adds an effect to the first one with the same expressions, or after all of them. -/
def joinEffect : List Effect → Effect → List Effect
  | [], e => [e]
  | f :: fs, e =>
    if Expression.sameAll f.expressions e.expressions then
      { f with operations := f.operations ++ e.operations } :: fs
    else f :: joinEffect fs e

def joinEffects (base es : List Effect) : List Effect := es.foldl joinEffect base

/-- No two effects have the same expressions. -/
def AreDistinct (es : List Effect) : Prop :=
  es.Pairwise fun e f => signature e.expressions ≠ signature f.expressions

theorem addToEffects_eq (expressions : List Expression) (op : Operation) (es : List Effect) :
    addToEffects expressions op es = joinEffect es ⟨expressions, [op]⟩ := by
  induction es with
  | nil => rfl
  | cons e es ih => rw [addToEffects, joinEffect, ih]

/-- Effects keep their expressions when another one joins them. -/
theorem map_signature_joinEffect (es : List Effect) (e : Effect) :
    (joinEffect es e).map (signature ·.expressions) =
      if signature e.expressions ∈ es.map (signature ·.expressions) then
        es.map (signature ·.expressions)
      else es.map (signature ·.expressions) ++ [signature e.expressions] := by
  induction es with
  | nil => simp [joinEffect]
  | cons f fs ih =>
    rw [joinEffect]
    split
    · rename_i h
      simp [Expression.sameAll_iff.mp h]
    · rename_i h
      have hne : signature e.expressions ≠ signature f.expressions := fun heq =>
        h (Expression.sameAll_iff.mpr heq.symm)
      rw [List.map_cons, ih]
      by_cases hmem : signature e.expressions ∈ fs.map (signature ·.expressions)
      · simp [hmem]
      · simp [hmem, hne]

theorem AreDistinct.joinEffect (h : AreDistinct es) (e : Effect) :
    AreDistinct (joinEffect es e) := by
  have hnodup : ∀ es : List Effect, AreDistinct es ↔ (es.map (signature ·.expressions)).Nodup :=
    fun es => List.pairwise_map.symm
  rw [hnodup] at h ⊢
  rw [map_signature_joinEffect]
  split
  · exact h
  · rename_i hmem
    simpa [List.nodup_append] using ⟨h, fun f hf heq => hmem (List.mem_map.mpr ⟨f, hf, heq⟩)⟩

/-- An effect that joins another one and one that joins a third can join in any order. -/
theorem joinEffect_comm {f : Effect}
    (hmem : signature e.expressions ∈ es.map (signature ·.expressions))
    (hne : signature e.expressions ≠ signature f.expressions) :
    joinEffect (joinEffect es f) e = joinEffect (joinEffect es e) f := by
  induction es with
  | nil => simp at hmem
  | cons g gs ih =>
    by_cases hge : signature g.expressions = signature e.expressions
    · have hgf : ¬Expression.sameAll g.expressions f.expressions = true := fun h =>
        hne (hge.symm.trans (Expression.sameAll_iff.mp h))
      have hge' := Expression.sameAll_iff.mpr hge
      simp [joinEffect, hge', hgf]
    · have hge' : ¬Expression.sameAll g.expressions e.expressions = true := fun h =>
        hge (Expression.sameAll_iff.mp h)
      have hrest : signature e.expressions ∈ gs.map (signature ·.expressions) := by
        simpa [Ne.symm hge] using hmem
      by_cases hgf : Expression.sameAll g.expressions f.expressions = true
      · simp [joinEffect, hge', hgf]
      · simp [joinEffect, hge', hgf, ih hrest]

/-- An effect joins before others that it is different from. -/
theorem joinEffects_comm {base : List Effect}
    (hmem : signature e.expressions ∈ base.map (signature ·.expressions))
    (hne : ∀ f ∈ es, signature e.expressions ≠ signature f.expressions) :
    joinEffect (joinEffects base es) e = joinEffects (joinEffect base e) es := by
  induction es generalizing base with
  | nil => rfl
  | cons f fs ih =>
    have hmem' : signature e.expressions ∈ (joinEffect base f).map (signature ·.expressions) := by
      rw [map_signature_joinEffect]
      split
      · exact hmem
      · exact List.mem_append_left _ hmem
    simp only [joinEffects, List.foldl_cons]
    rw [← joinEffect_comm hmem (hne f (by simp))]
    exact ih hmem' fun g hg => hne g (by simp [hg])

theorem joinEffect_joinEffect {base : List Effect} {f : Effect}
    (h : Expression.sameAll f.expressions e.expressions = true) : joinEffect (joinEffect base f) e =
      joinEffect base { f with operations := f.operations ++ e.operations } := by
  induction base with
  | nil => simp [joinEffect, h]
  | cons g gs ih =>
    by_cases hgf : Expression.sameAll g.expressions f.expressions = true
    · have hge : Expression.sameAll g.expressions e.expressions = true := by
        rw [Expression.sameAll_iff] at *
        exact hgf.trans h
      simp [joinEffect, hgf, hge]
    · have hge : ¬Expression.sameAll g.expressions e.expressions = true := by
        rw [Expression.sameAll_iff] at *
        exact fun hge => hgf (hge.trans h.symm)
      simp [joinEffect, hgf, hge, ih]

theorem mem_joinEffect (base : List Effect) (e : Effect) :
    signature e.expressions ∈ (joinEffect base e).map (signature ·.expressions) := by
  rw [map_signature_joinEffect]
  split
  · assumption
  · exact List.mem_append_right _ (List.mem_singleton_self _)

/-- Adding to effects and joining them with others is joining with what is added to. -/
theorem joinEffect_joinEffects {base : List Effect} (h : AreDistinct es) :
    joinEffect (joinEffects base es) e = joinEffects base (joinEffect es e) := by
  induction es generalizing base with
  | nil => rfl
  | cons f fs ih =>
    obtain ⟨hf, hfs⟩ := List.pairwise_cons.mp h
    by_cases hfe : Expression.sameAll f.expressions e.expressions = true
    · have heq := Expression.sameAll_iff.mp hfe
      have hmem :
          signature e.expressions ∈ (joinEffect base f).map (signature ·.expressions) := by
        rw [← heq]
        exact mem_joinEffect base f
      rw [joinEffect, if_pos hfe, joinEffects, List.foldl_cons]
      change joinEffect (joinEffects (joinEffect base f) fs) e = _
      rw [joinEffects_comm hmem fun g hg => heq ▸ hf g hg, joinEffect_joinEffect hfe]
      rfl
    · rw [joinEffect, if_neg hfe, joinEffects, List.foldl_cons]
      exact ih hfs

theorem joinEffects_nil (h : AreDistinct es) : joinEffects [] es = es := by
  have hlast : ∀ {es : List Effect} {e : Effect},
      (∀ f ∈ es, signature f.expressions ≠ signature e.expressions) →
      joinEffect es e = es ++ [e] := by
    intro es e hes
    induction es with
    | nil => rfl
    | cons f fs ih =>
      have hfe : ¬Expression.sameAll f.expressions e.expressions = true := fun hsame =>
        hes f (by simp) (Expression.sameAll_iff.mp hsame)
      rw [joinEffect, if_neg hfe, ih fun g hg => hes g (by simp [hg]), List.cons_append]
  have happend : ∀ {done es : List Effect}, AreDistinct (done ++ es) →
      joinEffects done es = done ++ es := by
    intro done es h
    induction es generalizing done with
    | nil => simp [joinEffects]
    | cons e es ih =>
      have hdone := (List.pairwise_append.mp h).2.2
      rw [joinEffects, List.foldl_cons, hlast fun f hf => hdone f hf e (by simp)]
      change joinEffects (done ++ [e]) es = _
      rw [ih (by simpa using h), List.append_assoc, List.singleton_append]
  have hall : joinEffects [] es = [] ++ es := happend (by simpa using h)
  rw [hall, List.nil_append]

/-! ## Blocks -/

/-- The first block, followed by what the second one does. -/
def Block.join (base b : Block) : Block :=
  { base with
    effects := joinEffects base.effects b.effects
    operations := base.operations ++ b.operations
    returns := base.returns ++ b.returns }

def Contribution.rename (r : Renaming) : Contribution → Contribution
  | once op => once (op.rename r)
  | whenever es op => whenever es (op.rename r)

theorem Effect.rename_expressions (e : Effect) : (e.rename r).expressions = e.expressions := by
  cases e
  rfl

theorem AreDistinct.rename (h : AreDistinct es) : AreDistinct (renameEffects r es) := by
  rw [renameEffects_eq_map]
  refine List.pairwise_map.mpr (h.imp fun hne => ?_)
  rwa [Effect.rename_expressions, Effect.rename_expressions]

theorem renameEffects_addToEffects (es : List Expression) (op : Operation)
    (effects : List Effect) :
    renameEffects r (addToEffects es op effects) =
      addToEffects es (op.rename r) (renameEffects r effects) := by
  induction effects with
  | nil => rfl
  | cons e effects ih =>
    obtain ⟨expressions, operations⟩ := e
    simp only [addToEffects, renameEffects, Effect.rename]
    split
    · simp [renameEffects, Effect.rename, renameOperations_eq_map]
    · simp [renameEffects, Effect.rename, ih]

namespace Block

variable {r} {base b : Block} {x : Contribution}

theorem rename_effects (b : Block) : (b.rename r).effects = renameEffects r b.effects := by
  cases b
  rfl

theorem rename_register (b : Block) (op : Operation) :
    (b.register op).rename r = (b.rename r).register (op.rename r) := by
  cases b
  simp [register, rename, renameOperations_eq_map]

theorem rename_add (b : Block) (x : Contribution) :
    (b.add x).rename r = (b.rename r).add (x.rename r) := by
  cases x with
  | once op => exact b.rename_register op
  | whenever es op =>
    simp only [add, Contribution.rename, registerEffect]
    split
    · exact b.rename_register op
    · cases b
      simp [rename, renameEffects_addToEffects]

theorem join_add (h : AreDistinct b.effects) : base.join (b.add x) = (base.join b).add x := by
  have honce : ∀ op, base.join (b.register op) = (base.join b).register op := by
    intro op
    simp [join, register]
  cases x with
  | once op => exact honce op
  | whenever es op =>
    simp only [add, registerEffect]
    split
    · exact honce op
    · simp only [join, addToEffects_eq, joinEffect_joinEffects h]

theorem areDistinct_add (h : AreDistinct b.effects) (x : Contribution) :
    AreDistinct (b.add x).effects := by
  cases x with
  | once op => exact h
  | whenever es op =>
    simp only [add, registerEffect]
    split
    · exact h
    · rw [addToEffects_eq]
      exact h.joinEffect _

theorem join_empty (base : Block) : base.join Block.empty = base := by
  cases base
  simp [join, empty, joinEffects]

end Block

end TemplateCompiler
