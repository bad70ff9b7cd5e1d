import TemplateCompiler.Proofs.Siblings.Sessions
import TemplateCompiler.Proofs.Template.Depth
import TemplateCompiler.Proofs.Transform.Simulating

/-! # Runs that agree

Two runs of a transformation agree if one does what the other does, only that other nodes came
before it. Rules for composed transformations reduce this to their steps.
-/

namespace TemplateCompiler

open Template (Node)
open Transform Comparison

/-! ## Places among siblings -/

/-- The place of a node in two lists of siblings. In the second one siblings are taken over up to a
limit. -/
structure Seat where
  /-- The tag of the parent. -/
  tag : Option String
  children₁ : List Node
  children₂ : List Node
  index₁ : Nat
  index₂ : Nat
  limit : Nat
  /-- A bound for the depth that a visit of the node needs. -/
  depth : Nat
  index_le : index₂ ≤ limit
  length_le : children₂.length ≤ limit

namespace Seat

/-- The place of a node without siblings. -/
def root (depth : Nat) : Seat where
  tag := none
  children₁ := []
  children₂ := []
  index₁ := 0
  index₂ := 0
  limit := 0
  depth := depth
  index_le := Nat.le_refl 0
  length_le := Nat.le_refl 0

/-- The same text-like nodes follow in both lists. -/
def SameRun (q : Seat) : Prop :=
  (q.children₁.drop q.index₁).takeWhile (·.isTextLike) =
    (q.children₂.drop q.index₂).takeWhile (·.isTextLike)

/-- The frames are those of the two lists, and as many siblings are taken over in both. -/
structure Matches (q : Seat) (f₁ f₂ : Frame) : Prop where
  tag₁ : f₁.tag = q.tag
  tag₂ : f₂.tag = q.tag
  children₁ : f₁.children = q.children₁
  children₂ : f₂.children = q.children₂
  consumed : f₁.consumedUntil - q.index₁ = f₂.consumedUntil - q.index₂
  consumed_le : f₂.consumedUntil ≤ q.limit

end Seat

/-! ## Contexts -/

/-- The context `c₁` is `c₂` with other things before it, of which `base` is in the block. -/
structure Corresponds (σ : Shift) (base : Block) (q : Seat) (c₁ c₂ : Context) : Prop where
  node : c₁.node = c₂.node
  depth : c₂.node.depth ≤ q.depth
  parent : Option.Rel q.Matches c₁.parent c₂.parent
  index₁ : c₁.index = q.index₁
  index₂ : c₂.index = q.index₂
  run : c₂.node.isInterpolation = true → q.SameRun
  isBlockRoot : c₁.isBlockRoot = c₂.isBlockRoot
  template : c₁.template = c₂.template
  childrenTemplate : c₁.childrenTemplate = c₂.childrenTemplate
  consumedChildren : c₁.consumedChildren = c₂.consumedChildren
  removed : c₁.removed = c₂.removed
  session : σ.Relates c₁.session c₂.session
  distinct : AreDistinct c₂.block.effects
  block : ∀ r, σ.Fits r c₂.session.templates → c₁.block = base.join (c₂.block.rename r)
  dynamic : ∀ r, σ.Fits r c₂.session.templates → c₁.dynamic = c₂.dynamic.rename r
  slots : ∀ r, σ.Fits r c₂.session.templates → c₁.slots = renameSlots r c₂.slots

/-- The renaming that fits, given the pieces of markup. -/
def Shift.toRenaming (σ : Shift) (templates : List String) : Renaming where
  shift := σ.ids
  template := fun i => (joinNew σ.templates templates).idxOf (templates.getD i "")

theorem Shift.fits_toRenaming (σ : Shift) (templates : List String) :
    σ.Fits (σ.toRenaming templates) templates where
  shift := rfl
  template := fun i text h => by simp [toRenaming, h]

namespace Corresponds

variable {σ : Shift} {base : Block} {q : Seat} {c₁ c₂ : Context}

section

variable (h : Corresponds σ base q c₁ c₂)

include h

theorem id : c₁.dynamic.id = c₂.dynamic.id.map (· + σ.ids) := by
  rw [h.dynamic _ (σ.fits_toRenaming _), NodeInfo.rename_id]
  rfl

theorem flags : c₁.dynamic.flags = c₂.dynamic.flags := by
  rw [h.dynamic _ (σ.fits_toRenaming _), NodeInfo.rename_flags]

theorem ownId : c₁.ownId = c₂.ownId + σ.ids := by
  rw [Context.ownId, Context.ownId, h.id, h.session.nextId]
  cases c₂.dynamic.id <;> rfl

theorem flag (flags : Flags) : Corresponds σ base q (c₁.flag flags) (c₂.flag flags) := by
  refine { h with dynamic := fun r hr => ?_ }
  rw [Context.flag, h.dynamic r hr, Context.flag]
  cases c₂.dynamic
  rfl

theorem during {s₁ s₂ : Session} (hs : σ.Relates s₁ s₂)
    (hmore : c₂.session.templates <+: s₂.templates) :
    Corresponds σ base q (c₁.during s₁) (c₂.during s₂) where
  node := h.node
  depth := h.depth
  parent := h.parent
  index₁ := h.index₁
  index₂ := h.index₂
  run := h.run
  isBlockRoot := h.isBlockRoot
  template := h.template
  childrenTemplate := h.childrenTemplate
  consumedChildren := h.consumedChildren
  removed := h.removed
  session := hs
  distinct := h.distinct
  block := fun r hr => h.block r (hr.of_longer hmore)
  dynamic := fun r hr => h.dynamic r (hr.of_longer hmore)
  slots := fun r hr => h.slots r (hr.of_longer hmore)

theorem referenced : Corresponds σ base q c₁.referenced c₂.referenced := by
  cases hid : c₂.dynamic.id with
  | some id =>
    have hid₁ : c₁.dynamic.id = some (id + σ.ids) := by rw [h.id, hid, Option.map_some]
    rwa [Context.referenced_of_some hid, Context.referenced_of_some hid₁]
  | none =>
    have hid₁ : c₁.dynamic.id = none := by rw [h.id, hid, Option.map_none]
    have hs := h.during h.session.allocateId List.prefix_rfl
    simp only [Context.referenced, hid, hid₁, Option.isSome_none]
    refine { hs with dynamic := fun r hr => ?_ }
    simp only [Bool.false_eq_true, if_false, h.session.nextId, ← hr.shift, h.dynamic r hr]
    cases c₂.dynamic
    rfl

theorem add {x₁ x₂ : Contribution} (hx : ∀ r, σ.Fits r c₂.session.templates → x₁ = x₂.rename r) :
    Corresponds σ base q (c₁.add x₁) (c₂.add x₂) := by
  refine { h with distinct := Block.areDistinct_add h.distinct x₂, block := fun r hr => ?_ }
  have hdistinct : AreDistinct (c₂.block.rename r).effects := by
    rw [Block.rename_effects]
    exact h.distinct.rename r
  simp only [Context.add, h.block r hr, hx r hr, Block.rename_add, Block.join_add hdistinct]

theorem withTemplate {i₁ i₂ : Nat} (hi : ∀ r, σ.Fits r c₂.session.templates → i₁ = r.template i₂) :
    Corresponds σ base q { c₁ with dynamic := { c₁.dynamic with template := some i₁ } }
      { c₂ with dynamic := { c₂.dynamic with template := some i₂ } } := by
  refine { h with dynamic := fun r hr => ?_ }
  simp only [h.dynamic r hr, hi r hr]
  cases c₂.dynamic
  rfl

theorem parent_cases : (c₁.parent = none ∧ c₂.parent = none) ∨
      ∃ f₁ f₂, c₁.parent = some f₁ ∧ c₂.parent = some f₂ ∧ q.Matches f₁ f₂ := by
  have hparent := h.parent
  generalize c₁.parent = p₁ at hparent
  generalize c₂.parent = p₂ at hparent
  cases hparent with
  | none => exact .inl ⟨rfl, rfl⟩
  | @some f₁ f₂ hf => exact .inr ⟨f₁, f₂, rfl, rfl, hf⟩

/-- The node is taken over in one list of siblings if it is so in the other. -/
theorem isAbsorbed :
    c₁.parent.any (c₁.index < ·.consumedUntil) = c₂.parent.any (c₂.index < ·.consumedUntil) := by
  rw [h.index₁, h.index₂]
  rcases h.parent_cases with ⟨hp₁, hp₂⟩ | ⟨f₁, f₂, hp₁, hp₂, hf⟩
  · rw [hp₁, hp₂]
    rfl
  · have hconsumed := hf.consumed
    simp only [hp₁, hp₂, Option.any_some, decide_eq_decide]
    omega

theorem parentTag : c₁.parent.bind (·.tag) = c₂.parent.bind (·.tag) := by
  rcases h.parent_cases with ⟨hp₁, hp₂⟩ | ⟨f₁, f₂, hp₁, hp₂, hf⟩
  · rw [hp₁, hp₂]
  · rw [hp₁, hp₂]
    exact hf.tag₁.trans hf.tag₂.symm

theorem write (text : String) : Corresponds σ base q (c₁.write text) (c₂.write text) :=
  { h with template := congrArg (· ++ text) h.template }

end

end Corresponds

/-! ## Outcomes -/

/-- A relation of values, which may depend on the pieces of markup of the second session. -/
abbrev ValueRelation (α : Type) := List String → α → α → Prop

/-- The values are the same. -/
def Same {α : Type} : ValueRelation α := fun _ a₁ a₂ => a₁ = a₂

/-- The values are ids of the same node. -/
def Shift.SameNode (σ : Shift) : ValueRelation Nat := fun _ i₁ i₂ => i₁ = i₂ + σ.ids

/-- The values are the same, up to the place that ids and markup have. -/
def Shift.Renamed {α : Type} (σ : Shift) (rename : Renaming → α → α) : ValueRelation α :=
  fun templates a₁ a₂ => ∀ r, σ.Fits r templates → a₁ = rename r a₂

theorem Shift.Renamed.of_longer {σ : Shift} {α : Type} {rename : Renaming → α → α}
    {templates templates' : List String} {a₁ a₂ : α} (h : σ.Renamed rename templates a₁ a₂)
    (hmore : templates <+: templates') : σ.Renamed rename templates' a₁ a₂ :=
  fun r hr => h r (hr.of_longer hmore)

/-- The values do not matter. -/
def Irrelevant {α : Type} : ValueRelation α := fun _ _ _ => True

/-- The outcomes are the same, or errors that are the same. The second run began in session `s`. -/
inductive Agrees (σ : Shift) (base : Block) (q : Seat) (s : Session) {α : Type}
    (V : ValueRelation α) :
    EStateM.Result Diagnostic Context α → EStateM.Result Diagnostic Context α → Prop
  | ok {a₁ a₂ : α} {c₁ c₂ : Context} :
      Corresponds σ base q c₁ c₂ → s.Extends c₂.session → V c₂.session.templates a₁ a₂ →
      Agrees σ base q s V (.ok a₁ c₁) (.ok a₂ c₂)
  | error (e : Diagnostic) (c₁ c₂ : Context) : Agrees σ base q s V (.error e c₁) (.error e c₂)

/-- The transformations agree wherever the contexts correspond. -/
def Agree (σ : Shift) (base : Block) (q : Seat) {α : Type} (V : ValueRelation α)
    (t₁ t₂ : Transform α) : Prop :=
  ∀ ⦃c₁ c₂⦄, Corresponds σ base q c₁ c₂ → Agrees σ base q c₂.session V (t₁ c₁) (t₂ c₂)

/-! ## Steps -/

/-- Runs are compared in contexts that correspond. -/
def Shift.comparison (σ : Shift) (base : Block) (q : Seat) : Comparison where
  Related := Corresponds σ base q
  Later c k := c.session.Extends k.session
  Fails _ _ := True
  isOneWay := False
  refl _ := .refl _
  trans := .trans
  fails _ := trivial

section Steps

variable {σ : Shift} {base : Block} {q : Seat} {α : Type} {V : ValueRelation α}
  {t₁ t₂ : Transform α} {w c₁ c₂ : Context}

theorem Agree.runs (h : Agree σ base q V t₁ t₂) :
    (σ.comparison base q).Runs w (fun k => V k.session.templates) t₁ t₂ := by
  intro c₁ c₂ hc _
  have hrun := h hc
  generalize t₁ c₁ = r₁ at hrun
  generalize t₂ c₂ = r₂ at hrun
  cases hrun with
  | ok hk hs hv => exact .ok hk hs hv
  | error e => exact .error e trivial

theorem agree_of_runs
    (h : ∀ w, (σ.comparison base q).Runs w (fun k => V k.session.templates) t₁ t₂) :
    Agree σ base q V t₁ t₂ := by
  intro c₁ c₂ hc
  have hrun := h c₂ hc (.refl _)
  generalize t₁ c₁ = r₁ at hrun
  generalize t₂ c₂ = r₂ at hrun
  cases hrun with
  | ok hk hs hv => exact .ok hk hs hv
  | error e => exact .error e _ _
  | excused _ hone => exact hone.elim

theorem runs_reference :
    (σ.comparison base q).Runs w (fun _ => σ.SameNode []) reference reference := by
  intro c₁ c₂ hc _
  rw [reference_run, reference_run]
  refine .ok hc.referenced ?_ hc.ownId
  change c₂.session.Extends c₂.referenced.session
  unfold Context.referenced
  dsimp only
  split
  · exact .refl _
  · exact .allocateId _

theorem runs_allocateId :
    (σ.comparison base q).Runs w (fun _ => σ.SameNode []) allocateId allocateId := by
  intro c₁ c₂ hc _
  rw [allocateId_run, allocateId_run]
  exact .ok (hc.during hc.session.allocateId List.prefix_rfl) (.allocateId _) hc.session.nextId

theorem runs_setApart (text : String) :
    (σ.comparison base q).Runs w (fun _ => Irrelevant [])
      (do
        let i ← addTemplate text
        modifyDynamic fun d => { d with template := some i }
        return i)
      (do
        let i ← addTemplate text
        modifyDynamic fun d => { d with template := some i }
        return i) := by
  intro c₁ c₂ hc _
  have hs := Session.Extends.addTemplate c₂.session text
  exact .ok ((hc.during (hc.session.addTemplate text) hs.templates).withTemplate fun r hr =>
    hc.session.addTemplate_fst hr) hs trivial

theorem runs_registerOperation {op₁ op₂ : Operation}
    (h : ∀ r, σ.Fits r w.session.templates → op₁ = op₂.rename r) :
    (σ.comparison base q).Runs w Equal (registerOperation op₁) (registerOperation op₂) := by
  intro c₁ c₂ hc hw
  rw [registerOperation_run, registerOperation_run]
  refine .ok (hc.add fun r hr => ?_) (.refl _) rfl
  rw [h r (hr.of_longer hw.templates), Contribution.rename]

theorem runs_registerEffect {op₁ op₂ : Operation} (es : List Expression)
    (h : ∀ r : Renaming, r.shift = σ.ids → op₁ = op₂.rename r) :
    (σ.comparison base q).Runs w Equal (registerEffect es op₁) (registerEffect es op₂) := by
  intro c₁ c₂ hc _
  rw [registerEffect_run, registerEffect_run]
  refine .ok (hc.add fun r hr => ?_) (.refl _) rfl
  rw [h r hr.shift, Contribution.rename]

theorem runs_modify {g₁ g₂ : Context → Context} (hs : ∀ c, (g₂ c).session = c.session)
    (h : ∀ c₁ c₂, Corresponds σ base q c₁ c₂ → w.session.Extends c₂.session →
      Corresponds σ base q (g₁ c₁) (g₂ c₂)) :
    (σ.comparison base q).Runs w Equal (modify g₁) (modify g₂) :=
  .modify fun c₁ c₂ hc hw => ⟨h c₁ c₂ hc hw, by
    change c₂.session.Extends (g₂ c₂).session
    rw [hs]
    exact .refl _⟩

theorem runs_modifySession {g : Session → Session}
    (h : ∀ s₁ s₂, σ.Relates s₁ s₂ → σ.Relates (g s₁) (g s₂) ∧ s₂.Extends (g s₂)) :
    (σ.comparison base q).Runs w Equal (modifySession g) (modifySession g) := fun _ _ hc _ =>
  .ok (hc.during (h _ _ hc.session).1 (h _ _ hc.session).2.templates) (h _ _ hc.session).2 rfl

end Steps

end TemplateCompiler
