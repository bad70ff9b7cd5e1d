import TemplateCompiler.Block.Operation
import Mathlib.Data.List.Perm.Basic

/-! # What a block holds

All operations of a block, whether they run once or in an effect, and all blocks inside a block.
-/

namespace TemplateCompiler

/-! ## Operations -/

/-- The operations of a block, those of its effects included. -/
def Block.allOperations (b : Block) : List Operation :=
  b.operations ++ b.effects.flatMap (·.operations)

/-- What a block receives: an operation to run once, or one that depends on expressions. -/
inductive Contribution
  | once (op : Operation)
  | whenever (expressions : List Expression) (op : Operation)

namespace Contribution

def op : Contribution → Operation
  | once op | whenever _ op => op

def expressions : Contribution → List Expression
  | once _ => []
  | whenever es _ => es

end Contribution

def Block.add (b : Block) : Contribution → Block
  | .once op => b.register op
  | .whenever es op => b.registerEffect es op

variable {b : Block} {op : Operation} {x : Contribution}

theorem Block.node_add (b : Block) (x : Contribution) : (b.add x).node = b.node := by
  cases x with
  | once op => rfl
  | whenever es op =>
    simp only [add, registerEffect]
    split <;> rfl

theorem Block.dynamic_add (b : Block) (x : Contribution) : (b.add x).dynamic = b.dynamic := by
  cases x with
  | once op => rfl
  | whenever es op =>
    simp only [add, registerEffect]
    split <;> rfl

theorem Block.returns_add (b : Block) (x : Contribution) : (b.add x).returns = b.returns := by
  cases x with
  | once op => rfl
  | whenever es op =>
    simp only [add, registerEffect]
    split <;> rfl

/-- Adding to the effects loses none of their operations and adds the new one once. -/
theorem addToEffects_perm (es : List Expression) (op : Operation) (effects : List Effect) :
    ((addToEffects es op effects).flatMap (·.operations)).Perm
      (op :: effects.flatMap (·.operations)) := by
  induction effects with
  | nil => simp [addToEffects]
  | cons e rest ih =>
    rw [addToEffects]
    split
    · simp only [List.flatMap_cons, List.append_assoc]
      exact List.perm_middle
    · simp only [List.flatMap_cons]
      exact (ih.append_left e.operations).trans List.perm_middle

theorem Block.allOperations_add (b : Block) (x : Contribution) :
    (b.add x).allOperations.Perm (x.op :: b.allOperations) := by
  have honce : ∀ op, (b.register op).allOperations.Perm (op :: b.allOperations) := by
    intro op
    simp only [allOperations, register, List.append_assoc, List.singleton_append]
    exact List.perm_middle
  cases x with
  | once op => exact honce op
  | whenever es op =>
    simp only [add, registerEffect]
    split
    · exact honce op
    · exact ((addToEffects_perm _ op b.effects).append_left b.operations).trans List.perm_middle

theorem Block.mem_allOperations_add :
    op ∈ (b.add x).allOperations ↔ op = x.op ∨ op ∈ b.allOperations := by
  rw [(b.allOperations_add x).mem_iff, List.mem_cons]

theorem Block.mem_allOperations_foldl_add {xs : List Contribution} :
    op ∈ (xs.foldl add b).allOperations ↔ op ∈ xs.map (·.op) ∨ op ∈ b.allOperations := by
  induction xs generalizing b with
  | nil => simp
  | cons x xs ih => simp [ih, mem_allOperations_add, or_assoc, or_left_comm]

/-- Contributions go after the operations to run once, or into effects. -/
theorem Block.operations_add (b : Block) (xs : List Contribution) :
    ∃ new, (xs.foldl add b).operations = b.operations ++ new ∧ new ⊆ xs.map (·.op) := by
  induction xs generalizing b with
  | nil => exact ⟨[], by simp, by simp⟩
  | cons x xs ih =>
    obtain ⟨new, hnew, hsub⟩ := ih (b.add x)
    have hone : (b.add x).operations = b.operations ++ [x.op] ∨
        (b.add x).operations = b.operations := by
      cases x with
      | once op => exact .inl rfl
      | whenever es op =>
        simp only [add, registerEffect]
        split
        · exact .inl rfl
        · exact .inr rfl
    rcases hone with hone | hone
    · refine ⟨x.op :: new, ?_, List.cons_subset_cons _ hsub⟩
      rw [List.foldl_cons, hnew, hone, List.append_assoc, List.singleton_append]
    · refine ⟨new, ?_, List.subset_cons_of_subset _ hsub⟩
      rw [List.foldl_cons, hnew, hone]

/-- The expressions of an effect are those of an effect that was there, or of the contribution. -/
theorem Block.effects_add {e : Effect} (he : e ∈ (b.add x).effects) :
    (∃ e' ∈ b.effects, e.expressions = e'.expressions) ∨ e.expressions ⊆ x.expressions := by
  have hadd : ∀ (es : List Expression) (op : Operation) (effects : List Effect),
      e ∈ addToEffects es op effects →
        (∃ e' ∈ effects, e.expressions = e'.expressions) ∨ e.expressions = es := by
    intro es op effects
    induction effects with
    | nil =>
      intro h
      simp only [addToEffects, List.mem_singleton] at h
      simp [h]
    | cons d rest ih =>
      rw [addToEffects]
      split
      · intro h
        rcases List.mem_cons.mp h with rfl | h
        · exact .inl ⟨d, by simp, rfl⟩
        · exact .inl ⟨e, by simp [h], rfl⟩
      · intro h
        rcases List.mem_cons.mp h with rfl | h
        · exact .inl ⟨e, by simp, rfl⟩
        · rcases ih h with ⟨e', he', heq⟩ | heq
          · exact .inl ⟨e', by simp [he'], heq⟩
          · exact .inr heq
  cases x with
  | once op => exact .inl ⟨e, he, rfl⟩
  | whenever es op =>
    simp only [add, registerEffect] at he
    split at he
    · exact .inl ⟨e, he, rfl⟩
    · rcases hadd _ _ _ he with h | h
      · exact .inl h
      · exact .inr (h ▸ List.filter_subset_self _)

/-! ## Blocks -/

mutual

/-- The block and all blocks inside it. -/
def Block.blocks : Block → List Block
  | ⟨node, dynamic, effects, operations, returns⟩ =>
    ⟨node, dynamic, effects, operations, returns⟩ ::
      (operationBlocks operations ++ effectBlocks effects)

def effectBlocks : List Effect → List Block
  | [] => []
  | ⟨_, operations⟩ :: effects => operationBlocks operations ++ effectBlocks effects

def operationBlocks : List Operation → List Block
  | [] => []
  | op :: ops => op.blocks ++ operationBlocks ops

/-- The blocks that an operation shows, and all blocks inside them. -/
def Operation.blocks : Operation → List Block
  | .createComponent _ _ _ slots _ => slotBlocks slots
  | .branch _ _ positive negative => positive.blocks ++ negative.blocks
  | .loop _ _ _ _ _ body fallback => body.blocks ++ optionalBlocks fallback
  | .slotOutlet _ _ _ fallback => optionalBlocks fallback
  | _ => []

def Alternative.blocks : Alternative → List Block
  | .nothing => []
  | .block b => b.blocks
  | .branch _ _ positive negative => positive.blocks ++ negative.blocks

def slotBlocks : List (String × Block) → List Block
  | [] => []
  | (_, b) :: slots => b.blocks ++ slotBlocks slots

def optionalBlocks : Option Block → List Block
  | none => []
  | some b => b.blocks

end

theorem operationBlocks_eq_flatMap (ops : List Operation) :
    operationBlocks ops = ops.flatMap Operation.blocks := by
  induction ops with
  | nil => rfl
  | cons op ops ih => simp [operationBlocks, ih]

theorem effectBlocks_eq_flatMap (effects : List Effect) :
    effectBlocks effects = (effects.flatMap (·.operations)).flatMap Operation.blocks := by
  induction effects with
  | nil => rfl
  | cons e effects ih =>
    cases e
    simp [effectBlocks, operationBlocks_eq_flatMap, ih]

/-- The blocks of the branches after the first one. -/
def Alternative.shown : Alternative → List Block
  | .nothing => []
  | .block b => [b]
  | .branch _ _ positive negative => positive :: negative.shown

/-- The blocks that an operation shows itself. -/
def Operation.shown : Operation → List Block
  | .createComponent _ _ _ slots _ => slots.map (·.2)
  | .branch _ _ positive negative => positive :: negative.shown
  | .loop _ _ _ _ _ body fallback => body :: fallback.toList
  | .slotOutlet _ _ _ fallback => fallback.toList
  | _ => []

theorem Operation.blocks_eq (op : Operation) : op.blocks = op.shown.flatMap Block.blocks := by
  have hoptional (b : Option Block) : optionalBlocks b = b.toList.flatMap Block.blocks := by
    cases b <;> simp [optionalBlocks]
  have hslots (slots : List (String × Block)) :
      slotBlocks slots = (slots.map (·.2)).flatMap Block.blocks := by
    induction slots with
    | nil => rfl
    | cons slot slots ih => simp [slotBlocks, ih]
  have halternative (a : Alternative) : a.blocks = a.shown.flatMap Block.blocks := by
    induction a using Alternative.shown.induct <;> simp_all [Alternative.blocks, Alternative.shown]
  cases op <;> simp [blocks, shown, hoptional, hslots, halternative]

/-- The node that the operation creates. -/
def Operation.created? : Operation → Option Nat
  | createText id _ _ | createComponent id _ _ _ _ | branch id _ _ _ | loop id _ _ _ _ _ _
  | slotOutlet id _ _ _ => some id
  | _ => none

/-- The operation shows no blocks. -/
def Operation.isPlain : Operation → Bool
  | .createComponent .. | .branch .. | .loop .. | .slotOutlet .. => false
  | _ => true

theorem Operation.blocks_of_isPlain (h : op.isPlain = true) : op.blocks = [] := by
  cases op <;> simp_all [blocks, isPlain]

theorem Block.shows_add {P : Block → Prop} (hx : ∀ p ∈ x.op.blocks, P p) :
    ∀ op ∈ (b.add x).allOperations, op ∈ b.allOperations ∨ ∀ p ∈ op.blocks, P p := by
  intro op hop
  rcases mem_allOperations_add.mp hop with rfl | hop
  · exact .inr hx
  · exact .inl hop

theorem Block.shows_foldl_add {P : Block → Prop} {xs : List Contribution}
    (hxs : ∀ x ∈ xs, x.op.isPlain = true) :
    ∀ op ∈ (xs.foldl add b).allOperations, op ∈ b.allOperations ∨ ∀ p ∈ op.blocks, P p := by
  intro op hop
  rcases mem_allOperations_foldl_add.mp hop with hop | hop
  · obtain ⟨x, hx, rfl⟩ := List.mem_map.mp hop
    exact .inr (by simp [Operation.blocks_of_isPlain (hxs x hx)])
  · exact .inl hop

theorem Block.blocks_eq (b : Block) :
    b.blocks = b :: b.allOperations.flatMap Operation.blocks := by
  cases b with
  | mk node dynamic effects operations returns =>
    simp [blocks, allOperations, operationBlocks_eq_flatMap, effectBlocks_eq_flatMap]

/-! ## Merged properties -/

theorem forall_mem_concat {α : Type} {P : α → Prop} {xs : List α} {x : α} (h : ∀ y ∈ xs, P y)
    (hx : P x) : ∀ y ∈ xs ++ [x], P y :=
  List.forall_mem_append.mpr ⟨h, List.forall_mem_singleton.mpr hx⟩

def MergedProp.isNamed (p : MergedProp) (name : String) : Bool :=
  p.key.isStatic && p.key.content == name

/-- The step of a merge on the properties alone, which are searched for the name. -/
def addEntry (props : List MergedProp) (e : PropEntry) : List MergedProp :=
  if e.key.isStatic && props.any (·.isNamed e.key.content) then
    if isMergeableProp e.key.content then
      props.map fun p =>
        if p.isNamed e.key.content then { p with values := p.values ++ [e.value] } else p
    else props
  else props ++ [MergedProp.ofEntry e]

namespace Merging

/-- The place of a name is that of the one property with the name. -/
def Aligned (m : Merging) : Prop :=
  ∀ name i, m.places.lookup name = some i ↔ ∃ p, m.props[i]? = some p ∧ p.isNamed name = true

variable {m : Merging} {e : PropEntry}

theorem Aligned.any_isNamed (h : m.Aligned) (name : String) :
    m.props.any (·.isNamed name) = (m.places.lookup name).isSome := by
  rw [Bool.eq_iff_iff, List.any_eq_true, Option.isSome_iff_exists]
  simp only [h name, List.mem_iff_getElem?]
  exact ⟨fun ⟨p, ⟨i, hi⟩, hp⟩ => ⟨i, p, hi, hp⟩, fun ⟨i, p, hi, hp⟩ => ⟨p, ⟨i, hi⟩, hp⟩⟩

theorem Aligned.modify_eq_map (h : m.Aligned) {name : String} {i : Nat}
    (hplace : m.places.lookup name = some i) (f : MergedProp → MergedProp) :
    m.props.modify i f = m.props.map fun p => if p.isNamed name then f p else p := by
  refine List.ext_getElem? fun j => ?_
  rw [List.getElem?_modify, List.getElem?_map]
  cases hj : m.props[j]? with
  | none => rfl
  | some p =>
    have hnamed : p.isNamed name = true ↔ i = j := by
      rw [← @Option.some_inj _ i, ← hplace, h name j]
      simp [hj]
    simp only [Option.map_some, hnamed]
    split <;> rfl

theorem Aligned.map (h : m.Aligned) {f : MergedProp → MergedProp} (hkey : ∀ p, (f p).key = p.key) :
    Aligned { m with props := m.props.map f } := by
  intro name i
  rw [h name i]
  simp [MergedProp.isNamed, hkey]

theorem exists_concat {props : List MergedProp} {q : MergedProp} {name : String} {i : Nat} :
    (∃ p, (props ++ [q])[i]? = some p ∧ p.isNamed name = true) ↔
      (∃ p, props[i]? = some p ∧ p.isNamed name = true) ∨
        i = props.length ∧ q.isNamed name = true := by
  rcases Nat.lt_trichotomy i props.length with hi | rfl | hi
  · simp [List.getElem?_append_left hi, Nat.ne_of_lt hi]
  · simp
  · rw [List.getElem?_eq_none (by rw [List.length_append]; exact hi), List.getElem?_eq_none (Nat.le_of_lt hi)]
    simp [Nat.ne_of_gt hi]

theorem Aligned.push (h : m.Aligned) (hkey : e.key.isStatic = false) : (m.push e).Aligned := by
  intro name i
  have hnew : (MergedProp.ofEntry e).isNamed name = false := by
    simp [MergedProp.isNamed, MergedProp.ofEntry, hkey]
  simp [Merging.push, exists_concat, hnew, h name i]

theorem Aligned.register (h : m.Aligned) (hkey : e.key.isStatic = true)
    (hplace : m.places.lookup e.key.content = none) :
    Aligned { m.push e with places := (e.key.content, m.props.length) :: m.places } := by
  intro name i
  have hnew : (MergedProp.ofEntry e).isNamed name = (name == e.key.content) := by
    simp [MergedProp.isNamed, MergedProp.ofEntry, hkey, eq_comm]
  simp only [Merging.push, exists_concat, hnew, List.lookup_cons, ← h name i]
  cases hname : name == e.key.content with
  | false => simp
  | true => simp [beq_iff_eq.mp hname, hplace, eq_comm]

/-- The places find what the search finds. -/
theorem Aligned.add (h : m.Aligned) (e : PropEntry) :
    (m.add e).Aligned ∧ (m.add e).props = addEntry m.props e := by
  unfold Merging.add addEntry
  rw [h.any_isNamed]
  cases hkey : e.key.isStatic with
  | false => exact ⟨h.push hkey, rfl⟩
  | true =>
    cases hplace : m.places.lookup e.key.content with
    | none => exact ⟨h.register hkey hplace, rfl⟩
    | some place =>
      simp only [ite_true, Option.isSome_some, Bool.and_self, h.modify_eq_map hplace]
      split
      · refine ⟨h.map fun p => ?_, rfl⟩
        split <;> rfl
      · exact ⟨h, rfl⟩

theorem props_foldl_add (entries : List PropEntry) (h : m.Aligned) :
    (entries.foldl add m).props = entries.foldl addEntry m.props := by
  induction entries generalizing m with
  | nil => rfl
  | cons e es ih => rw [List.foldl_cons, List.foldl_cons, ih (h.add e).1, (h.add e).2]

end Merging

theorem mergeEntries_eq_foldl (entries : List PropEntry) :
    mergeEntries entries = entries.foldl addEntry [] :=
  Merging.props_foldl_add entries fun name i => by simp

/-- The key of the property comes from an entry, and every value from one with that key. -/
def MergedProp.StemsFrom (p : MergedProp) (entries : List PropEntry) : Prop :=
  (∃ e ∈ entries, e.key = p.key) ∧
    ∀ v ∈ p.values, ∃ e ∈ entries, e.key.same p.key = true ∧ e.value = v

theorem stemsFrom_mergeEntries {entries : List PropEntry} :
    ∀ p ∈ mergeEntries entries, p.StemsFrom entries := by
  rw [mergeEntries_eq_foldl]
  refine List.foldlRecOn (motive := fun ps => ∀ p ∈ ps, p.StemsFrom entries) (b := []) entries
    addEntry (by simp) fun ps hps e he => ?_
  unfold addEntry
  split
  · rename_i hnamed
    split
    · intro p hp
      obtain ⟨q, hq, rfl⟩ := List.mem_map.mp hp
      split
      · -- The merged property keeps its key and receives the value of the entry.
        rename_i hkey
        refine ⟨(hps q hq).1, forall_mem_concat (hps q hq).2 ⟨e, he, ?_, rfl⟩⟩
        simp only [MergedProp.isNamed, Bool.and_eq_true, beq_iff_eq] at hkey hnamed
        simp [Expression.same, hkey.1, hkey.2, hnamed.1]
      · exact hps q hq
    · exact hps
  · refine forall_mem_concat hps ⟨⟨e, he, rfl⟩, List.forall_mem_singleton.mpr ⟨e, he, ?_, rfl⟩⟩
    simp [Expression.same, MergedProp.ofEntry]

end TemplateCompiler
