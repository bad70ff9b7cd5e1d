import TemplateCompiler.Proofs.Lists.Firsts
import TemplateCompiler.Proofs.Transform.Run

/-! # Registered operations

Whatever is registered with a block, in whichever order, ends up in one place: among the operations
that run once, or in the effect on the expressions that it depends on.
-/

namespace TemplateCompiler

open Transform

variable {y : Contribution}

/-- What tells lists of expressions apart: texts and kinds, but not places. -/
def Expression.identity (es : List Expression) : List (String × Bool) :=
  es.map fun e => (e.content, e.isStatic)

theorem Expression.sameAll_eq (es fs : List Expression) :
    sameAll es fs = (identity es == identity fs) := by
  induction es generalizing fs with
  | nil => cases fs <;> rfl
  | cons e es ih =>
    cases fs with
    | nil => rfl
    | cons f fs =>
      change (e.same f && sameAll es fs) =
        ((e.content, e.isStatic) == (f.content, f.isStatic) && identity es == identity fs)
      rw [ih]
      rfl

namespace Contribution

/-- The expressions whose changes matter. -/
def changing (x : Contribution) : List Expression := x.expressions.filter (!·.isConstant)

/-- Registers the operation with the block being built. -/
def perform : Contribution → Transform Unit
  | once op => registerOperation op
  | whenever es op => registerEffect es op

def performAll : List Contribution → Transform Unit
  | [] => pure ()
  | x :: xs => do
    x.perform
    performAll xs

theorem performAll_eq (xs : List Contribution) (c : Context) :
    performAll xs c = .ok () { c with block := xs.foldl Block.add c.block } := by
  induction xs generalizing c with
  | nil => rfl
  | cons x xs ih =>
    have hperform : x.perform c = .ok () (c.add x) := by cases x <;> rfl
    change EStateM.bind x.perform (fun _ => performAll xs) c = _
    rw [EStateM.bind, hperform]
    exact ih _

end Contribution

open Contribution

/-! ## Adding to effects -/

namespace Effect

def identity (e : Effect) : List (String × Bool) := Expression.identity e.expressions

/-- The effect with one more operation, if it has the given expressions. -/
def extend (k : List (String × Bool)) (op : Operation) (e : Effect) : Effect :=
  if e.identity = k then { e with operations := e.operations ++ [op] } else e

theorem expressions_extend (k : List (String × Bool)) (op : Operation) (e : Effect) :
    (e.extend k op).expressions = e.expressions := by
  unfold extend
  split <;> rfl

end Effect

theorem addToEffects_of_not_mem {es : List Expression} {op : Operation} {effects : List Effect}
    (h : Expression.identity es ∉ effects.map Effect.identity) :
    addToEffects es op effects = effects ++ [⟨es, [op]⟩] := by
  induction effects with
  | nil => rfl
  | cons e effects ih =>
    rw [List.map_cons, List.mem_cons, not_or] at h
    have hne : Expression.sameAll e.expressions es = false := by
      rw [Expression.sameAll_eq, beq_eq_false_iff_ne]
      exact fun heq => h.1 heq.symm
    rw [addToEffects, if_neg (by simp [hne]), ih h.2, List.cons_append]

theorem addToEffects_of_mem {es : List Expression} {op : Operation} {effects : List Effect}
    (hnodup : (effects.map Effect.identity).Nodup)
    (h : Expression.identity es ∈ effects.map Effect.identity) :
    addToEffects es op effects = effects.map (Effect.extend (Expression.identity es) op) := by
  induction effects with
  | nil => cases h
  | cons e effects ih =>
    rw [List.map_cons, List.nodup_cons] at hnodup
    rw [addToEffects, Expression.sameAll_eq, List.map_cons, Effect.extend]
    change (if (e.identity == _) = true then _ else _) = _
    by_cases heq : e.identity = Expression.identity es
    · have hrest : ∀ f ∈ effects, Effect.extend (Expression.identity es) op f = f := by
        intro f hf
        refine if_neg fun hsame => hnodup.1 ?_
        rw [heq, ← hsame]
        exact List.mem_map_of_mem hf
      rw [if_pos (by simpa using heq), if_pos heq, List.map_congr_left hrest, List.map_id']
    · have hmem : Expression.identity es ∈ effects.map Effect.identity := by
        simpa [Ne.symm heq] using h
      rw [if_neg (by simpa using heq), if_neg heq, ih hnodup.2 hmem]

/-! ## Runs of contributions -/

theorem Block.add_of_changing_eq_nil (b : Block) (h : y.changing = []) :
    b.add y = b.register y.op := by
  cases y with
  | once op => rfl
  | whenever es op =>
    rw [add, registerEffect]
    split
    · rfl
    · exact absurd h ‹_›

theorem Block.add_of_changing_ne_nil (b : Block) (h : y.changing ≠ []) :
    b.add y = { b with effects := addToEffects y.changing y.op b.effects } := by
  cases y with
  | once op => exact absurd rfl h
  | whenever es op =>
    rw [add, registerEffect]
    split
    · exact absurd ‹_› h
    · rfl

/-- Where the operations of all contributions are. -/
structure Grouped (xs : List Contribution) (b : Block) : Prop where
  /-- No operation is lost or doubled. -/
  conserved : b.allOperations.Perm (xs.map (·.op))
  once : b.operations = (xs.filter (·.changing.isEmpty)).map (·.op)
  shared : ∀ e ∈ b.effects,
    e.operations = (xs.filter fun y => Expression.identity y.changing = e.identity).map (·.op)
  /-- Effects come in the order in which their expressions were first registered. -/
  ordered : b.effects.map (·.expressions) =
    firsts (sameKey Expression.identity) ((xs.map (·.changing)).filter (!·.isEmpty))

namespace Grouped

variable {xs : List Contribution} {b : Block}

theorem distinct (h : Grouped xs b) : (b.effects.map Effect.identity).Nodup := by
  have hnodup := nodup_map_firsts Expression.identity ((xs.map (·.changing)).filter (!·.isEmpty))
  rwa [← h.ordered, List.map_map] at hnodup

theorem changes (h : Grouped xs b) :
    ∀ e ∈ b.effects, e.expressions ≠ [] ∧ ∀ x ∈ e.expressions, x.isConstant = false := by
  intro e he
  have hmem := (firsts_sublist _).subset (h.ordered ▸ List.mem_map_of_mem he)
  obtain ⟨hchanging, hne⟩ := List.mem_filter.mp hmem
  obtain ⟨y, -, hy⟩ := List.mem_map.mp hchanging
  refine ⟨by simpa using hne, fun x hx => ?_⟩
  rw [← hy, changing] at hx
  simpa using (List.mem_filter.mp hx).2

theorem conserved_add (h : Grouped xs b) (y : Contribution) :
    (b.add y).allOperations.Perm ((xs ++ [y]).map (·.op)) := by
  rw [List.map_append]
  exact (b.allOperations_add y).trans ((h.conserved.cons _).trans (List.perm_append_singleton ..).symm)

theorem register (h : Grouped xs b) (hy : y.changing = []) : Grouped (xs ++ [y]) (b.add y) where
  conserved := h.conserved_add y
  once := by simp [Block.add_of_changing_eq_nil b hy, Block.register, h.once, hy]
  shared e he := by
    rw [Block.add_of_changing_eq_nil b hy] at he
    have hne : Expression.identity [] ≠ e.identity := by
      intro heq
      exact (h.changes e he).1 (List.map_eq_nil_iff.mp heq.symm)
    simp [h.shared e he, hy, hne]
  ordered := by simp [Block.add_of_changing_eq_nil b hy, Block.register, h.ordered, hy]

theorem addToEffects (h : Grouped xs b) (hy : y.changing ≠ []) : Grouped (xs ++ [y]) (b.add y) := by
  have hidentities : b.effects.map Effect.identity =
      (firsts (sameKey Expression.identity) ((xs.map (·.changing)).filter (!·.isEmpty))).map
        Expression.identity := by
    rw [← h.ordered, List.map_map]
    rfl
  have hlast : ((xs ++ [y]).map (·.changing)).filter (!·.isEmpty) =
      (xs.map (·.changing)).filter (!·.isEmpty) ++ [y.changing] := by
    simp [hy]
  have honce : b.operations = ((xs ++ [y]).filter (·.changing.isEmpty)).map (·.op) := by
    simp [h.once, hy]
  have hconserved := h.conserved_add y
  rw [Block.add_of_changing_ne_nil b hy] at hconserved ⊢
  by_cases hmem : Expression.identity y.changing ∈ b.effects.map Effect.identity
  · refine ⟨hconserved, honce, ?_, ?_⟩
    · rw [addToEffects_of_mem h.distinct hmem]
      intro e' he'
      obtain ⟨e, he, rfl⟩ := List.mem_map.mp he'
      rw [Effect.identity, Effect.expressions_extend, ← Effect.identity, List.filter_append,
        List.map_append, ← h.shared e he]
      by_cases heq : e.identity = Expression.identity y.changing
      · simp [Effect.extend, heq]
      · simp [Effect.extend, heq, Ne.symm heq]
    · rw [hlast, firsts_concat_of_mem (mem_map_firsts.mp (hidentities ▸ hmem)), ← h.ordered,
        addToEffects_of_mem h.distinct hmem, List.map_map]
      exact List.map_congr_left fun e _ => Effect.expressions_extend _ _ e
  · refine ⟨hconserved, honce, ?_, ?_⟩
    · rw [addToEffects_of_not_mem hmem]
      intro e he
      rcases List.mem_append.mp he with he | he
      · have hne : Expression.identity y.changing ≠ e.identity :=
          fun heq => hmem (heq ▸ List.mem_map_of_mem he)
        simp [h.shared e he, hne]
      · obtain rfl := List.mem_singleton.mp he
        have hnone : ∀ x ∈ xs, Expression.identity x.changing ≠ Expression.identity y.changing := by
          intro x hx heq
          refine hmem ?_
          rw [hidentities, mem_map_firsts, ← heq]
          refine List.mem_map_of_mem (List.mem_filter.mpr ⟨List.mem_map_of_mem hx, ?_⟩)
          have hlength : x.changing.length = y.changing.length := by
            simpa [Expression.identity] using congrArg List.length heq
          simpa [← List.length_pos_iff, hlength] using hy
        have hfilter : xs.filter (fun x => Expression.identity x.changing =
            Expression.identity y.changing) = [] :=
          List.filter_eq_nil_iff.mpr fun x hx => by simpa using hnone x hx
        rw [Effect.identity, List.filter_append, hfilter]
        simp
    · rw [hlast, firsts_concat_of_not_mem (mt mem_map_firsts.mpr (hidentities ▸ hmem)),
        ← h.ordered, addToEffects_of_not_mem hmem, List.map_append]
      rfl

theorem step (h : Grouped xs b) (y : Contribution) : Grouped (xs ++ [y]) (b.add y) := by
  by_cases hy : y.changing = []
  · exact h.register hy
  · exact h.addToEffects hy

end Grouped

theorem grouped_foldl (xs : List Contribution) : Grouped xs (xs.foldl Block.add Block.empty) := by
  induction xs using List.reverseRecOn with
  | nil => exact ⟨.nil, rfl, nofun, rfl⟩
  | append_singleton xs y ih =>
    rw [List.foldl_append]
    exact ih.step y

/-- Registering succeeds and changes nothing but the block. There every operation is in one place:
among those that run once if no expression that it depends on can change, and else in the one effect
on the expressions that can. -/
theorem performAll_grouped (xs : List Contribution) (c : Context) :
    ∃ b, performAll xs { c with block := Block.empty } = .ok () { c with block := b } ∧
      Grouped xs b ∧ (b.effects.map Effect.identity).Nodup ∧
      ∀ e ∈ b.effects, e.expressions ≠ [] ∧ ∀ x ∈ e.expressions, x.isConstant = false :=
  have h := grouped_foldl xs
  ⟨_, performAll_eq xs _, h, h.distinct, h.changes⟩

end TemplateCompiler
