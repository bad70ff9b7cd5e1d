import TemplateCompiler.Proofs.Names.Processed
import TemplateCompiler.Proofs.Transform.Run
import TemplateCompiler.Transform.Props

/-! # Work on a node itself

Directives and properties of a node do no more than give it an id, contribute to its block and note
actions to be looked up. What they contribute comes from the properties of the element.
-/

namespace TemplateCompiler

open Template (Element)
open Transform

/-! ## The extent of the work -/

/-- The operation works on a node that is there. It puts nothing into it and shows no blocks. -/
def Operation.isOwn : Operation → Bool
  | .setProp .. | .setDynamicProps .. | .setText .. | .setEvent .. | .setHtml ..
  | .setTemplateRef .. | .withDirective .. => true
  | _ => false

theorem Operation.isPlain_of_isOwn {op : Operation} (h : op.isOwn = true) : op.isPlain = true := by
  cases op <;> simp_all [isOwn, isPlain]

/-- The action that the operation looks up by its name at run time. -/
def Operation.lookedUp? : Operation → Option String
  | .withDirective _ name _ _ true _ => some name
  | _ => none

/-- The actions that are known after contributions, if `actions` were known before. -/
def noteActions (actions : List String) (xs : List Contribution) : List String :=
  (xs.filterMap (·.op.lookedUp?)).foldl (fun known name => insertNew name known) actions

/-- The context whose block has received contributions, and whose session knows `actions`. -/
def Context.contribute (c : Context) (xs : List Contribution) (actions : List String) : Context :=
  { c with
    block := xs.foldl Block.add c.block
    session := { c.session with directives := actions } }

/-- Work on the node of `c` that contributes `xs` to its block leads to `c'`. -/
inductive OwnWork (c : Context) : List Contribution → Context → Prop
  | none : OwnWork c [] c
  | some (xs : List Contribution) (actions : List String) :
      actions = noteActions c.session.directives xs →
      OwnWork c xs (c.referenced.contribute xs actions)

namespace OwnWork

variable {c c₁ c₂ : Context} {xs ys : List Contribution}

theorem ownId (h : OwnWork c xs c₁) : c₁.ownId = c.ownId := by
  cases h with
  | none => rfl
  | some xs actions =>
    change c.referenced.dynamic.id.getD _ = _
    simp

theorem trans (h₁ : OwnWork c xs c₁) (h₂ : OwnWork c₁ ys c₂) : OwnWork c (xs ++ ys) c₂ := by
  cases h₁ with
  | none => exact h₂
  | some xs actions hactions =>
    cases h₂ with
    | none => simpa using OwnWork.some xs actions hactions
    | some ys actions' hactions' =>
      have hid : (c.referenced.contribute xs actions).dynamic.id = .some c.ownId :=
        c.referenced_id
      rw [Context.referenced_of_some hid]
      have heq : (c.referenced.contribute xs actions).contribute ys actions' =
          c.referenced.contribute (xs ++ ys) actions' := by
        simp [Context.contribute, List.foldl_append]
      have hall : actions' = noteActions c.session.directives (xs ++ ys) := by
        rw [hactions', noteActions, noteActions, List.filterMap_append, List.foldl_append]
        exact congrArg (fun known => noteActions known ys) hactions
      exact heq ▸ OwnWork.some (xs ++ ys) actions' hall

theorem samePlace (h : OwnWork c xs c₁) : c.SamePlace c₁ := by
  cases h <;> exact ⟨rfl, rfl, rfl, rfl, rfl, rfl, rfl, rfl⟩

theorem identifiers (h : OwnWork c xs c₁) : c₁.session.identifiers = c.session.identifiers := by
  cases h with
  | none => rfl
  | some xs actions => exact c.referenced_identifiers

theorem binds {names : List String} (h : OwnWork c xs c₁) (hc : c.session.Binds names) :
    c₁.session.Binds names := by
  intro name
  rw [← hc name, Session.isIdentifier, Session.isIdentifier, Session.count, Session.count,
    h.identifiers]

theorem block_eq (h : OwnWork c xs c₁) : c₁.block = xs.foldl Block.add c.block := by
  cases h <;> rfl

theorem operations (h : OwnWork c xs c₁) :
    ∃ new, c₁.block.operations = c.block.operations ++ new ∧ new ⊆ xs.map (·.op) := by
  cases h with
  | none => exact ⟨[], by simp, by simp⟩
  | some xs actions => exact c.block.operations_add xs

theorem single (c : Context) (x : Contribution) (hx : x.op.lookedUp? = .none) :
    OwnWork c [x] (c.referenced.add x) :=
  OwnWork.some [x] c.referenced.session.directives (by simp [noteActions, hx])

end OwnWork

end TemplateCompiler
