import Mathlib.Data.List.Sort
import TemplateCompiler.Transform.Names

/-! # Expressions where names are in scope

What becomes of an expression depends on the session only by the names that the loops around
introduce.
-/

namespace TemplateCompiler

open Script (Reference ScopeTree)

/-! ## References by where they start -/

/-- The reference `a` starts no later than `b`. -/
def StartsBefore (a b : Reference) : Prop := a.ident.start ≤ b.ident.start

instance : DecidableRel StartsBefore := fun _ _ => Nat.decLe _ _

instance : Std.Total StartsBefore := ⟨fun _ _ => Nat.le_total _ _⟩

instance : IsTrans Reference StartsBefore := ⟨fun _ _ _ => Nat.le_trans⟩

theorem sortByStart_eq (rs : List Reference) : sortByStart rs = rs.insertionSort StartsBefore := by
  have hinsert (r : Reference) (as : List Reference) :
      insertByStart r as = as.orderedInsert StartsBefore r := by
    induction as with
    | nil => rfl
    | cons a as ih =>
      rw [insertByStart, List.orderedInsert_cons, ih]
      have hnot : a.ident.start < r.ident.start ↔ ¬StartsBefore r a := Nat.not_le.symm
      simp only [hnot, ite_not]
  induction rs with
  | nil => rfl
  | cons r rs ih =>
    rw [List.insertionSort_cons, ← ih, ← hinsert]
    rfl

theorem mem_sortByStart {r : Reference} {rs : List Reference} : r ∈ sortByStart rs ↔ r ∈ rs := by
  rw [sortByStart_eq, List.mem_insertionSort]

/-! ## Open references -/

/-- The free references of a script that are neither introduced by a loop nor known everywhere, in
reading order. -/
def openReferences (names : List String) (script : Script.Expr) : List Reference :=
  sortByStart ((ScopeTree.ofExpr script).free.filter fun r =>
    !names.contains r.ident.name && !Script.isAllowedGlobal r.ident.name)

/-- The source of a script in which every open reference is qualified, and nothing else changes. -/
def rewrite (o : Options) (names : List String) (script : Script.Expr) (source : String) :
    String :=
  String.ofList
    (Text.splice 0 ((openReferences names script).map (qualifyingEdit o)) source.toList)

/-- The expression `raw` appears as `e` in a compiled template where `names` are in scope. -/
inductive Processed (o : Options) (names : List String) (raw : Expression) : Expression → Prop
  | kept : raw.isStatic = true ∨ o.qualifyNames = false → Processed o names raw raw
  | rewritten {e : Expression} {script : Script.Expr} :
      raw.isStatic = false → o.qualifyNames = true →
      Script.parseExpression? raw.content = some script →
      e.isStatic = false → e.content = rewrite o names script raw.content →
      Processed o names raw e

theorem Expression.qualified_congr {s₁ s₂ : Session}
    (h : ∀ name, s₁.isIdentifier name = s₂.isIdentifier name) (o : Options) (e : Expression) :
    e.qualified o s₁ = e.qualified o s₂ := by
  simp only [qualified, qualifySource?, qualifiedReferences, h]

/-- The names that the loops around introduce are exactly `names`. -/
def Session.Binds (s : Session) (names : List String) : Prop :=
  ∀ name, s.isIdentifier name = names.contains name

theorem qualifiedReferences_eq {s : Session} {names : List String} (hs : s.Binds names)
    (script : Script.Expr) :
    qualifiedReferences s (ScopeTree.ofExpr script) = openReferences names script := by
  simp only [qualifiedReferences, openReferences, hs _]

theorem processed_of_qualified {o : Options} {s : Session} {names : List String}
    {raw e : Expression} (hs : s.Binds names) (h : raw.qualified o s = .ok e) :
    Processed o names raw e := by
  unfold Expression.qualified at h
  by_cases hkeep : (!o.qualifyNames || raw.isStatic) = true
  · rw [if_pos hkeep] at h
    cases h
    refine .kept ?_
    cases hq : o.qualifyNames <;> simp_all
  · rw [if_neg hkeep] at h
    simp only [Bool.or_eq_true, Bool.not_eq_true', not_or, Bool.not_eq_false,
      Bool.not_eq_true] at hkeep
    cases hparse : Script.parseExpression? raw.content with
    | none => simp [hparse] at h
    | some script =>
      simp only [hparse, qualifySource?, qualifiedReferences_eq hs] at h
      cases hrefs : openReferences names script <;> simp only [hrefs] at h <;> cases h <;>
        refine .rewritten hkeep.2 hkeep.1 hparse hkeep.2 ?_
      · simp [rewrite, hrefs, Text.splice]
      · simp [rewrite, hrefs]

end TemplateCompiler
