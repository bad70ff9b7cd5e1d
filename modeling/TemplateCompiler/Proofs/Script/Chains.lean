import Mathlib.Data.List.Find
import TemplateCompiler.Script.Scope.Tree

/-! # Chains of scopes

The chain from a scope outwards depends only on the parents along it, and a scope sees what it
declares itself and what its parent sees.
-/

namespace TemplateCompiler.Script

/-- Every scope is inside an earlier one, if it is inside any. -/
def Ordered (scopes : List Scope) : Prop :=
  ∀ i p, scopes[i]?.bind Scope.parent = some p → p < i

/-- Where a scope is and whether it is a block, which never changes. -/
def shapeAt (scopes : List Scope) (i : Nat) : Option (Option Nat × Bool) :=
  scopes[i]?.map fun s => (s.parent, s.isBlock)

def declaresAt (scopes : List Scope) (i : Nat) (name : String) : Bool :=
  scopes[i]?.any (·.declares name)

variable {scopes scopes' : List Scope} {i p : Nat}

theorem parent_eq_of_shapeAt (h : shapeAt scopes' i = shapeAt scopes i) :
    scopes'[i]?.bind Scope.parent = scopes[i]?.bind Scope.parent := by
  unfold shapeAt at h
  cases hs : scopes[i]? <;> cases hs' : scopes'[i]? <;> simp_all

theorem isFunction_eq_of_shapeAt (h : shapeAt scopes' i = shapeAt scopes i) :
    scopes'[i]?.any (!·.isBlock) = scopes[i]?.any (!·.isBlock) := by
  unfold shapeAt at h
  cases hs : scopes[i]? <;> cases hs' : scopes'[i]? <;> simp_all

theorem parent_of_shapeAt {b : Bool} {parent : Option Nat} (h : shapeAt scopes i = some (parent, b)) :
    scopes[i]?.bind Scope.parent = parent := by
  unfold shapeAt at h
  cases hs : scopes[i]? <;> simp_all

theorem isFunction_of_shapeAt {b : Bool} {parent : Option Nat}
    (h : shapeAt scopes i = some (parent, b)) : scopes[i]?.any (!·.isBlock) = !b := by
  unfold shapeAt at h
  cases hs : scopes[i]? <;> simp_all

theorem Ordered.congr (hscopes : Ordered scopes)
    (h : ∀ i : Nat, scopes'[i]?.bind Scope.parent = scopes[i]?.bind Scope.parent) :
    Ordered scopes' :=
  fun i p hp => hscopes i p (h i ▸ hp)

/-! ## Chains -/

/-- Numbers of scopes decrease along a chain, so a chain from `i` has at most `i + 1` members. -/
theorem outward_eq {n m : Nat} (hscopes : Ordered scopes) (hn : i < n) (hm : i < m)
    (h : ∀ j ≤ i, scopes'[j]?.bind Scope.parent = scopes[j]?.bind Scope.parent) :
    outward scopes' m i = outward scopes n i := by
  induction n generalizing i m with
  | zero => omega
  | succ n ih =>
    obtain ⟨m, rfl⟩ : ∃ k, m = k + 1 := ⟨m - 1, by omega⟩
    simp only [outward, h i (Nat.le_refl i)]
    cases hp : scopes[i]?.bind Scope.parent with
    | none => rfl
    | some p =>
      have hlt := hscopes i p hp
      simp only [List.cons.injEq, true_and]
      exact ih (by omega) (by omega) fun j hj => h j (by omega)

theorem scopeChain_congr (hscopes : Ordered scopes) (hi : i < scopes.length)
    (hi' : i < scopes'.length)
    (h : ∀ j ≤ i, scopes'[j]?.bind Scope.parent = scopes[j]?.bind Scope.parent) :
    scopeChain scopes' i = scopeChain scopes i :=
  outward_eq hscopes hi hi' h

theorem scopeChain_cons (hscopes : Ordered scopes) (hi : i < scopes.length)
    (hp : scopes[i]?.bind Scope.parent = some p) :
    scopeChain scopes i = i :: scopeChain scopes p := by
  have hlt := hscopes i p hp
  obtain ⟨n, hn⟩ : ∃ n, scopes.length = n + 1 := ⟨scopes.length - 1, by omega⟩
  have hrest : outward scopes n p = outward scopes (n + 1) p :=
    outward_eq hscopes (by omega) (by omega) fun _ _ => rfl
  simp only [scopeChain, hn, outward, hp, hrest]

theorem scopeChain_root (hi : i < scopes.length) (hp : scopes[i]?.bind Scope.parent = none) :
    scopeChain scopes i = [i] := by
  obtain ⟨n, hn⟩ : ∃ n, scopes.length = n + 1 := ⟨scopes.length - 1, by omega⟩
  simp only [scopeChain, hn, outward, hp]

theorem le_of_mem_scopeChain {j : Nat} (hscopes : Ordered scopes) (h : j ∈ scopeChain scopes i) :
    j ≤ i := by
  unfold scopeChain at h
  generalize scopes.length = n at h
  induction n generalizing i with
  | zero => simp [outward] at h
  | succ n ih =>
    rcases List.mem_cons.mp h with rfl | h
    · exact Nat.le_refl _
    · cases hp : scopes[i]?.bind Scope.parent with
      | none => simp [hp] at h
      | some p =>
        simp only [hp] at h
        exact Nat.le_trans (ih h) (Nat.le_of_lt (hscopes i p hp))

/-! ## Nearest scopes -/

variable {q : Scope → Bool}

theorem nearest?_congr (hscopes : Ordered scopes) (hi : i < scopes.length)
    (hi' : i < scopes'.length)
    (h : ∀ j ≤ i, scopes'[j]?.bind Scope.parent = scopes[j]?.bind Scope.parent)
    (hq : ∀ j ≤ i, scopes'[j]?.any q = scopes[j]?.any q) :
    nearest? scopes' q i = nearest? scopes q i := by
  rw [nearest?, scopeChain_congr hscopes hi hi' h]
  exact List.find?_congr fun j hj => hq j (le_of_mem_scopeChain hscopes hj)

theorem nearest?_cons (hscopes : Ordered scopes) (hi : i < scopes.length)
    (hp : scopes[i]?.bind Scope.parent = some p) :
    nearest? scopes q i = if scopes[i]?.any q then some i else nearest? scopes q p := by
  rw [nearest?, scopeChain_cons hscopes hi hp, List.find?_cons]
  cases h : scopes[i]?.any q <;> rfl

theorem nearest?_le {j : Nat} (hscopes : Ordered scopes) (h : nearest? scopes q i = some j) :
    j ≤ i :=
  le_of_mem_scopeChain hscopes (List.mem_of_find?_eq_some h)

/-- The scope without the names mentioned in it. -/
def Scope.bare (s : Scope) : Scope := { s with references := [] }

/-- The same scopes, whatever is mentioned in them. -/
def Agree (scopes' scopes : List Scope) : Prop := scopes'.map Scope.bare = scopes.map Scope.bare

section

variable (h : Agree scopes' scopes)

include h

theorem Agree.length_eq : scopes'.length = scopes.length := by
  simpa using congrArg List.length h

theorem Agree.getElem?_eq (i : Nat) : scopes'[i]?.map Scope.bare = scopes[i]?.map Scope.bare := by
  rw [← List.getElem?_map, ← List.getElem?_map, h]

theorem Agree.shapeAt_eq (i : Nat) : shapeAt scopes' i = shapeAt scopes i := by
  have hbare := congrArg (·.map fun s : Scope => (s.parent, s.isBlock)) (h.getElem?_eq i)
  simp only [Option.map_map] at hbare
  exact hbare

theorem Agree.parent_eq (i : Nat) : scopes'[i]?.bind Scope.parent = scopes[i]?.bind Scope.parent :=
  parent_eq_of_shapeAt (h.shapeAt_eq i)

theorem Agree.declares_eq (i : Nat) (name : String) :
    declaresAt scopes' i name = declaresAt scopes i name := by
  have hbare := congrArg (·.any (·.declares name)) (h.getElem?_eq i)
  simp only [Option.any_map] at hbare
  exact hbare

theorem Agree.owner?_eq : owner? scopes' = owner? scopes := by
  have houtward : ∀ n i, outward scopes' n i = outward scopes n i := by
    intro n
    induction n with
    | zero => exact fun _ => rfl
    | succ n ih =>
      intro i
      simp only [outward, h.parent_eq, ih]
  funext i name
  simp only [owner?, nearest?, scopeChain, h.length_eq, houtward]
  exact List.find?_congr fun j _ => h.declares_eq j name

end

/-- A scope that declares a name or sees it outside knows it. -/
theorem isNone_owner?_cons {name : String} (hscopes : Ordered scopes) (hi : i < scopes.length)
    (hp : scopes[i]?.bind Scope.parent = some p) :
    (owner? scopes i name).isNone =
      (!declaresAt scopes i name && (owner? scopes p name).isNone) := by
  rw [owner?, nearest?_cons hscopes hi hp, declaresAt]
  cases scopes[i]?.any (·.declares name) <;> rfl

theorem isNone_owner?_root {name : String} (hi : i < scopes.length)
    (hp : scopes[i]?.bind Scope.parent = none) :
    (owner? scopes i name).isNone = !declaresAt scopes i name := by
  rw [owner?, nearest?, scopeChain_root hi hp, declaresAt, List.find?_singleton]
  cases scopes[i]?.any (·.declares name) <;> rfl

end TemplateCompiler.Script
