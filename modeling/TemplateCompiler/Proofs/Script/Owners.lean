import Mathlib.Data.List.Basic
import Mathlib.Order.Bounds.Defs
import TemplateCompiler.Proofs.Lists.Firsts
import TemplateCompiler.Proofs.Script.Resolution

/-! # Owners

A reference belongs to the nearest scope around it that declares its name. The names that belong
nowhere are listed by their first such occurrence.
-/

namespace TemplateCompiler.Script

variable {scopes scopes' : List Scope} {i j p : Nat} {name : String}

/-! ## Scopes inside a scope -/

/-- The scope `i` is the scope `j` or inside it. -/
inductive Inside (scopes : List Scope) : Nat → Nat → Prop
  | here (i : Nat) : Inside scopes i i
  | outer {i p j : Nat} (hp : scopes[i]?.bind Scope.parent = some p) (h : Inside scopes p j) :
      Inside scopes i j

theorem Inside.le (hscopes : Ordered scopes) (h : Inside scopes i j) : j ≤ i := by
  induction h with
  | here => exact Nat.le_refl _
  | outer hp _ ih => exact ih.trans (Nat.le_of_lt (hscopes _ _ hp))

theorem Inside.trans {k : Nat} (h : Inside scopes i j) (h' : Inside scopes j k) :
    Inside scopes i k := by
  induction h with
  | here => exact h'
  | outer hp _ ih => exact .outer hp (ih h')

theorem Inside.congr (h : Inside scopes i j)
    (hparent : ∀ i : Nat, scopes'[i]?.bind Scope.parent = scopes[i]?.bind Scope.parent) :
    Inside scopes' i j := by
  induction h with
  | here => exact .here _
  | outer hp _ ih => exact .outer ((hparent _).trans hp) ih

theorem mem_scopeChain (hscopes : Ordered scopes) (hi : i < scopes.length) :
    j ∈ scopeChain scopes i ↔ Inside scopes i j := by
  induction i using Nat.strong_induction_on with
  | _ i ih =>
    cases hp : scopes[i]?.bind Scope.parent with
    | none =>
      rw [scopeChain_root hi hp, List.mem_singleton]
      constructor
      · rintro rfl
        exact .here _
      · intro h
        cases h with
        | here => rfl
        | outer hp' => simp [hp] at hp'
    | some p =>
      have hlt := hscopes i p hp
      rw [scopeChain_cons hscopes hi hp, List.mem_cons, ih p hlt (by omega)]
      constructor
      · rintro (rfl | h)
        · exact .here _
        · exact .outer hp h
      · intro h
        cases h with
        | here => exact .inl rfl
        | outer hp' h =>
          obtain rfl : p = _ := Option.some.inj (hp.symm.trans hp')
          exact .inr h

section Nearest

variable {q : Scope → Bool}

theorem nearest?_eq_none_iff (hscopes : Ordered scopes) (hi : i < scopes.length) :
    nearest? scopes q i = none ↔ ∀ k, Inside scopes i k → scopes[k]?.any q = false := by
  rw [nearest?, List.find?_eq_none]
  simp only [mem_scopeChain hscopes hi, Bool.not_eq_true]

theorem nearest?_eq_self (hscopes : Ordered scopes) (hi : i < scopes.length)
    (h : scopes[i]?.any q = true) : nearest? scopes q i = some i := by
  cases hp : scopes[i]?.bind Scope.parent with
  | none => rw [nearest?, scopeChain_root hi hp, List.find?_singleton, if_pos h]
  | some p => rw [nearest?_cons hscopes hi hp, if_pos h]

/-- The search finds the innermost of the scopes around `i` that satisfy `q`. -/
theorem nearest?_eq_some_iff (hscopes : Ordered scopes) (hi : i < scopes.length) :
    nearest? scopes q i = some j ↔ Inside scopes i j ∧ scopes[j]?.any q = true ∧
      ∀ k, Inside scopes i k → scopes[k]?.any q = true → Inside scopes j k := by
  induction i using Nat.strong_induction_on with
  | _ i ih =>
    cases hq : scopes[i]?.any q with
    | true =>
      rw [nearest?_eq_self hscopes hi hq, Option.some_inj]
      constructor
      · rintro rfl
        exact ⟨.here i, hq, fun _ hk _ => hk⟩
      · rintro ⟨haround, -, hinner⟩
        exact Nat.le_antisymm ((hinner i (.here i) hq).le hscopes) (haround.le hscopes)
    | false =>
      cases hp : scopes[i]?.bind Scope.parent with
      | none =>
        have houter : ∀ k, Inside scopes i k → scopes[k]?.any q = false := by
          intro k hk
          cases hk with
          | here => exact hq
          | outer hp' => simp [hp] at hp'
        rw [(nearest?_eq_none_iff hscopes hi).mpr houter]
        refine iff_of_false (by simp) fun h => ?_
        simpa [h.2.1] using houter j h.1
      | some p =>
        have hlt := hscopes i p hp
        -- The scope itself does not count, so all that count are around its parent.
        have houter {k : Nat} (hk : scopes[k]?.any q = true) :
            Inside scopes i k ↔ Inside scopes p k := by
          refine ⟨fun h => ?_, .outer hp⟩
          cases h with
          | here => simp [hk] at hq
          | outer hp' h =>
            obtain rfl : p = _ := Option.some.inj (hp.symm.trans hp')
            exact h
        rw [nearest?_cons hscopes hi hp, hq, if_neg Bool.false_ne_true, ih p hlt (by omega)]
        constructor
        · rintro ⟨haround, hj, hinner⟩
          exact ⟨(houter hj).mpr haround, hj, fun k hk hqk => hinner k ((houter hqk).mp hk) hqk⟩
        · rintro ⟨haround, hj, hinner⟩
          exact ⟨(houter hj).mp haround, hj, fun k hk hqk => hinner k ((houter hqk).mpr hk) hqk⟩

end Nearest

/-- The scope `j` declares the name, and of the scopes around `i` that do, it is the innermost. -/
structure IsNearest (scopes : List Scope) (i : Nat) (name : String) (j : Nat) : Prop where
  around : Inside scopes i j
  declares : declaresAt scopes j name = true
  innermost : ∀ k, Inside scopes i k → declaresAt scopes k name = true → Inside scopes j k

theorem owner?_eq_some_iff (hscopes : Ordered scopes) (hi : i < scopes.length) :
    owner? scopes i name = some j ↔ IsNearest scopes i name j :=
  (nearest?_eq_some_iff hscopes hi).trans
    ⟨fun ⟨haround, hj, hinner⟩ => ⟨haround, hj, hinner⟩,
      fun h => ⟨h.around, h.declares, h.innermost⟩⟩

/-! ## Growing trees of scopes -/

/-- The scopes directly inside the scope `p`, in the order in which they are entered. -/
def childrenAt (scopes : List Scope) (p : Nat) : List Nat :=
  (List.range scopes.length).filter fun i => scopes[i]?.bind Scope.parent = some p

theorem childrenAt_congr (hlength : scopes'.length = scopes.length)
    (hparent : ∀ i : Nat, scopes'[i]?.bind Scope.parent = scopes[i]?.bind Scope.parent) :
    childrenAt scopes' p = childrenAt scopes p := by
  simp only [childrenAt, hlength, hparent]

namespace Collector

variable {c : Collector}

/-- The outermost scope is no block, and all others are inside an earlier one, which lists them. All
references stand in one of the scopes, and no scope lists them yet. -/
structure Grown (c : Collector) : Prop extends c.WellFormed where
  root : shapeAt c.scopes 0 = some (none, false)
  inside : ∀ i, 0 < i → i < c.scopes.length → (c.scopes[i]?.bind Scope.parent).isSome
  listed : ∀ (p : Nat) s, c.scopes[p]? = some s →
    s.children = childrenAt c.scopes p ∧ s.references = []
  references_lt : ∀ r ∈ c.references, r.scope < c.scopes.length

theorem grown_empty : empty.Grown where
  toWellFormed := wellFormed_empty
  root := rfl
  inside := by
    intro i hpos hlt
    simp [empty] at hlt
    omega
  listed := by
    intro p s hs
    cases p <;> simp [empty] at hs
    subst hs
    exact ⟨rfl, rfl⟩
  references_lt := by simp [empty]

/-- A new scope is listed last by the one being read. -/
theorem childrenAt_enter (c : Collector) (isBlock : Bool) :
    childrenAt (c.step (.enter isBlock)).scopes p =
      childrenAt c.scopes p ++ if c.current = p then [c.scopes.length] else [] := by
  have hparent : ∀ i ∈ List.range c.scopes.length,
      (c.step (.enter isBlock)).scopes[i]?.bind Scope.parent = c.scopes[i]?.bind Scope.parent :=
    fun i hi => parent_eq_of_shapeAt (shapeAt_enter isBlock (List.mem_range.mp hi))
  rw [childrenAt, length_enter, List.range_succ, List.filter_append, childrenAt]
  congr 1
  · exact List.filter_congr fun i hi => by rw [hparent i hi]
  · simp [parent_of_shapeAt (shapeAt_enter_new isBlock c), List.filter_singleton]

theorem Grown.enter (hc : c.Grown) (isBlock : Bool) : (c.step (.enter isBlock)).Grown where
  toWellFormed := wellFormed_enter isBlock hc.toWellFormed
  root := (shapeAt_enter isBlock (Nat.zero_lt_of_lt hc.current_lt)).trans hc.root
  inside := by
    intro i hpos hlt
    rw [length_enter] at hlt
    by_cases hi : i < c.scopes.length
    · rw [parent_eq_of_shapeAt (shapeAt_enter isBlock hi)]
      exact hc.inside i hpos hi
    · obtain rfl : i = c.scopes.length := by omega
      rw [parent_of_shapeAt (shapeAt_enter_new isBlock c)]
      rfl
  listed := by
    intro p s hs
    rw [childrenAt_enter]
    by_cases hp : p < c.scopes.length
    · rw [getElem?_enter isBlock hp] at hs
      obtain ⟨t, ht, rfl⟩ := Option.map_eq_some_iff.mp hs
      obtain ⟨hchildren, hreferences⟩ := hc.listed p t ht
      by_cases hcurrent : c.current = p <;> simp [hcurrent, hchildren, hreferences]
    · have hlt := (List.getElem?_eq_some_iff.mp hs).1
      obtain rfl : p = c.scopes.length := by
        rw [length_enter] at hlt
        omega
      obtain rfl := Option.some.inj ((getElem?_enter_new isBlock c).symm.trans hs)
      refine ⟨?_, rfl⟩
      rw [if_neg (Nat.ne_of_lt hc.current_lt), List.append_nil]
      refine (List.filter_eq_nil_iff.mpr fun i hi => ?_).symm
      have hi := List.mem_range.mp hi
      rw [decide_eq_true_eq]
      intro hparent
      exact absurd (hc.ordered i _ hparent) (by omega)
  references_lt := by
    intro r hr
    rw [length_enter]
    exact Nat.lt_succ_of_lt (hc.references_lt r hr)

theorem Grown.leave (hc : c.Grown) : (c.step .leave).Grown :=
  { hc with
    current_lt := by
      have hlt := hc.current_lt
      simp only [Collector.step]
      cases hp : c.scopes[c.current]?.bind Scope.parent with
      | none =>
        rw [Option.getD_none]
        omega
      | some p =>
        have hle := hc.ordered _ _ hp
        rw [Option.getD_some]
        omega }

theorem shapeAt_declare (c : Collector) (kind : DeclarationKind) (id : Ident) (i : Nat) :
    shapeAt (c.step (.declare kind id)).scopes i = shapeAt c.scopes i :=
  shapeAt_modify (by simp [Scope.insert, apply_ite]) _

theorem Grown.declare (hc : c.Grown) (kind : DeclarationKind) (id : Ident) :
    (c.step (.declare kind id)).Grown := by
  have hshape := shapeAt_declare c kind id
  have hlength : (c.step (.declare kind id)).scopes.length = c.scopes.length := by
    simp [Collector.step]
  have hparent i := parent_eq_of_shapeAt (hshape i)
  refine ⟨⟨hc.ordered.congr hparent, ?_⟩, (hshape 0).trans hc.root, ?_, ?_, ?_⟩
  · rw [hlength]
    exact hc.current_lt
  · intro i hpos hlt
    rw [hlength] at hlt
    rw [hparent]
    exact hc.inside i hpos hlt
  · intro p s hs
    rw [childrenAt_congr hlength hparent]
    simp only [Collector.step, List.getElem?_modify, Option.map_eq_map,
      Option.map_eq_some_iff] at hs
    obtain ⟨t, ht, rfl⟩ := hs
    simpa [Scope.insert, apply_ite Scope.children, apply_ite Scope.references] using hc.listed p t ht
  · intro r hr
    rw [hlength]
    exact hc.references_lt r hr

theorem Grown.mention (hc : c.Grown) (id : Ident) (shorthand : Bool) :
    (c.step (.mention id shorthand)).Grown :=
  { hc with
    references_lt := by
      intro r hr
      rcases List.mem_append.mp hr with hr | hr
      · exact hc.references_lt r hr
      · obtain rfl := List.mem_singleton.mp hr
        exact hc.current_lt }

theorem Grown.step (hc : c.Grown) (e : Event) : (c.step e).Grown := by
  cases e with
  | enter isBlock => exact hc.enter isBlock
  | leave => exact hc.leave
  | declare kind id => exact hc.declare kind id
  | mention id shorthand => exact hc.mention id shorthand

theorem Grown.run (hc : c.Grown) (events : List Event) :
    (events.foldl Collector.step c).Grown := by
  induction events generalizing c with
  | nil => exact hc
  | cons e events ih => exact ih (hc.step e)

theorem Grown.inside_root (hc : c.Grown) (hi : i < c.scopes.length) : Inside c.scopes i 0 := by
  induction i using Nat.strong_induction_on with
  | _ i ih =>
    by_cases hpos : 0 < i
    · obtain ⟨p, hp⟩ := Option.isSome_iff_exists.mp (hc.inside i hpos hi)
      have hlt := hc.ordered i p hp
      exact .outer hp (ih p hlt (by omega))
    · obtain rfl : i = 0 := by omega
      exact .here 0

end Collector

/-! ## The table of globals -/

namespace ScopeTree

/-- The references that no scope declares, with their indices. -/
def freeIndexed (tree : ScopeTree) : List (Reference × Nat) :=
  tree.references.zipIdx.filter (·.1.owner.isNone)

/-- The table is filled from the last reference to the first, so the first one stays. -/
theorem globals_foldr_resolve (scopes : List Scope) (rs : List Reference) (n : Nat) :
    ((rs.zipIdx n).foldr (fun r tree => resolve r.1 r.2 tree) ⟨scopes, [], []⟩).globals =
      (firsts (sameKey (·.1.ident.name))
        (((rs.map (·.resolved scopes)).zipIdx n).filter (·.1.owner.isNone))).map
          fun r => (r.1.ident.name, r.2) := by
  induction rs generalizing n with
  | nil => rfl
  | cons r rs ih =>
    have howner := (agree_foldr_resolve scopes (rs.zipIdx (n + 1))).owner?_eq
    rw [List.zipIdx_cons, List.foldr_cons, resolve, howner, List.map_cons, List.zipIdx_cons]
    cases h : owner? scopes r.scope r.ident.name with
    | some j =>
      rw [List.filter_cons_of_neg (by simp [Reference.resolved, h]), ← ih]
      rfl
    | none =>
      rw [List.filter_cons_of_pos (by simp [Reference.resolved, h]), firsts_cons, List.map_cons]
      change (r.ident.name, n) :: List.filter _ _ = (r.ident.name, n) :: List.map _ _
      rw [ih, List.filter_map]
      congr 3
      funext x
      exact (decide_not ..).symm

theorem globals_ofEvents (events : List Event) :
    (ofEvents events).globals =
      (firsts (sameKey (·.1.ident.name)) (ofEvents events).freeIndexed).map
        fun r => (r.1.ident.name, r.2) := by
  rw [freeIndexed, references_ofEvents]
  exact globals_foldr_resolve _ _ 0

/-- The names in a table of globals are those of the references that no scope declares, each with the
index of the first of them. -/
structure Tabulated (tree : ScopeTree) : Prop where
  least : ∀ name i, (name, i) ∈ tree.globals ↔
    IsLeast {i | ∃ r, tree.references[i]? = some r ∧ r.owner = none ∧ r.ident.name = name} i
  nodup : (tree.globals.map Prod.fst).Nodup
  listed : tree.globalIdents = (firsts (sameKey (·.ident.name)) tree.free).map (·.ident)

theorem mem_freeIndexed {tree : ScopeTree} {r : Reference} :
    (r, i) ∈ tree.freeIndexed ↔ tree.references[i]? = some r ∧ r.owner = none := by
  simp [freeIndexed, List.mem_zipIdx_iff_getElem?]

theorem pairwise_freeIndexed (tree : ScopeTree) :
    tree.freeIndexed.Pairwise fun a b => a.2 < b.2 := by
  apply List.Pairwise.filter
  apply List.pairwise_map.mp
  rw [List.zipIdx_map_snd]
  exact List.pairwise_lt_range' 1

theorem map_fst_freeIndexed (tree : ScopeTree) : tree.freeIndexed.map Prod.fst = tree.free := by
  rw [freeIndexed, free]
  conv_rhs => rw [← List.zipIdx_map_fst 0 tree.references, List.filter_map]
  rfl

theorem tabulated_of_globals {tree : ScopeTree}
    (h : tree.globals = (firsts (sameKey (·.1.ident.name)) tree.freeIndexed).map
      fun r => (r.1.ident.name, r.2)) : tree.Tabulated where
  least := by
    intro name i
    rw [h, List.mem_map]
    constructor
    · rintro ⟨⟨r, i⟩, hr, heq⟩
      obtain ⟨rfl, rfl⟩ := Prod.mk.inj heq
      obtain ⟨hmem, hleast⟩ := (mem_firsts (pairwise_freeIndexed tree)).mp hr
      obtain ⟨hget, howner⟩ := mem_freeIndexed.mp hmem
      refine ⟨⟨r, hget, howner, rfl⟩, ?_⟩
      rintro k ⟨r', hget', howner', hname⟩
      exact hleast (r', k) (mem_freeIndexed.mpr ⟨hget', howner'⟩) hname
    · rintro ⟨⟨r, hget, howner, rfl⟩, hleast⟩
      refine ⟨(r, i), (mem_firsts (pairwise_freeIndexed tree)).mpr ⟨?_, ?_⟩, rfl⟩
      · exact mem_freeIndexed.mpr ⟨hget, howner⟩
      · rintro ⟨r', k⟩ hmem hname
        obtain ⟨hget', howner'⟩ := mem_freeIndexed.mp hmem
        exact hleast ⟨r', hget', howner', hname⟩
  nodup := by
    rw [h, List.map_map]
    exact nodup_map_firsts (fun r : Reference × Nat => r.1.ident.name) tree.freeIndexed
  listed := by
    rw [globalIdents, h, List.filterMap_map, ← map_fst_freeIndexed, firsts_map, List.map_map]
    apply List.filterMap_eq_map_iff_forall_eq_some.mpr
    rintro ⟨r, i⟩ hr
    have hget := (mem_freeIndexed.mp ((firsts_sublist _).subset hr)).1
    simp [hget]

/-! ## Owners of references -/

/-- Every reference belongs to the nearest scope around it that declares its name, if there is
one. -/
structure Owned (tree : ScopeTree) : Prop where
  inside_root : ∀ r ∈ tree.references, Inside tree.scopes r.scope 0
  owner_eq_some : ∀ r ∈ tree.references, ∀ j,
    r.owner = some j ↔ IsNearest tree.scopes r.scope r.ident.name j
  owner_eq_none : ∀ r ∈ tree.references,
    r.owner = none ↔ ∀ k, Inside tree.scopes r.scope k → declaresAt tree.scopes k r.ident.name = false

theorem owned_ofEvents (events : List Event) : (ofEvents events).Owned := by
  have hgrown := Collector.grown_empty.run events
  have hagree := agree_ofEvents events
  have hordered := hgrown.ordered.congr hagree.parent_eq
  have hlt : ∀ r ∈ (ofEvents events).references, r.scope < (ofEvents events).scopes.length ∧
      r.owner = owner? (ofEvents events).scopes r.scope r.ident.name := by
    rw [references_ofEvents, hagree.length_eq, hagree.owner?_eq, List.forall_mem_map]
    exact fun r hr => ⟨hgrown.references_lt r hr, rfl⟩
  refine ⟨fun r hr => ?_, fun r hr j => ?_, fun r hr => ?_⟩
  · exact (hgrown.inside_root (hagree.length_eq ▸ (hlt r hr).1)).congr hagree.parent_eq
  · rw [(hlt r hr).2]
    exact owner?_eq_some_iff hordered (hlt r hr).1
  · rw [(hlt r hr).2]
    exact nearest?_eq_none_iff hordered (hlt r hr).1

/-- Resolution finds the nearest declaration of every reference, and the table of globals lists the
first occurrence of every name that has none. -/
theorem resolved_exactly :
    (∀ e, (ofExpr e).Owned ∧ (ofExpr e).Tabulated) ∧
      ∀ body, (ofProgram body).Owned ∧ (ofProgram body).Tabulated :=
  ⟨fun e => ⟨owned_ofEvents e.events, tabulated_of_globals (globals_ofEvents e.events)⟩,
    fun body => ⟨owned_ofEvents (stmtEvents body),
      tabulated_of_globals (globals_ofEvents (stmtEvents body))⟩⟩

end ScopeTree

end TemplateCompiler.Script
