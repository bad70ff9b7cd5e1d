import TemplateCompiler.Proofs.Script.Chains
import TemplateCompiler.Proofs.Script.FreeNames

/-! # Collecting

What a stretch of events does to a collector: which names it declares in the scope being read and in
the function around it, and which uses of names it leaves for the scopes around to account for.
-/

namespace TemplateCompiler.Script

variable {scopes scopes' : List Scope} {i : Nat} {name : String}

/-! ## Scopes -/

@[simp] theorem Scope.declares_insert (s : Scope) (d : Declaration) (name : String) :
    (s.insert d).declares name = (s.declares name || d.id.name == name) := by
  unfold Scope.insert
  split
  · rename_i h
    cases heq : d.id.name == name with
    | false => simp
    | true => simp [← eq_of_beq heq, h]
  · cases heq : d.id.name == name <;>
      simp [Scope.declares, Scope.declaration?, List.find?_append, heq, Option.or_none]

theorem shapeAt_modify {f : Scope → Scope}
    (hf : ∀ s, (f s).parent = s.parent ∧ (f s).isBlock = s.isBlock) (j : Nat) :
    shapeAt (scopes.modify j f) i = shapeAt scopes i := by
  unfold shapeAt
  rw [List.getElem?_modify]
  cases scopes[i]? with
  | none => rfl
  | some s => by_cases hj : j = i <;> simp [hj, hf]

theorem declaresAt_modify_insert {j : Nat} (d : Declaration) (hj : j < scopes.length) :
    declaresAt (scopes.modify j (·.insert d)) i name =
      (declaresAt scopes i name || (i == j && d.id.name == name)) := by
  unfold declaresAt
  rw [List.getElem?_modify]
  by_cases hji : j = i
  · subst hji
    simp [List.getElem?_eq_getElem hj]
  · have hij : (i == j) = false := by simpa using fun h => hji h.symm
    cases scopes[i]? <;> simp [hji, hij]

namespace Collector

/-- The function being read, which hoisted declarations go to. -/
def hoistTarget (c : Collector) : Nat := (nearest? c.scopes (!·.isBlock) c.current).getD 0

structure WellFormed (c : Collector) : Prop where
  ordered : Ordered c.scopes
  current_lt : c.current < c.scopes.length

theorem wellFormed_empty : empty.WellFormed where
  ordered := by
    intro i p hp
    cases i <;> simp [empty] at hp
  current_lt := by decide

theorem WellFormed.hoistTarget_le {c : Collector} (hc : c.WellFormed) :
    c.hoistTarget ≤ c.current := by
  unfold hoistTarget
  cases h : nearest? c.scopes (!·.isBlock) c.current with
  | none => exact Nat.zero_le _
  | some j => exact nearest?_le hc.ordered h

theorem WellFormed.hoistTarget_lt {c : Collector} (hc : c.WellFormed) :
    c.hoistTarget < c.scopes.length :=
  Nat.lt_of_le_of_lt hc.hoistTarget_le hc.current_lt

section Enter

variable {c : Collector} (isBlock : Bool)

theorem length_enter (c : Collector) :
    (c.step (.enter isBlock)).scopes.length = c.scopes.length + 1 := by
  simp [step]

theorem getElem?_enter (hi : i < c.scopes.length) :
    (c.step (.enter isBlock)).scopes[i]? = c.scopes[i]?.map fun s =>
      if c.current = i then { s with children := s.children ++ [c.scopes.length] } else s := by
  simp only [step]
  rw [List.getElem?_append_left (by simpa using hi), List.getElem?_modify]
  rfl

theorem getElem?_enter_new (c : Collector) :
    (c.step (.enter isBlock)).scopes[c.scopes.length]? =
      some { parent := some c.current, isBlock } := by
  simp [step]

theorem shapeAt_enter (hi : i < c.scopes.length) :
    shapeAt (c.step (.enter isBlock)).scopes i = shapeAt c.scopes i := by
  rw [shapeAt, getElem?_enter isBlock hi, Option.map_map, shapeAt]
  congr 1
  funext s
  by_cases h : c.current = i <;> simp [h]

theorem shapeAt_enter_new (c : Collector) :
    shapeAt (c.step (.enter isBlock)).scopes c.scopes.length = some (some c.current, isBlock) := by
  rw [shapeAt, getElem?_enter_new]
  rfl

theorem declaresAt_enter (hi : i < c.scopes.length) :
    declaresAt (c.step (.enter isBlock)).scopes i name = declaresAt c.scopes i name := by
  rw [declaresAt, getElem?_enter isBlock hi, Option.any_map, declaresAt]
  congr 1
  funext s
  by_cases h : c.current = i <;> simp [h, Scope.declares, Scope.declaration?]

theorem declaresAt_enter_new (c : Collector) (name : String) :
    declaresAt (c.step (.enter isBlock)).scopes c.scopes.length name = false := by
  rw [declaresAt, getElem?_enter_new]
  rfl

theorem wellFormed_enter (hc : c.WellFormed) : (c.step (.enter isBlock)).WellFormed where
  ordered := by
    intro i p hp
    rcases Nat.lt_trichotomy i c.scopes.length with hi | rfl | hi
    · rw [parent_eq_of_shapeAt (shapeAt_enter isBlock hi)] at hp
      exact hc.ordered i p hp
    · rw [parent_of_shapeAt (shapeAt_enter_new isBlock c)] at hp
      exact Option.some.inj hp ▸ hc.current_lt
    · rw [List.getElem?_eq_none (by rw [length_enter]; omega)] at hp
      simp at hp
  current_lt := by
    rw [length_enter]
    exact Nat.lt_succ_self _

/-- Hoisted declarations pass through a block and stay in a function. -/
theorem hoistTarget_enter (hc : c.WellFormed) :
    (c.step (.enter isBlock)).hoistTarget = if isBlock then c.hoistTarget else c.scopes.length := by
  have hlt := hc.current_lt
  have hshape := shapeAt_enter_new isBlock c
  unfold hoistTarget
  rw [show (c.step (.enter isBlock)).current = c.scopes.length from rfl,
    nearest?_cons (wellFormed_enter isBlock hc).ordered (by simp [length_enter])
      (parent_of_shapeAt hshape), isFunction_of_shapeAt hshape,
    nearest?_congr hc.ordered hlt (by rw [length_enter]; omega)]
  · cases isBlock <;> rfl
  · exact fun j hj => parent_eq_of_shapeAt (shapeAt_enter isBlock (by omega))
  · exact fun j hj => isFunction_eq_of_shapeAt (shapeAt_enter isBlock (by omega))

end Enter

end Collector

open Collector

/-- The scopes from `n` on are done: what comes later leaves them as they are, and all scopes where
they are. -/
structure Settled (n : Nat) (scopes scopes' : List Scope) : Prop where
  length_le : scopes.length ≤ scopes'.length
  shape : ∀ i < scopes.length, shapeAt scopes' i = shapeAt scopes i
  declares : ∀ i < scopes.length, n ≤ i → ∀ name, declaresAt scopes' i name = declaresAt scopes i name

theorem Settled.mono {n m : Nat} (h : Settled n scopes scopes') (hnm : n ≤ m) :
    Settled m scopes scopes' :=
  ⟨h.length_le, h.shape, fun i hi hm => h.declares i hi (by omega)⟩

/-- The occurrences that neither the scope `i` nor a scope around it declares. -/
def unowned (scopes : List Scope) (i : Nat) (occurrences : List Occurrence) : List Occurrence :=
  occurrences.filter fun x => (owner? scopes i x.ident.name).isNone

/-- The occurrences of references that no scope around them declares. -/
def unresolved (scopes : List Scope) (references : List Reference) : List Occurrence :=
  (references.filter fun r => (owner? scopes r.scope r.ident.name).isNone).map (·.occurrence)

@[simp] theorem unowned_append {xs ys : List Occurrence} :
    unowned scopes i (xs ++ ys) = unowned scopes i xs ++ unowned scopes i ys :=
  List.filter_append ..

@[simp] theorem unresolved_append {rs rs' : List Reference} :
    unresolved scopes (rs ++ rs') = unresolved scopes rs ++ unresolved scopes rs' := by
  simp [unresolved]

/-! ## Stretches of events -/

/-- From `c` to `c'`, a stretch of syntax has been read: it declares the names `declared` in the
scope being read and `hoisted` in the function around, and `free` is what remains to be accounted
for outside of its own scopes. -/
structure Collects (declared hoisted : List String) (free : List Occurrence) (c c' : Collector) :
    Prop where
  wellFormed : c'.WellFormed
  current_eq : c'.current = c.current
  length_le : c.scopes.length ≤ c'.scopes.length
  shape : ∀ i < c.scopes.length, shapeAt c'.scopes i = shapeAt c.scopes i
  declares : ∀ i < c.scopes.length, ∀ name, declaresAt c'.scopes i name =
    (declaresAt c.scopes i name || (i == c.current && declared.contains name) ||
      (i == c.hoistTarget && hoisted.contains name))
  references : ∃ new, c'.references = c.references ++ new ∧
    ∀ scopes, Ordered scopes → Settled c.scopes.length c'.scopes scopes →
      unresolved scopes new = unowned scopes c.current free

namespace Collects

variable {declared declared' hoisted hoisted' : List String} {free free' : List Occurrence}
  {c c₁ c' : Collector}

theorem nil (hc : c.WellFormed) : Collects [] [] [] c c where
  wellFormed := hc
  current_eq := rfl
  length_le := Nat.le_refl _
  shape := fun _ _ => rfl
  declares := by simp
  references := ⟨[], by simp, by simp [unresolved, unowned]⟩

theorem hoistTarget_eq (hc : c.WellFormed) (h : Collects declared hoisted free c c') :
    c'.hoistTarget = c.hoistTarget := by
  have hlt := hc.current_lt
  have hle := h.length_le
  unfold hoistTarget
  rw [h.current_eq, nearest?_congr hc.ordered hlt (by omega)]
  · exact fun j hj => parent_eq_of_shapeAt (h.shape j (by omega))
  · exact fun j hj => isFunction_eq_of_shapeAt (h.shape j (by omega))

theorem trans (hc : c.WellFormed) (h₁ : Collects declared hoisted free c c₁)
    (h₂ : Collects declared' hoisted' free' c₁ c') :
    Collects (declared ++ declared') (hoisted ++ hoisted') (free ++ free') c c' where
  wellFormed := h₂.wellFormed
  current_eq := h₂.current_eq.trans h₁.current_eq
  length_le := Nat.le_trans h₁.length_le h₂.length_le
  shape := fun i hi =>
    (h₂.shape i (Nat.lt_of_lt_of_le hi h₁.length_le)).trans (h₁.shape i hi)
  declares := by
    intro i hi name
    rw [h₂.declares i (Nat.lt_of_lt_of_le hi h₁.length_le), h₁.declares i hi, h₁.current_eq,
      h₁.hoistTarget_eq hc, List.contains_append, List.contains_append]
    cases i == c.current <;> cases i == c.hoistTarget <;> simp [Bool.or_assoc, Bool.or_left_comm]
  references := by
    obtain ⟨new, hnew, hres⟩ := h₁.references
    obtain ⟨new', hnew', hres'⟩ := h₂.references
    refine ⟨new ++ new', by rw [hnew', hnew, List.append_assoc], fun scopes hordered hsettled => ?_⟩
    -- The second stretch declares nothing in the scopes that the first one entered.
    have hfirst : Settled c.scopes.length c₁.scopes scopes := by
      have hle := h₂.length_le
      refine ⟨by have := hsettled.length_le; omega, fun i hi => ?_, fun i hi hn name => ?_⟩
      · rw [hsettled.shape i (by omega), h₂.shape i hi]
      · have hcurrent : (i == c₁.current) = false := by
          have := hc.current_lt
          rw [h₁.current_eq]
          simp only [beq_eq_false_iff_ne, ne_eq]
          omega
        have htarget : (i == c₁.hoistTarget) = false := by
          have := hc.hoistTarget_lt
          rw [h₁.hoistTarget_eq hc]
          simp only [beq_eq_false_iff_ne, ne_eq]
          omega
        rw [hsettled.declares i (by omega) hn, h₂.declares i hi, hcurrent, htarget]
        simp
    rw [unresolved_append, unowned_append, hres scopes hordered hfirst,
      hres' scopes hordered (hsettled.mono h₁.length_le), h₁.current_eq]

/-- Only the names matter, not how often they are declared or in what order. -/
theorem congr (h : Collects declared hoisted free c c')
    (hdeclared : ∀ name, declared'.contains name = declared.contains name)
    (hhoisted : ∀ name, hoisted'.contains name = hoisted.contains name) :
    Collects declared' hoisted' free c c' :=
  { h with declares := fun i hi name => by rw [h.declares i hi, hdeclared, hhoisted] }

/-! ## Events -/

theorem mention (hc : c.WellFormed) (id : Ident) (shorthand : Bool) :
    Collects [] [] [⟨id, shorthand⟩] c (c.step (.mention id shorthand)) :=
  { nil hc with
    wellFormed := ⟨hc.ordered, hc.current_lt⟩
    references := by
      refine ⟨[{ ident := id, scope := c.current, shorthand }], rfl, fun scopes _ _ => ?_⟩
      cases h : (owner? scopes c.current id.name).isNone <;>
        simp [unresolved, unowned, Reference.occurrence, h] }

/-- Declaring a name in the scope `j`, which is the one being read or the function around. -/
theorem insert {j : Nat} (hc : c.WellFormed) (d : Declaration) (hj : j < c.scopes.length)
    (h : ∀ i name, (i == j && d.id.name == name) =
      (i == c.current && declared.contains name || i == c.hoistTarget && hoisted.contains name)) :
    Collects declared hoisted [] c { c with scopes := c.scopes.modify j (·.insert d) } := by
  have hshape : ∀ i, shapeAt (c.scopes.modify j (·.insert d)) i = shapeAt c.scopes i :=
    fun i => shapeAt_modify (by simp [Scope.insert, apply_ite]) j
  exact
    { wellFormed :=
        ⟨hc.ordered.congr fun i => parent_eq_of_shapeAt (hshape i), by simpa using hc.current_lt⟩
      current_eq := rfl
      length_le := by simp
      shape := fun i _ => hshape i
      declares := fun i _ name => by rw [declaresAt_modify_insert d hj, h, Bool.or_assoc]
      references := ⟨[], by simp, by simp [unresolved, unowned]⟩ }

theorem declare_kept {kind : DeclarationKind} (hc : c.WellFormed) (hkind : kind.isHoisted = false)
    (id : Ident) : Collects [id.name] [] [] c (c.step (.declare kind id)) := by
  simp only [step, hkind]
  exact insert hc ⟨kind, id⟩ hc.current_lt (by simp [eq_comm, Bool.beq_eq_decide_eq])

theorem declare_hoisted {kind : DeclarationKind} (hc : c.WellFormed)
    (hkind : kind.isHoisted = true) (id : Ident) :
    Collects [] [id.name] [] c (c.step (.declare kind id)) := by
  simp only [step, hkind]
  exact insert hc ⟨kind, id⟩ hc.hoistTarget_lt (by simp [eq_comm, Bool.beq_eq_decide_eq, hoistTarget])

/-! ## Scopes of their own -/

/-- What a scope declares is accounted for there, and only what is hoisted out of a block is declared
around it. -/
theorem enclosed {isBlock : Bool} (hc : c.WellFormed)
    (h : Collects declared hoisted free (c.step (.enter isBlock)) c') :
    Collects [] (if isBlock then hoisted else [])
      (without (if isBlock then declared else declared ++ hoisted) free) c (c'.step .leave) := by
  have hlt := hc.current_lt
  have hlength : c.scopes.length + 1 ≤ c'.scopes.length := length_enter isBlock c ▸ h.length_le
  have hnew : shapeAt c'.scopes c.scopes.length = some (some c.current, isBlock) := by
    rw [h.shape _ (by simp [length_enter]), shapeAt_enter_new]
  have hin : (c.step (.enter isBlock)).current = c.scopes.length := rfl
  have hcurrent : (c'.step .leave).current = c.current := by
    simp only [step, h.current_eq, parent_of_shapeAt hnew, Option.getD_some]
  have hdeclares : ∀ name, declaresAt c'.scopes c.scopes.length name =
      (if isBlock then declared else declared ++ hoisted).contains name := by
    intro name
    have hne : (c.scopes.length == c.hoistTarget) = false := by
      have := hc.hoistTarget_lt
      simp only [beq_eq_false_iff_ne, ne_eq]
      omega
    rw [h.declares _ (by simp [length_enter]), declaresAt_enter_new, hin,
      hoistTarget_enter isBlock hc]
    cases isBlock <;> simp [hne]
  refine
    { wellFormed := ⟨h.wellFormed.ordered, ?_⟩
      current_eq := hcurrent
      length_le := by simp only [step]; omega
      shape := fun i hi => ?_
      declares := fun i hi name => ?_
      references := ?_ }
  · rw [hcurrent]
    simp only [step]
    omega
  · rw [← shapeAt_enter isBlock hi, ← h.shape i (by rw [length_enter]; omega)]
    rfl
  · have hne : (i == c.scopes.length) = false := by
      simp only [beq_eq_false_iff_ne, ne_eq]
      omega
    change declaresAt c'.scopes i name = _
    rw [h.declares i (by rw [length_enter]; omega), declaresAt_enter isBlock hi, hin,
      hoistTarget_enter isBlock hc, hne]
    cases isBlock <;> simp [hne]
  · obtain ⟨new, hreferences, hres⟩ := h.references
    refine ⟨new, hreferences, fun scopes hordered hsettled => ?_⟩
    change Settled c.scopes.length c'.scopes scopes at hsettled
    have hlt' : c.scopes.length < scopes.length := Nat.lt_of_lt_of_le hlength hsettled.length_le
    have hparent : scopes[c.scopes.length]?.bind Scope.parent = some c.current :=
      parent_of_shapeAt ((hsettled.shape _ hlength).trans hnew)
    rw [hres scopes hordered (hsettled.mono (by rw [length_enter]; omega)), hin, unowned,
      unowned, without, List.filter_filter]
    refine List.filter_congr fun x _ => ?_
    rw [isNone_owner?_cons hordered hlt' hparent, hsettled.declares _ hlength (Nat.le_refl _),
      hdeclares, Bool.and_comm]

end Collects

end TemplateCompiler.Script
