import TemplateCompiler.Proofs.Names.Deriving

/-! # Reserved names

Properties with reserved names are used up. Only one that a component binds in both directions is
passed on.
-/

namespace TemplateCompiler

open Template (Element)
open Transform

theorem toUpper_not_small (c : Char) : ¬('a' ≤ c.toUpper ∧ c.toUpper ≤ 'z') := by
  delta Char.toUpper
  split
  · rename_i h
    simp only [Char.le_def, UInt32.le_iff_toNat_le, UInt32.toNat_add] at h ⊢
    simp at h ⊢
    omega
  · assumption

/-- Where a hyphen is dropped stands a capital or a digit. -/
theorem camelizeChars_of_small {pending : Bool} {cs : List Char}
    (h : ∀ d ∈ Text.camelizeChars pending cs, 'a' ≤ d ∧ d ≤ 'z') :
    pending = false ∧ Text.camelizeChars pending cs = cs := by
  induction cs generalizing pending with
  | nil => cases pending <;> simp_all [Text.camelizeChars]
  | cons c cs ih =>
    cases pending with
    | true =>
      cases hc : c.isAlphanum with
      | true => exact absurd (h _ (by simp [Text.camelizeChars, hc])) (toUpper_not_small c)
      | false => exact absurd (h '-' (by simp [Text.camelizeChars, hc])) (by decide)
    | false =>
      cases hc : c == '-' with
      | true =>
        simp only [Text.camelizeChars, hc, Bool.false_and, if_true] at h
        exact absurd (ih h).1 (by decide)
      | false =>
        have hmore : ∀ d ∈ Text.camelizeChars false cs, 'a' ≤ d ∧ d ≤ 'z' := by
          simp_all [Text.camelizeChars]
        simp [Text.camelizeChars, hc, (ih hmore).2]

theorem isReservedProp_camelize {name : String} (h : isReservedProp (Text.camelize name) = true) :
    isReservedProp name = true := by
  have hsmall : ∀ d ∈ (Text.camelize name).toList, 'a' ≤ d ∧ d ≤ 'z' := by
    simp only [isReservedProp, Bool.or_eq_true, beq_iff_eq] at h
    rcases h with h | h <;> simp [h]
  rw [Text.camelize, String.toList_ofList] at hsmall
  rwa [Text.camelize, (camelizeChars_of_small hsmall).2, String.ofList_toList] at h

/-- A reserved name is supplied by a reserved property, or where a component binds it in both
directions. -/
theorem Supplies.of_reserved {e : Element} {p : Property} {key value : Expression}
    (h : Supplies e p key value) (hstatic : key.isStatic = true)
    (hreserved : isReservedProp key.content = true) :
    p.isReserved = true ∨
      e.kind = .component ∧ ∃ d, p = .bound d ∧ d.name = "model" ∧ d.arg = some key := by
  cases h with
  | fixed a => exact .inl hreserved
  | @bind _ arg _ _ hname harg _ hkey =>
    have hbound : arg.isStatic = true ∧ isReservedProp arg.content = true := by
      rcases hkey with rfl | ⟨rfl, harg⟩
      · exact ⟨hstatic, hreserved⟩
      · exact ⟨harg, isReservedProp_camelize hreserved⟩
    exact .inl (by simp [Property.isReserved, Directive.staticArg?, hname, harg, hbound])
  | @handler _ arg =>
    cases harg : arg.isStatic <;>
      simp [handlerEntry, harg, Expression.static, isReservedProp, Text.handlerKey,
        ← String.toList_inj] at hstatic hreserved
  | @model d _ hname hkind =>
    cases harg : d.arg with
    | none => simp [harg, Expression.static, isReservedProp] at hreserved
    | some arg => exact .inr ⟨hkind, d, rfl, hname, harg⟩
  | toggle _ hentry | style _ hentry =>
    unfold objectEntry at hentry
    split at hentry <;> cases hentry
    simp [Expression.static, isReservedProp] at hreserved

/-- No property has a reserved name, whatever attribute or directive it comes from, except one that
a component binds in both directions. -/
theorem buildProps_reserves (o : Options) (e : Element) (props : List Property)
    (isComponent : Bool) (c c' : Context) (result : PropResult)
    (h : buildProps o e props isComponent c = .ok result c') :
    ∀ ps, .entries ps ∈ result.groups → ∀ p ∈ ps, p.key.isStatic = true →
      isReservedProp p.key.content = true →
      e.kind = .component ∧ ∃ d, .bound d ∈ props ∧ d.name = "model" ∧ d.arg = some p.key := by
  intro ps hps p hp hstatic hreserved
  obtain ⟨names, hc⟩ := c.session.exists_binds
  have hall : ∀ q ∈ props, q.isReserved = false → q ∈ props.filter (!·.isReserved) := by
    simpa using fun q hq hother => ⟨hq, hother⟩
  obtain ⟨-, -, -, -, hresult, -⟩ := buildProps_ok hall hc h
  cases hresult.groups _ hps with
  | entries hps =>
    obtain ⟨entry, ⟨q, hq, key, value, hsupplies, hkey, -⟩, heq⟩ := (hps p hp).key
    rw [heq] at hkey
    obtain rfl := hkey.eq_of_isStatic hstatic
    obtain ⟨hmem, hother⟩ := List.mem_filter.mp hq
    rcases hsupplies.of_reserved hstatic hreserved with hq' | ⟨hkind, d, rfl, hd⟩
    · simp [hq'] at hother
    · exact ⟨hkind, d, hmem, hd⟩

/-- `bind:key={x}` on a component. -/
def keyedModel : Directive where
  name := "model"
  arg := some (.static "key" {})
  exp := some (.dynamic "x" {})
  location := {}

theorem buildProps_reserves_keyedModel :
    let widget : Element := ⟨"Widget", .component, [], [], {}⟩
    let c := Context.newBlock (.fragment ⟨[], {}⟩) {}
    let p : MergedProp := { key := .static "key" {}, values := [.dynamic "x" {}], isModel := true }
    buildProps {} widget [.bound keyedModel] true c = .ok (.fixed [p]) c ∧
      isReservedProp p.key.content = true ∧ widget.kind = .component ∧
      ∃ d, .bound d ∈ [Property.bound keyedModel] ∧ d.name = "model" ∧ d.arg = some p.key := by
  intro widget c p
  have h : buildProps {} widget [.bound keyedModel] true c = .ok (.fixed [p]) c := rfl
  exact ⟨h, rfl, buildProps_reserves _ _ _ _ _ _ _ h [p] (by simp [PropResult.groups]) p
    (by simp) rfl rfl⟩

end TemplateCompiler
