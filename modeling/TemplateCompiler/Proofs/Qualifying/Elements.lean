import TemplateCompiler.Proofs.Names.Loops
import TemplateCompiler.Proofs.Qualifying.Mirroring

/-! # Elements and texts with names as they are

Whether names are qualified shows only in the expressions of what becomes of an element or a text.
-/

namespace TemplateCompiler

open Template (Element Node)
open Transform Comparison

/-- The options, except that names are left as they are. -/
def Options.unqualified (o : Options) : Options := { o with qualifyNames := false }

variable {o : Options} {w : Context}

/-! ## Names -/

/-- Qualifying the names of an expression changes its source only, and no literal. -/
theorem Expression.alike_of_qualified {s : Session} {raw e : Expression}
    (h : raw.qualified o s = .ok e) : e.Alike raw := by
  obtain ⟨names, hs⟩ := s.exists_binds
  refine ⟨?_, (processed_of_qualified hs h).literalValue?_eq⟩
  unfold Expression.qualified at h
  split at h
  · cases h
    rfl
  · rename_i hdynamic
    have hstatic : raw.isStatic = false := by simp_all
    split at h
    · cases h
    · split at h
      · cases h
        rfl
      · cases h
        simp [Expression.outline, hstatic, Expression.dynamic, Location.withSource]

theorem mirroring.qualified (s : Session) (e : Expression) :
    mirroring.Excepts Expression.Alike (e.qualified o s) (e.qualified o.unqualified s) := by
  cases he : e.qualified o s with
  | error d => exact .excused _ trivial
  | ok value => exact .ok (Expression.alike_of_qualified he)

theorem outline_of_rel {x x' : Option Expression} (h : Option.Rel Expression.Alike x x') :
    x.map (·.outline) = x'.map (·.outline) := by
  cases h with
  | none => rfl
  | some h => exact congrArg some h.outline

theorem outlines_of_forall₂ {xs xs' : List Expression} (h : List.Forall₂ Expression.Alike xs xs') :
    xs.map (·.outline) = xs'.map (·.outline) := by
  induction h with
  | nil => rfl
  | cons hx _ ih => rw [List.map_cons, List.map_cons, hx.outline, ih]

/-! ## Properties -/

/-- The collectors have seen the same properties, whatever their expressions say. -/
def PropCollector.Alike (c c' : PropCollector) : Prop := c.outline = c'.outline

theorem PropCollector.Alike.addEntry {c c' : PropCollector} {e e' : PropEntry} (hc : c.Alike c')
    (he : e.outline = e'.outline) (isComponent : Bool) :
    (c.addEntry isComponent e).Alike (c'.addEntry isComponent e') := by
  rw [Alike, ← c.addEntry_outline, ← c'.addEntry_outline, hc, he]

/-- The properties are the same, whatever their expressions say. -/
def PropResult.Alike (r r' : PropResult) : Prop := r.outline = r'.outline

theorem PropResult.Alike.groups {r r' : PropResult} (h : r.Alike r') :
    r.groups.map (·.outline) = r'.groups.map (·.outline) := by
  rw [← r.groups_outline, h, r'.groups_outline]

namespace mirroring

theorem placeProp {p p' : MergedProp} (hp : p.outline = p'.outline) :
    mirroring.Runs w Equal (placeProp p) (placeProp p') := by
  have hstatic : p.staticText? = p'.staticText? := by
    rw [← p.staticText?_outline, hp, p'.staticText?_outline]
  unfold TemplateCompiler.placeProp
  rw [hstatic]
  cases p'.staticText? with
  | some entry => exact .pure_eq _
  | none =>
    refine reference.seq fun element => .seq ?_ fun _ => .pure_eq _
    refine registerEffect _ _ ⟨?_, .nil⟩
    simp only [Operation.outline, hp]

theorem placeProps {r r' : PropResult} (hr : r.Alike r') :
    mirroring.Runs w Equal (placeProps r) (placeProps r') := by
  match r, r', hr with
  | .fixed props, .fixed props', hr =>
    have hprops : List.Forall₂ (fun p p' => p.outline = p'.outline) props props' := by
      have heq := PropResult.fixed.inj hr
      rwa [← List.forall₂_eq_eq_eq, List.forall₂_map_left_iff, List.forall₂_map_right_iff] at heq
    refine .andThen (.mapM (fun p p' hp => placeProp hp) hprops) fun parts parts' hparts => ?_
    rw [List.forall₂_eq_eq_eq] at hparts
    exact hparts ▸ .pure_eq _
  | .dynamic groups es, .dynamic groups' es', hr =>
    refine reference.seq fun element => .seq ?_ fun _ => .pure_eq _
    refine registerEffect _ _ ⟨?_, .nil⟩
    simp only [Operation.outline, (PropResult.dynamic.inj hr).1]

end mirroring

/-! ## Texts -/

/-- Whether all values are literal does not depend on how names are written. -/
theorem literalMarkup?_eq {values values' : List Expression}
    (h : List.Forall₂ Expression.Alike values values') :
    literalMarkup? values = literalMarkup? values' := by
  unfold literalMarkup?
  induction h with
  | nil => rfl
  | cons hv _ ih => rw [List.mapM_cons, List.mapM_cons, hv.literalValue?, ih]

theorem mirroring.createText (frame : Frame) :
    mirroring.Runs w Equal (createText o frame) (createText o.unqualified frame) := by
  refine .get fun c c' hc _ => ?_
  rw [hc.index]
  refine (changeElse fun _ _ _ => rfl).seq fun _ => .getSession fun k k' hk _ => ?_
  rw [hk.session]
  refine .andThen (.ofExcept (.textValues .refl (qualified k'.session) _)) fun vs vs' hvs => ?_
  refine reference.seq fun id => (modifyDynamic _).seq fun _ => registerOperation ⟨?_, .nil⟩
  simp only [Operation.outline, outlines_of_forall₂ hvs]

end TemplateCompiler
