import TemplateCompiler.Proofs.Qualifying.Regions
import TemplateCompiler.Proofs.Transform.Compiles

/-! # Templates compiled with and without qualified names

Qualifying names changes the sources of expressions and nothing else.
-/

namespace TemplateCompiler

open Template (Fragment Node)
open Transform Comparison

variable {o : Options} {v v' : Transform Unit} {isFragment : Bool}

/-! ## Children -/

theorem mirrors_inChild {α : Type} {V : α → α → Prop} {t t' : Transform α} (ht : Mirrors V t t')
    (n : Node) (index : Nat) (frame : Frame) :
    Mirrors (fun x x' => V x.1 x'.1 ∧ x.2.Alike x'.2) (inChild n index frame t)
      (inChild n index frame t') := by
  intro c c' x k hc hrun
  have hchild : (c.child n index frame).Alike (c'.child n index frame) := by
    obtain ⟨_, hb, -⟩ := hc
    exact .intro (c'.child n index frame) hb .nil
  unfold inChild at hrun ⊢
  cases ht₁ : t (c.child n index frame) with
  | error e k₁ =>
    rw [ht₁] at hrun
    cases hrun
  | ok a k₁ =>
    rw [ht₁] at hrun
    cases hrun
    obtain ⟨a', k₁', ht₁', ha, hk₁⟩ := ht hchild ht₁
    rw [ht₁']
    refine ⟨_, _, rfl, ⟨ha, hk₁⟩, ?_⟩
    obtain ⟨_, hb, -⟩ := hk₁
    obtain ⟨_, -, hslots⟩ := hc
    exact .intro { c' with block := k₁'.block, session := k₁'.session } hb hslots

theorem mirrors_visitChildren (hv : Mirrors Eq v v') (frame : Frame) (index : Nat)
    (ns : List Node) :
    Mirrors Eq (visitChildren v isFragment frame index ns)
      (visitChildren v' isFragment frame index ns) := by
  refine mirrors_of_runs fun w => ?_
  induction ns generalizing frame index with
  | nil => exact .pure_eq ()
  | cons n ns ih =>
    have hchild : Mirrors Eq (visitChild v isFragment) (visitChild v' isFragment) :=
      mirrors_of_runs fun _ =>
        Simulation.Inside.visitChild (S := mirroring.simulation {}) hv.runs isFragment
    refine (mirrors_inChild hchild n index frame).runs.andThen fun x x' hx => ?_
    obtain ⟨⟨⟩, child⟩ := x
    obtain ⟨⟨⟩, child'⟩ := x'
    have hx : child.Alike child' := hx.2
    have hadopt : mirroring.Runs w Equal (adoptChild isFragment child)
        (adoptChild isFragment child') := by
      rw [adoptChild, adoptChild, hx.similar.template, hx.dynamic]
      exact mirroring.changeElse fun _ _ _ => rfl
    refine .seq hadopt fun _ => ?_
    rw [hx.parent]
    exact ih _ _

/-! ## Visits -/

theorem Mirrors.inside (hv : Mirrors Eq v v') (o : Options) :
    (mirroring.simulation o).Inside v v' where
  block _ _ := (mirrors_createBlock hv _).runs
  body _ _ _ := (mirrors_createLoopBody hv _ _).runs
  children _ _ _ := (mirrors_visitChildren hv _ _ _).runs

/-- A visit that qualifies names is mirrored by one to the same depth that does not. -/
theorem mirrors_visit (o : Options) (depth : Nat) :
    Mirrors Eq (visit o depth) (visit o.unqualified depth) := by
  induction depth with
  | zero => exact mirrors_of_runs fun _ => .throw _
  | succ depth ih => exact mirrors_of_runs fun _ => (ih.inside o).visitWith

/-! ## Templates -/

/-- Qualifying names changes nothing but the sources of expressions: if a template compiles, it does
so with names as they are, to the same pieces of markup, the same components and actions to look
up, and a like block. -/
theorem compile_unqualified (o : Options) (root : Fragment) {r : Compiled}
    (h : compile o root = .ok r) :
    ∃ r', compile { o with qualifyNames := false } root = .ok r' ∧ r.templates = r'.templates ∧
      r.components = r'.components ∧ r.directives = r'.directives ∧ r.block.Alike r'.block := by
  change ∃ r', compile o.unqualified root = .ok r' ∧ _
  cases hserver : o.serverRendering with
  | true => simp [compile, hserver] at h
  | false =>
    have hserver' : o.unqualified.serverRendering = false := hserver
    rw [compile_eq hserver] at h
    cases hrun : visit o (visitDepth (.fragment (o.prepare root)))
        (Context.newBlock (.fragment (o.prepare root)) {}) with
    | error d k => simp [hrun] at h
    | ok _ k =>
      rw [hrun] at h
      cases h
      have hroot := Context.Alike.refl_root (.fragment (o.prepare root)) {}
      obtain ⟨_, k', hrun', -, hk⟩ := mirrors_visit o _ hroot.referenced hrun
      change visit o.unqualified (visitDepth (.fragment (o.unqualified.prepare root)))
        (Context.newBlock (.fragment (o.unqualified.prepare root)) {}) = _ at hrun'
      refine ⟨{ templates := k'.session.templates
                block := { k'.block with
                  node := .fragment (o.prepare root), dynamic := k'.dynamic }
                components := k'.session.components
                directives := k'.session.directives }, ?_, ?_⟩
      · rw [compile_eq hserver', hrun']
        rfl
      · obtain ⟨_, ⟨_, _, hreturns, hops⟩, -⟩ := hk
        exact ⟨rfl, rfl, rfl, .intro rfl rfl hreturns hops⟩

/-- A loop over components that are given a name of the script and one of the loop, with a condition
in their slot and, in its branches, a literal text and one that changes. -/
def mixedTemplate : Fragment :=
  ⟨[.eachBlock ⟨⟨"xs", {}⟩, "x", none, some ⟨"x", {}⟩,
      ⟨[.element ⟨"Row", .component,
          [.plain "a" (.chunks [.code ⟨"x", {}⟩]) {}, .plain "b" (.chunks [.code ⟨"y", {}⟩]) {}],
          [.ifBlock ⟨⟨"z", {}⟩,
            ⟨[.element ⟨"p", .regular, [], [.interpolation ⟨"'t'", {}⟩], {}⟩], {}⟩,
            some ⟨[.element ⟨"p", .regular, [], [.interpolation ⟨"y", {}⟩], {}⟩], {}⟩, false, {}⟩],
          {}⟩], {}⟩,
      none, {}⟩], {}⟩

theorem compile_unqualified_mixedTemplate :
    ∃ r r', compile { qualifyNames := true, bindings := [("y", .setupRef)] } mixedTemplate = .ok r ∧
      compile { qualifyNames := false, bindings := [("y", .setupRef)] } mixedTemplate = .ok r' ∧
      r.templates = r'.templates ∧ r.components = r'.components ∧ r.directives = r'.directives ∧
      r.block.Alike r'.block := by
  obtain ⟨r, h⟩ := exists_eq_ok (x := compile
    { qualifyNames := true, bindings := [("y", .setupRef)] } mixedTemplate) (by decide +kernel)
  obtain ⟨r', h'⟩ := compile_unqualified _ _ h
  exact ⟨r, r', h, h'⟩

end TemplateCompiler
