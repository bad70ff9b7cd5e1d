import TemplateCompiler.Compile
import TemplateCompiler.Proofs.Transform.Created

/-! # Induction over visits

Visits nest to any depth. What the rules for one node carry from the nodes inside to the node
itself holds of every visit, and so of every compiled template.
-/

namespace TemplateCompiler

open Template (Fragment Node)
open Transform

variable {o : Options} {names : List String} {visit : Transform Unit} {c c' : Context}

/-! ## Discipline -/

/-- An interpolation takes over text-like nodes after it, which the frame then covers. -/
theorem Frame.Covers.consumeUntil {f : Frame} {i : Nat} {n : Node} {ns : List Node}
    (h : f.Covers i (n :: ns)) :
    (f.consumeUntil (i + ((f.children.drop i).takeWhile (·.isTextLike)).length)).Covers (i + 1)
      ns where
  rest := h.next.rest
  absorbed := by
    have hrun : ∀ m ∈ ns.take (((n :: ns).takeWhile (·.isTextLike)).length - 1),
        m.isAbsorbable = true := by
      intro m hm
      by_cases hn : n.isTextLike = true
      · rw [List.takeWhile_cons_of_pos hn, List.length_cons, Nat.add_sub_cancel,
          ← List.prefix_iff_eq_take.mp (List.takeWhile_prefix _)] at hm
        have hlike := List.all_eq_true.mp List.all_takeWhile m hm
        cases m <;> simp_all [Node.isTextLike, Node.isAbsorbable]
      · simp [List.takeWhile_cons_of_neg hn] at hm
    intro m hm
    simp only [Frame.consumeUntil, h.rest] at hm
    rcases Nat.le_total (i + ((n :: ns).takeWhile (·.isTextLike)).length) f.consumedUntil with
      hle | hle
    · rw [Nat.max_eq_left hle] at hm
      exact h.next.absorbed m hm
    · rw [Nat.max_eq_right hle, Nat.add_sub_add_left] at hm
      exact hrun m hm

theorem Context.Evolves.of_parent (hcount : ∀ name, c'.session.count name = c.session.count name)
    (hparent : c'.parent = c.parent) : c.Evolves c' where
  count := hcount
  frame := fun f _ hf hcovers => ⟨f, hparent.trans hf, hcovers.next⟩

theorem Visits.evolves (hvisit : Disciplined visit) (h : Visits o names visit c c') :
    c.Evolves c' := by
  cases h.proceeds with
  | absorbed | text | comment | dropped => exact .of_parent (fun _ => rfl) rfl
  | created hcreates =>
    obtain ⟨_, -, hmakes⟩ := hcreates.makes
    rcases hcreates.parent with ⟨-, hparent⟩ | ⟨frame, -, hframe, -, hparent⟩
    · exact .of_parent (hmakes.count_eq hvisit) hparent
    · refine ⟨hmakes.count_eq hvisit, fun f ns hf hcovers => ?_⟩
      obtain rfl : frame = f := by simpa [hframe] using hf
      exact ⟨_, hparent, hcovers.consumeUntil⟩
  | @native _ _ _ _ c₂ k _ hbuilds =>
    refine .of_parent (fun name => ?_) ?_
    · have hk : k.session.count name = c₂.session.count name := by
        simp [Session.count, hbuilds.work.identifiers, c₂.insertAll_identifiers]
      refine Eq.trans ?_
        (hk.trans ((hbuilds.walk.count_eq hvisit name).trans (hbuilds.container.count_eq name)))
      simp [Session.count, Context.place_identifiers]
    · rw [Context.place_parent, Context.closed_parent, hbuilds.unplaced.parent]
  | fragment hn hwalk => exact .of_parent (hwalk.count_eq hvisit) hwalk.samePlace.parent

theorem visit_disciplined (hpasses : o.passes = Pass.all) (depth : Nat) :
    Disciplined (TemplateCompiler.visit o depth) := by
  induction depth with
  | zero => exact fun _ _ _ h => nomatch h
  | succ depth ih =>
    intro c c' hc h
    obtain ⟨names, hb⟩ := c.session.exists_binds
    exact (visits_of_ok hpasses ih hc hb h).evolves ih

/-! ## Induction -/

section Induction

variable {R : Context → Context → Prop}

/-- What follows from the rules, if it holds of the visits inside, holds of every visit. -/
theorem visit_induction (hpasses : o.passes = Pass.all)
    (step : ∀ depth, Ensures (TemplateCompiler.visit o depth) R → ∀ c c', c.Fresh →
      (∀ names, c.session.Binds names → Visits o names (TemplateCompiler.visit o depth) c c') →
      R c c')
    (depth : Nat) : Ensures (TemplateCompiler.visit o depth) R := by
  intro c c' hc h
  induction depth generalizing c c' with
  | zero => exact nomatch h
  | succ depth ih =>
    exact step depth ih c c' hc fun names hb =>
      visits_of_ok hpasses (visit_disciplined hpasses depth) hc hb h

/-- The same for what does not depend on the names in scope. -/
theorem visit_ensures (hpasses : o.passes = Pass.all)
    (step : ∀ depth, Ensures (TemplateCompiler.visit o depth) R → ∀ c c' names, c.Fresh →
      Visits o names (TemplateCompiler.visit o depth) c c' → R c c')
    (depth : Nat) : Ensures (TemplateCompiler.visit o depth) R := by
  refine visit_induction hpasses (fun depth ih c c' hc hvisits => ?_) depth
  obtain ⟨names, hb⟩ := c.session.exists_binds
  exact step depth ih c c' names hc (hvisits names hb)

end Induction

/-! ## Compiled templates -/

/-- The template that is compiled: blanks are condensed unless they are to be preserved. -/
def Options.prepare (o : Options) (root : Fragment) : Fragment :=
  if o.preserveBlanks then root else root.condense

/-- A visit of a fragment is a walk over its children. -/
theorem visit_fragment_ok (hpasses : o.passes = Pass.all) {depth : Nat} {f : Fragment}
    (hc : c.Fresh) (hn : c.node = .fragment f)
    (h : TemplateCompiler.visit o depth c = .ok () c') :
    ∃ d, VisitsChildren (TemplateCompiler.visit o d) true (Frame.ofNode c.node 0) 0 f.children c
      c' := by
  cases depth with
  | zero => exact nomatch h
  | succ depth =>
    rw [TemplateCompiler.visit, visitWith_fragment hpasses hc hn] at h
    rw [hn] at h ⊢
    have hcovers := Frame.covers_ofNode (.fragment f) 0 (by simp)
    exact ⟨depth, visitChildren_ok (visit_disciplined hpasses depth) hcovers h⟩

/-- What a compilation without server rendering comes to. -/
theorem compile_eq {root : Fragment} (hserver : o.serverRendering = false) :
    compile o root =
      match TemplateCompiler.visit o (visitDepth (.fragment (o.prepare root)))
        (Context.newBlock (.fragment (o.prepare root)) {}) with
      | .error d _ => .error d
      | .ok _ c =>
        .ok { templates := c.session.templates
              block := { c.block with node := .fragment (o.prepare root), dynamic := c.dynamic }
              components := c.session.components
              directives := c.session.directives } := by
  unfold compile
  rw [hserver]
  dsimp only
  rw [bind_run reference_run]
  rfl

/-- A compiled template is the block made of its root, and what a new session has come to know. -/
theorem compile_makes {root : Fragment} {r : Compiled} (hpasses : o.passes = Pass.all)
    (h : compile o root = .ok r) :
    ∃ depth s, MakesBlock (TemplateCompiler.visit o depth) (.fragment (o.prepare root)) {} r.block s ∧
      r.templates = s.templates ∧ r.components = s.components ∧ r.directives = s.directives := by
  unfold compile at h
  split at h
  · simp at h
  · dsimp only at h
    rw [bind_run reference_run] at h
    split at h
    · simp at h
    · rename_i k hrun
      simp only [Except.ok.injEq] at h
      change TemplateCompiler.visit o (visitDepth (.fragment (o.prepare root)))
        (Context.newBlock (.fragment (o.prepare root)) {}) = .ok () k at hrun
      obtain ⟨d, hwalk⟩ := visit_fragment_ok hpasses (Context.newBlock_fresh _ _) rfl hrun
      have hnode : k.node = .fragment (o.prepare root) := hwalk.samePlace.node
      refine ⟨_, k.session, ⟨k, hrun, ?_, rfl⟩, ?_⟩
      · rw [← h, Context.toBlock, hnode]
        rfl
      · rw [← h]
        exact ⟨rfl, rfl, rfl⟩

theorem compile_ok {root : Fragment} {r : Compiled} (hpasses : o.passes = Pass.all)
    (h : compile o root = .ok r) :
    ∃ depth s, MakesBlock (TemplateCompiler.visit o depth) (.fragment (o.prepare root)) {} r.block s ∧
      r.templates = s.templates := by
  obtain ⟨depth, s, hmakes, htemplates, -⟩ := compile_makes hpasses h
  exact ⟨depth, s, hmakes, htemplates⟩

end TemplateCompiler
