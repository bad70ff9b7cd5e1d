import TemplateCompiler.Proofs.Names.Scopes
import TemplateCompiler.Proofs.Siblings.Renaming
import TemplateCompiler.Proofs.Transform.Steady

/-! # What runs again

An effect runs again when one of its expressions changes. No operation of a compiled template shows
an expression that may change without being in an effect that depends on it. An expression counts as
constant if all its free names are global ones, so a loop that introduces such a name hides it from
the effects.
-/

namespace TemplateCompiler

open Template (EachBlock Fragment Node)
open Transform

/-! ## Adding to effects -/

theorem Expression.exists_same_of_sameAll {as bs : List Expression} (h : sameAll as bs = true)
    {b : Expression} (hb : b ∈ bs) : ∃ a ∈ as, b.same a = true := by
  have hmem : (b.content, b.isStatic) ∈ signature as :=
    sameAll_iff.mp h ▸ List.mem_map.mpr ⟨b, hb, rfl⟩
  obtain ⟨a, ha, heq⟩ := List.mem_map.mp hmem
  obtain ⟨hcontent, hstatic⟩ := Prod.mk.inj heq
  exact ⟨a, ha, by simp [same, hcontent, hstatic]⟩

/-- An operation in an effect was in one with the same expressions before, or it is the new one. -/
theorem mem_addToEffects {es : List Expression} {op op' : Operation} {effects : List Effect}
    {e : Effect} (he : e ∈ addToEffects es op effects) (hop : op' ∈ e.operations) :
    (∃ e' ∈ effects, op' ∈ e'.operations ∧ e.expressions = e'.expressions) ∨
      op' = op ∧ Expression.sameAll e.expressions es = true := by
  induction effects with
  | nil =>
    obtain rfl := List.mem_singleton.mp he
    exact .inr ⟨List.mem_singleton.mp hop, Expression.sameAll_iff.mpr rfl⟩
  | cons d effects ih =>
    rw [addToEffects] at he
    split at he
    · rename_i hsame
      rcases List.mem_cons.mp he with rfl | he
      · rcases List.mem_append.mp hop with hop | hop
        · exact .inl ⟨d, by simp, hop, rfl⟩
        · exact .inr ⟨List.mem_singleton.mp hop, hsame⟩
      · exact .inl ⟨e, by simp [he], hop, rfl⟩
    · rcases List.mem_cons.mp he with rfl | he
      · exact .inl ⟨e, by simp, hop, rfl⟩
      · rcases ih he with ⟨e', he', hop', heq⟩ | hnew
        · exact .inl ⟨e', by simp [he'], hop', heq⟩
        · exact .inr hnew

/-! ## Covered blocks -/

/-- The operations of the block run again when they have to. -/
structure Block.IsCovered (b : Block) : Prop where
  /-- An effect depends on all expressions of its operations that may change. -/
  effects : ∀ effect ∈ b.effects, ∀ op ∈ effect.operations, ∀ e ∈ op.watched,
    e.isConstant = false → ∃ x ∈ effect.expressions, e.same x = true
  /-- What runs once shows nothing that may change. -/
  operations : ∀ op ∈ b.operations, ∀ e ∈ op.watched, e.isConstant = true
  /-- A text is said to change if one of its values may. -/
  texts : ∀ id values effect, .createText id values effect ∈ b.allOperations →
    (effect = false ↔ ∀ v ∈ values, v.isConstant = true)
  /-- No operation is in an effect for nothing. -/
  needed : ∀ effect ∈ b.effects, ∀ op ∈ effect.operations, op.isExact = true →
    ∃ e ∈ op.watched, e.isConstant = false

namespace Block.IsCovered

variable {b : Block} {s : Session}

theorem empty : Block.empty.IsCovered where
  effects := by simp [Block.empty]
  operations := by simp [Block.empty]
  texts := by simp [Block.empty, allOperations]
  needed := by simp [Block.empty]

theorem texts_add {x : Contribution} (h : b.IsCovered) (hx : x.op.IsMarked s) (id : Nat)
    (values : List Expression) (effect : Bool)
    (hop : .createText id values effect ∈ (b.add x).allOperations) :
    effect = false ↔ ∀ v ∈ values, v.isConstant = true := by
  rcases mem_allOperations_add.mp hop with hop | hop
  · rw [← hop] at hx
    obtain rfl : effect = !values.all (·.isConstant) := hx
    simp
  · exact h.texts id values effect hop

theorem register {op : Operation} (h : b.IsCovered) (hop : ∀ e ∈ op.watched, e.isConstant = true)
    (hmarked : op.IsMarked s) : (b.register op).IsCovered where
  effects := h.effects
  operations op' hop' := by
    rcases List.mem_append.mp hop' with hop' | hop'
    · exact h.operations op' hop'
    · rw [List.mem_singleton.mp hop']
      exact hop
  texts := h.texts_add (x := .once op) hmarked
  needed := h.needed

/-- A sound contribution leaves the block covered. -/
theorem add {x : Contribution} (h : b.IsCovered) (hx : x.IsSound s) : (b.add x).IsCovered := by
  cases x with
  | once op =>
    refine h.register (fun e he => ?_) hx.marked
    by_contra hchanging
    exact List.not_mem_nil (hx.watched e he (by simpa using hchanging))
  | whenever es op =>
    have hcovered : ∀ e ∈ op.watched, e.isConstant = false → e ∈ es.filter (!·.isConstant) :=
      fun e he hchanging => List.mem_filter.mpr ⟨hx.watched e he hchanging, by simp [hchanging]⟩
    have htexts := h.texts_add (x := .whenever es op) hx.marked
    simp only [Block.add, registerEffect] at htexts ⊢
    split at htexts
    · rename_i hnil
      refine h.register (fun e he => ?_) hx.marked
      by_contra hchanging
      exact List.not_mem_nil (hnil ▸ hcovered e he (by simpa using hchanging))
    · rename_i hchanging
      refine ⟨fun e he op' hop' v hv hvary => ?_, h.operations, htexts,
        fun e he op' hop' hexact => ?_⟩
      · rcases mem_addToEffects he hop' with ⟨e', he', hop', heq⟩ | ⟨rfl, hsame⟩
        · rw [heq]
          exact h.effects e' he' op' hop' v hv hvary
        · exact Expression.exists_same_of_sameAll hsame (hcovered v hv hvary)
      · rcases mem_addToEffects he hop' with ⟨e', he', hop', -⟩ | ⟨rfl, -⟩
        · exact h.needed e' he' op' hop' hexact
        · obtain ⟨v, hv⟩ := List.exists_mem_of_ne_nil _ hchanging
          obtain ⟨hmem, hvary⟩ := List.mem_filter.mp hv
          exact ⟨v, hx.needed hexact hmem, by simpa using hvary⟩

end Block.IsCovered

/-- A covered block stays so, whatever a run does to it. -/
theorem Develops.isCovered {b b' : Block} {s s' : Session} (h : Develops b s b' s')
    (hb : b.IsCovered) : b'.IsCovered := by
  induction h with
  | trans _ _ ih₁ ih₂ => exact ih₂ (ih₁ hb)
  | contribution _ hx => exact hb.add hx
  | returns => exact ⟨hb.effects, hb.operations, hb.texts, hb.needed⟩
  | _ => exact hb

theorem MakesBlock.isCovered {o : Options} {depth : Nat} {n : Node} {s s' : Session} {b : Block}
    (h : MakesBlock (visit o depth) n s b s') : b.IsCovered := by
  obtain ⟨k, hrun, rfl, -⟩ := h
  have hsteady := steady_visit (o := o) depth (Context.newBlock n s)
  unfold AbidesAt at hsteady
  rw [hrun] at hsteady
  have hk : k.block.IsCovered := Develops.isCovered hsteady.1.1 .empty
  exact ⟨hk.effects, hk.operations, hk.texts, hk.needed⟩

/-- In every block of a compiled template, an effect depends on all that its operations show and
that may change, and operations that run once show only what is constant. -/
theorem compile_covers_dependencies {o : Options} {root : Fragment} {r : Compiled}
    (hpasses : o.passes = Pass.all) (h : compile o root = .ok r) :
    ∀ b ∈ r.block.blocks, b.IsCovered := by
  intro b hb
  obtain ⟨_, _, _, _, hmakes, -⟩ := compile_made hpasses h b hb
  exact hmakes.isCovered

/-- Merged and spread properties, a text that never changes, and a loop over a reference, markup and
a text. -/
def boundTemplate : Fragment :=
  ⟨[.element ⟨"p", .regular,
      [.plain "class" (.chunks [.text ⟨"a", "a", {}⟩]) {},
        .directive .classToggle "b" [] (.chunks [.code ⟨"c", {}⟩]) {}, .spread ⟨"d", {}⟩ {},
        .plain "title" (.chunks [.code ⟨"e", {}⟩]) {}],
      [.interpolation ⟨"Math.PI", {}⟩], {}⟩,
    .eachBlock ⟨⟨"items", {}⟩, "item", some "i", none,
      ⟨[.element ⟨"b", .regular,
          [.directive .binding "this" [] (.chunks [.code ⟨"nodes[i]", {}⟩]) {}],
          [.rawMarkup ⟨"item", {}⟩], {}⟩,
        .interpolation ⟨"i + 1", {}⟩], {}⟩, none, {}⟩], {}⟩

theorem compile_covers_dependencies_boundTemplate :
    ∃ r, compile {} boundTemplate = .ok r ∧ ∀ b ∈ r.block.blocks, b.IsCovered :=
  exists_ok (by decide +kernel) fun _ => compile_covers_dependencies rfl

/-! ## Names that loops introduce -/

/-- The name is free in the script. -/
def Expression.Mentions (e : Expression) (name : String) : Prop :=
  e.isStatic = false ∧ ∃ script, Script.parseExpression? e.content = some script ∧
    ∃ r ∈ (Script.ScopeTree.ofExpr script).free, r.ident.name = name

theorem Expression.Mentions.isConstant_eq {e : Expression} {name : String} (h : e.Mentions name)
    (hname : Script.isAllowedGlobal name = false) : e.isConstant = false := by
  obtain ⟨hdynamic, script, hparse, r, hr, rfl⟩ := h
  have hany : ∃ r ∈ (Script.ScopeTree.ofExpr script).free,
      Script.isAllowedGlobal r.ident.name = false := ⟨r, hr, hname⟩
  simpa [isConstant, hdynamic, hparse] using hany

/-- The expressions whose values the operation shows. -/
def Operation.displayed : Operation → List Expression
  | .createText _ values _ => values
  | .setTemplateRef .. => []
  | op => op.watched

/-- The operation of the block runs again when the expression changes. -/
def Block.Repeats (b : Block) : Operation → Expression → Prop
  | .createText _ _ effect, _ => effect = true
  | op, e => op ∉ b.operations ∧ ∃ effect ∈ b.effects, op ∈ effect.operations ∧
      ∃ x ∈ effect.expressions, e.same x = true

namespace Block.IsCovered

variable {b : Block} {op : Operation} {e : Expression}

theorem repeats (h : b.IsCovered) (hop : op ∈ b.allOperations) (he : e ∈ op.displayed)
    (hvary : e.isConstant = false) : b.Repeats op e := by
  have heffect (hwatched : e ∈ op.watched) : op ∉ b.operations ∧ ∃ effect ∈ b.effects,
      op ∈ effect.operations ∧ ∃ x ∈ effect.expressions, e.same x = true := by
    have honce : op ∉ b.operations := by
      intro honce
      simp [h.operations op honce e hwatched] at hvary
    rcases List.mem_append.mp hop with hop | hop
    · exact absurd hop honce
    · obtain ⟨effect, heffect, hop⟩ := List.mem_flatMap.mp hop
      exact ⟨honce, effect, heffect, hop, h.effects effect heffect op hop e hwatched hvary⟩
  cases op with
  | createText id values effect =>
    cases effect with
    | true => rfl
    | false => simp [(h.texts id values false hop).mp rfl e he] at hvary
  | setTemplateRef => cases he
  | _ => exact heffect he

/-- An operation that shows only what counts as constant does not run again. -/
theorem not_repeats (h : b.IsCovered) (hop : op ∈ b.allOperations)
    (hdynamic : ∀ element groups, op ≠ .setDynamicProps element groups)
    (hconstant : ∀ e ∈ op.displayed, e.isConstant = true) (he : e ∈ op.displayed) :
    ¬b.Repeats op e := by
  have heffect (hexact : op.isExact = true) (hdisplayed : op.watched = op.displayed) :
      ¬∃ effect ∈ b.effects, op ∈ effect.operations ∧
        ∃ x ∈ effect.expressions, e.same x = true := by
    rintro ⟨effect, heffect, hop, -⟩
    obtain ⟨x, hx, hvary⟩ := h.needed effect heffect op hop hexact
    simp [hconstant x (hdisplayed ▸ hx)] at hvary
  cases op with
  | createText id values effect =>
    intro hrepeats
    have hfalse : effect = false := (h.texts id values effect hop).mpr hconstant
    exact Bool.false_ne_true (hfalse.symm.trans hrepeats)
  | setProp | setText | setHtml => exact fun hrepeats => heffect rfl rfl hrepeats.2
  | setDynamicProps element groups => exact absurd rfl (hdynamic element groups)
  | _ => cases he

end Block.IsCovered

/-- What shows a name of a loop around runs again, unless a global has that name, too. And what
shows only what counts as constant never does so, even if names of loops are among its names. -/
theorem compile_repeats_loop_names {o : Options} {root : Fragment} {r : Compiled}
    (hpasses : o.passes = Pass.all) (h : compile o root = .ok r) :
    ∀ b ∈ r.block.blocks, ∃ names f, InScope (o.prepare root) names f ∧ b.node = .fragment f ∧
      ∀ op ∈ b.allOperations, ∀ e ∈ op.displayed,
        (∀ name ∈ names, e.Mentions name → Script.isAllowedGlobal name = false →
          e.isConstant = false ∧ b.Repeats op e) ∧
        ((∀ element groups, op ≠ .setDynamicProps element groups) →
          (∀ x ∈ op.displayed, x.isConstant = true) → ¬b.Repeats op e) := by
  intro b hb
  obtain ⟨names, depth, f, s, s', hf, -, hmakes, -⟩ := compile_scoped hpasses h b hb
  have hcovered := hmakes.isCovered
  obtain ⟨k, hrun, rfl, -⟩ := hmakes
  obtain ⟨_, hwalk⟩ := visit_fragment_ok hpasses (Context.newBlock_fresh f s) rfl hrun
  refine ⟨names, f, hf, hwalk.samePlace.node, fun op hop e he => ⟨?_, ?_⟩⟩
  · intro name _ hmentions hname
    have hvary := hmentions.isConstant_eq hname
    exact ⟨hvary, hcovered.repeats hop he hvary⟩
  · exact fun hdynamic hconstant => hcovered.not_repeats hop hdynamic hconstant he

theorem compile_repeats_loop_names_boundTemplate :
    ∃ r, compile {} boundTemplate = .ok r ∧
      ∀ b ∈ r.block.blocks, ∃ names f,
        InScope (Options.prepare {} boundTemplate) names f ∧ b.node = .fragment f ∧
        ∀ op ∈ b.allOperations, ∀ e ∈ op.displayed,
          (∀ name ∈ names, e.Mentions name → Script.isAllowedGlobal name = false →
            e.isConstant = false ∧ b.Repeats op e) ∧
          ((∀ element groups, op ≠ .setDynamicProps element groups) →
            (∀ x ∈ op.displayed, x.isConstant = true) → ¬b.Repeats op e) :=
  exists_ok (by decide +kernel) fun _ => compile_repeats_loop_names rfl

/-- The items of the loop are called like a global. -/
def globalItemLoop : EachBlock :=
  ⟨⟨"xs", {}⟩, "Math", none, none,
    ⟨[.element ⟨"p", .regular, [], [.interpolation ⟨"Math", {}⟩], {}⟩], {}⟩, none, {}⟩

def Operation.body? : Operation → Option Block
  | .loop _ _ _ _ _ body _ => some body
  | _ => none

/-- The text of every item is set once and never again. -/
theorem globalItemLoop_not_repeated :
    loopNames? globalItemLoop = some ["Math"] ∧
    ∃ r loop body op e, compile {} ⟨[.eachBlock globalItemLoop], {}⟩ = .ok r ∧
      r.block.operations = [loop] ∧ loop.body? = some body ∧ body.operations = [op] ∧
      op.displayed = [e] ∧ e.Mentions "Math" ∧ ¬body.Repeats op e := by
  have hparsed : (Script.parseExpression? "Math").any (fun script =>
      (Script.ScopeTree.ofExpr script).free.any (·.ident.name == "Math")) = true := by
    decide +kernel
  have hok : (compile {} ⟨[.eachBlock globalItemLoop], {}⟩).toOption.map (fun r =>
      r.block.operations.map fun op => op.body?.map fun b =>
        b.operations.map fun op => (op.displayed, op.isExact)) =
      some [some [([.ofCode ⟨"Math", {}⟩], true)]] := by
    decide +kernel
  refine ⟨by decide +kernel, ?_⟩
  obtain ⟨r, h, hok⟩ := exists_ok_of_map hok
  simp only [List.map_eq_cons_iff, List.map_eq_nil_iff, Option.map_eq_some_iff,
    Prod.mk.injEq] at hok
  obtain ⟨loop, _, hops, ⟨body, hbody, op, _, hbodyOps, ⟨hdisplayed, hexact⟩, rfl⟩, rfl⟩ := hok
  obtain ⟨script, hparse, hfree⟩ := (Option.any_eq_true _ _).mp hparsed
  obtain ⟨reference, hmem, hname⟩ := List.any_eq_true.mp hfree
  refine ⟨r, loop, body, op, _, h, hops, hbody, hbodyOps, hdisplayed,
    ⟨rfl, script, hparse, reference, hmem, by simpa using hname⟩, fun hrepeats => ?_⟩
  have honce : op ∈ body.operations := by simp [hbodyOps]
  cases op with
  | createText => cases hexact
  | _ => exact hrepeats.1 honce

end TemplateCompiler
