import TemplateCompiler.Proofs.Names.Balance

/-! # Chains of conditions

A block that continues a condition is the only thing in the alternative of that condition, blank
texts aside. The compiled chain has one branch for each block of the chain and shows the same
fragment, whatever holds.
-/

namespace TemplateCompiler

open Template (Branches Fragment IfBlock Node)
open Transform

namespace Template

/-! ## Chains in a template -/

/-- The fragment is nothing but a block that continues the condition, blank texts aside. -/
def Fragment.Continues (f : Fragment) (b : IfBlock) : Prop :=
  b.elseIf = true ∧ ∃ before after, f.children = before ++ .ifBlock b :: after ∧
    before.all Node.isBlankText = true ∧ after.all Node.isBlankText = true

/-- The blocks that continue a condition with this alternative, and what the last of them has as its
own alternative. -/
inductive Continued : Option Fragment → List IfBlock → Option Fragment → Prop
  | last {alternate : Option Fragment} (h : ∀ f ∈ alternate, ∀ b, ¬f.Continues b) :
      Continued alternate [] alternate
  | next {f : Fragment} {b : IfBlock} {bs : List IfBlock} {r : Option Fragment}
      (h : f.Continues b) (hrest : Continued b.alternate bs r) : Continued (some f) (b :: bs) r

/-- What a chain of blocks shows, where `holds` says of every test whether it holds. -/
def selected (holds : Nat → Bool) : List IfBlock → Option Fragment → Option Fragment
  | [], otherwise => otherwise
  | b :: bs, otherwise =>
    if holds 0 then some b.consequent else selected (fun i => holds (i + 1)) bs otherwise

theorem loneContinuation?_of_continues {f : Fragment} {b : IfBlock} (h : f.Continues b) :
    loneContinuation? f.children = some b.branches := by
  obtain ⟨helse, before, after, heq, hbefore, hafter⟩ := h
  rw [heq]
  clear heq
  induction before with
  | nil => simp [loneContinuation?, helse, hafter]
  | cons n before ih =>
    obtain ⟨hn, hblank⟩ := Bool.and_eq_true_iff.mp hbefore
    cases n with
    | text t =>
      rw [List.cons_append, loneContinuation?, if_pos hn]
      · exact ih hblank
      · simp
    | _ => cases hn

theorem continues_of_loneContinuation? {ns : List Node} {branches : Branches} (location : Location)
    (h : loneContinuation? ns = some branches) :
    ∃ b : IfBlock, Fragment.Continues ⟨ns, location⟩ b ∧ branches = b.branches := by
  induction ns with
  | nil => simp [loneContinuation?] at h
  | cons n ns ih =>
    cases n with
    | ifBlock b =>
      obtain ⟨hends, ⟨⟩⟩ := Option.ite_none_right_eq_some.mp h
      obtain ⟨helse, hblank⟩ := Bool.and_eq_true_iff.mp hends
      exact ⟨b, ⟨helse, [], ns, rfl, rfl, hblank⟩, rfl⟩
    | text t =>
      obtain ⟨hblank, h⟩ := Option.ite_none_right_eq_some.mp h
      obtain ⟨b, ⟨helse, before, after, heq, hbefore, hafter⟩, rfl⟩ := ih h
      refine ⟨b, ⟨helse, .text t :: before, after, ?_, ?_, hafter⟩, rfl⟩
      · exact congrArg (_ :: ·) heq
      · exact Bool.and_eq_true_iff.mpr ⟨hblank, hbefore⟩
    | _ => simp [loneContinuation?, Node.isBlankText] at h

/-- The branches of an alternative are those of the block that continues the condition, if there is
one. -/
theorem alternateBranches_cases (alternate : Option Fragment) :
    (∃ f b, alternate = some f ∧ f.Continues b ∧ alternateBranches alternate =
        .test b.test b.consequent (alternateBranches b.alternate)) ∨
      (∀ f ∈ alternate, ∀ b, ¬f.Continues b) ∧
        alternateBranches alternate = (alternate.map Branches.otherwise).getD .done := by
  cases alternate with
  | none => exact .inr ⟨by simp, rfl⟩
  | some f =>
    obtain ⟨children, location⟩ := f
    rw [alternateBranches]
    cases hlone : loneContinuation? children with
    | some branches =>
      obtain ⟨b, hb, rfl⟩ := continues_of_loneContinuation? location hlone
      refine .inl ⟨_, b, rfl, hb, ?_⟩
      obtain ⟨test, consequent, alternate, elseIf, place⟩ := b
      rfl
    | none =>
      refine .inr ⟨fun f hf b hb => ?_, rfl⟩
      obtain rfl := Option.mem_some_iff.mp hf
      simp [loneContinuation?_of_continues hb] at hlone

end Template

open Template (Continued selected)

/-! ## Compiled chains -/

/-- The block that a compiled chain shows. -/
def Alternative.reached (holds : Nat → Bool) : Alternative → Option Block
  | .nothing => none
  | .block b => some b
  | .branch _ _ positive negative =>
    if holds 0 then some positive else negative.reached fun i => holds (i + 1)

/-- The chain has a branch for each of the blocks, whose condition is the test as it is processed in
session `s`, and comes to an end with a block for the rest, if there is any. -/
inductive Alternative.Compiles (o : Options) (s : Session) :
    List IfBlock → Option Fragment → Alternative → Prop
  | nothing : Compiles o s [] none .nothing
  | block {f : Fragment} {b : Block} (h : b.node = .fragment f) : Compiles o s [] (some f) (.block b)
  | branch {b : IfBlock} {bs : List IfBlock} {r : Option Fragment} {id : Nat} {test : Expression}
      {positive : Block} {negative : Alternative}
      (htest : (Expression.ofCode b.test).qualified o s = .ok test)
      (hpositive : positive.node = .fragment b.consequent)
      (hrest : Compiles o s bs r negative) :
      Compiles o s (b :: bs) r (.branch id test positive negative)

theorem Alternative.Compiles.reached_eq {o : Options} {s : Session} {bs : List IfBlock}
    {r : Option Fragment} {a : Alternative} (h : a.Compiles o s bs r) (holds : Nat → Bool) :
    (a.reached holds).map Block.node = (selected holds bs r).map Node.fragment := by
  induction h generalizing holds with
  | nothing => rfl
  | block h => exact congrArg some h
  | branch _ hpositive _ ih =>
    rw [reached, selected]
    split
    · exact congrArg some hpositive
    · exact ih _

theorem MakesAlternative.compiles {o : Options} {visit : Transform Unit} {branches : Branches}
    {s₀ s s' : Session} {a : Alternative} (hv : Steady visit)
    (h : MakesAlternative o visit branches s a s') (hs : s₀.Kept s) {alternate : Option Fragment}
    (hbranches : branches = Template.alternateBranches alternate) :
    ∃ bs r, Continued alternate bs r ∧ a.Compiles o s₀ bs r := by
  induction h generalizing alternate with
  | done s =>
    rcases Template.alternateBranches_cases alternate with ⟨f, b, rfl, -, heq⟩ | ⟨hlast, heq⟩
    · simp [heq] at hbranches
    · cases alternate with
      | none => exact ⟨[], none, .last hlast, .nothing⟩
      | some f => simp [heq] at hbranches
  | otherwise hb =>
    rcases Template.alternateBranches_cases alternate with ⟨f, b, rfl, -, heq⟩ | ⟨hlast, heq⟩
    · simp [heq] at hbranches
    · cases alternate with
      | none => simp [heq] at hbranches
      | some f =>
        obtain rfl : _ = f := by simpa [heq] using hbranches
        exact ⟨[], some _, .last hlast, .block (hb.kept hv).1⟩
  | @test condition body rest s s₁ _ test _ _ htest hb _ ih =>
    rcases Template.alternateBranches_cases alternate with ⟨f, b, rfl, hf, heq⟩ | ⟨hlast, heq⟩
    · obtain ⟨rfl, rfl, rfl⟩ : condition = b.test ∧ body = b.consequent ∧ rest = _ := by
        simpa [heq] using hbranches
      obtain ⟨hnode, hkept⟩ := hb.kept hv
      have hid := hs.trans (Session.kept_allocateId s)
      obtain ⟨bs, r, hrest, hcompiles⟩ := ih (hid.trans hkept) rfl
      refine ⟨b :: bs, r, .next hf hrest, .branch ?_ hnode hcompiles⟩
      rw [← htest]
      exact Expression.qualified_congr hid.isIdentifier o _
    · cases alternate <;> simp [heq] at hbranches

/-- The chain of conditions that a block begins is compiled to a chain with the same tests in the
same order, and whatever holds, the two show the same fragment. -/
theorem transformCondition_selects {o : Options} {depth : Nat} {c c' : Context} {b : IfBlock}
    (hn : c.node = .ifBlock b) (h : transformCondition o (visit o depth) c = .ok () c') :
    ∃ bs r id test positive negative,
      Continued b.alternate bs r ∧
      c'.block = c.block.register (.branch id test positive negative) ∧
      (Alternative.branch id test positive negative).Compiles o c.session (b :: bs) r ∧
      ∀ holds : Nat → Bool,
        ((Alternative.branch id test positive negative).reached holds).map Block.node =
          (selected holds (b :: bs) r).map Node.fragment := by
  simp only [transformCondition, get_bind, hn, bind_eq_ok, setFlags_run, reference_run,
    qualify_eq_ok, createBlock_eq_ok, registerOperation_run, EStateM.Result.ok.injEq] at h
  obtain ⟨_, _, ⟨-, rfl⟩, _, _, ⟨rfl, rfl⟩, test, _, ⟨htest, rfl⟩, positive, _,
    ⟨s, hpositive, rfl⟩, negative, _, hrest, -, rfl⟩ := h
  obtain ⟨s', hnegative, rfl⟩ := createAlternative_ok hrest
  have hv := steady_visit (o := o) depth
  have hid : c.session.Kept (c.flag .inserted).referenced.session :=
    (Context.LeadsTo.referenced (c.flag .inserted)).kept
  obtain ⟨hnode, hkept⟩ := hpositive.kept hv
  obtain ⟨bs, r, hcontinued, hcompiles⟩ := hnegative.compiles hv (hid.trans hkept) rfl
  have hchain : (Alternative.branch (c.flag .inserted).ownId test positive negative).Compiles o
      c.session (b :: bs) r := by
    refine .branch ?_ hnode hcompiles
    rw [← htest]
    exact Expression.qualified_congr hid.isIdentifier o _
  exact ⟨bs, r, _, test, positive, negative, hcontinued, rfl, hchain, hchain.reached_eq⟩

/-- Three conditions, the second with blanks around it, and blanks for the rest. -/
def chainedCondition : IfBlock :=
  let blank : Node := .text { data := " ", raw := " " }
  let body (tag : String) : Fragment := ⟨[.element ⟨tag, .regular, [], [], {}⟩], {}⟩
  ⟨⟨"a", {}⟩, body "p",
    some ⟨[blank, .ifBlock ⟨⟨"b", {}⟩, body "i",
      some ⟨[.ifBlock ⟨⟨"c", {}⟩, body "u", some ⟨[blank, blank], {}⟩, true, {}⟩], {}⟩, true, {}⟩,
      blank], {}⟩, false, {}⟩

theorem transformCondition_selects_chained :
    ∃ k bs r a, transformCondition {} (visit {} 9)
        (Context.root (.ifBlock chainedCondition) Block.empty {}) = .ok () k ∧
      Continued chainedCondition.alternate bs r ∧
      Alternative.Compiles {} {} (chainedCondition :: bs) r a ∧
      ∀ holds : Nat → Bool, (a.reached holds).map Block.node =
        (selected holds (chainedCondition :: bs) r).map Node.fragment := by
  have hok : failure? (transformCondition {} (visit {} 9))
      (Context.root (.ifBlock chainedCondition) Block.empty {}) |>.isNone := by decide +kernel
  obtain ⟨_, k, hrun⟩ := failure?_isNone.mp hok
  obtain ⟨bs, r, _, _, _, _, hbs, -, hcompiles, hreached⟩ := transformCondition_selects rfl hrun
  exact ⟨k, bs, r, _, hrun, hbs, hcompiles, hreached⟩

end TemplateCompiler
