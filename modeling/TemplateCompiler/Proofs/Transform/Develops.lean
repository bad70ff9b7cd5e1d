import TemplateCompiler.Proofs.Transform.Children
import TemplateCompiler.Proofs.Transform.Simulating

/-! # What a visit does to its block and its session

The block and the session outlast the context of a node, also when its visit fails. All that any run
does to them is made of a few steps, and every contribution to a block is a sound one: an operation
that shows an expression which may change depends on it.
-/

namespace TemplateCompiler

open Template (Branches EachBlock Element Fragment Node)
open Transform Comparison

variable {es : List Expression} {op : Operation}

/-! ## Sound contributions -/

def MergedProp.expressions (p : MergedProp) : List Expression := p.key :: p.values

def PropGroup.expressions : PropGroup → List Expression
  | .entries props => props.flatMap MergedProp.expressions
  | .spread value _ => [value]

/-- The expressions of an operation that has to run again when one of them changes. -/
def Operation.watched : Operation → List Expression
  | .setProp _ prop => prop.expressions
  | .setDynamicProps _ groups => groups.flatMap PropGroup.expressions
  | .setText _ values => values
  | .setHtml _ value | .setTemplateRef _ value _ => [value]
  | _ => []

/-- The operation depends on nothing but the expressions that it watches. -/
def Operation.isExact : Operation → Bool
  | .setProp .. | .setText .. | .setHtml .. | .setTemplateRef .. => true
  | _ => false

/-- An operation that is made in session `s` says of itself what is the case. -/
def Operation.IsMarked (s : Session) : Operation → Prop
  | .createText _ values effect => effect = !values.all (·.isConstant)
  | .setTemplateRef _ _ inLoop => inLoop = decide (0 < s.loopDepth)
  | _ => True

/-- The expression is one of `es`, unless it is constant. -/
def Expression.CoveredBy (es : List Expression) (e : Expression) : Prop :=
  e.isConstant = false → e ∈ es

structure Contribution.IsSound (s : Session) (x : Contribution) : Prop where
  watched : ∀ e ∈ x.op.watched, e.CoveredBy x.expressions
  needed : x.op.isExact = true → x.expressions ⊆ x.op.watched
  marked : x.op.IsMarked s

theorem Contribution.IsSound.of_idle {s : Session} (hwatched : op.watched = [])
    (hmarked : op.IsMarked s) : (Contribution.once op).IsSound s :=
  ⟨by simp [Contribution.op, hwatched], fun _ => List.nil_subset _, hmarked⟩

theorem Expression.CoveredBy.of_isStatic {e : Expression} (h : e.isStatic = true) :
    e.CoveredBy es := by
  simp [CoveredBy, isConstant, h]

theorem Expression.CoveredBy.mono {es' : List Expression} {e : Expression} (h : e.CoveredBy es)
    (hsub : es ⊆ es') : e.CoveredBy es' := fun he => hsub (h he)

/-! ## Steps -/

/-- The block and the session come from one state to another in steps. A block of its own, which
begins empty, only leaves its traces in the session. -/
inductive Develops : Block → Session → Block → Session → Prop
  | refl (b : Block) (s : Session) : Develops b s b s
  | trans {b b₁ b₂ : Block} {s s₁ s₂ : Session} :
      Develops b s b₁ s₁ → Develops b₁ s₁ b₂ s₂ → Develops b s b₂ s₂
  | id (b : Block) (s : Session) : Develops b s b s.allocateId.2
  | template (b : Block) (s : Session) (text : String) : Develops b s b (s.addTemplate text).2
  | component (b : Block) (s : Session) (name : String) : Develops b s b (s.addComponent name)
  | directive (b : Block) (s : Session) (name : String) : Develops b s b (s.addDirective name)
  | returns (b : Block) (s : Session) (ids : List Nat) : Develops b s { b with returns := ids } s
  | contribution {s : Session} {x : Contribution} (b : Block) :
      x.IsSound s → Develops b s (b.add x) s
  | block {s s' : Session} {b' : Block} (b : Block) :
      Develops Block.empty s b' s' → Develops b s b s'
  | loop {s s' : Session} {b' : Block} (b : Block) (names : List String) :
      Develops Block.empty (s.enterLoop names) b' s' → Develops b s b (s'.leaveLoop names)

/-- The node is the same, or what is left of a component or a slot outlet without its children. -/
def Template.Node.Narrows (n n' : Node) : Prop :=
  n' = n ∨ ∃ e : Element, n = .element e ∧ e.kind ≠ .regular ∧ n' = .element e.withoutChildren

namespace Template.Node.Narrows

variable {n n' n'' : Node}

theorem refl (n : Node) : n.Narrows n := .inl rfl

theorem trans (h : n.Narrows n') (h' : n'.Narrows n'') : n.Narrows n'' := by
  rcases h' with rfl | ⟨e', rfl, hkind, rfl⟩
  · exact h
  · rcases h with h | ⟨e, rfl, hkind, heq⟩
    · exact .inr ⟨e', h.symm, hkind, rfl⟩
    · obtain rfl := Node.element.inj heq
      exact .inr ⟨e, rfl, hkind, rfl⟩

end Template.Node.Narrows

/-- A run in `c` may come to `k`: the block and the session develop, and the node is left alone or
narrowed. -/
def Context.LeadsTo (c k : Context) : Prop :=
  Develops c.block c.session k.block k.session ∧ c.node.Narrows k.node

namespace Context.LeadsTo

variable {c c₁ c₂ : Context}

theorem refl (c : Context) : c.LeadsTo c := ⟨.refl _ _, .refl _⟩

theorem trans (h₁ : c.LeadsTo c₁) (h₂ : c₁.LeadsTo c₂) : c.LeadsTo c₂ :=
  ⟨.trans h₁.1 h₂.1, h₁.2.trans h₂.2⟩

theorem of_develops {k : Context} (h : Develops c.block c.session k.block k.session)
    (hn : k.node = c.node) : c.LeadsTo k := ⟨h, .inl hn⟩

theorem referenced (c : Context) : c.LeadsTo c.referenced := by
  refine .of_develops ?_ rfl
  cases h : c.dynamic.id with
  | none =>
    simp only [Context.referenced, h, Option.isSome_none]
    exact .id _ _
  | some id =>
    rw [Context.referenced_of_some h]
    exact .refl _ _

end Context.LeadsTo

/-! ## Runs -/

namespace Transform

variable {α : Type}

/-- The run of `t` in `c` develops the block and the session, whether it succeeds or not. What it
yields has the property `q`. -/
def AbidesAt (c : Context) (t : Transform α) (q : α → Prop) : Prop :=
  match t c with
  | .ok a k => c.LeadsTo k ∧ q a
  | .error _ k => c.LeadsTo k

/-- All runs of `t` develop the block and the session. -/
def Abides (t : Transform α) (q : α → Prop) : Prop := ∀ c, AbidesAt c t q

/-- What a run of `t` yields does not matter. -/
abbrev Steady (t : Transform α) : Prop := Abides t fun _ => True

/-- The runs of `t` on the node `n`, or on what is left of it, develop the block and the session. -/
def AbidesOn (n : Node) (t : Transform α) (q : α → Prop) : Prop :=
  ∀ c : Context, n.Narrows c.node → AbidesAt c t q

theorem abidesOn_narrow {e : Element} (hkind : e.kind ≠ .regular) :
    AbidesOn (.element e) (replaceNode (.element e.withoutChildren)) fun _ => True := by
  refine fun c hc => ⟨⟨.refl _ _, ?_⟩, trivial⟩
  rcases hc with hc | ⟨e', he', -, hc⟩
  · exact .inr ⟨e, hc, hkind, rfl⟩
  · obtain rfl := Node.element.inj he'
    exact .inl hc.symm

/-- The two do the same wherever a run that begins in `c` may come to. -/
def AlikeFrom (c : Context) (t' t : Transform α) : Prop := ∀ k, c.LeadsTo k → t' k = t k

end Transform

/-- Two runs that do the same, from `c₀` on. -/
def Context.following (c₀ : Context) : Comparison where
  Related c c' := c = c' ∧ c₀.LeadsTo c'
  Later := Context.LeadsTo
  Fails c c' := c = c' ∧ c₀.LeadsTo c'
  isOneWay := False
  refl := .refl
  trans := .trans
  fails := id

namespace Transform

variable {α : Type} {t t' : Transform α} {c₀ w : Context}

theorem AlikeFrom.runs (h : AlikeFrom c₀ t' t) (ht : Steady t) :
    c₀.following.Runs w Equal t' t := by
  rintro c _ ⟨rfl, hc⟩ _
  have hsteady := ht c
  unfold AbidesAt at hsteady
  rw [h c hc]
  cases hrun : t c with
  | ok a k =>
    rw [hrun] at hsteady
    exact .ok ⟨rfl, hc.trans hsteady.1⟩ hsteady.1 rfl
  | error d k =>
    rw [hrun] at hsteady
    exact .error d ⟨rfl, hc.trans hsteady⟩

theorem Steady.runs (ht : Steady t) : c₀.following.Runs w Equal t t :=
  AlikeFrom.runs (fun _ _ => rfl) ht

theorem alikeFrom_of_runs (h : c₀.following.Runs c₀ Equal t' t) : AlikeFrom c₀ t' t := by
  intro c hc
  have hrun := h ⟨rfl, hc⟩ hc
  generalize t' c = r' at hrun ⊢
  generalize t c = r at hrun ⊢
  cases hrun with
  | ok hk _ ha => rw [hk.1, ha]
  | error d hk => rw [hk.1]
  | excused _ hone => exact hone.elim

theorem steady_of_runs (h : ∀ c : Context, c.following.Runs c Equal t t) : Steady t := by
  intro c
  have hrun := h c ⟨rfl, .refl c⟩ (.refl c)
  unfold AbidesAt
  generalize t c = r at hrun ⊢
  cases hrun with
  | ok hk _ _ => exact ⟨hk.2, trivial⟩
  | error d hk => exact hk.2
  | excused _ hone => exact hone.elim

end Transform

/-! ## Small steps -/

namespace Context.following

variable {c₀ w : Context}

theorem change {g : Context → Context} (h : ∀ c : Context, c.LeadsTo (g c)) :
    c₀.following.Runs w Equal (modify g) (modify g) :=
  .modify fun _ c hc _ => ⟨⟨congrArg g hc.1, hc.2.trans (h c)⟩, h c⟩

theorem changeElse {g : Context → Context}
    (h : ∀ c, (g c).block = c.block ∧ (g c).session = c.session ∧ (g c).node = c.node) :
    c₀.following.Runs w Equal (modify g) (modify g) :=
  change fun c => .of_develops (by rw [(h c).1, (h c).2.1]; exact .refl _ _) (h c).2.2

theorem reference : c₀.following.Runs w Equal reference reference := by
  refine Steady.runs fun c => ?_
  unfold AbidesAt
  rw [reference_run]
  exact ⟨.referenced c, trivial⟩

theorem allocateId : c₀.following.Runs w Equal allocateId allocateId :=
  Steady.runs fun _ => ⟨.of_develops (.id _ _) rfl, trivial⟩

theorem addTemplate (text : String) :
    c₀.following.Runs w Equal (addTemplate text) (addTemplate text) :=
  Steady.runs fun _ => ⟨.of_develops (.template _ _ text) rfl, trivial⟩

theorem registerEffect (h : ∀ s, (Contribution.whenever es op).IsSound s) :
    c₀.following.Runs w Equal (registerEffect es op) (registerEffect es op) :=
  change fun c => .of_develops (.contribution c.block (h c.session)) rfl

theorem registerOperation (hwatched : op.watched = []) (hmarked : ∀ s, op.IsMarked s) :
    c₀.following.Runs w Equal (registerOperation op) (registerOperation op) :=
  change fun c => .of_develops (.contribution c.block (.of_idle hwatched (hmarked c.session))) rfl

end Context.following

end TemplateCompiler
