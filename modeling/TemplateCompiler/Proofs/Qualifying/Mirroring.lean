import TemplateCompiler.Proofs.Names.Literals
import TemplateCompiler.Proofs.Qualifying.Outlines
import TemplateCompiler.Proofs.Transform.Simulating

/-! # Runs that mirror others

A run mirrors another one if it succeeds whenever the other one does, with a result that is alike.
-/

namespace TemplateCompiler

open Template (Node)
open Transform Comparison

/-! ## Contexts -/

/-- The slots have the same names and like blocks. -/
def SlotsAlike : List (String × Block) → List (String × Block) → Prop :=
  List.Forall₂ fun x y => x.1 = y.1 ∧ x.2.Alike y.2

namespace SlotsAlike

variable {slots slots' : List (String × Block)}

theorem names (h : SlotsAlike slots slots') : slots.map (·.1) = slots'.map (·.1) := by
  induction h with
  | nil => rfl
  | cons hx _ ih => rw [List.map_cons, List.map_cons, hx.1, ih]

theorem blocks (h : SlotsAlike slots slots') :
    BlocksAlike (slots.map (·.2)) (slots'.map (·.2)) := by
  induction h with
  | nil => exact .nil
  | cons hx _ ih => exact .cons hx.2 ih

end SlotsAlike

/-- The contexts are the same, except that their blocks are only alike. -/
inductive Context.Alike : Context → Context → Prop
  | intro (c : Context) {b : Block} {slots : List (String × Block)} :
      b.Alike c.block → SlotsAlike slots c.slots → Context.Alike { c with block := b, slots } c

namespace Context.Alike

variable {c c' : Context}

theorem refl_root (n : Node) (s : Session) :
    (Context.root n Block.empty s).Alike (Context.root n Block.empty s) :=
  .intro (Context.root n Block.empty s) Block.alike_empty .nil

section

variable (h : c.Alike c')

include h

theorem referenced : c.referenced.Alike c'.referenced := by
  obtain ⟨_, hb, hslots⟩ := h
  exact .intro c'.referenced hb hslots

theorem add {x x' : Contribution} (hx : x.op.Alike x'.op) : (c.add x).Alike (c'.add x') := by
  obtain ⟨_, hb, hslots⟩ := h
  exact .intro (c'.add x') (hb.add hx) hslots

theorem during (s : Session) : (c.during s).Alike (c'.during s) := by
  obtain ⟨_, hb, hslots⟩ := h
  exact .intro (c'.during s) hb hslots

theorem similar : c.Similar c' := by
  cases h
  exact ⟨rfl, rfl, rfl, rfl, rfl, rfl, rfl, rfl, rfl, fun _ => rfl⟩

theorem parent : c.parent = c'.parent := by
  cases h
  rfl

theorem index : c.index = c'.index := by
  cases h
  rfl

theorem session : c.session = c'.session := by
  cases h
  rfl

theorem dynamic : c.dynamic = c'.dynamic := by
  cases h
  rfl

theorem slots : SlotsAlike c.slots c'.slots := by
  cases h
  assumption

theorem toBlock : c.toBlock.Alike c'.toBlock := by
  obtain ⟨_, ⟨_, _, hreturns, hops⟩, -⟩ := h
  exact .intro rfl rfl hreturns hops

end

end Context.Alike

/-! ## Runs -/

/-- Where `t` succeeds, `t'` succeeds in a like context, and `V` relates the values. -/
def Mirrors {α : Type} (V : α → α → Prop) (t t' : Transform α) : Prop :=
  ∀ ⦃c c' a k⦄, c.Alike c' → t c = .ok a k → ∃ a' k', t' c' = .ok a' k' ∧ V a a' ∧ k.Alike k'

/-- Runs are compared in like contexts, as far as the first one does not fail. -/
def mirroring : Comparison where
  Related := Context.Alike
  Later _ _ := True
  Fails _ _ := True
  isOneWay := True
  refl _ := trivial
  trans _ _ := trivial
  fails _ := trivial

section Steps

variable {α : Type} {V : α → α → Prop} {t t' : Transform α} {w : Context}

theorem Mirrors.runs (h : Mirrors V t t') : mirroring.Runs w (fun _ => V) t t' := by
  intro c c' hc _
  cases ht : t c with
  | error e k => exact .excused _ trivial
  | ok a k =>
    obtain ⟨a', k', ht', ha, hk⟩ := h hc ht
    rw [ht']
    exact .ok hk trivial ha

theorem mirrors_of_runs (h : ∀ w, mirroring.Runs w (fun _ => V) t t') : Mirrors V t t' := by
  intro c c' a k hc ht
  have hrun := h c' hc trivial
  rw [ht] at hrun
  generalize ht' : t' c' = r at hrun
  cases hrun with
  | ok hk _ ha => exact ⟨_, _, rfl, ha, hk⟩

namespace mirroring

theorem change {g g' : Context → Context} (h : ∀ c c', c.Alike c' → (g c).Alike (g' c')) :
    mirroring.Runs w Equal (modify g) (modify g') :=
  .modify fun c c' hc _ => ⟨h c c' hc, trivial⟩

theorem reference : mirroring.Runs w Equal reference reference := by
  intro c c' hc _
  rw [reference_run, reference_run]
  refine .ok hc.referenced trivial ?_
  cases hc
  rfl

theorem changeElse {g : Context → Context}
    (h : ∀ c block slots, g { c with block, slots } = { g c with block, slots }) :
    mirroring.Runs w Equal (modify g) (modify g) := change fun c c' hc => by
  obtain ⟨_, hb, hslots⟩ := hc
  have hsame := h c' c'.block c'.slots
  rw [h]
  exact .intro (g c') (congrArg Context.block hsame ▸ hb) (congrArg Context.slots hsame ▸ hslots)

theorem modifySession (g : Session → Session) :
    mirroring.Runs w Equal (modifySession g) (modifySession g) :=
  changeElse fun _ _ _ => rfl

theorem onSession (g : Session → Nat × Session) :
    mirroring.Runs w Equal (onSession g) (onSession g) := by
  refine .getSession fun c c' hc _ => ?_
  rw [hc.session]
  exact (change fun k k' hk => hk.during (g c'.session).2).seq fun _ => .pure_eq _

theorem modifyDynamic (g : NodeInfo → NodeInfo) :
    mirroring.Runs w Equal (modifyDynamic g) (modifyDynamic g) :=
  changeElse fun _ _ _ => rfl

theorem registerOperation {op op' : Operation} (h : op.Alike op') :
    mirroring.Runs w Equal (registerOperation op) (registerOperation op') :=
  change fun _ _ hc => @Context.Alike.add _ _ hc (.once op) (.once op') h

theorem registerEffect {op op' : Operation} (es es' : List Expression) (h : op.Alike op') :
    mirroring.Runs w Equal (registerEffect es op) (registerEffect es' op') :=
  change fun _ _ hc => @Context.Alike.add _ _ hc (.whenever es op) (.whenever es' op') h

theorem registerOn {op op' : Operation} {e e' : Expression} (he : e.outline = e'.outline)
    (hop : op.Alike op') : mirroring.Runs w Equal (registerOn e op) (registerOn e' op') := by
  rw [Transform.registerOn, Transform.registerOn, Expression.isStatic_of_outline he]
  exact .ite (fun _ => registerOperation hop) fun _ => registerEffect _ _ hop

end mirroring

end Steps

end TemplateCompiler
