import TemplateCompiler.Proofs.Transform.Children
import TemplateCompiler.Proofs.Transform.Elements
import TemplateCompiler.Proofs.Transform.Making
import TemplateCompiler.Transform.Visit

/-! # Passes over one node

Most passes have nothing to do with a given node, so a visit comes down to the few that have.
-/

namespace TemplateCompiler

open Template (Element Node)
open Transform

variable {before : List Pass} {exits : Option (List Exit)} {t : Transform Unit}

/-- The node belongs to a text that its parent or an earlier sibling makes. -/
def Context.isAbsorbed (c : Context) : Bool := c.parent.any (c.index < ·.consumedUntil)

/-- The pass may do something about the node. -/
def Pass.concerns : Pass → Node → Bool
  | conditions, .ifBlock _ | conditions, .awaitBlock _ _ | conditions, .keyBlock _ _ _
  | conditions, .constTag _ | conditions, .debugTag _ _ => true
  | loops, .eachBlock _ => true
  | slotOutlets, .element e => e.kind == .slotOutlet
  | texts, .element e => e.kind == .regular
  | texts, .text _ | texts, .comment _ _ | texts, .interpolation _ | texts, .rawMarkup _ => true
  | elements, .element e => e.kind != .slotOutlet
  | componentSlots, .element e => e.kind == .component
  | children, .element e => e.kind == .regular
  | children, .fragment _ => true
  | _, _ => false

variable {o : Options} {visit : Transform Unit} {p : Pass} {ps : List Pass} {c c' : Context}

/-- A pass leaves a node alone that it does not concern. -/
theorem run_of_not_concerns (h : p.concerns c.node = false)
    (habsorbed : p = .texts → c.isAbsorbed = false) : p.run o visit c = .ok [] c := by
  cases p with
  | conditions =>
    cases hn : c.node <;> simp_all [Pass.concerns, Pass.run, transformCondition]
  | loops =>
    cases hn : c.node <;> simp_all [Pass.concerns, Pass.run, transformLoop]
  | slotOutlets =>
    cases hn : c.node <;> simp_all [Pass.concerns, Pass.run, transformSlotOutlet]
  | texts =>
    simp only [Context.isAbsorbed, true_implies] at habsorbed
    cases hn : c.node <;> simp_all [Pass.concerns, Pass.run, transformText]
  | elements =>
    cases hn : c.node with
    | element e => cases hk : e.kind <;> simp_all [Pass.concerns, Pass.run, transformElement]
    | _ => simp_all [Pass.run, transformElement]
  | componentSlots =>
    cases hn : c.node <;> simp_all [Pass.concerns, Pass.run, transformComponentSlots]
  | children =>
    cases hn : c.node <;> simp_all [Pass.concerns, Pass.run, transformChildren]

/-- The node is still there, and the passes `ps` have nothing to do with it. -/
structure Context.IsDone (c : Context) (ps : List Pass) : Prop where
  concerns : ∀ p ∈ ps, p.concerns c.node = false
  absorbed : .texts ∈ ps → c.isAbsorbed = false
  removed : c.removed = false

theorem Context.IsDone.runPasses_append (h : c.IsDone before) :
    runPasses o visit (before ++ ps) c = runPasses o visit ps c := by
  induction before with
  | nil => rfl
  | cons p before ih =>
    have hp : p.run o visit c = .ok [] c :=
      run_of_not_concerns (h.concerns p (by simp)) fun hp => h.absorbed (by simp [hp])
    have hrest : c.IsDone before :=
      ⟨fun q hq => h.concerns q (by simp [hq]), fun hq => h.absorbed (by simp [hq]), h.removed⟩
    rw [List.cons_append, runPasses, bind_run hp, get_bind, h.removed]
    simp only [Bool.false_eq_true, ite_false, List.nil_append, Option.map_id', bind_pure]
    exact ih hrest

theorem Context.IsDone.runPasses_eq (h : c.IsDone ps) :
    runPasses o visit ps c = .ok (some []) c := by
  have happend : runPasses o visit (ps ++ []) c = runPasses o visit [] c := h.runPasses_append
  rwa [List.append_nil] at happend

/-- A pass that succeeds comes before those after it, which are not reached if it removes the
node. -/
theorem runPasses_cons_ok (h : runPasses o visit (p :: ps) c = .ok exits c') :
    ∃ own k, p.run o visit c = .ok own k ∧
      (k.removed = true ∧ exits = none ∧ c' = k ∨
        k.removed = false ∧ ∃ rest, runPasses o visit ps k = .ok rest c' ∧
          exits = rest.map (own ++ ·)) := by
  rw [runPasses, bind_eq_ok] at h
  obtain ⟨own, k, hp, h⟩ := h
  refine ⟨own, k, hp, ?_⟩
  rw [get_bind] at h
  cases hremoved : k.removed with
  | true =>
    rw [hremoved] at h
    obtain ⟨rfl, rfl⟩ := EStateM.Result.ok.inj h
    exact .inl ⟨rfl, rfl, rfl⟩
  | false =>
    simp only [hremoved, Bool.false_eq_true, ite_false, bind_eq_ok, pure_run] at h
    obtain ⟨rest, _, hrest, ⟨⟩⟩ := h
    exact .inr ⟨rfl, rest, hrest, rfl⟩

theorem runPasses_nil_run (c : Context) : runPasses o visit [] c = .ok (some []) c := by
  rw [runPasses, pure_run]

theorem runPasses_cons_run {own : List Exit} {rest : Option (List Exit)} {k : Context}
    (hp : p.run o visit c = .ok own k) (hremoved : k.removed = false)
    (hrest : runPasses o visit ps k = .ok rest c') :
    runPasses o visit (p :: ps) c = .ok (rest.map (own ++ ·)) c' := by
  rw [runPasses, bind_run hp, get_bind, hremoved]
  simp only [Bool.false_eq_true, ite_false, bind_run hrest, pure_run]

/-- The pass for elements leaves work for later, and changes nothing. -/
theorem runPasses_elements {e : Element} (hn : c.node = .element e)
    (hkind : e.kind = .regular ∨ e.kind = .component) (hremoved : c.removed = false)
    (h : runPasses o visit (.elements :: ps) c = .ok exits c') :
    ∃ rest, runPasses o visit ps c = .ok rest c' ∧ exits = rest.map ([.element] ++ ·) := by
  have hrun : Pass.elements.run o visit c = .ok [.element] c := by
    rcases hkind with hkind | hkind <;> simp [Pass.run, transformElement, hn, hkind]
  obtain ⟨own, k, hown, hrest⟩ := runPasses_cons_ok h
  obtain ⟨rfl, rfl⟩ := EStateM.Result.ok.inj (hrun.symm.trans hown)
  rcases hrest with ⟨htrue, -⟩ | ⟨-, hrest⟩
  · simp [hremoved] at htrue
  · exact hrest

theorem runPasses_step (hp : p.run o visit = do t; return [])
    (hremoved : ∀ k, t c = .ok () k → k.removed = false)
    (h : runPasses o visit (p :: ps) c = .ok exits c') :
    ∃ k, t c = .ok () k ∧ runPasses o visit ps k = .ok exits c' := by
  obtain ⟨own, k, hown, hrest⟩ := runPasses_cons_ok h
  rw [hp, bind_eq_ok] at hown
  obtain ⟨⟨⟩, k₁, ht, hown⟩ := hown
  obtain ⟨rfl, rfl⟩ := EStateM.Result.ok.inj hown
  refine ⟨k₁, ht, ?_⟩
  rcases hrest with ⟨htrue, -⟩ | ⟨-, rest, hrest, rfl⟩
  · simp [hremoved k₁ ht] at htrue
  · simpa using hrest

/-! ## Visits -/

/-- What is left of a visit after its passes. -/
def finishVisit (o : Options) (exits : List Exit) : Transform Unit := do
  exits.reverse.forM (·.run o)
  if (← get).isBlockRoot then
    let _ ← registerTemplate

theorem visitWith_ok (hpasses : o.passes = before ++ ps) (hbefore : c.IsDone before)
    (h : visitWith o visit c = .ok () c') : ∃ exits k, runPasses o visit ps c = .ok exits k ∧
      (exits = none ∧ c' = k ∨ ∃ es, exits = some es ∧ finishVisit o es k = .ok () c') := by
  rw [visitWith, bind_eq_ok, hpasses, hbefore.runPasses_append] at h
  obtain ⟨exits, k, hrun, h⟩ := h
  refine ⟨exits, k, hrun, ?_⟩
  cases exits with
  | none =>
    obtain ⟨-, rfl⟩ := EStateM.Result.ok.inj h
    exact .inl ⟨rfl, rfl⟩
  | some es => exact .inr ⟨es, rfl, h⟩

/-- A visit of a node that is no root of a block is its passes and what they leave for later. -/
theorem visitWith_run {exits : List Exit} {k : Context}
    (hpasses : runPasses o visit o.passes c = .ok (some exits) k)
    (hexits : exits.reverse.forM (·.run o) k = .ok () c') (hroot : c'.isBlockRoot = false) :
    visitWith o visit c = .ok () c' := by
  rw [visitWith, bind_run hpasses]
  dsimp only
  rw [bind_run hexits, get_bind, hroot]
  rfl

/-- A visit whose node belongs to one pass is no more than that pass. -/
theorem visitWith_lone_run {after : List Pass} (hpasses : o.passes = before ++ p :: after)
    (hp : p.run o visit = do t; return []) (hbefore : c.IsDone before) (ht : t c = .ok () c')
    (hafter : c'.IsDone after) (hroot : c'.isBlockRoot = false) :
    visitWith o visit c = .ok () c' := by
  have hrun : p.run o visit c = .ok [] c' := by rw [hp, bind_run ht, pure_run]
  have hall : runPasses o visit o.passes c = .ok (some []) c' := by
    rw [hpasses, hbefore.runPasses_append]
    exact runPasses_cons_run hrun hafter.removed hafter.runPasses_eq
  exact visitWith_run hall rfl hroot

theorem not_visitWith_ok {d : Diagnostic} (hpasses : o.passes = before ++ p :: ps)
    (hbefore : c.IsDone before) (herror : p.run o visit c = .error d c) :
    visitWith o visit c ≠ .ok () c' := by
  intro h
  obtain ⟨exits, k, hrun, -⟩ := visitWith_ok hpasses hbefore h
  obtain ⟨own, k₁, hown, -⟩ := runPasses_cons_ok hrun
  simp [herror] at hown

theorem finishVisit_ok {exits : List Exit} (h : finishVisit o exits c = .ok () c') :
    ∃ k, exits.reverse.forM (·.run o) c = .ok () k ∧
      c' = if k.isBlockRoot then k.registered else k := by
  rw [finishVisit, bind_eq_ok] at h
  obtain ⟨⟨⟩, k, hexits, h⟩ := h
  refine ⟨k, hexits, ?_⟩
  rw [get_bind] at h
  cases hroot : k.isBlockRoot with
  | true =>
    obtain ⟨i, hi⟩ := @registerTemplate_run k
    simp only [hroot, ite_true, bind_run hi, pure_run, EStateM.Result.ok.injEq] at h
    simp [h.2]
  | false =>
    simp only [hroot, Bool.false_eq_true, ite_false, pure_run, EStateM.Result.ok.injEq] at h
    simp [h.2]

/-- No other pass concerns the node. -/
structure Context.BelongsTo (c : Context) (p : Pass) : Prop where
  concerns : ∀ q, q ≠ p → q.concerns c.node = false
  absorbed : p ≠ .texts → c.isAbsorbed = false

theorem Context.BelongsTo.isDone (h : c.BelongsTo p) (hps : p ∉ ps) (hremoved : c.removed = false) :
    c.IsDone ps where
  concerns := fun q hq => h.concerns q fun heq => hps (heq ▸ hq)
  absorbed := fun htexts => h.absorbed fun heq => hps (heq ▸ htexts)
  removed := hremoved

/-- A visit is no more than the one pass that the node belongs to, if it leaves nothing for
later. -/
theorem visitWith_lone_ok {after : List Pass} (hpasses : o.passes = before ++ p :: after)
    (hother : p ∉ before ++ after) (hp : p.run o visit = do t; return [])
    (hremoved : c.removed = false) (hroot : c.isBlockRoot = false) (hc : c.BelongsTo p)
    (hafter : ∀ k, t c = .ok () k → k.isBlockRoot = c.isBlockRoot ∧ k.BelongsTo p)
    (h : visitWith o visit c = .ok () c') : t c = .ok () c' := by
  rw [List.mem_append, not_or] at hother
  obtain ⟨exits, k, hrun, hexits⟩ := visitWith_ok hpasses (hc.isDone hother.1 hremoved) h
  obtain ⟨own, k₁, hown, hrest⟩ := runPasses_cons_ok hrun
  rw [hp, bind_eq_ok] at hown
  obtain ⟨⟨⟩, k₂, ht, hown⟩ := hown
  obtain ⟨rfl, rfl⟩ := EStateM.Result.ok.inj hown
  obtain ⟨hsame, hdone⟩ := hafter k₂ ht
  obtain ⟨-, rfl, rfl⟩ | ⟨hremoved₂, rest, hrest, rfl⟩ := hrest
  · rcases hexits with ⟨-, rfl⟩ | ⟨_, hnone, -⟩
    · exact ht
    · simp at hnone
  · obtain ⟨rfl, rfl⟩ :=
      EStateM.Result.ok.inj ((hdone.isDone hother.2 hremoved₂).runPasses_eq.symm.trans hrest)
    rcases hexits with ⟨hnone, -⟩ | ⟨es, hes, hfinish⟩
    · simp at hnone
    · obtain rfl : [] = es := by simpa using hes
      obtain ⟨k, hk, rfl⟩ := finishVisit_ok hfinish
      obtain ⟨-, rfl⟩ := EStateM.Result.ok.inj hk
      simpa [hsame, hroot] using ht

end TemplateCompiler
