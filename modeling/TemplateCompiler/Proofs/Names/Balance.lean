import TemplateCompiler.Proofs.Names.Loops
import TemplateCompiler.Proofs.Transform.Steady

/-! # Runs are balanced

A run leaves the names in scope and the number of loops around as it found them, and only adds to
the rest of the session, whether it succeeds or not. Leaving a loop takes away what entering it has
added, so no count is ever lowered below zero.
-/

namespace TemplateCompiler

open Template (EachBlock Fragment Node)
open Transform

variable {names : List String} {s s' : Session}

/-! ## Sessions -/

namespace Session

/-- The session `s'` is `s` later on, with the same loops around. -/
structure Kept (s s' : Session) : Prop where
  count : ∀ name, s'.count name = s.count name
  loopDepth : s'.loopDepth = s.loopDepth
  nextId : s.nextId ≤ s'.nextId
  templates : s.templates <+: s'.templates
  components : s.components <+: s'.components
  directives : s.directives <+: s'.directives

theorem Kept.refl (s : Session) : s.Kept s where
  count _ := rfl
  loopDepth := rfl
  nextId := Nat.le_refl _
  templates := List.prefix_rfl
  components := List.prefix_rfl
  directives := List.prefix_rfl

theorem Kept.trans {s₁ s₂ : Session} (h₁ : s.Kept s₁) (h₂ : s₁.Kept s₂) : s.Kept s₂ where
  count name := (h₂.count name).trans (h₁.count name)
  loopDepth := h₂.loopDepth.trans h₁.loopDepth
  nextId := Nat.le_trans h₁.nextId h₂.nextId
  templates := h₁.templates.trans h₂.templates
  components := h₁.components.trans h₂.components
  directives := h₁.directives.trans h₂.directives

theorem Kept.isIdentifier (h : s.Kept s') (name : String) :
    s.isIdentifier name = s'.isIdentifier name := by
  rw [Session.isIdentifier, Session.isIdentifier, h.count name]

theorem kept_allocateId (s : Session) : s.Kept s.allocateId.2 :=
  { Kept.refl s with nextId := Nat.le_succ _ }

theorem kept_addTemplate (s : Session) (text : String) : s.Kept (s.addTemplate text).2 := by
  unfold addTemplate
  split
  · exact .refl s
  · exact { Kept.refl s with templates := List.prefix_append _ _ }

theorem kept_addComponent (s : Session) (name : String) : s.Kept (s.addComponent name) :=
  { Kept.refl s with components := prefix_insertNew name s.components }

theorem kept_addDirective (s : Session) (name : String) : s.Kept (s.addDirective name) :=
  { Kept.refl s with directives := prefix_insertNew name s.directives }

theorem kept_leaveLoop (h : (s.enterLoop names).Kept s') : s.Kept (s'.leaveLoop names) := by
  have hcount := count_leaveLoop h.count
  rw [enterLoop_eq] at h
  rw [leaveLoop_eq] at hcount ⊢
  exact ⟨hcount, by simp [h.loopDepth], h.nextId, h.templates, h.components, h.directives⟩

/-! ### Lowering counts that are there -/

/-- Lowers the counts of the names, if none of them would be lowered below zero. -/
def removeIdentifiers? (s : Session) : List String → Option Session
  | [] => some s
  | name :: names =>
    if 0 < s.count name then (s.removeIdentifier name).removeIdentifiers? names else none

/-- Leaves a loop, if there is one around and it has introduced the names. -/
def leaveLoop? (s : Session) (names : List String) : Option Session :=
  if 0 < s.loopDepth then { s with loopDepth := s.loopDepth - 1 }.removeIdentifiers? names else none

theorem removeIdentifiers?_eq_some (h : ∀ name, names.count name ≤ s.count name) :
    s.removeIdentifiers? names = some (s.removeIdentifiers names) := by
  induction names generalizing s with
  | nil => rfl
  | cons name names ih =>
    have hpos : 0 < s.count name := by
      have hname := h name
      rw [List.count_cons_self] at hname
      omega
    rw [removeIdentifiers?, if_pos hpos, ih]
    · rfl
    · intro other
      have hother := h other
      rw [count_removeIdentifier]
      by_cases heq : other = name
      · rw [heq, List.count_cons_self] at hother
        rw [heq, if_pos rfl]
        omega
      · rw [List.count_cons_of_ne (Ne.symm heq)] at hother
        rwa [if_neg heq]

/-- What entering a loop has added is still there when it is left. -/
theorem leaveLoop?_eq_some (h : (s.enterLoop names).Kept s') :
    s'.leaveLoop? names = some (s'.leaveLoop names) := by
  have hdepth : 0 < s'.loopDepth := by
    rw [h.loopDepth, enterLoop_eq]
    exact Nat.succ_pos _
  have hcount : ∀ name, names.count name ≤ s'.count name := by
    intro name
    rw [h.count name]
    exact (count_addIdentifiers s names name).symm ▸ Nat.le_add_left _ _
  rw [leaveLoop?, if_pos hdepth]
  exact removeIdentifiers?_eq_some hcount

end Session

/-! ## Runs -/

theorem Develops.kept {b b' : Block} (h : Develops b s b' s') : s.Kept s' := by
  induction h with
  | trans _ _ ih₁ ih₂ => exact ih₁.trans ih₂
  | id => exact Session.kept_allocateId _
  | template => exact Session.kept_addTemplate _ _
  | component => exact Session.kept_addComponent _ _
  | directive => exact Session.kept_addDirective _ _
  | block _ _ ih => exact ih
  | loop _ _ _ ih => exact Session.kept_leaveLoop ih
  | _ => exact .refl _

theorem Context.LeadsTo.kept {c k : Context} (h : c.LeadsTo k) : c.session.Kept k.session :=
  h.1.kept

namespace Transform

variable {α : Type} {t : Transform α} {visit : Transform Unit} {o : Options} {c k : Context}

/-- The context that the run in `c` ends with, whether it succeeds or not. -/
def after (t : Transform α) (c : Context) : Context :=
  match t c with
  | .ok _ k => k
  | .error _ k => k

theorem after_of_ok {a : α} (h : t c = .ok a k) : t.after c = k := by
  rw [after, h]

theorem after_of_error {d : Diagnostic} (h : t c = .error d k) : t.after c = k := by
  rw [after, h]

theorem Steady.leadsTo (h : Steady t) (c : Context) : c.LeadsTo (t.after c) := by
  have hc := h c
  unfold AbidesAt at hc
  cases hrun : t c with
  | ok a k =>
    rw [hrun] at hc
    exact after_of_ok hrun ▸ hc.1
  | error d k =>
    rw [hrun] at hc
    exact after_of_error hrun ▸ hc

theorem Steady.kept (h : Steady t) (c : Context) : c.session.Kept (t.after c).session :=
  (h.leadsTo c).kept

/-- Whatever becomes of the body of a loop, the loop is left, and can be. -/
theorem leaveLoop?_after_createBlock (h : Steady visit) (names : List String) (b : EachBlock)
    (c : Context) :
    ((createBlock visit (.fragment b.body)).after
        (c.during (c.session.enterLoop names))).session.leaveLoop? names =
      some ((createLoopBody o visit names b).after c).session := by
  have hkept := (steady_createBlock h (.fragment b.body)).kept
    (c.during (c.session.enterLoop names))
  rw [Session.leaveLoop?_eq_some hkept]
  congr 1
  have hbody := createLoopBody_eq (o := o) visit names b c
  cases hrun : createBlock visit (.fragment b.body) (c.during (c.session.enterLoop names)) with
  | error d k =>
    rw [hrun] at hbody
    rw [after_of_error hrun, after_of_error hbody]
    rfl
  | ok body k =>
    rw [hrun] at hbody
    dsimp only at hbody
    rw [after_of_ok hrun]
    split at hbody
    · rw [after_of_error hbody]
      rfl
    · rw [after_of_ok hbody]
      rfl

end Transform

/-- A block is made of the fragment as it is, and leaves the names in scope as they were. -/
theorem MakesBlock.kept {visit : Transform Unit} (h : Steady visit) {f : Fragment} {b : Block}
    (hb : MakesBlock visit (.fragment f) s b s') : b.node = .fragment f ∧ s.Kept s' := by
  obtain ⟨k, hrun, rfl, rfl⟩ := hb
  have hleads := after_of_ok hrun ▸ h.leadsTo (Context.newBlock (.fragment f) s)
  refine ⟨?_, (Session.kept_allocateId s).trans hleads.kept⟩
  rcases hleads.2 with hnode | ⟨e, he, -⟩
  · exact hnode
  · cases he

/-! ## The node of a walk -/

section Children

variable {α β : Type} {visit : Transform Unit} {isFragment : Bool} {c : Context}

theorem after_bind_node {t : Transform α} {f : α → Transform β}
    (ht : (t.after c).node = c.node) (hf : ∀ a k, ((f a).after k).node = k.node) :
    ((t >>= f).after c).node = c.node := by
  cases hrun : t c with
  | ok a k =>
    rw [after_of_ok hrun] at ht
    have hrest : (t >>= f).after c = (f a).after k := by
      rw [after, after, bind_run hrun]
    rw [hrest, hf, ht]
  | error d k =>
    rw [after_of_error hrun] at ht
    rw [after_of_error (bind_error hrun f), ht]

theorem inChild_after_node (n : Node) (i : Nat) (frame : Frame) (t : Transform α) (c : Context) :
    ((inChild n i frame t).after c).node = c.node := by
  unfold after inChild
  cases t (c.child n i frame) <;> rfl

theorem visitChildren_after_node (frame : Frame) (i : Nat) (ns : List Node) (c : Context) :
    ((visitChildren visit isFragment frame i ns).after c).node = c.node := by
  induction ns generalizing frame i c with
  | nil => rfl
  | cons n ns ih =>
    refine after_bind_node (inChild_after_node ..) fun _ k => ?_
    exact after_bind_node rfl fun _ k => ih _ _ k

/-- The pass for children leaves the node alone, even if one of them fails. -/
theorem transformChildren_after_node (visit : Transform Unit) (c : Context) :
    ((transformChildren visit).after c).node = c.node := by
  refine after_bind_node rfl fun c' k => ?_
  dsimp only
  split
  · exact visitChildren_after_node ..
  · split
    · refine after_bind_node (visitChildren_after_node ..) fun _ k => ?_
      rw [after_of_ok insertChildren_run]
      exact k.insertAll_samePlace.node
    · rfl
  · rfl

end Children

end TemplateCompiler
