import TemplateCompiler.Proofs.Names.Loops
import TemplateCompiler.Proofs.Siblings.Renaming

/-! # Sessions after others

A session that continues another one and a session that begins anew take the same steps: ids differ
by a constant, and the tables of the one hold those of the other behind what was there.
-/

namespace TemplateCompiler

variable {a : String} {as : List String}

/-! ## Tables -/

/-- The entries of `as`, then those of `bs` that are new. -/
def joinNew (as bs : List String) : List String := as ++ bs.filter (!as.contains ·)

theorem mem_joinNew {bs : List String} : a ∈ joinNew as bs ↔ a ∈ as ∨ a ∈ bs := by
  by_cases h : a ∈ as <;> simp [joinNew, h]

@[simp] theorem joinNew_nil_left (bs : List String) : joinNew [] bs = bs := by simp [joinNew]

@[simp] theorem joinNew_nil_right (as : List String) : joinNew as [] = as := by simp [joinNew]

theorem mem_insertNew {b : String} : b ∈ insertNew a as ↔ b = a ∨ b ∈ as := by
  unfold insertNew
  split
  · rename_i h
    rw [List.contains_iff_mem] at h
    constructor
    · exact .inr
    · rintro (rfl | hb)
      · exact h
      · exact hb
  · simp [or_comm]

theorem nodup_insertNew (h : as.Nodup) : (insertNew a as).Nodup := by
  unfold insertNew
  split
  · exact h
  · rename_i ha
    have ha : a ∉ as := by simpa using ha
    have hne : ∀ b ∈ as, b ≠ a := fun b hb heq => ha (heq ▸ hb)
    simpa [List.nodup_append, h] using hne

/-- A new entry of the second table is new in the whole unless the first one has it. -/
theorem joinNew_insertNew (as bs : List String) (b : String) :
    joinNew as (insertNew b bs) = insertNew b (joinNew as bs) := by
  unfold insertNew
  by_cases hbs : b ∈ bs
  · have hb : b ∈ joinNew as bs := mem_joinNew.mpr (.inr hbs)
    simp [hbs, hb]
  · by_cases has : b ∈ as
    · have hb : b ∈ joinNew as bs := mem_joinNew.mpr (.inl has)
      simp only [List.contains_iff_mem, hbs, hb, if_true, if_false]
      simp [joinNew, has]
    · have hb : b ∉ joinNew as bs := fun h => (mem_joinNew.mp h).elim has hbs
      simp only [List.contains_iff_mem, hbs, hb, if_false]
      simp [joinNew, has]

theorem joinNew_mono {bs bs' : List String} (h : bs <+: bs') : joinNew as bs <+: joinNew as bs' :=
  (List.prefix_append_right_inj as).mpr (h.filter _)

theorem idxOf?_of_mem (h : a ∈ as) : as.idxOf? a = some (as.idxOf a) := by
  induction as with
  | nil => simp at h
  | cons b bs ih =>
    rw [List.idxOf?_cons, List.idxOf_cons]
    by_cases hb : b = a
    · simp [hb]
    · have ha : a ∈ bs := by simpa [Ne.symm hb] using h
      simp [beq_eq_false_iff_ne.mpr hb, ih ha]

theorem Session.addTemplate_eq (s : Session) (text : String) :
    s.addTemplate text =
      ((insertNew text s.templates).idxOf text,
        { s with templates := insertNew text s.templates }) := by
  unfold addTemplate insertNew
  by_cases h : text ∈ s.templates
  · simp [h, idxOf?_of_mem h]
  · have hidx : s.templates.idxOf? text = none := List.idxOf?_eq_none_iff.mpr h
    simp [h, hidx, List.idxOf_append]

/-! ## Sessions -/

/-- What was there before a session that begins anew: how many ids, and which entries of tables. -/
structure Shift where
  ids : Nat
  templates : List String
  components : List String
  directives : List String

/-- The session `s₁` is `s₂` with other things before it. -/
structure Shift.Relates (σ : Shift) (s₁ s₂ : Session) : Prop where
  nextId : s₁.nextId = s₂.nextId + σ.ids
  templates : s₁.templates = joinNew σ.templates s₂.templates
  components : s₁.components = joinNew σ.components s₂.components
  directives : s₁.directives = joinNew σ.directives s₂.directives
  nodup : s₂.templates.Nodup
  count : ∀ name, s₁.count name = s₂.count name
  loopDepth : s₁.loopDepth = s₂.loopDepth

/-- The session `s'` comes after `s`, in the same loops. -/
structure Session.Extends (s s' : Session) : Prop where
  nextId : s.nextId ≤ s'.nextId
  templates : s.templates <+: s'.templates
  count : ∀ name, s'.count name = s.count name
  loopDepth : s'.loopDepth = s.loopDepth

namespace Session.Extends

theorem refl (s : Session) : s.Extends s := ⟨Nat.le_refl _, List.prefix_rfl, fun _ => rfl, rfl⟩

theorem trans {s s' s'' : Session} (h : s.Extends s') (h' : s'.Extends s'') : s.Extends s'' where
  nextId := Nat.le_trans h.nextId h'.nextId
  templates := h.templates.trans h'.templates
  count := fun name => (h'.count name).trans (h.count name)
  loopDepth := h'.loopDepth.trans h.loopDepth

theorem allocateId (s : Session) : s.Extends s.allocateId.2 :=
  { refl s with nextId := Nat.le_succ s.nextId }

theorem addTemplate (s : Session) (text : String) : s.Extends (s.addTemplate text).2 := by
  rw [Session.addTemplate_eq]
  exact { refl s with templates := prefix_insertNew text s.templates }

theorem addComponent (s : Session) (name : String) : s.Extends (s.addComponent name) :=
  { refl s with }

theorem addDirective (s : Session) (name : String) : s.Extends (s.addDirective name) :=
  { refl s with }

theorem leaveLoop {s s' : Session} {names : List String} (h : (s.enterLoop names).Extends s') :
    s.Extends (s'.leaveLoop names) where
  nextId := by
    rw [leaveLoop_eq]
    rw [enterLoop_eq] at h
    exact h.nextId
  templates := by
    rw [leaveLoop_eq]
    rw [enterLoop_eq] at h
    exact h.templates
  count := count_leaveLoop h.count
  loopDepth := by
    have hdepth : s'.loopDepth = s.loopDepth + 1 := by
      rw [h.loopDepth, enterLoop_eq]
    rw [leaveLoop_eq]
    exact Nat.sub_eq_of_eq_add hdepth

end Session.Extends

namespace Shift

variable {σ : Shift} {s₁ s₂ : Session} {r : Renaming}

/-- The renaming takes what belongs to a new session to what is there instead, as long as the
pieces of markup of the new session are `templates`. -/
structure Fits (σ : Shift) (r : Renaming) (templates : List String) : Prop where
  shift : r.shift = σ.ids
  template : ∀ i text, templates[i]? = some text →
    r.template i = (joinNew σ.templates templates).idxOf text

theorem Fits.of_longer {templates templates' : List String} (h : σ.Fits r templates')
    (hmore : templates <+: templates') : σ.Fits r templates where
  shift := h.shift
  template := by
    intro i text hi
    have hmem : text ∈ joinNew σ.templates templates :=
      mem_joinNew.mpr (.inr (List.mem_of_getElem? hi))
    have hi' : templates'[i]? = some text := by
      obtain ⟨rest, rfl⟩ := hmore
      rw [List.getElem?_append_left (List.getElem?_eq_some_iff.mp hi).1, hi]
    obtain ⟨rest, hrest⟩ : joinNew σ.templates templates <+: joinNew σ.templates templates' :=
      joinNew_mono hmore
    rw [h.template i text hi', ← hrest, List.idxOf_append_of_mem hmem]

section

variable (h : σ.Relates s₁ s₂)

include h

theorem Relates.isIdentifier (name : String) : s₁.isIdentifier name = s₂.isIdentifier name := by
  rw [Session.isIdentifier, Session.isIdentifier, h.count]

theorem Relates.allocateId : σ.Relates s₁.allocateId.2 s₂.allocateId.2 := by
  have hnext : s₁.nextId + 1 = s₂.nextId + 1 + σ.ids := by
    rw [h.nextId]
    omega
  exact { h with nextId := hnext }

theorem Relates.addTemplate (text : String) :
    σ.Relates (s₁.addTemplate text).2 (s₂.addTemplate text).2 := by
  rw [Session.addTemplate_eq, Session.addTemplate_eq]
  have htemplates : insertNew text s₁.templates =
      joinNew σ.templates (insertNew text s₂.templates) := by
    rw [joinNew_insertNew, h.templates]
  exact { h with templates := htemplates, nodup := nodup_insertNew h.nodup }

theorem Relates.addTemplate_fst {text : String} (hr : σ.Fits r (s₂.addTemplate text).2.templates) :
    (s₁.addTemplate text).1 = r.template (s₂.addTemplate text).1 := by
  rw [Session.addTemplate_eq] at hr ⊢
  rw [Session.addTemplate_eq s₂]
  have hmem : text ∈ insertNew text s₂.templates := mem_insertNew.mpr (.inl rfl)
  rw [hr.template _ text (by simp [List.getElem?_idxOf, hmem]), joinNew_insertNew, h.templates]

theorem Relates.addComponent (name : String) :
    σ.Relates (s₁.addComponent name) (s₂.addComponent name) := by
  have hcomponents : insertNew name s₁.components =
      joinNew σ.components (insertNew name s₂.components) := by
    rw [joinNew_insertNew, h.components]
  exact { h with components := hcomponents }

theorem Relates.addDirective (name : String) :
    σ.Relates (s₁.addDirective name) (s₂.addDirective name) := by
  have hdirectives : insertNew name s₁.directives =
      joinNew σ.directives (insertNew name s₂.directives) := by
    rw [joinNew_insertNew, h.directives]
  exact { h with directives := hdirectives }

theorem Relates.enterLoop (names : List String) :
    σ.Relates (s₁.enterLoop names) (s₂.enterLoop names) := by
  have hcount : ∀ name, (s₁.enterLoop names).count name = (s₂.enterLoop names).count name := by
    intro name
    change (s₁.addIdentifiers names).count name = (s₂.addIdentifiers names).count name
    rw [Session.count_addIdentifiers, Session.count_addIdentifiers, h.count]
  rw [Session.enterLoop_eq s₁, Session.enterLoop_eq s₂]
  exact { h with count := hcount, loopDepth := congrArg (· + 1) h.loopDepth }

theorem Relates.leaveLoop (names : List String) :
    σ.Relates (s₁.leaveLoop names) (s₂.leaveLoop names) := by
  have hleave : ∀ (s : Session) name,
      (s.leaveLoop names).count name = s.count name - names.count name := fun s name =>
    Session.count_removeIdentifiers { s with loopDepth := s.loopDepth - 1 } names name
  have hcount : ∀ name, (s₁.leaveLoop names).count name = (s₂.leaveLoop names).count name := by
    intro name
    rw [hleave, hleave, h.count]
  rw [Session.leaveLoop_eq s₁, Session.leaveLoop_eq s₂]
  exact { h with count := hcount, loopDepth := congrArg (· - 1) h.loopDepth }

end

end Shift

end TemplateCompiler
