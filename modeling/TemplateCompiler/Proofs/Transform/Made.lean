import TemplateCompiler.Proofs.Transform.Compiles

/-! # Where blocks come from

All blocks of a compiled template are made by visits of fragments. The markup that was there when a
block was made keeps its number.
-/

namespace TemplateCompiler

open Template (Branches EachBlock Element Fragment Node)
open Transform

/-- The block is made by a visit of a fragment, and the markup that is there then is the beginning
of `templates`. -/
def Made (o : Options) (templates : List String) (b : Block) : Prop :=
  ∃ depth f s s', MakesBlock (visit o depth) (.fragment f) s b s' ∧ s'.templates <+: templates

variable {o : Options} {templates templates' : List String} {visit : Transform Unit}
  {c c' c₁ : Context}

theorem Made.mono {b : Block} (h : templates <+: templates') (hb : Made o templates b) :
    Made o templates' b := by
  obtain ⟨depth, f, s, s', hmakes, hs'⟩ := hb
  exact ⟨depth, f, s, s', hmakes, hs'.trans h⟩

/-! ## Steps -/

/-- From `c` to `c'` there is only more markup, and the operations that are new show blocks that were
made. -/
structure Grows (o : Options) (c c' : Context) : Prop where
  templates : c.session.templates <+: c'.session.templates
  made : ∀ op ∈ c'.block.allOperations,
    op ∈ c.block.allOperations ∨ ∀ b ∈ op.blocks, Made o c'.session.templates b

theorem Grows.refl (c : Context) : Grows o c c := ⟨List.prefix_rfl, fun _ h => .inl h⟩

theorem Grows.trans (h₁ : Grows o c c₁) (h₂ : Grows o c₁ c') : Grows o c c' where
  templates := h₁.templates.trans h₂.templates
  made := by
    intro op hop
    rcases h₂.made op hop with hop | hmade
    · exact (h₁.made op hop).imp_right fun hmade b hb => (hmade b hb).mono h₂.templates
    · exact .inr hmade

theorem Session.getElem?_addTemplate (s : Session) (text : String) :
    (s.addTemplate text).2.templates[(s.addTemplate text).1]? = some text := by
  unfold addTemplate
  split
  · rename_i i hi
    obtain ⟨hlt, heq, -⟩ := List.findIdx?_eq_some_iff_getElem.mp hi
    exact List.getElem?_eq_some_iff.mpr ⟨hlt, by simpa using heq⟩
  · simp

theorem Session.nextId_addTemplate (s : Session) (text : String) :
    (s.addTemplate text).2.nextId = s.nextId := by
  unfold addTemplate
  split <;> rfl

theorem Session.templates_addTemplate (s : Session) (text : String) :
    s.templates <+: (s.addTemplate text).2.templates := by
  unfold addTemplate
  split
  · exact List.prefix_rfl
  · exact List.prefix_append _ _

@[simp] theorem Context.referenced_templates (c : Context) :
    c.referenced.session.templates = c.session.templates := by
  cases h : c.dynamic.id <;> simp [referenced, Session.allocateId, h]

theorem Grows.of_same (htemplates : c.session.templates <+: c'.session.templates)
    (hblock : c'.block.allOperations = c.block.allOperations) : Grows o c c' :=
  ⟨htemplates, fun _ hop => .inl (hblock ▸ hop)⟩

theorem Grows.referenced (c : Context) : Grows o c c.referenced :=
  .of_same (c.referenced_templates.symm ▸ List.prefix_rfl) rfl

theorem Grows.add (c : Context) {x : Contribution}
    (hx : ∀ b ∈ x.op.blocks, Made o c.session.templates b) : Grows o c (c.add x) where
  templates := List.prefix_rfl
  made := Block.shows_add hx

theorem Grows.add_plain (c : Context) {x : Contribution} (hx : x.op.isPlain = true) :
    Grows o c (c.add x) :=
  .add c fun b hb => by simp [Operation.blocks_of_isPlain hx] at hb

theorem OwnWork.grows {xs : List Contribution} (h : OwnWork c xs c')
    (hxs : ∀ x ∈ xs, x.op.isOwn = true) : Grows o c c' := by
  cases h with
  | none => exact .refl c
  | some xs actions =>
    exact (Grows.referenced c).trans ⟨List.prefix_rfl,
      Block.shows_foldl_add fun x hx => Operation.isPlain_of_isOwn (hxs x hx)⟩

theorem ContainerWork.grows {names : List String} {e : Element}
    (h : ContainerWork o names e c c') : Grows o c c' := by
  cases h with
  | idle => exact .refl c
  | literal => exact .of_same List.prefix_rfl rfl
  | @markup code value =>
    have hadd : Grows o c (c.referenced.add (.whenever [value] (.setHtml c.ownId value))) :=
      (Grows.referenced c).trans (.add_plain _ rfl)
    exact ⟨hadd.templates, hadd.made⟩
  | @text values =>
    have hadd : Grows o c (c.referenced.add (.whenever values (.setText c.ownId values))) :=
      (Grows.referenced c).trans (.add_plain _ rfl)
    exact ⟨hadd.templates, hadd.made⟩

theorem Context.insertAll_grows (c : Context) : Grows o c c.insertAll :=
  c.insertAll_induction .refl .trans (fun _ _ => .of_same List.prefix_rfl rfl)
    (fun c _ => (Grows.referenced c).trans (.add_plain _ rfl))
    fun c _ _ => (Grows.referenced c).trans (.add_plain _ rfl)

theorem Context.place_grows (c : Context) (e : Element) (markup : String) :
    Grows o c ((c.closed e).place e markup) := by
  have hclosed : Grows o c (c.closed e) := .of_same (by simp) (by simp)
  refine hclosed.trans ?_
  unfold place
  split
  · refine .of_same ?_ rfl
    exact (c.closed e).referenced_templates ▸ Session.templates_addTemplate _ _
  · exact .of_same List.prefix_rfl rfl

theorem Context.settled_grows (c : Context) (isFragment : Bool) :
    Grows o c (c.settled isFragment) := by
  have hregistered : c.session.templates <+: c.referenced.registered.session.templates := by
    unfold registered
    split
    · exact c.referenced_templates.symm ▸ List.prefix_rfl
    · exact c.referenced_templates ▸ Session.templates_addTemplate _ _
  have htemplates : c.session.templates <+: (c.settled isFragment).session.templates := by
    unfold settled
    split
    · exact List.prefix_rfl
    · split
      · unfold returned
        dsimp only
        split <;> exact hregistered
      · exact List.prefix_rfl
  obtain ⟨returns, hblock⟩ := c.settled_block isFragment
  exact .of_same htemplates (by rw [hblock]; rfl)

/-! ## Blocks -/

/-- The blocks that are made in a session, and what comes of it. -/
structure MakesAll (o : Options) (s s' : Session) (bs : List Block) : Prop where
  templates : s.templates <+: s'.templates
  made : ∀ b ∈ bs, Made o s'.templates b

theorem MakesAll.nil (s : Session) : MakesAll o s s [] := ⟨List.prefix_rfl, by simp⟩

theorem MakesAll.append {s s₁ s' : Session} {bs bs' : List Block} (h₁ : MakesAll o s s₁ bs)
    (h₂ : MakesAll o s₁ s' bs') : MakesAll o s s' (bs ++ bs') where
  templates := h₁.templates.trans h₂.templates
  made := by
    intro b hb
    rcases List.mem_append.mp hb with hb | hb
    · exact (h₁.made b hb).mono h₂.templates
    · exact h₂.made b hb

section Making

variable {depth : Nat}
  (hvisit : Ensures (TemplateCompiler.visit o depth) (Grows o))

include hvisit

theorem MakesBlock.makesAll {f : Fragment} {s s' : Session} {b : Block}
    (h : MakesBlock (TemplateCompiler.visit o depth) (.fragment f) s b s') :
    MakesAll o s s' b.blocks := by
  have hself : Made o s'.templates b := ⟨depth, f, s, s', h, List.prefix_rfl⟩
  obtain ⟨k, hrun, rfl, rfl⟩ := h
  have hgrows := hvisit _ _ (Context.newBlock_fresh f s) hrun
  refine ⟨?_, fun b hb => ?_⟩
  · have hnew : (Context.newBlock (.fragment f) s).session.templates = s.templates :=
      Context.referenced_templates _
    exact hnew ▸ hgrows.templates
  · rw [Block.blocks_eq] at hb
    rcases List.mem_cons.mp hb with rfl | hb
    · exact hself
    · obtain ⟨op, hop, hb⟩ := List.mem_flatMap.mp hb
      rcases hgrows.made op hop with hop | hmade
      · cases hop
      · exact hmade b hb

theorem Makes.makesAll {rs : List (List String × Fragment)} {is : List Nat} {bs : List Block}
    {s s' : Session} (h : Makes (TemplateCompiler.visit o depth) s rs is bs s') :
    MakesAll o s s' (bs.flatMap Block.blocks) := by
  induction h with
  | nil s => exact .nil s
  | id _ ih => exact ⟨ih.templates, ih.made⟩
  | note hs _ ih => exact ⟨hs.templates ▸ ih.templates, ih.made⟩
  | block hb _ ih => exact (hb.makesAll hvisit).append ih
  | @loop names _ _ s s₁ _ _ _ _ hb _ ih =>
    have hbody := hb.makesAll hvisit
    have henter : (s.enterLoop names).templates = s.templates := by rw [Session.enterLoop_eq]
    have hleave : (s₁.leaveLoop names).templates = s₁.templates := by rw [Session.leaveLoop_eq]
    have hinside : MakesAll o s s₁ _ := ⟨henter ▸ hbody.templates, hbody.made⟩
    exact hinside.append ⟨hleave ▸ ih.templates, ih.made⟩

theorem VisitsChildren.grows {isFragment : Bool} {frame : Frame} {i : Nat} {ns : List Node}
    (h : VisitsChildren (TemplateCompiler.visit o depth) isFragment frame i ns c c') :
    Grows o c c' := by
  induction h with
  | nil => exact .refl _
  | @cons _ _ i n ns c k c' hframe hrun _ _ ih =>
    have hchild := (hvisit _ _ (hframe.child_fresh c) hrun).trans (k.settled_grows isFragment)
    have hadopt : Grows o c (c.adopt isFragment (k.settled isFragment)) :=
      ⟨hchild.templates, hchild.made⟩
    exact hadopt.trans ih

/-- A visit shows blocks that were made, if the visits inside do. -/
theorem Visits.grows {names : List String}
    (h : Visits o names (TemplateCompiler.visit o depth) c c') : Grows o c c' := by
  cases h.proceeds with
  | absorbed | text | comment | dropped => exact .of_same List.prefix_rfl rfl
  | @created _ _ op _ hcreates =>
    obtain ⟨_, -, hmakes⟩ := hcreates.makes
    have hall := hmakes.makesAll hvisit
    exact ⟨hall.templates, hcreates.shows (op.blocks_eq ▸ hall.made)⟩
  | native hbuilds =>
    refine hbuilds.container.grows.trans ((hbuilds.walk.grows hvisit).trans ?_)
    refine (Context.insertAll_grows _).trans ((hbuilds.work.grows hbuilds.isOwn).trans ?_)
    exact Context.place_grows _ _ _
  | fragment hn hwalk => exact hwalk.grows hvisit

end Making

/-! ## Compiled templates -/

theorem visit_grows (hpasses : o.passes = Pass.all) (depth : Nat) :
    Ensures (TemplateCompiler.visit o depth) (Grows o) :=
  visit_ensures hpasses (fun _ ih _ _ _ _ hvisits => hvisits.grows ih) depth

/-- Every block of a compiled template is made by a visit. -/
theorem compile_made {root : Fragment} {r : Compiled} (hpasses : o.passes = Pass.all)
    (h : compile o root = .ok r) : ∀ b ∈ r.block.blocks, Made o r.templates b := by
  obtain ⟨depth, s, hmakes, htemplates⟩ := compile_ok hpasses h
  rw [htemplates]
  exact (hmakes.makesAll (visit_grows hpasses depth)).made

end TemplateCompiler
