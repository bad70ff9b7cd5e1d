import TemplateCompiler.Proofs.Transform.Visits

/-! # Nodes that are created apart

Interpolations, conditions, loops, slot outlets and components are not part of the markup around
them. Whatever the kind of the node, its properties contribute to the block, blocks are made of its
regions, and one operation creates it and shows the blocks. A regular element is built step by step,
and only then is its markup placed.
-/

namespace TemplateCompiler

open Template (Element Fragment Node)
open Transform

namespace Template.Node

/-- What the node shows in blocks of their own, with the names that it introduces there. -/
def regions : Node → List (List String × Fragment)
  | ifBlock b => (b.consequent :: (alternateBranches b.alternate).bodies).map ([], ·)
  | eachBlock b => (loopNames? b).toList.map (·, b.body) ++ b.fallback.toList.map ([], ·)
  | element e =>
    match e.kind with
    | .component => (slotsOf e).toOption.getD [] |>.map fun slot => ([], slot.2)
    | .slotOutlet => (outletContent? e).toList.map ([], ·)
    | _ => []
  | _ => []

/-- The node is created apart from the markup around it. -/
def isCreated : Node → Bool
  | interpolation _ | ifBlock _ | eachBlock _ => true
  | element e => e.kind == .component || e.kind == .slotOutlet
  | _ => false

end Template.Node

/-- The visit in `c` creates the node with the id by the operation, after the contributions of its
properties. -/
structure Creates (o : Options) (names : List String) (visit : Transform Unit) (c : Context)
    (id : Nat) (xs : List Contribution) (op : Operation) (c' : Context) : Prop where
  isCreated : c.node.isCreated = true
  absorbed : c.isAbsorbed = true → c.node.isAbsorbable = false
  block : c'.block = (xs.foldl Block.add c.block).add (.once op)
  own : ∃ e props, ContributionsFrom o names e id props xs
  created : op.created? = some id
  isText : ∀ x values watched, op = .createText x values watched → c.node.isInterpolation = true
  dynamic : c'.dynamic =
    { c.dynamic with
      id := some id, flags := ⟨c.dynamic.id.isNone || c.dynamic.flags.referenced, true, true⟩ }
  /-- Only the node itself receives a new id, apart from those of tests. -/
  makes : ∃ new, [id] = c.dynamic.id.toList ++ new ∧
    Makes visit c.session c.node.regions (new ++ op.chainIds) op.shown c'.session
  template : c'.template = c.template
  removed : c'.removed = c.removed
  /-- An interpolation takes over the text-like nodes after it. -/
  parent : (c.node.isInterpolation = false ∧ c'.parent = c.parent) ∨
    ∃ frame, c.node.isInterpolation = true ∧ c.parent = some frame ∧ c.isAbsorbed = false ∧
      c'.parent = some (frame.consumeUntil (c.index + (c.textRun frame).length))

/-- A regular element is built: `c₁` is what it comes to with its content as a whole, `c₂` with its
children and `k` with its properties. -/
structure Builds (o : Options) (names : List String) (visit : Transform Unit) (e : Element)
    (props : List Property) (xs : List Contribution) (c c₁ c₂ k : Context) : Prop where
  node : c.node = .element e
  kind : e.kind = .regular
  container : ContainerWork o names e c c₁
  walk : VisitsChildren visit false (Frame.ofNode c.node c₁.consumedChildren) 0 e.children c₁ c₂
  read : Property.ofAttributes e.attributes = .ok props
  work : OwnWork c₂.insertAll xs k
  own : ∀ x ∈ xs, FromProps o names e c₂.insertAll.ownId props x

/-- What the rules for one node come to, with one rule for all nodes that are created apart. -/
inductive Proceeds (o : Options) (names : List String) (visit : Transform Unit) (c : Context) :
    Context → Prop
  | absorbed :
      c.isAbsorbed = true → c.node.isAbsorbable = true →
      Proceeds o names visit c (c.flag { nonTemplate := true })
  | text {t : Template.TextNode} :
      c.node = .text t → c.isAbsorbed = false →
      Proceeds o names visit c (c.write (Text.escapeText t.data))
  | comment {data : String} {location : Location} :
      c.node = .comment data location → o.comments = true →
      Proceeds o names visit c (c.write ("<!--" ++ data ++ "-->"))
  | dropped {data : String} {location : Location} :
      c.node = .comment data location → o.comments = false →
      Proceeds o names visit c { c with removed := true }
  | created {id xs op c'} : Creates o names visit c id xs op c' → Proceeds o names visit c c'
  | native {e props xs c₁ c₂ k attributes} :
      Builds o names visit e props xs c c₁ c₂ k → FixedAttributes o names e props attributes →
      Proceeds o names visit c
        ((k.closed e).place e (openingTag o e attributes ++ k.content e))
  | fragment {f : Fragment} {c' : Context} :
      c.node = .fragment f →
      VisitsChildren visit true (Frame.ofNode c.node 0) 0 f.children c c' →
      Proceeds o names visit c c'

variable {o : Options} {names : List String} {visit : Transform Unit} {c c' k : Context}
  {xs : List Contribution}

/-! ## Steps -/

theorem Context.inserted_dynamic (c : Context) :
    (c.referenced.flag .inserted).dynamic =
      { c.dynamic with
        id := some c.ownId
        flags := ⟨c.dynamic.id.isNone || c.dynamic.flags.referenced, true, true⟩ } := by
  cases h : c.dynamic.id <;> simp [flag, referenced, ownId, h, Flags.union, Flags.inserted]

theorem Context.flag_referenced (c : Context) (flags : Flags) :
    (c.flag flags).referenced = c.referenced.flag flags := by
  cases h : c.dynamic.id <;> simp [flag, referenced, h, Flags.union]

theorem Context.makes_referenced (visit : Transform Unit) (c : Context) :
    ∃ new, [c.ownId] = c.dynamic.id.toList ++ new ∧
      ∀ {rs is bs s'}, Makes visit c.referenced.session rs is bs s' →
        Makes visit c.session rs (new ++ is) bs s' := by
  cases h : c.dynamic.id with
  | some id => exact ⟨[], by simp [ownId, h], by simp [referenced, h]⟩
  | none =>
    refine ⟨[c.session.nextId], by simp [ownId, h], fun hmakes => .id ?_⟩
    simpa [referenced, h] using hmakes

theorem OwnWork.makes {rs : List (List String × Fragment)} {is : List Nat} {bs : List Block}
    {s' : Session} {id : Nat} (h : OwnWork c xs k) (hid : c.dynamic.id = .some id)
    (hmakes : Makes visit k.session rs is bs s') :
    k.dynamic = c.dynamic ∧ Makes visit c.session rs is bs s' := by
  cases h with
  | none => exact ⟨rfl, hmakes⟩
  | some xs actions =>
    rw [Context.referenced_of_some hid] at hmakes ⊢
    have hnotes : c.session.Notes (c.contribute xs actions).session := ⟨rfl, rfl, rfl⟩
    exact ⟨rfl, .note hnotes hmakes⟩

/-- The node receives its id by the work on it or after it. -/
theorem OwnWork.inserted (h : OwnWork c xs k) (visit : Transform Unit) :
    (k.flag .inserted).referenced.dynamic = (c.referenced.flag .inserted).dynamic ∧
      ∃ new, [c.ownId] = c.dynamic.id.toList ++ new ∧
        Makes visit c.session [] new [] (k.flag .inserted).referenced.session := by
  obtain ⟨new, hnew, hall⟩ := c.makes_referenced visit
  rw [k.flag_referenced]
  cases h with
  | none => exact ⟨rfl, new, hnew, List.append_nil new ▸ hall (.nil _)⟩
  | some xs actions =>
    have hid : (c.referenced.contribute xs actions).dynamic.id = .some c.ownId := c.referenced_id
    have hnotes : c.referenced.session.Notes (c.referenced.contribute xs actions).session :=
      ⟨rfl, rfl, rfl⟩
    rw [Context.referenced_of_some hid]
    exact ⟨rfl, new, hnew, List.append_nil new ▸ hall (.note hnotes (.nil _))⟩

/-- The node receives its id before anything else is done. -/
theorem Creates.of_referenced {op : Operation} (hn : c.node.isCreated = true)
    (habsorbed : c.isAbsorbed = true → c.node.isAbsorbable = false)
    (hown : ∃ e props, ContributionsFrom o names e c.ownId props xs)
    (hblock : c'.block = (xs.foldl Block.add c.block).add (.once op))
    (hcreated : op.created? = some c.ownId)
    (htext : ∀ x values watched, op = .createText x values watched → c.node.isInterpolation = true)
    (hdynamic : c'.dynamic = (c.referenced.flag .inserted).dynamic)
    (hmakes : Makes visit c.referenced.session c.node.regions op.chainIds op.shown c'.session)
    (htemplate : c'.template = c.template) (hremoved : c'.removed = c.removed)
    (hparent : (c.node.isInterpolation = false ∧ c'.parent = c.parent) ∨
      ∃ frame, c.node.isInterpolation = true ∧ c.parent = some frame ∧ c.isAbsorbed = false ∧
        c'.parent = some (frame.consumeUntil (c.index + (c.textRun frame).length))) :
    Creates o names visit c c.ownId xs op c' := by
  obtain ⟨new, hnew, hall⟩ := c.makes_referenced visit
  exact ⟨hn, habsorbed, hblock, hown, hcreated, htext, hdynamic.trans c.inserted_dynamic,
    ⟨new, hnew, hall hmakes⟩, htemplate, hremoved, hparent⟩

/-! ## Rules -/

theorem Visits.proceeds (h : Visits o names visit c c') : Proceeds o names visit c c' := by
  have hnone : ∃ e props, ContributionsFrom o names e c.ownId props [] :=
    ⟨default, [], by simp [ContributionsFrom]⟩
  cases h with
  | absorbed habsorbed hn => exact .absorbed habsorbed hn
  | text hn habsorbed => exact .text hn habsorbed
  | comment hn hcomments => exact .comment hn hcomments
  | dropped hn hcomments => exact .dropped hn hcomments
  | interpolation hn hframe habsorbed =>
    refine .created (.of_referenced (by rw [hn]; rfl) (by simp [habsorbed]) hnone rfl rfl
      (fun _ _ _ _ => by rw [hn]; rfl) rfl ?_ rfl rfl (.inr ⟨_, by rw [hn]; rfl, hframe, habsorbed, rfl⟩))
    rw [hn]
    exact .nil _
  | condition hn htest hpositive hnegative =>
    rw [c.flag_referenced] at hpositive ⊢
    refine .created (.of_referenced (by rw [hn]; rfl) (by simp [hn, Node.isAbsorbable])
      hnone rfl rfl (by simp) rfl ?_ rfl rfl (.inl ⟨by rw [hn]; rfl, rfl⟩))
    rw [hn]
    exact .block hpositive hnegative.makes
  | @loop b op s hn hloop =>
    rw [c.flag_referenced] at hloop ⊢
    have hmakes := hloop.makes
    have hcreated : op.created? = some c.ownId := by cases hloop; rfl
    refine .created (.of_referenced (by rw [hn]; rfl) (by simp [hn, Node.isAbsorbable])
      hnone rfl hcreated (by cases hloop; simp) rfl ?_ rfl rfl (.inl ⟨by rw [hn]; rfl, rfl⟩))
    rw [hn]
    exact hmakes
  | @outlet e props others _ _ xs k _ _ hn hkind _ _ _ hwork hxs _ hfallback =>
    have hblock (x : Contribution) : k.block.add x = (xs.foldl Block.add c.block).add x :=
      congrArg (Block.add · x) hwork.block_eq
    obtain ⟨hdynamic, hmakes⟩ := hwork.makes c.referenced_id hfallback.makes
    refine .created (.of_referenced (by simp [hn, Node.isCreated, hkind])
      (by simp [hn, Node.isAbsorbable]) ⟨e, others, hxs⟩ (hblock (.once _)) rfl (by simp) hdynamic ?_
      hwork.samePlace.template hwork.samePlace.removed
      (.inl ⟨by rw [hn]; rfl, hwork.samePlace.parent⟩))
    have hregions : c.node.regions = (outletContent? e).toList.map ([], ·) := by
      simp [hn, Node.regions, hkind]
    rw [hregions]
    exact hmakes
  | @component e fs slots s s' _ _ xs k _ _ hn hkind hfs hmake _ hs' hwork hxs =>
    have hblock (x : Contribution) : k.block.add x = (xs.foldl Block.add c.block).add x :=
      congrArg (Block.add · x) hwork.block_eq
    obtain ⟨hdynamic, new, hnew, hend⟩ := hwork.inserted visit
    have hnotes : s.Notes s' := by rcases hs' with rfl | rfl <;> exact ⟨rfl, rfl, rfl⟩
    have hmakes := hmake.makes.append (.note hnotes hend)
    refine .created ⟨by simp [hn, Node.isCreated, hkind], by simp [hn, Node.isAbsorbable],
      hblock (.once _), ⟨_, _, hxs⟩, rfl, by simp, hdynamic.trans (Context.inserted_dynamic _),
      ⟨new, hnew, ?_⟩,
      hwork.samePlace.template, hwork.samePlace.removed,
      .inl ⟨by rw [hn]; rfl, hwork.samePlace.parent⟩⟩
    have hregions : c.node.regions = fs.map fun slot => ([], slot.2) := by
      simp [hn, Node.regions, hkind, hfs, Except.toOption]
    simp only [List.append_nil, List.nil_append] at hmakes
    rw [hregions]
    exact (List.append_nil new).symm ▸ hmakes
  | native hn hkind hcontainer hwalk hprops hwork hxs hattributes =>
    exact .native ⟨hn, hkind, hcontainer, hwalk, hprops, hwork, hxs⟩ hattributes
  | fragment hn hwalk => exact .fragment hn hwalk

/-! ## Steps that place no markup -/

/-- What becomes of the markup of the node is as open as it was. -/
structure Context.Unplaced (c k : Context) : Prop where
  parent : k.parent = c.parent
  template : k.template = c.template
  removed : k.removed = c.removed
  markup : k.dynamic.template = c.dynamic.template
  insert : k.dynamic.flags.insert = c.dynamic.flags.insert
  nonTemplate : k.dynamic.flags.nonTemplate = c.dynamic.flags.nonTemplate

namespace Context.Unplaced

theorem refl (c : Context) : c.Unplaced c := ⟨rfl, rfl, rfl, rfl, rfl, rfl⟩

theorem trans {c₁ : Context} (h₁ : c.Unplaced c₁) (h₂ : c₁.Unplaced k) : c.Unplaced k :=
  ⟨h₂.parent.trans h₁.parent, h₂.template.trans h₁.template, h₂.removed.trans h₁.removed,
    h₂.markup.trans h₁.markup, h₂.insert.trans h₁.insert, h₂.nonTemplate.trans h₁.nonTemplate⟩

theorem referenced (c : Context) : c.Unplaced c.referenced :=
  ⟨rfl, rfl, rfl, c.referenced_template, c.referenced_insert, c.referenced_nonTemplate⟩

end Context.Unplaced

theorem OwnWork.unplaced (h : OwnWork c xs k) : c.Unplaced k := by
  cases h with
  | none => exact .refl c
  | some xs actions => exact (Context.Unplaced.referenced c).trans ⟨rfl, rfl, rfl, rfl, rfl, rfl⟩

theorem ContainerWork.unplaced {e : Element} (h : ContainerWork o names e c k) : c.Unplaced k := by
  cases h with
  | idle => exact .refl c
  | literal => exact ⟨rfl, rfl, rfl, rfl, rfl, rfl⟩
  | markup | text => exact (Context.Unplaced.referenced c).trans ⟨rfl, rfl, rfl, rfl, rfl, rfl⟩

theorem VisitsChildren.unplaced {isFragment : Bool} {frame : Frame} {i : Nat} {ns : List Node}
    (h : VisitsChildren visit isFragment frame i ns c k) : c.Unplaced k := by
  induction h with
  | nil => exact .refl _
  | cons _ _ _ _ ih =>
    exact ⟨ih.parent, ih.template, ih.removed, ih.markup, ih.insert, ih.nonTemplate⟩

theorem Context.insertAll_unplaced (c : Context) : c.Unplaced c.insertAll := by
  have hadd (c : Context) (x : Contribution) : c.Unplaced (c.referenced.add x) :=
    (Unplaced.referenced c).trans ⟨rfl, rfl, rfl, rfl, rfl, rfl⟩
  exact c.insertAll_induction .refl .trans (fun _ _ => ⟨rfl, rfl, rfl, rfl, rfl, rfl⟩)
    (fun c _ => hadd c _) fun c _ _ => hadd c _

/-! ## Consequences -/

namespace Builds

variable {e : Element} {props : List Property} {c₁ c₂ : Context}
  (h : Builds o names visit e props xs c c₁ c₂ k)

include h

theorem unplaced : c.Unplaced k :=
  h.container.unplaced.trans (h.walk.unplaced.trans (c₂.insertAll_unplaced.trans h.work.unplaced))

theorem isOwn : ∀ x ∈ xs, x.op.isOwn = true := fun x hx => (h.own x hx).isOwn

theorem childless (hc : c.Fresh) : c₁.dynamic.children = [] := by
  cases h.container <;> simp [Context.add, hc.children]

end Builds

namespace Creates

variable {id : Nat} {op : Operation} (h : Creates o names visit c id xs op c')

include h

theorem isOwn : ∀ x ∈ xs, x.op.isOwn = true := by
  obtain ⟨e, props, hown⟩ := h.own
  exact hown.isOwn

theorem isAbsorbed_eq (hc : c.Fresh) : c.isAbsorbed = false := by
  by_contra habsorbed
  rw [Bool.not_eq_false] at habsorbed
  simp [hc.isAbsorbed_eq (h.absorbed habsorbed)] at habsorbed

theorem kind_ne_regular (e : Element) (he : c.node = .element e) : e.kind ≠ .regular := by
  intro hkind
  have hcreated := h.isCreated
  simp [he, Node.isCreated, hkind] at hcreated

theorem shows {P : Block → Prop} (hop : ∀ b ∈ op.blocks, P b) :
    ∀ op' ∈ c'.block.allOperations, op' ∈ c.block.allOperations ∨ ∀ b ∈ op'.blocks, P b := by
  intro op' hop'
  rw [h.block] at hop'
  rcases Block.shows_add (x := .once op) hop op' hop' with hop' | hop'
  · exact Block.shows_foldl_add (fun x hx => Operation.isPlain_of_isOwn (h.isOwn x hx)) op' hop'
  · exact .inr hop'

end Creates

end TemplateCompiler
