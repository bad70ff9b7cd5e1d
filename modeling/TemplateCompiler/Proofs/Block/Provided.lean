import TemplateCompiler.Proofs.Ids.Named
import TemplateCompiler.Proofs.Siblings.Sessions

/-! # What a compiled template provides

Blocks need pieces of markup, and components and actions that are looked up by name. A session comes
to know what its blocks need, each thing once, and nothing else.
-/

namespace TemplateCompiler

open Template (Branches EachBlock Element Fragment Node)
open Transform

variable {bs : List Block} {e : Element} {i : Nat}

/-! ## Needs -/

inductive Need
  | markup (i : Nat)
  | component (tag : String)
  | action (name : String)

/-- The session knows the thing. -/
def Session.Provides (s : Session) : Need → Prop
  | .markup i => i < s.templates.length
  | .component tag => tag ∈ s.components
  | .action name => name ∈ s.directives

/-- The markup of the node and of all nodes inside it. -/
def NodeInfo.needs (d : NodeInfo) : List Need :=
  d.nodes.filterMap fun k => k.template.map .markup

/-- What the operation itself looks up. -/
def Operation.ownNeed? : Operation → Option Need
  | .createComponent _ tag _ _ true => some (.component tag)
  | op => op.lookedUp?.map .action

def Block.ownNeeds (b : Block) : List Need :=
  b.dynamic.needs ++ b.allOperations.filterMap Operation.ownNeed?

/-- What a block and the blocks inside it need. -/
def needsOf (bs : List Block) : List Need := bs.flatMap Block.ownNeeds

def Operation.needs (op : Operation) : List Need := op.ownNeed?.toList ++ needsOf op.blocks

/-- What the node of `c` and its block need so far. -/
def Context.needs (c : Context) : List Need :=
  c.dynamic.needs ++ c.block.allOperations.flatMap Operation.needs

theorem NodeInfo.needs_eq (d : NodeInfo) :
    d.needs = (d.template.map .markup).toList ++ d.children.flatMap NodeInfo.needs := by
  rw [needs, nodes, List.filterMap_cons, inside_eq, insideAll_eq_flatMap, List.filterMap_flatMap]
  cases d.template <;> rfl

theorem NodeInfo.needs_congr {d d' : NodeInfo} (htemplate : d'.template = d.template)
    (hchildren : d'.children = d.children) : d'.needs = d.needs := by
  rw [d'.needs_eq, d.needs_eq, htemplate, hchildren]

theorem mem_needsOf_blocks {b : Block} {n : Need} :
    n ∈ needsOf b.blocks ↔ n ∈ b.dynamic.needs ∨ n ∈ b.allOperations.flatMap Operation.needs := by
  simp only [needsOf, b.blocks_eq, List.flatMap_cons, List.mem_append, Block.ownNeeds,
    List.mem_filterMap, List.mem_flatMap, Operation.needs, Option.mem_toList, or_assoc]
  grind

theorem Operation.needs_of_isOwn {op : Operation} (h : op.isOwn = true) :
    op.needs = (op.lookedUp?.map Need.action).toList := by
  rw [needs, blocks_of_isPlain (isPlain_of_isOwn h)]
  cases op <;> simp_all [isOwn, ownNeed?, needsOf]

/-! ## Sessions -/

/-- What the session knows is all different, and no markup is empty. -/
structure Session.Tidy (s : Session) : Prop where
  templates : s.templates.Nodup
  markup : "" ∉ s.templates
  components : s.components.Nodup
  directives : s.directives.Nodup

theorem Session.Tidy.congr {s s' : Session} (h : s.Tidy) (htemplates : s'.templates = s.templates)
    (hcomponents : s'.components = s.components) (hdirectives : s'.directives = s.directives) :
    s'.Tidy :=
  ⟨htemplates ▸ h.templates, htemplates ▸ h.markup, hcomponents ▸ h.components,
    hdirectives ▸ h.directives⟩

/-- From `s` to `s'`, no more and no less than what is needed has become known. -/
structure Session.Meets (needs : List Need) (s s' : Session) : Prop where
  provides : ∀ n, s'.Provides n ↔ s.Provides n ∨ n ∈ needs
  tidy : s.Tidy → s'.Tidy

namespace Session.Meets

variable {s s₁ s' : Session} {needs needs' : List Need}

theorem of_same (htemplates : s'.templates = s.templates)
    (hcomponents : s'.components = s.components) (hdirectives : s'.directives = s.directives) :
    Meets [] s s' where
  provides := by
    intro n
    cases n <;> simp [Provides, htemplates, hcomponents, hdirectives]
  tidy := fun h => h.congr htemplates hcomponents hdirectives

theorem trans (h₁ : Meets needs s s₁) (h₂ : Meets needs' s₁ s') : Meets (needs ++ needs') s s' where
  provides := by
    intro n
    rw [h₂.provides, h₁.provides, List.mem_append, or_assoc]
  tidy := fun h => h₂.tidy (h₁.tidy h)

theorem congr (h : Meets needs s s') (hneeds : ∀ n, n ∈ needs' ↔ n ∈ needs) :
    Meets needs' s s' :=
  ⟨fun n => by rw [h.provides, hneeds], h.tidy⟩

theorem addTemplate (s : Session) {text : String} (htext : text ≠ "") :
    Meets [.markup (s.addTemplate text).1] s (s.addTemplate text).2 := by
  unfold Session.addTemplate
  split
  · rename_i i hi
    have hlt : i < s.templates.length := (List.findIdx?_eq_some_iff_getElem.mp hi).1
    refine ⟨fun n => ⟨.inl, fun h => h.elim id fun hn => ?_⟩, id⟩
    rw [List.mem_singleton.mp hn]
    exact hlt
  · rename_i hnone
    have hnew : text ∉ s.templates := List.idxOf?_eq_none_iff.mp hnone
    constructor
    · intro n
      cases n with
      | markup i =>
        simp only [Provides, List.length_append, List.length_singleton, List.mem_singleton,
          Need.markup.injEq]
        omega
      | component tag => simp [Provides]
      | action name => simp [Provides]
    · intro h
      refine ⟨?_, ?_, h.components, h.directives⟩
      · exact List.nodup_append.mpr ⟨h.templates, by simp, by grind⟩
      · simpa using ⟨h.markup, htext⟩

theorem addComponent (s : Session) (tag : String) :
    Meets [.component tag] s (s.addComponent tag) where
  provides := by
    intro n
    cases n <;> simp [Provides, Session.addComponent, mem_insertNew, or_comm]
  tidy := fun h => ⟨h.templates, h.markup, nodup_insertNew h.components, h.directives⟩

theorem addDirective (s : Session) (name : String) :
    Meets [.action name] s (s.addDirective name) where
  provides := by
    intro n
    cases n <;> simp [Provides, Session.addDirective, mem_insertNew, or_comm]
  tidy := fun h => ⟨h.templates, h.markup, h.components, nodup_insertNew h.directives⟩

theorem foldl_addDirective (names : List String) (s : Session) :
    Meets (names.map .action) s (names.foldl Session.addDirective s) := by
  induction names generalizing s with
  | nil => exact .of_same rfl rfl rfl
  | cons name names ih => exact (addDirective s name).trans (ih _)

end Session.Meets

theorem noteActions_eq (s : Session) (xs : List Contribution) :
    { s with directives := noteActions s.directives xs } =
      (xs.filterMap (·.op.lookedUp?)).foldl Session.addDirective s := by
  unfold noteActions
  induction xs.filterMap (·.op.lookedUp?) generalizing s with
  | nil => rfl
  | cons name names ih => exact ih (s.addDirective name)

/-! ## Steps -/

/-- From `c` to `c'`, the node and its block have come to need `needs`, which the session now knows. -/
structure Context.Meets (needs : List Need) (c c' : Context) : Prop where
  mem_needs : ∀ n, n ∈ c'.needs ↔ n ∈ c.needs ∨ n ∈ needs
  session : c.session.Meets needs c'.session

namespace Context.Meets

variable {o : Options} {c c₁ c' k : Context} {needs needs' : List Need}

theorem trans (h₁ : Meets needs c c₁) (h₂ : Meets needs' c₁ c') :
    Meets (needs ++ needs') c c' where
  mem_needs := by
    intro n
    rw [h₂.mem_needs, h₁.mem_needs, List.mem_append, or_assoc]
  session := h₁.session.trans h₂.session

theorem of_same (hdynamic : c'.dynamic.needs = c.dynamic.needs)
    (hblock : c'.block.allOperations = c.block.allOperations)
    (hsession : c.session.Meets [] c'.session) : Meets [] c c' :=
  ⟨by simp [Context.needs, hdynamic, hblock], hsession⟩

theorem refl (c : Context) : Meets [] c c := .of_same rfl rfl (.of_same rfl rfl rfl)

theorem referenced (c : Context) : Meets [] c c.referenced := by
  have hcomponents : c.referenced.session.components = c.session.components := by
    unfold Context.referenced
    dsimp only
    split <;> rfl
  exact .of_same (NodeInfo.needs_congr c.referenced_template c.referenced_children) rfl
    (.of_same c.referenced_templates hcomponents c.referenced_directives)

theorem flag (c : Context) (flags : Flags) : Meets [] c (c.flag flags) :=
  .of_same (NodeInfo.needs_congr rfl rfl) rfl (.of_same rfl rfl rfl)

/-- The operation needs what the session has come to know before the node went on. -/
theorem add {s : Session} {x : Contribution} (hs : c.session.Meets needs s)
    (hwork : Meets needs' (c.during s) k) (hx : ∀ n, n ∈ x.op.needs ↔ n ∈ needs) :
    Meets (needs ++ needs') c (k.add x) where
  mem_needs := by
    intro n
    have hk : n ∈ k.needs ↔ n ∈ c.needs ∨ n ∈ needs' := hwork.mem_needs n
    have hadd : n ∈ (k.add x).needs ↔ n ∈ k.needs ∨ n ∈ x.op.needs := by
      simp only [Context.needs, Context.add, List.mem_append, List.mem_flatMap,
        Block.mem_allOperations_add]
      grind
    rw [hadd, hk, hx, List.mem_append, or_assoc, or_comm (a := n ∈ needs')]
  session := hs.trans hwork.session

theorem add_plain (c : Context) {x : Contribution} (hx : x.op.needs = []) : Meets [] c (c.add x) :=
  add (.of_same rfl rfl rfl) (.refl c) (by simp [hx])

theorem ownWork {xs : List Contribution} (h : OwnWork c xs c')
    (hxs : ∀ x ∈ xs, x.op.isOwn = true) :
    Meets ((xs.filterMap (·.op.lookedUp?)).map .action) c c' := by
  cases h with
  | none => exact .refl c
  | some xs actions hactions =>
    rw [← List.nil_append (List.map ..)]
    refine (referenced c).trans ⟨fun n => ?_, ?_⟩
    · have hown : ∀ x ∈ xs, n ∈ x.op.needs ↔ ∃ name, x.op.lookedUp? = some name ∧
          .action name = n := fun x hx => by simp [Operation.needs_of_isOwn (hxs x hx)]
      simp only [Context.needs, Context.contribute, List.mem_append, List.mem_flatMap,
        Block.mem_allOperations_foldl_add, List.mem_map, List.mem_filterMap]
      grind
    · rw [hactions, ← c.referenced_directives]
      change Session.Meets _ c.referenced.session
        { c.referenced.session with directives := noteActions c.referenced.session.directives xs }
      rw [noteActions_eq]
      exact .foldl_addDirective _ _

theorem containerWork {names : List String} (h : ContainerWork o names e c c') : Meets [] c c' := by
  cases h with
  | idle => exact .refl c
  | literal => exact .of_same rfl rfl (.of_same rfl rfl rfl)
  | @markup code value =>
    have hadd := (referenced c).trans
      (add_plain c.referenced (x := .whenever [value] (.setHtml c.ownId value)) rfl)
    exact ⟨hadd.mem_needs, hadd.session⟩
  | @text values =>
    have hadd := (referenced c).trans
      (add_plain c.referenced (x := .whenever values (.setText c.ownId values)) rfl)
    exact ⟨hadd.mem_needs, hadd.session⟩

theorem anchored (c : Context) (i : Nat) : Meets [] c (c.anchored i) := by
  have hanchor : ∀ (a : Nat) (ds : List NodeInfo) (i : Nat),
      (ds.modify i (NodeInfo.withAnchor a)).flatMap NodeInfo.needs = ds.flatMap NodeInfo.needs := by
    intro a ds
    induction ds with
    | nil => simp
    | cons d ds ih =>
      intro i
      cases i with
      | zero =>
        have hd : (d.withAnchor a).needs = d.needs := NodeInfo.needs_congr rfl rfl
        simp [hd]
      | succ i => simp [ih]
  refine .of_same ?_ rfl (.of_same rfl rfl rfl)
  rw [NodeInfo.needs_eq, NodeInfo.needs_eq]
  exact congrArg _ (hanchor _ _ _)

theorem insertAll (c : Context) : Meets [] c c.insertAll :=
  c.insertAll_induction refl trans anchored (fun c _ => (referenced c).trans (add_plain _ rfl))
    fun c _ _ => (referenced c).trans (add_plain _ rfl)

theorem register {text : String} (hmarkup : c.dynamic.template = none) (htext : text ≠ "") :
    Meets [.markup (c.session.addTemplate text).1] c
      { c with
        session := (c.session.addTemplate text).2
        dynamic := { c.dynamic with template := some (c.session.addTemplate text).1 } } where
  mem_needs := by
    intro n
    simp only [Context.needs, List.mem_append, NodeInfo.needs_eq c.dynamic, hmarkup]
    rw [NodeInfo.needs_eq]
    simp only [Option.map_some, Option.map_none, Option.toList_some, Option.toList_none,
      List.mem_append, List.mem_singleton, List.not_mem_nil, false_or]
    tauto
  session := .addTemplate c.session htext

theorem closed (c : Context) (e : Element) : Meets [] c (c.closed e) :=
  .of_same (by simp) (by simp) (.of_same (by simp) (by simp) (by simp))

theorem place {markup : String} (hmarkup : c.dynamic.template = none) (htext : markup ≠ "") :
    ∃ needs, Meets needs c ((c.closed e).place e markup) := by
  have hclosed : (c.closed e).referenced.dynamic.template = none := by simp [hmarkup]
  unfold Context.place
  split
  · exact ⟨_, (closed c e).trans
      ((referenced _).trans ((register hclosed htext).trans (flag _ _)))⟩
  · exact ⟨_, (closed c e).trans (.of_same rfl rfl (.of_same rfl rfl rfl))⟩

/-- A child of a fragment registers the markup that it has left. -/
theorem settled (isFragment : Bool) (h : k.template = "" ∨ k.dynamic.template = none) :
    ∃ needs, Meets needs k (k.settled isFragment) := by
  have hregistered : ∃ needs, Meets needs k.referenced k.referenced.registered := by
    unfold Context.registered
    split
    · exact ⟨_, .refl _⟩
    · rename_i hempty
      have htext : k.referenced.template ≠ "" := by simpa using hempty
      exact ⟨_, register (k.referenced_template.trans (h.resolve_left htext)) htext⟩
  obtain ⟨needs, hneeds⟩ := hregistered
  have hreturned := (referenced k).trans hneeds
  unfold Context.settled
  split
  · exact ⟨_, flag k _⟩
  · split
    · unfold Context.returned
      dsimp only
      split
      · exact ⟨_, hreturned.trans (.of_same rfl rfl (.of_same rfl rfl rfl))⟩
      · exact ⟨_, hreturned⟩
    · exact ⟨_, .refl k⟩

theorem adopt {isFragment : Bool} {n : Node} {i : Nat} {frame : Frame}
    (h : Meets needs (c.child n i frame) k) : Meets needs c (c.adopt isFragment k) where
  mem_needs := by
    intro x
    have hx : x ∈ k.needs ↔ x ∈ (c.child n i frame).needs ∨ x ∈ needs := h.mem_needs x
    have hchild : (c.child n i frame).needs = c.block.allOperations.flatMap Operation.needs := by
      simp [Context.needs, Context.child, NodeInfo.needs_eq]
    rw [hchild] at hx
    simp only [Context.needs, Context.adopt, NodeInfo.needs_eq c.dynamic, List.mem_append] at hx ⊢
    rw [NodeInfo.needs_eq]
    simp only [List.flatMap_append, List.flatMap_singleton, List.mem_append]
    tauto
  session := h.session

end Context.Meets

/-! ## Blocks -/

/-- What a visit does: it provides what the node needs, and registers its markup at most once. -/
structure Accounts (c c' : Context) : Prop where
  meets : ∃ needs, c.Meets needs c'
  unmarked : c'.template = "" ∨ c'.dynamic.template = none

/-- The markup of an element is left to its parent or registered, but not both. -/
theorem Context.place_unmarked {c : Context} {markup : String} (htemplate : c.template = "")
    (hmarkup : c.dynamic.template = none) : ((c.closed e).place e markup).template = "" ∨
      ((c.closed e).place e markup).dynamic.template = none := by
  unfold place
  split
  · exact .inl ((c.closed_template e).trans htemplate)
  · exact .inr (by simp [write, hmarkup])

section Making

variable {o : Options} {depth : Nat} {c c' : Context}
  (hvisit : Ensures (visit o depth) Accounts)

include hvisit

theorem MakesBlock.meets {f : Fragment} {s s' : Session} {b : Block}
    (h : MakesBlock (visit o depth) (.fragment f) s b s') : s.Meets (needsOf b.blocks) s' := by
  obtain ⟨k, hrun, rfl, rfl⟩ := h
  obtain ⟨needs, hmeets⟩ := (hvisit _ _ (Context.newBlock_fresh f s) hrun).meets
  have hstart : (Context.root (.fragment f) Block.empty s).needs = [] := by
    simp [Context.needs, Context.root, NodeInfo.needs_eq, Block.allOperations, Block.empty]
  have hall := (Context.Meets.referenced (Context.root (.fragment f) Block.empty s)).trans hmeets
  refine hall.session.congr fun n => ?_
  have hn : n ∈ k.needs ↔ n ∈ [] ++ needs := by simpa [hstart] using hall.mem_needs n
  rw [mem_needsOf_blocks, ← List.mem_append]
  exact hn

theorem MakesAlternative.meets {branches : Branches} {s s' : Session} {a : Alternative}
    (h : MakesAlternative o (visit o depth) branches s a s') :
    s.Meets (needsOf a.blocks) s' := by
  induction h with
  | done s => exact .of_same rfl rfl rfl
  | otherwise hb => exact hb.meets hvisit
  | @test _ _ _ s _ _ _ _ _ _ hpositive _ ih =>
    have hid : s.Meets [] s.allocateId.2 := .of_same rfl rfl rfl
    exact (hid.trans ((hpositive.meets hvisit).trans ih)).congr fun n => by
      simp [needsOf, Alternative.blocks]

theorem MakesOptional.meets {f : Option Fragment} {s s' : Session} {b : Option Block}
    (h : MakesOptional (visit o depth) f s b s') : s.Meets (needsOf (optionalBlocks b)) s' := by
  cases h with
  | none => exact .of_same rfl rfl rfl
  | some hb => exact hb.meets hvisit

theorem MakesSlots.meets {fs : List (String × Fragment)} {s s' : Session}
    {slots : List (String × Block)} (h : MakesSlots (visit o depth) fs s slots s') :
    s.Meets (needsOf (slotBlocks slots)) s' := by
  induction h with
  | nil s => exact .of_same rfl rfl rfl
  | cons hb _ ih =>
    exact ((hb.meets hvisit).trans ih).congr fun n => by simp [needsOf, slotBlocks]

theorem MakesLoop.meets {id : Nat} {b : EachBlock} {s s' : Session} {op : Operation}
    (h : MakesLoop o (visit o depth) id b s op s') : s.Meets op.needs s' := by
  cases h with
  | @intro names _ s₁ _ _ _ _ _ _ _ hbody _ hfallback =>
    have henter : s.Meets [] (s.enterLoop names) := by
      rw [Session.enterLoop_eq]
      exact .of_same rfl rfl rfl
    have hleave : s₁.Meets [] (s₁.leaveLoop names) := by
      rw [Session.leaveLoop_eq]
      exact .of_same rfl rfl rfl
    refine ((henter.trans (hbody.meets hvisit)).trans
      (hleave.trans (hfallback.meets hvisit))).congr fun n => ?_
    simp [Operation.needs, Operation.ownNeed?, Operation.lookedUp?, Operation.blocks, needsOf]

theorem VisitsChildren.meets {isFragment : Bool} {frame : Frame} {ns : List Node}
    (h : VisitsChildren (visit o depth) isFragment frame i ns c c') :
    ∃ needs, c.Meets needs c' := by
  induction h with
  | nil => exact ⟨[], .refl _⟩
  | @cons _ _ i n ns c k c' hframe hrun _ _ ih =>
    have hchild := hvisit _ _ (hframe.child_fresh c) hrun
    obtain ⟨xs, hxs⟩ := hchild.meets
    obtain ⟨ys, hys⟩ := Context.Meets.settled isFragment hchild.unmarked
    obtain ⟨zs, hzs⟩ := ih
    exact ⟨_, ((hxs.trans hys).adopt).trans hzs⟩

/-- A visit provides what its node needs, if the visits inside do. -/
theorem Visits.accounts {names : List String} (hc : c.Fresh)
    (h : Visits o names (visit o depth) c c') : Accounts c c' := by
  have hinserted : c.Meets [] (c.flag .inserted).referenced :=
    (Context.Meets.flag c .inserted).trans (.referenced _)
  cases h with
  | absorbed => exact ⟨⟨_, .flag c _⟩, .inr hc.markup⟩
  | text | comment | dropped => exact ⟨⟨_, .of_same rfl rfl (.of_same rfl rfl rfl)⟩, .inr hc.markup⟩
  | @interpolation code frame values =>
    have hframe : c.Meets []
        { c with parent := some (frame.consumeUntil (c.index + (c.textRun frame).length)) } :=
      .of_same rfl rfl (.of_same rfl rfl rfl)
    exact ⟨⟨_, hframe.trans ((Context.Meets.referenced _).trans
      ((Context.Meets.flag _ _).trans (.add_plain _ rfl)))⟩, .inl hc.template⟩
  | @condition b test positive negative s s' hn htest hpositive hnegative =>
    have hmade := (hpositive.meets hvisit).trans (hnegative.meets hvisit)
    refine ⟨⟨_, hinserted.trans (.add hmade (.refl _) fun n => ?_)⟩, .inl hc.template⟩
    simp [Contribution.op, Operation.needs, Operation.ownNeed?, Operation.lookedUp?,
      Operation.blocks, needsOf]
  | loop hn hloop =>
    exact ⟨⟨_, hinserted.trans (.add (hloop.meets hvisit) (.refl _) fun n => .rfl)⟩,
      .inl hc.template⟩
  | @outlet e _ _ name result _ k fallback s hn hkind hprops hothers hname hwork hxs hresult
      hfallback =>
    have hk := ((Context.Meets.referenced c).trans (.flag _ .inserted)).trans
      (.ownWork hwork hxs.isOwn)
    have hadd := hk.trans (Context.Meets.add
      (x := .once (.slotOutlet c.ownId name result.groups fallback)) (hfallback.meets hvisit)
      (.refl _) fun n => by
        simp [Contribution.op, Operation.needs, Operation.ownNeed?, Operation.lookedUp?,
          Operation.blocks])
    exact ⟨⟨_, hadd.mem_needs, hadd.session⟩, .inl (hwork.samePlace.template.trans hc.template)⟩
  | @component e _ slots s s' _ result _ k tag asset hn hkind hfs hmake hprops _ hwork hxs
      hresult _ hs' =>
    have hasset : s.Meets (if asset then [.component tag] else []) s' := by
      rw [hs']
      cases asset with
      | true => exact .addComponent s tag
      | false => exact .of_same rfl rfl rfl
    have hown := Context.Meets.ownWork hwork hxs.isOwn
    have hk := (hown.trans (.flag _ .inserted)).trans (.referenced _)
    have hduring : Context.Meets _ (c.during s') (k.flag .inserted).referenced :=
      ⟨hk.mem_needs, hk.session⟩
    have hadd := Context.Meets.add
      (x := .once (.createComponent (c.during s').ownId tag result.groups slots asset))
      ((hmake.meets hvisit).trans hasset) hduring fun n => by
        cases asset <;> simp [Contribution.op, Operation.needs, Operation.ownNeed?,
          Operation.lookedUp?, Operation.blocks, or_comm]
    exact ⟨⟨_, hadd.mem_needs, hadd.session⟩, .inl (hwork.samePlace.template.trans hc.template)⟩
  | @native e c₁ c₂ k _ _ attributes hn hkind hcontainer hwalk hprops hwork hxs =>
    have hbuilds : Builds o _ _ e _ _ c c₁ c₂ k :=
      ⟨hn, hkind, hcontainer, hwalk, hprops, hwork, hxs⟩
    obtain ⟨needs, hneeds⟩ := hwalk.meets hvisit
    have hmarkup : k.dynamic.template = none := hbuilds.unplaced.markup.trans hc.markup
    have hk := ((Context.Meets.containerWork hcontainer).trans hneeds).trans
      ((Context.Meets.insertAll c₂).trans (.ownWork hwork hbuilds.isOwn))
    have htext : openingTag o e attributes ++ k.content e ≠ "" := by
      simp [openingTag, String.append_eq_empty_iff]
    obtain ⟨more, hplace⟩ := Context.Meets.place (e := e) hmarkup htext
    exact ⟨⟨_, hk.trans hplace⟩,
      Context.place_unmarked (hbuilds.unplaced.template.trans hc.template) hmarkup⟩
  | fragment hn hwalk =>
    exact ⟨hwalk.meets hvisit, .inl (hwalk.samePlace.template.trans hc.template)⟩

end Making

theorem visit_accounts {o : Options} (hpasses : o.passes = Pass.all) (depth : Nat) :
    Ensures (visit o depth) Accounts :=
  visit_ensures hpasses (fun _ ih _ _ _ hc hvisits => hvisits.accounts ih hc) depth

/-! ## Compiled templates -/

/-- The tables of a compiled template hold what its blocks refer to, each thing once, and nothing
else. -/
structure Compiled.IsExact (r : Compiled) : Prop where
  templates_nodup : r.templates.Nodup
  templates_ne_empty : "" ∉ r.templates
  /-- Markup that a node refers to is there. -/
  template_lt : ∀ b ∈ r.block.blocks, ∀ d ∈ b.dynamic.nodes, ∀ i, d.template = some i →
    i < r.templates.length
  /-- Markup that is there is referred to. -/
  template_used : ∀ i < r.templates.length,
    ∃ b ∈ r.block.blocks, ∃ d ∈ b.dynamic.nodes, d.template = some i
  components_nodup : r.components.Nodup
  mem_components : ∀ tag, tag ∈ r.components ↔ ∃ b ∈ r.block.blocks, ∃ id props slots,
    .createComponent id tag props slots true ∈ b.allOperations
  directives_nodup : r.directives.Nodup
  mem_directives : ∀ name, name ∈ r.directives ↔ ∃ b ∈ r.block.blocks, ∃ id d builtin model,
    .withDirective id name d builtin true model ∈ b.allOperations

theorem mem_needsOf {n : Need} :
    n ∈ needsOf bs ↔ ∃ b ∈ bs, (∃ d ∈ b.dynamic.nodes, d.template.map .markup = some n) ∨
      ∃ op ∈ b.allOperations, op.ownNeed? = some n := by
  simp only [needsOf, Block.ownNeeds, NodeInfo.needs, List.mem_flatMap, List.mem_append,
    List.mem_filterMap]

theorem mem_needsOf_markup :
    .markup i ∈ needsOf bs ↔ ∃ b ∈ bs, ∃ d ∈ b.dynamic.nodes, d.template = some i := by
  have hown : ∀ op : Operation, op.ownNeed? ≠ some (.markup i) := by
    intro op
    unfold Operation.ownNeed?
    split <;> simp
  simp [mem_needsOf, hown]

theorem mem_needsOf_iff {n : Need} {P : Operation → Prop} (hn : ∀ i, n ≠ .markup i)
    (hown : ∀ op : Operation, op.ownNeed? = some n ↔ P op) :
    n ∈ needsOf bs ↔ ∃ b ∈ bs, ∃ op ∈ b.allOperations, P op := by
  simp [mem_needsOf, hown, fun i => (hn i).symm]

theorem mem_needsOf_component {tag : String} :
    .component tag ∈ needsOf bs ↔ ∃ b ∈ bs, ∃ id props slots,
      .createComponent id tag props slots true ∈ b.allOperations := by
  have hown : ∀ op : Operation, op.ownNeed? = some (.component tag) ↔
      ∃ id props slots, op = .createComponent id tag props slots true := by
    intro op
    unfold Operation.ownNeed?
    split <;> simp_all
  rw [mem_needsOf_iff (by simp) hown]
  simp

theorem mem_needsOf_action {name : String} :
    .action name ∈ needsOf bs ↔ ∃ b ∈ bs, ∃ id d builtin model,
      .withDirective id name d builtin true model ∈ b.allOperations := by
  have hown : ∀ op : Operation, op.ownNeed? = some (.action name) ↔
      ∃ id d builtin model, op = .withDirective id name d builtin true model := by
    intro op
    unfold Operation.ownNeed? Operation.lookedUp?
    split
    · simp
    · split <;> simp_all
  rw [mem_needsOf_iff (by simp) hown]
  simp

/-- The markup, the components and the actions of a compiled template are those that its blocks
refer to, at any depth. -/
theorem compile_tables_exact {o : Options} {root : Fragment} {r : Compiled}
    (hpasses : o.passes = Pass.all) (h : compile o root = .ok r) : r.IsExact := by
  obtain ⟨depth, s, hmakes, htemplates, hcomponents, hdirectives⟩ := compile_makes hpasses h
  have hmeets := hmakes.meets (visit_accounts hpasses depth)
  have htidy : s.Tidy := hmeets.tidy ⟨by simp, by simp, by simp, by simp⟩
  have hprovides : ∀ n, s.Provides n ↔ n ∈ needsOf r.block.blocks := by
    intro n
    rw [hmeets.provides]
    cases n <;> simp [Session.Provides]
  refine ⟨htemplates ▸ htidy.templates, htemplates ▸ htidy.markup, ?_, ?_,
    hcomponents ▸ htidy.components, ?_, hdirectives ▸ htidy.directives, ?_⟩
  · intro b hb d hd i hi
    rw [htemplates]
    exact (hprovides (.markup i)).mpr (mem_needsOf_markup.mpr ⟨b, hb, d, hd, hi⟩)
  · intro i hi
    rw [htemplates] at hi
    exact mem_needsOf_markup.mp ((hprovides (.markup i)).mp hi)
  · intro tag
    rw [hcomponents, ← mem_needsOf_component]
    exact hprovides (.component tag)
  · intro name
    rw [hdirectives, ← mem_needsOf_action]
    exact hprovides (.action name)

/-- A component inside a slot, one where a loop has no items, an action that is used twice, and the
same markup in two branches. -/
def sharedTemplate : Fragment :=
  ⟨[.element ⟨"Panel", .component, [],
      [.element ⟨"p", .regular, [.directive .action "focus" [] .absent {}], [], {}⟩,
        .element ⟨"Row", .component, [.directive .action "tip" [] .absent {}], [], {}⟩], {}⟩,
    .ifBlock ⟨⟨"a", {}⟩, ⟨[.element ⟨"p", .regular, [], [], {}⟩], {}⟩,
      some ⟨[.element ⟨"p", .regular, [.directive .action "focus" [] .absent {}], [], {}⟩], {}⟩,
      false, {}⟩,
    .eachBlock ⟨⟨"xs", {}⟩, "x", none, none, ⟨[.text ⟨"b", "b", {}⟩], {}⟩,
      some ⟨[.element ⟨"Empty", .component, [], [], {}⟩], {}⟩, {}⟩], {}⟩

theorem compile_tables_exact_sharedTemplate :
    ∃ r, compile {} sharedTemplate = .ok r ∧ r.templates = ["<p></p>", "b"] ∧
      r.components = ["Row", "Panel", "Empty"] ∧ r.directives = ["focus", "tip"] ∧ r.IsExact := by
  have hok : (compile {} sharedTemplate).toOption.map
      (fun r => (r.templates, r.components, r.directives)) =
      some (["<p></p>", "b"], ["Row", "Panel", "Empty"], ["focus", "tip"]) := by decide +kernel
  obtain ⟨r, h, hok⟩ := exists_ok_of_map hok
  simp only [Prod.mk.injEq] at hok
  exact ⟨r, h, hok.1, hok.2.1, hok.2.2, compile_tables_exact rfl h⟩

end TemplateCompiler
