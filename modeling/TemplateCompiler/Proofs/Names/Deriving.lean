import TemplateCompiler.Proofs.Names.Origins

/-! # Visits derive operations from nodes

Each step of a visit adds operations that come from the node or from nodes inside it, and loses no
place that was found before.
-/

namespace TemplateCompiler

open Template (Branches EachBlock Element Fragment IfBlock Node)
open Transform

variable {id : Nat} {rest : List Node}

/-! ## Steps -/

/-- From `c` to `c'`, operations and expressions are added that come from the first of `ns` or from
nodes inside it. -/
structure Derives (o : Options) (names : List String) (ns : List Node) (c c' : Context) : Prop where
  operations : ∀ op ∈ c'.block.allOperations,
    op ∈ c.block.allOperations ∨ Occurs (fun ns id => op.From o names ns id) ns c'.dynamic
  expressions : ∀ eff ∈ c'.block.effects, ∀ x ∈ eff.expressions,
    (∃ eff' ∈ c.block.effects, x ∈ eff'.expressions) ∨ Occurs (NeededBy o names x) ns c'.dynamic
  /-- Places that were found stay. -/
  keeps : ∀ P ms, Occurs P ms c.dynamic → Occurs P ms c'.dynamic

variable {o : Options} {names : List String} {ns : List Node} {c c₁ c' : Context}

namespace Derives

theorem trans (h₁ : Derives o names ns c c₁) (h₂ : Derives o names ns c₁ c') :
    Derives o names ns c c' where
  operations := by
    intro op hop
    rcases h₂.operations op hop with hop | hop
    · exact (h₁.operations op hop).imp_right (h₂.keeps _ _)
    · exact .inr hop
  expressions := by
    intro eff heff x hx
    rcases h₂.expressions eff heff x hx with ⟨eff', heff', hx'⟩ | hx
    · exact (h₁.expressions eff' heff' x hx').imp_right (h₂.keeps _ _)
    · exact .inr hx
  keeps := fun P ms h => h₂.keeps P ms (h₁.keeps P ms h)

theorem of_same (hoperations : c'.block.allOperations = c.block.allOperations)
    (heffects : c'.block.effects = c.block.effects) (hlater : c.dynamic.Later c'.dynamic) :
    Derives o names ns c c' where
  operations := fun _ hop => .inl (hoperations ▸ hop)
  expressions := fun eff heff _ hx => .inl ⟨eff, heffects ▸ heff, hx⟩
  keeps := fun _ _ h => h.later hlater

theorem refl (c : Context) : Derives o names ns c c := .of_same rfl rfl (.refl _)

theorem referenced (c : Context) : Derives o names ns c c.referenced :=
  .of_same rfl rfl c.referenced_later

theorem flag (c : Context) (flags : Flags) : Derives o names ns c (c.flag flags) :=
  .of_same rfl rfl ⟨rfl, fun _ h => h⟩

theorem once {op : Operation} (hid : c.dynamic.id = some id) (hop : op.From o names ns id) :
    Derives o names ns c (c.add (.once op)) where
  operations := by
    intro op' hop'
    rcases Block.mem_allOperations_add.mp hop' with rfl | hop'
    · exact .inr (.here hid hop)
    · exact .inl hop'
  expressions := fun eff heff _ hx => .inl ⟨eff, heff, hx⟩
  keeps := fun _ _ h => h

/-- Work on the node. -/
theorem contribute {xs : List Contribution} (hid : c.dynamic.id = some id)
    (hxs : ∀ x ∈ xs, OwnFrom o names ns id x) (actions : List String) :
    Derives o names ns c (c.contribute xs actions) where
  operations := by
    intro op hop
    rcases Block.mem_allOperations_foldl_add.mp hop with hop | hop
    · obtain ⟨x, hx, rfl⟩ := List.mem_map.mp hop
      exact .inr (.here hid (hxs x hx).from_op)
    · exact .inl hop
  expressions := by
    intro eff heff x hx
    have hadded : ∀ (xs : List Contribution) (b : Block), eff ∈ (xs.foldl Block.add b).effects →
        (∃ eff' ∈ b.effects, x ∈ eff'.expressions) ∨ ∃ y ∈ xs, x ∈ y.expressions := by
      intro xs
      induction xs with
      | nil => exact fun b h => .inl ⟨eff, h, hx⟩
      | cons y xs ih =>
        intro b h
        rcases ih _ h with ⟨eff', heff', hx'⟩ | ⟨z, hz, hxz⟩
        · rcases Block.effects_add heff' with ⟨eff'', heff'', heq⟩ | hsub
          · exact .inl ⟨eff'', heff'', heq ▸ hx'⟩
          · exact .inr ⟨y, by simp, hsub hx'⟩
        · exact .inr ⟨z, by simp [hz], hxz⟩
    rcases hadded xs c.block heff with h | ⟨y, hy, hxy⟩
    · exact .inl h
    · exact .inr (.here hid ⟨y, hxs y hy, hxy⟩)
  keeps := fun _ _ h => h

end Derives

theorem OwnWork.derives {xs : List Contribution} (h : OwnWork c xs c')
    (hxs : ∀ x ∈ xs, OwnFrom o names ns c.ownId x) : Derives o names ns c c' := by
  cases h with
  | none => exact .refl c
  | some xs actions =>
    exact (Derives.referenced c).trans (.contribute c.referenced_id hxs actions)

theorem ContainerWork.derives {e : Element} (h : ContainerWork o names e c c') :
    Derives o names (.element e :: rest) c c' := by
  cases h with
  | idle => exact .refl c
  | literal => exact .of_same rfl rfl (.refl _)
  | @markup code value hchildren hvalue =>
    have hx : OwnFrom o names (.element e :: rest) c.ownId
        (.whenever [value] (.setHtml c.ownId value)) := .markup hchildren hvalue
    have hwork := (OwnWork.single c (.whenever [value] (.setHtml c.ownId value)) rfl).derives
      (by simpa using hx)
    exact ⟨hwork.operations, hwork.expressions, hwork.keeps⟩
  | @text values htext hshows =>
    have hx : OwnFrom o names (.element e :: rest) c.ownId
        (.whenever values (.setText c.ownId values)) := .text htext hshows
    have hwork := (OwnWork.single c (.whenever values (.setText c.ownId values)) rfl).derives
      (by simpa using hx)
    exact ⟨hwork.operations, hwork.expressions, hwork.keeps⟩

theorem Context.place_derives (c : Context) (e : Element) (markup : String) :
    Derives o names ns c ((c.closed e).place e markup) := by
  have hblock := c.place_block e markup
  exact .of_same (congrArg Block.allOperations hblock) (congrArg Block.effects hblock)
    (c.place_later e markup)

theorem Context.anchored_derives (c : Context) (i : Nat) : Derives o names ns c (c.anchored i) where
  operations := fun _ hop => .inl hop
  expressions := fun eff heff _ hx => .inl ⟨eff, heff, hx⟩
  keeps := by
    intro P ms h
    cases h with
    | here hid hP => exact .here hid hP
    | @inside n ms _ k j hk hinside =>
      have hj : (c.anchored i).dynamic.children[j]? =
          some (if i = j then k.withAnchor c.session.nextId else k) := by
        simp only [anchored, List.getElem?_modify, hk, Option.map_eq_map, Option.map_some]
      refine .inside hj (hinside.later ?_)
      split <;> exact ⟨rfl, fun _ h => h⟩

theorem Context.insertAll_derives (c : Context) : Derives o names ns c c.insertAll :=
  c.insertAll_induction .refl .trans anchored_derives
    (fun c _ => (Derives.referenced c).trans (.once c.referenced_id rfl))
    fun c _ _ => (Derives.referenced c).trans (.once c.referenced_id rfl)

/-! ## Blocks -/

/-- Visits derive operations from their nodes, whatever names are in scope. -/
def Deriving (o : Options) (visit : Transform Unit) : Prop :=
  ∀ c c', c.Fresh → visit c = .ok () c' → ∀ names, c.session.Binds names →
    ∀ after, (∀ frame, c.parent = some frame → frame.children.drop c.index = c.node :: after) →
      Derives o names (c.node :: after) c c'

section Making

variable {visit : Transform Unit} (hdisciplined : Disciplined visit)
  (hvisit : Deriving o visit)
  (hnode : ∀ f c c', c.Fresh → c.node = .fragment f → visit c = .ok () c' → c'.node = .fragment f)
  {s s' : Session}

include hvisit hnode

theorem MakesBlock.from_fragment {f : Fragment} {b : Block} (hs : s.Binds names)
    (h : MakesBlock visit (.fragment f) s b s') : b.From o names f := by
  obtain ⟨c, hrun, rfl, rfl⟩ := h
  have hfresh := Context.newBlock_fresh f s
  have hderives := hvisit _ _ hfresh hrun names (hs.newBlock f) [] (by
    simp [Context.newBlock, Context.root, Context.referenced])
  refine Block.from_iff.mpr ⟨hnode f _ _ hfresh rfl hrun, fun op hop => ?_, fun eff heff x hx => ?_⟩
  · exact (hderives.operations op hop).resolve_left List.not_mem_nil
  · refine (hderives.expressions eff heff x hx).resolve_left ?_
    rintro ⟨_, hnil, _⟩
    cases hnil

theorem MakesOptional.from_fragment {f : Option Fragment} {b : Option Block} (hs : s.Binds names)
    (h : MakesOptional visit f s b s') : optionalFrom o names f b := by
  cases h with
  | none => trivial
  | some hb => exact hb.from_fragment hvisit hnode hs

include hdisciplined

theorem MakesAlternative.from_branches {branches : Branches} {a : Alternative} (hs : s.Binds names)
    (h : MakesAlternative o visit branches s a s') : a.From o names branches := by
  induction h with
  | done => trivial
  | otherwise hb => exact hb.from_fragment hvisit hnode hs
  | @test condition body rest s s₁ s' e positive negative htest hpositive hrest ih =>
    have hs₁ : s.allocateId.2.Binds names := hs
    refine ⟨processed_of_qualified hs₁ htest, hpositive.from_fragment hvisit hnode hs₁, ih ?_⟩
    exact hs₁.congr (hpositive.count_eq hdisciplined)

theorem MakesSlots.from_fragments {fs : List (String × Fragment)} {slots : List (String × Block)}
    (hs : s.Binds names) (h : MakesSlots visit fs s slots s') : slotsFrom o names fs slots := by
  induction h with
  | nil => trivial
  | cons hb _ ih =>
    exact ⟨rfl, hb.from_fragment hvisit hnode hs, ih (hs.congr (hb.count_eq hdisciplined))⟩

theorem MakesLoop.from_each {b : EachBlock} {op : Operation} (hs : s.Binds names)
    (h : MakesLoop o visit id b s op s') : op.From o names (.eachBlock b :: rest) id := by
  cases h with
  | @intro new _ s₁ _ subject key body fallback hnew hsubject hbody hkey hfallback =>
    have hinside : s₁.Binds (new ++ names) :=
      (hs.enterLoop new).congr (hbody.count_eq hdisciplined)
    have houtside : (s₁.leaveLoop new).Binds names :=
      hs.congr (Session.count_leaveLoop (hbody.count_eq hdisciplined))
    refine ⟨rfl, b, rest, new, rfl, hnew, processed_of_qualified hs hsubject, rfl, rfl, ?_,
      hbody.from_fragment hvisit hnode (hs.enterLoop new),
      hfallback.from_fragment hvisit hnode houtside⟩
    cases hcode : b.key with
    | none =>
      rw [hcode] at hkey
      cases hkey
      trivial
    | some code =>
      rw [hcode] at hkey
      cases hq : (Expression.ofCode code).qualified o s₁ with
      | error e => simp [hq, Functor.map, Except.map] at hkey
      | ok x =>
        obtain rfl : some x = key := by
          simpa [hq, Functor.map, Except.map] using hkey
        exact processed_of_qualified hinside hq

end Making

/-! ## Properties -/

section Properties

variable {e e' : Element} {props : List Property}

/-- Of the element, only its kind matters for what a property supplies. -/
theorem Supplies.congr {p : Property} {key value : Expression} (hkind : e'.kind = e.kind)
    (h : Supplies e p key value) : Supplies e' p key value := by
  cases h with
  | fixed a => exact .fixed a
  | bind hname harg hexp hkey => exact .bind hname harg hexp hkey
  | handler hname harg he => exact .handler hname harg (hkind ▸ he)
  | model hname he hexp => exact .model hname (hkind ▸ he) hexp
  | toggle hname hentry => exact .toggle hname hentry
  | style hname hentry => exact .style hname hentry

theorem EntryFrom.congr {entry : PropEntry} (hkind : e'.kind = e.kind)
    (h : EntryFrom o names e props entry) : EntryFrom o names e' props entry := by
  obtain ⟨p, hp, key, value, hsupplies, hprocessed⟩ := h
  exact ⟨p, hp, key, value, hsupplies.congr hkind, hprocessed⟩

theorem GroupFrom.congr {g : PropGroup} (hkind : e'.kind = e.kind)
    (h : GroupFrom o names e props g) : GroupFrom o names e' props g := by
  cases h with
  | entries hps =>
    refine .entries fun p hp => ⟨?_, fun v hv => ?_⟩
    · obtain ⟨entry, hentry, hkey⟩ := (hps p hp).key
      exact ⟨entry, hentry.congr hkind, hkey⟩
    · obtain ⟨entry, hentry, hvalue⟩ := (hps p hp).values v hv
      exact ⟨entry, hentry.congr hkind, hvalue⟩
  | spread hvalue => exact .spread hvalue

theorem Contributes.congr {d : Directive} {x : Contribution} (h : Contributes o names e id d x) :
    Contributes o names e' id d x := by
  cases h with
  | event hname harg hkey hvalue => exact .event hname harg hkey hvalue
  | model hname hexp hprocessed => exact .model hname hexp hprocessed
  | plainReference hname hexp hstatic hident hnames =>
    exact .plainReference hname hexp hstatic hident hnames
  | reference hname hexp hprocessed => exact .reference hname hexp hprocessed
  | action hnone hbuiltin hexp => exact .action hnone hbuiltin hexp

theorem ResultFrom.groups {result : PropResult} (h : ResultFrom o names e props result) :
    ∀ g ∈ result.groups, GroupFrom o names e props g := by
  cases h with
  | dynamic hgroups => exact hgroups
  | @fixed ps hps =>
    cases ps with
    | nil => simp [PropResult.groups]
    | cons p ps => simpa [PropResult.groups] using GroupFrom.entries hps

end Properties

/-! ## Visits -/

section Visits

variable {visit : Transform Unit} (hdisciplined : Disciplined visit)
  (hvisit : Deriving o visit)

include hdisciplined hvisit

/-- A walk over children derives operations from the nodes inside them. -/
theorem VisitsChildren.derives {isFragment : Bool} {frame : Frame} {i : Nat} {ms : List Node}
    {n : Node} (h : VisitsChildren visit isFragment frame i ms c c') (hb : c.session.Binds names)
    (hms : n.children.drop i = ms) (hlength : c.dynamic.children.length = i) :
    Derives o names (n :: rest) c c' := by
  induction h with
  | nil => exact .refl _
  | @cons frame _ i m ms c k c' hframe hrun _ hwalk ih =>
    have hchild : Derives o names (m :: ms) (c.child m i frame) k :=
      hvisit _ _ (hframe.child_fresh c) hrun names hb ms (by
        intro g hg
        obtain rfl : frame = g := by simpa [Context.child] using hg
        exact hframe.rest)
    have hsettled : Derives o names (m :: ms) k (k.settled isFragment) := by
      obtain ⟨returns, hblock⟩ := k.settled_block isFragment
      exact .of_same (by rw [hblock]; rfl) (by rw [hblock]) (k.settled_later isFragment)
    have hk := hchild.trans hsettled
    have hplace : ∀ P, Occurs P (m :: ms) (k.settled isFragment).dynamic →
        Occurs P (n :: rest) (c.adopt isFragment (k.settled isFragment)).dynamic := by
      intro P hP
      refine .inside (i := i) (k := (k.settled isFragment).dynamic) ?_ (hms ▸ hP)
      simp [Context.adopt, ← hlength]
    have hadopt : Derives o names (n :: rest) c
        (c.adopt isFragment (k.settled isFragment)) := by
      refine ⟨fun op hop => ?_, fun eff heff x hx => ?_, fun P ms h => ?_⟩
      · exact (hk.operations op hop).imp_right (hplace _)
      · exact (hk.expressions eff heff x hx).imp_right (hplace _)
      · cases h with
        | here hid hP => exact .here hid hP
        | inside hj hinside =>
          refine .inside ?_ hinside
          obtain ⟨hlt, -⟩ := List.getElem?_eq_some_iff.mp hj
          exact (List.getElem?_append_left hlt).trans hj
    refine hadopt.trans (ih (hb.congr (hdisciplined.count_child hframe hrun)) ?_ ?_)
    · rw [← List.drop_drop, hms]
      rfl
    · simp [Context.adopt, hlength]

variable (hnode : ∀ f c c', c.Fresh → c.node = .fragment f → visit c = .ok () c' →
  c'.node = .fragment f)

include hnode

/-- A visit derives operations from its node, if the visits inside do. -/
theorem Visits.derives {after : List Node} (hc : c.Fresh) (hb : c.session.Binds names)
    (hafter : ∀ frame, c.parent = some frame → frame.children.drop c.index = c.node :: after)
    (h : Visits o names visit c c') : Derives o names (c.node :: after) c c' := by
  have hinserted : Derives o names (c.node :: after) c (c.flag .inserted).referenced :=
    (Derives.flag c .inserted).trans (.referenced _)
  have hbinds : (c.flag .inserted).referenced.session.Binds names :=
    Session.Binds.referenced (c := c.flag .inserted) hb
  cases h with
  | absorbed | text | comment | dropped => exact .of_same rfl rfl ⟨rfl, fun _ h => h⟩
  | @interpolation code frame values hn hframe habsorbed hvalues =>
    have hrun : c.textRun frame = (c.node :: after).takeWhile (·.isTextLike) := by
      rw [Context.textRun, hafter frame hframe]
    have hop : Operation.From o names (c.node :: after) c.ownId
        (.createText c.ownId values !(values.all (·.isConstant))) :=
      ⟨rfl, by simp [hn, Node.isInterpolation], hrun ▸ hvalues⟩
    have hadd := (Derives.referenced c).trans ((Derives.flag _ .inserted).trans
      (.once (by simp [Context.flag]) hop))
    exact ⟨hadd.operations, hadd.expressions, hadd.keeps⟩
  | @condition b test positive negative s s' hn htest hpositive hnegative =>
    have hs : s.Binds names := hbinds.congr (hpositive.count_eq hdisciplined)
    have hop : Operation.From o names (c.node :: after) c.ownId
        (.branch c.ownId test positive negative) :=
      ⟨rfl, b, after, by rw [hn], htest, hpositive.from_fragment hvisit hnode hbinds,
        hnegative.from_branches hdisciplined hvisit hnode hs⟩
    have hadd := hinserted.trans (.once (Context.referenced_id _) hop)
    exact ⟨hadd.operations, hadd.expressions, hadd.keeps⟩
  | @loop b op s hn hloop =>
    have hop : op.From o names (c.node :: after) c.ownId := by
      rw [hn]
      exact hloop.from_each hdisciplined hvisit hnode hbinds
    have hadd := hinserted.trans (.once (Context.referenced_id _) hop)
    exact ⟨hadd.operations, hadd.expressions, hadd.keeps⟩
  | @outlet e props others name result xs k fallback s hn hkind hprops hothers hname hwork hxs
      hresult hfallback =>
    have hid : k.dynamic.id = some c.ownId := hwork.later.id _ c.referenced_id
    have hk : k.session.Binds names := hwork.binds hb.referenced
    have hown : ∀ x ∈ xs, OwnFrom o names (c.node :: after) c.ownId x := by
      intro x hx
      obtain ⟨d, hd, hcontributes⟩ := hxs x hx
      rw [hn]
      exact .property hprops (.inl ⟨d, hothers hd, hcontributes⟩)
    have hop : Operation.From o names (c.node :: after) c.ownId
        (.slotOutlet c.ownId name result.groups fallback) :=
      ⟨rfl, e, after, props, others, by rw [hn], hkind, hprops, hothers, hname, hresult.groups,
        hfallback.from_fragment hvisit hnode hk⟩
    have hid' : (c.referenced.flag .inserted).ownId = c.ownId := c.referenced_ownId
    have hadd := (Derives.referenced c).trans ((Derives.flag _ .inserted).trans
      ((hwork.derives (hid'.symm ▸ hown)).trans (.once hid hop)))
    exact ⟨hadd.operations, hadd.expressions, hadd.keeps⟩
  | @component e fs slots s s' props result xs k tag asset hn hkind hfs hmake hprops hs' hwork hxs
      hresult =>
    have hown : ∀ x ∈ xs, OwnFrom o names (c.node :: after) (c.during s').ownId x := by
      intro x hx
      obtain ⟨d, hd, hcontributes⟩ := hxs x hx
      rw [hn]
      exact .property hprops (.inl ⟨d, hd, hcontributes.congr⟩)
    have hop : Operation.From o names (c.node :: after) (c.during s').ownId
        (.createComponent (c.during s').ownId tag result.groups slots asset) :=
      ⟨rfl, e, after, props, fs, by rw [hn], hkind, hprops,
        fun g hg => (hresult.groups g hg).congr (e := e.withoutChildren) rfl, hfs,
        hmake.from_fragments hdisciplined hvisit hnode hb⟩
    have hid : (k.flag .inserted).referenced.dynamic.id = some (c.during s').ownId :=
      (Context.referenced_id _).trans (congrArg some hwork.ownId)
    have hstart : Derives o names (c.node :: after) c
        { c.during s' with slots, node := .element e.withoutChildren } :=
      .of_same rfl rfl (.refl _)
    have hadd := hstart.trans ((hwork.derives hown).trans ((Derives.flag k .inserted).trans
      ((Derives.referenced _).trans (.once hid hop))))
    exact ⟨hadd.operations, hadd.expressions, hadd.keeps⟩
  | @native e c₁ c₂ k props xs attributes hn hkind hcontainer hwalk hprops hwork hxs =>
    have hc₁ : c₁.session.Binds names := hb.congr hcontainer.count_eq
    have hchildren : c₁.dynamic.children.length = 0 := by
      cases hcontainer <;> simp [Context.add, hc.children]
    have hown : ∀ x ∈ xs, OwnFrom o names (c.node :: after) c₂.insertAll.ownId x := by
      intro x hx
      rw [hn]
      exact .property hprops (hxs x hx)
    refine (hn ▸ hcontainer.derives).trans ?_
    refine (hwalk.derives hdisciplined hvisit hc₁ (by rw [hn]; rfl) hchildren).trans ?_
    exact c₂.insertAll_derives.trans ((hwork.derives hown).trans (k.place_derives e _))
  | @fragment f c' hn hwalk =>
    exact hwalk.derives hdisciplined hvisit hb (by rw [hn]; rfl) (by simp [hc.children])

end Visits

theorem visit_node_eq (hpasses : o.passes = Pass.all) (depth : Nat) (f : Fragment) (c c' : Context)
    (hc : c.Fresh) (hn : c.node = .fragment f) (h : visit o depth c = .ok () c') :
    c'.node = .fragment f := by
  obtain ⟨_, hwalk⟩ := visit_fragment_ok hpasses hc hn h
  exact hwalk.samePlace.node.trans hn

/-- Whatever a visit adds to its block comes from its node. -/
theorem visit_deriving (hpasses : o.passes = Pass.all) (depth : Nat) :
    Deriving o (visit o depth) := by
  refine visit_induction hpasses (fun depth ih c c' hc hvisits names hb after hafter => ?_) depth
  exact (hvisits names hb).derives (visit_disciplined hpasses depth) ih
    (visit_node_eq hpasses depth) hc hb hafter

/-! ## Compiled templates -/

/-- Every expression of a compiled template is one of its source, in which the names that neither a
loop around it introduces nor everyone knows are qualified once. -/
theorem compile_qualifies_once {root : Fragment} {r : Compiled} (hpasses : o.passes = Pass.all)
    (h : compile o root = .ok r) : r.block.From o [] (o.prepare root) := by
  obtain ⟨depth, s, hmake, -⟩ := compile_ok hpasses h
  refine hmake.from_fragment (visit_deriving hpasses depth) (visit_node_eq hpasses depth) ?_
  simp [Session.Binds, Session.count, Session.isIdentifier]

/-- A loop in a loop that introduces the same name again, and the name outside of both. -/
def shadowingTemplate : Fragment :=
  ⟨[.eachBlock ⟨⟨"rows", {}⟩, "row", some "i", some ⟨"row.id + i", {}⟩,
    ⟨[.element ⟨"li", .regular,
      [.directive .eventHandler "click" [] (.chunks [.code ⟨"e => pick(e, row)", {}⟩]) {},
        .plain "title" (.chunks [.shorthand ⟨"title", {}⟩]) {}],
      [.eachBlock ⟨⟨"row", {}⟩, "{ row, x = i }", none, none,
        ⟨[.interpolation ⟨"row + x + y", {}⟩], {}⟩, some ⟨[.interpolation ⟨"x", {}⟩], {}⟩, {}⟩], {}⟩],
      {}⟩,
    some ⟨[.interpolation ⟨"row", {}⟩], {}⟩, {}⟩], {}⟩

theorem compile_qualifies_once_shadowingTemplate :
    ∃ r, compile { qualifyNames := true } shadowingTemplate = .ok r ∧
      r.block.From { qualifyNames := true } []
        (Options.prepare { qualifyNames := true } shadowingTemplate) :=
  exists_ok (by decide +kernel) fun _ => compile_qualifies_once rfl

end TemplateCompiler
