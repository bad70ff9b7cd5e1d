import TemplateCompiler.Proofs.Transform.Made

/-! # Static templates

A template of elements, texts and comments whose attributes are all text is compiled to markup
alone. Reading that markup gives the template back.
-/

namespace TemplateCompiler.Markup

open Template (Attribute AttributeValue Element Fragment Node)
open Transform

variable {attrs : List StaticAttribute} {c : Context} {e : Element} {ns : List Node}
  {pairs : List (String × String)} {t : Tree} {ts : List Tree}

/-! ## Trees of nodes -/

/-- The name and the text of an attribute that nothing else is part of. -/
def ofAttribute? : Attribute → Option (String × String)
  | .plain name .absent _ => some (name, "")
  | .plain name (.chunks [.text t]) _ => some (name, t.data)
  | _ => none

mutual

/-- The tree that a node stands for, if no part of it depends on the run time. -/
def ofNode? : Node → Option Tree
  | .text t => some (.text t.data)
  | .comment data _ => some (.comment data)
  | .element e => ofElement? e
  | _ => none

def ofElement? : Element → Option Tree
  | ⟨name, kind, attributes, children, _⟩ =>
    if kind = .regular then do
      let pairs ← attributes.mapM ofAttribute?
      let trees ← ofNodes? children
      some (.element name pairs trees)
    else none

def ofNodes? : List Node → Option (List Tree)
  | [] => some []
  | n :: ns => do
    let t ← ofNode? n
    let ts ← ofNodes? ns
    some (t :: ts)

end

theorem forall₂_of_ofNodes? (h : ofNodes? ns = some ts) :
    List.Forall₂ (fun n t => ofNode? n = some t) ns ts := by
  induction ns generalizing ts with
  | nil =>
    obtain rfl : [] = ts := by simpa [ofNodes?] using h
    exact .nil
  | cons n ns ih =>
    simp only [ofNodes?, Option.bind_eq_bind, Option.bind_eq_some_iff, Option.some.injEq] at h
    obtain ⟨t, ht, ts, hts, rfl⟩ := h
    exact .cons ht (ih hts)

/-- The tree can stand inside an element called `parent`. -/
def Tree.mayStandIn (parent : String) : Tree → Bool
  | .element name _ _ => Template.isValidNesting parent name
  | _ => true

mutual

/-- Elements stand where a browser leaves them, and no attribute occurs twice or is one that the
compiler uses up. -/
def Tree.isRegular : Tree → Bool
  | .element name attributes children =>
    (attributes.all fun a => !isReservedProp a.1) && decide (attributes.map (·.1)).Nodup &&
      areRegularIn name children
  | _ => true

def areRegularIn (parent : String) : List Tree → Bool
  | [] => true
  | t :: ts => t.mayStandIn parent && t.isRegular && areRegularIn parent ts

end

theorem areRegularIn_iff {parent : String} : areRegularIn parent ts = true ↔
      ∀ t ∈ ts, t.mayStandIn parent = true ∧ t.isRegular = true := by
  induction ts with
  | nil => simp [areRegularIn]
  | cons t ts ih => simp [areRegularIn, ih]

/-! ## Attributes -/

/-- The entry that a plain attribute supplies. -/
def entryOf (a : StaticAttribute) : PropEntry where
  key := .static a.name (a.location.withSource a.name)
  value := .static a.value (a.location.withSource a.value)

theorem ofAttributes_static {attributes : List Attribute}
    (h : attributes.mapM ofAttribute? = some pairs) :
    ∃ attrs : List StaticAttribute, Property.ofAttributes attributes = .ok (attrs.map .fixed) ∧
      attrs.map (fun a => (a.name, a.value)) = pairs := by
  induction attributes generalizing pairs with
  | nil =>
    obtain rfl : [] = pairs := by simpa using h
    exact ⟨[], rfl, rfl⟩
  | cons a as ih =>
    simp only [List.mapM_cons, Option.bind_eq_bind, Option.bind_eq_some_iff, Option.pure_def,
      Option.some.injEq] at h
    obtain ⟨pair, ha, rest, has, rfl⟩ := h
    obtain ⟨attrs, hattrs, hpairs⟩ := ih has
    obtain ⟨attr, hattr, hpair⟩ : ∃ attr : StaticAttribute,
        Property.ofAttribute a = .ok (.fixed attr) ∧ (attr.name, attr.value) = pair := by
      unfold ofAttribute? at ha
      split at ha
      · exact ⟨_, rfl, by simpa using ha⟩
      · exact ⟨_, rfl, by simpa using ha⟩
      · simp at ha
    refine ⟨attr :: attrs, ?_, by simp [hpair, hpairs]⟩
    rw [Property.ofAttributes] at hattrs ⊢
    rw [List.mapM_cons, hattr, hattrs]
    rfl

theorem collect_static {o : Options} {isComponent : Bool}
    (h : ∀ a ∈ attrs, isReservedProp a.name = false) (k : PropCollector) :
    (attrs.map Property.fixed).foldlM (collectProperty o e isComponent) k c =
      .ok { k with pending := k.pending ++ attrs.map entryOf } c := by
  induction attrs generalizing k with
  | nil => simp
  | cons a as ih =>
    have hadd : collectProperty o e isComponent k (.fixed a) c =
        .ok { k with pending := k.pending ++ [entryOf a] } c := by
      simp only [collectProperty, PropCollector.addAttribute, h a (by simp), Bool.false_eq_true,
        ite_false]
      rfl
    rw [List.map_cons, List.foldlM_cons, bind_run hadd, ih fun b hb => h b (by simp [hb])]
    simp

/-- Entries with different literal names do not merge. -/
theorem foldl_addEntry (ps : List MergedProp) (hnodup : (attrs.map (·.name)).Nodup)
    (hps : ∀ a ∈ attrs, ∀ p ∈ ps, p.isNamed a.name = false) :
    (attrs.map entryOf).foldl addEntry ps =
      ps ++ attrs.map fun a => MergedProp.ofEntry (entryOf a) := by
  induction attrs generalizing ps with
  | nil => simp
  | cons a as ih =>
    rw [List.map_cons, List.nodup_cons] at hnodup
    have hnew : addEntry ps (entryOf a) = ps ++ [MergedProp.ofEntry (entryOf a)] := by
      have hany : ps.any (·.isNamed a.name) = false :=
        List.any_eq_false.mpr fun p hp => by simp [hps a (by simp) p hp]
      unfold addEntry
      rw [if_neg]
      simp [entryOf, Expression.static, hany]
    rw [List.map_cons, List.foldl_cons, hnew, ih _ hnodup.2, List.append_assoc,
      List.singleton_append, List.map_cons]
    intro b hb p hp
    rcases List.mem_append.mp hp with hp | hp
    · exact hps b (by simp [hb]) p hp
    · rw [List.mem_singleton.mp hp]
      have hne : a.name ≠ b.name := fun heq => hnodup.1 (heq ▸ List.mem_map_of_mem hb)
      simp [MergedProp.isNamed, MergedProp.ofEntry, entryOf, Expression.static, hne]

/-- Attributes that are text become part of the opening tag, as they are written. -/
theorem placeProps_static {o : Options} (hreserved : ∀ a ∈ attrs, isReservedProp a.name = false)
    (hnodup : (attrs.map (·.name)).Nodup) :
    (buildProps o e (attrs.map .fixed) false >>= placeProps) c =
      .ok (writeAttributes (attrs.map fun a => (a.name, a.value))) c := by
  have hresult : PropCollector.result { pending := [] ++ attrs.map entryOf } =
      .fixed (attrs.map fun a => MergedProp.ofEntry (entryOf a)) := by
    have hstatic : (attrs.map entryOf).any (!·.key.isStatic) = false := by
      simp [entryOf, Expression.static]
    simp only [PropCollector.result, List.nil_append, hstatic,
      mergeEntries_eq_foldl, foldl_addEntry [] hnodup (by simp)]
    rfl
  have hbuild : buildProps o e (attrs.map .fixed) false c =
      .ok (.fixed (attrs.map fun a => MergedProp.ofEntry (entryOf a))) c := by
    rw [buildProps, bind_run (collect_static hreserved {}), hresult]
    rfl
  have hstatic : ∀ a, (MergedProp.ofEntry (entryOf a)).staticText? = some (a.name, a.value) := by
    simp [MergedProp.staticText?, MergedProp.ofEntry, entryOf, Expression.static]
  rw [bind_run hbuild, placeProps_run, PropResult.settings, List.filter_eq_nil_iff.mpr]
  · simp [PropResult.tagText, Context.receive, hstatic]
  · simp [hstatic]

/-! ## Nodes -/

mutual

/-- What is known of the node that a tree stands for. -/
def Tree.info : Tree → NodeInfo
  | .element _ _ children => { children := infos children }
  | _ => {}

def infos : List Tree → List NodeInfo
  | [] => []
  | t :: ts => t.info :: infos ts

end

/-- The context of a node after its markup is written. -/
def drawn (c : Context) (t : Tree) : Context :=
  { c with
    template := t.write Template.isVoidTag
    dynamic := { c.dynamic with children := t.info.children } }

/-- A visit of the node writes the tree and does nothing else. -/
def Draws (visit : Transform Unit) (n : Node) (t : Tree) : Prop :=
  ∀ c : Context, c.Fresh → c.node = n → c.isAbsorbed = false →
    (∀ parent, c.parent.bind (·.tag) = some parent → t.mayStandIn parent = true) →
    visit c = .ok () (drawn c t)

theorem with_children_eq {d : NodeInfo} {ds : List NodeInfo} (h : ds = d.children) :
    { d with children := ds } = d := by
  subst h
  cases d
  rfl

theorem drawn_leaf (hc : c.Fresh) (ht : t.info.children = []) :
    drawn c t = c.write (t.write Template.isVoidTag) := by
  rw [drawn, with_children_eq (ht.trans hc.children.symm), Context.write, hc.template,
    String.empty_append]

section Visits

variable {o : Options} {visit : Transform Unit}

/-- Texts and comments are the business of one pass. -/
theorem visitWith_inline {n : Node} {t : Tree} (hpasses : o.passes = Pass.all)
    (hn : n.isInline = true) (ht : t.info.children = [])
    (hrun : ∀ c : Context, c.node = n → c.isAbsorbed = false →
      transformText o c = .ok () (c.write (t.write Template.isVoidTag))) :
    Draws (visitWith o visit) n t := by
  intro c hc hnode habsorbed _
  have hroot : c.isBlockRoot = false :=
    hc.isBlockRoot_eq fun f hf => by simp [← hnode, hf, Node.isInline] at hn
  have hdone : ∀ (ps : List Pass) (text : String), .texts ∉ ps → (c.write text).IsDone ps := by
    refine fun ps text hps => ⟨fun q hq => ?_, fun htexts => absurd htexts hps, hc.removed⟩
    change q.concerns c.node = false
    rw [hnode]
    cases n <;> cases q <;> simp_all [Node.isInline, Pass.concerns]
  have hbefore : c.IsDone (Pass.all.take 3) := by
    simpa [Context.write] using hdone (Pass.all.take 3) "" (by decide)
  have hsplit : o.passes = Pass.all.take 3 ++ .texts :: Pass.all.drop 4 := hpasses
  rw [drawn_leaf hc ht]
  exact visitWith_lone_run hsplit rfl hbefore (hrun c hnode habsorbed) (hdone _ _ (by decide)) hroot

theorem visitWith_text (hpasses : o.passes = Pass.all) (t : Template.TextNode) :
    Draws (visitWith o visit) (.text t) (.text t.data) := by
  refine visitWith_inline hpasses rfl rfl fun c hn habsorbed => ?_
  rw [Context.isAbsorbed] at habsorbed
  simp only [transformText, get_bind, habsorbed, Bool.false_eq_true, ite_false, hn, write_text,
    appendTemplate_run]

theorem visitWith_comment (hpasses : o.passes = Pass.all) (hcomments : o.comments = true)
    (data : String) (location : Location) :
    Draws (visitWith o visit) (.comment data location) (.comment data) := by
  refine visitWith_inline hpasses rfl rfl fun c hn habsorbed => ?_
  rw [Context.isAbsorbed] at habsorbed
  simp only [transformText, get_bind, habsorbed, Bool.false_eq_true, ite_false, hn, hcomments,
    ite_true, write_comment, appendTemplate_run]

/-! ## Elements -/

theorem infos_eq_map (ts : List Tree) : infos ts = ts.map Tree.info := by
  induction ts with
  | nil => rfl
  | cons t ts ih => rw [infos, ih, List.map_cons]

theorem Tree.isDynamic_info (t : Tree) : t.info.isDynamic = false := by
  cases t <;> rfl

theorem Tree.info_eq (t : Tree) : t.info = { children := t.info.children } := by
  cases t <;> rfl

/-- The context of an element after its children are visited. -/
def walked (c : Context) (ts : List Tree) : Context :=
  { c with
    childrenTemplate := c.childrenTemplate ++ ts.map (·.write Template.isVoidTag)
    dynamic := { c.dynamic with children := c.dynamic.children ++ infos ts } }

theorem adopt_drawn (c : Context) (n : Node) (i : Nat) (frame : Frame) (t : Tree) :
    c.adopt false (drawn (c.child n i frame) t) = walked c [t] := by
  have hdynamic : (drawn (c.child n i frame) t).dynamic = t.info := t.info_eq.symm
  rw [Context.adopt, hdynamic, t.isDynamic_info, Bool.or_false]
  rfl

/-- The children of an element are written one after another. -/
theorem visitChildren_static {parent : String} {frame : Frame} {i : Nat}
    (hdraws : List.Forall₂ (Draws visit) ns ts) (htag : frame.tag = some parent)
    (hrest : frame.children.drop i = ns) (hconsumed : frame.consumedUntil = 0)
    (hnested : ∀ t ∈ ts, t.mayStandIn parent = true) (c : Context) :
    visitChildren visit false frame i ns c = .ok () (walked c ts) := by
  induction hdraws generalizing i c with
  | nil =>
    have hwalked : walked c [] = c := by
      rw [walked, with_children_eq (by simp [infos]), List.map_nil, List.append_nil]
    rw [hwalked]
    rfl
  | @cons n t ns ts hdraw _ ih =>
    have hframe : frame.Covers i (n :: ns) := ⟨hrest, by simp [hconsumed]⟩
    have habsorbed : (c.child n i frame).isAbsorbed = false := by
      simp [Context.isAbsorbed, Context.child, hconsumed]
    have hrun := hdraw _ (hframe.child_fresh c) rfl habsorbed fun p hp => by
      obtain rfl : parent = p := by simpa [Context.child, htag] using hp
      exact hnested t (by simp)
    have hsettled :
        (drawn (c.child n i frame) t).settled false = drawn (c.child n i frame) t := rfl
    rw [visitChildren_cons_run hrun rfl, hsettled, adopt_drawn,
      ih hframe.next.rest fun u hu => hnested u (by simp [hu])]
    simp [walked, infos]

theorem insertAll_of_static (h : ∀ d ∈ c.dynamic.children, d.flags.insert = false) :
    c.insertAll = c := by
  have hruns := insertions_runs [] false (c.dynamic.children.zipIdx.map Prod.swap)
  have hnone : (c.dynamic.children.zipIdx.map Prod.swap).filter (·.2.flags.insert) = [] := by
    refine List.filter_eq_nil_iff.mpr fun x hx => ?_
    obtain ⟨y, hy, rfl⟩ := List.mem_map.mp hx
    simpa using h y.1 (List.fst_mem_of_mem_zipIdx hy)
  rw [hnone, List.append_nil] at hruns
  have hempty : insertions [] false (c.dynamic.children.zipIdx.map Prod.swap) = [] :=
    List.eq_nil_iff_forall_not_mem.mpr fun insertion hmem =>
      insertions_ne_nil insertion hmem (List.flatMap_eq_nil_iff.mp hruns insertion hmem)
  rw [Context.insertAll, hempty]
  rfl

theorem transformContainer_static (h : ofNodes? e.children = some ts) :
    transformContainer o e c = .ok () c := by
  have hnodes : ∀ n ∈ e.children, ∃ t, ofNode? n = some t := by
    intro n hn
    obtain ⟨i, hi, rfl⟩ := List.mem_iff_getElem.mp hn
    have hpairs := forall₂_of_ofNodes? h
    exact ⟨_, hpairs.get hi (hpairs.length_eq ▸ hi)⟩
  generalize ht : transformContainer o e = t
  unfold transformContainer at ht
  split at ht
  · rename_i code hcode
    obtain ⟨t, ht⟩ := hnodes (.rawMarkup code) (by simp [hcode])
    simp [ofNode?] at ht
  · subst ht
    have hany : e.children.any (·.isInterpolation) = false := by
      refine List.any_eq_false.mpr fun n hn => ?_
      obtain ⟨t, ht⟩ := hnodes n hn
      cases n <;> simp_all [ofNode?, Node.isInterpolation]
    simp [hany]

theorem finishNative_static (hscope : o.scopeId = none)
    (hreserved : ∀ a ∈ attrs, isReservedProp a.name = false) (hnodup : (attrs.map (·.name)).Nodup)
    (hplace : c.isMisplaced e = false) : finishNative o e (attrs.map .fixed) c =
      .ok () ((c.closed e).write ("<" ++ e.name ++
        writeAttributes (attrs.map fun a => (a.name, a.value)) ++ ">" ++ c.content e)) := by
  have hclosed : (c.closed e).isMisplaced e = false := by
    rw [Context.isMisplaced, c.closed_parent]
    exact hplace
  rw [finishNative, ← bind_assoc, bind_run (placeProps_static hreserved hnodup),
    bind_run contentMarkup_run, placeMarkup_run, Context.place, hclosed, hscope]
  simp

/-- The markup of an element holds that of its children, unless it has no content. -/
theorem closed_walked (hc : c.Fresh) (hvoid : Template.isVoidTag e.name = true → ts = []) :
    (Context.closed (walked c ts) e).write
      ("<" ++ e.name ++ writeAttributes pairs ++ ">" ++ (walked c ts).content e) =
      drawn c (.element e.name pairs ts) := by
  have hempty : (Context.closed (walked c ts) e).childrenTemplate = [] := by
    unfold Context.closed walked
    split
    · rename_i h
      simp [hvoid h, hc.childrenTemplate]
    · rfl
  have hcontent : (walked c ts).content e =
      if Template.isVoidTag e.name then ""
      else String.join (ts.map (·.write Template.isVoidTag)) ++ "</" ++ e.name ++ ">" := by
    simp [Context.content, walked, hc.childrenTemplate]
  have hsame : Context.closed (walked c ts) e =
      { walked c ts with
        childrenTemplate := (Context.closed (walked c ts) e).childrenTemplate } := by
    unfold Context.closed
    split <;> rfl
  rw [hsame, hempty, hcontent, drawn, Tree.write_element]
  simp [Context.write, walked, hc.template, hc.childrenTemplate, hc.children, Tree.info]

theorem visitWith_element (hpasses : o.passes = Pass.all) (hscope : o.scopeId = none)
    (hkind : e.kind = .regular) (hpairs : e.attributes.mapM ofAttribute? = some pairs)
    (hts : ofNodes? e.children = some ts)
    (hregular : (Tree.element e.name pairs ts).isRegular = true)
    (hvoid : Template.isVoidTag e.name = true → ts = [])
    (hdraws : List.Forall₂ (Draws visit) e.children ts) :
    Draws (visitWith o visit) (.element e) (.element e.name pairs ts) := by
  intro c hc hn habsorbed hparent
  obtain ⟨attrs, hprops, rfl⟩ := ofAttributes_static hpairs
  simp only [Tree.isRegular, Bool.and_eq_true, List.all_eq_true, List.mem_map,
    decide_eq_true_eq, List.map_map] at hregular
  obtain ⟨⟨hreserved, hnodup⟩, hnested⟩ := hregular
  have hbefore : c.IsDone (Pass.all.take 3) :=
    ⟨by simp [Pass.all, Pass.concerns, hn, hkind], fun _ => habsorbed, hc.removed⟩
  have htexts : Pass.texts.run o visit c = .ok [] c := by
    rw [Context.isAbsorbed] at habsorbed
    have hrun : transformText o c = .ok () c := by
      simp only [transformText, get_bind, habsorbed, Bool.false_eq_true, ite_false, hn, hkind,
        beq_self_eq_true, ite_true, transformContainer_static hts]
    rw [Pass.run, bind_run hrun, pure_run]
  have helements : Pass.elements.run o visit c = .ok [.element] c := by
    simp [Pass.run, transformElement, hn, hkind]
  have hslots : Pass.componentSlots.run o visit c = .ok [] c :=
    run_of_not_concerns (by simp [Pass.concerns, hn, hkind]) (by simp)
  have hchildren : Pass.children.run o visit c = .ok [] (walked c ts) := by
    have hframe : (Frame.ofNode c.node c.consumedChildren).tag = some e.name := by
      simp [Frame.ofNode, hn, Node.element?]
    have hrest : (Frame.ofNode c.node c.consumedChildren).children.drop 0 = e.children := by
      simp [Frame.ofNode, hn, Node.children]
    have hwalk := visitChildren_static hdraws hframe hrest hc.consumedChildren
      (fun t ht => (areRegularIn_iff.mp hnested t ht).1) c
    have hinsert : (walked c ts).insertAll = walked c ts := by
      refine insertAll_of_static fun d hd => ?_
      rw [walked, hc.children, List.nil_append, infos_eq_map] at hd
      obtain ⟨t, -, rfl⟩ := List.mem_map.mp hd
      rw [t.info_eq]
    have hrun : transformChildren visit c = .ok () (walked c ts) := by
      rw [transformChildren, get_bind]
      simp only [hn, hkind, beq_self_eq_true, ite_true] at hwalk ⊢
      rw [bind_run hwalk, insertChildren_run, hinsert]
    rw [Pass.run, bind_run hrun, pure_run]
  have hall : runPasses o visit o.passes c = .ok (some [.element]) (walked c ts) := by
    have hsplit : o.passes = Pass.all.take 3 ++ [.texts, .elements, .componentSlots, .children] :=
      hpasses
    rw [hsplit, hbefore.runPasses_append]
    exact runPasses_cons_run htexts hc.removed
      (runPasses_cons_run helements hc.removed
        (runPasses_cons_run hslots hc.removed
          (runPasses_cons_run hchildren hc.removed (runPasses_nil_run _))))
  have hplace : (walked c ts).isMisplaced e = false := by
    change c.isMisplaced e = false
    unfold Context.isMisplaced
    cases htag : c.parent.bind (·.tag) with
    | none => rfl
    | some parent => simpa [Tree.mayStandIn] using hparent parent htag
  have hfinish : ([Exit.element].reverse.forM (·.run o)) (walked c ts) =
      .ok () (drawn c (.element e.name (attrs.map fun a => (a.name, a.value)) ts)) := by
    have hnative := finishNative_static hscope (fun a ha => by simpa using hreserved _ ⟨a, ha, rfl⟩)
      (by simpa [Function.comp_def] using hnodup) hplace
    have hcomponent : ¬e.isComponent = true := by simp [Element.isComponent, hkind]
    have hnode : (walked c ts).node.element? = some e := by simp [walked, hn, Node.element?]
    have hfinal : finishElement o (walked c ts) = .ok () ((Context.closed (walked c ts) e).write
        ("<" ++ e.name ++ writeAttributes (attrs.map fun a => (a.name, a.value)) ++ ">" ++
          (walked c ts).content e)) := by
      rw [finishElement, get_bind, hnode]
      dsimp only
      rw [hprops, bind_run (ofExcept_eq_ok.mpr ⟨rfl, rfl⟩), if_neg hcomponent, hnative]
    change (finishElement o >>= fun _ => pure ()) (walked c ts) = _
    rw [bind_pure_unit, hfinal, closed_walked hc hvoid]
  exact visitWith_run hall hfinish (hc.isBlockRoot_eq (by simp [hn]))

/-! ## Visits -/

/-- What holds of all nodes that stand for trees holds of the nodes of a list. -/
theorem forall₂_draws {depth : Nat} {ns : List Node} {ts : List Tree} {afterText : Bool}
    (hdraws : ∀ {n t}, n.size ≤ depth → ofNode? n = some t →
      t.isWritable Template.isVoidTag = true → t.isRegular = true → Draws visit n t)
    (hns : ofNodes? ns = some ts) (hdepth : Template.nodesSize ns ≤ depth)
    (hwritable : areWritable Template.isVoidTag afterText ts = true)
    (hregular : ∀ t ∈ ts, t.isRegular = true) : List.Forall₂ (Draws visit) ns ts := by
  have hpairs := forall₂_of_ofNodes? hns
  clear hns
  induction hpairs generalizing afterText with
  | nil => exact .nil
  | @cons n t ns ts hn _ ih =>
    rw [Template.nodesSize] at hdepth
    simp only [areWritable, Bool.and_eq_true] at hwritable
    refine .cons (hdraws (by omega) hn hwritable.1.1 (hregular t (by simp))) ?_
    exact ih (by omega) hwritable.2 fun u hu => hregular u (by simp [hu])

/-- A node that stands for a tree is written as this tree. -/
theorem draws_of_ofNode? (hpasses : o.passes = Pass.all) (hcomments : o.comments = true)
    (hscope : o.scopeId = none) (depth : Nat) {n : Node} (hdepth : n.size ≤ depth)
    (hn : ofNode? n = some t) (hwritable : t.isWritable Template.isVoidTag = true)
    (hregular : t.isRegular = true) : Draws (TemplateCompiler.visit o depth) n t := by
  induction depth generalizing n t with
  | zero => cases n <;> simp [Node.size] at hdepth
  | succ depth ih =>
    change Draws (visitWith o (TemplateCompiler.visit o depth)) n t
    cases n with
    | text text =>
      obtain rfl : Tree.text text.data = t := by simpa [ofNode?] using hn
      exact visitWith_text hpasses text
    | comment data location =>
      obtain rfl : Tree.comment data = t := by simpa [ofNode?] using hn
      exact visitWith_comment hpasses hcomments data location
    | element e =>
      obtain ⟨name, kind, attributes, children, location⟩ := e
      simp only [ofNode?, ofElement?, Option.ite_none_right_eq_some, Option.bind_eq_bind,
        Option.bind_eq_some_iff, Option.some.injEq] at hn
      obtain ⟨hkind, pairs, hpairs, ts, hts, rfl⟩ := hn
      have hsize : Template.nodesSize children ≤ depth := by
        simp only [Node.size, Element.size] at hdepth
        omega
      have hinside := hwritable
      simp only [Tree.isWritable, Bool.and_eq_true, Bool.or_eq_true] at hinside
      have hnested := hregular
      simp only [Tree.isRegular, Bool.and_eq_true] at hnested
      refine visitWith_element hpasses hscope hkind hpairs hts hregular (fun hvoid => ?_) ?_
      · simpa [hvoid] using hinside.1.2
      · exact forall₂_draws ih hts hsize hinside.2 fun t ht =>
          (areRegularIn_iff.mp hnested.2 t ht).2
    | _ => simp [ofNode?] at hn

end Visits

/-! ## Compiled templates -/

/-- The children of a fragment have been visited: each has an id and markup that reads as its
tree. -/
structure RootsDrawn (ts : List Tree) (c c' : Context) (ks : List NodeInfo) : Prop where
  same : c.SamePlace c'
  operations : c'.block.operations = c.block.operations
  effects : c'.block.effects = c.block.effects
  returns : c'.block.returns = c.block.returns ++ List.range' c.session.nextId ts.length
  templates : c.session.templates <+: c'.session.templates
  children : c'.dynamic.children = c.dynamic.children ++ ks
  length : ks.length = ts.length
  drawn : ∀ (i : Nat) t, ts[i]? = some t → ∃ d j, ks[i]? = some d ∧
    d.id = some (c.session.nextId + i) ∧ d.template = some j ∧
    c'.session.templates[j]? = some (t.write Template.isVoidTag)

/-- A child of a fragment receives an id, and its markup a number. -/
theorem settled_drawn (c : Context) (n : Node) (i : Nat) (frame : Frame)
    (hwritten : t.write Template.isVoidTag ≠ "") {k : Context}
    (hk : (drawn (c.child n i frame) t).settled true = k) :
    k.block = { c.block with returns := c.block.returns ++ [c.session.nextId] } ∧
      k.session.nextId = c.session.nextId + 1 ∧ c.session.templates <+: k.session.templates ∧
      k.dynamic.id = some c.session.nextId ∧
      ∃ j, k.dynamic.template = some j ∧
        k.session.templates[j]? = some (t.write Template.isVoidTag) := by
  have hregistered : (drawn (c.child n i frame) t).settled true =
      (drawn (c.child n i frame) t).returned := rfl
  have hempty : ((t.write Template.isVoidTag).isEmpty) = false := by simpa using hwritten
  rw [hregistered] at hk
  simp only [Context.returned, Context.registered, Context.referenced, drawn, Context.child,
    Context.ownId, Option.isSome_none, Bool.false_eq_true, ite_false, hempty, Option.getD_none,
    Flags.union, Bool.or_false, Bool.false_or, Bool.not_false, ite_true] at hk
  subst hk
  exact ⟨rfl, Session.nextId_addTemplate _ _, c.session.allocateId.2.templates_addTemplate _, rfl,
    _, rfl, Session.getElem?_addTemplate _ _⟩

theorem visitChildren_roots {visit : Transform Unit} {frame : Frame} {i : Nat}
    (hdraws : List.Forall₂ (Draws visit) ns ts)
    (hwritten : ∀ t ∈ ts, t.write Template.isVoidTag ≠ "") (htag : frame.tag = none)
    (hrest : frame.children.drop i = ns) (hconsumed : frame.consumedUntil = 0) (c : Context) :
    ∃ c' ks, visitChildren visit true frame i ns c = .ok () c' ∧ RootsDrawn ts c c' ks := by
  induction hdraws generalizing i c with
  | nil => exact ⟨c, [], rfl, .refl c, rfl, rfl, by simp, List.prefix_refl _, by simp, rfl, by simp⟩
  | @cons n t ns ts hdraw _ ih =>
    have hframe : frame.Covers i (n :: ns) := ⟨hrest, by simp [hconsumed]⟩
    have habsorbed : (c.child n i frame).isAbsorbed = false := by
      simp [Context.isAbsorbed, Context.child, hconsumed]
    have hrun := hdraw _ (hframe.child_fresh c) rfl habsorbed fun p hp => by
      simp [Context.child, htag] at hp
    generalize hk : (drawn (c.child n i frame) t).settled true = k
    obtain ⟨hblock, hnext, hprefix, hid, j, hj, htext⟩ :=
      settled_drawn c n i frame (hwritten t (by simp)) hk
    obtain ⟨c', ks, hwalk, hroots⟩ := ih (fun u hu => hwritten u (by simp [hu]))
      hframe.next.rest (c.adopt true k)
    refine ⟨c', k.dynamic :: ks, ?_, ?_, ?_, ?_, ?_, ?_, ?_, ?_, ?_⟩
    · rw [visitChildren_cons_run hrun rfl, hk, hwalk]
    · have hadopt : c.SamePlace (c.adopt true k) := ⟨rfl, rfl, rfl, rfl, rfl, rfl, rfl, rfl⟩
      exact hadopt.trans hroots.same
    · rw [hroots.operations, Context.adopt, hblock]
    · rw [hroots.effects, Context.adopt, hblock]
    · rw [hroots.returns, Context.adopt, hblock]
      simp [hnext, List.range'_succ]
    · exact hprefix.trans hroots.templates
    · rw [hroots.children]
      simp [Context.adopt]
    · simp [hroots.length]
    · intro m u hu
      cases m with
      | zero =>
        obtain rfl : t = u := by simpa using hu
        obtain ⟨more, hmore⟩ := hroots.templates
        refine ⟨k.dynamic, j, rfl, hid, hj, ?_⟩
        obtain ⟨hlt, -⟩ := List.getElem?_eq_some_iff.mp htext
        rw [← hmore]
        exact (List.getElem?_append_left hlt).trans htext
      | succ m =>
        obtain ⟨d, x, hd, hdid, hx, hxtext⟩ := hroots.drawn m u (by simpa using hu)
        refine ⟨d, x, by simpa using hd, ?_, hx, hxtext⟩
        rw [hdid]
        change some (k.session.nextId + m) = _
        rw [hnext]
        congr 1
        omega

theorem write_ne_empty (h : t.isWritable Template.isVoidTag = true) :
    t.write Template.isVoidTag ≠ "" := by
  cases t with
  | text data =>
    rw [write_text, ne_eq, escapeText_eq_empty_iff]
    simpa [Tree.isWritable] using h
  | comment data => simp [write_comment, ← String.toList_eq_nil_iff]
  | element name attributes children => simp [Tree.write_element, ← String.toList_eq_nil_iff]

theorem isWritable_of_mem {isVoid : String → Bool} {afterText : Bool}
    (h : areWritable isVoid afterText ts = true) : ∀ t ∈ ts, t.isWritable isVoid = true := by
  induction ts generalizing afterText with
  | nil => simp
  | cons t ts ih =>
    simp only [areWritable, Bool.and_eq_true] at h
    simpa using ⟨h.1.1, ih h.2⟩

/-- A template of elements, texts and comments whose attributes are all text needs no operations.
Its block returns its children in order, and the markup of each child reads as the child. -/
theorem compile_static_reads_back {o : Options} {root : Fragment} {ts : List Tree}
    (hpasses : o.passes = Pass.all) (hblanks : o.preserveBlanks = true)
    (hcomments : o.comments = true) (hscope : o.scopeId = none)
    (hserver : o.serverRendering = false) (hts : ofNodes? root.children = some ts)
    (hwritable : areWritable Template.isVoidTag false ts = true)
    (hregular : ∀ t ∈ ts, t.isRegular = true) :
    ∃ r, compile o root = .ok r ∧ r.block.operations = [] ∧ r.block.effects = [] ∧
      r.block.returns = List.range' 1 root.children.length ∧
      r.block.dynamic.children.length = root.children.length ∧
      ∀ (i : Nat) t, ts[i]? = some t → ∃ d j markup,
        r.block.dynamic.children[i]? = some d ∧ d.id = some (i + 1) ∧ d.template = some j ∧
        r.templates[j]? = some markup ∧ read Template.isVoidTag markup = some [t] := by
  have hprepare : o.prepare root = root := by simp [Options.prepare, hblanks]
  obtain ⟨depth, hdepth, hsize⟩ : ∃ depth, visitDepth (.fragment root) = depth + 1 ∧
      Template.nodesSize root.children ≤ depth := by
    obtain ⟨children, location⟩ := root
    refine ⟨2 * Template.nodesSize children + 3, ?_, by dsimp only; omega⟩
    simp only [visitDepth, Node.size, Fragment.size]
    omega
  have hdraws : List.Forall₂ (Draws (visit o depth)) root.children ts :=
    forall₂_draws (fun hn => draws_of_ofNode? hpasses hcomments hscope depth hn) hts hsize hwritable
      hregular
  have hwritten := fun t ht => write_ne_empty (isWritable_of_mem hwritable t ht)
  obtain ⟨c', ks, hwalk, hroots⟩ := visitChildren_roots hdraws hwritten
    (show (Frame.ofNode (.fragment root) 0).tag = none from rfl) List.drop_zero rfl
    (Context.newBlock (.fragment root) {})
  have hvisit : visit o (depth + 1) (Context.newBlock (.fragment root) {}) = .ok () c' :=
    (visitWith_fragment hpasses (Context.newBlock_fresh root {}) rfl).trans hwalk
  have hlength : ts.length = root.children.length := (forall₂_of_ofNodes? hts).length_eq.symm
  have hchildren : c'.dynamic.children = ks := hroots.children
  refine ⟨_, by rw [compile_eq hserver, hprepare, hdepth, hvisit], hroots.operations,
    hroots.effects, ?_, ?_, fun i t ht => ?_⟩
  · rw [← hlength]
    exact hroots.returns
  · rw [← hlength, ← hroots.length, ← hchildren]
  · obtain ⟨d, j, hd, hid, hj, hmarkup⟩ := hroots.drawn i t ht
    refine ⟨d, j, _, hchildren ▸ hd, ?_, hj, hmarkup, ?_⟩
    · rw [hid, Nat.add_comm i 1]
      rfl
    · exact read_write (isWritable_of_mem hwritable t (List.mem_of_getElem? ht))

/-- An article with characters that markup has to escape. -/
def articleTemplate : Fragment :=
  ⟨[.element ⟨"p", .regular,
      [.plain "title" (.chunks [.text ⟨"a \x22b\x22 & c", "", {}⟩]) {}, .plain "hidden" .absent {}],
      [.text ⟨"1 < 2", "", {}⟩, .element ⟨"br", .regular, [], [], {}⟩, .comment "> -" {},
        .text ⟨"&amp;", "", {}⟩], {}⟩,
    .text ⟨"x", "x", {}⟩,
    .element ⟨"p", .regular, [], [], {}⟩], {}⟩

def articleTrees : List Tree :=
  [.element "p" [("title", "a \x22b\x22 & c"), ("hidden", "")]
      [.text "1 < 2", .element "br" [] [], .comment "> -", .text "&amp;"],
    .text "x",
    .element "p" [] []]

theorem compile_static_reads_back_articleTemplate :
    ofNodes? articleTemplate.children = some articleTrees ∧
    ∃ r, compile { preserveBlanks := true } articleTemplate = .ok r ∧
      r.block.operations = [] ∧ r.block.effects = [] ∧
      r.block.returns = List.range' 1 articleTemplate.children.length ∧
      r.block.dynamic.children.length = articleTemplate.children.length ∧
      ∀ (i : Nat) t, articleTrees[i]? = some t → ∃ d j markup,
        r.block.dynamic.children[i]? = some d ∧ d.id = some (i + 1) ∧ d.template = some j ∧
        r.templates[j]? = some markup ∧ read Template.isVoidTag markup = some [t] :=
  ⟨rfl, compile_static_reads_back rfl rfl rfl rfl rfl rfl (by decide +kernel) (by decide +kernel)⟩

/-- An element whose tag begins like a comment, and a comment. -/
def commentTagTemplate : Fragment :=
  ⟨[.element ⟨"!--", .regular, [], [], {}⟩, .comment "></!" {}], {}⟩

/-- Names free of blanks and of the characters of tags are not enough: a tag may begin like a
comment. Then two children have the same markup, and no way of reading gives back both. -/
theorem commentTagTemplate_not_read_back :
    ofNodes? commentTagTemplate.children = some [.element "!--" [] [], .comment "></!"] ∧
    isName "!--" = true ∧ isCommentData "></!" = true ∧
    ∃ r, compile { preserveBlanks := true } commentTagTemplate = .ok r ∧
      ¬∃ reader : String → Option (List Tree), ∀ (i : Nat) t,
        [Tree.element "!--" [] [], .comment "></!"][i]? = some t → ∃ d j markup,
          r.block.dynamic.children[i]? = some d ∧ d.template = some j ∧
          r.templates[j]? = some markup ∧ reader markup = some [t] := by
  refine ⟨rfl, by decide +kernel, by decide +kernel, ?_⟩
  obtain ⟨r, hr, hok⟩ := exists_ok_of_map (x := compile { preserveBlanks := true } commentTagTemplate)
    (f := fun r => r.block.dynamic.children.map (·.template)) (b := [some 0, some 0])
    (by decide +kernel)
  refine ⟨r, hr, fun ⟨reader, hreader⟩ => ?_⟩
  obtain ⟨d, j, markup, hd, hj, hmarkup, hread⟩ := hreader 0 _ rfl
  obtain ⟨d', j', markup', hd', hj', hmarkup', hread'⟩ := hreader 1 _ rfl
  have htemplate : ∀ (i : Nat) k, r.block.dynamic.children[i]? = some k → i < 2 →
      k.template = some 0 := by
    intro i k hk hi
    have hmap := congrArg (·[i]?) hok
    match i with
    | 0 | 1 => simpa [hk] using hmap
  obtain rfl : 0 = j := Option.some.inj ((htemplate 0 d hd (by decide)).symm.trans hj)
  obtain rfl : 0 = j' := Option.some.inj ((htemplate 1 d' hd' (by decide)).symm.trans hj')
  obtain rfl : markup = markup' := Option.some.inj (hmarkup.symm.trans hmarkup')
  simp [hread] at hread'

end TemplateCompiler.Markup
