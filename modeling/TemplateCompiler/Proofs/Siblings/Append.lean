import TemplateCompiler.Proofs.Ids.Conservation
import TemplateCompiler.Proofs.Siblings.Visits

/-! # Templates side by side

The children of two templates, one after the other, compile to what each of them compiles to, one
after the other.
-/

namespace TemplateCompiler

open Template (Fragment Node)
open Transform

/-! ## Joined results -/

def NodeInfo.join (d d' : NodeInfo) : NodeInfo :=
  { d with
    children := d.children ++ d'.children
    hasDynamicChild := d.hasDynamicChild || d'.hasDynamicChild }

theorem NodeInfo.join_empty (d : NodeInfo) : d.join {} = d := by
  cases d
  simp [join]

/-- Where the ids and the markup of `b` go after `a`: beyond the ids that `a` has used besides that
of its root, and to where the same markup is. -/
def Compiled.after (a b : Compiled) : Renaming where
  shift := a.block.ownedIds.length - 1
  template := fun i => (joinNew a.templates b.templates).idxOf (b.templates.getD i "")

/-- The result `a`, followed by `b`. -/
def Compiled.join (a b : Compiled) : Compiled where
  templates := joinNew a.templates b.templates
  block :=
    { a.block.join (b.block.rename (a.after b)) with
      node := .fragment ⟨a.block.node.children ++ b.block.node.children, a.block.node.location⟩
      dynamic := a.block.dynamic.join (b.block.dynamic.rename (a.after b)) }
  components := joinNew a.components b.components
  directives := joinNew a.directives b.directives

/-! ## Walks of a root -/

namespace Context

/-- The context that has taken over all children of `k`. -/
def adoptAll (c k : Context) : Context :=
  { c with
    block := k.block
    session := k.session
    childrenTemplate := c.childrenTemplate ++ k.childrenTemplate
    dynamic := c.dynamic.join k.dynamic }

/-- A parent of which no more is known than the block and the session. -/
def bare (c : Context) : Context := { node := default, block := c.block, session := c.session }

theorem adoptAll_bare (c : Context) : c.adoptAll c.bare = c := by
  simp [adoptAll, bare, NodeInfo.join_empty]

theorem adoptAll_adopt (c b k : Context) (isFragment : Bool) :
    (c.adoptAll b).adopt isFragment k = c.adoptAll (b.adopt isFragment k) := by
  cases isFragment <;> simp [adoptAll, adopt, NodeInfo.join, Bool.or_assoc]

end Context

variable {o : Options} {v : Transform Unit} {isFragment : Bool}

/-- A walk over children knows no more of the parent than the block and the session. -/
theorem visitChildren_adoptAll (c b : Context) (frame : Frame) (i : Nat) (ns : List Node) :
    visitChildren v isFragment frame i ns (c.adoptAll b) =
      match visitChildren v isFragment frame i ns b with
      | .ok u k => .ok u (c.adoptAll k)
      | .error e k => .error e (c.adoptAll k) := by
  induction ns generalizing b frame i with
  | nil => rfl
  | cons n ns ih =>
    rw [visitChildren_cons_eq, visitChildren_cons_eq]
    have hchild : (c.adoptAll b).child n i frame = b.child n i frame := rfl
    rw [hchild]
    cases visitChild v isFragment (b.child n i frame) with
    | ok u k =>
      dsimp only
      rw [Context.adoptAll_adopt, ih]
    | error e k => rfl

/-- The context in which a walk over the children of a root begins. -/
def Context.start : Context :=
  { node := default, block := Block.empty, session := { nextId := 1 } }

/-- The walk over the children of a root. -/
def walkRoot (o : Options) (ns : List Node) : EStateM.Result Diagnostic Context Unit :=
  visitChildren (visit o (2 * Template.nodesSize ns + 3)) true ⟨none, ns, 0⟩ 0 ns Context.start

/-- What a template comes to whose children have been walked over. -/
def Context.toCompiled (root : Fragment) (k : Context) : Compiled where
  templates := k.session.templates
  block :=
    { k.block with
      node := .fragment root
      dynamic := NodeInfo.join { id := some 0, flags := { referenced := true } } k.dynamic }
  components := k.session.components
  directives := k.session.directives

/-- A visit of a root is a walk over its children. -/
theorem visit_root_eq (hpasses : o.passes = Pass.all) (root : Fragment) :
    visit o (visitDepth (.fragment root)) (Context.newBlock (.fragment root) {}) =
      match walkRoot o root.children with
      | .ok u k => .ok u ((Context.newBlock (.fragment root) {}).adoptAll k)
      | .error e k => .error e ((Context.newBlock (.fragment root) {}).adoptAll k) := by
  have hdepth : visitDepth (.fragment root) =
      2 * Template.nodesSize root.children + 3 + 1 := by
    cases root
    simp only [visitDepth, Node.size, Fragment.size]
    omega
  rw [hdepth, visit, visitWith_fragment hpasses (Context.newBlock_fresh root {}) rfl]
  exact visitChildren_adoptAll (Context.newBlock (.fragment root) {}) Context.start _ 0 _

theorem compile_eq_walk {root : Fragment} (hpasses : o.passes = Pass.all)
    (hserver : o.serverRendering = false) (hblanks : o.preserveBlanks = true) :
    compile o root =
      match walkRoot o root.children with
      | .ok _ k => .ok (k.toCompiled root)
      | .error e _ => .error e := by
  have hroot : o.prepare root = root := by simp [Options.prepare, hblanks]
  rw [compile_eq hserver, hroot, visit_root_eq hpasses]
  cases walkRoot o root.children <;> rfl

theorem length_ownedIds_toCompiled (hpasses : o.passes = Pass.all) {root : Fragment} {u : Unit}
    {k : Context} (h : walkRoot o root.children = .ok u k) :
    (k.toCompiled root).block.ownedIds.length = k.session.nextId := by
  have hmakes : MakesBlock (visit o (visitDepth (.fragment root))) (.fragment root) {}
      (k.toCompiled root).block k.session := by
    refine ⟨(Context.newBlock (.fragment root) {}).adoptAll k, ?_, rfl, rfl⟩
    rw [visit_root_eq hpasses, h]
  rw [(hmakes.ownedIds_perm hpasses).length_eq, List.length_range]

/-! ## Texts -/

theorem textEnds_of_apart {as bs : List Node}
    (h : bs.head?.any (·.isTextLike) = false ∨
      (as.reverse.takeWhile (·.isTextLike)).any (·.isInterpolation) = false) :
    TextEnds as bs := by
  intro n ms hsuffix hn
  rw [List.takeWhile_append]
  split
  · rename_i hlength
    have hall : (n :: ms).takeWhile (·.isTextLike) = n :: ms :=
      (List.takeWhile_prefix _).eq_of_length hlength
    rcases h with hbs | has
    · have hnil : bs.takeWhile (·.isTextLike) = [] := by
        cases bs with
        | nil => rfl
        | cons b bs => simp_all
      rw [hall, hnil, List.append_nil]
    · -- The interpolation would be among the text-like nodes that the first list ends with.
      obtain ⟨before, rfl⟩ := hsuffix
      have hlike : ∀ m ∈ (n :: ms).reverse, m.isTextLike = true := by
        intro m hm
        rw [List.mem_reverse, ← hall] at hm
        exact List.all_eq_true.mp List.all_takeWhile m hm
      have hmem : n ∈ (before ++ n :: ms).reverse.takeWhile (·.isTextLike) := by
        rw [List.reverse_append, List.takeWhile_append_of_pos hlike]
        exact List.mem_append_left _ (by simp)
      exact absurd hn (List.any_eq_false.mp has n hmem)
  · rfl

/-! ## One walk after another -/

/-- Nothing was there before. -/
def Shift.none : Shift := ⟨0, [], [], []⟩

/-- What a template that has been compiled leaves for the next one. -/
def Session.toShift (s : Session) : Shift := ⟨s.nextId - 1, s.templates, s.components, s.directives⟩

theorem Shift.none_fits {templates : List String} (h : templates.Nodup) :
    Shift.none.Fits .refl templates where
  shift := rfl
  template := by
    intro i text hi
    obtain ⟨hlt, rfl⟩ := List.getElem?_eq_some_iff.mp hi
    exact (by simp [Shift.none, h.idxOf_getElem])

variable {σ : Shift}

theorem Shift.Relates.bare {k : Context} {s : Session} (h : σ.Relates k.session s) :
    Corresponds σ k.block (Seat.root (default : Node).depth) k.bare
      { node := default, block := Block.empty, session := s } :=
  .fresh (Nat.le_refl _) .none (fun _ => rfl) h .nil fun _ _ => k.block.join_empty.symm

/-- A walk over `ns` among other children, from where those before it have left off, does what a
walk over `ns` alone does. -/
theorem walkRoot_goesOn {k : Context} (hs : σ.Relates k.session Context.start.session)
    {depth : Nat} (f : Frame) (before : List Node) {ns rest : List Node}
    (hdepth : 2 * Template.nodesSize ns ≤ depth) (htag : f.tag = none)
    (hchildren : f.children = before ++ (ns ++ rest))
    (hconsumed : f.consumedUntil - before.length = 0) (hends : TextEnds ns rest) :
    GoesOn σ k.block (Seat.root (default : Node).depth) Context.start.session (visit o depth) true f
      (before.length + ns.length) 0 rest
      (visitChildren (visit o depth) true f before.length (ns ++ rest) k.bare)
      (walkRoot o ns) := by
  let place : Seat :=
    { tag := none, children₁ := f.children, children₂ := ns, index₁ := before.length, index₂ := 0
      limit := ns.length, depth := 2 * Template.nodesSize ns
      index_le := Nat.zero_le _, length_le := Nat.le_refl _ }
  have hplace : place.Matches f ⟨none, ns, 0⟩ :=
    ⟨htag, rfl, rfl, rfl, hconsumed, Nat.zero_le _⟩
  have hrest : place.children₁.drop place.index₁ = ns ++ rest := by
    simp [place, hchildren]
  have hall : ∀ n ∈ ns, n.depth ≤ place.depth := fun n hn =>
    Nat.le_trans n.depth_le (Nat.mul_le_mul_left 2 (Template.size_le_nodesSize hn))
  have hvisits := agreeTo_visit σ o hdepth (Nat.le_add_right (2 * Template.nodesSize ns) 3)
  have htaken : place.limit - (place.index₂ + ns.length) = 0 := by simp [place]
  have hwalk : GoesOn σ k.block (Seat.root (default : Node).depth) Context.start.session
      (visit o depth) true f (before.length + ns.length)
      (place.limit - (place.index₂ + ns.length)) rest
      (visitChildren (visit o depth) true f before.length (ns ++ rest) k.bare) (walkRoot o ns) :=
    visitChildren_goesOn (q := place) hvisits (Nat.le_refl _) hplace hrest rfl hall hends hs.bare
  rwa [htaken] at hwalk

theorem relates_start : Shift.none.Relates Context.start.session Context.start.session where
  nextId := rfl
  templates := rfl
  components := rfl
  directives := rfl
  nodup := List.nodup_nil
  count := fun _ => rfl
  loopDepth := rfl

/-- After a template a new session begins, with what the template leaves before it. -/
theorem Corresponds.relates_toShift {p : Seat} {k₁ k₂ : Context}
    (h : Corresponds .none Block.empty p k₁ k₂)
    (hs : Context.start.session.Extends k₂.session) :
    k₁.session.toShift.Relates k₁.session Context.start.session where
  nextId := by
    have hnextId : k₁.session.nextId = k₂.session.nextId := h.session.nextId
    have hpos : 1 ≤ k₂.session.nextId := hs.nextId
    change k₁.session.nextId = 1 + (k₁.session.nextId - 1)
    omega
  templates := (joinNew_nil_right _).symm
  components := (joinNew_nil_right _).symm
  directives := (joinNew_nil_right _).symm
  nodup := List.nodup_nil
  count := fun name => (h.session.count name).trans (hs.count name)
  loopDepth := h.session.loopDepth.trans hs.loopDepth

/-- What two walks come to, one after the other. -/
theorem toCompiled_adoptAll {as bs : List Node} {l : Location} {p : Seat}
    {k₁ k₂ l₁ l₂ : Context} (hk : Corresponds .none Block.empty p k₁ k₂)
    (hl : Corresponds k₁.session.toShift k₁.block p l₁ l₂)
    (hids : (k₂.toCompiled ⟨as, l⟩).block.ownedIds.length = k₂.session.nextId) :
    (k₁.adoptAll l₁).toCompiled ⟨as ++ bs, l⟩ =
      (k₂.toCompiled ⟨as, l⟩).join (l₂.toCompiled ⟨bs, l⟩) := by
  have hrefl := Shift.none_fits hk.session.nodup
  have hblock : k₁.block = Block.empty.join k₂.block := by
    rw [hk.block _ hrefl, Block.rename_refl]
  have hdynamic : k₁.dynamic = k₂.dynamic := by
    rw [hk.dynamic _ hrefl, NodeInfo.rename_refl]
  have hnextId : k₁.session.nextId = k₂.session.nextId := hk.session.nextId
  have htemplates : k₁.session.templates = k₂.session.templates := by
    rw [hk.session.templates, Shift.none, joinNew_nil_left]
  have hcomponents : k₁.session.components = k₂.session.components := by
    rw [hk.session.components, Shift.none, joinNew_nil_left]
  have hdirectives : k₁.session.directives = k₂.session.directives := by
    rw [hk.session.directives, Shift.none, joinNew_nil_left]
  have hr : k₁.session.toShift.Fits ((k₂.toCompiled ⟨as, l⟩).after (l₂.toCompiled ⟨bs, l⟩))
      l₂.session.templates := by
    have hafter : (k₂.toCompiled ⟨as, l⟩).after (l₂.toCompiled ⟨bs, l⟩) =
        k₁.session.toShift.toRenaming l₂.session.templates := by
      rw [Compiled.after, hids, ← hnextId]
      simp only [Context.toCompiled, ← htemplates]
      rfl
    rw [hafter]
    exact Shift.fits_toRenaming _ _
  have hlater := hl.block _ hr
  have hlast := hl.dynamic _ hr
  rw [Compiled.join]
  generalize (k₂.toCompiled ⟨as, l⟩).after (l₂.toCompiled ⟨bs, l⟩) = r at hlater hlast
  have heffects := joinEffects_nil hk.distinct
  simp only [Context.toCompiled, Context.adoptAll, hl.session.templates, hl.session.components,
    hl.session.directives, Session.toShift, htemplates, hcomponents, hdirectives, hlater, hlast,
    hblock, hdynamic, Compiled.mk.injEq, true_and, and_true]
  cases l₂.block
  cases l₂.dynamic
  simp [Block.join, Block.rename, Block.empty, NodeInfo.join, NodeInfo.rename, heffects,
    renameNodes_eq_map, Node.children, Node.location]

/-! ## Compiled templates -/

/-- If no text with an interpolation goes on from one list of children to the other, compiling both
lists as one template joins the results of compiling each. It fails if one of them fails, with the
error of the first that does. -/
theorem compile_append {as bs : List Node} {l : Location} (hpasses : o.passes = Pass.all)
    (hblanks : o.preserveBlanks = true)
    (hapart : bs.head?.any (·.isTextLike) = false ∨
      (as.reverse.takeWhile (·.isTextLike)).any (·.isInterpolation) = false) :
    compile o ⟨as ++ bs, l⟩ = (do
      let a ← compile o ⟨as, l⟩
      let b ← compile o ⟨bs, l⟩
      return a.join b) := by
  cases hserver : o.serverRendering with
  | true => simp [compile, hserver, bind, Except.bind]
  | false =>
    -- The depth that suffices for both lists suffices for each, so all three walks can be
    -- compared at it.
    have hsize := Template.nodesSize_append as bs
    have has : 2 * Template.nodesSize as ≤ 2 * Template.nodesSize (as ++ bs) + 3 := by omega
    have hbs : 2 * Template.nodesSize bs ≤ 2 * Template.nodesSize (as ++ bs) + 3 := by omega
    have hfirst : GoesOn .none Block.empty (Seat.root (default : Node).depth)
        Context.start.session (visit o (2 * Template.nodesSize (as ++ bs) + 3)) true
        ⟨none, as ++ bs, 0⟩ (0 + as.length) 0 bs (walkRoot o (as ++ bs)) (walkRoot o as) :=
      walkRoot_goesOn relates_start ⟨none, as ++ bs, 0⟩ [] has rfl rfl rfl
        (textEnds_of_apart hapart)
    rw [Nat.zero_add] at hfirst
    rw [compile_eq_walk hpasses hserver hblanks, compile_eq_walk hpasses hserver hblanks,
      compile_eq_walk hpasses hserver hblanks]
    dsimp only
    generalize walkRoot o (as ++ bs) = r at hfirst
    generalize hwalk : walkRoot o as = r' at hfirst
    cases hfirst with
    | error e k₁ k₂ => rfl
    | @ok k₁ k₂ f hk hs htag hchildren hconsumed =>
      -- The rest of the walk starts from what `as` has left behind. As `bs` reads none of it,
      -- only its ids, its markup and its effects are other than in a walk of its own.
      have hsecond := walkRoot_goesOn (o := o) (hk.relates_toShift hs) f as hbs htag
        (hchildren.trans (by rw [List.append_nil])) (Nat.le_zero.mp hconsumed)
        (textEnds_nil bs)
      rw [List.append_nil] at hsecond
      rw [← k₁.adoptAll_bare, visitChildren_adoptAll]
      generalize visitChildren _ _ f as.length bs k₁.bare = r at hsecond
      generalize walkRoot o bs = r' at hsecond
      cases hsecond with
      | error e l₁ l₂ => rfl
      | ok hl _ _ _ _ =>
        have hids : (k₂.toCompiled ⟨as, l⟩).block.ownedIds.length = k₂.session.nextId :=
          length_ownedIds_toCompiled hpasses hwalk
        exact congrArg Except.ok (toCompiled_adoptAll hk hl hids)

/-- Nodes with an effect, a component and markup that the nodes below have, too. -/
def headerNodes : List Node :=
  [.element ⟨"p", .regular, [.plain "id" (.chunks [.code ⟨"a", {}⟩]) {}], [], {}⟩,
    .element ⟨"Menu", .component, [], [], {}⟩,
    .interpolation ⟨"b", {}⟩,
    .comment "c" {},
    .text ⟨"d", "d", {}⟩]

def footerNodes : List Node :=
  [.text ⟨"e", "e", {}⟩,
    .ifBlock ⟨⟨"f", {}⟩, ⟨[.element ⟨"p", .regular, [], [], {}⟩], {}⟩, none, false, {}⟩,
    .element ⟨"Menu", .component, [], [], {}⟩,
    .element ⟨"p", .regular, [.plain "title" (.chunks [.code ⟨"a", {}⟩]) {}], [], {}⟩]

theorem compile_append_headerNodes :
    ∃ a b, compile { preserveBlanks := true } ⟨headerNodes, {}⟩ = .ok a ∧
      compile { preserveBlanks := true } ⟨footerNodes, {}⟩ = .ok b ∧
      compile { preserveBlanks := true } ⟨headerNodes ++ footerNodes, {}⟩ = .ok (a.join b) := by
  obtain ⟨a, ha⟩ := exists_eq_ok (x := compile { preserveBlanks := true } ⟨headerNodes, {}⟩)
    (by decide +kernel)
  obtain ⟨b, hb⟩ := exists_eq_ok (x := compile { preserveBlanks := true } ⟨footerNodes, {}⟩)
    (by decide +kernel)
  have happend := compile_append (o := { preserveBlanks := true }) (l := {}) rfl rfl
    (.inr (by decide +kernel) : footerNodes.head?.any (·.isTextLike) = false ∨
      (headerNodes.reverse.takeWhile (·.isTextLike)).any (·.isInterpolation) = false)
  rw [ha, hb] at happend
  exact ⟨a, b, ha, hb, happend⟩

end TemplateCompiler
