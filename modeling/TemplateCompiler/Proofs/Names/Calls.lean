import TemplateCompiler.Proofs.Names.Balance
import TemplateCompiler.Proofs.Names.Scopes

/-! # Which visits a visit makes

The visit of a node visits what is right inside the node and nothing else. All loops around the node
are around what is inside it, too, and a loop is around its body.
-/

namespace TemplateCompiler

open Template (EachBlock Element Fragment Node)
open Transform Comparison

/-! ## What is right inside a node -/

/-- The names that a loop introduces, if its pattern can be read. -/
def loopNames (b : EachBlock) : List String := (loopNames? b).getD []

namespace Template.Node

/-- The last argument stands right inside the node, in the body of the loops between the two. -/
inductive Opens : Node → List EachBlock → Node → Prop
  | child {n m : Node} : n.isOpen = true → m ∈ n.children → Opens n [] m
  | aside {n : Node} {f : Fragment} : f ∈ n.asides → Opens n [] (.fragment f)
  | body {b : EachBlock} {names : List String} :
      loopNames? b = some names → Opens (.eachBlock b) [b] (.fragment b.body)

end Template.Node

/-- While the node of `c` is visited, a visit may begin in `k`. -/
structure Context.Begins (c : Context) (loops : List EachBlock) (k : Context) : Prop where
  opens : c.node.Opens loops k.node
  count : ∀ name,
    k.session.count name = c.session.count name + (loops.flatMap loopNames).count name
  loopDepth : k.session.loopDepth = c.session.loopDepth + loops.length

/-! ## Where visits begin -/

theorem Context.LeadsTo.begins {c k : Context} (hk : c.LeadsTo k) {n : Node}
    (hn : c.node.Opens [] n) : c.Begins [] (Context.newBlock n k.session) :=
  ⟨hn, hk.kept.count, hk.kept.loopDepth⟩

theorem Context.LeadsTo.begins_body {c k : Context} (hk : c.LeadsTo k) {b : EachBlock}
    {names : List String} (hn : c.node = .eachBlock b) (hnames : loopNames? b = some names) :
    c.Begins [b] (Context.newBlock (.fragment b.body) (k.session.enterLoop names)) := by
  refine ⟨hn ▸ .body hnames, fun name => ?_, ?_⟩
  · have hcount : (k.session.enterLoop names).count name =
        k.session.count name + names.count name :=
      Session.count_addIdentifiers k.session names name
    have hloop : [b].flatMap loopNames = names := by simp [loopNames, hnames]
    rw [hloop, ← hk.kept.count name]
    exact hcount
  · have hdepth : (k.session.enterLoop names).loopDepth = k.session.loopDepth + 1 := by
      rw [Session.enterLoop_eq]
    exact hdepth.trans (congrArg (· + 1) hk.kept.loopDepth)

namespace Template.Node.Narrows

variable {n n' : Node}

/-- A node is left alone, or nothing is left in it. -/
theorem eq_or (h : n.Narrows n') :
    n = n' ∨ ∃ e : Element, n' = .element e ∧ e.kind ≠ .regular ∧ e.children = [] := by
  rcases h with h | ⟨e, -, hkind, h⟩
  · exact .inl h.symm
  · exact .inr ⟨e.withoutChildren, h, hkind, rfl⟩

theorem aside (h : n.Narrows n') {f : Fragment} (hf : f ∈ n'.asides) :
    n.Opens [] (.fragment f) := by
  rcases h.eq_or with rfl | ⟨e, rfl, -, hempty⟩
  · exact .aside hf
  · cases hkind : e.kind <;>
      simp [asides, hkind, slotsOf, outletContent?, hempty, duplicateSlot?, Except.toOption] at hf

theorem child (h : n.Narrows n') (hopen : n'.isOpen = true) {m : Node} (hm : m ∈ n'.children) :
    n.Opens [] m := by
  rcases h.eq_or with rfl | ⟨e, rfl, hkind, -⟩
  · exact .child hopen hm
  · exact (hkind (by simpa [isOpen] using hopen)).elim

end Template.Node.Narrows

/-! ## Visits -/

section Visiting

variable {o : Options} {v v' : Transform Unit} {c : Context}
  (h : ∀ loops k, c.Begins loops k → v' k = v k)

theorem createBlock_congr {n : Node}
    (h : v' (Context.newBlock n c.session) = v (Context.newBlock n c.session)) :
    createBlock v' n c = createBlock v n c := by
  rw [createBlock_eq, createBlock_eq, h]

include h

theorem alike_createBlock {n : Node} (hn : c.node.Opens [] n) :
    AlikeFrom c (createBlock v' n) (createBlock v n) :=
  fun _ hk => createBlock_congr (h _ _ (hk.begins hn))

theorem alike_createLoopBody {b : EachBlock} {names : List String} (hn : c.node = .eachBlock b)
    (hnames : loopNames? b = some names) :
    AlikeFrom c (createLoopBody o v' names b) (createLoopBody o v names b) := by
  intro k hk
  have hbody : createBlock v' (.fragment b.body) (k.during (k.session.enterLoop names)) =
      createBlock v (.fragment b.body) (k.during (k.session.enterLoop names)) :=
    createBlock_congr (h _ _ (hk.begins_body hn hnames))
  rw [createLoopBody_eq, createLoopBody_eq, hbody]

theorem alike_inChild (isFragment : Bool) (frame : Frame) (i : Nat) {n : Node}
    (hn : c.node.Opens [] n) :
    AlikeFrom c (inChild n i frame (visitChild v' isFragment))
      (inChild n i frame (visitChild v isFragment)) := by
  intro k hk
  have hbegins : c.Begins [] (k.child n i frame) := ⟨hn, hk.kept.count, hk.kept.loopDepth⟩
  have hchild : visitChild v' isFragment (k.child n i frame) =
      visitChild v isFragment (k.child n i frame) := by
    cases hrun : v (k.child n i frame) with
    | ok a k' => rw [visitChild, bind_run ((h _ _ hbegins).trans hrun), visitChild, bind_run hrun]
    | error d k' =>
      rw [visitChild, bind_error ((h _ _ hbegins).trans hrun), visitChild, bind_error hrun]
  rw [inChild, inChild, hchild]

variable (hv : Steady v)

include hv

theorem alike_visitChildren (isFragment : Bool) (frame : Frame) (i : Nat) {ns : List Node}
    (hns : ∀ n ∈ ns, c.node.Opens [] n) :
    AlikeFrom c (visitChildren v' isFragment frame i ns)
      (visitChildren v isFragment frame i ns) := by
  refine alikeFrom_of_runs ?_
  induction ns generalizing frame i with
  | nil => exact .pure_eq ()
  | cons n ns ih =>
    refine ((alike_inChild h isFragment frame i (hns n (by simp))).runs
      (steady_inChild (steady_visitChild hv isFragment) n i frame)).seq fun _ => ?_
    exact .seq (Context.following.changeElse fun _ => ⟨rfl, rfl, rfl⟩) fun _ =>
      ih _ _ fun m hm => hns m (by simp [hm])

/-- A visit depends on no more of the visits inside than those of what is right inside the node. -/
theorem visitWith_congr : visitWith o v' c = visitWith o v c := by
  refine alikeFrom_of_runs ?_ c (.refl c)
  refine Simulation.Inside.visitWith (S := Context.following.simulation c o) ⟨?_, ?_, ?_⟩
  · intro k k' f hk hf
    exact (alike_createBlock h (hk.2.2.aside hf)).runs (steady_createBlock hv _)
  · intro k k' b names hk hn hnames
    have hnode := (hk.2.2.eq_or.resolve_right (by simp [hn])).trans hn
    exact ((alike_createLoopBody h hnode hnames).runs (steady_createLoopBody hv _ _)).imp
      fun _ _ _ hx => ⟨congrArg _ hx, optionRel_eq.mpr (congrArg _ hx)⟩
  · intro k k' isFragment hk hopen
    exact (alike_visitChildren h hv isFragment _ 0 fun _ hm => hk.2.2.child hopen hm).runs
      (steady_visitChildren hv _ _ _ _)

end Visiting

end TemplateCompiler
