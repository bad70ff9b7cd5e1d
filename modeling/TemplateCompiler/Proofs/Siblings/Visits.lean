import TemplateCompiler.Proofs.Siblings.Regions

/-! # Visits after others

A visit of a node does the same whatever came before it. Among its siblings the node may be followed
by others, as long as they do not belong to the same text.
-/

namespace TemplateCompiler

open Template (EachBlock Element Fragment Node)
open Transform

variable {f₁ f₂ : Frame} {p : Seat}

variable {σ : Shift} {base : Block} {q : Seat} {o : Options} {v₁ v₂ : Transform Unit} {depth : Nat}
  {isFragment : Bool} {c₁ c₂ : Context}

/-! ## Children -/

theorem agree_visitChild (hv : AgreeTo σ depth v₁ v₂) (hq : q.depth ≤ depth) :
    Agree σ base q Same (visitChild v₁ isFragment) (visitChild v₂ isFragment) :=
  agree_of_runs fun _ => Simulation.Inside.visitChild (S := σ.simulation base q {})
    (hv base q hq).runs isFragment

theorem Corresponds.child (h : Corresponds σ base p c₁ c₂) (hf : q.Matches f₁ f₂) {n : Node}
    (hn : n.depth ≤ q.depth) (hrun : n.isInterpolation = true → q.SameRun) :
    Corresponds σ base q (c₁.child n q.index₁ f₁) (c₂.child n q.index₂ f₂) :=
  .fresh hn (.some hf) hrun h.session h.distinct h.block

theorem Corresponds.adopt (h : Corresponds σ base p c₁ c₂) {k₁ k₂ : Context}
    (hk : Corresponds σ base q k₁ k₂) (hs : c₂.session.Extends k₂.session) (isFragment : Bool) :
    Corresponds σ base p (c₁.adopt isFragment k₁) (c₂.adopt isFragment k₂) := by
  refine { h with
    childrenTemplate := ?_
    session := hk.session
    distinct := hk.distinct
    block := hk.block
    dynamic := fun r hr => ?_
    slots := fun r hr => h.slots r (hr.of_longer hs.templates) }
  · simp only [Context.adopt, h.childrenTemplate, hk.template]
  · simp only [Context.adopt, h.dynamic r (hr.of_longer hs.templates), hk.dynamic r hr,
      NodeInfo.isDynamic_rename]
    cases c₂.dynamic
    simp [NodeInfo.rename, renameNodes_eq_map]

/-! ## Walks -/

namespace Seat

/-- The place of the next sibling. -/
def next (q : Seat) (h : q.index₂ < q.children₂.length) : Seat :=
  { q with
    index₁ := q.index₁ + 1
    index₂ := q.index₂ + 1
    index_le := Nat.lt_of_lt_of_le h q.length_le }

theorem Matches.next (hf : q.Matches f₁ f₂) (h : q.index₂ < q.children₂.length) :
    (q.next h).Matches f₁ f₂ := by
  have hconsumed := hf.consumed
  refine { hf with consumed := ?_ }
  simp only [Seat.next]
  omega

end Seat

/-- A text at the end of `ns` that begins with an interpolation does not go on in `rest`. -/
def TextEnds (ns rest : List Node) : Prop :=
  ∀ n ms, n :: ms <:+ ns → n.isInterpolation = true →
    (n :: ms ++ rest).takeWhile (·.isTextLike) = (n :: ms).takeWhile (·.isTextLike)

theorem textEnds_nil (ns : List Node) : TextEnds ns [] := fun n ms _ _ => by
  rw [List.append_nil]

/-- The second run is over, and the first one goes on with further children from position `stop`,
of which no more than `taken` are taken over. -/
inductive GoesOn (σ : Shift) (base : Block) (p : Seat) (s : Session) (v₁ : Transform Unit)
    (isFragment : Bool) (f : Frame) (stop taken : Nat) (rest : List Node) :
    EStateM.Result Diagnostic Context Unit → EStateM.Result Diagnostic Context Unit → Prop
  | ok {k₁ k₂ : Context} {f' : Frame} :
      Corresponds σ base p k₁ k₂ → s.Extends k₂.session → f'.tag = f.tag →
      f'.children = f.children → f'.consumedUntil - stop ≤ taken →
      GoesOn σ base p s v₁ isFragment f stop taken rest
        (visitChildren v₁ isFragment f' stop rest k₁) (.ok () k₂)
  | error (e : Diagnostic) (k₁ k₂ : Context) :
      GoesOn σ base p s v₁ isFragment f stop taken rest (.error e k₁) (.error e k₂)

theorem GoesOn.of_later {s s' : Session} {f f' : Frame} {stop taken : Nat} {rest : List Node}
    {r₁ r₂ : EStateM.Result Diagnostic Context Unit}
    (h : GoesOn σ base p s' v₁ isFragment f' stop taken rest r₁ r₂) (hs : s.Extends s')
    (htag : f'.tag = f.tag) (hchildren : f'.children = f.children) :
    GoesOn σ base p s v₁ isFragment f stop taken rest r₁ r₂ := by
  cases h with
  | ok hk hs' htag' hchildren' hconsumed =>
    exact .ok hk (hs.trans hs') (htag'.trans htag) (hchildren'.trans hchildren) hconsumed
  | error e k₁ k₂ => exact .error e k₁ k₂

theorem visitChildren_goesOn (hv : AgreeTo σ depth v₁ v₂) {ns rest : List Node}
    (hq : q.depth ≤ depth) (hf : q.Matches f₁ f₂) (hns₁ : q.children₁.drop q.index₁ = ns ++ rest)
    (hns₂ : q.children₂.drop q.index₂ = ns) (hdepth : ∀ n ∈ ns, n.depth ≤ q.depth)
    (hends : TextEnds ns rest) (hc : Corresponds σ base p c₁ c₂) :
    GoesOn σ base p c₂.session v₁ isFragment f₁ (q.index₁ + ns.length)
      (q.limit - (q.index₂ + ns.length)) rest
      (visitChildren v₁ isFragment f₁ q.index₁ (ns ++ rest) c₁)
      (visitChildren v₂ isFragment f₂ q.index₂ ns c₂) := by
  induction ns generalizing q f₁ f₂ c₁ c₂ with
  | nil =>
    refine .ok hc (.refl _) rfl rfl ?_
    have hconsumed := hf.consumed
    have hle := hf.consumed_le
    simp only [List.length_nil]
    omega
  | cons n ns ih =>
    have hrun : n.isInterpolation = true → q.SameRun := by
      intro hn
      rw [Seat.SameRun, hns₁, hns₂]
      exact hends n ns List.suffix_rfl hn
    have hchild : Agrees σ base q c₂.session Same
        (visitChild v₁ isFragment (c₁.child n q.index₁ f₁))
        (visitChild v₂ isFragment (c₂.child n q.index₂ f₂)) :=
      agree_visitChild hv hq (hc.child hf (hdepth n (by simp)) hrun)
    have hindex : q.index₂ < q.children₂.length := by
      have hlength := congrArg List.length hns₂
      rw [List.length_drop, List.length_cons] at hlength
      omega
    rw [List.cons_append, visitChildren_cons_eq, visitChildren_cons_eq]
    generalize visitChild v₁ _ _ = r₁ at hchild
    generalize visitChild v₂ _ _ = r₂ at hchild
    cases hchild with
    | error e k₁ k₂ => exact .error e _ _
    | @ok _ _ k₁ k₂ hk hs _ =>
      have hframes : q.Matches (k₁.parent.getD f₁) (k₂.parent.getD f₂) := by
        rcases hk.parent_cases with ⟨hp₁, hp₂⟩ | ⟨f₁', f₂', hp₁, hp₂, hf'⟩
        · rwa [hp₁, hp₂]
        · rwa [hp₁, hp₂]
      have hnext₁ : q.children₁.drop (q.index₁ + 1) = ns ++ rest := by
        rw [← List.drop_drop, hns₁]
        rfl
      have hnext₂ : q.children₂.drop (q.index₂ + 1) = ns := by
        rw [← List.drop_drop, hns₂]
        rfl
      have hrest := ih (q := q.next hindex) hq (hframes.next hindex) hnext₁ hnext₂
        (fun m hm => hdepth m (by simp [hm]))
        (fun m ms hms => hends m ms (hms.trans (List.suffix_cons n ns)))
        (hc.adopt hk hs isFragment)
      rw [List.length_cons, ← Nat.add_assoc, Nat.add_right_comm, ← Nat.add_assoc,
        Nat.add_right_comm q.index₂]
      exact hrest.of_later hs (hframes.tag₁.trans hf.tag₁.symm)
        (hframes.children₁.trans hf.children₁.symm)

/-- Walks over the same children agree. -/
theorem agree_visitChildren (hv : AgreeTo σ depth v₁ v₂) (frame : Frame) {ns : List Node}
    (hchildren : frame.children = ns) (hdepth : ∀ n ∈ ns, n.depth ≤ depth) :
    Agree σ base q Same (visitChildren v₁ isFragment frame 0 ns)
      (visitChildren v₂ isFragment frame 0 ns) := by
  intro c₁ c₂ hc
  let place : Seat :=
    { tag := frame.tag, children₁ := ns, children₂ := ns, index₁ := 0, index₂ := 0
      limit := max ns.length frame.consumedUntil, depth := depth
      index_le := Nat.zero_le _, length_le := Nat.le_max_left _ _ }
  have hframe : place.Matches frame frame :=
    ⟨rfl, rfl, hchildren, hchildren, rfl, Nat.le_max_right _ _⟩
  have hwalk : GoesOn σ base q c₂.session v₁ isFragment frame _ _ []
      (visitChildren v₁ isFragment frame 0 (ns ++ []) c₁)
      (visitChildren v₂ isFragment frame 0 ns c₂) :=
    visitChildren_goesOn (q := place) hv (Nat.le_refl depth) hframe (by simp [place]) rfl hdepth
      (textEnds_nil ns) hc
  rw [List.append_nil] at hwalk
  generalize visitChildren v₁ isFragment frame 0 ns c₁ = r₁ at hwalk
  generalize visitChildren v₂ isFragment frame 0 ns c₂ = r₂ at hwalk
  cases hwalk with
  | ok hk hs _ _ _ => exact .ok hk hs rfl
  | error e k₁ k₂ => exact .error e k₁ k₂

/-! ## Visits -/

/-- What is inside nodes agrees, if visits do that go as deep. -/
theorem AgreeTo.inside (hv : AgreeTo σ depth v₁ v₂) (hq : q.depth ≤ depth + 1) (o : Options) :
    (σ.simulation base q o).Inside v₁ v₂ where
  block hc hf :=
    (agree_createBlock hv (Nat.le_of_lt_succ
      ((Template.Node.asides_depth hf).trans_le (hc.depth.trans hq)))).runs
  body {c₁ c₂ b names} hc hn _ := by
    have hdepth := hc.depth.trans hq
    have hbody : (Node.fragment b.body).depth ≤ depth := by
      rw [hn] at hdepth
      cases b
      simp only [Node.depth, Node.size, EachBlock.size] at hdepth ⊢
      omega
    exact (agree_createLoopBody (o := o) hv names hbody).runs
  children {c₁ c₂} isFragment hc hopen := by
    have hdepth := hc.depth.trans hq
    have hchildren : ∀ n ∈ c₂.node.children, n.depth ≤ depth := by
      intro n hmem
      have hsize := Template.size_le_nodesSize hmem
      have hn := n.depth_le
      cases hnode : c₂.node with
      | fragment f =>
        rw [hnode] at hdepth hsize
        cases f
        simp only [Node.depth, Fragment.size, Node.children] at hdepth hsize
        omega
      | element e =>
        rw [hnode] at hdepth hsize
        cases e
        simp only [Node.depth, Node.size, Element.size, Node.children] at hdepth hsize
        omega
      | _ => simp [hnode, Node.isOpen] at hopen
    exact (agree_visitChildren hv _ rfl hchildren).runs

/-- Visits to depths that are both enough agree. -/
theorem agreeTo_visit (σ : Shift) (o : Options) {depth depth₁ depth₂ : Nat} (h₁ : depth ≤ depth₁)
    (h₂ : depth ≤ depth₂) : AgreeTo σ depth (visit o depth₁) (visit o depth₂) := by
  induction depth generalizing depth₁ depth₂ with
  | zero =>
    intro base q hq c₁ c₂ hc
    have hpos := c₂.node.depth_pos
    have hle := hc.depth
    omega
  | succ depth ih =>
    obtain ⟨depth₁, rfl⟩ := Nat.exists_eq_succ_of_ne_zero (Nat.ne_zero_of_lt h₁)
    obtain ⟨depth₂, rfl⟩ := Nat.exists_eq_succ_of_ne_zero (Nat.ne_zero_of_lt h₂)
    intro base q hq
    have hvisit := ih (Nat.le_of_succ_le_succ h₁) (Nat.le_of_succ_le_succ h₂)
    exact agree_of_runs fun _ => (hvisit.inside hq o).visitWith

end TemplateCompiler
