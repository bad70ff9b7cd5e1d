import TemplateCompiler.Proofs.Names.Calls

/-! # The loops around a node

Whenever a node is visited, the names in scope are those of the loops around the node, and the
session counts these loops. So a reference to an element knows whether the element is inside of a
loop.
-/

namespace TemplateCompiler

open Template (Branches EachBlock Element Fragment Node)
open Transform

/-! ## Places in the template -/

/-- The node stands in the template inside the nodes of the path, the innermost first, and in the
bodies of the loops. -/
inductive Around (root : Fragment) : List Node → List EachBlock → Node → Prop
  | root : Around root [] [] (.fragment root)
  | inside {path : List Node} {loops new : List EachBlock} {n m : Node} :
      Around root path loops n → n.Opens new m → Around root (n :: path) (new ++ loops) m

/-- The name is that of the index, or the pattern of the loop binds it. -/
def Template.EachBlock.Introduces (b : EachBlock) (name : String) : Prop :=
  b.index = some name ∨ ∃ names, Script.patternNames? b.context = some names ∧ name ∈ names

/-- The session counts the loops and their names. -/
structure Session.InLoops (s : Session) (loops : List EachBlock) : Prop where
  count : ∀ name, s.count name = (loops.flatMap loopNames).count name
  loopDepth : s.loopDepth = loops.length

section Places

variable {root : Fragment} {path : List Node} {loops new : List EachBlock} {n : Node}
  {s : Session} {c k : Context}

theorem Around.isSome_loopNames (h : Around root path loops n) :
    ∀ b ∈ loops, (loopNames? b).isSome = true := by
  induction h with
  | root => simp
  | inside _ hopens ih =>
    cases hopens with
    | child | aside => exact ih
    | body hnames => exact List.forall_mem_cons.mpr ⟨by simp [hnames], ih⟩

theorem mem_loopNames {b : EachBlock} (h : (loopNames? b).isSome = true) {name : String} :
    name ∈ loopNames b ↔ b.Introduces name := by
  unfold loopNames loopNames? at *
  cases hnames : Script.patternNames? b.context with
  | none => simp [hnames] at h
  | some names => simp [Template.EachBlock.Introduces, hnames, or_comm]

/-- A name is in scope if one of the loops introduces it. -/
theorem Around.isIdentifier_iff (h : Around root path loops n) (hs : s.InLoops loops)
    (name : String) : s.isIdentifier name = true ↔ ∃ b ∈ loops, b.Introduces name := by
  rw [Session.isIdentifier, hs.count, decide_eq_true_eq, List.count_pos_iff, List.mem_flatMap]
  refine exists_congr fun b => and_congr_right fun hb => ?_
  exact mem_loopNames (h.isSome_loopNames b hb)

theorem Session.InLoops.begins (hs : c.session.InLoops loops) (hk : c.Begins new k) :
    k.session.InLoops (new ++ loops) where
  count name := by
    rw [hk.count, hs.count, List.flatMap_append, List.count_append, Nat.add_comm]
  loopDepth := by
    rw [hk.loopDepth, hs.loopDepth, List.length_append, Nat.add_comm]

end Places

/-! ## Visited nodes -/

/-- The run that begins in `c` fails with the diagnostic. -/
def Transform.Fails {α : Type} (t : Transform α) (c : Context) (d : Diagnostic) : Prop :=
  ∃ k, t c = .error d k

theorem Transform.Fails.bind {α β : Type} {t : Transform α} {f : α → Transform β} {c : Context}
    {d : Diagnostic} (h : t.Fails c d) : (t >>= f).Fails c d := by
  obtain ⟨k, hk⟩ := h
  exact ⟨k, bind_error hk f⟩

/-- The visit of the node of `c` makes use of what `v` does in `k`. It can come to something else if
`v` does something else there. -/
def Calls (o : Options) (v : Transform Unit) (c k : Context) : Prop :=
  ∃ v' : Transform Unit, (∀ k', k' ≠ k → v' k' = v k') ∧ visitWith o v' c ≠ visitWith o v c

/-- While the template is compiled, a visit to the given depth begins in the context, inside the
visits of the nodes of the path. -/
inductive Visited (o : Options) (root : Fragment) : Nat → List Node → Context → Prop
  | root : o.serverRendering = false →
      Visited o root (visitDepth (.fragment (o.prepare root))) []
        (Context.newBlock (.fragment (o.prepare root)) {})
  | inside {depth : Nat} {path : List Node} {c k : Context} :
      Visited o root (depth + 1) path c → Calls o (visit o depth) c k →
      Visited o root depth (c.node :: path) k

section Visits

variable {o : Options} {root : Fragment} {v : Transform Unit} {c k : Context} {depth : Nat}
  {path : List Node}

theorem Calls.begins (h : Calls o v c k) (hv : Steady v) : ∃ loops, c.Begins loops k := by
  obtain ⟨v', hsame, hne⟩ := h
  by_contra hnone
  refine hne (visitWith_congr (fun loops k' hk' => hsame k' ?_) hv)
  rintro rfl
  exact hnone ⟨loops, hk'⟩

/-- What fails as `v` fails in `k` makes use of `v`. -/
theorem Calls.of_fails
    (h : ∀ v' d, Fails v' k d → Fails (visitWith o v') c d) : Calls o v c k := by
  classical
  by_contra hnot
  have hfails (d : Diagnostic) : Fails (visitWith o v) c d := by
    let v' : Transform Unit := Function.update v k (.error d k)
    have hv' : v' k = .error d k := Function.update_self ..
    have hsame : visitWith o v' c = visitWith o v c := by
      by_contra hne
      exact hnot ⟨v', fun k' hk' => Function.update_of_ne hk' .., hne⟩
    rw [Fails, ← hsame]
    exact h v' d ⟨k, hv'⟩
  -- It cannot fail in two ways.
  obtain ⟨c₁, h₁⟩ := hfails { fault := .extension }
  obtain ⟨c₂, h₂⟩ := hfails (.notImplemented "" {})
  exact absurd (h₁.symm.trans h₂) (by simp [Diagnostic.notImplemented])

theorem calls_child (hpasses : o.passes = Pass.all) (hc : c.Fresh) {f : Fragment} {n : Node}
    {ns : List Node} (hn : c.node = .fragment f) (hchildren : f.children = n :: ns) :
    Calls o v c (c.child n 0 (Frame.ofNode c.node 0)) := by
  refine .of_fails fun v' d hfails => ?_
  have hchild : Fails (inChild n 0 (Frame.ofNode c.node 0) (visitChild v' true)) c d := by
    obtain ⟨k, hk⟩ := hfails.bind
    rw [Fails, inChild, visitChild, hk]
    exact ⟨_, rfl⟩
  rw [Fails, visitWith_fragment hpasses hc hn, hchildren, visitChildren]
  exact hchild.bind

/-- The visit of a loop makes a block of its body. -/
theorem calls_body (hpasses : o.passes = Pass.all) (hremoved : c.removed = false) {b : EachBlock}
    (hn : c.node = .eachBlock b) {names : List String}
    (hnames : Script.patternNames? b.context = some names) {subject : Expression}
    (hsubject : (Expression.ofCode b.subject).qualified o (c.flag .inserted).referenced.session =
      .ok subject) :
    Calls o v c (Context.newBlock (.fragment b.body)
      ((c.flag .inserted).referenced.session.enterLoop (names ++ b.index.toList))) := by
  refine .of_fails fun v' d hfails => ?_
  have hbody : Fails (createLoopBody o v' (names ++ b.index.toList) b)
      (c.flag .inserted).referenced d := by
    obtain ⟨k, hk⟩ := hfails
    rw [Fails, createLoopBody_eq, createBlock_eq, Context.during, hk]
    exact ⟨_, rfl⟩
  have hloop (id : Nat) : Fails (createLoop o v' id b) (c.flag .inserted).referenced d := by
    rw [Fails, createLoop, bind_run (qualify_eq_ok.mpr ⟨hsubject, rfl⟩), hnames]
    exact hbody.bind
  have hpass : Fails (transformLoop o v') c d := by
    rw [Fails, transformLoop, get_bind, hn]
    change ∃ k, (setFlags .inserted >>= _) c = .error d k
    rw [bind_run (setFlags_run _), bind_run reference_run]
    exact (hloop _).bind
  have hdone : c.IsDone [.conditions] := ⟨by simp [Pass.concerns, hn], by simp, hremoved⟩
  have hsplit : o.passes = [.conditions] ++ .loops :: Pass.all.drop 2 := hpasses
  have hrun : Fails (runPasses o v' o.passes) c d := by
    rw [Fails, hsplit, hdone.runPasses_append]
    exact hpass.bind.bind
  exact hrun.bind

theorem inLoops_newBlock (n : Node) : (Context.newBlock n {}).session.InLoops [] :=
  ⟨fun _ => rfl, rfl⟩

/-- Every visit begins at a place of the template, with the loops around it in scope. -/
theorem Visited.around (h : Visited o root depth path c) :
    ∃ loops, Around (o.prepare root) path loops c.node ∧ c.session.InLoops loops := by
  induction h with
  | root => exact ⟨[], .root, inLoops_newBlock _⟩
  | inside _ hcalls ih =>
    obtain ⟨loops, haround, hloops⟩ := ih
    obtain ⟨new, hbegins⟩ := hcalls.begins (steady_visit _)
    exact ⟨new ++ loops, .inside haround hbegins.opens, hloops.begins hbegins⟩

end Visits

/-! ## References -/

theorem Operation.IsMarked.congr {op : Operation} {s s' : Session} (h : op.IsMarked s)
    (hdepth : s'.loopDepth = s.loopDepth) : op.IsMarked s' := by
  cases op with
  | setTemplateRef element value inLoop =>
    rw [IsMarked, hdepth]
    exact h
  | _ => exact h

theorem Operation.IsMarked.inLoop_iff {element : Nat} {value : Expression} {inLoop : Bool}
    {s : Session} {loops : List EachBlock}
    (h : (Operation.setTemplateRef element value inLoop).IsMarked s) (hs : s.InLoops loops) :
    inLoop = true ↔ loops ≠ [] := by
  rw [IsMarked, hs.loopDepth] at h
  rw [h, decide_eq_true_eq, List.length_pos_iff]

/-- What a run adds to a block is marked by the loops around it. -/
theorem Develops.marked {b b' : Block} {s s' : Session} (h : Develops b s b' s') :
    ∀ op ∈ b'.allOperations, op ∈ b.allOperations ∨ op.IsMarked s := by
  induction h with
  | trans h₁ _ ih₁ ih₂ =>
    intro op hop
    rcases ih₂ op hop with hop | hmarked
    · exact ih₁ op hop
    · exact .inr (hmarked.congr h₁.kept.loopDepth.symm)
  | contribution b hx =>
    intro op hop
    rcases Block.mem_allOperations_add.mp hop with rfl | hop
    · exact .inr hx.marked
    · exact .inl hop
  | _ => exact fun op hop => .inl hop

/-! ## Blocks -/

/-- The operations that a visit adds show only blocks with the property. -/
def AddsOnly (P : Block → Prop) (c c' : Context) : Prop :=
  ∀ op ∈ c'.block.allOperations, op ∈ c.block.allOperations ∨ ∀ b ∈ op.blocks, P b

section Adding

variable {o : Options} {names : List String} {P : Block → Prop} {v : Transform Unit}
  {c c₁ c' : Context} {s s' : Session}

theorem AddsOnly.of_block_eq (h : c'.block = c.block) : AddsOnly P c c' :=
  fun _ hop => .inl (h ▸ hop)

theorem AddsOnly.trans (h₁ : AddsOnly P c c₁) (h₂ : AddsOnly P c₁ c') : AddsOnly P c c' := by
  intro op hop
  rcases h₂ op hop with hop | hblocks
  · exact h₁ op hop
  · exact .inr hblocks

theorem AddsOnly.of_receives {xs : List Contribution} (h : c.block.Receives xs c'.block)
    (hxs : ∀ x ∈ xs, x.op.isPlain = true) : AddsOnly P c c' :=
  h.shows hxs

theorem OwnWork.addsOnly {xs : List Contribution} (h : OwnWork c xs c')
    (hxs : ∀ x ∈ xs, x.op.isOwn = true) : AddsOnly P c c' :=
  .of_receives (.of_foldl h.block_eq) fun x hx => Operation.isPlain_of_isOwn (hxs x hx)

variable (hblock : ∀ f s b s', MakesBlock v (.fragment f) s b s' → ∀ b' ∈ b.blocks, P b')

include hblock

theorem Makes.forall_blocks {rs : List (List String × Fragment)} {is : List Nat} {bs : List Block}
    (h : Makes v s rs is bs s') : ∀ b ∈ bs.flatMap Block.blocks, P b := by
  induction h with
  | nil => simp
  | id _ ih | note _ _ ih => exact ih
  | block hb _ ih | loop hb _ ih =>
    exact List.forall_mem_append.mpr ⟨hblock _ _ _ _ hb, ih⟩

variable (hvisit : Ensures v (AddsOnly P))

omit hblock in
include hvisit in
theorem VisitsChildren.addsOnly {isFragment : Bool} {frame : Frame} {i : Nat} {ns : List Node}
    (h : VisitsChildren v isFragment frame i ns c c') : AddsOnly P c c' := by
  induction h with
  | nil => exact .of_block_eq rfl
  | @cons _ _ i n ns c k c' hframe hrun _ _ ih =>
    refine .trans (?_ : AddsOnly P c (c.adopt isFragment (k.settled isFragment))) ih
    intro op hop
    exact hvisit _ _ (hframe.child_fresh c) hrun op (k.settled_allOperations isFragment ▸ hop)

include hvisit

/-- A visit adds only blocks with the property, if the visits inside make and add only such
blocks. -/
theorem Visits.addsOnly (h : Visits o names v c c') : AddsOnly P c c' := by
  cases h.proceeds with
  | absorbed | text | comment | dropped => exact .of_block_eq rfl
  | @created _ _ op _ hcreates =>
    obtain ⟨_, -, hmakes⟩ := hcreates.makes
    exact hcreates.shows (op.blocks_eq ▸ hmakes.forall_blocks hblock)
  | @native e _ _ c₁ c₂ k _ hbuilds =>
    obtain ⟨ys, hys, hown⟩ := hbuilds.container.allots
    obtain ⟨ops, hinsert, hops⟩ := c₂.insertAll_allots
    have hcontainer : AddsOnly P c c₁ :=
      .of_receives hys.block fun y hy => Operation.isPlain_of_isOwn (hown y hy).1
    have hinserted : AddsOnly P c₂ c₂.insertAll := by
      refine .of_receives hinsert.block fun x hx => ?_
      obtain ⟨op, hop, rfl⟩ := List.mem_map.mp hx
      exact Operation.isPlain_of_created? (hops op hop)
    have hk : AddsOnly P c₂.insertAll k := hbuilds.work.addsOnly hbuilds.isOwn
    exact hcontainer.trans ((hbuilds.walk.addsOnly hvisit).trans (hinserted.trans
      (hk.trans (.of_block_eq (k.place_block e _)))))
  | fragment _ hwalk => exact hwalk.addsOnly hvisit

end Adding

/-! ## Blocks at their places -/

/-- A visit that begins in the context is one of a node of the template, with the loops around the
node in scope. -/
def Context.IsPlaced (root : Fragment) (c : Context) : Prop :=
  ∃ path loops, Around root path loops c.node ∧ c.session.InLoops loops

/-- The block is that of a place in the template. Its references are those to its own nodes, and
know whether there are loops around. -/
def Block.KnowsLoops (root : Fragment) (b : Block) : Prop :=
  ∃ path loops, Around root path loops b.node ∧
    ∀ element value inLoop, .setTemplateRef element value inLoop ∈ b.allOperations →
      (∃ d ∈ b.dynamic.nodes, d.id = some element) ∧ (inLoop = true ↔ loops ≠ [])

section Placed

variable {o : Options} {root : Fragment} {v : Transform Unit} {c c' k : Context} {depth : Nat}
  {f : Fragment} {b : Block} {s s' : Session}

theorem Context.IsPlaced.begins (h : c.IsPlaced root) {new : List EachBlock}
    (hk : c.Begins new k) : k.IsPlaced root := by
  obtain ⟨path, loops, haround, hloops⟩ := h
  exact ⟨c.node :: path, new ++ loops, .inside haround hk.opens, hloops.begins hk⟩

open Classical in
/-- Does the same as `v`, but fails away from the places in the template. -/
noncomputable def visitPlaced (root : Fragment) (v : Transform Unit) : Transform Unit := fun c =>
  if c.IsPlaced root then v c else .error { fault := .extension } c

theorem visitPlaced_eq_ok :
    visitPlaced root v c = .ok () c' ↔ c.IsPlaced root ∧ v c = .ok () c' := by
  unfold visitPlaced
  split <;> simp_all

theorem visitWith_visitPlaced (hc : c.IsPlaced root) (hv : Steady v) :
    visitWith o (visitPlaced root v) c = visitWith o v c :=
  visitWith_congr (fun _ _ hk => if_pos (hc.begins hk)) hv

theorem MakesBlock.placed (h : MakesBlock (visitPlaced root v) (.fragment f) s b s') :
    (Context.newBlock (.fragment f) s).IsPlaced root ∧ MakesBlock v (.fragment f) s b s' := by
  obtain ⟨k, hrun, hb, hs⟩ := h
  obtain ⟨hplaced, hrun⟩ := visitPlaced_eq_ok.mp hrun
  exact ⟨hplaced, k, hrun, hb, hs⟩

variable (hpasses : o.passes = Pass.all)

include hpasses

theorem MakesBlock.knowsLoops (hplaced : (Context.newBlock (.fragment f) s).IsPlaced root)
    (h : MakesBlock (visit o depth) (.fragment f) s b s') : b.KnowsLoops root := by
  obtain ⟨path, loops, haround, hloops⟩ := hplaced
  obtain ⟨k, hrun, rfl, -⟩ := h
  have hfresh := Context.newBlock_fresh f s
  have hleads := (steady_visit (o := o) depth).leadsTo (Context.newBlock (.fragment f) s)
  rw [after_of_ok hrun] at hleads
  have hnode : k.node = .fragment f := visit_node_eq hpasses depth f _ _ hfresh rfl hrun
  refine ⟨path, loops, ?_, fun element value inLoop hop => ⟨?_, ?_⟩⟩
  · rw [Context.toBlock, hnode]
    exact haround
  · rcases (visit_names hpasses depth _ _ hfresh hrun).named _ hop with hold | hnames
    · cases hold
    · exact hnames.named element (by simp [Operation.named])
  · rcases hleads.1.marked _ hop with hold | hmarked
    · cases hold
    · exact hmarked.inLoop_iff hloops

theorem MakesBlock.forall_knowsLoops
    (hvisit : ∀ c c', c.Fresh → c.IsPlaced root → visit o depth c = .ok () c' →
      AddsOnly (Block.KnowsLoops root) c c')
    (hplaced : (Context.newBlock (.fragment f) s).IsPlaced root)
    (h : MakesBlock (visit o depth) (.fragment f) s b s') :
    ∀ b' ∈ b.blocks, b'.KnowsLoops root := by
  have hself := h.knowsLoops hpasses hplaced
  obtain ⟨k, hrun, rfl, -⟩ := h
  have hadds := hvisit _ _ (Context.newBlock_fresh f s) hplaced hrun
  intro b' hb'
  rw [Block.blocks_eq] at hb'
  rcases List.mem_cons.mp hb' with rfl | hb'
  · exact hself
  · obtain ⟨op, hop, hb'⟩ := List.mem_flatMap.mp hb'
    rcases hadds op hop with hold | hblocks
    · cases hold
    · exact hblocks b' hb'

/-- Visits at places in the template add blocks at places in the template. -/
theorem visit_addsOnly (depth : Nat) (c c' : Context) (hc : c.Fresh) (hplaced : c.IsPlaced root)
    (h : visit o depth c = .ok () c') : AddsOnly (Block.KnowsLoops root) c c' := by
  induction depth generalizing c c' with
  | zero => cases h
  | succ depth ih =>
    have hdisciplined : Disciplined (visitPlaced root (visit o depth)) := fun c c' hc hrun =>
      visit_disciplined hpasses depth c c' hc (visitPlaced_eq_ok.mp hrun).2
    obtain ⟨names, hb⟩ := c.session.exists_binds
    have hvisits : Visits o names (visitPlaced root (visit o depth)) c c' := by
      refine visits_of_ok hpasses hdisciplined hc hb ?_
      rw [visitWith_visitPlaced hplaced (steady_visit depth)]
      exact h
    refine hvisits.addsOnly (fun f s b s' hmakes => ?_) fun c c' hc hrun => ?_
    · obtain ⟨hplaced, hmakes⟩ := hmakes.placed
      exact hmakes.forall_knowsLoops hpasses ih hplaced
    · obtain ⟨hplaced, hrun⟩ := visitPlaced_eq_ok.mp hrun
      exact ih c c' hc hplaced hrun

theorem compile_knowsLoops {r : Compiled} (h : compile o root = .ok r) :
    ∀ b ∈ r.block.blocks, b.KnowsLoops (o.prepare root) := by
  obtain ⟨depth, s, hmakes, -⟩ := compile_ok hpasses h
  exact hmakes.forall_knowsLoops hpasses (visit_addsOnly hpasses depth)
    ⟨[], [], .root, inLoops_newBlock _⟩

end Placed

/-! ## Compilations -/

/-- Every run leaves the loops around as they are and only adds to the session, whether it succeeds
or not. -/
def Transform.IsBalanced {α : Type} (t : Transform α) : Prop :=
  ∀ c : Context, c.session.Kept (t.after c).session

/-- Compilations keep account of the loops around. -/
structure Options.KeepsAccount (o : Options) : Prop where
  /-- The visits of nodes are balanced, to whatever depth they go. -/
  visit : ∀ depth, (visit o depth).IsBalanced
  visitNode : (visitNode o).IsBalanced
  /-- So is the making of blocks. -/
  createBlock : ∀ depth n, (createBlock (TemplateCompiler.visit o depth) n).IsBalanced
  createRoot : ∀ n, (Transform.createBlock (TemplateCompiler.visitNode o) n).IsBalanced
  /-- Where the counts are lowered, after the body of a loop, there is enough to take away. -/
  leaveLoop : ∀ depth names b c,
    ((Transform.createBlock (TemplateCompiler.visit o depth) (.fragment b.body)).after
        (c.during (c.session.enterLoop names))).session.leaveLoop? names =
      some ((createLoopBody o (TemplateCompiler.visit o depth) names b).after c).session
  /-- The pass for children leaves the node alone. -/
  node : ∀ depth c, ((transformChildren (TemplateCompiler.visit o depth)).after c).node = c.node
  /-- When a node is visited, the names in scope are those of the loops around it, and references
  are marked by whether there are such loops. -/
  visited : ∀ root depth path c, Visited o root depth path c →
    ∃ loops, Around (o.prepare root) path loops c.node ∧
      (∀ name, c.session.isIdentifier name = true ↔ ∃ b ∈ loops, b.Introduces name) ∧
      ∀ element value inLoop,
        .setTemplateRef element value inLoop ∈
          ((TemplateCompiler.visit o depth).after c).block.allOperations →
        .setTemplateRef element value inLoop ∈ c.block.allOperations ∨
          (inLoop = true ↔ loops ≠ [])
  /-- So are the references of all blocks of the compiled template. -/
  compiled : ∀ root r, compile o root = .ok r →
    ∀ b ∈ r.block.blocks, b.KnowsLoops (o.prepare root)

theorem compile_keeps_account {o : Options} (hpasses : o.passes = Pass.all) : o.KeepsAccount where
  visit depth := (steady_visit depth).kept
  visitNode := steady_visitNode.kept
  createBlock depth n := (steady_createBlock (steady_visit depth) n).kept
  createRoot n := (steady_createBlock steady_visitNode n).kept
  leaveLoop depth := leaveLoop?_after_createBlock (steady_visit depth)
  node depth := transformChildren_after_node (visit o depth)
  visited root depth path c h := by
    obtain ⟨loops, haround, hloops⟩ := h.around
    refine ⟨loops, haround, haround.isIdentifier_iff hloops, fun element value inLoop hop => ?_⟩
    refine (((steady_visit depth).leadsTo c).1.marked _ hop).imp_right fun hmarked => ?_
    exact hmarked.inLoop_iff hloops
  compiled root r := compile_knowsLoops hpasses

/-- The elements of a loop are referred to by their position:
`{#each items as item, i}<b bind:this={nodes[i]}></b>{/each}`. -/
def referencedLoop : EachBlock :=
  ⟨⟨"items", {}⟩, "item", some "i", none,
    ⟨[.element ⟨"b", .regular,
      [.directive .binding "this" [] (.chunks [.code ⟨"nodes[i]", {}⟩]) {}], [], {}⟩], {}⟩,
    none, {}⟩

theorem compile_keeps_account_referencedLoop :
    (∃ r, compile { preserveBlanks := true } ⟨[.eachBlock referencedLoop], {}⟩ = .ok r) ∧
      (∃ depth path c,
        Visited { preserveBlanks := true } ⟨[.eachBlock referencedLoop], {}⟩ depth path c ∧
          c.node = .fragment referencedLoop.body ∧ c.session.isIdentifier "i" = true) ∧
      Options.KeepsAccount { preserveBlanks := true } := by
  refine ⟨exists_eq_ok (by decide +kernel), ?_, compile_keeps_account rfl⟩
  have hnames : Script.patternNames? referencedLoop.context = some ["item"] := by decide +kernel
  have hfresh := Context.newBlock_fresh ⟨[.eachBlock referencedLoop], {}⟩ {}
  exact ⟨_, _, _, .inside (.inside (.root rfl) (calls_child rfl hfresh rfl rfl))
    (calls_body rfl rfl rfl hnames rfl), rfl, by decide +kernel⟩

end TemplateCompiler
