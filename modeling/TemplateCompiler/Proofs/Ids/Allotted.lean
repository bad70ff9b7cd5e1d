import TemplateCompiler.Proofs.Ids.Named

/-! # What a visit contributes

A visit adds contributions to its block, one after the other. They name the node that is visited, or
nodes whose ids were given out during the visit.
-/

namespace TemplateCompiler

open Template (Branches EachBlock Element Fragment Node)
open Transform

variable {i : Nat} {op : Operation}

/-! ## Contributions to a block -/

/-- The block `b'` is `b` with further contributions. It may return other nodes. -/
def Block.Receives (b : Block) (xs : List Contribution) (b' : Block) : Prop :=
  ∃ returns, b' = { xs.foldl Block.add b with returns }

namespace Block

variable {b b₁ b' : Block} {xs ys : List Contribution}

theorem add_withReturns (b : Block) (returns : List Nat) (x : Contribution) :
    add { b with returns } x = { b.add x with returns } := by
  cases x with
  | once op => rfl
  | whenever es op =>
    simp only [add, registerEffect]
    split <;> rfl

theorem foldl_add_withReturns (b : Block) (returns : List Nat) (xs : List Contribution) :
    xs.foldl add { b with returns } = { xs.foldl add b with returns } := by
  induction xs generalizing b with
  | nil => rfl
  | cons x xs ih => rw [List.foldl_cons, List.foldl_cons, add_withReturns, ih]

theorem Receives.of_foldl (h : b' = xs.foldl add b) : b.Receives xs b' := by
  unfold Receives
  rw [h]
  generalize xs.foldl add b = k
  cases k
  exact ⟨_, rfl⟩

theorem Receives.trans (h₁ : b.Receives xs b₁) (h₂ : b₁.Receives ys b') :
    b.Receives (xs ++ ys) b' := by
  obtain ⟨returns₁, rfl⟩ := h₁
  obtain ⟨returns, rfl⟩ := h₂
  exact ⟨returns, by rw [foldl_add_withReturns, List.foldl_append]⟩

theorem Receives.allOperations (h : b.Receives xs b') :
    b'.allOperations.Perm (xs.map (·.op) ++ b.allOperations) := by
  obtain ⟨returns, rfl⟩ := h
  change (xs.foldl add b).allOperations.Perm _
  induction xs generalizing b with
  | nil => exact .refl _
  | cons x xs ih =>
    rw [List.foldl_cons, List.map_cons, List.cons_append]
    exact ih.trans (((b.allOperations_add x).append_left _).trans List.perm_middle)

theorem Receives.shows {P : Block → Prop} (h : b.Receives xs b')
    (hxs : ∀ x ∈ xs, x.op.isPlain = true) :
    ∀ op ∈ b'.allOperations, op ∈ b.allOperations ∨ ∀ p ∈ op.blocks, P p := by
  intro op hop
  rw [h.allOperations.mem_iff, List.mem_append] at hop
  rcases hop with hop | hop
  · obtain ⟨x, hx, rfl⟩ := List.mem_map.mp hop
    refine .inr fun p hp => ?_
    rw [Operation.blocks_of_isPlain (hxs x hx)] at hp
    cases hp
  · exact .inl hop

theorem Receives.operations (h : b.Receives xs b') :
    ∃ new, b'.operations = b.operations ++ new ∧ new ⊆ xs.map (·.op) := by
  obtain ⟨returns, rfl⟩ := h
  exact b.operations_add xs

theorem Receives.subset_of_operations (h : b.Receives xs b') {new : List Operation}
    (hnew : b'.operations = b.operations ++ new) : new ⊆ xs.map (·.op) := by
  obtain ⟨new', hnew', hsub⟩ := h.operations
  rwa [List.append_cancel_left (hnew.symm.trans hnew')]

end Block

/-! ## Ids that are given out -/

/-- The id is given out between the two sessions. -/
def Session.Gives (s s' : Session) (i : Nat) : Prop := s.nextId ≤ i ∧ i < s'.nextId

theorem Session.Gives.mono {s₁ s₂ s s' : Session} (h : s₁.Gives s₂ i) (hs : s.nextId ≤ s₁.nextId)
    (hs' : s₂.nextId ≤ s'.nextId) : s.Gives s' i :=
  ⟨Nat.le_trans hs h.1, Nat.lt_of_lt_of_le h.2 hs'⟩

/-- The ids of the node and of its children at `c'` are those at `c`, or were given out since. -/
structure Gains (c c' : Context) : Prop where
  nextId : c.session.nextId ≤ c'.session.nextId
  id : ∀ i, c'.dynamic.id = some i → c.dynamic.id = some i ∨ c.session.Gives c'.session i
  inside : ∀ i ∈ nodeIds c'.dynamic.children,
    i ∈ nodeIds c.dynamic.children ∨ c.session.Gives c'.session i

/-- From `c` to `c'` the block receives `xs`. What they name is the node or one of its children, or
was given out on the way. -/
structure Allots (c : Context) (xs : List Contribution) (c' : Context) : Prop
    extends Gains c c' where
  block : c.block.Receives xs c'.block
  named : ∀ x ∈ xs, ∀ i ∈ x.op.named,
    c.dynamic.id = some i ∨ i ∈ nodeIds c.dynamic.children ∨ c.session.Gives c'.session i

section Steps

variable {c c₁ c' : Context} {xs ys : List Contribution}

theorem Gains.trans (h₁ : Gains c c₁) (h₂ : Gains c₁ c') : Gains c c' where
  nextId := Nat.le_trans h₁.nextId h₂.nextId
  id := by
    intro i hi
    rcases h₂.id i hi with hi | hi
    · exact (h₁.id i hi).imp_right (·.mono (Nat.le_refl _) h₂.nextId)
    · exact .inr (hi.mono h₁.nextId (Nat.le_refl _))
  inside := by
    intro i hi
    rcases h₂.inside i hi with hi | hi
    · exact (h₁.inside i hi).imp_right (·.mono (Nat.le_refl _) h₂.nextId)
    · exact .inr (hi.mono h₁.nextId (Nat.le_refl _))

theorem Gains.of_same (hsession : c.session.nextId ≤ c'.session.nextId)
    (hid : c'.dynamic.id = c.dynamic.id) (hchildren : c'.dynamic.children = c.dynamic.children) :
    Gains c c' :=
  ⟨hsession, fun _ h => .inl (hid ▸ h), fun _ h => .inl (hchildren ▸ h)⟩

theorem Gains.refl (c : Context) : Gains c c := .of_same (Nat.le_refl _) rfl rfl

theorem Gains.referenced (c : Context) : Gains c c.referenced := by
  cases hid : c.dynamic.id with
  | some i =>
    rw [Context.referenced_of_some hid]
    exact .refl c
  | none =>
    refine ⟨?_, fun i hi => ?_, fun i hi => .inl (c.referenced_children ▸ hi)⟩
    · simp [Context.referenced, hid, Session.allocateId]
    · rw [Context.referenced_id, Context.ownId, hid, Option.getD_none, Option.some.injEq] at hi
      subst hi
      exact .inr (by simp [Session.Gives, Context.referenced, hid, Session.allocateId])

namespace Allots

theorem trans (h₁ : Allots c xs c₁) (h₂ : Allots c₁ ys c') : Allots c (xs ++ ys) c' where
  toGains := h₁.toGains.trans h₂.toGains
  block := h₁.block.trans h₂.block
  named := by
    intro x hx i hi
    have hwiden : ∀ {i}, c.session.Gives c₁.session i → c.session.Gives c'.session i :=
      fun h => h.mono (Nat.le_refl _) h₂.nextId
    rcases List.mem_append.mp hx with hx | hx
    · exact (h₁.named x hx i hi).imp_right (.imp_right hwiden)
    · rcases h₂.named x hx i hi with hi | hi | hi
      · exact (h₁.id i hi).imp_right fun h => .inr (hwiden h)
      · exact .inr ((h₁.inside i hi).imp_right hwiden)
      · exact .inr (.inr (hi.mono h₁.nextId (Nat.le_refl _)))

theorem of_gains (hblock : c'.block = c.block) (h : Gains c c') : Allots c [] c' where
  toGains := h
  block := .of_foldl hblock
  named := by simp

theorem referenced (c : Context) : Allots c [] c.referenced := .of_gains rfl (.referenced c)

theorem of_own (hblock : c'.block = xs.foldl Block.add c.block) (hgains : Gains c c')
    (hi : c.dynamic.id = some i) (hxs : ∀ x ∈ xs, x.op.named = [i]) : Allots c xs c' where
  toGains := hgains
  block := .of_foldl hblock
  named := by
    intro x hx j hj
    rw [hxs x hx, List.mem_singleton] at hj
    exact .inl (hj ▸ hi)

end Allots

end Steps

section Steps

variable {o : Options} {names : List String} {e : Element} {c c' : Context}
  {xs : List Contribution}

theorem OwnWork.allots (h : OwnWork c xs c') (hxs : ∀ x ∈ xs, x.op.named = [c.ownId]) :
    Allots c xs c' := by
  cases h with
  | none => exact .of_gains rfl (.refl c)
  | some xs actions =>
    exact (Allots.referenced c).trans
      (.of_own rfl (.of_same (Nat.le_refl _) rfl rfl) c.referenced_id hxs)

theorem ContainerWork.gains (h : ContainerWork o names e c c') : Gains c c' := by
  cases h with
  | idle => exact .refl c
  | literal => exact .of_same (Nat.le_refl _) rfl rfl
  | markup | text => exact (Gains.referenced c).trans (.of_same (Nat.le_refl _) rfl rfl)

theorem ContainerWork.allots (h : ContainerWork o names e c c') :
    ∃ xs, Allots c xs c' ∧ ∀ x ∈ xs, x.op.isOwn = true ∧ x.op.named = [c.ownId] := by
  obtain ⟨xs, hblock, hxs⟩ := h.block_eq
  refine ⟨xs, ⟨h.gains, .of_foldl hblock, fun x hx i hi => ?_⟩,
    fun x hx => ⟨(hxs x hx).1, (hxs x hx).2.1⟩⟩
  obtain ⟨-, hnamed, hid⟩ := hxs x hx
  rw [hnamed, List.mem_singleton] at hi
  exact (h.gains.id i (hi ▸ hid)).imp_right .inr

theorem Context.registered_gains (c : Context) : Gains c c.registered := by
  unfold registered
  split
  · exact .refl c
  · exact .of_same (Nat.le_of_eq (Session.nextId_addTemplate _ _).symm) rfl rfl

theorem Context.settled_allots (c : Context) (isFragment : Bool) :
    Allots c [] (c.settled isFragment) where
  toGains := by
    unfold settled
    split
    · exact .of_same (Nat.le_refl _) rfl rfl
    · split
      · refine ((Gains.referenced c).trans c.referenced.registered_gains).trans ?_
        unfold returned
        dsimp only
        split
        · exact .of_same (Nat.le_refl _) rfl rfl
        · exact .refl _
      · exact .refl c
  block := c.settled_block isFragment
  named := by simp

theorem Context.place_allots (c : Context) (e : Element) (markup : String) :
    Allots c [] ((c.closed e).place e markup) := by
  refine .of_gains (c.place_block e markup) ?_
  have hclosed : Gains c (c.closed e) := .of_same (by simp) (by simp) (by simp)
  refine hclosed.trans ?_
  unfold place
  split
  · refine (Gains.referenced (c.closed e)).trans (.of_same ?_ rfl rfl)
    exact Nat.le_of_eq (Session.nextId_addTemplate _ _).symm
  · exact .of_same (Nat.le_refl _) rfl rfl

/-! ## Placeholders -/

theorem mem_nodeIds_modify {ds : List NodeInfo} {a x : Nat}
    (h : x ∈ nodeIds (ds.modify i (NodeInfo.withAnchor a))) : x ∈ nodeIds ds ∨ x = a := by
  induction ds generalizing i with
  | nil => exact .inl (by simpa using h)
  | cons d ds ih =>
    cases i with
    | zero =>
      simp only [List.modify_zero_cons, nodeIds, NodeInfo.ids_eq, NodeInfo.withAnchor,
        Option.toList_some, List.mem_append, List.mem_singleton] at h ⊢
      rcases h with ((h | h) | h) | h
      · exact .inl (.inl (.inl (.inl h)))
      · exact .inr h
      · exact .inl (.inl (.inr h))
      · exact .inl (.inr h)
    | succ i =>
      simp only [List.modify_succ_cons, nodeIds, List.mem_append] at h ⊢
      rcases h with h | h
      · exact .inl (.inl h)
      · exact (ih h).imp_left .inr

theorem Context.anchored_gains (c : Context) (i : Nat) : Gains c (c.anchored i) where
  nextId := Nat.le_succ _
  id := fun _ h => .inl h
  inside := by
    intro j hj
    refine (mem_nodeIds_modify hj).imp_right fun h => ?_
    subst h
    exact ⟨Nat.le_refl _, Nat.lt_succ_self _⟩

theorem Context.insertAll_gains (c : Context) : Gains c c.insertAll := by
  have hadd (k : Context) (x : Contribution) : Gains k (k.referenced.add x) :=
    (Gains.referenced k).trans (.of_same (Nat.le_refl _) rfl rfl)
  exact c.insertAll_induction .refl .trans anchored_gains (fun c _ => hadd c _) fun c _ _ => hadd c _

theorem NodeInfo.mem_nodes_id {d k : NodeInfo} (hk : k ∈ d.nodes) (hi : k.id = some i) :
    d.id = some i ∨ i ∈ nodeIds d.children := by
  rcases List.mem_cons.mp hk with rfl | hk
  · exact .inl hi
  · rw [d.inside_eq] at hk
    exact .inr ((insideAll_filterMap_id_sublist d.children).subset (List.mem_filterMap.mpr ⟨k, hk, hi⟩))

theorem Context.insertAll_allots (c : Context) :
    ∃ ops : List Operation, Allots c (ops.map .once) c.insertAll ∧
      ∀ op ∈ ops, op.created? = none := by
  obtain ⟨ops, -, hblock, -, hops⟩ := c.insertAll_names
  have hgains := c.insertAll_gains
  refine ⟨ops, ⟨hgains, .of_foldl ?_, ?_⟩, fun op hop => (hops op hop).1⟩
  · rw [hblock, List.foldl_map]
    rfl
  · intro x hx i hi
    obtain ⟨op, hop, rfl⟩ := List.mem_map.mp hx
    obtain ⟨k, hk, hki⟩ := (hops op hop).2.named i hi
    rcases NodeInfo.mem_nodes_id hk hki with h | h
    · exact (hgains.id i h).imp_right .inr
    · exact .inr (hgains.inside i h)

end Steps

/-! ## Making blocks -/

section Making

variable {visit : Transform Unit} {s s' : Session}
  (hconserves : Ensures visit Conserves)

theorem Session.nextId_le_of_unused {ids : Nat → Nat}
    (h : ∀ x, ids x + s'.unused x = s.unused x) : s.nextId ≤ s'.nextId := by
  have hlast := h s'.nextId
  by_contra hlt
  simp [unused, hlt] at hlast

include hconserves

theorem Makes.nextId_le {rs : List (List String × Fragment)} {is : List Nat} {bs : List Block}
    (h : Makes visit s rs is bs s') : s.nextId ≤ s'.nextId :=
  Session.nextId_le_of_unused (h.unused_eq hconserves)

theorem Makes.gives {rs : List (List String × Fragment)} {is : List Nat} {bs : List Block}
    (h : Makes visit s rs is bs s') : ∀ i ∈ is, s.Gives s' i := by
  intro i hi
  have hcount := List.count_pos_iff.mpr hi
  have hunused := h.unused_eq hconserves i
  unfold Session.unused at hunused
  constructor <;> split at hunused <;> split at hunused <;> omega

end Making

/-! ## Visits -/

theorem Operation.isPlain_of_created? (h : op.created? = none) : op.isPlain = true := by
  cases op <;> simp_all [created?, isPlain]

theorem Operation.named_of_created? (h : op.created? = some i) : op.named = [i] := by
  cases op <;> simp_all [created?, named]

/-- A walk over children names only nodes whose ids it gives out. -/
structure WalkAllots (c : Context) (xs : List Contribution) (c' : Context) : Prop
    extends Allots c xs c' where
  within : ∀ x ∈ xs, ∀ i ∈ x.op.named, c.session.Gives c'.session i

section Visits

variable {o : Options} {names : List String} {visit : Transform Unit} {c c' : Context}
  (hconserves : Ensures visit Conserves)
  (hvisit : Ensures visit fun c c' => ∃ xs, Allots c xs c')

include hconserves hvisit

theorem VisitsChildren.allots {isFragment : Bool} {frame : Frame} {ns : List Node}
    (h : VisitsChildren visit isFragment frame i ns c c') : ∃ xs, WalkAllots c xs c' := by
  induction h with
  | nil => exact ⟨[], .of_gains rfl (.refl _), by simp⟩
  | @cons frame _ i n ns c k c' hframe hrun _ _ ih =>
    obtain ⟨xs, hxs⟩ := hvisit _ _ (hframe.child_fresh c) hrun
    obtain ⟨ys, hys⟩ := ih
    have hanchor : (k.settled isFragment).dynamic.anchor = none :=
      k.settled_anchor.trans (hconserves _ _ (hframe.child_fresh c) hrun).1
    have hk : Allots (c.child n i frame) (xs ++ []) (k.settled isFragment) :=
      hxs.trans (k.settled_allots isFragment)
    rw [List.append_nil] at hk
    have hgives : ∀ i, (k.settled isFragment).dynamic.id = some i ∨
        i ∈ nodeIds (k.settled isFragment).dynamic.children →
        c.session.Gives (k.settled isFragment).session i := by
      intro i hi
      rcases hi with hi | hi
      · exact (hk.id i hi).resolve_left nofun
      · exact (hk.inside i hi).resolve_left nofun
    have hwithin : ∀ x ∈ xs, ∀ i ∈ x.op.named,
        c.session.Gives (k.settled isFragment).session i := by
      intro x hx i hi
      exact ((hk.named x hx i hi).resolve_left nofun).resolve_left nofun
    have hadopt : Allots c xs (c.adopt isFragment (k.settled isFragment)) := by
      refine ⟨⟨hk.nextId, fun _ h => .inl h, fun i hi => ?_⟩, hk.block,
        fun x hx i hi => .inr (.inr (hwithin x hx i hi))⟩
      simp only [Context.adopt, nodeIds_append, nodeIds, List.append_nil, NodeInfo.ids_eq, hanchor,
        Option.toList_none, List.mem_append, Option.mem_toList, List.append_nil] at hi
      exact hi.imp_right (hgives i)
    refine ⟨xs ++ ys, hadopt.trans hys.toAllots, fun x hx i hi => ?_⟩
    rcases List.mem_append.mp hx with hx | hx
    · exact (hwithin x hx i hi).mono (Nat.le_refl _) hys.nextId
    · exact (hys.within x hx i hi).mono hadopt.nextId (Nat.le_refl _)

omit hvisit in
theorem Creates.allots {id : Nat} {xs : List Contribution} {op : Operation}
    (h : Creates o names visit c id xs op c') : Allots c (xs ++ [.once op]) c' := by
  obtain ⟨new, hnew, hmakes⟩ := h.makes
  have hid : c.dynamic.id = some id ∨ c.session.Gives c'.session id := by
    have hmem : id ∈ c.dynamic.id.toList ++ new := hnew ▸ List.mem_singleton_self id
    rcases List.mem_append.mp hmem with hmem | hmem
    · exact .inl (Option.mem_toList.mp hmem)
    · exact .inr (hmakes.gives hconserves id (List.mem_append_left _ hmem))
  refine ⟨⟨hmakes.nextId_le hconserves, fun i hi => ?_, fun i hi => .inl ?_⟩, .of_foldl ?_,
    fun x hx i hi => ?_⟩
  · rw [h.dynamic] at hi
    exact Option.some.inj hi ▸ hid
  · rwa [h.dynamic] at hi
  · rw [h.block, List.foldl_append]
    rfl
  · have hnamed : x.op.named = [id] := by
      obtain ⟨e, props, hown⟩ := h.own
      rcases List.mem_append.mp hx with hx | hx
      · exact hown.named_eq x hx
      · rw [List.mem_singleton.mp hx]
        exact Operation.named_of_created? h.created
    rw [hnamed, List.mem_singleton] at hi
    exact hid.imp (hi ▸ ·) (.inr <| hi ▸ ·)

/-- What one visit contributes, if the visits inside contribute so. -/
theorem Visits.allots (h : Visits o names visit c c') : ∃ xs, Allots c xs c' := by
  cases h.proceeds with
  | absorbed | text | comment | dropped =>
    exact ⟨[], .of_gains rfl (.of_same (Nat.le_refl _) rfl rfl)⟩
  | created hcreates => exact ⟨_, hcreates.allots hconserves⟩
  | @native e _ _ _ c₂ k _ hbuilds =>
    obtain ⟨xs₁, hxs₁, -⟩ := hbuilds.container.allots
    obtain ⟨xs₂, hxs₂⟩ := hbuilds.walk.allots hconserves hvisit
    obtain ⟨ops, hops, -⟩ := c₂.insertAll_allots
    have hown := hbuilds.work.allots fun x hx => (hbuilds.own x hx).named_eq
    exact ⟨_, hxs₁.trans (hxs₂.toAllots.trans (hops.trans (hown.trans (k.place_allots e _))))⟩
  | fragment hn hwalk =>
    obtain ⟨xs, hxs⟩ := hwalk.allots hconserves hvisit
    exact ⟨xs, hxs.toAllots⟩

end Visits

theorem visit_allots {o : Options} (hpasses : o.passes = Pass.all) (depth : Nat) :
    Ensures (visit o depth) fun c c' => ∃ xs, Allots c xs c' := by
  refine visit_ensures hpasses (fun depth ih c c' names _ hvisits => ?_) depth
  exact hvisits.allots (visit_conserves hpasses depth) ih

end TemplateCompiler
