import TemplateCompiler.Proofs.Insertion.Arranged
import TemplateCompiler.Proofs.Transform.Later

/-! # Visits arrange what is inside

A visit arranges the elements inside its node. This holds of an element when it is visited. It stays
true because later operations are about other nodes, whose ids are different.
-/

namespace TemplateCompiler

open Template (Element Fragment Node)
open Transform

variable {ks' : List NodeInfo} {op : Operation} {xs : List Contribution}

/-! ## Visits -/

theorem NodeInfo.Later.mem_ids {d d' : NodeInfo} (h : d.Later d') {p : Nat}
    (hp : d.id = some p ∨ p ∈ nodeIds d.children) : p ∈ d'.ids := by
  rw [ids_eq, h.children]
  rcases hp with hp | hp
  · simp [h.id p hp]
  · exact List.mem_append_right _ hp

theorem Within.ids_sublist {n m : Node} {d k : NodeInfo} (h : Within n d m k) :
    k.ids.Sublist d.ids := by
  induction h with
  | self => exact .refl _
  | @child n m m' d k k' i _ hk _ ih =>
    refine ih.trans ((NodeInfo.ids_sublist_nodeIds (List.mem_of_getElem? hk)).trans ?_)
    rw [d.ids_eq]
    exact List.sublist_append_right _ _

/-- A visit adds operations to its block which arrange the elements inside the node. -/
structure Arranges (c c' : Context) (new : List Operation) : Prop where
  operations : c'.block.operations = c.block.operations ++ new
  insert : c'.dynamic.flags.insert = true →
    c'.dynamic.flags.nonTemplate = true ∧ c'.dynamic.id.isSome = true
  /-- Operations are on the node itself or on nodes inside. -/
  parents : ∀ op ∈ new, ∀ p, op.parent? = some p →
    c'.dynamic.id = some p ∨ p ∈ nodeIds c'.dynamic.children
  /-- What is put into a node is inside the node that is visited. -/
  uses : ∀ x, (new.flatMap (·.uses)).count x ≤ (nodeIds c'.dynamic.children).count x
  arranged : ∀ d', c'.dynamic.Later d' → d'.ids.Nodup →
    ∀ e de, Within c.node d' (.element e) de → e.kind = .regular →
      de.children.length = e.children.length ∧ Arranged new de

theorem Operation.uses_of_parent? (h : op.parent? = none) : op.uses = [] := by
  cases op <;> simp_all [parent?, uses, elements, anchor?]

theorem flatMap_uses_of_parent? {ops : List Operation} (h : ∀ op ∈ ops, op.parent? = none) :
    ops.flatMap (·.uses) = [] := by
  rw [List.flatMap_eq_nil_iff]
  exact fun op hop => Operation.uses_of_parent? (h op hop)

/-- A node without children of its own in the block arranges nothing. -/
theorem Arranges.of_childless {c c' : Context} {new : List Operation}
    (hoperations : c'.block.operations = c.block.operations ++ new)
    (hnew : ∀ op ∈ new, op.parent? = none) (hchildren : c'.dynamic.children = [])
    (hinsert : c'.dynamic.flags.insert = true →
      c'.dynamic.flags.nonTemplate = true ∧ c'.dynamic.id.isSome = true)
    (hnode : ∀ e, c.node = .element e → e.kind ≠ .regular) : Arranges c c' new where
  operations := hoperations
  insert := hinsert
  parents := by
    intro op hop p hp
    simp [hnew op hop] at hp
  uses := by
    intro x
    rw [flatMap_uses_of_parent? hnew]
    exact Nat.zero_le _
  arranged := by
    intro d' hlater _ e de hwithin hkind
    cases hn : c.node with
    | element e' =>
      rw [hn] at hwithin
      cases hwithin with
      | self => exact absurd hkind (hnode e hn)
      | child _ hk => simp [hlater.children, hchildren] at hk
    | _ =>
      rw [hn] at hwithin
      cases hwithin with
      | child _ hk => simp [hlater.children, hchildren] at hk

/-! ## Walks over children -/

/-- A walk over children adds operations which arrange the elements inside them. -/
structure WalkArranges (isFragment : Bool) (ns : List Node) (c c' : Context)
    (new : List Operation) (ks : List NodeInfo) : Prop where
  operations : c'.block.operations = c.block.operations ++ new
  children : c'.dynamic.children = c.dynamic.children ++ ks
  length : ks.length = ns.length
  ready : isFragment = false → ∀ k ∈ ks, k.IsReady
  parents : ∀ op ∈ new, ∀ p, op.parent? = some p →
    ∃ k ∈ ks, k.id = some p ∨ p ∈ nodeIds k.children
  uses : ∀ x, (new.flatMap (·.uses)).count x ≤ (ks.flatMap (nodeIds ·.children)).count x
  arranged : ∀ ks', List.Forall₂ NodeInfo.Later ks ks' → (nodeIds ks').Nodup →
    ∀ (i : Nat) m k', ns[i]? = some m → ks'[i]? = some k' →
      ∀ e de, Within m k' (.element e) de → e.kind = .regular →
        de.children.length = e.children.length ∧ Arranged new de

section

variable {ks : List NodeInfo} (h : List.Forall₂ NodeInfo.Later ks ks')

include h

theorem flatMap_later : ks'.flatMap (nodeIds ·.children) = ks.flatMap (nodeIds ·.children) := by
  induction h with
  | nil => rfl
  | cons hk _ ih => rw [List.flatMap_cons, List.flatMap_cons, hk.children, ih]

theorem count_le_one_of_later (hnodup : (nodeIds ks').Nodup) (x : Nat) :
    (ks.flatMap (nodeIds ·.children)).count x ≤ 1 := by
  have hcount := count_nodeIds ks' x
  have hle := List.nodup_iff_count.mp hnodup x
  rw [flatMap_later h] at hcount
  omega

theorem mem_nodeIds_of_later {k : NodeInfo} (hk : k ∈ ks) {p : Nat}
    (hp : k.id = some p ∨ p ∈ nodeIds k.children) : p ∈ nodeIds ks' := by
  induction h with
  | nil => simp at hk
  | cons hlater _ ih =>
    rw [nodeIds, List.mem_append]
    rcases List.mem_cons.mp hk with rfl | hk
    · exact .inl (hlater.mem_ids hp)
    · exact .inr (ih hk)

end

theorem Operation.insertsInto_eq_true {id : Option Nat} (h : op.insertsInto id = true) :
    ∃ p, op.parent? = some p ∧ id = some p := by
  cases hp : op.parent? with
  | none => simp [insertsInto, hp] at h
  | some p => exact ⟨p, rfl, by simpa [insertsInto, hp] using h⟩

/-- The operations of a node and of others that share no id are on different nodes. -/
theorem not_insertsInto_of_notMem {ops : List Operation} {d : NodeInfo} (ids : List Nat)
    (hops : ∀ op ∈ ops, ∀ p, op.parent? = some p → p ∈ ids)
    (hd : ∀ p, d.id = some p → p ∉ ids) : ∀ op ∈ ops, op.insertsInto d.id = false := by
  intro op hop
  cases hinto : op.insertsInto d.id with
  | false => rfl
  | true =>
    obtain ⟨p, hp, hid⟩ := Operation.insertsInto_eq_true hinto
    exact absurd (hops op hop p hp) (hd p hid)

theorem settled_isReady {k : Context} (isFragment : Bool) (hanchor : k.dynamic.anchor = none)
    (hinsert : k.dynamic.flags.insert = true →
      k.dynamic.flags.nonTemplate = true ∧ k.dynamic.id.isSome = true) :
    (k.settled isFragment).dynamic.IsReady := by
  refine ⟨k.settled_anchor.trans hanchor, fun hsettled => ?_⟩
  rcases k.settled_dynamic isFragment with h | h | ⟨_, h⟩ <;> rw [h] at hsettled ⊢
  · have hk : k.dynamic.flags.insert = true := by simpa [Context.flag, Flags.union] using hsettled
    simp [Context.flag, Flags.union, (hinsert hk).2]
  · exact hinsert hsettled
  · exact ⟨by simpa using (hinsert (by simpa using hsettled)).1, by simp⟩

theorem VisitsChildren.arranges {visit : Transform Unit} {isFragment : Bool} {frame : Frame}
    {i : Nat} {ns : List Node} {c c' : Context}
    (hconserves : Ensures visit Conserves)
    (hvisit : Ensures visit fun c c' => ∃ new, Arranges c c' new)
    (h : VisitsChildren visit isFragment frame i ns c c') :
    ∃ new ks, WalkArranges isFragment ns c c' new ks := by
  induction h with
  | nil => exact ⟨[], [], by simp, by simp, rfl, by simp, by simp, by simp, by simp⟩
  | @cons _ _ i n ns c k c' hframe hrun _ _ ih =>
    obtain ⟨new₁, h₁⟩ := hvisit _ _ (hframe.child_fresh c) hrun
    obtain ⟨hanchor, -⟩ := hconserves _ _ (hframe.child_fresh c) hrun
    obtain ⟨new₂, ks, h₂⟩ := ih
    have hlater := k.settled_later isFragment
    have hops : (k.settled isFragment).block.operations = c.block.operations ++ new₁ :=
      (k.settled_operations isFragment).trans h₁.operations
    have hparents₁ : ∀ op ∈ new₁, ∀ p, op.parent? = some p →
        (k.settled isFragment).dynamic.id = some p ∨
          p ∈ nodeIds (k.settled isFragment).dynamic.children := by
      intro op hop p hp
      rw [hlater.children]
      exact (h₁.parents op hop p hp).imp_left (hlater.id p)
    have huses : ∀ x, ((new₁ ++ new₂).flatMap (·.uses)).count x ≤
        (((k.settled isFragment).dynamic :: ks).flatMap (nodeIds ·.children)).count x := by
      intro x
      have hle₁ := h₁.uses x
      have hle₂ := h₂.uses x
      rw [← hlater.children] at hle₁
      simp only [List.flatMap_append, List.flatMap_cons, List.count_append]
      omega
    refine ⟨new₁ ++ new₂, (k.settled isFragment).dynamic :: ks, ?_, ?_, ?_, ?_, ?_, ?_, ?_⟩
    · rw [h₂.operations, ← List.append_assoc, ← hops]
      rfl
    · rw [h₂.children]
      simp [Context.adopt]
    · simp [h₂.length]
    · intro hfragment d hd
      rcases List.mem_cons.mp hd with rfl | hd
      · exact settled_isReady isFragment hanchor h₁.insert
      · exact h₂.ready hfragment d hd
    · intro op hop p hp
      rcases List.mem_append.mp hop with hop | hop
      · exact ⟨_, by simp, hparents₁ op hop p hp⟩
      · obtain ⟨d, hd, hdp⟩ := h₂.parents op hop p hp
        exact ⟨d, by simp [hd], hdp⟩
    · exact huses
    · intro all hall hnodup j m d hm hd e de hwithin hkind
      cases hall with
      | @cons _ d₁ _ ds hd₁ hds =>
        have hunique : ∀ x, ((new₁ ++ new₂).flatMap (·.uses)).count x ≤ 1 := fun x =>
          Nat.le_trans (huses x) (count_le_one_of_later (.cons hd₁ hds) hnodup x)
        rw [nodeIds, List.nodup_append] at hnodup
        obtain ⟨hnodup₁, hnodup₂, hdisjoint⟩ := hnodup
        cases j with
        | zero =>
          obtain rfl : n = m := by simpa using hm
          obtain rfl : d₁ = d := by simpa using hd
          obtain ⟨hlength, harranged⟩ :=
            h₁.arranged d₁ (hlater.trans hd₁) hnodup₁ e de hwithin hkind
          have hothers : ∀ op ∈ [] ++ new₂, op.insertsInto de.id = false := by
            refine not_insertsInto_of_notMem (nodeIds ds) (fun op hop p hp => ?_)
              fun p hp hmem => ?_
            · obtain ⟨k', hk', hp'⟩ := h₂.parents op hop p hp
              exact mem_nodeIds_of_later hds hk' hp'
            · exact hdisjoint p (hwithin.ids_sublist.subset (de.mem_ids_of_id hp)) p hmem rfl
          exact ⟨hlength, harranged.append hothers hunique⟩
        | succ j =>
          obtain ⟨hlength, harranged⟩ :=
            h₂.arranged ds hds hnodup₂ j m d hm hd e de hwithin hkind
          have hothers : ∀ op ∈ new₁ ++ [], op.insertsInto de.id = false := by
            rw [List.append_nil]
            refine not_insertsInto_of_notMem d₁.ids
              (fun op hop p hp => hd₁.mem_ids (hparents₁ op hop p hp)) fun p hp hmem => ?_
            have hd' : d.ids.Sublist (nodeIds ds) :=
              NodeInfo.ids_sublist_nodeIds (List.mem_of_getElem? hd)
            exact hdisjoint p hmem p
              (hd'.subset (hwithin.ids_sublist.subset (de.mem_ids_of_id hp))) rfl
          refine ⟨hlength, ?_⟩
          simpa using harranged.append hothers (by simpa using hunique)

/-! ## Elements -/

section Steps

variable {o : Options} {names : List String} {e : Element} {c c' : Context}

theorem Operation.parent?_of_isOwn (h : op.isOwn = true) : op.parent? = none := by
  cases op <;> simp_all [isOwn, parent?]

theorem OwnWork.parent?_eq (h : OwnWork c xs c') (hxs : ∀ x ∈ xs, x.op.isOwn = true) :
    ∃ new, c'.block.operations = c.block.operations ++ new ∧ ∀ op ∈ new, op.parent? = .none := by
  obtain ⟨new, hnew, hsub⟩ := h.operations
  refine ⟨new, hnew, fun op hop => ?_⟩
  obtain ⟨x, hx, rfl⟩ := List.mem_map.mp (hsub hop)
  exact Operation.parent?_of_isOwn (hxs x hx)

theorem Operation.parent?_of_created? {id : Nat} (h : op.created? = some id) :
    op.parent? = none := by
  cases op <;> simp_all [created?, parent?]

theorem Creates.parent?_eq {visit : Transform Unit} {id : Nat}
    (h : Creates o names visit c id xs op c') :
    ∃ new, c'.block.operations = c.block.operations ++ new ∧ ∀ op ∈ new, op.parent? = none := by
  obtain ⟨new, hnew, hsub⟩ := c.block.operations_add xs
  refine ⟨new ++ [op], ?_, fun op' hop' => ?_⟩
  · rw [h.block]
    exact (congrArg (· ++ [op]) hnew).trans (List.append_assoc _ _ _)
  · rcases List.mem_append.mp hop' with hop' | hop'
    · obtain ⟨x, hx, rfl⟩ := List.mem_map.mp (hsub hop')
      exact Operation.parent?_of_isOwn (h.isOwn x hx)
    · rw [List.mem_singleton.mp hop']
      exact Operation.parent?_of_created? h.created

theorem ContainerWork.parent?_eq (h : ContainerWork o names e c c') :
    ∃ new, c'.block.operations = c.block.operations ++ new ∧ ∀ op ∈ new, op.parent? = none := by
  cases h with
  | idle | literal => exact ⟨[], by simp, by simp⟩
  | markup =>
    obtain ⟨new, hnew, hsub⟩ := c.block.operations_add [.whenever _ (.setHtml _ _)]
    refine ⟨new, hnew, fun op hop => ?_⟩
    rw [List.mem_singleton.mp (hsub hop)]
    rfl
  | text =>
    obtain ⟨new, hnew, hsub⟩ := c.block.operations_add [.whenever _ (.setText _ _)]
    refine ⟨new, hnew, fun op hop => ?_⟩
    rw [List.mem_singleton.mp (hsub hop)]
    rfl

/-- An element whose markup is misplaced is inserted, and is then not part of other markup. -/
theorem Context.place_insert (c : Context) (e : Element) (markup : String)
    (hc : c.dynamic.flags.insert = false) :
    ((c.closed e).place e markup).dynamic.flags.insert = true →
      ((c.closed e).place e markup).dynamic.flags.nonTemplate = true ∧
        ((c.closed e).place e markup).dynamic.id.isSome = true := by
  unfold place
  split
  · exact fun _ => ⟨by simp [flag, Flags.union, Flags.inserted], by simp [flag]⟩
  · intro h
    simp [write, hc] at h

end Steps

theorem forall₂_modify {α β : Type} {R : α → β → Prop} {xs : List α} {ys : List β}
    {f : β → β} (h : List.Forall₂ R xs ys) (i : Nat)
    (hf : ∀ x y, xs[i]? = some x → R x y → R x (f y)) : List.Forall₂ R xs (ys.modify i f) := by
  induction h generalizing i with
  | nil => simp
  | @cons x y xs ys hxy hrest ih =>
    cases i with
    | zero => exact .cons (hf x y rfl hxy) hrest
    | succ i => exact .cons hxy (ih i fun x y hx => hf x y (by simpa using hx))

/-- Placing anchors keeps the children in a relation that it keeps each of them in. -/
theorem forall₂_placeAll {R : NodeInfo → NodeInfo → Prop} (hrefl : ∀ d, R d d)
    (hanchor : ∀ d d' a, R d d' → R d (d'.withAnchor a)) (anchors : List (Nat × Nat))
    (ks : List NodeInfo) : List.Forall₂ R ks (placeAll anchors ks) := by
  have hall : ∀ ds, List.Forall₂ R ks ds → List.Forall₂ R ks (placeAll anchors ds) := by
    induction anchors with
    | nil => exact fun ds h => h
    | cons y anchors ih =>
      exact fun ds h => ih _ (forall₂_modify h y.1 fun _ _ _ hd => hanchor _ _ y.2 hd)
  exact hall ks (List.forall₂_same.mpr fun k _ => hrefl k)

theorem later_placeAll (anchors : List (Nat × Nat)) (ks : List NodeInfo) :
    List.Forall₂ NodeInfo.Later ks (placeAll anchors ks) :=
  forall₂_placeAll .refl (fun _ _ _ hd => ⟨hd.children, hd.id⟩) anchors ks

theorem not_insertsInto_of_parent? {ops : List Operation} (h : ∀ op ∈ ops, op.parent? = none)
    (id : Option Nat) : ∀ op ∈ ops, op.insertsInto id = false := by
  intro op hop
  simp [Operation.insertsInto, h op hop]

section InsertedWalk

/-! The operations of an element: those of its children, those that insert them, and others before
and after that insert nothing. -/

variable {ns : List Node} {c₁ c₂ : Context} {ks : List NodeInfo} {parent : Nat}
  {anchors : List (Nat × Nat)} {before new ops after : List Operation}
  (hwalk : WalkArranges false ns c₁ c₂ new ks)
  (hinserting : Inserting parent (insertions [] false (ks.zipIdx.map Prod.swap)) anchors ops)
  (hbefore : ∀ op ∈ before, op.parent? = none) (hafter : ∀ op ∈ after, op.parent? = none)

include hwalk hinserting hbefore hafter

theorem WalkArranges.uses_inserted (x : Nat) :
    ((before ++ new ++ ops ++ after).flatMap (·.uses)).count x ≤
      (nodeIds (placeAll anchors ks)).count x := by
  have hnew := hwalk.uses x
  have hops := hinserting.count_uses_le (hwalk.ready rfl) x
  simp only [List.flatMap_append, flatMap_uses_of_parent? hbefore, flatMap_uses_of_parent? hafter,
    List.nil_append, List.append_nil, List.count_append]
  omega

variable {d : NodeInfo} (hchildren : d.children = placeAll anchors ks)
  (hid : ops ≠ [] → d.id = some parent) (hnodup : d.ids.Nodup)

include hchildren hid hnodup

omit hid in
theorem WalkArranges.count_uses_le_one (x : Nat) :
    ((before ++ new ++ ops ++ after).flatMap (·.uses)).count x ≤ 1 := by
  have hle := List.nodup_iff_count.mp hnodup x
  have huses := hwalk.uses_inserted hinserting hbefore hafter x
  rw [d.ids_eq, List.count_append, hchildren] at hle
  omega

/-- The element itself is arranged. -/
theorem WalkArranges.arranged_self : Arranged (before ++ new ++ ops ++ after) d := by
  have hself := hinserting.arranged (hwalk.ready rfl) hchildren hid hnodup
  refine hself.append ?_ (hwalk.count_uses_le_one hinserting hbefore hafter hchildren hnodup)
  intro op hop
  rcases List.mem_append.mp hop with hop | hop
  · rcases List.mem_append.mp hop with hop | hop
    · exact not_insertsInto_of_parent? hbefore d.id op hop
    · refine not_insertsInto_of_notMem (nodeIds d.children) (fun op hop p hp => ?_)
        (fun p hp => NodeInfo.notMem_nodeIds hnodup hp) op hop
      obtain ⟨k, hk, hkp⟩ := hwalk.parents op hop p hp
      rw [hchildren]
      exact mem_nodeIds_of_later (later_placeAll anchors ks) hk hkp
  · exact not_insertsInto_of_parent? hafter d.id op hop

/-- What is arranged inside a child stays so. -/
theorem WalkArranges.arranged_inside {de : NodeInfo} (h : Arranged new de)
    (hde : ∀ p, de.id = some p → p ∈ nodeIds d.children) :
    Arranged (before ++ new ++ ops ++ after) de := by
  have hunique := hwalk.count_uses_le_one hinserting hbefore hafter hchildren hnodup
  rw [List.append_assoc _ ops after] at hunique ⊢
  refine h.append ?_ hunique
  intro op hop
  rcases List.mem_append.mp hop with hop | hop
  · exact not_insertsInto_of_parent? hbefore de.id op hop
  · rcases List.mem_append.mp hop with hop | hop
    · refine not_insertsInto_of_notMem [parent] (fun op hop p hp => ?_) (fun p hp hmem => ?_) op hop
      · rw [hinserting.parent?_eq op hop] at hp
        simpa using hp.symm
      · have hd := hid (List.ne_nil_of_mem hop)
        rw [List.mem_singleton] at hmem
        exact NodeInfo.notMem_nodeIds hnodup hd (hmem ▸ hde p hp)
    · exact not_insertsInto_of_parent? hafter de.id op hop

end InsertedWalk

/-! ## Visits -/

section Visits

variable {o : Options} {names : List String} {visit : Transform Unit} {e : Element}
  {c c₁ c₂ k : Context}

section

variable (hconserves : Ensures visit Conserves)
  (hvisit : Ensures visit fun c c' => ∃ new, Arranges c c' new) (hc : c.Fresh)

include hconserves hvisit hc

/-- An element is arranged, and so are the elements inside it. -/
theorem arranges_native {props : List Property} {markup : String}
    (h : Builds o names visit e props xs c c₁ c₂ k) :
    ∃ new, Arranges c ((k.closed e).place e markup) new := by
  obtain ⟨before, hbefore, hbeforeParent⟩ := h.container.parent?_eq
  obtain ⟨new, ks, hwalk⟩ := h.walk.arranges hconserves hvisit
  obtain ⟨anchors, ops, parent, hplaced, -, hoperations, hparent, hinserting⟩ := c₂.insertAll_spec
  obtain ⟨after, hafter, hafterParent⟩ := h.work.parent?_eq h.isOwn
  have hks : c₂.dynamic.children = ks := by
    rw [hwalk.children, h.childless hc, List.nil_append]
  rw [hks] at hplaced hinserting
  have hlater : c₂.insertAll.dynamic.Later ((k.closed e).place e markup).dynamic :=
    h.work.later.trans (k.place_later e markup)
  have hfinal : ((k.closed e).place e markup).dynamic.children = placeAll anchors ks :=
    hlater.children.trans hplaced
  have hid : ∀ {d : NodeInfo}, ((k.closed e).place e markup).dynamic.Later d →
      ops ≠ [] → d.id = some parent :=
    fun hd hne => hd.id parent (hlater.id parent (hparent hne))
  refine ⟨before ++ new ++ ops ++ after, ?_, ?_, ?_, ?_, ?_⟩
  · rw [k.place_block, hafter, hoperations, hwalk.operations, hbefore]
    simp only [List.append_assoc]
  · exact k.place_insert e markup (h.unplaced.insert.trans hc.insert)
  · intro op hop p hp
    simp only [List.mem_append] at hop
    rcases hop with ((hop | hop) | hop) | hop
    · simp [hbeforeParent op hop] at hp
    · obtain ⟨d, hd, hdp⟩ := hwalk.parents op hop p hp
      rw [hfinal]
      exact .inr (mem_nodeIds_of_later (later_placeAll anchors ks) hd hdp)
    · obtain rfl : parent = p := by
        simpa [hinserting.parent?_eq op hop] using hp
      exact .inl (hid (.refl _) (List.ne_nil_of_mem hop))
    · simp [hafterParent op hop] at hp
  · intro x
    rw [hfinal]
    exact hwalk.uses_inserted hinserting hbeforeParent hafterParent x
  · intro d hd hnodup e' de hwithin hkind
    have hd' : d.children = placeAll anchors ks := hd.children.trans hfinal
    rw [h.node] at hwithin
    cases hwithin with
    | self =>
      refine ⟨?_, hwalk.arranged_self hinserting hbeforeParent hafterParent hd' (hid hd) hnodup⟩
      rw [hd', ← (later_placeAll anchors ks).length_eq, hwalk.length]
    | @child _ m _ _ k' _ i hm hk' hwithin =>
      have hnodup' : (nodeIds (placeAll anchors ks)).Nodup := by
        rw [d.ids_eq, hd'] at hnodup
        exact (List.nodup_append.mp hnodup).2.1
      obtain ⟨hlength, hinside⟩ := hwalk.arranged _ (later_placeAll anchors ks) hnodup' i m k' hm
        (hd' ▸ hk') e' de hwithin hkind
      refine ⟨hlength, hwalk.arranged_inside hinserting hbeforeParent hafterParent hd' (hid hd)
        hnodup hinside fun p hp => ?_⟩
      exact (NodeInfo.ids_sublist_nodeIds (List.mem_of_getElem? hk')).subset
        (hwithin.ids_sublist.subset (de.mem_ids_of_id hp))

theorem arranges_fragment {f : Fragment} {frame : Frame} {c' : Context} (hn : c.node = .fragment f)
    (h : VisitsChildren visit true frame 0 f.children c c') : ∃ new, Arranges c c' new := by
  obtain ⟨new, ks, hwalk⟩ := h.arranges hconserves hvisit
  have hks : c'.dynamic.children = ks := by
    rw [hwalk.children, hc.children, List.nil_append]
  have hsame : List.Forall₂ NodeInfo.Later ks ks := List.forall₂_same.mpr fun k _ => .refl k
  refine ⟨new, hwalk.operations, ?_, ?_, ?_, ?_⟩
  · intro hinsert
    rw [h.flags_eq, hc.insert] at hinsert
    cases hinsert
  · intro op hop p hp
    obtain ⟨k, hk, hkp⟩ := hwalk.parents op hop p hp
    rw [hks]
    exact .inr (mem_nodeIds_of_later hsame hk hkp)
  · intro x
    have hcount := count_nodeIds ks x
    have huses := hwalk.uses x
    rw [hks]
    omega
  · intro d hd hnodup e de hwithin hkind
    have hd' : d.children = ks := hd.children.trans hks
    rw [hn] at hwithin
    cases hwithin with
    | @child _ m _ _ k _ i hm hk hwithin =>
      have hnodup' : (nodeIds ks).Nodup := by
        rw [d.ids_eq, hd'] at hnodup
        exact (List.nodup_append.mp hnodup).2.1
      exact hwalk.arranged ks hsame hnodup' i m k hm (hd' ▸ hk) e de hwithin hkind

/-- A visit arranges what is inside its node, if the visits inside do. -/
theorem Visits.arranges {c' : Context} (h : Visits o names visit c c') :
    ∃ new, Arranges c c' new := by
  have hnone : c.dynamic.flags.insert = true → False := by simp [hc.insert]
  cases h.proceeds with
  | absorbed _ hn =>
    refine ⟨[], .of_childless (by simp [Context.flag]) (by simp) hc.children ?_ ?_⟩
    · simp [Context.flag, Flags.union, hc.insert]
    · intro e he
      simp [he, Node.isAbsorbable] at hn
  | text hn | comment hn | dropped hn =>
    refine ⟨[], .of_childless (by simp [Context.write]) (by simp) hc.children ?_ ?_⟩
    · exact fun h => (hnone h).elim
    · simp [hn]
  | created hcreates =>
    obtain ⟨new, hnew, hparent⟩ := hcreates.parent?_eq
    refine ⟨new, .of_childless hnew hparent ?_ ?_ hcreates.kind_ne_regular⟩
    · rw [hcreates.dynamic]
      exact hc.children
    · simp [hcreates.dynamic]
  | native hbuilds => exact arranges_native hconserves hvisit hc hbuilds
  | fragment hn hchildren => exact arranges_fragment hconserves hvisit hc hn hchildren

end

/-- Every visit arranges what is inside its node. -/
theorem visit_arranges (hpasses : o.passes = Pass.all) (depth : Nat) :
    Ensures (TemplateCompiler.visit o depth) fun c c' => ∃ new, Arranges c c' new := by
  refine visit_ensures hpasses (fun depth ih c c' names hc hvisits => ?_) depth
  exact hvisits.arranges (visit_conserves hpasses depth) ih hc

end Visits

end TemplateCompiler
