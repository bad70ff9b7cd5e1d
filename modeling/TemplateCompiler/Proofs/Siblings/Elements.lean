import TemplateCompiler.Proofs.Siblings.Agreement

/-! # Steps after others

What nodes before an element or a text have done does not show in what becomes of it.
-/

namespace TemplateCompiler

open Template (Element Node)
open Transform Comparison

variable {σ : Shift} {base : Block} {q : Seat} {o : Options} {w : Context}

/-! ## Properties -/

theorem runs_placeProps (r : PropResult) :
    (σ.comparison base q).Runs w Equal (placeProps r) (placeProps r) := by
  cases r with
  | dynamic groups es =>
    refine runs_reference.andThen fun i i' hi => .seq (runs_registerEffect _ fun r hr => ?_)
      fun _ => .pure_eq ""
    rw [Operation.rename, hr, hi]
  | fixed props =>
    have hprop (p : MergedProp) :
        (σ.comparison base q).Runs w Equal (placeProp p) (placeProp p) := by
      unfold placeProp
      cases p.staticText? with
      | some entry => exact .pure_eq _
      | none =>
        refine runs_reference.andThen fun i i' hi => .seq (runs_registerEffect _ fun r hr => ?_)
          fun _ => .pure_eq ""
        rw [Operation.rename, hr, hi]
    exact (Runs.mapM_eq fun p _ => hprop p).seq fun _ => .pure_eq _

/-! ## Texts -/

theorem textValues_congr {s₁ s₂ : Session}
    (h : ∀ name, s₁.isIdentifier name = s₂.isIdentifier name)
    (ns : List Node) : textValues o s₁ ns = textValues o s₂ ns := by
  induction ns with
  | nil => rfl
  | cons n ns ih => cases n <;> simp only [textValues, Expression.qualified_congr h, ih]

theorem runs_createText {f₁ f₂ : Frame} (hf : q.Matches f₁ f₂) (hrun : q.SameRun) :
    (σ.comparison base q).Runs w Equal (createText o f₁) (createText o f₂) := by
  refine .get fun c₁ c₂ hc _ => ?_
  dsimp only
  rw [hc.index₁, hc.index₂, hf.children₁, hf.children₂, hrun]
  generalize hnodes : (q.children₂.drop q.index₂).takeWhile (·.isTextLike) = nodes
  have hlength : q.index₂ + nodes.length ≤ q.limit := by
    have hnodes : nodes.length ≤ (q.children₂.drop q.index₂).length :=
      hnodes ▸ (List.takeWhile_prefix _).length_le
    have hindex := q.index_le
    have hchildren := q.length_le
    rw [List.length_drop] at hnodes
    omega
  have hmatches : q.Matches (f₁.consumeUntil (q.index₁ + nodes.length))
      (f₂.consumeUntil (q.index₂ + nodes.length)) := by
    have hconsumed := hf.consumed
    have hle := Nat.max_le.mpr ⟨hf.consumed_le, hlength⟩
    refine ⟨hf.tag₁, hf.tag₂, hf.children₁, hf.children₂, ?_, hle⟩
    simp only [Frame.consumeUntil]
    omega
  refine .seq (runs_modify (fun _ => rfl) fun k₁ k₂ hk _ => { hk with parent := .some hmatches })
    fun _ => .getSession fun k₁ k₂ hk _ => ?_
  rw [textValues_congr hk.session.isIdentifier]
  refine .seq (.ofExcept_eq _) fun values => runs_reference.andThen fun i i' hi => ?_
  refine .seq (runs_modify (fun _ => rfl) fun _ _ hk _ => hk.flag _) fun _ => ?_
  exact runs_registerOperation fun r hr => by rw [Operation.rename, hr.shift, hi]

/-! ## Inserting -/

def Insertion.rename (r : Renaming) (x : Insertion) : Insertion :=
  { x with run := x.run.map (Prod.map id (NodeInfo.rename r)) }

theorem insertions_rename (r : Renaming) (run : List (Nat × NodeInfo)) (afterMarkup : Bool)
    (ds : List (Nat × NodeInfo)) :
    insertions (run.map (Prod.map id (NodeInfo.rename r))) afterMarkup
        (ds.map (Prod.map id (NodeInfo.rename r))) =
      (insertions run afterMarkup ds).map (Insertion.rename r) := by
  induction ds generalizing run afterMarkup with
  | nil => cases run <;> simp [insertions, Insertion.rename]
  | cons d ds ih =>
    obtain ⟨i, d⟩ := d
    have hrun : (if d.flags.insert then
          run.map (Prod.map id (NodeInfo.rename r)) ++ [(i, d.rename r)]
        else run.map (Prod.map id (NodeInfo.rename r))) =
        (if d.flags.insert then run ++ [(i, d)] else run).map
          (Prod.map id (NodeInfo.rename r)) := by
      split <;> simp
    rw [List.map_cons, insertions]
    simp only [Prod.map_apply, id_eq, NodeInfo.rename_flags, hrun]
    rw [insertions]
    generalize (if d.flags.insert then run ++ [(i, d)] else run) = run'
    split
    · exact ih run' afterMarkup
    · cases run' with
      | nil => simpa using ih [] true
      | cons x run' => simpa [Insertion.rename] using ih [] true

theorem NodeInfo.rename_modify_withAnchor (r : Renaming) (ds : List NodeInfo) (index a : Nat) :
    (ds.map (·.rename r)).modify index (NodeInfo.withAnchor (a + r.shift)) =
      (ds.modify index (NodeInfo.withAnchor a)).map (·.rename r) := by
  have hanchor : ∀ d : NodeInfo,
      (d.rename r).withAnchor (a + r.shift) = (d.withAnchor a).rename r := by
    intro d
    cases d
    rfl
  apply List.ext_getElem?
  intro j
  simp only [List.getElem?_modify, List.getElem?_map]
  cases ds[j]? with
  | none => rfl
  | some d => by_cases hj : index = j <;> simp [hj, hanchor]

theorem runs_placeAnchor (index : Nat) :
    (σ.comparison base q).Runs w (fun _ => σ.SameNode []) (placeAnchor index)
      (placeAnchor index) := by
  refine runs_allocateId.andThen fun a₁ a₂ ha => ?_
  obtain rfl : a₁ = a₂ + σ.ids := ha
  refine .seq (runs_modify (fun _ => rfl) fun k₁ k₂ hk _ => ?_) fun _ => .pure fun _ _ => rfl
  refine { hk with
    childrenTemplate := congrArg (·.set index "<!>") hk.childrenTemplate
    dynamic := fun r hr => ?_ }
  change { k₁.dynamic with
    children := k₁.dynamic.children.modify index (NodeInfo.withAnchor (a₂ + σ.ids)) } = _
  simp only [hk.dynamic r hr, NodeInfo.rename_children, ← hr.shift,
    NodeInfo.rename_modify_withAnchor]
  cases k₂.dynamic
  simp [NodeInfo.rename, renameNodes_eq_map]
  rfl

theorem runs_insertRun {r : Renaming} (hr : r.shift = σ.ids) (x : Insertion) :
    (σ.comparison base q).Runs w Equal (insertRun (x.rename r)) (insertRun x) := by
  obtain ⟨spot, run⟩ := x
  have helements : (run.map (Prod.map id (NodeInfo.rename r))).filterMap (·.2.id) =
      (run.filterMap (·.2.id)).map (· + σ.ids) := by
    simp [List.filterMap_map, List.map_filterMap, hr]
  have hindices : (run.map (Prod.map id (NodeInfo.rename r))).map (·.1) = run.map (·.1) := by
    simp
  simp only [insertRun, Insertion.rename, helements, hindices]
  cases spot with
  | front =>
    exact runs_reference.andThen fun i i' hi =>
      runs_registerOperation fun r hr => by rw [Operation.rename, hr.shift, hi]
  | back =>
    exact runs_reference.andThen fun i i' hi =>
      runs_registerOperation fun r hr => by rw [Operation.rename, hr.shift, hi]; rfl
  | placeholder =>
    refine (runs_placeAnchor _).andThen fun a a' ha => runs_reference.andThen fun i i' hi => ?_
    exact runs_registerOperation fun r hr => by rw [Operation.rename, hr.shift, hi, ha]; rfl

theorem runs_insertChildren :
    (σ.comparison base q).Runs w Equal insertChildren insertChildren := by
  refine .get fun c₁ c₂ hc _ => ?_
  have hr := σ.fits_toRenaming c₂.session.templates
  generalize σ.toRenaming c₂.session.templates = r at hr
  have hchildren : insertions [] false (c₁.dynamic.children.zipIdx.map Prod.swap) =
      (insertions [] false (c₂.dynamic.children.zipIdx.map Prod.swap)).map
        (Insertion.rename r) := by
    rw [← insertions_rename, hc.dynamic r hr, NodeInfo.rename_children, List.zipIdx_map,
      List.map_map, List.map_map]
    rfl
  rw [hchildren]
  induction insertions [] false (c₂.dynamic.children.zipIdx.map Prod.swap) with
  | nil => exact .pure_eq ()
  | cons x xs ih => exact (runs_insertRun hr.shift x).seq fun _ => ih

/-! ## All steps -/

theorem Shift.Renamed.optional {r : Renaming} {templates : List String} {x y : Option Block}
    (hr : σ.Fits r templates) (h : Option.Rel (σ.Renamed Block.rename templates) x y) :
    x = renameOptional r y := by
  cases h with
  | none => rfl
  | some h => rw [h r hr, renameOptional]

theorem renameSlots_of_forall₂ {r : Renaming} {xs ys : List (String × Block)}
    (h : List.Forall₂ (fun x y => x.1 = y.1 ∧ x.2 = y.2.rename r) xs ys) :
    xs = renameSlots r ys := by
  induction h with
  | nil => rfl
  | @cons x y _ _ h _ ih => rw [ih, renameSlots, ← h.1, ← h.2]

/-- The steps of two runs agree, one of which comes after others. -/
def Shift.simulation (σ : Shift) (base : Block) (q : Seat) (o : Options) :
    Simulation o o.qualifyNames where
  toComparison := σ.comparison base q
  similar h :=
    ⟨h.node, h.isBlockRoot, h.template, h.childrenTemplate, h.consumedChildren, h.removed, h.flags,
      h.parentTag, h.isAbsorbed, h.session.isIdentifier⟩
  SameId := σ.SameNode []
  Like := Eq
  LikeProps := Eq
  LikeResult := Eq
  LikeBlock k := σ.Renamed Block.rename k.session.templates
  LikeAlternative k := σ.Renamed Alternative.rename k.session.templates
  like _ := rfl
  literal := @literalMarkup?_congr
  qualified h e := by
    rw [Expression.qualified_congr h.session.isIdentifier]
    exact .refl (fun _ => rfl) _
  likeBlock_later hs hb := hb.of_longer hs.templates
  nothing _ _ := rfl
  otherwise hb r hr := by rw [hb r hr, Alternative.rename]
  test hi he hb ha r hr := by rw [hi, he, hb r hr, ha r hr, Alternative.rename, hr.shift]
  noProps := rfl
  addAttribute _ h := by rw [h]
  addSpread h he := by rw [h, he]
  addEntry _ _ h hkey hvalue := by rw [h, hkey, hvalue]
  result h := by rw [h]
  reference := @fun _ => runs_reference
  allocateId := @fun _ => runs_allocateId
  setFlags _ := runs_modify (fun _ => rfl) fun _ _ h _ => h.flag _
  appendTemplate _ := runs_modify (fun _ => rfl) fun _ _ h _ => h.write _
  setApart := runs_setApart
  removeNode := @fun _ => runs_modify (fun _ => rfl) fun _ _ h _ => { h with removed := rfl }
  setContent _ := runs_modify (fun _ => rfl) fun _ _ h _ => { h with childrenTemplate := rfl }
  consume _ := runs_modify (fun _ => rfl) fun _ _ h _ => { h with consumedChildren := rfl }
  addComponent _ := runs_modifySession fun s₁ s₂ h => ⟨h.addComponent _, .addComponent s₂ _⟩
  addDirective _ := runs_modifySession fun s₁ s₂ h => ⟨h.addDirective _, .addDirective s₂ _⟩
  narrow {c c' e} hc hn _ := runs_modify (fun _ => rfl) fun _ _ h _ =>
    { h with
      node := rfl
      depth := e.withoutChildren_depth.trans (hn ▸ hc.depth)
      run := fun hrun => nomatch hrun }
  fillSlots hxs := runs_modify (fun _ => rfl) fun _ _ h hw =>
    { h with slots := fun r hr => renameSlots_of_forall₂ <| hxs.imp fun _ _ hx =>
        ⟨hx.1, hx.2 r (hr.of_longer hw.templates)⟩ }
  returnNode {w i i'} hi := runs_modify (fun _ => rfl) fun c₁ c₂ h _ => by
    refine { h with distinct := h.distinct, block := fun r hr => ?_ }
    obtain rfl : i = i' + σ.ids := hi
    simp only [h.block r hr]
    cases c₂.block
    simp [Block.join, Block.rename, hr.shift]
  insertChildren := @fun _ => runs_insertChildren
  placeProps {w r r'} h := h ▸ runs_placeProps r
  createText {c c'} hc hn := by
    have hrun := hc.run hn
    rcases hc.parent_cases with ⟨hp₁, hp₂⟩ | ⟨f₁, f₂, hp₁, hp₂, hf⟩
    · rw [hp₁, hp₂]
      exact .pure_eq ()
    · rw [hp₁, hp₂]
      exact runs_createText hf hrun
  setEvent m hi hkey hv := by
    obtain rfl := hkey
    obtain rfl := optionRel_eq.mp hv
    exact .ite (fun _ => runs_registerOperation fun r hr => by rw [Operation.rename, hr.shift, hi])
      fun _ => runs_registerEffect _ fun r hr => by rw [Operation.rename, hr, hi]
  withDirective _ _ _ _ _ hi hexp := runs_registerOperation fun r hr => by
    rw [Operation.rename, hr.shift, hi, optionRel_eq.mp hexp]
  setTemplateRef hi hv := .getSession fun c₁ c₂ hc _ => by
    rw [hv, hc.session.loopDepth]
    exact .ite (fun _ => runs_registerOperation fun r hr => by rw [Operation.rename, hr.shift, hi])
      fun _ => runs_registerEffect _ fun r hr => by rw [Operation.rename, hr, hi]
  setHtml hi hv := hv ▸ runs_registerEffect _ fun r hr => by rw [Operation.rename, hr, hi, hv]
  setText hi hvs := by
    rw [List.forall₂_eq_eq_eq] at hvs
    exact hvs ▸ runs_registerEffect _ fun r hr => by rw [Operation.rename, hr, hi, hvs]
  createComponent tag asset hi hr := .get fun c₁ c₂ hc _ => by
    refine .seq (runs_modify (fun _ => rfl) fun _ _ h _ => { h with slots := fun _ _ => rfl })
      fun _ => runs_registerOperation fun r hfits => ?_
    rw [hc.slots r hfits, hi, hr, Operation.rename, hfits.shift]
  branch hi he hb ha := runs_registerOperation fun r hr => by
    rw [hi, he, hb r hr, ha r hr, Operation.rename, hr.shift]
  loop value index hi he hkey hb hf := runs_registerOperation fun r hr => by
    rw [hi, he, optionRel_eq.mp hkey, hb r hr, Shift.Renamed.optional hr hf, Operation.rename,
      hr.shift]
  slotOutlet hi hname hresult hf := runs_registerOperation fun r hr => by
    rw [hi, hname, hresult, Shift.Renamed.optional hr hf, Operation.rename, hr.shift]

end TemplateCompiler
