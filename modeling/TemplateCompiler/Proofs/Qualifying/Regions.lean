import TemplateCompiler.Proofs.Qualifying.Elements

/-! # Blocks inside with names as they are

Whether names are qualified shows only in the expressions of the blocks inside a node.
-/

namespace TemplateCompiler

open Template (EachBlock Fragment Node)
open Transform Comparison

variable {o : Options} {v v' : Transform Unit} {w : Context}

theorem blocksAlike_of_rel {b b' : Option Block} (h : Option.Rel Block.Alike b b') :
    BlocksAlike b.toList b'.toList := by
  cases h with
  | none => exact .nil
  | some h => exact .cons h .nil

theorem map_empty_of_rel {b b' : Option Block} (h : Option.Rel Block.Alike b b') :
    b.map (fun _ => Block.empty) = b'.map fun _ => Block.empty := by
  cases h <;> rfl

/-- What shows in place of a condition has the same outline and like blocks. -/
structure Alternative.Alike (a a' : Alternative) : Prop where
  outline : a.outline = a'.outline
  inner : BlocksAlike a.inner a'.inner

/-! ## Steps -/

namespace mirroring

theorem insertRun (x : Insertion) : mirroring.Runs w Equal (insertRun x) (insertRun x) := by
  unfold TemplateCompiler.insertRun
  cases x.spot with
  | front => exact reference.seq fun _ => registerOperation ⟨rfl, .nil⟩
  | back => exact reference.seq fun _ => registerOperation ⟨rfl, .nil⟩
  | placeholder =>
    have hanchor (index : Nat) : mirroring.Runs w Equal (placeAnchor index) (placeAnchor index) :=
      (onSession _).seq fun _ => (changeElse fun _ _ _ => rfl).seq fun _ => .pure_eq _
    exact (hanchor _).seq fun _ => reference.seq fun _ => registerOperation ⟨rfl, .nil⟩

/-- The steps of a run that qualifies names are mirrored by those of one that does not. -/
def simulation (o : Options) : Simulation o false where
  toComparison := mirroring
  similar := Context.Alike.similar
  SameId := Eq
  Like := Expression.Alike
  LikeProps := PropCollector.Alike
  LikeResult := PropResult.Alike
  LikeBlock _ := Block.Alike
  LikeAlternative _ := Alternative.Alike
  like := .refl
  literal := literalMarkup?_eq
  qualified hc e := by
    rw [hc.session]
    exact qualified _ e
  likeBlock_later _ := id
  nothing := ⟨rfl, .nil⟩
  otherwise hb := ⟨rfl, .cons hb .nil⟩
  test {_ _ _ _ _ _ _ _ _} hi he hb ha := by
    refine ⟨?_, .cons hb ha.inner⟩
    simp only [Alternative.outline, hi, he.outline, ha.outline]
  noProps := rfl
  addAttribute {p p'} a h := by
    rw [PropCollector.Alike, ← p.addAttribute_outline, ← p'.addAttribute_outline, h]
  addSpread {p p' _ _} h he := by
    rw [PropCollector.Alike, ← p.addSpread_outline, ← p'.addSpread_outline, h, he.outline]
  addEntry isComponent e h hkey hvalue := h.addEntry (by
    simp only [PropEntry.outline, hkey.outline, hvalue.outline]) isComponent
  result {p p'} h := by rw [PropResult.Alike, ← p.result_outline, ← p'.result_outline, h]
  reference := @fun _ => reference
  allocateId := @fun _ => onSession _
  setFlags _ := modifyDynamic _
  appendTemplate _ := changeElse fun _ _ _ => rfl
  setApart _ := (onSession _).seq fun _ => (modifyDynamic _).seq fun _ => .pure fun _ _ => trivial
  removeNode := @fun _ => changeElse fun _ _ _ => rfl
  setContent _ := changeElse fun _ _ _ => rfl
  consume _ := changeElse fun _ _ _ => rfl
  addComponent _ := modifySession _
  addDirective _ := modifySession _
  narrow _ _ _ := changeElse fun _ _ _ => rfl
  fillSlots hxs := change fun c c' hc => by
    obtain ⟨_, hb, -⟩ := hc
    exact .intro { c' with slots := _ } hb hxs
  returnNode {_ i i'} hi := change fun c c' hc => by
    obtain rfl : i = i' := hi
    obtain ⟨_, ⟨hnode, hdynamic, hreturns, hops⟩, hslots⟩ := hc
    refine .intro { c' with block := { c'.block with returns := c'.block.returns ++ [i] } }
      (.intro hnode hdynamic ?_ hops) hslots
    exact congrArg (· ++ [i]) hreturns
  insertChildren := @fun _ => .get fun c c' hc _ => by
    rw [hc.dynamic]
    exact .forM fun x _ => insertRun x
  placeProps := placeProps
  createText {c c'} hc _ := by
    rw [hc.parent]
    cases c'.parent with
    | none => exact .pure_eq ()
    | some frame => exact createText frame
  setEvent m hi hkey hv := by
    refine registerOn hkey.outline ⟨?_, .nil⟩
    simp only [Operation.outline, hi, hkey.outline, outline_of_rel hv,
      Expression.isStatic_of_outline hkey.outline]
  withDirective _ _ _ _ _ hi hexp := by
    refine registerOperation ⟨?_, .nil⟩
    simp only [Operation.outline, Directive.outline, hi, outline_of_rel hexp]
  setTemplateRef hi hv := .getSession fun c c' hc _ => by
    refine registerOn hv.outline ⟨?_, .nil⟩
    simp only [Operation.outline, hi, hv.outline, hc.session]
  setHtml hi hv := by
    refine registerEffect _ _ ⟨?_, .nil⟩
    simp only [Operation.outline, hi, hv.outline]
  setText hi hvs := by
    refine registerEffect _ _ ⟨?_, .nil⟩
    simp only [Operation.outline, hi, outlines_of_forall₂ hvs]
  createComponent tag asset hi hr := .get fun c c' hc _ => by
    refine .seq (change fun k k' hk => ?_) fun _ => registerOperation ⟨?_, hc.slots.blocks⟩
    · obtain ⟨_, hb, -⟩ := hk
      exact .intro { k' with slots := [] } hb .nil
    have hslots := congrArg (List.map fun name => (name, Block.empty)) hc.slots.names
    rw [List.map_map, List.map_map] at hslots
    simp only [Operation.outline, hi, hr.groups]
    exact congrArg (Operation.createComponent _ tag _ · asset) hslots
  branch hi he hb ha := by
    refine registerOperation ⟨?_, .cons hb ha.inner⟩
    simp only [Operation.outline, hi, he.outline, ha.outline]
  loop value index hi he hkey hb hf := by
    refine registerOperation ⟨?_, .cons hb (blocksAlike_of_rel hf)⟩
    simp only [Operation.outline, hi, he.outline, outline_of_rel hkey, map_empty_of_rel hf]
  slotOutlet hi hname hr hf := by
    refine registerOperation ⟨?_, blocksAlike_of_rel hf⟩
    simp only [Operation.outline, hi, hname.outline, hr.groups, map_empty_of_rel hf]

end mirroring

/-! ## Blocks -/

theorem mirrors_createBlock (hv : Mirrors Eq v v') (n : Node) :
    Mirrors Block.Alike (createBlock v n) (createBlock v' n) := by
  intro c c' b k hc hrun
  obtain ⟨_, ⟨k₁, hvisit, rfl, rfl⟩, rfl⟩ := createBlock_eq_ok.mp hrun
  rw [hc.session] at hvisit
  obtain ⟨_, k₁', hvisit', -, hk₁⟩ := hv (Context.Alike.refl_root n c'.session).referenced hvisit
  have hmakes : MakesBlock v' n c'.session k₁'.toBlock k₁'.session := ⟨k₁', hvisit', rfl, rfl⟩
  refine ⟨k₁'.toBlock, _, createBlock_eq_ok.mpr ⟨_, hmakes, rfl⟩, hk₁.toBlock, ?_⟩
  rw [hk₁.session]
  exact hc.during _

theorem mirrors_createLoopBody (hv : Mirrors Eq v v') (names : List String) (b : EachBlock) :
    Mirrors (fun x x' => x.1.Alike x'.1 ∧ Option.Rel Expression.Alike x.2 x'.2)
      (createLoopBody o v names b) (createLoopBody o.unqualified v' names b) := by
  rintro c c' ⟨body, key⟩ k hc hrun
  -- a failure of the body shows only after the key; here neither has failed
  obtain ⟨s, hbody, hkey, rfl⟩ := createLoopBody_ok hrun
  have hinside := hc.during (c'.session.enterLoop names)
  obtain ⟨body', k', hbody', halike, hk⟩ := mirrors_createBlock hv (.fragment b.body) hinside
    (createBlock_eq_ok.mpr ⟨s, hc.session ▸ hbody, rfl⟩)
  obtain rfl : s = k'.session := hk.session
  have hkeys : Mirrors (Option.Rel Expression.Alike)
      (b.key.mapM fun code => qualify o (.ofCode code))
      (b.key.mapM fun code => qualify o.unqualified (.ofCode code)) :=
    mirrors_of_runs fun _ => .optionMapM (fun _ => (mirroring.simulation o).qualify _) b.key
  obtain ⟨key', _, hkey', hrel, -⟩ := hkeys hk (mapM_qualify_eq_ok.mpr ⟨hkey, rfl⟩)
  obtain ⟨hqualified, rfl⟩ := mapM_qualify_eq_ok.mp hkey'
  refine ⟨(body', key'), k'.during (k'.session.leaveLoop names), ?_, ⟨halike, hrel⟩,
    hk.during _⟩
  rw [createLoopBody_eq, hbody']
  simp only [hqualified]

end TemplateCompiler
