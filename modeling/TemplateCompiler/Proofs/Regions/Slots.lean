import TemplateCompiler.Proofs.Names.Balance

/-! # Slots of components

The children of a component that name a slot fill it, and the others fill the default slot. Names
are compared before any block is made, so a component whose slots collide leaves no traces.
-/

namespace TemplateCompiler

open Template (Element Fragment Node)
open Transform

namespace Template

/-- The name of the slot that a child of a component fills. -/
def Node.slotName? (n : Node) : Option String := n.element?.bind (·.staticAttribute? "slot")

/-- What a child fills its slot with: itself, or what it holds if it is there to group it. -/
def Node.slotFilling : Node → Fragment
  | .element e => ⟨if e.name = "svelte:fragment" then e.children else [.element e], e.location⟩
  | n => ⟨[n], n.location⟩

namespace Element

/-- The names of the slots that children fill, in their order. -/
def slotNames (e : Element) : List String := e.children.filterMap Node.slotName?

/-- The children that name no slot. -/
def unnamed (e : Element) : List Node := e.children.filter (·.slotName?.isNone)

/-- Two children name the same slot, or one names the default slot although others fill it. -/
def SlotsCollide (e : Element) : Prop :=
  ¬e.slotNames.Nodup ∨ "default" ∈ e.slotNames ∧ ∃ n ∈ e.unnamed, n.isBlankText = false

instance (e : Element) : Decidable e.SlotsCollide := inferInstanceAs (Decidable (_ ∨ _))

/-- The default slot with all children that name none, unless they are blank, and the slots that are
named, in the order of the children. -/
def slotSources (e : Element) : List (String × Fragment) :=
  (if e.unnamed.all (·.isBlankText) then [] else [("default", ⟨e.unnamed, e.location⟩)]) ++
    e.children.filterMap fun n => n.slotName?.map (·, n.slotFilling)

end Element

end Template

/-! ## Collisions -/

theorem slotContent?_eq (n : Node) : slotContent? n = n.slotName?.map (·, n.slotFilling) := by
  cases n with
  | element e =>
    simp only [slotContent?, Node.element?, Node.slotName?, Node.slotFilling,
      Option.bind_eq_bind, Option.bind_some, beq_iff_eq]
    cases e.staticAttribute? "slot" <;> rfl
  | _ => rfl

theorem duplicateSlot?_eq_none_iff {seen : List String} (hseen : seen.Nodup)
    {slots : List (String × Fragment)} :
    duplicateSlot? seen slots = none ↔ (seen ++ slots.map Prod.fst).Nodup := by
  induction slots generalizing seen with
  | nil => simpa [duplicateSlot?] using hseen
  | cons slot slots ih =>
    obtain ⟨name, f⟩ := slot
    rw [List.map_cons, List.nodup_middle]
    by_cases hname : name ∈ seen
    · simp [duplicateSlot?, hname]
    · simp only [duplicateSlot?, List.contains_iff_mem, hname, ite_false]
      exact ih (List.nodup_cons.mpr ⟨hname, hseen⟩)

theorem map_fst_slots (e : Element) :
    (e.children.filterMap fun n => n.slotName?.map (·, n.slotFilling)).map Prod.fst =
      e.slotNames := by
  rw [List.map_filterMap, Element.slotNames]
  congr 1
  funext n
  cases n.slotName? <;> rfl

theorem nodup_slotSources {e : Element} :
    (e.slotSources.map Prod.fst).Nodup ↔ ¬e.SlotsCollide := by
  rw [Element.slotSources, List.map_append, map_fst_slots, Element.SlotsCollide]
  split <;> simp_all [and_comm]

/-- The slots of a component are those it should have, unless they collide. -/
theorem slotsOf_cases (e : Element) :
    (e.SlotsCollide ∧ ∃ d, slotsOf e = .error d ∧ d.fault = .duplicateSlotName) ∨
      ¬e.SlotsCollide ∧ slotsOf e = .ok e.slotSources := by
  have hcontent : slotContent? = fun n => n.slotName?.map (·, n.slotFilling) :=
    funext slotContent?_eq
  have hunnamed : (e.children.filter fun n => (slotContent? n).isNone) = e.unnamed := by
    simp [hcontent, Element.unnamed]
  rw [slotsOf, hunnamed, hcontent]
  split
  · rename_i name f hduplicate
    refine .inl ⟨?_, _, rfl, rfl⟩
    by_contra hapart
    have hnodup := nodup_slotSources.mpr hapart
    rw [Element.slotSources, List.map_append,
      ← duplicateSlot?_eq_none_iff (by split <;> simp)] at hnodup
    cases hduplicate.symm.trans hnodup
  · rename_i hnone
    rw [duplicateSlot?_eq_none_iff (by split <;> simp), ← List.map_append] at hnone
    exact .inr ⟨nodup_slotSources.mp hnone, rfl⟩

/-! ## Blocks -/

section Making

variable {visit : Transform Unit} {c k : Context}

/-- A slot that cannot be made comes after others that are made. -/
theorem createSlots_error {fs : List (String × Fragment)} {d : Diagnostic}
    (h : (fs.mapM fun (name, f) => do
      return (name, ← createBlock visit (.fragment f)) : Transform _) c = .error d k) :
    ∃ before name f after made s, fs = before ++ (name, f) :: after ∧
      MakesSlots visit before c.session made s ∧
      createBlock visit (.fragment f) (c.during s) = .error d k := by
  induction fs generalizing c with
  | nil => cases h
  | cons slot fs ih =>
    obtain ⟨name, f⟩ := slot
    rw [List.mapM_cons] at h
    cases hrun : createBlock visit (.fragment f) c with
    | error d' k' =>
      rw [bind_error (bind_error hrun _)] at h
      cases h
      exact ⟨[], name, f, fs, [], c.session, rfl, .nil _, hrun⟩
    | ok b c₁ =>
      obtain ⟨s, hb, rfl⟩ := createBlock_eq_ok.mp hrun
      have hslot : (do return (name, ← createBlock visit (.fragment f)) : Transform _) c =
          .ok (name, b) (c.during s) := bind_run hrun _
      rw [bind_run hslot] at h
      cases hrest : (fs.mapM fun (name, f) => do
          return (name, ← createBlock visit (.fragment f)) : Transform _) (c.during s) with
      | ok slots k' => rw [bind_run hrest] at h; cases h
      | error d' k' =>
        rw [bind_error hrest] at h
        cases h
        obtain ⟨before, name', f', after, made, s', rfl, hmade, hfails⟩ := ih hrest
        exact ⟨(name, f) :: before, name', f', after, _, s', rfl, .cons hb hmade, hfails⟩

theorem MakesSlots.forall₂ (hv : Steady visit) {fs : List (String × Fragment)}
    {slots : List (String × Block)} {s s' : Session} (h : MakesSlots visit fs s slots s') :
    List.Forall₂ (fun source slot => slot.1 = source.1 ∧ slot.2.node = .fragment source.2) fs
      slots := by
  induction h with
  | nil => exact .nil
  | cons hb _ ih => exact .cons ⟨rfl, (hb.kept hv).1⟩ ih

theorem MakesSlots.map_fst {fs : List (String × Fragment)} {slots : List (String × Block)}
    {s s' : Session} (h : MakesSlots visit fs s slots s') :
    slots.map Prod.fst = fs.map Prod.fst := by
  induction h with
  | nil => rfl
  | cons _ _ ih => rw [List.map_cons, List.map_cons, ih]

end Making

/-- A component whose slots collide fails before anything is done. The slots of any other one have
different names, and each of their blocks is made from what fills the slot; only making one of
these blocks can fail. -/
theorem transformComponentSlots_partitions (o : Options) (depth : Nat) (c : Context) {e : Element}
    (hn : c.node = .element e) (hkind : e.kind = .component) :
    (e.SlotsCollide ∧ ∃ d, transformComponentSlots (visit o depth) c = .error d c ∧
        d.fault = .duplicateSlotName) ∨
      ¬e.SlotsCollide ∧
        ((∃ slots s,
            transformComponentSlots (visit o depth) c =
              .ok () { c with node := .element e.withoutChildren, slots, session := s } ∧
            MakesSlots (visit o depth) e.slotSources c.session slots s ∧
            (slots.map Prod.fst).Nodup ∧
            List.Forall₂ (fun source slot => slot.1 = source.1 ∧ slot.2.node = .fragment source.2)
              e.slotSources slots) ∨
          ∃ before name f after made s d k,
            transformComponentSlots (visit o depth) c = .error d k ∧
            e.slotSources = before ++ (name, f) :: after ∧
            MakesSlots (visit o depth) before c.session made s ∧
            createBlock (visit o depth) (.fragment f) (c.during s) = .error d k) := by
  rw [transformComponentSlots, get_bind, hn]
  simp only [hkind, BEq.rfl, ite_true]
  rcases slotsOf_cases e with ⟨hcollide, d, hslots, hfault⟩ | ⟨hapart, hslots⟩
  · rw [hslots]
    exact .inl ⟨hcollide, d, rfl, hfault⟩
  · rw [hslots]
    refine .inr ⟨hapart, ?_⟩
    rw [bind_run (ofExcept_eq_ok.mpr ⟨rfl, rfl⟩)]
    cases hmake : (e.slotSources.mapM fun (name, f) => do
        return (name, ← createBlock (visit o depth) (.fragment f)) : Transform _) c with
    | ok slots k =>
      obtain ⟨s, hmade, rfl⟩ := createSlots_ok hmake
      refine .inl ⟨slots, s, ?_, hmade, ?_, hmade.forall₂ (steady_visit depth)⟩
      · rw [bind_run hmake]
        rfl
      · rw [hmade.map_fst, nodup_slotSources]
        exact hapart
    | error d k =>
      obtain ⟨before, name, f, after, made, s, heq, hmade, hfails⟩ := createSlots_error hmake
      exact .inr ⟨before, name, f, after, made, s, d, k, bind_error hmake _, heq, hmade, hfails⟩

/-- An element that fills a slot. -/
def slotted (tag slot : String) : Node :=
  .element ⟨tag, .regular, [.plain "slot" (.chunks [.text { data := slot, raw := slot }]) {}], [], {}⟩

/-- A named slot before a child for the default one. -/
def cardComponent : Element :=
  ⟨"Card", .component, [], [slotted "h1" "title", .element ⟨"p", .regular, [], [], {}⟩], {}⟩

theorem transformComponentSlots_partitions_card :
    ¬cardComponent.SlotsCollide ∧
      ∃ k, transformComponentSlots (visit {} 9)
          (Context.root (.element cardComponent) Block.empty {}) = .ok () k ∧
        k.slots.map Prod.fst = ["default", "title"] := by
  obtain ⟨hcollide, -⟩ | ⟨hapart, ⟨slots, s, hrun, hmade, -⟩ | ⟨_, _, _, _, _, _, d, k, hrun, -⟩⟩ :=
    transformComponentSlots_partitions {} 9 (Context.root (.element cardComponent) Block.empty {})
      rfl rfl
  · exact absurd hcollide (by decide +kernel)
  · exact ⟨hapart, _, hrun, hmade.map_fst.trans (by decide +kernel)⟩
  · have hok : failure? (transformComponentSlots (visit {} 9))
        (Context.root (.element cardComponent) Block.empty {}) |>.isNone := by decide +kernel
    simp [failure?, hrun] at hok

/-- The component inside fills a slot twice, the one around it does not. -/
def nestingComponent : Element :=
  ⟨"Outer", .component, [],
    [.element ⟨"Inner", .component, [], [slotted "p" "a", slotted "b" "a"], {}⟩], {}⟩

/-- A collision inside of a slot is passed on, when blocks have already been begun. -/
theorem nested_collision_passed_on :
    ¬nestingComponent.SlotsCollide ∧
      ∃ d k, transformComponentSlots (visit {} 9)
          (Context.root (.element nestingComponent) Block.empty {}) = .error d k ∧
        d.fault = .duplicateSlotName ∧ k.session.nextId = 1 := by
  refine ⟨by decide +kernel, ?_⟩
  have hfails : failure? (transformComponentSlots (visit {} 9))
      (Context.root (.element nestingComponent) Block.empty {}) |>.any fun x =>
        decide (x.1.fault = .duplicateSlotName ∧ x.2.session.nextId = 1) := by decide +kernel
  obtain ⟨x, hx, hfault⟩ := Option.any_eq_true _ _ |>.mp hfails
  exact ⟨x.1, x.2, failure?_eq_some.mp hx, of_decide_eq_true hfault⟩

end TemplateCompiler
