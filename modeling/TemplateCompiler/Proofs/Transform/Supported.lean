import TemplateCompiler.Proofs.Ids.Creation
import TemplateCompiler.Proofs.Ids.Returned
import TemplateCompiler.Proofs.Template.Places

/-! # What is compiled has a compiled form

Every node of a template, in branches, loops, slots and slot outlets too, is visited, and with it
its attributes are read. What has no compiled form is turned away there, so a template that is
compiled has nothing of the kind.
-/

namespace TemplateCompiler

open Template (Attribute Branches EachBlock Element Fragment IfBlock Node Place)
open Template (Compilable compilable_append compilable_blank compilable_placesAmong placesAmong)
open Transform

/-! ## Attributes -/

theorem Property.isSupported_of_ofAttribute {a : Attribute} {p : Property}
    (h : ofAttribute a = .ok p) : a.isSupported = true := by
  cases a with
  | plain => rfl
  | spread => rfl
  | directive kind name modifiers value location =>
    obtain ⟨_, hd, -⟩ := toDirective_of_ofAttribute (w := ⟨kind, name, modifiers, value, location⟩) h
    have hdeed := (WrittenDirective.of_toDirective hd).1
    cases kind with
    | transition | animation | letBinding => simp [Template.DirectiveKind.deed?] at hdeed
    | _ => rfl

theorem Property.isSupported_of_ofAttributes {attributes : List Attribute} {props : List Property}
    (h : ofAttributes attributes = .ok props) : attributes.all (·.isSupported) = true := by
  replace h := forall₂_ofAttributes h
  induction h with
  | nil => rfl
  | cons ha _ ih => rw [List.all_cons, isSupported_of_ofAttribute ha, ih, Bool.and_self]

/-! ## Branches and slots -/

namespace Template

mutual

theorem IfBlock.compilable_of_branches (b : IfBlock)
    (h : ∀ body ∈ b.branches.bodies, Compilable body.places) : Compilable b.places := by
  cases b with
  | mk test consequent alternate elseIf location =>
    rw [IfBlock.branches, Branches.bodies, List.forall_mem_cons] at h
    exact compilable_append.mpr ⟨h.1, compilable_of_alternateBranches alternate h.2⟩

theorem compilable_of_alternateBranches (alternate : Option Fragment)
    (h : ∀ body ∈ (alternateBranches alternate).bodies, Compilable body.places) :
    Compilable (optionalPlaces alternate) := by
  cases alternate with
  | none => exact fun p hp => nomatch hp
  | some f =>
    cases f with
    | mk children location =>
      rw [alternateBranches] at h
      cases hlone : loneContinuation? children with
      | none =>
        rw [hlone] at h
        exact h _ (List.mem_singleton.mpr rfl)
      | some branches =>
        rw [hlone] at h
        exact compilable_of_loneContinuation children hlone h

theorem compilable_of_loneContinuation (ns : List Node) {branches : Branches}
    (hlone : loneContinuation? ns = some branches)
    (h : ∀ body ∈ branches.bodies, Compilable body.places) : Compilable (placesAmong none ns) := by
  cases ns with
  | nil => simp [loneContinuation?] at hlone
  | cons n ns =>
    rw [placesAmong, List.cons_append]
    cases n with
    | ifBlock b =>
      obtain ⟨hblank, ⟨⟩⟩ := Option.ite_none_right_eq_some.mp hlone
      refine List.forall_mem_cons.mpr ⟨rfl, compilable_append.mpr ⟨b.compilable_of_branches h, ?_⟩⟩
      exact compilable_blank (Bool.and_eq_true_iff.mp hblank).2
    | text t =>
      have hrest := (Option.ite_none_right_eq_some.mp hlone).2
      exact List.forall_mem_cons.mpr ⟨rfl, compilable_of_loneContinuation ns hrest h⟩
    | _ => simp [loneContinuation?, Node.isBlankText] at hlone

end

end Template

/-- What the slots of a component are filled with is all that the component holds. -/
theorem slotsOf_compilable {e : Element} {fs : List (String × Fragment)}
    (hkind : e.kind = .component) (hfs : slotsOf e = .ok fs)
    (h : ∀ slot ∈ fs, Compilable slot.2.places) : Compilable e.places := by
  simp only [slotsOf] at hfs
  split at hfs
  · cases hfs
  obtain rfl := Except.ok.inj hfs
  rw [List.forall_mem_append] at h
  obtain ⟨hunnamed, hnamed⟩ := h
  rw [e.places_eq, compilable_placesAmong]
  intro n hn
  cases hslot : slotContent? n with
  | none =>
    have hmem : n ∈ e.children.filter fun n => (slotContent? n).isNone := by
      simp [hn, hslot]
    have hall : Compilable (placesAmong (some e)
        (e.children.filter fun n => (slotContent? n).isNone)) := by
      by_cases hblank :
          (e.children.filter fun n => (slotContent? n).isNone).all (·.isBlankText) = true
      · exact compilable_blank hblank
      · rw [if_neg hblank] at hunnamed
        exact (hunnamed _ (List.mem_singleton.mpr rfl)).of_none
    exact compilable_placesAmong.mp hall n hmem
  | some slot =>
    have hcontent := hnamed slot (List.mem_filterMap.mpr ⟨n, hn, hslot⟩)
    cases n with
    | element child =>
      obtain ⟨name, hname, ⟨⟩⟩ := Option.bind_eq_some_iff.mp hslot
      by_cases hfragment : (child.name == "svelte:fragment") = true
      · rw [if_pos hfragment] at hcontent
        have hinside : Compilable child.places := child.places_eq ▸ hcontent.of_none
        refine ⟨?_, hinside⟩
        simp [Place.isCompilable, Place.isSupported, Place.fillsSlot, Place.isMarkupAlone,
          Element.isComponent, hkind, Node.element?, hname, hfragment, Node.isRawMarkup]
      · rw [if_neg hfragment] at hcontent
        obtain ⟨hchild, hinside⟩ :=
          compilable_placesAmong.mp hcontent (.element child) (List.mem_singleton.mpr rfl)
        exact ⟨Place.isCompilable_of_none hchild, hinside⟩
    | _ => simp [slotContent?, Node.element?] at hslot

theorem outletContent_compilable {e : Element}
    (h : ∀ f ∈ outletContent? e, Compilable f.places) : Compilable e.places := by
  rw [e.places_eq]
  unfold outletContent? at h
  split at h
  · exact compilable_blank ‹_›
  · exact (h _ rfl).of_none

/-! ## Visits -/

/-- The node of the context has a compiled form, and so has all that is inside. -/
structure Accepts (c : Context) : Prop where
  node : c.node.isSupported = true
  inside : Compilable c.node.places
  markup : c.node.isRawMarkup = true → c.isAbsorbed = true

section Making

variable {o : Options} {names : List String} {depth : Nat} {s s' : Session} {c c' : Context}
  (hvisit : Ensures (visit o depth) fun c _ => Accepts c)

include hvisit

theorem MakesBlock.compilable {f : Fragment} {b : Block}
    (h : MakesBlock (visit o depth) (.fragment f) s b s') : Compilable f.places := by
  obtain ⟨k, hrun, -, -⟩ := h
  exact (hvisit _ _ (Context.newBlock_fresh f s) hrun).inside

theorem Makes.compilable {rs : List (List String × Fragment)} {is : List Nat} {bs : List Block}
    (h : Makes (visit o depth) s rs is bs s') : ∀ r ∈ rs, Compilable r.2.places := by
  induction h with
  | nil => simp
  | id _ ih | note _ _ ih => exact ih
  | block hb _ ih | loop hb _ ih => exact List.forall_mem_cons.mpr ⟨hb.compilable hvisit, ih⟩

theorem MakesLoop.compilable {id : Nat} {b : EachBlock} {op : Operation}
    (h : MakesLoop o (visit o depth) id b s op s') : Compilable b.places := by
  cases h with
  | intro _ _ hbody _ hfallback =>
    have hfallbacks := hfallback.makes.compilable hvisit
    obtain ⟨subject, context, index, key, body, fallback, location⟩ := b
    refine compilable_append.mpr ⟨hbody.compilable hvisit, ?_⟩
    cases fallback with
    | none => exact fun p hp => nomatch hp
    | some f => exact hfallbacks ([], f) (List.mem_singleton_self _)

theorem VisitsChildren.accepts {isFragment : Bool} {frame : Frame} {i : Nat} {ns : List Node}
    (h : VisitsChildren (visit o depth) isFragment frame i ns c c') :
    ∀ n ∈ ns, n.isSupported = true ∧ Compilable n.places := by
  induction h with
  | nil => exact fun n hn => nomatch hn
  | @cons frame _ i n ns c k c' hframe hrun _ _ ih =>
    have hn := hvisit _ _ (hframe.child_fresh c) hrun
    exact List.forall_mem_cons.mpr ⟨⟨hn.node, hn.inside⟩, ih⟩

/-- Raw markup is taken over by its element or not at all. -/
theorem VisitsChildren.not_isRawMarkup (hpasses : o.passes = Pass.all) {isFragment : Bool}
    {frame : Frame} {i : Nat} {ns : List Node} (hmarks : frame.MarksTaken i)
    (h : VisitsChildren (visit o depth) isFragment frame i ns c c') :
    ∀ n ∈ ns, n.isRawMarkup = false := by
  induction h with
  | nil => exact fun n hn => nomatch hn
  | @cons frame frame' i n ns c k c' hframe hrun hparent _ ih =>
    have hfresh := hframe.child_fresh c
    have hn : frame.children[i]? = some n := by
      rw [← List.head?_drop, hframe.rest, List.head?_cons]
    obtain ⟨f', hf', -, hmarks'⟩ := visit_marksTaken hpasses depth _ _ hfresh hrun _ rfl hmarks
    obtain rfl : frame' = f' := Option.some.inj (hparent.symm.trans hf')
    refine List.forall_mem_cons.mpr ⟨?_, ih hmarks'⟩
    by_contra hmarkup
    rw [Bool.not_eq_false] at hmarkup
    have habsorbed := (hvisit _ _ hfresh hrun).markup hmarkup
    rw [isAbsorbed_child hmarks hn, isTakenOver_iff] at habsorbed
    obtain ⟨j, hj, -, hlike⟩ := habsorbed
    have htext := hlike i n (by omega) (by omega) hn
    cases n <;> simp [Node.isRawMarkup, Node.isTextLike] at hmarkup htext

/-- The children of a regular element, with what the element does about them as a whole. -/
theorem compilable_native (hpasses : o.passes = Pass.all) {e : Element} {c₁ : Context}
    (hkind : e.kind = .regular) (hc : c.Fresh)
    (hcontainer : ContainerWork o names e c c₁)
    (hwalk : VisitsChildren (visit o depth) false (Frame.ofNode c.node c₁.consumedChildren) 0
      e.children c₁ c') : Compilable e.places := by
  have hchildren := hwalk.accepts hvisit
  -- Only an element that takes its raw markup over as a whole has any.
  have hmarkup : ∀ n ∈ e.children, n.isRawMarkup = false ∨ e.children.length = 1 := by
    intro n hmem
    cases hcontainer with
    | idle =>
      refine .inl (hwalk.not_isRawMarkup hvisit hpasses ?_ n hmem)
      exact Frame.marksTaken_zero (by simp [Frame.ofNode, hc.consumedChildren])
    | markup hlone => exact .inr (by rw [hlone]; rfl)
    | literal htexts | text htexts =>
      have hlike := htexts.1 n hmem
      left
      cases n <;> simp [Node.isRawMarkup, Node.isTextLike] at hlike ⊢
  rw [e.places_eq, compilable_placesAmong]
  intro n hmem
  obtain ⟨hsupported, hinside⟩ := hchildren n hmem
  refine ⟨?_, hinside⟩
  rcases hmarkup n hmem with hother | hlone
  · exact Place.isCompilable_of_none (Place.isCompilable_none.mpr ⟨hsupported, hother⟩)
  · simp [Place.isCompilable, Place.isSupported, Place.isMarkupAlone, hsupported, hkind, hlone]

/-- A visit accepts what has a compiled form, if the visits inside do. -/
theorem Visits.accepts (hpasses : o.passes = Pass.all) (hc : c.Fresh)
    (h : Visits o names (visit o depth) c c') : Accepts c := by
  have hleaf : c.node.isSupported = true → c.node.places = [] → c.node.isRawMarkup = false →
      Accepts c := by
    intro hsupported hplaces hmarkup
    exact ⟨hsupported, by simp [hplaces, Compilable], by simp [hmarkup]⟩
  have helement : ∀ {e : Element} {props : List Property}, c.node = .element e →
      e.kind ≠ .special → Property.ofAttributes e.attributes = .ok props →
      Compilable e.places → Accepts c := by
    intro e props hn hkind hprops hplaces
    refine ⟨?_, hn ▸ hplaces, by simp [hn, Node.isRawMarkup]⟩
    rw [hn]
    simpa [Node.isSupported, hkind] using Property.isSupported_of_ofAttributes hprops
  cases h with
  | absorbed habsorbed habsorbable =>
    have hplaces : c.node.isSupported = true ∧ c.node.places = [] := by
      cases hn : c.node <;> simp_all [Node.isAbsorbable, Node.isSupported, Node.places]
    exact ⟨hplaces.1, by simp [hplaces.2, Compilable], fun _ => habsorbed⟩
  | text hn | comment hn | dropped hn | interpolation hn =>
    exact hleaf (by rw [hn]; rfl) (by rw [hn]; rfl) (by rw [hn]; rfl)
  | @condition b _ _ _ _ _ hn _ hpositive hnegative =>
    refine ⟨by rw [hn]; rfl, ?_, by simp [hn, Node.isRawMarkup]⟩
    rw [hn]
    apply b.compilable_of_branches
    obtain ⟨test, consequent, alternate, elseIf, location⟩ := b
    exact List.forall_mem_cons.mpr
      ⟨hpositive.compilable hvisit, by simpa using hnegative.makes.compilable hvisit⟩
  | loop hn hloop =>
    refine ⟨by rw [hn]; rfl, ?_, by simp [hn, Node.isRawMarkup]⟩
    rw [hn]
    exact hloop.compilable hvisit
  | outlet hn hkind hprops _ _ _ _ _ hfallback =>
    exact helement hn (by simp [hkind]) hprops
      (outletContent_compilable (by simpa using hfallback.makes.compilable hvisit))
  | component hn hkind hfs hmake hprops =>
    refine helement hn (by simp [hkind]) hprops (slotsOf_compilable hkind hfs fun slot hslot => ?_)
    exact hmake.makes.compilable hvisit _ (List.mem_map_of_mem hslot)
  | native hn hkind hcontainer hwalk hprops =>
    exact helement hn (by simp [hkind]) hprops
      (compilable_native hvisit hpasses hkind hc hcontainer hwalk)
  | @fragment f _ hn hwalk =>
    refine ⟨by rw [hn]; rfl, ?_, by simp [hn, Node.isRawMarkup]⟩
    rw [hn]
    change Compilable f.places
    rw [f.places_eq, compilable_placesAmong]
    intro n hmem
    obtain ⟨hsupported, hinside⟩ := hwalk.accepts hvisit n hmem
    have hother := hwalk.not_isRawMarkup hvisit hpasses (Frame.marksTaken_zero rfl) n hmem
    exact ⟨Place.isCompilable_none.mpr ⟨hsupported, hother⟩, hinside⟩

end Making

/-! ## Compiled templates -/

theorem visit_accepts {o : Options} (hpasses : o.passes = Pass.all) (depth : Nat) :
    Ensures (visit o depth) fun c _ => Accepts c :=
  visit_ensures hpasses (fun _ ih _ _ _ hc hvisits => hvisits.accepts ih hpasses hc) depth

/-- Whatever the template holds, at any depth, has a compiled form where it stands, and raw markup
is all that its element holds once layout has gone away. -/
theorem supported_of_compile {o : Options} {root : Fragment} {r : Compiled}
    (hpasses : o.passes = Pass.all) (h : compile o root = .ok r) :
    (∀ p ∈ root.places, p.isSupported = true) ∧
      ∀ p ∈ (o.prepare root).places, p.isMarkupAlone = true := by
  obtain ⟨depth, s, ⟨c, hrun, -, -⟩, -⟩ := compile_ok hpasses h
  have hinside : Compilable (o.prepare root).places :=
    (visit_accepts hpasses depth _ _ (Context.newBlock_fresh (o.prepare root) {}) hrun).inside
  have hboth : ∀ p ∈ (o.prepare root).places, p.isSupported = true ∧ p.isMarkupAlone = true :=
    fun p hp => by simpa [Place.isCompilable] using hinside p hp
  refine ⟨?_, fun p hp => (hboth p hp).2⟩
  have hprepared : Template.Supported (o.prepare root).places := fun p hp => (hboth p hp).1
  unfold Options.prepare at hprepared
  split at hprepared
  · exact hprepared
  · exact root.supported_of_condense hprepared

/-- A component with a slot that is filled by several nodes, and raw markup in a branch inside. -/
def filledTemplate : Fragment :=
  ⟨[.element ⟨"Panel", .component, [],
      [.element ⟨"svelte:fragment", .special,
          [.plain "slot" (.chunks [.text ⟨"head", "head", {}⟩]) {}],
          [.text ⟨"a", "a", {}⟩, .ifBlock ⟨⟨"b", {}⟩,
            ⟨[.element ⟨"p", .regular, [], [.text ⟨"\n", "\n", {}⟩, .rawMarkup ⟨"c", {}⟩], {}⟩], {}⟩,
            none, false, {}⟩], {}⟩,
        .element ⟨"slot", .slotOutlet, [], [.interpolation ⟨"d", {}⟩], {}⟩], {}⟩], {}⟩

theorem supported_of_compile_filledTemplate :
    (compile {} filledTemplate).isOk = true ∧
      (∀ p ∈ filledTemplate.places, p.isSupported = true) ∧
      ∀ p ∈ (Options.prepare {} filledTemplate).places, p.isMarkupAlone = true := by
  have hok : (compile {} filledTemplate).isOk = true := by decide +kernel
  obtain ⟨r, h⟩ := exists_eq_ok hok
  exact ⟨hok, supported_of_compile rfl h⟩

/-- Raw markup between blanks. -/
def paddedMarkup : Fragment :=
  ⟨[.element ⟨"div", .regular, [],
    [.text ⟨" ", " ", {}⟩, .rawMarkup ⟨"x", {}⟩, .text ⟨" ", " ", {}⟩], {}⟩], {}⟩

/-- A slot whose content takes a name that the component hands over. -/
def scopedSlot : Fragment :=
  ⟨[.element ⟨"Panel", .component, [],
    [.element ⟨"svelte:fragment", .special,
      [.plain "slot" (.chunks [.text ⟨"head", "head", {}⟩]) {},
        .directive .letBinding "item" [] .absent {}],
      [.text ⟨"a", "a", {}⟩], {}⟩], {}⟩], {}⟩

/-- Raw markup that is not alone before layout goes away is compiled, and so is what fills a slot,
whatever its attributes. -/
theorem paddedMarkup_compiled :
    ((compile {} paddedMarkup).isOk = true ∧
      paddedMarkup.places.any (!·.isMarkupAlone) = true) ∧
    (compile {} scopedSlot).isOk = true ∧
      scopedSlot.places.any (fun p => p.node.element?.any (·.attributes.any (!·.isSupported))) =
        true := by
  decide +kernel

end TemplateCompiler
