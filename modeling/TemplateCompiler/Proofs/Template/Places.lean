import TemplateCompiler.Proofs.Template.Nodes

/-! # Where nodes stand

The places of all nodes of a template, each with the element that it is a child of. What can be
compiled depends on the place only.
-/

namespace TemplateCompiler.Template

variable {ns : List Node} {owner : Option Element}

/-- A node and the element that it is a child of. -/
structure Place where
  owner : Option Element
  node : Node

mutual

/-- The places of the nodes inside a node, at any depth. -/
def Node.places : Node → List Place
  | .fragment f => f.places
  | .element e => e.places
  | .ifBlock b => b.places
  | .eachBlock b => b.places
  | .keyBlock _ body _ => body.places
  | _ => []

def Fragment.places : Fragment → List Place
  | ⟨children, _⟩ => placesAmong none children

def Element.places : Element → List Place
  | ⟨name, kind, attributes, children, location⟩ =>
    placesAmong (some ⟨name, kind, attributes, children, location⟩) children

def IfBlock.places : IfBlock → List Place
  | ⟨_, consequent, alternate, _, _⟩ => consequent.places ++ optionalPlaces alternate

def EachBlock.places : EachBlock → List Place
  | ⟨_, _, _, _, body, fallback, _⟩ => body.places ++ optionalPlaces fallback

def optionalPlaces : Option Fragment → List Place
  | none => []
  | some f => f.places

/-- The places of children of `owner` and of the nodes inside them. -/
def placesAmong (owner : Option Element) : List Node → List Place
  | [] => []
  | n :: ns => ⟨owner, n⟩ :: n.places ++ placesAmong owner ns

end

theorem Fragment.places_eq (f : Fragment) : f.places = placesAmong none f.children := by
  cases f
  rfl

theorem Element.places_eq (e : Element) : e.places = placesAmong (some e) e.children := by
  cases e
  rfl

theorem forall_mem_placesAmong {P : Place → Prop} :
    (∀ p ∈ placesAmong owner ns, P p) ↔ ∀ n ∈ ns, P ⟨owner, n⟩ ∧ ∀ p ∈ n.places, P p := by
  induction ns with
  | nil => simp [placesAmong]
  | cons n ns ih =>
    rw [placesAmong, List.cons_append, List.forall_mem_cons, List.forall_mem_append, ih,
      List.forall_mem_cons, and_assoc]

/-! ## What can be compiled -/

/-- Transitions, animations and the names that slots hand over have no compiled form. -/
def Attribute.isSupported : Attribute → Bool
  | directive .transition _ _ _ _ | directive .animation _ _ _ _
  | directive .letBinding _ _ _ _ => false
  | _ => true

/-- The node has a compiled form, whatever is inside. -/
def Node.isSupported : Node → Bool
  | awaitBlock _ _ | keyBlock _ _ _ | constTag _ | debugTag _ _ => false
  | element e => e.kind != .special && e.attributes.all (·.isSupported)
  | _ => true

def Node.isRawMarkup : Node → Bool
  | rawMarkup _ => true
  | _ => false

namespace Place

/-- The node does no more than to say which slot of the component around it its children fill. -/
def fillsSlot (p : Place) : Bool :=
  p.owner.any (·.isComponent) &&
    p.node.element?.any fun e =>
      e.name == "svelte:fragment" && (e.staticAttribute? "slot").isSome

/-- The node has a compiled form where it stands. -/
def isSupported (p : Place) : Bool := p.fillsSlot || p.node.isSupported

/-- Raw markup is all that its element holds. -/
def isMarkupAlone (p : Place) : Bool :=
  !p.node.isRawMarkup || p.owner.any fun e => e.kind == .regular && e.children.length == 1

/-- The node has a compiled form where it stands, and with it what raw markup needs. -/
def isCompilable (p : Place) : Bool := p.isSupported && p.isMarkupAlone

/-- A child of no element is compiled in any case, or in none. -/
theorem isCompilable_none {n : Node} :
    (⟨none, n⟩ : Place).isCompilable = true ↔ n.isSupported = true ∧ n.isRawMarkup = false := by
  simp [isCompilable, isSupported, fillsSlot, isMarkupAlone]

theorem isCompilable_of_none {n : Node} (h : (⟨none, n⟩ : Place).isCompilable = true) :
    (⟨owner, n⟩ : Place).isCompilable = true := by
  obtain ⟨hsupported, hmarkup⟩ := isCompilable_none.mp h
  simp [isCompilable, isSupported, isMarkupAlone, hsupported, hmarkup]

end Place

/-- All nodes are compiled where they stand. -/
def Compilable (ps : List Place) : Prop := ∀ p ∈ ps, p.isCompilable = true

theorem compilable_append {ps qs : List Place} :
    Compilable (ps ++ qs) ↔ Compilable ps ∧ Compilable qs := List.forall_mem_append

theorem compilable_placesAmong : Compilable (placesAmong owner ns) ↔
      ∀ n ∈ ns, (⟨owner, n⟩ : Place).isCompilable = true ∧ Compilable n.places :=
  forall_mem_placesAmong

theorem Compilable.of_none (h : Compilable (placesAmong none ns)) :
    Compilable (placesAmong owner ns) :=
  compilable_placesAmong.mpr fun n hn =>
    (compilable_placesAmong.mp h n hn).imp_left Place.isCompilable_of_none

theorem compilable_blank (h : ns.all (·.isBlankText) = true) :
    Compilable (placesAmong owner ns) := by
  refine Compilable.of_none (compilable_placesAmong.mpr fun n hn => ?_)
  have hblank := List.all_eq_true.mp h n hn
  cases n with
  | text t => exact ⟨rfl, fun p hp => nomatch hp⟩
  | _ => simp [Node.isBlankText] at hblank

/-! ## Condensing -/

theorem Node.isSupported_condense (n : Node) : n.condense.isSupported = n.isSupported := by
  cases n with
  | element e =>
    cases e
    rfl
  | _ => rfl

/-- Condensing changes nothing of what decides whether a node has a compiled form. -/
theorem Place.isSupported_condense (owner : Option Element) (n : Node) :
    (⟨owner.map Element.condense, n.condense⟩ : Place).isSupported =
      (⟨owner, n⟩ : Place).isSupported := by
  have howner : (owner.map Element.condense).any (·.isComponent) = owner.any (·.isComponent) := by
    cases owner with
    | none => rfl
    | some e =>
      cases e
      rfl
  have helement : ∀ P : Element → Bool, (∀ e : Element, P e.condense = P e) →
      n.condense.element?.any P = n.element?.any P := by
    intro P hP
    cases n with
    | element e => exact hP e
    | _ => rfl
  unfold isSupported fillsSlot
  rw [howner, n.isSupported_condense, helement _ fun e => by cases e; rfl]

/-- All nodes have a compiled form where they stand. -/
def Supported (ps : List Place) : Prop := ∀ p ∈ ps, p.isSupported = true

theorem supported_append {ps qs : List Place} :
    Supported (ps ++ qs) ↔ Supported ps ∧ Supported qs := List.forall_mem_append

-- Condensing leaves out texts only, and keeps all that counts of the other nodes.
mutual

theorem Node.supported_of_condense (n : Node) (h : Supported n.condense.places) :
    Supported n.places := by
  cases n with
  | fragment f => exact f.supported_of_condense h
  | element e => exact e.supported_of_condense h
  | ifBlock b => exact b.supported_of_condense h
  | eachBlock b => exact b.supported_of_condense h
  | keyBlock code body location => exact body.supported_of_condense h
  | _ => exact h

theorem Fragment.supported_of_condense (f : Fragment) (h : Supported f.condense.places) :
    Supported f.places := by
  cases f with
  | mk children location => exact supported_of_condenseNodes none none children h

theorem Element.supported_of_condense (e : Element) (h : Supported e.condense.places) :
    Supported e.places := by
  cases e with
  | mk name kind attributes children location =>
    by_cases hname : isPreformattedTag name = true
    · rwa [Element.condense, if_pos hname] at h
    · refine supported_of_condenseNodes (some _) none children ?_
      rw [Option.map_some, Element.condense, if_neg hname]
      rwa [Element.condense, if_neg hname] at h

theorem IfBlock.supported_of_condense (b : IfBlock) (h : Supported b.condense.places) :
    Supported b.places := by
  cases b with
  | mk test consequent alternate elseIf location =>
    obtain ⟨hconsequent, halternate⟩ := supported_append.mp h
    exact supported_append.mpr ⟨consequent.supported_of_condense hconsequent,
      supported_of_condenseOptional alternate halternate⟩

theorem EachBlock.supported_of_condense (b : EachBlock) (h : Supported b.condense.places) :
    Supported b.places := by
  cases b with
  | mk subject context index key body fallback location =>
    obtain ⟨hbody, hfallback⟩ := supported_append.mp h
    exact supported_append.mpr ⟨body.supported_of_condense hbody,
      supported_of_condenseOptional fallback hfallback⟩

theorem supported_of_condenseOptional (f : Option Fragment)
    (h : Supported (optionalPlaces (condenseOptional f))) : Supported (optionalPlaces f) := by
  cases f with
  | none => exact h
  | some f => exact f.supported_of_condense h

theorem supported_of_condenseNodes (owner : Option Element) (before : Option Node)
    (ns : List Node)
    (h : Supported (placesAmong (owner.map Element.condense) (condenseNodes before ns))) :
    Supported (placesAmong owner ns) := by
  cases ns with
  | nil => exact h
  | cons n ns =>
    rw [condenseNodes] at h
    rw [placesAmong, List.cons_append]
    by_cases hlayout : isLayout before n ns.head? = true
    · rw [if_pos hlayout] at h
      have hns := supported_of_condenseNodes owner (some n) ns h
      cases n with
      | text t => exact List.forall_mem_cons.mpr ⟨by simp [Place.isSupported, Node.isSupported], hns⟩
      | _ => simp [isLayout] at hlayout
    · rw [if_neg hlayout, placesAmong, List.cons_append] at h
      obtain ⟨hn, hrest⟩ := List.forall_mem_cons.mp h
      obtain ⟨hinside, hrest⟩ := supported_append.mp hrest
      exact List.forall_mem_cons.mpr ⟨Place.isSupported_condense owner n ▸ hn,
        supported_append.mpr ⟨n.supported_of_condense hinside,
          supported_of_condenseNodes owner (some n) ns hrest⟩⟩

end

end TemplateCompiler.Template
