import TemplateCompiler.Proofs.Names.Processed
import TemplateCompiler.Proofs.Script.Owners
import TemplateCompiler.Proofs.Script.Parts

/-! # Where declarations belong

A tree of scopes is laid out as its script is: every scope lists the scopes inside it, and every
declaration lies where it is written, but for hoisted ones, which lie in the function around. What is
declared and mentioned at one place belongs to a scope.
-/

namespace TemplateCompiler.Script

variable {scopes scopes' : List Scope} {i j : Nat} {name : String}

/-! ## Places of declarations -/

/-- The declarations among events, each with the scope that it is written in. The scopes that are open
are `around`, innermost first and without the outermost one, and `next` is the next to be entered. -/
def declarationsOf (around : List Nat) (next : Nat) : List Event → List (Nat × Declaration)
  | [] => []
  | .enter _ :: events => declarationsOf (next :: around) (next + 1) events
  | .leave :: events => declarationsOf around.tail next events
  | .declare kind id :: events => (around.headD 0, ⟨kind, id⟩) :: declarationsOf around next events
  | .mention _ _ :: events => declarationsOf around next events

/-- The scope `j` is no block, and of the scopes around `i` that are none, it is the innermost. -/
structure HoistsTo (scopes : List Scope) (i j : Nat) : Prop where
  around : Inside scopes i j
  function : scopes[j]?.any (!·.isBlock) = true
  innermost : ∀ k, Inside scopes i k → scopes[k]?.any (!·.isBlock) = true → Inside scopes j k

/-- The declaration, which is written in a scope, belongs to the scope `j`. -/
def Belongs (scopes : List Scope) (x : Nat × Declaration) (j : Nat) : Prop :=
  if x.2.kind = .varDecl then HoistsTo scopes x.1 j else j = x.1

/-- The scope that a declaration is put in. -/
def home (scopes : List Scope) (x : Nat × Declaration) : Nat :=
  if x.2.kind.isHoisted then (nearest? scopes (!·.isBlock) x.1).getD 0 else x.1

variable {x : Nat × Declaration}

theorem home_le (hscopes : Ordered scopes) : home scopes x ≤ x.1 := by
  unfold home
  split
  · cases h : nearest? scopes (!·.isBlock) x.1 with
    | none => exact Nat.zero_le _
    | some j => exact nearest?_le hscopes h
  · exact Nat.le_refl _

theorem home_congr (hscopes : Ordered scopes) (hx : x.1 < scopes.length)
    (hlength : scopes.length ≤ scopes'.length)
    (hshape : ∀ i < scopes.length, shapeAt scopes' i = shapeAt scopes i) :
    home scopes' x = home scopes x := by
  unfold home
  rw [nearest?_congr hscopes hx (by omega)]
  · exact fun j hj => parent_eq_of_shapeAt (hshape j (by omega))
  · exact fun j hj => isFunction_eq_of_shapeAt (hshape j (by omega))

theorem belongs_home (hscopes : Ordered scopes) (hx : x.1 < scopes.length)
    (hroot : shapeAt scopes 0 = some (none, false)) (hinside : Inside scopes x.1 0) :
    Belongs scopes x (home scopes x) := by
  have hhoisted : x.2.kind.isHoisted = true ↔ x.2.kind = .varDecl := by
    cases x.2.kind <;> simp [DeclarationKind.isHoisted]
  unfold Belongs home
  by_cases hkind : x.2.kind = .varDecl
  · rw [if_pos hkind, if_pos (hhoisted.mpr hkind)]
    cases h : nearest? scopes (!·.isBlock) x.1 with
    | none =>
      have hblock := (nearest?_eq_none_iff hscopes hx).mp h 0 hinside
      simp [isFunction_of_shapeAt hroot] at hblock
    | some j =>
      obtain ⟨haround, hfunction, hinner⟩ := (nearest?_eq_some_iff hscopes hx).mp h
      exact ⟨haround, hfunction, hinner⟩
  · rw [if_neg hkind, if_neg (mt hhoisted.mp hkind)]

theorem Belongs.inside (h : Belongs scopes x j) : Inside scopes x.1 j := by
  unfold Belongs at h
  split at h
  · exact h.around
  · exact h ▸ .here _

/-! ## What scopes keep -/

/-- What a scope keeps of the declarations that belong to it: of each name the first. -/
def keptAt (place : Nat × Declaration → Nat) (ds : List (Nat × Declaration)) (j : Nat) :
    List Declaration :=
  firsts (sameKey (·.id.name)) ((ds.filter (place · = j)).map Prod.snd)

variable {place place' : Nat × Declaration → Nat} {ds : List (Nat × Declaration)}

theorem keptAt_congr (h : ∀ x ∈ ds, place' x = place x) :
    keptAt place' ds j = keptAt place ds j := by
  unfold keptAt
  rw [List.filter_congr fun x hx => by rw [h x hx]]

theorem Scope.declares_iff {s : Scope} {ds : List Declaration}
    (hs : s.declarations = firsts (sameKey (·.id.name)) ds) :
    s.declares name = true ↔ name ∈ ds.map (·.id.name) := by
  rw [← mem_map_firsts, ← hs]
  simp [Scope.declares, Scope.declaration?]

theorem declarations_insert {s : Scope} {ds : List Declaration} (d : Declaration)
    (hs : s.declarations = firsts (sameKey (·.id.name)) ds) :
    (s.insert d).declarations = firsts (sameKey (·.id.name)) (ds ++ [d]) := by
  unfold Scope.insert
  by_cases hd : d.id.name ∈ ds.map (·.id.name)
  · rw [if_pos ((Scope.declares_iff hs).mpr hd), hs, firsts_concat_of_mem hd]
  · rw [if_neg (mt (Scope.declares_iff hs).mp hd), firsts_concat_of_not_mem hd, ← hs]

namespace Collector

variable {c : Collector} {around : List Nat}

/-- The scopes being read are `around`, and the declarations read so far are `ds`. -/
structure Follows (c : Collector) (around : List Nat) (ds : List (Nat × Declaration)) : Prop
    extends c.Grown where
  chain : scopeChain c.scopes c.current = around ++ [0]
  placed : ∀ x ∈ ds, x.1 < c.scopes.length
  kept : ∀ (j : Nat) s, c.scopes[j]? = some s → s.declarations = keptAt (home c.scopes) ds j

theorem follows_empty : Follows empty [] [] where
  toGrown := grown_empty
  chain := rfl
  placed := nofun
  kept := by
    intro j s hs
    cases j <;> simp [empty] at hs
    subst hs
    rfl

section

variable (h : Follows c around ds)

include h

theorem Follows.current_eq : around.headD 0 = c.current := by
  have hhead : (scopeChain c.scopes c.current).headD 0 = c.current := by
    cases hp : c.scopes[c.current]?.bind Scope.parent with
    | none => rw [scopeChain_root h.current_lt hp, List.headD_cons]
    | some p => rw [scopeChain_cons h.ordered h.current_lt hp, List.headD_cons]
  rw [h.chain] at hhead
  cases around with
  | nil => exact hhead
  | cons i around => exact hhead

theorem Follows.enter (isBlock : Bool) :
    Follows (c.step (.enter isBlock)) (c.scopes.length :: around) ds := by
  have hlt := h.current_lt
  have hle : c.scopes.length ≤ (c.step (.enter isBlock)).scopes.length := by
    rw [length_enter]
    omega
  have hgrown := h.toGrown.enter isBlock
  refine { toGrown := hgrown, chain := ?_, placed := ?_, kept := ?_ }
  · rw [scopeChain_cons hgrown.ordered hgrown.current_lt
      (parent_of_shapeAt (shapeAt_enter_new isBlock c)), List.cons_append, ← h.chain,
      scopeChain_congr h.ordered hlt (by omega) fun i hi =>
        parent_eq_of_shapeAt (shapeAt_enter isBlock (by omega))]
    rfl
  · exact fun x hx => Nat.lt_of_lt_of_le (h.placed x hx) hle
  · intro j s hs
    rw [keptAt_congr fun x hx =>
      home_congr h.ordered (h.placed x hx) hle fun i hi => shapeAt_enter isBlock hi]
    by_cases hj : j < c.scopes.length
    · rw [getElem?_enter isBlock hj] at hs
      obtain ⟨t, ht, rfl⟩ := Option.map_eq_some_iff.mp hs
      rw [← h.kept j t ht, apply_ite Scope.declarations, ite_self]
    · obtain rfl : j = c.scopes.length := by
        have hlt' := (List.getElem?_eq_some_iff.mp hs).1
        rw [length_enter] at hlt'
        omega
      obtain rfl := Option.some.inj ((getElem?_enter_new isBlock c).symm.trans hs)
      -- All that is written so far belongs to an earlier scope.
      have hnone : ds.filter (home c.scopes · = c.scopes.length) = [] := by
        rw [List.filter_eq_nil_iff]
        intro x hx
        have hhome := home_le (x := x) h.ordered
        have hplaced := h.placed x hx
        rw [decide_eq_true_eq]
        omega
      rw [keptAt, hnone]
      rfl

theorem Follows.leave : Follows (c.step .leave) around.tail ds := by
  refine { toGrown := h.toGrown.leave, chain := ?_, placed := h.placed, kept := h.kept }
  have hchain := h.chain
  have hlt := h.current_lt
  simp only [step]
  cases hp : c.scopes[c.current]?.bind Scope.parent with
  | none =>
    rw [scopeChain_root hlt hp] at hchain
    obtain ⟨rfl, hzero⟩ : around = [] ∧ c.current = 0 := by
      cases around <;> simp_all
    exact h.chain ▸ by rw [hzero]; rfl
  | some p =>
    rw [scopeChain_cons h.ordered hlt hp] at hchain
    cases around with
    | nil =>
      have hplt := h.ordered _ _ hp
      have hmem := (mem_scopeChain h.ordered (by omega)).mpr (.here p)
      simp [(List.cons.inj hchain).2] at hmem
    | cons i around => exact (List.cons.inj hchain).2

theorem Follows.declare (kind : DeclarationKind) (id : Ident) :
    Follows (c.step (.declare kind id)) around (ds ++ [(around.headD 0, ⟨kind, id⟩)]) := by
  have hshape := shapeAt_declare c kind id
  have hlength : (c.step (.declare kind id)).scopes.length = c.scopes.length := by
    simp [step]
  have hgrown := h.toGrown.declare kind id
  have hplaced : ∀ x ∈ ds ++ [(c.current, ⟨kind, id⟩)], x.1 < c.scopes.length := by
    exact List.forall_mem_append.mpr ⟨h.placed, by simpa using h.current_lt⟩
  rw [h.current_eq]
  refine { toGrown := hgrown, chain := ?_, placed := ?_, kept := ?_ }
  · rw [← h.chain]
    exact scopeChain_congr h.ordered h.current_lt hgrown.current_lt fun i _ =>
      parent_eq_of_shapeAt (hshape i)
  · rwa [hlength]
  · intro j s hs
    rw [keptAt_congr fun x hx =>
      home_congr h.ordered (hplaced x hx) hlength.ge fun i _ => hshape i]
    have htarget : (c.step (.declare kind id)).scopes =
        c.scopes.modify (home c.scopes (c.current, ⟨kind, id⟩)) (·.insert ⟨kind, id⟩) := rfl
    rw [htarget, List.getElem?_modify] at hs
    obtain ⟨t, ht, rfl⟩ := Option.map_eq_some_iff.mp hs
    rw [keptAt, List.filter_append, List.map_append, List.filter_singleton]
    by_cases hj : home c.scopes (c.current, ⟨kind, id⟩) = j
    · simpa [hj] using declarations_insert ⟨kind, id⟩ (h.kept j t ht)
    · simpa [hj, keptAt] using h.kept j t ht

theorem Follows.mention (id : Ident) (shorthand : Bool) :
    Follows (c.step (.mention id shorthand)) around ds :=
  { toGrown := h.toGrown.mention id shorthand
    chain := h.chain
    placed := h.placed
    kept := h.kept }

/-- What is read after `events` is read in the scopes that they leave open. -/
theorem Follows.run (events : List Event) :
    ∃ around' ds', Follows (events.foldl step c) around' (ds ++ ds') ∧
      ∀ rest, declarationsOf around c.scopes.length (events ++ rest) =
        ds' ++ declarationsOf around' (events.foldl step c).scopes.length rest := by
  induction events generalizing c around ds with
  | nil => exact ⟨around, [], by simpa using h, fun _ => rfl⟩
  | cons e events ih =>
    cases e with
    | enter isBlock =>
      obtain ⟨around', ds', hfollows, hrest⟩ := ih (h.enter isBlock)
      rw [length_enter] at hrest
      exact ⟨around', ds', hfollows, hrest⟩
    | leave => exact ih h.leave
    | declare kind id =>
      obtain ⟨around', ds', hfollows, hrest⟩ := ih (h.declare kind id)
      refine ⟨around', (around.headD 0, ⟨kind, id⟩) :: ds', by simpa using hfollows, fun rest => ?_⟩
      have hlength : (c.step (.declare kind id)).scopes.length = c.scopes.length := by
        simp [step]
      rw [hlength] at hrest
      rw [List.cons_append, declarationsOf, hrest]
      rfl
    | mention id shorthand => exact ih (h.mention id shorthand)

end

theorem references_subset_run (c : Collector) (events : List Event) :
    c.references ⊆ (events.foldl step c).references := by
  induction events generalizing c with
  | nil => exact fun _ => id
  | cons e events ih =>
    refine List.Subset.trans ?_ (ih (c.step e))
    cases e with
    | mention => exact List.subset_append_left _ _
    | _ => exact fun _ => id

end Collector

/-! ## Names of patterns -/

/-- The identifier is one that the pattern binds. -/
inductive Binding.Binds : Binding → Ident → Prop
  | name (id : Ident) : Binds (.name id) id
  | array {bs : List Binding} {b : Binding} {id : Ident} (hb : b ∈ bs) (h : b.Binds id) :
      Binds (.array bs) id
  | object {bs : List Binding} {b : Binding} {id : Ident} (hb : b ∈ bs) (h : b.Binds id) :
      Binds (.object bs) id
  | withDefault {b : Binding} {id : Ident} (value : Expr) (h : b.Binds id) :
      Binds (.withDefault b value) id
  | rest {b : Binding} {id : Ident} (h : b.Binds id) : Binds (.rest b) id
  | property {b : Binding} {id : Ident} (key : Key) (h : b.Binds id) : Binds (.property key b) id

mutual

theorem Binding.mem_idents {id : Ident} : ∀ b : Binding, id ∈ b.idents ↔ b.Binds id
  | .name _ => by
    rw [Binding.idents, List.mem_singleton]
    exact ⟨fun h => h ▸ .name id, fun h => by cases h; rfl⟩
  | .array bs => (mem_bindingIdents bs).trans
      ⟨fun ⟨_, hb, h⟩ => .array hb h, fun h => by cases h with | array hb h => exact ⟨_, hb, h⟩⟩
  | .object bs => (mem_bindingIdents bs).trans
      ⟨fun ⟨_, hb, h⟩ => .object hb h, fun h => by cases h with | object hb h => exact ⟨_, hb, h⟩⟩
  | .withDefault b value => b.mem_idents.trans ⟨.withDefault value, fun h => by cases h; assumption⟩
  | .hole => iff_of_false List.not_mem_nil nofun
  | .rest b => b.mem_idents.trans ⟨.rest, fun h => by cases h; assumption⟩
  | .property key b => b.mem_idents.trans ⟨.property key, fun h => by cases h; assumption⟩

theorem mem_bindingIdents {id : Ident} : ∀ bs : List Binding,
    id ∈ bindingIdents bs ↔ ∃ b ∈ bs, b.Binds id
  | [] => by simp [bindingIdents]
  | b :: bs => by
    rw [bindingIdents, List.mem_append, b.mem_idents, mem_bindingIdents bs, List.exists_mem_cons_iff]

end

/-- Whoever reads the events records the identifiers, all in the scope where the reading starts. -/
def Records (events : List Event) (ids : List Ident) : Prop :=
  ∀ c : Collector, c.WellFormed → ∀ id ∈ ids,
    { ident := id, scope := c.current, shorthand := false } ∈
      (events.foldl Collector.step c).references

theorem records_nil (events : List Event) : Records events [] := fun _ _ _ => nofun

theorem Records.append {events events' : List Event} {ids ids' : List Ident}
    {declared hoisted : List String} {free : List Occurrence} (h : Records events ids)
    (hevents : Denotes events declared hoisted free) (h' : Records events' ids') :
    Records (events ++ events') (ids ++ ids') := by
  intro c hc id hid
  rw [List.foldl_append]
  rcases List.mem_append.mp hid with hid | hid
  · exact Collector.references_subset_run _ _ (h c hc id hid)
  · have hfirst := hevents c hc
    exact hfirst.current_eq ▸ h' _ hfirst.wellFormed id hid

mutual

theorem Binding.records : ∀ b : Binding, Records (b.events true) b.idents
  | .name id => by
    intro c _ x hx
    obtain rfl := List.mem_singleton.mp hx
    exact List.mem_append_right _ (List.mem_singleton_self _)
  | .array bs => bindings_record bs
  | .object bs => bindings_record bs
  | .withDefault b value =>
    List.append_nil b.idents ▸ b.records.append (b.denotes true) (records_nil value.events)
  | .hole => records_nil []
  | .rest b => b.records
  | .property key b => (records_nil key.events).append key.denotes b.records

theorem bindings_record : ∀ bs : List Binding, Records (bindingEvents true bs) (bindingIdents bs)
  | [] => records_nil []
  | b :: bs => b.records.append (b.denotes true) (bindings_record bs)

end

/-! ## Trees -/

theorem declarationsOf_declares (around : List Nat) (next : Nat) (kind : DeclarationKind)
    (ids : List Ident) (events : List Event) :
    declarationsOf around next (ids.map (.declare kind) ++ events) =
      ids.map (fun id => (around.headD 0, ⟨kind, id⟩)) ++ declarationsOf around next events := by
  induction ids with
  | nil => rfl
  | cons id ids ih => simp only [List.map_cons, List.cons_append, declarationsOf, ih]

theorem Collector.current_declares (c : Collector) (kind : DeclarationKind) (ids : List Ident) :
    ((ids.map (.declare kind)).foldl step c).current = c.current := by
  induction ids generalizing c with
  | nil => rfl
  | cons id ids ih => exact ih _

namespace ScopeTree

/-- The tree is the one that events describe: all scopes but the outermost are inside an earlier one
and listed there in order, every declaration is kept where it belongs unless it is repeated, and no
name that is declared around its use is taken for a global. -/
structure Arranged (tree : ScopeTree) (events : List Event) : Prop where
  root : shapeAt tree.scopes 0 = some (none, false)
  parent : ∀ i, 0 < i → i < tree.scopes.length → ∃ p < i, tree.scopes[i]?.bind Scope.parent = some p
  children : ∀ (p : Nat) s, tree.scopes[p]? = some s → s.children = childrenAt tree.scopes p
  declarations : ∃ place : Nat × Declaration → Nat,
    (∀ x ∈ declarationsOf [] 1 events, place x < tree.scopes.length ∧ Belongs tree.scopes x (place x)) ∧
      ∀ (j : Nat) s, tree.scopes[j]? = some s →
        s.declarations = keptAt place (declarationsOf [] 1 events) j
  /-- Wherever a declarator stands, its names are declared and mentioned in one scope. -/
  targets : ∀ before kind (b : Binding) after,
    events = before ++ (Event.declareAll kind b ++ (b.events true ++ after)) →
      ∃ i, ∀ id, b.Binds id → (i, ⟨kind, id⟩) ∈ declarationsOf [] 1 events ∧
        ∃ r ∈ tree.references, r.ident = id ∧ r.scope = i
  owned : ∀ x ∈ declarationsOf [] 1 events, ∀ r ∈ tree.references,
    r.ident.name = x.2.id.name → Inside tree.scopes r.scope x.1 →
      r.owner.isSome ∧ (∀ k name, tree.references[k]? = some r → (name, k) ∉ tree.globals) ∧
        ∀ s, r ∉ qualifiedReferences s tree

theorem targets_ofEvents {events before after : List Event} {kind : DeclarationKind} {b : Binding}
    (h : events = before ++ (Event.declareAll kind b ++ (b.events true ++ after))) :
    ∃ i, ∀ id, b.Binds id → (i, ⟨kind, id⟩) ∈ declarationsOf [] 1 events ∧
      ∃ r ∈ (ofEvents events).references, r.ident = id ∧ r.scope = i := by
  unfold Event.declareAll at h
  obtain ⟨around, ds, hfollows, hrest⟩ := Collector.follows_empty.run before
  have hgrown := hfollows.toGrown.run (b.idents.map (.declare kind))
  refine ⟨around.headD 0, fun id hid => ?_⟩
  have hid := b.mem_idents.mpr hid
  constructor
  · refine h ▸ (hrest _).symm ▸ List.mem_append_right _ ?_
    rw [declarationsOf_declares]
    exact List.mem_append_left _ (List.mem_map_of_mem hid)
  · have hr := b.records _ hgrown.toWellFormed id hid
    rw [Collector.current_declares, ← hfollows.current_eq] at hr
    have hmem := List.mem_map_of_mem (f := (·.resolved (events.foldl Collector.step .empty).scopes))
      (Collector.references_subset_run _ after hr)
    rw [← List.foldl_append, ← List.foldl_append, ← List.foldl_append, ← h,
      ← references_ofEvents] at hmem
    exact ⟨_, hmem, rfl, rfl⟩

theorem Tabulated.spares {tree : ScopeTree} {r : Reference} (h : tree.Tabulated)
    (howner : r.owner ≠ none) :
    (∀ k name, tree.references[k]? = some r → (name, k) ∉ tree.globals) ∧
      ∀ s, r ∉ qualifiedReferences s tree := by
  refine ⟨fun k name hk hmem => ?_, fun s hmem => ?_⟩
  · obtain ⟨⟨r', hr', hnone, -⟩, -⟩ := (h.least name k).mp hmem
    exact howner (Option.some.inj (hk.symm.trans hr') ▸ hnone)
  · have hfree := (List.mem_filter.mp (mem_sortByStart.mp hmem)).1
    exact howner (Option.isNone_iff_eq_none.mp (List.mem_filter.mp hfree).2)

theorem arranged_ofEvents (events : List Event) : (ofEvents events).Arranged events := by
  obtain ⟨around, ds, hfollows, hrest⟩ := Collector.follows_empty.run events
  have hds : declarationsOf [] 1 events = ds := by
    simpa [declarationsOf, Collector.empty] using hrest []
  have hagree := agree_ofEvents events
  have hlength := hagree.length_eq
  have hordered := hfollows.ordered.congr hagree.parent_eq
  have hroot := (hagree.shapeAt_eq 0).trans hfollows.root
  have hhome : ∀ x ∈ ds, home (ofEvents events).scopes x = home _ x := fun x hx =>
    home_congr hfollows.ordered (hfollows.placed x hx) hlength.ge fun i _ => hagree.shapeAt_eq i
  have hbelongs : ∀ x ∈ ds, home (ofEvents events).scopes x < (ofEvents events).scopes.length ∧
      Belongs (ofEvents events).scopes x (home (ofEvents events).scopes x) := by
    intro x hx
    have hlt := hlength ▸ hfollows.placed x hx
    exact ⟨Nat.lt_of_le_of_lt (home_le hordered) hlt, belongs_home hordered hlt hroot
      ((hfollows.inside_root (hfollows.placed x hx)).congr hagree.parent_eq)⟩
  have hkept : ∀ (j : Nat) s, (ofEvents events).scopes[j]? = some s →
      s.declarations = keptAt (home (ofEvents events).scopes) ds j ∧
        s.children = childrenAt (ofEvents events).scopes j := by
    intro j s hs
    obtain ⟨t, ht, hbare⟩ := Option.map_eq_some_iff.mp
      ((hagree.getElem?_eq j).symm.trans (congrArg (·.map Scope.bare) hs))
    rw [keptAt_congr hhome, childrenAt_congr hlength hagree.parent_eq]
    exact ⟨(congrArg Scope.declarations hbare).symm.trans (hfollows.kept j t ht),
      (congrArg Scope.children hbare).symm.trans (hfollows.listed j t ht).1⟩
  refine { root := hroot, parent := ?_, children := fun p s hs => (hkept p s hs).2,
           declarations := ⟨_, hds ▸ hbelongs, fun j s hs => hds ▸ (hkept j s hs).1⟩,
           targets := fun _ _ _ _ h => targets_ofEvents h, owned := ?_ }
  · intro i hpos hlt
    obtain ⟨p, hp⟩ := Option.isSome_iff_exists.mp (hfollows.inside i hpos (hlength ▸ hlt))
    exact ⟨p, hfollows.ordered i p hp, (hagree.parent_eq i).trans hp⟩
  · rw [hds]
    intro x hx r hr hname hinside
    obtain ⟨hlt, hbelong⟩ := hbelongs x hx
    have hdeclares : declaresAt (ofEvents events).scopes (home (ofEvents events).scopes x)
        r.ident.name = true := by
      have hget := List.getElem?_eq_getElem hlt
      rw [declaresAt, hget, Option.any_some, Scope.declares_iff (hkept _ _ hget).1, hname]
      exact List.mem_map_of_mem (List.mem_map_of_mem (List.mem_filter.mpr ⟨hx, by simp⟩))
    have howner : r.owner ≠ none := by
      intro hnone
      have hnot := ((owned_ofEvents events).owner_eq_none r hr).mp hnone _
        (hinside.trans hbelong.inside)
      exact Bool.false_ne_true (hnot.symm.trans hdeclares)
    exact ⟨Option.isSome_iff_ne_none.mpr howner,
      (tabulated_of_globals (globals_ofEvents events)).spares howner⟩

/-- Wherever a declarator stands in a script of these parts, the names of its pattern are declared
and mentioned in one scope, and what is mentioned there is owned, listed as no global and never
qualified. -/
def OwnsTargets (tree : ScopeTree) (parts : List Part) : Prop :=
  ∀ p ∈ parts, ∀ kind b, p.Holds (.declared kind true b) → ∃ i, ∀ id, b.Binds id →
    (i, ⟨kind, id⟩) ∈ declarationsOf [] 1 (parts.flatMap Part.meaning) ∧
      ∃ r ∈ tree.references, r.ident = id ∧ r.scope = i ∧ r.owner.isSome ∧
        (∀ k name, tree.references[k]? = some r → (name, k) ∉ tree.globals) ∧
          ∀ s, r ∉ qualifiedReferences s tree

theorem ownsTargets_ofEvents {events : List Event} {parts : List Part}
    (h : parts.flatMap Part.meaning = events) : (ofEvents events).OwnsTargets parts := by
  intro p hp kind b hb
  have harranged := arranged_ofEvents events
  subst h
  obtain ⟨before, after, heq⟩ :=
    hb.infix.trans (List.infix_of_mem_flatten (List.mem_map_of_mem hp))
  rw [← List.flatMap_def, Part.meaning, List.append_assoc, List.append_assoc] at heq
  obtain ⟨i, hi⟩ := harranged.targets before kind b after heq.symm
  refine ⟨i, fun id hid => ?_⟩
  obtain ⟨hdeclared, r, hr, rfl, hscope⟩ := hi id hid
  exact ⟨hdeclared, r, hr, rfl, hscope, harranged.owned _ hdeclared r hr rfl (hscope ▸ .here _)⟩

/-- Every tree of scopes is arranged as its script says and owns what its declarators name, and every
pattern declares what it binds. -/
theorem arranged_exactly :
    (∀ e, (ofExpr e).Arranged e.events ∧ (ofExpr e).OwnsTargets [.expr e]) ∧
      (∀ body, (ofProgram body).Arranged (stmtEvents body) ∧
        (ofProgram body).OwnsTargets (body.map .stmt)) ∧
      ∀ (b : Binding) kind id, .declare kind id ∈ Event.declareAll kind b ↔ b.Binds id := by
  refine ⟨fun e => ?_, fun body => ?_, fun b kind id => ?_⟩
  · exact ⟨arranged_ofEvents _, ownsTargets_ofEvents (List.flatMap_singleton ..)⟩
  · exact ⟨arranged_ofEvents _, ownsTargets_ofEvents (Part.flatMap_stmts body)⟩
  · simpa [Event.declareAll] using b.mem_idents

end ScopeTree

end TemplateCompiler.Script
