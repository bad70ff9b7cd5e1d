import TemplateCompiler.Proofs.Transform.Develops

/-! # Every visit is steady

What properties depend on is gathered apart from the properties, so their collector comes with an
invariant of its own.
-/

namespace TemplateCompiler

open Template (EachBlock Fragment Node)
open Transform Comparison

/-! ## Merging properties -/

/-- What all entries have, merged properties have: the key comes from an entry, and so does every
value. -/
theorem mergeEntries_all {entries : List PropEntry} {p q : Expression → Prop}
    (h : ∀ e ∈ entries, p e.key ∧ q e.value) :
    ∀ m ∈ mergeEntries entries, p m.key ∧ ∀ v ∈ m.values, q v := by
  intro m hm
  obtain ⟨⟨e, he, hkey⟩, hvalues⟩ := stemsFrom_mergeEntries m hm
  refine ⟨hkey ▸ (h e he).1, fun v hv => ?_⟩
  obtain ⟨e, he, -, rfl⟩ := hvalues v hv
  exact (h e he).2

/-! ## Collecting properties -/

/-- What the collector holds, the expressions that it has gathered cover. -/
structure PropCollector.IsSound (k : PropCollector) : Prop where
  pending : ∀ e ∈ k.pending, e.key.CoveredBy k.expressions ∧ e.value.CoveredBy k.expressions
  groups : ∀ g ∈ k.groups, ∀ x ∈ g.expressions, x.CoveredBy k.expressions

/-- The names of fixed properties are literal, and the expressions of other ones are covered. -/
def PropResult.IsSound : PropResult → Prop
  | .fixed props => ∀ p ∈ props, p.key.isStatic = true
  | .dynamic groups es => ∀ g ∈ groups, ∀ x ∈ g.expressions, x.CoveredBy es

namespace PropCollector.IsSound

variable {k : PropCollector}

theorem empty : PropCollector.IsSound {} := ⟨by simp, by simp⟩

theorem entries {es : List Expression} {entries : List PropEntry}
    (h : ∀ e ∈ entries, e.key.CoveredBy es ∧ e.value.CoveredBy es) :
    ∀ x ∈ (PropGroup.entries (mergeEntries entries)).expressions, x.CoveredBy es := by
  intro x hx
  obtain ⟨m, hm, hx⟩ := List.mem_flatMap.mp hx
  obtain ⟨hkey, hvalues⟩ := mergeEntries_all h m hm
  rcases List.mem_cons.mp hx with rfl | hx
  · exact hkey
  · exact hvalues x hx

section

variable (h : k.IsSound)

include h

theorem flush : k.flush.IsSound := by
  unfold PropCollector.flush
  split
  · exact h
  · exact ⟨by simp, forall_mem_concat h.groups (entries h.pending)⟩

theorem watch (es : List Expression) :
    PropCollector.IsSound { k with expressions := k.expressions ++ es } where
  pending e he :=
    ⟨(h.pending e he).1.mono (List.subset_append_left _ _),
      (h.pending e he).2.mono (List.subset_append_left _ _)⟩
  groups g hg x hx := (h.groups g hg x hx).mono (List.subset_append_left _ _)

theorem addGroup {g : PropGroup} (hg : ∀ x ∈ g.expressions, x.CoveredBy k.expressions) :
    PropCollector.IsSound { k with groups := k.groups ++ [g] } where
  pending := h.pending
  groups := forall_mem_concat h.groups hg

theorem addPending {e : PropEntry} (hkey : e.key.CoveredBy k.expressions)
    (hvalue : e.value.CoveredBy k.expressions) :
    PropCollector.IsSound { k with pending := k.pending ++ [e] } where
  pending := forall_mem_concat h.pending ⟨hkey, hvalue⟩
  groups := h.groups

theorem addAttribute (a : StaticAttribute) : (k.addAttribute a).IsSound := by
  unfold PropCollector.addAttribute
  split
  · exact h
  · exact h.addPending (.of_isStatic rfl) (.of_isStatic rfl)

theorem addSpread (value : Expression) : (k.addSpread value).IsSound := by
  refine (h.flush.watch [value]).addGroup fun x hx _ => ?_
  rw [List.mem_singleton.mp hx]
  exact List.mem_append_right _ (by simp)

theorem addEntry (isComponent : Bool) (e : PropEntry) : (k.addEntry isComponent e).IsSound := by
  have hwatch := h.watch [e.key, e.value]
  have hkey : e.key.CoveredBy (k.expressions ++ [e.key, e.value]) := fun _ => by simp
  have hvalue : e.value.CoveredBy (k.expressions ++ [e.key, e.value]) := fun _ => by simp
  unfold PropCollector.addEntry
  dsimp only
  split
  · have hflush : (PropCollector.flush { k with
        expressions := k.expressions ++ [e.key, e.value] }).expressions =
          k.expressions ++ [e.key, e.value] := by
      unfold PropCollector.flush
      split <;> rfl
    refine hwatch.flush.addGroup fun x hx => ?_
    rw [hflush]
    simp only [PropGroup.expressions, MergedProp.expressions, MergedProp.ofEntry, List.flatMap_cons,
      List.flatMap_nil, List.append_nil, List.mem_cons, List.not_mem_nil, or_false] at hx
    rcases hx with rfl | rfl
    · exact hkey
    · exact hvalue
  · exact hwatch.addPending hkey hvalue

theorem result : k.result.IsSound := by
  unfold PropCollector.result
  split
  · exact h.flush.groups
  · rename_i hfixed
    simp only [Bool.or_eq_true, List.any_eq_true, not_or, not_exists, not_and] at hfixed
    have hstatic : ∀ e ∈ k.pending, e.key.isStatic = true ∧ True :=
      fun e he => ⟨by simpa using hfixed.2 e he, trivial⟩
    intro m hm
    exact (mergeEntries_all (p := (·.isStatic = true)) (q := fun _ => True) hstatic m hm).1

end

end PropCollector.IsSound

/-! ## Steps -/

variable {o : Options} {c₀ w : Context}

/-- A reference is marked by the loops around the element, which the session counts. -/
theorem steady_setTemplateRef (id : Nat) (value : Expression) :
    Steady (do registerOn value (.setTemplateRef id value (0 < (← getSession).loopDepth))) := by
  intro c
  change AbidesAt c (registerOn value (.setTemplateRef id value (0 < c.session.loopDepth))) _
  unfold registerOn
  split
  · rename_i hstatic
    refine ⟨.of_develops (.contribution (x := .once _) _
      ⟨fun e he => ?_, fun _ => List.nil_subset _, rfl⟩) rfl, trivial⟩
    rw [List.mem_singleton.mp he]
    exact .of_isStatic hstatic
  · exact ⟨.of_develops (.contribution (x := .whenever _ _) _
      ⟨fun _ he _ => he, fun _ _ he => he, rfl⟩) rfl, trivial⟩

namespace Context.following

theorem placeProp {p : MergedProp} (hp : p.key.isStatic = true) :
    c₀.following.Runs w Equal (placeProp p) (placeProp p) := by
  unfold TemplateCompiler.placeProp
  split
  · exact .pure_eq _
  · refine reference.seq fun element => .seq (registerEffect fun s => ?_) fun _ => .pure_eq _
    refine ⟨fun e he => ?_, fun _ => List.subset_cons_self _ _, trivial⟩
    rcases List.mem_cons.mp he with rfl | he
    · exact .of_isStatic hp
    · exact fun _ => he

theorem placeProps {result : PropResult} (h : result.IsSound) :
    c₀.following.Runs w Equal (placeProps result) (placeProps result) := by
  cases result with
  | dynamic groups es =>
    refine reference.seq fun element => .seq (registerEffect fun s => ?_) fun _ => .pure_eq _
    refine ⟨fun e he => ?_, by simp [Contribution.op, Operation.isExact], trivial⟩
    obtain ⟨g, hg, he⟩ := List.mem_flatMap.mp he
    exact h g hg e he
  | fixed props => exact .seq (.mapM_eq fun p hp => placeProp (h p hp)) fun _ => .pure_eq _

theorem createText (frame : Frame) :
    c₀.following.Runs w Equal (createText o frame) (createText o frame) := by
  refine .get fun c c' hc _ => ?_
  rw [hc.1]
  refine .seq (changeElse fun _ => ⟨rfl, rfl, rfl⟩) fun _ => .getSession fun k k' hk _ => ?_
  rw [hk.1]
  exact .seq (.ofExcept_eq _) fun _ => reference.seq fun _ =>
    .seq (changeElse fun _ => ⟨rfl, rfl, rfl⟩) fun _ => registerOperation rfl fun _ => rfl

theorem insertRun (x : Insertion) :
    c₀.following.Runs w Equal (insertRun x) (insertRun x) := by
  unfold TemplateCompiler.insertRun
  cases x.spot with
  | front => exact reference.seq fun _ => registerOperation rfl fun _ => trivial
  | back => exact reference.seq fun _ => registerOperation rfl fun _ => trivial
  | placeholder =>
    have hanchor (index : Nat) :
        c₀.following.Runs w Equal (placeAnchor index) (placeAnchor index) :=
      allocateId.seq fun _ => .seq (changeElse fun _ => ⟨rfl, rfl, rfl⟩) fun _ => .pure_eq _
    exact (hanchor _).seq fun _ => reference.seq fun _ => registerOperation rfl fun _ => trivial

/-- The steps of a run develop the block and the session. -/
def simulation (c₀ : Context) (o : Options) : Simulation o o.qualifyNames where
  toComparison := c₀.following
  similar h := by
    rw [h.1]
    exact ⟨rfl, rfl, rfl, rfl, rfl, rfl, rfl, rfl, rfl, fun _ => rfl⟩
  SameId := Eq
  Like := Eq
  LikeProps p p' := p = p' ∧ p'.IsSound
  LikeResult r r' := r = r' ∧ r'.IsSound
  LikeBlock _ := Eq
  LikeAlternative _ := Eq
  like _ := rfl
  literal := @literalMarkup?_congr
  qualified h e := by
    rw [h.1]
    exact .refl (fun _ => rfl) _
  likeBlock_later _ := id
  nothing := rfl
  otherwise hb := by rw [hb]
  test hi he hb ha := by rw [hi, he, hb, ha]
  noProps := ⟨rfl, .empty⟩
  addAttribute a h := ⟨by rw [h.1], h.2.addAttribute a⟩
  addSpread h he := ⟨by rw [h.1, he], h.2.addSpread _⟩
  addEntry isComponent e h hkey hvalue := ⟨by rw [h.1, hkey, hvalue], h.2.addEntry isComponent _⟩
  result h := ⟨by rw [h.1], h.2.result⟩
  reference := @fun _ => reference
  allocateId := @fun _ => allocateId
  setFlags _ := changeElse fun _ => ⟨rfl, rfl, rfl⟩
  appendTemplate _ := changeElse fun _ => ⟨rfl, rfl, rfl⟩
  setApart text := (addTemplate text).seq fun _ =>
    .seq (changeElse fun _ => ⟨rfl, rfl, rfl⟩) fun _ => .pure fun _ _ => trivial
  removeNode := @fun _ => changeElse fun _ => ⟨rfl, rfl, rfl⟩
  setContent _ := changeElse fun _ => ⟨rfl, rfl, rfl⟩
  consume _ := changeElse fun _ => ⟨rfl, rfl, rfl⟩
  addComponent _ := change fun _ => .of_develops (.component _ _ _) rfl
  addDirective _ := change fun _ => .of_develops (.directive _ _ _) rfl
  narrow _ hn hkind := .modify fun k k' hk hlater => by
    have hleads := (abidesOn_narrow hkind k' (hn ▸ hlater.2)).1
    rw [hk.1]
    exact ⟨⟨rfl, hk.2.trans hleads⟩, hleads⟩
  fillSlots {w xs xs'} hxs := by
    obtain rfl : xs = xs' := by
      rw [← List.forall₂_eq_eq_eq]
      exact hxs.imp fun _ _ hx => Prod.ext hx.1 hx.2
    exact changeElse fun _ => ⟨rfl, rfl, rfl⟩
  returnNode hi := by
    rw [hi]
    exact change fun _ => .of_develops (.returns _ _ _) rfl
  insertChildren := @fun _ => .get fun c c' hc _ => by
    rw [hc.1]
    exact .forM fun x _ => insertRun x
  placeProps h := by
    rw [h.1]
    exact placeProps h.2
  createText {c c'} hc _ := by
    rw [hc.1]
    cases c'.parent with
    | none => exact .pure_eq ()
    | some frame => exact createText frame
  setEvent m hi hkey hv := by
    rw [hi, hkey, optionRel_eq.mp hv]
    refine .ite (fun _ => registerOperation rfl fun _ => trivial) fun _ => ?_
    refine registerEffect fun _ => ⟨?_, ?_, trivial⟩
    · simp [Contribution.op, Operation.watched]
    · simp [Contribution.op, Operation.isExact]
  withDirective _ _ _ _ _ hi hexp := by
    rw [hi, optionRel_eq.mp hexp]
    exact registerOperation rfl fun _ => trivial
  setTemplateRef hi hv := by
    rw [hi, hv]
    exact (steady_setTemplateRef _ _).runs
  setHtml hi hv := by
    rw [hi, hv]
    exact registerEffect fun _ => ⟨fun _ he _ => he, fun _ _ he => he, trivial⟩
  setText hi hvs := by
    rw [List.forall₂_eq_eq_eq] at hvs
    rw [hi, hvs]
    exact registerEffect fun _ => ⟨fun _ he _ => he, fun _ _ he => he, trivial⟩
  createComponent tag asset hi hr := .get fun c c' hc _ => by
    rw [hc.1, hi, hr.1]
    exact .seq (changeElse fun _ => ⟨rfl, rfl, rfl⟩) fun _ => registerOperation rfl fun _ => trivial
  branch hi he hb ha := by
    rw [hi, he, hb, ha]
    exact registerOperation rfl fun _ => trivial
  loop value index hi he hkey hb hf := by
    rw [hi, he, optionRel_eq.mp hkey, hb, optionRel_eq.mp hf]
    exact registerOperation rfl fun _ => trivial
  slotOutlet hi hname hr hf := by
    rw [hi, hname, hr.1, optionRel_eq.mp hf]
    exact registerOperation rfl fun _ => trivial

end Context.following

/-! ## Blocks -/

section Visiting

variable {visit : Transform Unit} (hvisit : Steady visit)

include hvisit

theorem steady_createBlock (n : Node) : Steady (createBlock visit n) := by
  intro c
  have hroot := hvisit (Context.newBlock n c.session)
  unfold AbidesAt at hroot ⊢
  rw [createBlock_eq]
  cases hrun : visit (Context.newBlock n c.session) with
  | ok u k =>
    rw [hrun] at hroot
    exact ⟨.of_develops (.block _ (.trans (.id _ _) hroot.1.1)) rfl, trivial⟩
  | error d k =>
    rw [hrun] at hroot
    exact .of_develops (.block _ (.trans (.id _ _) hroot.1)) rfl

/-- A loop is entered and left, even if its body cannot be made. -/
theorem steady_createLoopBody (names : List String) (b : EachBlock) :
    Steady (createLoopBody o visit names b) := by
  intro c
  have hroot := hvisit (Context.newBlock (.fragment b.body) (c.session.enterLoop names))
  have hloop {k : Context}
      (h : (Context.newBlock (.fragment b.body) (c.session.enterLoop names)).LeadsTo k) :
      c.LeadsTo (c.during (k.session.leaveLoop names)) :=
    .of_develops (.loop _ names (.trans (.id _ _) h.1)) rfl
  unfold AbidesAt at hroot ⊢
  rw [createLoopBody_eq, createBlock_eq]
  cases hrun : visit (Context.newBlock (.fragment b.body) (c.session.enterLoop names)) with
  | error d k =>
    rw [hrun] at hroot
    simp only [Context.during, hrun]
    exact hloop hroot
  | ok u k =>
    rw [hrun] at hroot
    simp only [Context.during, hrun]
    split
    · rename_i heq
      split at heq <;> cases heq
      exact ⟨hloop hroot.1, trivial⟩
    · rename_i heq
      split at heq <;> cases heq
      exact hloop hroot.1

/-! ## Visits -/

omit hvisit in
theorem steady_inChild {α : Type} {t : Transform α} (ht : Steady t) (n : Node) (i : Nat)
    (frame : Frame) : Steady (inChild n i frame t) := by
  intro c
  have hchild := ht (c.child n i frame)
  unfold AbidesAt at hchild ⊢
  unfold inChild
  cases hrun : t (c.child n i frame) with
  | ok u k =>
    rw [hrun] at hchild
    exact ⟨.of_develops hchild.1.1 rfl, trivial⟩
  | error d k =>
    rw [hrun] at hchild
    exact .of_develops hchild.1 rfl

theorem steady_visitChild (isFragment : Bool) : Steady (visitChild visit isFragment) :=
  steady_of_runs fun c =>
    Simulation.Inside.visitChild (S := Context.following.simulation c {}) hvisit.runs isFragment

theorem steady_visitChildren (isFragment : Bool) (frame : Frame) (i : Nat) (ns : List Node) :
    Steady (visitChildren visit isFragment frame i ns) := by
  refine steady_of_runs fun c => ?_
  induction ns generalizing frame i with
  | nil => exact .pure_eq ()
  | cons n ns ih =>
    refine (steady_inChild (steady_visitChild hvisit isFragment) n i frame).runs.seq fun _ => ?_
    exact .seq (Context.following.changeElse fun _ => ⟨rfl, rfl, rfl⟩) fun _ => ih _ _

theorem steady_visitWith : Steady (visitWith o visit) :=
  steady_of_runs fun c => Simulation.Inside.visitWith (S := Context.following.simulation c o)
    { block := fun _ _ => (steady_createBlock hvisit _).runs
      body := fun _ _ _ => (steady_createLoopBody hvisit _ _).runs.imp fun _ _ _ hx =>
        ⟨congrArg _ hx, optionRel_eq.mpr (congrArg _ hx)⟩
      children := fun _ _ _ => (steady_visitChildren hvisit _ _ _ _).runs }

end Visiting

theorem steady_visit (depth : Nat) : Steady (visit o depth) := by
  induction depth with
  | zero => exact fun c => .refl c
  | succ depth ih => exact steady_visitWith ih

theorem steady_visitNode : Steady (visitNode o) := fun c => steady_visit _ c

end TemplateCompiler
