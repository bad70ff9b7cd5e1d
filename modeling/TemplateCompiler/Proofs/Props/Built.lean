import TemplateCompiler.Proofs.Props.Directives

/-! # Where properties come from

Every key, value and spread object that properties are put together from is what a property of the
element supplies, processed once.
-/

namespace TemplateCompiler

open Template (Element)
open Transform

variable {d : Directive} {entry : PropEntry} {id : Nat} {value : Expression}

/-! ## Origins -/

/-- The entry is what one of the properties supplies. -/
def EntryFrom (o : Options) (names : List String) (e : Element) (props : List Property)
    (entry : PropEntry) : Prop :=
  ∃ p ∈ props, ∃ key value, Supplies e p key value ∧
    Processed o names key entry.key ∧ Processed o names value entry.value

/-- The expression is what one of the properties spreads. -/
def SpreadFrom (o : Options) (names : List String) (props : List Property) (e : Expression) :
    Prop :=
  ∃ d raw, .bound d ∈ props ∧ d.name = "bind" ∧ d.arg = none ∧ d.exp = some raw ∧
    Processed o names raw e

/-- The key and all values of the property come from properties with that key. -/
structure PropFrom (o : Options) (names : List String) (e : Element) (props : List Property)
    (p : MergedProp) : Prop where
  key : ∃ entry, EntryFrom o names e props entry ∧ entry.key = p.key
  values : ∀ v ∈ p.values, ∃ entry,
    EntryFrom o names e props entry ∧ entry.key.same p.key = true ∧ entry.value = v

inductive GroupFrom (o : Options) (names : List String) (e : Element) (props : List Property) :
    PropGroup → Prop
  | entries {ps : List MergedProp} :
      (∀ p ∈ ps, PropFrom o names e props p) → GroupFrom o names e props (.entries ps)
  | spread {value : Expression} :
      SpreadFrom o names props value → GroupFrom o names e props (.spread value false)

/-- The expression is a key, a value or a spread object of the properties. -/
inductive ExpressionFrom (o : Options) (names : List String) (e : Element)
    (props : List Property) : Expression → Prop
  | key {entry : PropEntry} :
      EntryFrom o names e props entry → ExpressionFrom o names e props entry.key
  | value {entry : PropEntry} :
      EntryFrom o names e props entry → ExpressionFrom o names e props entry.value
  | spread {value : Expression} :
      SpreadFrom o names props value → ExpressionFrom o names e props value

inductive ResultFrom (o : Options) (names : List String) (e : Element) (props : List Property) :
    PropResult → Prop
  | fixed {ps : List MergedProp} :
      (∀ p ∈ ps, PropFrom o names e props p) → ResultFrom o names e props (.fixed ps)
  | dynamic {groups : List PropGroup} {es : List Expression} :
      (∀ g ∈ groups, GroupFrom o names e props g) →
      (∀ x ∈ es, ExpressionFrom o names e props x) →
      ResultFrom o names e props (.dynamic groups es)

structure CollectorFrom (o : Options) (names : List String) (e : Element) (props : List Property)
    (k : PropCollector) : Prop where
  pending : ∀ entry ∈ k.pending, EntryFrom o names e props entry
  groups : ∀ g ∈ k.groups, GroupFrom o names e props g
  expressions : ∀ x ∈ k.expressions, ExpressionFrom o names e props x

/-! ## Merging -/

variable {o : Options} {names : List String} {e : Element} {props : List Property}

theorem propFrom_ofEntry (h : EntryFrom o names e props entry) :
    PropFrom o names e props (MergedProp.ofEntry entry) where
  key := ⟨entry, h, rfl⟩
  values := by
    intro v hv
    simp only [MergedProp.ofEntry, List.mem_singleton] at hv
    exact ⟨entry, h, by simp [Expression.same, MergedProp.ofEntry], hv.symm⟩

theorem propFrom_mergeEntries {entries : List PropEntry}
    (h : ∀ entry ∈ entries, EntryFrom o names e props entry) :
    ∀ p ∈ mergeEntries entries, PropFrom o names e props p := by
  intro p hp
  obtain ⟨⟨entry, hentry, hkey⟩, hvalues⟩ := stemsFrom_mergeEntries p hp
  refine ⟨⟨entry, h entry hentry, hkey⟩, fun v hv => ?_⟩
  obtain ⟨entry, hentry, hvalue⟩ := hvalues v hv
  exact ⟨entry, h entry hentry, hvalue⟩

/-! ## Fixed properties -/

theorem Processed.eq_of_isStatic {raw x : Expression} (h : Processed o names raw x)
    (hx : x.isStatic = true) : raw = x := by
  cases h with
  | kept => rfl
  | rewritten _ _ _ hdynamic => simp [hdynamic] at hx

/-- On an element, text is supplied by plain attributes only. -/
theorem Supplies.exists_fixed {p : Property} {key : Expression}
    (hprops : Property.ofAttributes e.attributes = .ok props) (hkind : e.kind = .regular)
    (hp : p ∈ props) (h : Supplies e p key value) (hvalue : value.isStatic = true) :
    ∃ a, p = .fixed a ∧ key = .static a.name (a.location.withSource a.name) := by
  cases h with
  | fixed a => exact ⟨a, rfl, rfl⟩
  | bind hname harg hexp =>
    obtain ⟨a, -, ha⟩ := Property.exists_of_mem hprops hp
    simp [Property.isStatic_of_bind ha hname harg hexp] at hvalue
  | handler _ _ hother => simp [hkind] at hother
  | model _ hother => simp [hkind] at hother
  | toggle _ hentry | style _ hentry =>
    unfold objectEntry at hentry
    split at hentry <;> cases hentry
    simp [Expression.dynamic] at hvalue

/-- The name of a property that never changes is that of a plain attribute. -/
theorem PropFrom.exists_plain {p : MergedProp} {a : String × String}
    (hprops : Property.ofAttributes e.attributes = .ok props) (hkind : e.kind = .regular)
    (hp : PropFrom o names e props p) (ha : p.staticText? = some a) :
    ∃ value location, .plain a.1 value location ∈ e.attributes := by
  unfold MergedProp.staticText? at ha
  split at ha
  · rename_i v hvalues
    simp only [Option.ite_none_right_eq_some, Bool.and_eq_true, Option.some.injEq] at ha
    obtain ⟨⟨hkey, hvalue⟩, rfl⟩ := ha
    obtain ⟨entry, ⟨q, hq, key, value, hsupplies, hkey', hvalue'⟩, hsame, rfl⟩ :=
      hp.values v (by simp [hvalues])
    simp only [Expression.same, Bool.and_eq_true, beq_iff_eq, hkey] at hsame
    obtain rfl := hkey'.eq_of_isStatic hsame.2
    obtain rfl := hvalue'.eq_of_isStatic hvalue
    obtain ⟨attr, rfl, hattr⟩ := hsupplies.exists_fixed hprops hkind hq hvalue
    obtain ⟨written, hwritten, hfixed⟩ := Property.exists_of_mem hprops hq
    obtain ⟨value, location, rfl⟩ := Property.plain_of_fixed hfixed
    refine ⟨value, location, ?_⟩
    rw [← hsame.1, hattr]
    exact hwritten
  · simp at ha

/-! ## Collecting -/

namespace CollectorFrom

variable {k : PropCollector}

theorem empty : CollectorFrom o names e props {} := ⟨by simp, by simp, by simp⟩

theorem flush (h : CollectorFrom o names e props k) : CollectorFrom o names e props k.flush := by
  unfold PropCollector.flush
  split
  · exact h
  · exact ⟨by simp, forall_mem_concat h.groups (.entries (propFrom_mergeEntries h.pending)),
      h.expressions⟩

theorem addAttribute {a : StaticAttribute} (h : CollectorFrom o names e props k)
    (ha : isReservedProp a.name = false → .fixed a ∈ props) :
    CollectorFrom o names e props (k.addAttribute a) := by
  unfold PropCollector.addAttribute
  split
  · exact h
  · rename_i hother
    refine ⟨forall_mem_concat h.pending ?_, h.groups, h.expressions⟩
    exact ⟨_, ha (by simpa using hother), _, _, .fixed a, .kept (.inl rfl), .kept (.inl rfl)⟩

theorem addSpread (h : CollectorFrom o names e props k) (hvalue : SpreadFrom o names props value) :
    CollectorFrom o names e props (k.addSpread value) :=
  ⟨h.flush.pending, forall_mem_concat h.flush.groups (.spread hvalue),
    forall_mem_concat h.flush.expressions (.spread hvalue)⟩

theorem addEntry (isComponent : Bool) (h : CollectorFrom o names e props k)
    (hentry : EntryFrom o names e props entry) :
    CollectorFrom o names e props (k.addEntry isComponent entry) := by
  have hk : CollectorFrom o names e props
      { k with expressions := k.expressions ++ [entry.key, entry.value] } := by
    refine ⟨h.pending, h.groups, List.forall_mem_append.mpr ⟨h.expressions, ?_⟩⟩
    simpa using ⟨.key hentry, .value hentry⟩
  unfold PropCollector.addEntry
  dsimp only
  split
  · refine ⟨hk.flush.pending, forall_mem_concat hk.flush.groups (.entries ?_), hk.flush.expressions⟩
    exact List.forall_mem_singleton.mpr (propFrom_ofEntry hentry)
  · exact ⟨forall_mem_concat h.pending hentry, hk.groups, hk.expressions⟩

theorem result (h : CollectorFrom o names e props k) : ResultFrom o names e props k.result := by
  unfold PropCollector.result
  split
  · exact .dynamic h.flush.groups h.flush.expressions
  · exact .fixed (propFrom_mergeEntries h.pending)

end CollectorFrom

/-! ## Actions -/

def Property.action? (o : Options) : Property → Option Directive
  | .bound d => if d.isAction o then some d else none
  | .fixed _ => none

def Operation.isAction : Operation → Bool
  | withDirective _ _ _ builtin _ _ => !builtin
  | _ => false

/-- The contribution registers the action on the node with the given id. -/
def Directive.Registers (o : Options) (names : List String) (id : Nat) (d : Directive)
    (x : Contribution) : Prop :=
  ∃ exp name asset, ProcessedOption o names d.exp exp ∧
    x = .once (.withDirective id name { d with exp } false asset none)

/-- The contributions register the actions among the properties, each once and in their order. -/
def RegistersAll (o : Options) (names : List String) (id : Nat) (props : List Property)
    (xs : List Contribution) : Prop :=
  List.Forall₂ (Directive.Registers o names id) (props.filterMap (·.action? o))
    (xs.filter (·.op.isAction))

theorem RegistersAll.append {ps qs : List Property} {xs ys : List Contribution}
    (h : RegistersAll o names id ps xs) (h' : RegistersAll o names id qs ys) :
    RegistersAll o names id (ps ++ qs) (xs ++ ys) := by
  rw [RegistersAll, List.filterMap_append, List.filter_append]
  exact List.rel_append h h'

theorem registersAll_of_not_action (h : d.isAction o = false) :
    RegistersAll o names id [.bound d] [] := by
  simp [RegistersAll, Property.action?, h]

theorem Supplies.isAction {key : Expression} (h : Supplies e (.bound d) key value) :
    d.isAction o = false := by
  cases h with
  | bind hd => exact d.isAction_of_name .bind hd
  | handler hd => exact d.isAction_of_name .on hd
  | model hd => exact d.isAction_of_name .model hd
  | toggle hd => exact d.isAction_of_name .classToggle hd
  | style hd => exact d.isAction_of_name .styleProperty hd

theorem Contributes.registersAll {x : Contribution} (h : Contributes o names e id d x) :
    RegistersAll o names id [.bound d] [x] := by
  have hother : d.isAction o = false → x.op.isAction = false →
      RegistersAll o names id [.bound d] [x] := by
    intro hd hx
    simp [RegistersAll, Property.action?, hd, hx]
  cases h with
  | event hd => exact hother (d.isAction_of_name .on hd) (by rw [dependingOn_op]; rfl)
  | model hd => exact hother (d.isAction_of_name .model hd) rfl
  | plainReference hd => exact hother (d.isAction_of_name .reference hd) rfl
  | reference hd => exact hother (d.isAction_of_name .reference hd) (by rw [dependingOn_op]; rfl)
  | @action exp name asset hdirective hbuiltin hexp =>
    have hd : d.isAction o = true := by simp [Directive.isAction, hdirective, hbuiltin]
    simpa [RegistersAll, Property.action?, hd, Contribution.op, Operation.isAction] using
      ⟨exp, name, asset, hexp, rfl⟩

/-! ## Running over the properties -/

/-- What one property adds to the properties of its element. -/
inductive PropPiece
  | entry (entry : PropEntry) (fromDirective : Bool)
  /-- An object whose properties are spread. -/
  | spread (value : Expression)

/-- Adds a piece. -/
def PropCollector.addPiece (isComponent : Bool) (k : PropCollector) : PropPiece → PropCollector
  | .entry e true => k.addEntry isComponent e
  | .entry e false => { k.addEntry isComponent e with expressions := k.expressions }
  | .spread value => k.addSpread value

/-- Where the property of an element comes to a piece, or to none, `c` becomes `c'`. -/
inductive Encounter (o : Options) (e : Element) (c : Context) :
    Property → Option PropPiece → Context → Prop
  | reserved {a : StaticAttribute} :
      isReservedProp a.name = true → Encounter o e c (.fixed a) none c
  | plain {a : StaticAttribute} :
      isReservedProp a.name = false →
      Encounter o e c (.fixed a)
        (some (.entry
          { key := .static a.name (a.location.withSource a.name)
            value := .static a.value (a.location.withSource a.value) } false)) c
  | object {d : Directive} {raw value : Expression} :
      d.name = "bind" → d.arg = none → d.exp = some raw → raw.qualified o c.session = .ok value →
      Encounter o e c (.bound d) (some (.spread value)) c
  | silent {d : Directive} {c' : Context} :
      ¬(d.name = "bind" ∧ d.arg = none) → applyDirective o d e c = .ok none c' →
      Encounter o e c (.bound d) none c'
  | entry {d : Directive} {raw : PropEntry} {key value : Expression} {c' : Context} :
      ¬(d.name = "bind" ∧ d.arg = none) → applyDirective o d e c = .ok (some raw) c' →
      (if raw.key.isStatic then .ok raw.key else raw.key.qualified o c'.session) = .ok key →
      raw.value.qualified o c'.session = .ok value →
      Encounter o e c (.bound d) (some (.entry { raw with key, value } true)) c'

variable {c c' : Context}

/-- An attribute with a reserved name, or a binding of one. -/
def Property.isReserved : Property → Bool
  | fixed a => isReservedProp a.name
  | bound d => d.name == "bind" && d.staticArg?.any isReservedProp

theorem not_isReserved_of_applyDirective (h : applyDirective o d e c = .ok (some entry) c') :
    (Property.bound d).isReserved = false := by
  by_contra hreserved
  simp only [Property.isReserved, Bool.not_eq_false, Bool.and_eq_true, beq_iff_eq] at hreserved
  obtain ⟨hname, hreserved⟩ := hreserved
  unfold applyDirective at h
  cases hdirective : o.directive? d.name with
  | none =>
    have hbuiltin : isBuiltinDirective d.name = true := by rw [hname]; rfl
    simp [hdirective, hbuiltin] at h
  | some builtin =>
    have hbuiltin : builtin.name = "bind" := by simpa [hname] using List.find?_some hdirective
    cases builtin with
    | bind =>
      cases harg : d.arg with
      | none => simp [Directive.staticArg?, harg] at hreserved
      | some arg =>
        cases hstatic : arg.isStatic <;> cases hexp : d.exp <;>
          simp_all [Directive.staticArg?, BuiltinDirective.apply, bindEntry]
    | _ => simp [BuiltinDirective.name] at hbuiltin

/-- A step over a directive adds the piece that it comes to. -/
theorem collectDirective_eq_ok {isComponent : Bool} {k k' : PropCollector} :
    collectDirective o e isComponent k d c = .ok k' c' ↔
      ∃ piece, Encounter o e c (.bound d) piece c' ∧
        k' = piece.toList.foldl (·.addPiece isComponent) k := by
  unfold collectDirective
  by_cases hobject : d.name = "bind" ∧ d.arg = none
  · have hcond : (d.name == "bind" && d.arg.isNone) = true := by simp [hobject.1, hobject.2]
    rw [if_pos hcond]
    constructor
    · intro h
      cases hexp : d.exp with
      | none => simp [hexp, bind_eq_ok] at h
      | some raw =>
        simp only [hexp, bind_eq_ok, qualify_eq_ok, pure_run] at h
        obtain ⟨value, _, ⟨hvalue, rfl⟩, ⟨⟩⟩ := h
        exact ⟨_, .object hobject.1 hobject.2 hexp hvalue, rfl⟩
    · rintro ⟨piece, h, rfl⟩
      cases h with
      | object _ _ hexp hvalue =>
        simp only [hexp]
        exact bind_run (qualify_eq_ok.mpr ⟨hvalue, rfl⟩) _
      | silent hnot | entry hnot => exact absurd hobject hnot
  · have hcond : ¬(d.name == "bind" && d.arg.isNone) = true := by simpa using hobject
    rw [if_neg hcond, bind_eq_ok]
    constructor
    · rintro ⟨_ | raw, c₁, hrun, h⟩
      · obtain ⟨rfl, rfl⟩ := EStateM.Result.ok.inj h
        exact ⟨none, .silent hobject hrun, rfl⟩
      · dsimp only at h
        cases hstatic : raw.key.isStatic with
        | true =>
          simp only [hstatic, ite_true, pure_bind, bind_eq_ok, qualify_eq_ok, pure_run] at h
          obtain ⟨value, _, ⟨hvalue, rfl⟩, ⟨⟩⟩ := h
          exact ⟨_, .entry hobject hrun (if_pos hstatic) hvalue, rfl⟩
        | false =>
          simp only [hstatic, Bool.false_eq_true, ite_false, bind_eq_ok, qualify_eq_ok, pure_run]
            at h
          obtain ⟨key, _, ⟨hkey, rfl⟩, value, _, ⟨hvalue, rfl⟩, ⟨⟩⟩ := h
          exact ⟨_, .entry hobject hrun (by simpa [hstatic] using hkey) hvalue, rfl⟩
    · rintro ⟨piece, h, rfl⟩
      cases h with
      | object hname harg => exact absurd ⟨hname, harg⟩ hobject
      | silent _ hrun => exact ⟨none, c', hrun, rfl⟩
      | @entry _ raw key value _ _ hrun hraw hvalue =>
        refine ⟨some raw, c', hrun, ?_⟩
        dsimp only
        split at hraw
        · rename_i hstatic
          obtain rfl := Except.ok.inj hraw
          rw [if_pos hstatic, pure_bind, bind_run (qualify_eq_ok.mpr ⟨hvalue, rfl⟩)]
          rfl
        · rename_i hstatic
          rw [if_neg hstatic, bind_run (qualify_eq_ok.mpr ⟨hraw, rfl⟩),
            bind_run (qualify_eq_ok.mpr ⟨hvalue, rfl⟩)]
          rfl

theorem collectDirective_ok {isComponent : Bool} {k k' : PropCollector} (hc : c.session.Binds names)
    (hd : (Property.bound d).isReserved = false → .bound d ∈ props) (hk : CollectorFrom o names e props k)
    (h : collectDirective o e isComponent k d c = .ok k' c') : ∃ xs, OwnWork c xs c' ∧
      (∀ x ∈ xs, Contributes o names e c.ownId d x ∧ x.op.suits e.kind = true) ∧
      RegistersAll o names c.ownId [.bound d] xs ∧ CollectorFrom o names e props k' := by
  obtain ⟨piece, hpiece, rfl⟩ := collectDirective_eq_ok.mp h
  cases hpiece with
  | object hname harg hexp hvalue =>
    have hother : (Property.bound d).isReserved = false := by
      simp [Property.isReserved, Directive.staticArg?, harg]
    exact ⟨[], .none, by simp, registersAll_of_not_action (d.isAction_of_name .bind hname),
      hk.addSpread ⟨d, _, hd hother, hname, harg, hexp, processed_of_qualified hc hvalue⟩⟩
  | silent _ hrun =>
    cases applyDirective_ok hc hrun with
    | idle hd => exact ⟨[], .none, by simp, registersAll_of_not_action hd, hk⟩
    | contribution hx hsuits hwork =>
      exact ⟨[_], hwork, by simpa using ⟨hx, hsuits⟩, hx.registersAll, hk⟩
  | @entry _ raw key _ _ _ hrun hraw hvalue =>
    cases applyDirective_ok hc hrun with
    | entry hsupplies =>
      have hkey : Processed o names raw.key key := by
        split at hraw
        · rename_i hstatic
          obtain rfl := Except.ok.inj hraw
          exact .kept (.inl hstatic)
        · exact processed_of_qualified hc hraw
      exact ⟨[], .none, by simp, registersAll_of_not_action hsupplies.isAction,
        hk.addEntry _ ⟨_, hd (not_isReserved_of_applyDirective hrun), _, _, hsupplies, hkey,
          processed_of_qualified hc hvalue⟩⟩

/-- The contributions are made by directives among the properties of the element. -/
def ContributionsFrom (o : Options) (names : List String) (e : Element) (id : Nat)
    (props : List Property) (xs : List Contribution) : Prop :=
  ∀ x ∈ xs, ∃ d, .bound d ∈ props ∧ Contributes o names e id d x

/-- Building properties is work on the element itself. What it contributes and what it yields come
from the properties, with names qualified once; what it yields, from those that are not reserved. -/
theorem buildProps_ok {all : List Property} {isComponent : Bool} {result : PropResult}
    (hall : ∀ p ∈ all, p.isReserved = false → p ∈ props) (hc : c.session.Binds names)
    (h : buildProps o e all isComponent c = .ok result c') :
    ∃ xs, OwnWork c xs c' ∧ ContributionsFrom o names e c.ownId all xs ∧
      (∀ x ∈ xs, x.op.suits e.kind = true) ∧ ResultFrom o names e props result ∧
      RegistersAll o names c.ownId all xs := by
  have hfold : ∀ (ps : List Property) (k k' : PropCollector) (c : Context), ps ⊆ all →
      c.session.Binds names → CollectorFrom o names e props k →
      ps.foldlM (collectProperty o e isComponent) k c = .ok k' c' →
      ∃ xs, OwnWork c xs c' ∧ ContributionsFrom o names e c.ownId all xs ∧
        (∀ x ∈ xs, x.op.suits e.kind = true) ∧ CollectorFrom o names e props k' ∧
        RegistersAll o names c.ownId ps xs := by
    intro ps
    induction ps with
    | nil =>
      intro k k' c _ _ hk hrun
      obtain ⟨rfl, rfl⟩ := EStateM.Result.ok.inj hrun
      exact ⟨[], .none, by simp [ContributionsFrom], by simp, hk, .nil⟩
    | cons p ps ih =>
      intro k k' c hsub hc hk hrun
      rw [List.foldlM_cons, bind_eq_ok] at hrun
      obtain ⟨k₁, c₁, hp, hps⟩ := hrun
      have hmem : p ∈ all := hsub (by simp)
      have hrest : ps ⊆ all := fun q hq => hsub (by simp [hq])
      cases p with
      | fixed a =>
        obtain ⟨rfl, rfl⟩ := EStateM.Result.ok.inj hp
        exact ih _ _ _ hrest hc (hk.addAttribute (hall _ hmem)) hps
      | bound d =>
        obtain ⟨xs, hwork, hxs, hd, hk₁⟩ := collectDirective_ok hc (hall _ hmem) hk hp
        obtain ⟨ys, hwork', hys, hsuits, hk', hds⟩ := ih _ _ _ hrest (hwork.binds hc) hk₁ hps
        refine ⟨xs ++ ys, hwork.trans hwork', ?_, ?_, hk', hd.append (hwork.ownId ▸ hds)⟩
        · exact List.forall_mem_append.mpr
            ⟨fun x hx => ⟨d, hmem, (hxs x hx).1⟩, hwork.ownId ▸ hys⟩
        · exact List.forall_mem_append.mpr ⟨fun x hx => (hxs x hx).2, hsuits⟩
  rw [buildProps, bind_eq_ok] at h
  obtain ⟨k, c₁, hrun, h⟩ := h
  obtain ⟨rfl, rfl⟩ := EStateM.Result.ok.inj h
  obtain ⟨xs, hwork, hxs, hsuits, hk, hds⟩ :=
    hfold all {} k c (List.Subset.refl _) hc .empty hrun
  exact ⟨xs, hwork, hxs, hsuits, hk.result, hds⟩

end TemplateCompiler
