import Mathlib.Data.List.SplitBy
import TemplateCompiler.Proofs.Transform.Elements

/-! # Properties, split into groups

The properties of an element come to a list of pieces, in the order in which they are written. What
is put together from them depends on this list alone.
-/

namespace TemplateCompiler

open Template (Element)
open Transform

variable {entries : List PropEntry} {k k' : PropCollector} {p : PropPiece} {run : List PropPiece}

/-! ## Merging -/

namespace PropEntry

/-- Both entries have the same literal name. -/
def sameName (a b : PropEntry) : Bool :=
  a.key.isStatic && b.key.isStatic && a.key.content == b.key.content

/-- The property of an entry, with all values for its name if it takes several. -/
def gather (entries : List PropEntry) (e : PropEntry) : MergedProp :=
  { MergedProp.ofEntry e with
    values :=
      if e.key.isStatic && isMergeableProp e.key.content then
        (entries.filter e.sameName).map (·.value)
      else [e.value] }

/-- Of entries with the same literal name the first one counts. -/
def dedupe (entries : List PropEntry) : List MergedProp :=
  (entries.eraseDupsBy sameName).map (gather entries)

end PropEntry

open PropEntry

/-- A last entry counts if no other one before it has its name. -/
theorem eraseDupsBy_concat (entries : List PropEntry) (e : PropEntry) :
    (entries ++ [e]).eraseDupsBy sameName = entries.eraseDupsBy sameName ++
      if (entries.eraseDupsBy sameName).any (sameName e) then [] else [e] := by
  have hloop : ∀ (entries seen : List PropEntry),
      List.eraseDupsBy.loop sameName (entries ++ [e]) seen =
        List.eraseDupsBy.loop sameName entries seen ++
          if (List.eraseDupsBy.loop sameName entries seen).any (sameName e) then [] else [e] := by
    intro entries
    induction entries with
    | nil =>
      intro seen
      cases h : seen.any (sameName e) <;> simp [List.eraseDupsBy.loop, h]
    | cons a entries ih =>
      intro seen
      cases h : seen.any (sameName a) <;> simp only [List.cons_append, List.eraseDupsBy.loop, h, ih]
  exact hloop entries []

/-- An entry has the name of some entry if it has the name of one that counts. -/
theorem any_eraseDupsBy (entries : List PropEntry) (e : PropEntry) :
    (entries.eraseDupsBy sameName).any (sameName e) = entries.any (sameName e) := by
  induction entries using List.reverseRecOn with
  | nil => rfl
  | append_singleton entries a ih =>
    rw [eraseDupsBy_concat, List.any_append, List.any_append, ih]
    cases ha : (entries.eraseDupsBy sameName).any (sameName a) with
    | false => simp
    | true =>
      obtain ⟨b, hb, hab⟩ := List.any_eq_true.mp ha
      have hbe : sameName e a = true → entries.any (sameName e) = true := by
        intro hea
        refine ih ▸ List.any_eq_true.mpr ⟨b, hb, ?_⟩
        simp only [sameName, Bool.and_eq_true, beq_iff_eq] at hab hea ⊢
        exact ⟨⟨hea.1.1, hab.1.2⟩, hea.2.trans hab.2⟩
      cases hea : sameName e a with
      | false => simp [hea]
      | true => simp [hea, hbe hea]

/-- A later entry changes a property with its name only, and only if that takes several values. -/
theorem gather_concat (entries : List PropEntry) (a e : PropEntry) :
    gather (entries ++ [e]) a =
      if sameName a e && isMergeableProp e.key.content then
        { gather entries a with values := (gather entries a).values ++ [e.value] }
      else gather entries a := by
  unfold gather
  cases hsame : sameName a e with
  | false => simp [hsame]
  | true =>
    have hname : a.key.isStatic = true ∧ a.key.content = e.key.content := by
      simp only [sameName, Bool.and_eq_true, beq_iff_eq] at hsame
      exact ⟨hsame.1.1, hsame.2⟩
    cases hmerge : isMergeableProp e.key.content <;> simp [hsame, hname, hmerge]

theorem sameName_comm (a b : PropEntry) : sameName a b = sameName b a := by
  simp only [sameName, Bool.and_comm a.key.isStatic, Bool.beq_comm (a := a.key.content)]

theorem isNamed_gather {a e : PropEntry} (he : e.key.isStatic = true) :
    (gather entries a).isNamed e.key.content = sameName a e := by
  simp [MergedProp.isNamed, gather, MergedProp.ofEntry, sameName, he]

theorem gather_self {e : PropEntry} (h : entries.any (sameName e) = false) :
    gather (entries ++ [e]) e = MergedProp.ofEntry e := by
  have hnone : entries.filter (sameName e) = [] := by
    simpa [List.filter_eq_nil_iff] using h
  cases hstatic : e.key.isStatic with
  | false => simp [gather, hstatic, MergedProp.ofEntry]
  | true =>
    have hself : sameName e e = true := by simp [sameName, hstatic]
    cases hmerge : isMergeableProp e.key.content <;>
      simp [gather, hmerge, hnone, hself, MergedProp.ofEntry]

theorem mergeEntries_eq_dedupe (entries : List PropEntry) :
    mergeEntries entries = dedupe entries := by
  induction entries using List.reverseRecOn with
  | nil => rfl
  | append_singleton entries e ih =>
    have hfold : mergeEntries (entries ++ [e]) = addEntry (dedupe entries) e := by
      simp [mergeEntries_eq_foldl, ← ih]
    have hnamed : (e.key.isStatic && (dedupe entries).any (·.isNamed e.key.content)) =
        (entries.eraseDupsBy sameName).any (sameName e) := by
      cases hstatic : e.key.isStatic with
      | false => simp [sameName, hstatic]
      | true =>
        rw [Bool.true_and, dedupe, List.any_map]
        exact congrArg _ (funext fun a => (isNamed_gather hstatic).trans (sameName_comm a e))
    rw [hfold, addEntry, hnamed, dedupe, dedupe, eraseDupsBy_concat, List.map_append]
    cases hany : (entries.eraseDupsBy sameName).any (sameName e) with
    | false =>
      have hkept : ∀ a ∈ entries.eraseDupsBy sameName,
          gather (entries ++ [e]) a = gather entries a := by
        intro a ha
        have hne : sameName a e = false := by
          rw [sameName_comm]
          simpa using List.any_eq_false.mp hany a ha
        simp [gather_concat, hne]
      rw [any_eraseDupsBy] at hany
      simp [List.map_congr_left hkept, gather_self hany]
    | true =>
      obtain ⟨b, -, hb⟩ := List.any_eq_true.mp hany
      have hstatic : e.key.isStatic = true := by
        simp only [sameName, Bool.and_eq_true] at hb
        exact hb.1.1
      cases hmerge : isMergeableProp e.key.content <;>
        simp [gather_concat, hmerge, isNamed_gather hstatic]

/-! ## Pieces -/

namespace PropPiece

def named? : PropPiece → Option PropEntry
  | entry e _ => some e
  | spread _ => none

/-- The name is known. -/
def isFixed : PropPiece → Bool
  | entry e _ => e.key.isStatic
  | spread _ => false

/-- The piece is a group of its own. -/
def cuts (isComponent : Bool) : PropPiece → Bool
  | entry e _ => isComponent && !e.key.isStatic
  | spread _ => true

/-- What the properties depend on because of the piece. -/
def expressions : PropPiece → List Expression
  | entry e true => [e.key, e.value]
  | entry _ false => []
  | spread value => [value]

/-- The group that a run of pieces makes. -/
def group : List PropPiece → PropGroup
  | [spread value] => .spread value false
  | run => .entries (dedupe (run.filterMap named?))

/-- The groups of all longest runs without a piece that is a group of its own, and of those pieces,
from left to right. -/
def groups (isComponent : Bool) (pieces : List PropPiece) : List PropGroup :=
  (pieces.splitBy fun a b => !a.cuts isComponent && !b.cuts isComponent).map group

/-- No piece of the list is a group of its own. -/
def IsRun (isComponent : Bool) (run : List PropPiece) : Prop :=
  ∀ p ∈ run, p.cuts isComponent = false

theorem IsRun.exists_entry {isComponent : Bool} (h : IsRun isComponent run) (hp : p ∈ run) :
    ∃ e fromDirective, p = .entry e fromDirective := by
  cases p with
  | entry e fromDirective => exact ⟨e, fromDirective, rfl⟩
  | spread value => simpa [cuts] using h _ hp

theorem IsRun.groups_eq {isComponent : Bool} (h : IsRun isComponent run) :
    groups isComponent run = if run = [] then [] else [.entries (dedupe (run.filterMap named?))] := by
  split
  · rename_i hnil
    simp [groups, hnil]
  · rename_i hne
    have hchain : run.IsChain fun a b => (!a.cuts isComponent && !b.cuts isComponent) = true :=
      (List.pairwise_of_forall_mem_list fun a ha b hb => by simp [h a ha, h b hb]).isChain
    rw [groups, List.splitBy_of_isChain hne hchain, List.map_singleton]
    unfold group
    split
    · simpa [cuts] using h _ (List.mem_singleton_self _)
    · rfl

/-- A piece that is a group of its own ends the run before it. -/
theorem groups_append_cut {isComponent : Bool} (run : List PropPiece)
    (hp : p.cuts isComponent = true) (pieces : List PropPiece) :
    groups isComponent (run ++ p :: pieces) =
      groups isComponent run ++ group [p] :: groups isComponent pieces := by
  have hsingle : [p].splitBy (fun a b => !a.cuts isComponent && !b.cuts isComponent) = [[p]] :=
    List.splitBy_of_isChain (by simp) (by simp)
  have hcons : p :: pieces = [p] ++ pieces := rfl
  rw [groups, List.splitBy_append_cons pieces (by simp [hp]), hcons,
    List.splitBy_append (by simp [hp]), hsingle]
  simp [groups]

end PropPiece

open PropPiece (IsRun named? isFixed)

def PropResult.ofPieces (isComponent : Bool) (pieces : List PropPiece) : PropResult :=
  if pieces.all isFixed then .fixed (dedupe (pieces.filterMap named?))
  else .dynamic (PropPiece.groups isComponent pieces) (pieces.flatMap PropPiece.expressions)

/-- The pieces of all properties in turn. -/
inductive Encounters (o : Options) (e : Element) :
    Context → List Property → List PropPiece → Context → Prop
  | nil (c : Context) : Encounters o e c [] [] c
  | cons {c c₁ c' : Context} {p : Property} {ps : List Property} {piece : Option PropPiece}
      {pieces : List PropPiece} :
      Encounter o e c p piece c₁ → Encounters o e c₁ ps pieces c' →
      Encounters o e c (p :: ps) (piece.toList ++ pieces) c'

/-! ## Collecting -/

namespace PropCollector

variable {isComponent : Bool}

theorem expressions_flush (k : PropCollector) : k.flush.expressions = k.expressions := by
  unfold flush
  split <;> rfl

theorem pending_flush (k : PropCollector) : k.flush.pending = [] := by
  unfold flush
  split
  · rename_i h
    simpa using h
  · rfl

theorem expressions_foldl (pieces : List PropPiece) (k : PropCollector) :
    (pieces.foldl (addPiece isComponent) k).expressions =
      k.expressions ++ pieces.flatMap PropPiece.expressions := by
  induction pieces generalizing k with
  | nil => simp
  | cons p pieces ih =>
    have hstep : (k.addPiece isComponent p).expressions = k.expressions ++ p.expressions := by
      cases p with
      | spread value => simp [addPiece, addSpread, PropPiece.expressions, expressions_flush]
      | entry e fromDirective =>
        cases fromDirective with
        | false => simp [addPiece, PropPiece.expressions]
        | true =>
          simp only [addPiece, addEntry, PropPiece.expressions]
          split <;> simp [expressions_flush]
    simp [ih, hstep]

/-- A name that is not known makes the properties dynamic, and so does any complete group. -/
def isDynamic (k : PropCollector) : Bool := !k.groups.isEmpty || k.pending.any (!·.key.isStatic)

theorem isDynamic_foldl (pieces : List PropPiece) (k : PropCollector) :
    (pieces.foldl (addPiece isComponent) k).isDynamic = (k.isDynamic || !pieces.all isFixed) := by
  induction pieces generalizing k with
  | nil => simp
  | cons p pieces ih =>
    have hstep : (k.addPiece isComponent p).isDynamic = (k.isDynamic || !p.isFixed) := by
      have hadd : ∀ e, (k.addEntry isComponent e).isDynamic =
          (k.isDynamic || !e.key.isStatic) := by
        intro e
        unfold addEntry
        dsimp only
        split
        · rename_i h
          have hkey : e.key.isStatic = false := by simpa using (Bool.and_eq_true_iff.mp h).2
          simp [isDynamic, hkey]
        · simp [isDynamic, Bool.or_assoc]
      cases p with
      | spread value => simp [addPiece, addSpread, isDynamic, isFixed]
      | entry e fromDirective => cases fromDirective <;> exact hadd e
    simp [ih, hstep, Bool.or_assoc]

/-- The pending entries are those of the run before the pieces still to come. -/
theorem groups_flush (hrun : IsRun isComponent run) (hpending : k.pending = run.filterMap named?) :
    k.flush.groups = k.groups ++ PropPiece.groups isComponent run := by
  rw [hrun.groups_eq, flush, hpending, mergeEntries_eq_dedupe]
  cases run with
  | nil => simp
  | cons p run =>
    obtain ⟨e, fromDirective, rfl⟩ := hrun.exists_entry (List.mem_cons_self ..)
    simp [named?]

theorem addPiece_pending (hp : p.cuts isComponent = false) (k : PropCollector) :
    (k.addPiece isComponent p).pending = k.pending ++ p.named?.toList ∧
      (k.addPiece isComponent p).groups = k.groups := by
  cases p with
  | spread value => simp [PropPiece.cuts] at hp
  | entry e fromDirective =>
    have hkeep : (isComponent && !e.key.isStatic) = false := hp
    cases fromDirective <;> simp [addPiece, addEntry, hkeep, named?]

theorem addPiece_cut (hp : p.cuts isComponent = true) (k : PropCollector) :
    (k.addPiece isComponent p).pending = [] ∧
      (k.addPiece isComponent p).groups = k.flush.groups ++ [PropPiece.group [p]] := by
  cases p with
  | spread value => exact ⟨k.pending_flush, rfl⟩
  | entry e fromDirective =>
    have hcut : (isComponent && !e.key.isStatic) = true := hp
    have hgroup : PropPiece.group [.entry e fromDirective] =
        .entries [MergedProp.ofEntry e] := by
      simp [PropPiece.group, named?, ← mergeEntries_eq_dedupe, mergeEntries_eq_foldl,
        TemplateCompiler.addEntry]
    have hflush : ∀ es, ({ k with expressions := es } : PropCollector).flush.groups =
        k.flush.groups := by
      intro es
      unfold flush
      dsimp only
      split <;> rfl
    have hadd : (k.addEntry isComponent e).pending = [] ∧
        (k.addEntry isComponent e).groups =
          k.flush.groups ++ [.entries [MergedProp.ofEntry e]] := by
      rw [addEntry, if_pos hcut]
      exact ⟨pending_flush _, congrArg (· ++ _) (hflush _)⟩
    rw [hgroup]
    cases fromDirective <;> exact hadd

theorem groups_foldl (pieces : List PropPiece) (hrun : IsRun isComponent run)
    (hpending : k.pending = run.filterMap named?) :
    (pieces.foldl (addPiece isComponent) k).flush.groups =
      k.groups ++ PropPiece.groups isComponent (run ++ pieces) := by
  induction pieces generalizing run k with
  | nil => simpa using groups_flush hrun hpending
  | cons p pieces ih =>
    rw [List.foldl_cons]
    cases hp : p.cuts isComponent with
    | true =>
      obtain ⟨hnone, hgroups⟩ := addPiece_cut hp k
      have hnew : IsRun isComponent [] := by simp [IsRun]
      rw [ih hnew hnone, hgroups, groups_flush hrun hpending,
        PropPiece.groups_append_cut run hp]
      simp
    | false =>
      obtain ⟨hmore, hgroups⟩ := addPiece_pending hp k
      have hrun' : IsRun isComponent (run ++ [p]) := by
        simpa [IsRun, or_imp, forall_and] using ⟨hrun, hp⟩
      rw [ih hrun' (by simp [hmore, hpending, List.filterMap_cons]; cases p.named? <;> rfl), hgroups]
      simp

theorem pending_foldl {pieces : List PropPiece} (h : pieces.all isFixed = true)
    (k : PropCollector) :
    (pieces.foldl (addPiece isComponent) k).pending = k.pending ++ pieces.filterMap named? := by
  induction pieces generalizing k with
  | nil => simp
  | cons p pieces ih =>
    rw [List.all_cons, Bool.and_eq_true] at h
    cases p with
    | spread value => simp [isFixed] at h
    | entry e fromDirective =>
      have hkeep : PropPiece.cuts isComponent (.entry e fromDirective) = false := by
        have hkey : e.key.isStatic = true := h.1
        simp [PropPiece.cuts, hkey]
      simp [ih h.2, (addPiece_pending hkeep k).1, named?]

theorem result_foldl (pieces : List PropPiece) :
    (pieces.foldl (addPiece isComponent) {}).result = .ofPieces isComponent pieces := by
  rw [result, PropResult.ofPieces]
  change (if (pieces.foldl (addPiece isComponent) {}).isDynamic then _ else _) = _
  rw [isDynamic_foldl]
  cases hfixed : pieces.all isFixed with
  | false =>
    have hnew : IsRun isComponent [] := by simp [IsRun]
    simp [isDynamic, expressions_flush, expressions_foldl, groups_foldl pieces (k := {}) hnew rfl]
  | true =>
    simp [isDynamic, pending_foldl hfixed, mergeEntries_eq_dedupe]

end PropCollector

/-! ## Running over the properties -/

section Running

variable {o : Options} {e : Element} {isComponent : Bool} {c c' : Context}

theorem addAttribute_eq (isComponent : Bool) (k : PropCollector) (a : StaticAttribute)
    (h : isReservedProp a.name = false) :
    k.addAttribute a = k.addPiece isComponent (.entry
      { key := .static a.name (a.location.withSource a.name)
        value := .static a.value (a.location.withSource a.value) } false) := by
  simp [PropCollector.addAttribute, PropCollector.addPiece, PropCollector.addEntry, h,
    Expression.static]

/-- A step over one property adds the piece that it comes to. -/
theorem collectProperty_eq_ok {p : Property} : collectProperty o e isComponent k p c = .ok k' c' ↔
      ∃ piece, Encounter o e c p piece c' ∧
        k' = piece.toList.foldl (·.addPiece isComponent) k := by
  cases p with
  | bound d => exact collectDirective_eq_ok
  | fixed a =>
    simp only [collectProperty, pure_run, EStateM.Result.ok.injEq]
    cases hreserved : isReservedProp a.name with
    | true =>
      have hnone : k.addAttribute a = k := by simp [PropCollector.addAttribute, hreserved]
      rw [hnone]
      constructor
      · rintro ⟨rfl, rfl⟩
        exact ⟨none, .reserved hreserved, rfl⟩
      · rintro ⟨piece, h, rfl⟩
        cases h with
        | reserved => exact ⟨rfl, rfl⟩
        | plain hother => simp [hreserved] at hother
    | false =>
      rw [addAttribute_eq isComponent k a hreserved]
      constructor
      · rintro ⟨rfl, rfl⟩
        exact ⟨_, .plain hreserved, rfl⟩
      · rintro ⟨piece, h, rfl⟩
        cases h with
        | reserved hother => simp [hreserved] at hother
        | plain => exact ⟨rfl, rfl⟩

theorem foldlM_collectProperty_eq_ok {ps : List Property} :
    ps.foldlM (collectProperty o e isComponent) k c = .ok k' c' ↔
      ∃ pieces, Encounters o e c ps pieces c' ∧
        k' = pieces.foldl (·.addPiece isComponent) k := by
  constructor
  · intro h
    induction ps generalizing c k with
    | nil =>
      obtain ⟨rfl, rfl⟩ := EStateM.Result.ok.inj h
      exact ⟨[], .nil c, rfl⟩
    | cons p ps ih =>
      rw [List.foldlM_cons, bind_eq_ok] at h
      obtain ⟨k₁, c₁, hp, hps⟩ := h
      obtain ⟨piece, hpiece, rfl⟩ := collectProperty_eq_ok.mp hp
      obtain ⟨pieces, hpieces, rfl⟩ := ih hps
      exact ⟨_, .cons hpiece hpieces, by rw [List.foldl_append]⟩
  · rintro ⟨pieces, h, rfl⟩
    induction h generalizing k with
    | nil c => rfl
    | cons hpiece _ ih =>
      rw [List.foldlM_cons, List.foldl_append,
        bind_run (collectProperty_eq_ok.mpr ⟨_, hpiece, rfl⟩)]
      exact ih

theorem buildProps_eq_ok {props : List Property} {result : PropResult} :
    buildProps o e props isComponent c = .ok result c' ↔
      ∃ pieces, Encounters o e c props pieces c' ∧ result = .ofPieces isComponent pieces := by
  simp only [buildProps, bind_eq_ok, foldlM_collectProperty_eq_ok, pure_run,
    EStateM.Result.ok.injEq]
  constructor
  · rintro ⟨_, _, ⟨pieces, h, rfl⟩, rfl, rfl⟩
    exact ⟨pieces, h, PropCollector.result_foldl pieces⟩
  · rintro ⟨pieces, h, rfl⟩
    exact ⟨_, _, ⟨pieces, h, rfl⟩, PropCollector.result_foldl pieces, rfl⟩

end Running

/-! ## Placing -/

/-- The context of an element with these properties, once its markup has found its place. -/
def Context.finished (c : Context) (o : Options) (e : Element) (r : PropResult) : Context :=
  let k := c.receive (r.settings c.ownId)
  (k.closed e).place e (openingTag o e r.tagText ++ k.content e)

theorem finishNative_eq_ok {o : Options} {e : Element} {props : List Property} {c c' : Context} :
    finishNative o e props c = .ok () c' ↔
      ∃ pieces k, Encounters o e c props pieces k ∧
        c' = k.finished o e (.ofPieces false pieces) := by
  have hplaced : ∀ (r : PropResult) (k : Context), (placeProps r >>= fun attributes =>
      contentMarkup e >>= fun content => placeMarkup e
        ("<" ++ e.name ++ (o.scopeId.map (" " ++ ·)).getD "" ++ attributes ++ ">" ++ content) :
      Transform Unit) k = .ok () (k.finished o e r) := by
    intro r k
    rw [bind_run (placeProps_run r k), bind_run contentMarkup_run, placeMarkup_run]
    rfl
  simp only [finishNative]
  constructor
  · intro h
    obtain ⟨r, k, hbuild, h⟩ := bind_eq_ok.mp h
    obtain ⟨pieces, hpieces, rfl⟩ := buildProps_eq_ok.mp hbuild
    obtain ⟨-, rfl⟩ := EStateM.Result.ok.inj ((hplaced _ k).symm.trans h)
    exact ⟨pieces, k, hpieces, rfl⟩
  · rintro ⟨pieces, k, hpieces, rfl⟩
    rw [bind_run (buildProps_eq_ok.mpr ⟨pieces, hpieces, rfl⟩)]
    exact hplaced _ k

/-! ## The split -/

theorem dedupe_ne_nil (h : entries ≠ []) : dedupe entries ≠ [] := by
  cases entries with
  | nil => exact absurd rfl h
  | cons e entries => simp [dedupe, List.eraseDupsBy_cons]

/-- The pieces of a group that are not a group of their own are entries. -/
theorem entries_nil_not_mem_groups (isComponent : Bool) (pieces : List PropPiece) :
    .entries [] ∉ PropPiece.groups isComponent pieces := by
  intro h
  obtain ⟨run, hrun, hgroup⟩ := List.mem_map.mp h
  cases run with
  | nil => exact List.nil_notMem_splitBy _ _ hrun
  | cons p run =>
    unfold PropPiece.group at hgroup
    split at hgroup
    · cases hgroup
    · rename_i hother
      have hnone : (p :: run).filterMap named? = [] := by
        by_contra hne
        exact dedupe_ne_nil hne (PropGroup.entries.inj hgroup)
      have hspread : ∀ q ∈ p :: run, q.cuts isComponent = true := by
        intro q hq
        have hq' := List.filterMap_eq_nil_iff.mp hnone q hq
        cases q with
        | entry e fromDirective => cases hq'
        | spread value => rfl
      cases run with
      | nil =>
        cases p with
        | entry e fromDirective => simp [named?] at hnone
        | spread value => exact hother value rfl
      | cons q run =>
        have hchain := List.isChain_of_mem_splitBy hrun
        simp [hspread p (by simp)] at hchain

/-- Properties are built from the pieces in their order. They are fixed if all names are known;
otherwise the pieces are split into groups, none of them empty. A native element writes fixed
properties into its opening tag and sets the others. -/
theorem buildProps_split (o : Options) (e : Element) (props : List Property) (c c' : Context) :
    (∀ isComponent result, buildProps o e props isComponent c = .ok result c' ↔
      ∃ pieces, Encounters o e c props pieces c' ∧ result = .ofPieces isComponent pieces) ∧
    (∀ isComponent pieces, .entries [] ∉ PropPiece.groups isComponent pieces) ∧
    (finishNative o e props c = .ok () c' ↔
      ∃ pieces k, Encounters o e c props pieces k ∧
        c' = k.finished o e (.ofPieces false pieces)) :=
  ⟨fun _ _ => buildProps_eq_ok, entries_nil_not_mem_groups, finishNative_eq_ok⟩

end TemplateCompiler
