import TemplateCompiler.Proofs.Ids.Named
import TemplateCompiler.Proofs.Names.Sources

/-! # What a block consists of

A block returns the ids of the children of its fragment: of all but those that are left out and
those that an interpolation before them takes over.
-/

namespace TemplateCompiler

open Template (Element Fragment Node)
open Transform

variable {depth x : Nat} {f : Frame} {n : Node}

/-! ## Children that stand on their own -/

def Template.Node.isComment : Node → Bool
  | .comment _ _ => true
  | _ => false

/-- The node is left out of what is compiled. -/
def Options.drops (o : Options) (n : Node) : Bool := !o.comments && n.isComment

/-- An interpolation at position `j`, from which on nodes are text-like up to position `m`. -/
def Joins (ns : List Node) (j m : Nat) : Prop :=
  (∃ n, ns[j]? = some n ∧ n.isInterpolation = true) ∧
    ∀ l n, j ≤ l → l ≤ m → ns[l]? = some n → n.isTextLike = true

/-- An interpolation before position `i` takes over the node there. -/
def isTakenOver (ns : List Node) (i : Nat) : Bool :=
  (List.range i).any fun j =>
    ns[j]?.any (·.isInterpolation) && ((ns.drop j).take (i + 1 - j)).all (·.isTextLike)

/-- The node at position `i` becomes a node of its own at run time. -/
def standsAlone (o : Options) (ns : List Node) (i : Nat) : Bool :=
  ns[i]?.any (!o.drops ·) && !isTakenOver ns i

variable {o : Options} {ns : List Node} {i : Nat}

theorem isTakenOver_iff : isTakenOver ns i = true ↔ ∃ j < i, Joins ns j i := by
  have hrun : ∀ j, j ≤ i → (((ns.drop j).take (i + 1 - j)).all (·.isTextLike) = true ↔
      ∀ l n, j ≤ l → l ≤ i → ns[l]? = some n → n.isTextLike = true) := by
    intro j hj
    rw [List.all_eq_true]
    constructor
    · intro h l n hjl hli hn
      refine h n (List.mem_iff_getElem?.mpr ⟨l - j, ?_⟩)
      rw [List.getElem?_take_of_lt (by omega), List.getElem?_drop, Nat.add_sub_cancel' hjl, hn]
    · intro h n hn
      obtain ⟨l, hl⟩ := List.mem_iff_getElem?.mp hn
      have hlt : l < i + 1 - j := by
        by_contra hge
        rw [List.getElem?_take_eq_none (by omega)] at hl
        cases hl
      rw [List.getElem?_take_of_lt hlt, List.getElem?_drop] at hl
      exact h (j + l) n (by omega) (by omega) hl
  simp only [isTakenOver, List.any_eq_true, List.mem_range, Bool.and_eq_true, Option.any_eq_true,
    Joins]
  constructor
  · rintro ⟨j, hj, hn, hall⟩
    exact ⟨j, hj, hn, (hrun j (Nat.le_of_lt hj)).mp hall⟩
  · rintro ⟨j, hj, hn, hall⟩
    exact ⟨j, hj, hn, (hrun j (Nat.le_of_lt hj)).mpr hall⟩

/-- The frame marks those nodes from position `i` on that one before takes over. -/
def Frame.MarksTaken (f : Frame) (i : Nat) : Prop :=
  ∀ m, i ≤ m → m < f.children.length → (m < f.consumedUntil ↔ ∃ j < i, Joins f.children j m)

theorem Frame.marksTaken_zero (h : f.consumedUntil = 0) : f.MarksTaken 0 := by
  intro m _ _
  simp [h]

theorem Frame.MarksTaken.lt_iff (h : f.MarksTaken i) (hi : i < f.children.length) :
    i < f.consumedUntil ↔ isTakenOver f.children i = true := by
  rw [h i (Nat.le_refl i) hi, isTakenOver_iff]

theorem isAbsorbed_child {c : Context} (h : f.MarksTaken i) (hn : f.children[i]? = some n) :
    (c.child n i f).isAbsorbed = isTakenOver f.children i := by
  rw [Bool.eq_iff_iff, ← h.lt_iff (List.getElem?_eq_some_iff.mp hn).1]
  exact decide_eq_true_iff

theorem Joins.of_le {j m m' : Nat} (h : Joins ns j m) (hm : m' ≤ m) : Joins ns j m' :=
  ⟨h.1, fun l n hjl hlm hn => h.2 l n hjl (by omega) hn⟩

theorem Frame.MarksTaken.next_of_taken (h : f.MarksTaken i) (hi : i < f.consumedUntil)
    (hlt : i < f.children.length) : f.MarksTaken (i + 1) := by
  obtain ⟨j₀, hj₀, hn₀, hrun₀⟩ := (h i (Nat.le_refl i) hlt).mp hi
  intro m hm hlength
  rw [h m (by omega) hlength]
  constructor
  · rintro ⟨j, hj, hjoins⟩
    exact ⟨j, by omega, hjoins⟩
  · rintro ⟨j, hj, hjoins⟩
    rcases Nat.lt_or_ge j i with hji | hji
    · exact ⟨j, hji, hjoins⟩
    · obtain rfl : j = i := by omega
      refine ⟨j₀, hj₀, hn₀, fun l n hl hlm hn => ?_⟩
      rcases Nat.lt_or_ge l j with hlj | hlj
      · exact hrun₀ l n hl (by omega) hn
      · exact hjoins.2 l n hlj hlm hn

/-- No node before one that is not taken over takes over those after it. -/
theorem Frame.MarksTaken.not_joins {j m : Nat} (h : f.MarksTaken i) (hi : ¬i < f.consumedUntil)
    (hlt : i < f.children.length) (hji : j < i) (him : i ≤ m) :
    ¬Joins f.children j m := fun hjoins =>
  hi ((h i (Nat.le_refl i) hlt).mpr ⟨j, hji, hjoins.of_le him⟩)

theorem Frame.MarksTaken.next_of_other (h : f.MarksTaken i) (hi : ¬i < f.consumedUntil)
    (hn : f.children[i]? = some n) (hother : n.isInterpolation = false) : f.MarksTaken (i + 1) := by
  have hlt : i < f.children.length := (List.getElem?_eq_some_iff.mp hn).1
  intro m hm hlength
  refine ⟨fun hlt => by omega, ?_⟩
  rintro ⟨j, hj, hjoins⟩
  rcases Nat.lt_or_ge j i with hji | hji
  · exact absurd hjoins (h.not_joins hi hlt hji (by omega))
  · obtain rfl : j = i := by omega
    obtain ⟨n', hn', hinterpolation⟩ := hjoins.1
    obtain rfl : n = n' := Option.some.inj (hn.symm.trans hn')
    simp [hother] at hinterpolation

theorem lt_length_takeWhile_iff {p : Node → Bool} {l : Nat} (hl : l < ns.length) :
    l < (ns.takeWhile p).length ↔ ∀ m n, m ≤ l → ns[m]? = some n → p n = true := by
  induction ns generalizing l with
  | nil => simp at hl
  | cons n ns ih =>
    by_cases hp : p n = true
    · rw [List.takeWhile_cons_of_pos hp, List.length_cons]
      cases l with
      | zero =>
        refine ⟨fun _ m n' hm hn' => ?_, fun _ => Nat.succ_pos _⟩
        obtain rfl : m = 0 := by omega
        obtain rfl : n = n' := by simpa using hn'
        exact hp
      | succ l =>
        rw [Nat.add_lt_add_iff_right, ih (by simpa using hl)]
        constructor
        · intro h m n' hm hn'
          cases m with
          | zero =>
            obtain rfl : n = n' := by simpa using hn'
            exact hp
          | succ m => exact h m n' (by omega) (by simpa using hn')
        · intro h m n' hm hn'
          exact h (m + 1) n' (by omega) (by simpa using hn')
    · rw [List.takeWhile_cons_of_neg hp]
      constructor
      · simp
      · intro h
        exact absurd (h 0 n (by omega) rfl) hp

/-- An interpolation that is not taken over takes over the text-like nodes after it. -/
theorem Frame.MarksTaken.next_of_interpolation (h : f.MarksTaken i) (hi : ¬i < f.consumedUntil)
    (hn : f.children[i]? = some n) (hinter : n.isInterpolation = true) :
    (f.consumeUntil (i + ((f.children.drop i).takeWhile (·.isTextLike)).length)).MarksTaken
      (i + 1) := by
  have hlt : i < f.children.length := (List.getElem?_eq_some_iff.mp hn).1
  intro m hm hlength
  change m < max f.consumedUntil (i + _) ↔ ∃ j < i + 1, Joins f.children j m
  have hlength' : m - i < (f.children.drop i).length := by
    rw [List.length_drop]
    exact Nat.sub_lt_sub_right (by omega) hlength
  have hrun := lt_length_takeWhile_iff (p := fun n => n.isTextLike) hlength'
  constructor
  · intro hmax
    refine ⟨i, by omega, ⟨n, hn, hinter⟩, fun l n' hil hlm hn' => ?_⟩
    refine hrun.mp (by omega) (l - i) n' (by omega) ?_
    rw [List.getElem?_drop, Nat.add_sub_cancel' hil, hn']
  · rintro ⟨j, hj, hjoins⟩
    rcases Nat.lt_or_ge j i with hji | hji
    · exact absurd hjoins (h.not_joins hi hlt hji (by omega))
    · obtain rfl : j = i := by omega
      have hlt' := hrun.mpr fun m' n' hm' hn' => by
        rw [List.getElem?_drop] at hn'
        exact hjoins.2 (j + m') n' (by omega) (by omega) hn'
      omega

/-! ## One child -/

section Child

variable {names : List String} {visit : Transform Unit} {c k : Context}

/-- A visit of a child marks which of the nodes after it are taken over. -/
theorem Visits.marksTaken (hc : c.Fresh) (hparent : c.parent = some f)
    (hmarks : f.MarksTaken c.index) (h : Visits o names visit c k) :
    ∃ f', k.parent = some f' ∧ f'.children = f.children ∧ f'.MarksTaken (c.index + 1) := by
  obtain ⟨ns, hcovers⟩ := hc.frame f hparent
  have hn : f.children[c.index]? = some c.node := by
    rw [← List.head?_drop, hcovers.rest, List.head?_cons]
  have habsorbed : c.isAbsorbed = decide (c.index < f.consumedUntil) := by
    rw [Context.isAbsorbed, hparent, Option.any_some]
  have hother : c.node.isInterpolation = false → k.parent = c.parent →
      ∃ f', k.parent = some f' ∧ f'.children = f.children ∧ f'.MarksTaken (c.index + 1) := by
    intro hinter hsame
    refine ⟨f, hsame.trans hparent, rfl, ?_⟩
    by_cases hlt : c.index < f.consumedUntil
    · exact hmarks.next_of_taken hlt (List.getElem?_eq_some_iff.mp hn).1
    · exact hmarks.next_of_other hlt hn hinter
  cases h.proceeds with
  | absorbed htaken =>
    refine ⟨f, hparent, rfl, hmarks.next_of_taken ?_ (List.getElem?_eq_some_iff.mp hn).1⟩
    exact of_decide_eq_true (habsorbed.symm.trans htaken)
  | text hnode | comment hnode | dropped hnode =>
    exact hother (by simp [hnode, Node.isInterpolation]) rfl
  | created hcreates =>
    rcases hcreates.parent with ⟨hinter, hsame⟩ | ⟨frame, hinter, hframe, hfree, hend⟩
    · exact hother hinter hsame
    · obtain rfl : frame = f := Option.some.inj (hframe.symm.trans hparent)
      refine ⟨_, hend, rfl, hmarks.next_of_interpolation ?_ hn hinter⟩
      exact of_decide_eq_false (habsorbed.symm.trans hfree)
  | native hbuilds =>
    refine hother (by simp [hbuilds.node, Node.isInterpolation]) ?_
    rw [Context.place_parent, Context.closed_parent, hbuilds.unplaced.parent]
  | fragment hnode hwalk =>
    exact hother (by simp [hnode, Node.isInterpolation]) hwalk.samePlace.parent

/-- What a visit says of whether its node is part of what the parent shows. -/
structure Settles (o : Options) (c k : Context) : Prop where
  removed : k.removed = o.drops c.node
  left : k.removed = true → k.dynamic.flags.insert = false
  shown : k.removed = false →
    (!k.dynamic.flags.nonTemplate || k.dynamic.flags.insert) = !c.isAbsorbed
  /-- A node that shows up has markup or is created. -/
  origin : k.removed = false → c.isAbsorbed = false → c.node.isEmptyText = false →
    k.template ≠ "" ∨ k.dynamic.flags.insert = true
  /-- Only fragments return nodes. -/
  returns : k.block.returns = c.block.returns

theorem Block.returns_foldl_add (xs : List Contribution) (b : Block) :
    (xs.foldl add b).returns = b.returns := by
  induction xs generalizing b with
  | nil => rfl
  | cons x xs ih => exact (ih (b.add x)).trans (b.returns_add x)

theorem VisitsChildren.returns_eq {frame : Frame} {ms : List Node}
    (hvisit : Ensures visit fun c c' =>
      (∀ n ∈ c.node.nodes, n.isFragment = false) → Settles o c c')
    (h : VisitsChildren visit false frame i ms c k)
    (hms : ∀ n ∈ ms.flatMap Node.nodes, n.isFragment = false) :
    k.block.returns = c.block.returns := by
  induction h with
  | nil => rfl
  | @cons _ _ i n ms c k c' hframe hrun _ _ ih =>
    rw [List.flatMap_cons, List.forall_mem_append] at hms
    have hchild := (hvisit _ _ (hframe.child_fresh c) hrun hms.1).returns
    have hsettled : (k.settled false).block = k.block := by
      unfold Context.settled
      split <;> rfl
    refine (ih hms.2).trans ?_
    change (k.settled false).block.returns = _
    rw [hsettled, hchild]
    rfl

theorem Settles.of_inserted (hdrops : o.drops c.node = false) (hremoved : k.removed = false)
    (hinsert : k.dynamic.flags.insert = true) (habsorbed : c.isAbsorbed = false)
    (hreturns : k.block.returns = c.block.returns) : Settles o c k where
  removed := hremoved.trans hdrops.symm
  left := by simp [hremoved]
  shown := by simp [hinsert, habsorbed]
  origin := fun _ _ _ => .inr hinsert
  returns := hreturns

theorem Creates.settles {id : Nat} {xs : List Contribution} {op : Operation} (hc : c.Fresh)
    (h : Creates o names visit c id xs op k) : Settles o c k := by
  have hdrops : o.drops c.node = false := by
    have hcreated := h.isCreated
    cases hn : c.node <;> simp [hn, Options.drops, Node.isComment, Node.isCreated] at hcreated ⊢
  refine .of_inserted hdrops (h.removed.trans hc.removed) (by rw [h.dynamic]) (h.isAbsorbed_eq hc) ?_
  rw [h.block, Block.returns_add, Block.returns_foldl_add]

theorem Settles.of_markup (hdrops : o.drops c.node = false) (hremoved : k.removed = false)
    (hnon : k.dynamic.flags.nonTemplate = false) (habsorbed : c.isAbsorbed = false)
    (htemplate : c.node.isEmptyText = false → k.template ≠ "")
    (hreturns : k.block.returns = c.block.returns) : Settles o c k where
  removed := hremoved.trans hdrops.symm
  left := by simp [hremoved]
  shown := by simp [hnon, habsorbed]
  origin := fun _ _ htext => .inl (htemplate htext)
  returns := hreturns

section

variable
  (hvisit : Ensures visit fun c c' => (∀ n ∈ c.node.nodes, n.isFragment = false) → Settles o c c')
  (hc : c.Fresh)

include hvisit hc

theorem settles_native {e : Element} {c₁ c₂ k : Context} {xs : List Contribution}
    {props : List Property} {attributes : String} (h : Builds o names visit e props xs c c₁ c₂ k)
    (hnodes : ∀ n ∈ c.node.nodes, n.isFragment = false) :
    Settles o c ((k.closed e).place e (openingTag o e attributes ++ k.content e)) := by
  have hdrops : o.drops c.node = false := by simp [h.node, Options.drops, Node.isComment]
  have habsorbed : c.isAbsorbed = false := hc.isAbsorbed_eq (by simp [h.node, Node.isAbsorbable])
  have hremoved : k.removed = false := h.unplaced.removed.trans hc.removed
  have hreturns : ((k.closed e).place e (openingTag o e attributes ++ k.content e)).block.returns =
      c.block.returns := by
    obtain ⟨ops, anchors, hinserted, -, -⟩ := c₂.insertAll_names
    obtain ⟨ys, hys, -⟩ := h.container.block_eq
    have hops : (ops.foldl Block.register c₂.block).returns = c₂.block.returns := by
      rw [show Block.register = fun b op => b.add (.once op) from rfl, ← List.foldl_map,
        Block.returns_foldl_add]
    have hchildren : ∀ n ∈ e.children.flatMap Node.nodes, n.isFragment = false := by
      intro n hmem
      refine hnodes n (List.mem_cons_of_mem _ ?_)
      rw [h.node, Node.inside, e.nodes_eq]
      exact hmem
    rw [k.place_block, h.work.block_eq, Block.returns_foldl_add, hinserted, hops,
      h.walk.returns_eq hvisit hchildren, hys, Block.returns_foldl_add]
  cases hmisplaced : (k.closed e).isMisplaced e with
  | true =>
    refine .of_inserted hdrops ?_ ?_ habsorbed hreturns
    · simp [Context.place, hmisplaced, Context.flag, Context.referenced, hremoved]
    · simp [Context.place, hmisplaced, Context.flag, Flags.union, Flags.inserted]
  | false =>
    refine .of_markup hdrops ?_ ?_ habsorbed (fun _ => ?_) hreturns
    · simp [Context.place, hmisplaced, Context.write, hremoved]
    · simp [Context.place, hmisplaced, Context.write, h.unplaced.nonTemplate, hc.nonTemplate]
    · simp [Context.place, hmisplaced, Context.write, openingTag, ← String.toList_eq_nil_iff]

/-- What a visit of a node without fragments says of it, if the visits inside do. -/
theorem Visits.settles (hnodes : ∀ n ∈ c.node.nodes, n.isFragment = false)
    (h : Visits o names visit c k) : Settles o c k := by
  have hother : c.node.isAbsorbable = false → c.isAbsorbed = false := hc.isAbsorbed_eq
  cases h.proceeds with
  | absorbed habsorbed hn =>
    refine ⟨?_, fun _ => ?_, fun _ => ?_, by simp [habsorbed], rfl⟩
    · have hcomment : c.node.isComment = false := by
        cases hnode : c.node <;> simp_all [Node.isAbsorbable, Node.isComment]
      exact hc.removed.trans (by simp [Options.drops, hcomment])
    · simp [Context.flag, Flags.union, hc.insert]
    · simp [Context.flag, Flags.union, hc.insert, habsorbed]
  | @text t hn habsorbed =>
    refine .of_markup (by simp [hn, Options.drops, Node.isComment]) hc.removed hc.nonTemplate
      habsorbed (fun htext => ?_) rfl
    change c.template ++ Text.escapeText t.data ≠ ""
    rw [hc.template, String.empty_append, ne_eq, Markup.escapeText_eq_empty_iff]
    simpa [hn, Node.isEmptyText] using htext
  | @comment data location hn hcomments =>
    refine .of_markup (by simp [hcomments, Options.drops]) hc.removed hc.nonTemplate
      (hother (by simp [hn, Node.isAbsorbable])) (fun _ => ?_) rfl
    simp [Context.write, ← String.toList_eq_nil_iff]
  | dropped hn hcomments =>
    exact ⟨by simp [hn, hcomments, Options.drops, Node.isComment], fun _ => hc.insert, by simp,
      by simp, rfl⟩
  | created hcreates => exact hcreates.settles hc
  | native hbuilds => exact settles_native hvisit hc hbuilds hnodes
  | @fragment f _ hn =>
    have hself := hnodes c.node (List.mem_cons_self ..)
    simp [hn, Node.isFragment] at hself

end

/-- Every visit of a node without fragments says whether the node shows up. -/
theorem visit_settles (hpasses : o.passes = Pass.all) (depth : Nat) :
    Ensures (TemplateCompiler.visit o depth) fun c c' =>
      (∀ n ∈ c.node.nodes, n.isFragment = false) → Settles o c c' :=
  visit_ensures hpasses
    (fun _ ih _ _ _ hc hvisits hnodes => hvisits.settles ih hc hnodes) depth

theorem visit_marksTaken (hpasses : o.passes = Pass.all) (depth : Nat) :
    Ensures (TemplateCompiler.visit o depth) fun c c' =>
      ∀ f, c.parent = some f → f.MarksTaken c.index →
        ∃ f', c'.parent = some f' ∧ f'.children = f.children ∧ f'.MarksTaken (c.index + 1) :=
  visit_ensures hpasses (fun _ _ _ _ _ hc hvisits _ => hvisits.marksTaken hc) depth

end Child

/-! ## Children of a fragment -/

section Fragments

variable {c c' k : Context}

/-- The id of a child with its position, if it is a node of its own. -/
def returnedId? (o : Options) (ns : List Node) (x : NodeInfo × Nat) : Option Nat :=
  if standsAlone o ns x.2 then x.1.id else none

/-- The node can come about: it has markup, or it is created. -/
def NodeInfo.hasOrigin (d : NodeInfo) : Bool := d.template.isSome || d.flags.insert

theorem Context.referenced_registered (k : Context) :
    k.referenced.registered.dynamic.flags.insert = k.dynamic.flags.insert ∧
      k.referenced.registered.dynamic.flags.nonTemplate = k.dynamic.flags.nonTemplate ∧
      k.referenced.registered.dynamic.id = some k.ownId ∧
      k.referenced.registered.block = k.block ∧
      (k.template ≠ "" → k.referenced.registered.dynamic.template.isSome = true) := by
  unfold registered
  split
  · rename_i hempty
    exact ⟨k.referenced_insert, k.referenced_nonTemplate, k.referenced_id, rfl,
      fun htemplate => absurd (String.isEmpty_iff.mp hempty) htemplate⟩
  · exact ⟨k.referenced_insert, k.referenced_nonTemplate, k.referenced_id, rfl, fun _ => rfl⟩

/-- A child of a fragment that is neither left out nor taken over is returned. -/
theorem Settles.settled (h : Settles o c k) :
    (k.settled true).block.returns = c.block.returns ++
      (if !o.drops c.node && !c.isAbsorbed then (k.settled true).dynamic.id else none).toList ∧
    ((!o.drops c.node && !c.isAbsorbed) = true → (k.settled true).dynamic.id.isSome = true ∧
      (c.node.isEmptyText = false → (k.settled true).dynamic.hasOrigin = true)) := by
  cases hremoved : k.removed with
  | true =>
    have hdrops : o.drops c.node = true := h.removed.symm.trans hremoved
    simp [Context.settled, hremoved, hdrops, Context.flag, h.returns]
  | false =>
    have hdrops : o.drops c.node = false := h.removed.symm.trans hremoved
    obtain ⟨hinsert, hnon, hid, hblock, htemplate⟩ := k.referenced_registered
    have hshown := h.shown hremoved
    have hsettled : k.settled true = k.returned := by simp [Context.settled, hremoved]
    rw [hsettled]
    unfold Context.returned
    dsimp only
    rw [hnon, hinsert, hshown]
    cases habsorbed : c.isAbsorbed with
    | true => simp [hdrops, hblock, h.returns]
    | false =>
      refine ⟨by simp [hdrops, hblock, hid, h.returns],
        fun _ => ⟨by simp [hid], fun htext => ?_⟩⟩
      rcases h.origin hremoved habsorbed htext with horigin | horigin
      · simp [NodeInfo.hasOrigin, htemplate horigin]
      · simp [NodeInfo.hasOrigin, hinsert, horigin]

/-- A walk over the children of a fragment returns those that stand on their own. -/
structure WalkReturns (o : Options) (all : List Node) (i : Nat) (c c' : Context)
    (ks : List NodeInfo) : Prop where
  children : c'.dynamic.children = c.dynamic.children ++ ks
  length : i + ks.length = all.length
  returns : c'.block.returns = c.block.returns ++ (ks.zipIdx i).filterMap (returnedId? o all)
  shown : ∀ x ∈ ks.zipIdx i, standsAlone o all x.2 = true → x.1.id.isSome = true ∧
    ((∀ n ∈ all, n.isEmptyText = false) → x.1.hasOrigin = true)

theorem VisitsChildren.returns (hpasses : o.passes = Pass.all) {frame : Frame} {ms : List Node}
    (h : VisitsChildren (visit o depth) true frame i ms c c') (hmarks : frame.MarksTaken i)
    (hrest : frame.children.drop i = ms) (hi : i ≤ frame.children.length)
    (hms : ∀ n ∈ ms.flatMap Node.nodes, n.isFragment = false) :
    ∃ ks, WalkReturns o frame.children i c c' ks := by
  induction h with
  | nil frame i c =>
    have hlength : frame.children.length = i :=
      Nat.le_antisymm (List.drop_eq_nil_iff.mp hrest) hi
    exact ⟨[], by simp, by simp [hlength], by simp, by simp⟩
  | @cons frame frame' i n ms c k c' hframe hrun hparent _ ih =>
    rw [List.flatMap_cons, List.forall_mem_append] at hms
    have hfresh := hframe.child_fresh c
    obtain ⟨f', hf', hchildren, hmarks'⟩ := visit_marksTaken hpasses depth _ _ hfresh hrun _ rfl hmarks
    obtain rfl : f' = frame' := Option.some.inj (hf'.symm.trans hparent)
    have hlt : i < frame.children.length := by
      by_contra hge
      rw [List.drop_eq_nil_of_le (by omega)] at hrest
      cases hrest
    have hn : frame.children[i]? = some n := by
      rw [← List.head?_drop, hrest, List.head?_cons]
    obtain ⟨ks, hwalk⟩ := ih hmarks' (by rw [hchildren]; exact hframe.next.rest)
      (by rw [hchildren]; exact hlt) hms.2
    rw [hchildren] at hwalk
    obtain ⟨hreturns, hshown⟩ := (visit_settles hpasses depth _ k hfresh hrun hms.1).settled
    have halone : standsAlone o frame.children i =
        (!o.drops n && !(c.child n i frame).isAbsorbed) := by
      rw [isAbsorbed_child hmarks hn, standsAlone, hn, Option.any_some]
    have hnode : (c.child n i frame).node = n := rfl
    rw [hnode, ← halone] at hreturns hshown
    refine ⟨(k.settled true).dynamic :: ks, ?_, ?_, ?_, ?_⟩
    · rw [hwalk.children]
      simp [Context.adopt]
    · have hlength := hwalk.length
      simp only [List.length_cons]
      omega
    · rw [hwalk.returns, List.zipIdx_cons, ← List.singleton_append, List.filterMap_append,
        ← List.append_assoc]
      refine congrArg (· ++ _) (hreturns.trans (congrArg (c.block.returns ++ ·) ?_))
      cases hid : returnedId? o frame.children ((k.settled true).dynamic, i) with
      | none =>
        rw [List.filterMap_cons_none hid]
        simpa [returnedId?] using hid
      | some id =>
        rw [List.filterMap_cons_some hid]
        rw [returnedId?] at hid
        simp [hid]
    · intro x hx hx'
      rw [List.zipIdx_cons] at hx
      rcases List.mem_cons.mp hx with rfl | hx
      · obtain ⟨hid, horigin⟩ := hshown hx'
        exact ⟨hid, fun htexts => horigin (htexts n (List.mem_of_getElem? hn))⟩
      · exact hwalk.shown x hx hx'

end Fragments

/-! ## Compiled templates -/

/-- The block returns the ids of those children of its fragment that stand on their own, in their
order. -/
structure Block.ReturnsChildren (o : Options) (f : Fragment) (b : Block) : Prop where
  node : b.node = .fragment f
  length : b.dynamic.children.length = f.children.length
  returns : b.returns = b.dynamic.children.zipIdx.filterMap (returnedId? o f.children)
  nodup : b.returns.Nodup
  identified : ∀ (i : Nat) k, b.dynamic.children[i]? = some k →
    standsAlone o f.children i = true → k.id.isSome = true

/-- Nodes of a tree with different ids that have the same id are the same. -/
theorem eq_of_id_eq {ds : List NodeInfo} (hnodup : (ds.filterMap (·.id)).Nodup) {k k' : NodeInfo}
    (hk : k ∈ ds) (hk' : k' ∈ ds) (hx : k.id = some x) (hx' : k'.id = some x) : k = k' := by
  by_contra hne
  have hle := List.nodup_iff_count.mp hnodup x
  obtain ⟨before, after, rfl⟩ := List.append_of_mem hk
  rw [List.count_filterMap, List.countP_append, List.countP_cons_of_pos (by simp [hx])] at hle
  have hrest : k' ∈ before ∨ k' ∈ after := by
    rcases List.mem_append.mp hk' with hk' | hk'
    · exact .inl hk'
    · exact .inr ((List.mem_cons.mp hk').resolve_left (Ne.symm hne))
  have hpos : ∀ {l : List NodeInfo}, k' ∈ l → 0 < l.countP fun d => d.id == some x :=
    fun hl => List.countP_pos_iff.mpr ⟨k', hl, by simp [hx']⟩
  rcases hrest with hrest | hrest
  · have := hpos hrest
    omega
  · have := hpos hrest
    omega

theorem NodeInfo.creation?_eq_some {d : NodeInfo} :
    d.creation? = some x ↔ d.flags.insert = true ∧ d.template = none ∧ d.id = some x := by
  simp [creation?, and_assoc]

/-- A node that is created apart has one origin. -/
theorem count_creation {d k : NodeInfo} (hnodup : d.ids.Nodup) (hk : k ∈ d.nodes)
    (hinsert : k.flags.insert = true) (hx : k.id = some x) :
    (d.nodes.filterMap NodeInfo.creation?).count x = if k.template.isSome then 0 else 1 := by
  have hids : (d.nodes.filterMap (·.id)).Nodup := hnodup.sublist d.filterMap_id_sublist
  have hle : (d.nodes.filterMap NodeInfo.creation?).count x ≤
      (d.nodes.filterMap (·.id)).count x := by
    rw [List.count_filterMap, List.count_filterMap]
    refine List.countP_mono_left fun k' _ hcreation => ?_
    simpa using (NodeInfo.creation?_eq_some.mp (by simpa using hcreation)).2.2
  have hone := List.nodup_iff_count.mp hids x
  cases htemplate : k.template with
  | none =>
    have hpos : 0 < (d.nodes.filterMap NodeInfo.creation?).count x := by
      rw [List.count_pos_iff, List.mem_filterMap]
      exact ⟨k, hk, NodeInfo.creation?_eq_some.mpr ⟨hinsert, htemplate, hx⟩⟩
    rw [Option.isSome_none, if_neg (by simp)]
    omega
  | some i =>
    rw [Option.isSome_some, if_pos rfl, List.count_eq_zero, List.mem_filterMap]
    rintro ⟨k', hk', hcreation⟩
    obtain ⟨-, hnone, hx'⟩ := NodeInfo.creation?_eq_some.mp hcreation
    obtain rfl := eq_of_id_eq hids hk hk' hx hx'
    simp [htemplate] at hnone

theorem nodup_dynamic_ids {root : Fragment} {r : Compiled} (hpasses : o.passes = Pass.all)
    (h : compile o root = .ok r) : (r.block.blocks.flatMap (·.dynamic.ids)).Nodup := by
  obtain ⟨depth, s, hmakes, -⟩ := compile_ok hpasses h
  have hnodup : r.block.ownedIds.Nodup :=
    (hmakes.ownedIds_perm hpasses).nodup_iff.mpr List.nodup_range
  refine hnodup.sublist ?_
  rw [Block.ownedIds]
  exact List.Sublist.flatMap_right _ fun b _ => List.sublist_append_left _ _

theorem filterMap_returnedId_sublist (o : Options) (ns : List Node) (ks : List NodeInfo) :
    (ks.zipIdx.filterMap (returnedId? o ns)).Sublist (ks.filterMap (·.id)) := by
  have hall : ks.zipIdx.filterMap (·.1.id) = ks.filterMap (·.id) := by
    rw [← List.zipIdx_map_fst 0 ks, List.filterMap_map]
    simp
  have hfilter : ks.zipIdx.filterMap (returnedId? o ns) =
      (ks.zipIdx.filter fun x => standsAlone o ns x.2).filterMap (·.1.id) := by
    rw [List.filterMap_filter]
    rfl
  rw [← hall, hfilter]
  exact List.filter_sublist.filterMap _

theorem sublist_insideAll (ks : List NodeInfo) : ks.Sublist (insideAll ks) := by
  induction ks with
  | nil => exact .refl _
  | cons k ks ih => exact (ih.trans (List.sublist_append_right _ _)).cons_cons k

/-- In a block that is made from a fragment, what returns are children of the fragment. -/
theorem MakesBlock.returnsChildren (hpasses : o.passes = Pass.all) {f : Fragment} {s s' : Session}
    {b : Block} (h : MakesBlock (visit o depth) (.fragment f) s b s') (hnodup : b.dynamic.ids.Nodup)
    (hf : ∀ n ∈ f.nodes, n.isFragment = false) :
    b.ReturnsChildren o f ∧ ((∀ n ∈ f.nodes, n.isEmptyText = false) →
      ∀ (i : Nat) k, b.dynamic.children[i]? = some k → standsAlone o f.children i = true →
        k.hasOrigin = true) := by
  obtain ⟨c, hrun, rfl, rfl⟩ := h
  have hfresh := Context.newBlock_fresh f s
  obtain ⟨d, hwalk⟩ := visit_fragment_ok hpasses hfresh rfl hrun
  have hmarks : (Frame.ofNode (.fragment f) 0).MarksTaken 0 := Frame.marksTaken_zero rfl
  rw [f.nodes_eq] at hf
  obtain ⟨ks, hks⟩ := hwalk.returns hpasses hmarks rfl (Nat.zero_le _) hf
  have hchildren : c.toBlock.dynamic.children = ks := by
    refine hks.children.trans ?_
    rw [hfresh.children, List.nil_append]
  have hreturns : c.toBlock.returns = ks.zipIdx.filterMap (returnedId? o f.children) := by
    refine hks.returns.trans ?_
    exact List.nil_append _
  refine ⟨⟨hwalk.samePlace.node, ?_, ?_, ?_, ?_⟩, ?_⟩
  · rw [hchildren, ← Nat.zero_add ks.length]
    exact hks.length
  · rw [hchildren, hreturns]
  · rw [hreturns]
    refine hnodup.sublist ((filterMap_returnedId_sublist o f.children ks).trans ?_)
    rw [NodeInfo.ids_eq, hchildren]
    exact ((sublist_insideAll ks).filterMap _).trans
      ((insideAll_filterMap_id_sublist ks).trans (List.sublist_append_right _ _))
  · intro i k hk halone
    refine (hks.shown (k, i) ?_ halone).1
    rw [hchildren] at hk
    exact List.mk_mem_zipIdx_iff_getElem?.mpr hk
  · intro htexts i k hk halone
    refine (hks.shown (k, i) ?_ halone).2 fun n hn => htexts n ?_
    · rw [hchildren] at hk
      exact List.mk_mem_zipIdx_iff_getElem?.mpr hk
    · rw [f.nodes_eq]
      exact Node.nodes_subset_flatMap hn (List.mem_cons_self ..)

/-- The ids that a block of a compiled template names are those of its own nodes, and no two blocks
share an id. A node that is created apart has an id and one origin: an operation that creates it, or
markup of its own. A block returns the ids of the children of its fragment that are neither left out
nor taken over. Unless texts are empty, each of these has markup or is created apart. -/
theorem compile_names_own_nodes {root : Fragment} {r : Compiled} (hpasses : o.passes = Pass.all)
    (hroot : ∀ n ∈ root.nodes, n.isFragment = false) (h : compile o root = .ok r) :
    (r.block.blocks.flatMap (·.dynamic.ids)).Nodup ∧
    ∀ b ∈ r.block.blocks,
      (∀ op ∈ b.allOperations, op.NamesWithin b.dynamic) ∧
      (∀ x ∈ b.returns, ∃ k ∈ b.dynamic.nodes, k.id = some x) ∧
      (∀ k ∈ b.dynamic.nodes, k.flags.insert = true → ∃ x, k.id = some x ∧
        b.allOperations.countP (·.created? == some x) = if k.template.isSome then 0 else 1) ∧
      ∃ f, b.ReturnsChildren o f ∧ ((∀ n ∈ root.nodes, n.isEmptyText = false) →
        ∀ (i : Nat) k, b.dynamic.children[i]? = some k → standsAlone o f.children i = true →
          k.hasOrigin = true) := by
  refine ⟨nodup_dynamic_ids hpasses h, fun b hb => ?_⟩
  have hnodup := nodup_ids_of_compile hpasses h hb
  have hpart := compile_parts hpasses h b hb
  obtain ⟨f, hnode, hfragments⟩ :=
    hpart.forall_nodes (fun n hn => n.isFragment_condense.trans hn) hroot
  obtain ⟨depth, f', s, s', hmakes, -⟩ := compile_made hpasses h b hb
  obtain ⟨c, hrun, hblock, -⟩ := id hmakes
  have hnames := visit_names hpasses depth _ c (Context.newBlock_fresh f' s) hrun
  obtain rfl : f' = f := by
    have hf' := visit_node_eq hpasses depth f' _ c (Context.newBlock_fresh f' s) rfl hrun
    rw [hblock] at hnode
    exact Node.fragment.inj (hf'.symm.trans hnode)
  obtain ⟨hreturns, horigin⟩ := hmakes.returnsChildren hpasses hnodup hfragments
  refine ⟨fun op hop => ?_, fun x hx => ?_, fun k hk hinsert => ?_, f', hreturns, fun htexts => ?_⟩
  · rw [hblock] at hop ⊢
    exact (hnames.named op hop).resolve_left (by simp [Context.newBlock, Context.referenced,
      Context.root, Block.allOperations, Block.empty])
  · rw [hreturns.returns] at hx
    have hid := (filterMap_returnedId_sublist o f'.children _).subset hx
    obtain ⟨k, hk, hkid⟩ := List.mem_filterMap.mp hid
    refine ⟨k, List.mem_cons_of_mem _ (NodeInfo.nodes_subset_inside hk ?_), hkid⟩
    exact List.mem_cons_self ..
  · have hid : k.id.isSome = true := by
      rw [hblock] at hk
      exact hnames.identified k hk hinsert
    obtain ⟨x, hx⟩ := Option.isSome_iff_exists.mp hid
    refine ⟨x, hx, ?_⟩
    rw [← List.count_filterMap, ← count_creation hnodup hk hinsert hx, hblock]
    refine (hnames.created x).trans ?_
    simp [Context.newBlock, Context.referenced, Context.root, Block.created, Block.allOperations,
      Block.empty, Context.toBlock]
  · obtain ⟨g, hg, htexts⟩ :=
      hpart.forall_nodes (fun n hn => n.isEmptyText_condense.trans hn) htexts
    obtain rfl : g = f' := Node.fragment.inj (hg.symm.trans hnode)
    exact horigin htexts

/-- Texts, a comment and interpolations that join, beside a component with a slot. -/
def joinedTemplate : Fragment :=
  ⟨[.text ⟨"a", "a", {}⟩, .interpolation ⟨"b", {}⟩, .text ⟨"c", "c", {}⟩, .comment "d" {},
    .element ⟨"Card", .component, [], [.interpolation ⟨"e", {}⟩], {}⟩,
    .element ⟨"p", .regular, [], [.element ⟨"div", .regular, [], [], {}⟩], {}⟩], {}⟩

theorem compile_names_own_nodes_joinedTemplate :
    ∃ r, compile { comments := false } joinedTemplate = .ok r ∧
    (r.block.blocks.flatMap (·.dynamic.ids)).Nodup ∧
    ∀ b ∈ r.block.blocks,
      (∀ op ∈ b.allOperations, op.NamesWithin b.dynamic) ∧
      (∀ x ∈ b.returns, ∃ k ∈ b.dynamic.nodes, k.id = some x) ∧
      (∀ k ∈ b.dynamic.nodes, k.flags.insert = true → ∃ x, k.id = some x ∧
        b.allOperations.countP (·.created? == some x) = if k.template.isSome then 0 else 1) ∧
      ∃ f, b.ReturnsChildren { comments := false } f ∧
        ((∀ n ∈ joinedTemplate.nodes, n.isEmptyText = false) →
          ∀ (i : Nat) k, b.dynamic.children[i]? = some k →
            standsAlone { comments := false } f.children i = true → k.hasOrigin = true) :=
  exists_ok (by decide +kernel) fun _ => compile_names_own_nodes rfl (by decide)

end TemplateCompiler
