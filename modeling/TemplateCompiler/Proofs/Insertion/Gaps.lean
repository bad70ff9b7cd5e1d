import TemplateCompiler.Proofs.Ids.Returned

/-! # Between two texts

In the markup of an element no two texts of its children meet, unless there are only comments
between them that are left out: whatever is inserted between them has a placeholder there.
-/

namespace TemplateCompiler

open Template (Element Fragment Node)
open Transform

/-! ## Children of the source -/

variable {o : Options} {ns : List Node}

/-- After a text that stands on its own, what does not is left out. -/
theorem drops_of_gap {i j : Nat} {n : Node} (hi : standsAlone o ns i = true)
    (hn : ns[i]? = some n) (htext : n.isText = true)
    (hgap : ∀ l m, i < l → l < j → ns[l]? = some m → standsAlone o ns l = false) :
    ∀ l m, i < l → l < j → ns[l]? = some m → o.drops m = true := by
  intro l
  induction l using Nat.strongRecOn with
  | ind l ih =>
    intro m hil hlj hm
    have halone := hgap l m hil hlj hm
    simp only [standsAlone, hm, Option.any_some, Bool.and_eq_false_iff,
      Bool.not_eq_false'] at halone
    rcases halone with hdrops | htaken
    · exact hdrops
    · -- The interpolation that takes over the node cannot be anywhere.
      obtain ⟨x, hx, ⟨y, hy, hinter⟩, hjoins⟩ := isTakenOver_iff.mp htaken
      exfalso
      rcases Nat.lt_trichotomy x i with hxi | rfl | hxi
      · have htaken' : isTakenOver ns i = true :=
          isTakenOver_iff.mpr
            ⟨x, hxi, ⟨y, hy, hinter⟩, fun l' n' h₁ h₂ => hjoins l' n' h₁ (by omega)⟩
        simp [standsAlone, htaken'] at hi
      · obtain rfl : n = y := Option.some.inj (hn.symm.trans hy)
        cases n <;> simp_all [Node.isText, Node.isInterpolation]
      · have hdrops := ih x hx y hxi (by omega) hy
        cases y <;> simp_all [Options.drops, Node.isComment, Node.isInterpolation]

/-! ## Placeholders -/

/-- A child that is part of the markup ends the run before it. -/
theorem insertions_append_markup (run : List (Nat × NodeInfo)) (afterMarkup : Bool)
    (before : List (Nat × NodeInfo)) {i : Nat} {d : NodeInfo} (hd : d.flags.nonTemplate = false)
    (after : List (Nat × NodeInfo)) :
    ∃ others, insertions run afterMarkup (before ++ (i, d) :: after) =
      others ++ insertions [] true after := by
  induction before generalizing run afterMarkup with
  | nil =>
    rw [List.nil_append, insertions, hd]
    generalize (if d.flags.insert then run ++ [(i, d)] else run) = run'
    cases run' with
    | nil => exact ⟨[], rfl⟩
    | cons r run' => exact ⟨[_], rfl⟩
  | cons y before ih =>
    obtain ⟨j, e⟩ := y
    rw [List.cons_append, insertions]
    generalize (if e.flags.insert then run ++ [(j, e)] else run) = run'
    cases e.flags.nonTemplate with
    | true => exact ih run' afterMarkup
    | false =>
      obtain ⟨others, hothers⟩ := ih [] true
      cases run' with
      | nil => exact ⟨others, hothers⟩
      | cons r run' => exact ⟨_ :: others, congrArg (_ :: ·) hothers⟩

/-- What is inserted between two children that are part of the markup is one run. -/
theorem insertions_between {run before after : List (Nat × NodeInfo)} {j : Nat} {d : NodeInfo}
    (hbefore : ∀ x ∈ before, x.2.flags.nonTemplate = true) (hd : d.flags.nonTemplate = false)
    (hinsert : d.flags.insert = false) (hrun : run ++ before.filter (·.2.flags.insert) ≠ []) :
    insertions run true (before ++ (j, d) :: after) =
      ⟨.placeholder, run ++ before.filter (·.2.flags.insert)⟩ :: insertions [] true after := by
  induction before generalizing run with
  | nil =>
    rw [List.filter_nil, List.append_nil] at hrun ⊢
    rw [List.nil_append, insertions, hd, hinsert]
    simp [hrun]
  | cons x before ih =>
    obtain ⟨i, e⟩ := x
    have he : e.flags.nonTemplate = true := hbefore (i, e) (by simp)
    have hsplit : run ++ ((i, e) :: before).filter (·.2.flags.insert) =
        (if e.flags.insert then run ++ [(i, e)] else run) ++
          before.filter (·.2.flags.insert) := by
      cases h : e.flags.insert <;> simp [h]
    rw [hsplit] at hrun ⊢
    rw [← ih (fun x hx => hbefore x (by simp [hx])) hrun, List.cons_append, insertions, he]
    rfl

theorem Inserting.of_append {parent : Nat} {xs ys : List Insertion} {anchors : List (Nat × Nat)}
    {ops : List Operation} (h : Inserting parent (xs ++ ys) anchors ops) :
    ∃ anchors' ops', Inserting parent ys anchors' ops' ∧ anchors' ⊆ anchors := by
  induction xs generalizing anchors ops with
  | nil => exact ⟨anchors, ops, h, List.Subset.refl _⟩
  | cons x xs ih =>
    rw [List.cons_append] at h
    cases h with
    | front h | back h => exact ih h
    | placeholder h =>
      obtain ⟨anchors', ops', hys, hsub⟩ := ih h
      exact ⟨anchors', ops', hys, List.subset_cons_of_subset _ hsub⟩

/-- Whatever is inserted between two children that are part of the markup has a placeholder
there. -/
theorem Inserting.exists_between {parent : Nat} {anchors : List (Nat × Nat)} {ops : List Operation}
    {ks : List NodeInfo} {i j l : Nat} {ki kj kl : NodeInfo}
    (h : Inserting parent (insertions [] false (ks.zipIdx.map Prod.swap)) anchors ops)
    (hil : i < l) (hlj : l < j) (hi : ks[i]? = some ki) (hj : ks[j]? = some kj)
    (hl : ks[l]? = some kl) (hki : ki.flags.nonTemplate = false)
    (hkj : kj.flags.nonTemplate = false) (hinsert : kj.flags.insert = false)
    (hkl : kl.flags.insert = true)
    (hgap : ∀ (m : Nat) k, i < m → m < j → ks[m]? = some k → k.flags.nonTemplate = true) :
    ∃ y ∈ anchors, i < y.1 ∧ y.1 < j := by
  generalize hps : ks.zipIdx.map Prod.swap = ps at h
  have hpositions : ∀ m : Nat, ps[m]? = ks[m]?.map (m, ·) := by
    intro m
    rw [← hps, List.getElem?_map, List.getElem?_zipIdx]
    cases ks[m]? <;> simp
  have hdrop : ∀ {m : Nat} {k : NodeInfo}, ks[m]? = some k →
      ps.drop m = (m, k) :: ps.drop (m + 1) := by
    intro m k hk
    have hm : ps[m]? = some (m, k) := by rw [hpositions, hk, Option.map_some]
    obtain ⟨hlt, heq⟩ := List.getElem?_eq_some_iff.mp hm
    rw [List.drop_eq_getElem_cons hlt, heq]
  have hmem : ∀ x, x ∈ (ps.drop (i + 1)).take (j - (i + 1)) ↔
      i < x.1 ∧ x.1 < j ∧ ks[x.1]? = some x.2 := by
    intro x
    rw [List.mem_iff_getElem?]
    constructor
    · rintro ⟨m, hm⟩
      have hlt : m < j - (i + 1) := by
        by_contra hge
        rw [List.getElem?_take_eq_none (by omega)] at hm
        cases hm
      rw [List.getElem?_take_of_lt hlt, List.getElem?_drop, hpositions,
        Option.map_eq_some_iff] at hm
      obtain ⟨k, hk, rfl⟩ := hm
      exact ⟨by omega, by omega, hk⟩
    · rintro ⟨hix, hxj, hk⟩
      refine ⟨x.1 - (i + 1), ?_⟩
      rw [List.getElem?_take_of_lt (by omega), List.getElem?_drop,
        show i + 1 + (x.1 - (i + 1)) = x.1 by omega, hpositions, hk]
      rfl
  have hsplit : ps = ps.take i ++ (i, ki) :: ((ps.drop (i + 1)).take (j - (i + 1)) ++
      (j, kj) :: ps.drop (j + 1)) := by
    conv_lhs => rw [← List.take_append_drop i ps, hdrop hi,
      ← List.take_append_drop (j - (i + 1)) (ps.drop (i + 1)), List.drop_drop,
      show i + 1 + (j - (i + 1)) = j by omega, hdrop hj]
  generalize (ps.drop (i + 1)).take (j - (i + 1)) = between at hmem hsplit
  have hrun : (l, kl) ∈ between.filter (·.2.flags.insert) :=
    List.mem_filter.mpr ⟨(hmem _).mpr ⟨hil, hlj, hl⟩, hkl⟩
  obtain ⟨others, hothers⟩ := insertions_append_markup [] false (ps.take i) hki
    (between ++ (j, kj) :: ps.drop (j + 1))
  rw [hsplit, hothers] at h
  obtain ⟨anchors', ops', hinserting, hsub⟩ := h.of_append
  rw [insertions_between (fun x hx => hgap x.1 x.2 ((hmem x).mp hx).1 ((hmem x).mp hx).2.1
    ((hmem x).mp hx).2.2) hkj hinsert (List.ne_nil_of_mem hrun)] at hinserting
  obtain ⟨x, xs, hxs⟩ := List.exists_cons_of_ne_nil (List.ne_nil_of_mem hrun)
  have hx : x ∈ between := (List.mem_filter.mp (by rw [hxs]; exact List.mem_cons_self ..)).1
  rw [hxs] at hinserting
  cases hinserting with
  | @placeholder _ _ _ _ a hrest =>
    exact ⟨(x.1, a), hsub (List.mem_cons_self ..), ((hmem x).mp hx).1, ((hmem x).mp hx).2.1⟩

/-! ## Elements of a block -/

theorem Within.trans {n m m' : Node} {d k k' : NodeInfo} (h : Within n d m k)
    (h' : Within m k m' k') : Within n d m' k' := by
  induction h with
  | self => exact h'
  | child hm hk _ ih => exact .child hm hk (ih h')

/-- The child is a text in the markup of its parent. -/
def IsTextPiece (n : Node) (k : NodeInfo) : Prop :=
  n.isText = true ∧ k.flags.nonTemplate = false ∧ k.anchor = none

/-- What is known of the children of a node fits the markup of the node. -/
structure Spaced (o : Options) (n : Node) (d : NodeInfo) : Prop where
  /-- Each element inside has markup of its own or stands in that of its parent. -/
  rooted : ∀ (i : Nat) e k, n.children[i]? = some (.element e) → d.children[i]? = some k →
    e.kind = .regular →
    k.template.isSome = true ∨
      (∃ p, n = .element p ∧ p.kind = .regular) ∧ k.flags.nonTemplate = false ∧ k.anchor = none
  /-- A placeholder stands in the markup. -/
  anchored : ∀ k ∈ d.children, k.anchor.isSome = true → k.flags.nonTemplate = false
  length : ∀ e, n = .element e → e.kind = .regular → d.children.length = e.children.length
  /-- Between two texts that come next to each other in the markup all is left out. -/
  texts : ∀ e, n = .element e → e.kind = .regular → ∀ (i j : Nat) x y kx ky, i < j →
    e.children[i]? = some x → e.children[j]? = some y → d.children[i]? = some kx →
    d.children[j]? = some ky → IsTextPiece x kx → IsTextPiece y ky →
    (∀ (l : Nat) k, i < l → l < j → d.children[l]? = some k → k.flags.nonTemplate = true) →
    ∀ l m, i < l → l < j → e.children[l]? = some m → o.drops m = true

/-- What is known of the node and of those inside it in the same block fits the markup. -/
def AllSpaced (o : Options) (n : Node) (d : NodeInfo) : Prop :=
  ∀ m k, Within n d m k → Spaced o m k

variable {n : Node} {d d' : NodeInfo}

theorem Spaced.congr (h : Spaced o n d) (hchildren : d'.children = d.children) :
    Spaced o n d' := by
  refine ⟨?_, ?_, ?_, ?_⟩ <;> rw [hchildren]
  · exact h.rooted
  · exact h.anchored
  · exact h.length
  · exact h.texts

theorem AllSpaced.congr (h : AllSpaced o n d) (hchildren : d'.children = d.children) :
    AllSpaced o n d' :=
  forall_within_congr hchildren (·.congr hchildren) h

theorem AllSpaced.of_childless (hn : ∀ e, n = .element e → e.kind ≠ .regular)
    (hchildren : d.children = []) : AllSpaced o n d := by
  refine forall_within ⟨by simp [hchildren], by simp [hchildren], ?_, ?_⟩ (by simp [hchildren])
  · exact fun e he hkind => absurd hkind (hn e he)
  · exact fun e he hkind => absurd hkind (hn e he)

/-! ## Walks -/

section Walk

variable {names : List String} {depth i : Nat} {isFragment : Bool} {frame : Frame}
  {c c' k : Context}

/-- A walk over children says which of them stand on their own. -/
structure WalkSpaces (o : Options) (isFragment : Bool) (frame : Frame) (i : Nat) (ms : List Node)
    (c c' : Context) (ks : List NodeInfo) : Prop where
  children : c'.dynamic.children = c.dynamic.children ++ ks
  length : ks.length = ms.length
  inside : ∀ (j : Nat) m k, ms[j]? = some m → ks[j]? = some k → AllSpaced o m k
  plain : ∀ k ∈ ks, k.anchor = none
  rooted : ∀ (j : Nat) e k, ms[j]? = some (.element e) → ks[j]? = some k → e.kind = .regular →
    k.template.isSome = true ∨
      isFragment = false ∧ k.flags.nonTemplate = false ∧ k.flags.insert = false
  alone : isFragment = false → frame.MarksTaken i → ∀ (j : Nat) k, ks[j]? = some k →
    (!k.flags.nonTemplate || k.flags.insert) = standsAlone o frame.children (i + j)

/-- An element is shown. It registers its markup and is inserted if it is misplaced, and leaves its
markup otherwise. -/
structure Rooted (e : Element) (c k : Context) : Prop where
  removed : k.removed = false
  template : k.dynamic.template.isSome = c.isMisplaced e
  insert : k.dynamic.flags.insert = c.isMisplaced e
  nonTemplate : k.dynamic.flags.nonTemplate = c.isMisplaced e
  markup : c.isMisplaced e = false → k.template ≠ ""

theorem Visits.rooted {visit : Transform Unit} {e : Element} (hc : c.Fresh)
    (hn : c.node = .element e) (hkind : e.kind = .regular) (h : Visits o names visit c k) :
    Rooted e c k := by
  cases h.proceeds with
  | absorbed _ hnode => simp [hn, Node.isAbsorbable] at hnode
  | text hnode | comment hnode | dropped hnode | fragment hnode => simp [hn] at hnode
  | created hcreates => exact absurd hkind (hcreates.kind_ne_regular e hn)
  | @native e' _ _ _ _ k _ hbuilds =>
    obtain rfl : e' = e := by simpa [hbuilds.node] using hn
    have hk := hbuilds.unplaced
    have hsame : (k.closed e').isMisplaced e' = c.isMisplaced e' := by
      rw [Context.isMisplaced, Context.closed_parent, hk.parent, Context.isMisplaced]
    rw [Context.place, hsame]
    cases hmisplaced : c.isMisplaced e' with
    | true =>
      constructor <;> simp [hmisplaced, Context.flag, Context.referenced, Flags.union,
        Flags.inserted, hk.removed, hc.removed]
    | false =>
      constructor <;> simp [hmisplaced, Context.write, openingTag, ← String.toList_eq_nil_iff,
        hk.removed, hc.removed, hk.markup, hc.markup, hk.insert, hc.insert, hk.nonTemplate,
        hc.nonTemplate]

theorem visit_rooted (hpasses : o.passes = Pass.all) (depth : Nat) :
    Ensures (visit o depth) fun c k =>
      ∀ e, c.node = .element e → e.kind = .regular → Rooted e c k :=
  visit_ensures hpasses (fun _ _ _ _ _ hc hvisits _ hn hkind => hvisits.rooted hc hn hkind) depth

/-- An element that is settled has markup of its own or stands in that of its parent. -/
theorem Rooted.settled {e : Element} (h : Rooted e c k) :
    (k.settled isFragment).dynamic.template.isSome = true ∨
      isFragment = false ∧ (k.settled isFragment).dynamic.flags.nonTemplate = false ∧
        (k.settled isFragment).dynamic.flags.insert = false := by
  cases hmisplaced : c.isMisplaced e with
  | true =>
    refine .inl ?_
    rcases k.settled_markup isFragment with hsame | ⟨-, -, i, hi, -⟩
    · rw [hsame, h.template, hmisplaced]
    · simp [hi]
  | false =>
    cases isFragment with
    | false =>
      simp [Context.settled, h.removed, h.nonTemplate, h.insert, hmisplaced]
    | true =>
      have hregistered := k.referenced_registered.2.2.2.2 (h.markup hmisplaced)
      exact .inl (by simpa [Context.settled, h.removed, k.returned_dynamic] using hregistered)

/-- A child of an element is part of what the element shows unless it is left out or taken over. -/
theorem Settles.settled_shown (h : Settles o c k) :
    (!(k.settled false).dynamic.flags.nonTemplate || (k.settled false).dynamic.flags.insert) =
      (!o.drops c.node && !c.isAbsorbed) := by
  rw [← h.removed]
  cases hremoved : k.removed with
  | true => simp [Context.settled, hremoved, Context.flag, Flags.union, h.left hremoved]
  | false => simpa [Context.settled, hremoved] using h.shown hremoved

theorem VisitsChildren.spaces (hpasses : o.passes = Pass.all)
    (hvisit : Ensures (visit o depth) fun c c' =>
      (∀ n ∈ c.node.nodes, n.isFragment = false) → AllSpaced o c.node c'.dynamic)
    {ms : List Node} (h : VisitsChildren (visit o depth) isFragment frame i ms c c')
    (hms : ∀ n ∈ ms.flatMap Node.nodes, n.isFragment = false) :
    ∃ ks, WalkSpaces o isFragment frame i ms c c' ks := by
  induction h with
  | nil => exact ⟨[], by simp, rfl, by simp, by simp, by simp, by simp⟩
  | @cons frame frame' i n ms c k c' hframe hrun hparent _ ih =>
    rw [List.flatMap_cons, List.forall_mem_append] at hms
    have hfresh := hframe.child_fresh c
    have hn : frame.children[i]? = some n := by
      rw [← List.head?_drop, hframe.rest, List.head?_cons]
    obtain ⟨ks, hwalk⟩ := ih hms.2
    refine ⟨(k.settled isFragment).dynamic :: ks, ?_, ?_, ?_, ?_, ?_, ?_⟩
    · rw [hwalk.children]
      simp [Context.adopt]
    · simp [hwalk.length]
    · refine forall_getElem?_cons ?_ hwalk.inside
      exact (hvisit _ _ hfresh hrun hms.1).congr (k.settled_later isFragment).children
    · intro d hd
      rcases List.mem_cons.mp hd with rfl | hd
      · exact k.settled_anchor.trans (visit_conserves hpasses depth _ _ hfresh hrun).1
      · exact hwalk.plain d hd
    · rintro (_ | j) e d hm hd hkind
      · cases hm
        cases hd
        exact (visit_rooted hpasses depth _ _ hfresh hrun e rfl hkind).settled
      · exact hwalk.rooted j e d hm hd hkind
    · rintro rfl hmarks j d hd
      obtain ⟨f', hf', hchildren, hmarks'⟩ := visit_marksTaken hpasses depth _ _ hfresh hrun _ rfl hmarks
      obtain rfl : f' = frame' := Option.some.inj (hf'.symm.trans hparent)
      cases j with
      | zero =>
        obtain rfl : (k.settled false).dynamic = d := by simpa using hd
        rw [(visit_settles hpasses depth _ k hfresh hrun hms.1).settled_shown, Nat.add_zero,
          isAbsorbed_child hmarks hn, standsAlone, hn, Option.any_some]
        rfl
      | succ j =>
        rw [hwalk.alone rfl hmarks' j d hd, hchildren]
        congr 1
        omega

end Walk

/-! ## Visits -/

section Visits

variable {names : List String} {depth : Nat} {e : Element} {c c₁ c₂ : Context}
  {ks : List NodeInfo} {parent : Nat} {anchors : List (Nat × Nat)} {ops : List Operation}

/-- Where children are visited, they are all taken over or those that are not mark the rest. -/
theorem ContainerWork.consumed (h : ContainerWork o names e c c₁) :
    c₁ = c ∨ c₁.consumedChildren = e.children.length := by
  cases h with
  | idle => exact .inl rfl
  | markup hchildren => exact .inr (by simp [Context.add, hchildren])
  | literal => exact .inr rfl
  | text => exact .inr rfl

/-- Children between two texts are left out if there is no placeholder between these. -/
theorem WalkSpaces.drops_between {frame : Frame}
    (hwalk : WalkSpaces o false frame 0 frame.children c₁ c₂ ks)
    (hmarks : frame.MarksTaken 0) (hready : ∀ k ∈ ks, k.IsReady)
    (hinserting : Inserting parent (insertions [] false (ks.zipIdx.map Prod.swap)) anchors ops)
    {i j : Nat} {x : Node} {kx ky : NodeInfo} (hx : frame.children[i]? = some x)
    (htext : x.isText = true) (hkx : ks[i]? = some kx) (hky : ks[j]? = some ky)
    (hnonx : kx.flags.nonTemplate = false) (hnony : ky.flags.nonTemplate = false)
    (hgap : ∀ (l : Nat) k, i < l → l < j → ks[l]? = some k → k.flags.nonTemplate = true)
    (hfree : ∀ y ∈ anchors, ¬(i < y.1 ∧ y.1 < j)) :
    ∀ l m, i < l → l < j → frame.children[l]? = some m → o.drops m = true := by
  have halone : standsAlone o frame.children i = true := by
    have hi := hwalk.alone rfl hmarks i kx hkx
    rw [Nat.zero_add, hnonx] at hi
    exact hi.symm
  have hinsert : ky.flags.insert = false := by
    cases hky' : ky.flags.insert with
    | false => rfl
    | true =>
      have hnon := ((hready ky (List.mem_of_getElem? hky)).insert hky').1
      simp [hnony] at hnon
  refine drops_of_gap halone hx htext fun l m hil hlj hm => ?_
  have hl : l < ks.length := by
    obtain ⟨hlt, -⟩ := List.getElem?_eq_some_iff.mp hky
    omega
  have hkl : ks[l]? = some ks[l] := List.getElem?_eq_getElem hl
  have hshown := hwalk.alone rfl hmarks l ks[l] hkl
  rw [Nat.zero_add, hgap l _ hil hlj hkl, Bool.not_true, Bool.false_or] at hshown
  rw [← hshown]
  cases hkl' : ks[l].flags.insert with
  | false => rfl
  | true =>
    obtain ⟨y, hy, hbetween⟩ := hinserting.exists_between hil hlj hkx hky hkl hnonx hnony hinsert
      hkl' hgap
    exact absurd hbetween (hfree y hy)

/-- A child with placeholders placed is one from before, or one from before with a placeholder. -/
theorem Inserting.getElem?_placed
    (h : Inserting parent (insertions [] false (ks.zipIdx.map Prod.swap)) anchors ops)
    {i : Nat} {k' : NodeInfo} (hk' : (placeAll anchors ks)[i]? = some k') :
    ∃ k, ks[i]? = some k ∧ ((k' = k ∧ ∀ y ∈ anchors, y.1 ≠ i) ∨
      k.flags.insert = true ∧ ∃ a, k' = k.withAnchor a) := by
  rw [getElem?_placeAll h.nodup_positions, Option.map_eq_some_iff] at hk'
  obtain ⟨k, hk, rfl⟩ := hk'
  refine ⟨k, hk, ?_⟩
  by_cases hmem : ∃ y ∈ anchors, y.1 = i
  · obtain ⟨y, hy, rfl⟩ := hmem
    obtain ⟨k', hk', hinsert⟩ := h.anchored hy
    obtain rfl : k' = k := Option.some.inj (hk'.symm.trans hk)
    exact .inr ⟨hinsert, y.2, by simp [anchoredChild, h.lookup_of_mem hy]⟩
  · have hfree : ∀ y ∈ anchors, y.1 ≠ i := fun y hy heq => hmem ⟨y, hy, heq⟩
    exact .inl ⟨by rw [anchoredChild_of_notMem hfree], hfree⟩

theorem WalkSpaces.spaced {frame : Frame}
    (hwalk : WalkSpaces o false frame 0 e.children c₁ c₂ ks) (hframe : frame.children = e.children)
    (hkind : e.kind = .regular) (hready : ∀ k ∈ ks, k.IsReady)
    (hmarks : frame.MarksTaken 0 ∨ ∀ k ∈ ks, k.flags.nonTemplate = true)
    (hinserting : Inserting parent (insertions [] false (ks.zipIdx.map Prod.swap)) anchors ops)
    (hd : d.children = placeAll anchors ks) : Spaced o (.element e) d where
  rooted := by
    intro i e' k' hm hk' hkind'
    rw [hd] at hk'
    obtain ⟨k, hk, ⟨rfl, -⟩ | ⟨hinsert, a, rfl⟩⟩ := hinserting.getElem?_placed hk'
    · rcases hwalk.rooted i e' k' hm hk hkind' with htemplate | ⟨-, hnon, -⟩
      · exact .inl htemplate
      · exact .inr ⟨⟨e, rfl, hkind⟩, hnon, hwalk.plain k' (List.mem_of_getElem? hk)⟩
    · rcases hwalk.rooted i e' k hm hk hkind' with htemplate | ⟨-, -, hplain⟩
      · exact .inl htemplate
      · simp [hinsert] at hplain
  anchored := by
    intro k' hk' hanchor
    rw [hd] at hk'
    obtain ⟨i, hi⟩ := List.mem_iff_getElem?.mp hk'
    obtain ⟨k, hk, ⟨rfl, -⟩ | ⟨-, a, rfl⟩⟩ := hinserting.getElem?_placed hi
    · simp [hwalk.plain k' (List.mem_of_getElem? hk)] at hanchor
    · simp [NodeInfo.withAnchor, Flags.minus]
  length := by
    rintro _ ⟨⟩ -
    rw [hd, ← (later_placeAll anchors ks).length_eq, hwalk.length]
  texts := by
    rintro _ ⟨⟩ - i j x y kx ky hij hx hy hkx hky ⟨htext, hnonx, hanchorx⟩ ⟨-, hnony, hanchory⟩ hgap
    rw [hd] at hkx hky hgap
    obtain ⟨k, hkx', ⟨rfl, -⟩ | ⟨-, a, rfl⟩⟩ := hinserting.getElem?_placed hkx
    swap
    · simp [NodeInfo.withAnchor] at hanchorx
    obtain ⟨k, hky', ⟨rfl, -⟩ | ⟨-, a, rfl⟩⟩ := hinserting.getElem?_placed hky
    swap
    · simp [NodeInfo.withAnchor] at hanchory
    rcases hmarks with hmarks | hall
    swap
    · simp [hall kx (List.mem_of_getElem? hkx')] at hnonx
    -- A placeholder between the texts would itself be part of the markup.
    have hfree : ∀ y ∈ anchors, ¬(i < y.1 ∧ y.1 < j) := by
      rintro y hy ⟨hiy, hyj⟩
      obtain ⟨k, hk, -⟩ := hinserting.anchored hy
      have hk' := getElem?_placeAll hinserting.nodup_positions ks y.1
      rw [hk, Option.map_some] at hk'
      have hnon := hgap y.1 _ hiy hyj hk'
      simp [anchoredChild, hinserting.lookup_of_mem hy, NodeInfo.withAnchor, Flags.minus] at hnon
    rw [← hframe] at hwalk hx ⊢
    refine hwalk.drops_between hmarks hready hinserting hx htext hkx' hky' hnonx hnony ?_ hfree
    intro l k hil hlj hk
    have hk' := getElem?_placeAll hinserting.nodup_positions ks l
    rw [hk, Option.map_some, anchoredChild_of_notMem fun y hy heq => hfree y hy (by
      change y.1 = l at heq
      omega)] at hk'
    exact hgap l k hil hlj hk'

/-- What is known of a node without fragments inside fits its markup, if this holds of the nodes
inside. -/
theorem Visits.allSpaced (hpasses : o.passes = Pass.all)
    (hvisit : Ensures (visit o depth) fun c c' =>
      (∀ n ∈ c.node.nodes, n.isFragment = false) → AllSpaced o c.node c'.dynamic) (hc : c.Fresh)
    {c' : Context} (hnodes : ∀ n ∈ c.node.inside, n.isFragment = false)
    (h : Visits o names (visit o depth) c c') : AllSpaced o c.node c'.dynamic := by
  cases h.proceeds with
  | absorbed _ hn =>
    refine .of_childless (fun e he => ?_) hc.children
    simp [he, Node.isAbsorbable] at hn
  | text hn | comment hn | dropped hn => exact .of_childless (by simp [hn]) hc.children
  | created hcreates =>
    exact .of_childless hcreates.kind_ne_regular (by rw [hcreates.dynamic]; exact hc.children)
  | @native e _ _ _ c₂ k _ hbuilds =>
    rw [hbuilds.node, Node.inside, e.nodes_eq] at hnodes
    obtain ⟨ks, hspaces⟩ := hbuilds.walk.spaces hpasses hvisit hnodes
    obtain ⟨new, ks', harranges⟩ := hbuilds.walk.arranges (visit_conserves hpasses depth)
      (visit_arranges hpasses depth)
    obtain ⟨anchors, ops, parent, hplaced, -, -, -, hinserting⟩ := c₂.insertAll_spec
    obtain rfl : ks' = ks :=
      List.append_cancel_left (harranges.children.symm.trans hspaces.children)
    have hks : c₂.dynamic.children = ks' := by
      rw [hspaces.children, hbuilds.childless hc, List.nil_append]
    rw [hks] at hplaced hinserting
    have hchildren : ∀ markup, ((k.closed e).place e markup).dynamic.children =
        placeAll anchors ks' := fun markup =>
      (k.place_later e markup).children.trans (hbuilds.work.later.children.trans hplaced)
    rw [hbuilds.node]
    refine forall_within (hspaces.spaced (by rw [hbuilds.node]; rfl) hbuilds.kind
      (harranges.ready rfl) ?_ hinserting (hchildren _)) fun i m d hm hd => ?_
    · rcases hbuilds.container.consumed with rfl | hconsumed
      · refine .inl fun m _ _ => ?_
        simp [Frame.ofNode, hc.consumedChildren]
      · obtain ⟨ks, hks', hapart⟩ := hbuilds.walk.absorbed (visit_records hpasses depth)
          (by simp [Frame.ofNode, hconsumed])
        obtain rfl : ks = ks' := List.append_cancel_left (hks'.symm.trans hspaces.children)
        exact .inr fun d hd => (hapart d hd).2.1
    · rw [hchildren] at hd
      obtain ⟨d', hd', ⟨rfl, -⟩ | ⟨-, a, rfl⟩⟩ := hinserting.getElem?_placed hd
      · exact hspaces.inside i m d hm hd'
      · exact (hspaces.inside i m d' hm hd').congr rfl
  | @fragment f c' hn hwalk =>
    rw [hn, Node.inside, f.nodes_eq] at hnodes
    obtain ⟨ks, hspaces⟩ := hwalk.spaces hpasses hvisit hnodes
    have hks : c'.dynamic.children = ks := by
      rw [hspaces.children, hc.children, List.nil_append]
    rw [hn]
    refine forall_within ⟨?_, ?_, by simp, by simp⟩ ?_ <;> rw [hks]
    · intro i e k hm hk hkind
      exact .inl ((hspaces.rooted i e k hm hk hkind).resolve_right (by simp))
    · intro k hk hanchor
      simp [hspaces.plain k hk] at hanchor
    · exact hspaces.inside

/-- What is known of the nodes of a block fits their markup. -/
theorem visit_allSpaced (hpasses : o.passes = Pass.all) (depth : Nat) :
    Ensures (visit o depth) fun c c' =>
      (∀ n ∈ c.node.inside, n.isFragment = false) → AllSpaced o c.node c'.dynamic := by
  refine visit_ensures hpasses (fun depth ih c c' names hc hvisits hnodes => ?_) depth
  refine hvisits.allSpaced hpasses (fun k k' hk hrun hnodes => ?_) hc hnodes
  exact ih k k' hk hrun fun n hn => hnodes n (List.mem_cons_of_mem _ hn)

end Visits

end TemplateCompiler
