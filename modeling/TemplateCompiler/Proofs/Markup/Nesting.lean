import TemplateCompiler.Proofs.Insertion.Gaps

/-! # Elements that cannot stand in their parent

An element that its parent cannot hold is kept out of the markup of the parent: it has markup of its
own and is inserted. Only the parent is looked at, so that an element may stand deeper inside one
that would not hold it.
-/

namespace TemplateCompiler

open Template (Element Fragment Node isValidNesting)
open Transform

variable {o : Options} {n : Node} {d d' : NodeInfo}

/-- The node has markup of its own, is inserted and leaves at most a placeholder in the markup of its
parent. Otherwise it is none of this. -/
structure NodeInfo.IsApart (d : NodeInfo) (apart : Bool) : Prop where
  template : d.template.isSome = apart
  insert : d.flags.insert = apart
  leaves : (d.flags.nonTemplate || d.anchor.isSome) = apart

/-- Of the elements directly inside a regular element, those are apart that it cannot hold. -/
def Nested (n : Node) (d : NodeInfo) : Prop :=
  ∀ e, n = .element e → e.kind = .regular → ∀ (i : Nat) x k, e.children[i]? = some (.element x) →
    d.children[i]? = some k → x.kind = .regular → k.IsApart (!isValidNesting e.name x.name)

/-- A visit keeps the tag of the parent, and the elements inside the node are where they belong. -/
def Nests (c c' : Context) : Prop :=
  c'.parent.bind (·.tag) = c.parent.bind (·.tag) ∧ ∀ m k, Within c.node c'.dynamic m k → Nested m k

theorem nested_congr (hchildren : d'.children = d.children)
    (h : ∀ m k, Within n d m k → Nested m k) : ∀ m k, Within n d' m k → Nested m k :=
  forall_within_congr hchildren (by simp only [Nested, hchildren, imp_self]) h

variable {names : List String} {depth i : Nat} {isFragment : Bool} {frame : Frame} {c c' : Context}

theorem VisitsChildren.nests (hpasses : o.passes = Pass.all) {ms : List Node}
    (hvisit : Ensures (visit o depth) Nests)
    (h : VisitsChildren (visit o depth) isFragment frame i ms c c') :
    ∃ ks, c'.dynamic.children = c.dynamic.children ++ ks ∧
      ∀ (j : Nat) m d, ms[j]? = some m → ks[j]? = some d →
        (∀ m' k, Within m d m' k → Nested m' k) ∧ (isFragment = false → ∀ x, m = .element x →
          x.kind = .regular → d.IsApart (frame.tag.any (!isValidNesting · x.name))) := by
  induction h with
  | nil => exact ⟨[], by simp, by simp⟩
  | @cons frame frame' i n ms c k c' hframe hrun hparent _ ih =>
    obtain ⟨ks, hks, hall⟩ := ih
    have hfresh := hframe.child_fresh c
    obtain ⟨htag, hinside⟩ := hvisit _ _ hfresh hrun
    rw [hparent] at htag
    change frame'.tag = frame.tag at htag
    rw [htag] at hall
    refine ⟨(k.settled isFragment).dynamic :: ks, by simp [hks, Context.adopt],
      forall_getElem?_cons ⟨?_, ?_⟩ hall⟩
    · exact nested_congr (k.settled_later isFragment).children hinside
    · rintro rfl x rfl hkind
      have hk := visit_rooted hpasses depth _ _ hfresh hrun x rfl hkind
      rw [show k.settled false = k by simp [Context.settled, hk.removed]]
      refine ⟨hk.template, hk.insert, ?_⟩
      rw [(visit_conserves hpasses depth _ _ hfresh hrun).1, Option.isSome_none, Bool.or_false]
      exact hk.nonTemplate

theorem nests_native (hpasses : o.passes = Pass.all) (hvisit : Ensures (visit o depth) Nests)
    (hc : c.Fresh) {e : Element} {c₁ c₂ k : Context} {props : List Property}
    {xs : List Contribution} (h : Builds o names (visit o depth) e props xs c c₁ c₂ k)
    (hd : k.dynamic.Later d) : ∀ m k, Within c.node d m k → Nested m k := by
  obtain ⟨ks, hks, hall⟩ := h.walk.nests hpasses hvisit
  obtain ⟨anchors, ops, parent, hplaced, -, -, -, hinserting⟩ := c₂.insertAll_spec
  rw [h.childless hc, List.nil_append] at hks
  rw [hks] at hplaced hinserting
  rw [h.node] at hall ⊢
  have hfinal := hd.children.trans (h.work.later.children.trans hplaced)
  refine forall_within ?_ fun i m d' hm hd' => ?_
  · rintro _ ⟨⟩ - i x d' hx hd' hkind
    obtain ⟨d, hd, hplace⟩ := hinserting.getElem?_placed (hfinal ▸ hd')
    have hapart : d.IsApart (!isValidNesting e.name x.name) := (hall i _ d hx hd).2 rfl x rfl hkind
    rcases hplace with ⟨rfl, -⟩ | ⟨hinsert, a, rfl⟩
    · exact hapart
    · have htrue := hapart.insert.symm.trans hinsert
      exact ⟨hapart.template, by simp [NodeInfo.withAnchor, Flags.minus, hinsert, htrue],
        by simp [NodeInfo.withAnchor, htrue]⟩
  · obtain ⟨d, hd, ⟨rfl, -⟩ | ⟨-, a, rfl⟩⟩ := hinserting.getElem?_placed (hfinal ▸ hd')
    · exact (hall i m _ hm hd).1
    · exact nested_congr (d := d) rfl (hall i m d hm hd).1

theorem Visits.nests (hpasses : o.passes = Pass.all) (hvisit : Ensures (visit o depth) Nests)
    (hc : c.Fresh) (h : Visits o names (visit o depth) c c') : Nests c c' := by
  have hplain : ∀ {d : NodeInfo}, d.children = c.dynamic.children →
      ∀ m k, Within c.node d m k → Nested m k := fun hd => by
    rw [hc.children] at hd
    exact forall_within (by simp [Nested, hd]) (by simp [hd])
  cases h.proceeds with
  | absorbed | text | comment | dropped => exact ⟨rfl, hplain rfl⟩
  | created hcreates =>
    refine ⟨?_, hplain (by rw [hcreates.dynamic])⟩
    rcases hcreates.parent with ⟨-, hsame⟩ | ⟨frame, -, hframe, -, hend⟩
    · rw [hsame]
    · rw [hframe, hend]
      rfl
  | @native e _ _ _ _ k _ hbuilds =>
    refine ⟨?_, nests_native hpasses hvisit hc hbuilds (k.place_later e _)⟩
    rw [Context.place_parent, Context.closed_parent, hbuilds.unplaced.parent]
  | @fragment f c' hn hwalk =>
    obtain ⟨ks, hks, hall⟩ := hwalk.nests hpasses hvisit
    rw [hc.children, List.nil_append] at hks
    rw [Nests, hwalk.samePlace.parent, hn]
    exact ⟨rfl, forall_within (by simp [Nested]) fun i m d hm hd => (hall i m d hm (hks ▸ hd)).1⟩

/-- In the blocks of a compiled template, which spell out all the markup, a regular element is out of
the markup of the element that it is in exactly if that one cannot hold it. It then has markup of
its own and is inserted. This holds for forms, links and buttons directly inside one another. -/
theorem compile_nests {root : Fragment} {r : Compiled} (hpasses : o.passes = Pass.all)
    (h : compile o root = .ok r) :
    (∀ b ∈ r.block.blocks, Spelled o r.templates b.node b.dynamic ∧
      ∀ n d, Within b.node b.dynamic n d → Nested n d) ∧
      ∀ tag ∈ ["form", "a", "button"], isValidNesting tag tag = false := by
  refine ⟨fun b hb => ?_, by decide +kernel⟩
  obtain ⟨depth, f, s, s', ⟨c, hrun, rfl, rfl⟩, htemplates⟩ := compile_made hpasses h b hb
  have hfresh := Context.newBlock_fresh f s
  obtain ⟨_, hwalk⟩ := visit_fragment_ok hpasses hfresh rfl hrun
  have hnode : c.toBlock.node = .fragment f := hwalk.samePlace.node
  rw [hnode]
  have hnests := visit_ensures hpasses (fun _ hvisit _ _ _ hc h => h.nests hpasses hvisit hc) depth
  exact ⟨(visit_records hpasses depth _ c hfresh hrun).recorded.mono htemplates,
    (hnests _ c hfresh hrun).2⟩

/-- A form directly inside a form, and another one deeper inside. -/
def nestedForms : Fragment :=
  ⟨[.element ⟨"form", .regular, [],
    [.element ⟨"form", .regular, [], [], {}⟩,
      .element ⟨"div", .regular, [], [.element ⟨"form", .regular, [], [], {}⟩], {}⟩], {}⟩], {}⟩

theorem compile_nests_nestedForms :
    ∃ r, compile {} nestedForms = .ok r ∧ ∀ b ∈ r.block.blocks, ∀ n d,
      Within b.node b.dynamic n d → Nested n d :=
  exists_ok (by decide +kernel) fun _ h b hb => ((compile_nests rfl h).1 b hb).2

/-- The form deeper inside is in the markup of the outer one. -/
theorem nestedForms_templates :
    (compile {} nestedForms).toOption.map (·.templates) =
      some ["<form></form>", "<form><div><form></form></div></form>"] := by
  decide +kernel

end TemplateCompiler
