import TemplateCompiler.Proofs.Ids.Allotted
import TemplateCompiler.Proofs.Names.Sources

/-! # The scope of a block

Every block is made of a fragment of the template, and the names that are in scope there are those
of the loops around the fragment.
-/

namespace TemplateCompiler

open Template (Branches EachBlock Element Fragment Node)
open Transform

/-! ## Scopes in the source -/

namespace Template.Node

/-- The last argument is the node or stands inside it, in the same block. -/
inductive Holds (n : Node) : Node → Prop
  | self : Holds n n
  | child {m k : Node} : Holds n m → m.isOpen = true → k ∈ m.children → Holds n k

end Template.Node

/-- The fragment is shown in a block of its own somewhere in the template, where loops around it
introduce the names. -/
inductive InScope (root : Fragment) : List String → Fragment → Prop
  | root : InScope root [] root
  | region {names new : List String} {f g : Fragment} {n : Node} :
      InScope root names f → (Node.fragment f).Holds n → (new, g) ∈ n.regions →
      InScope root (new ++ names) g

variable {o : Options} {root : Fragment} {names : List String}

theorem Template.Node.isOpen_of_isCreated {n : Node} (h : n.isCreated = true) :
    n.isOpen = false := by
  cases n <;> simp [isCreated, isOpen] at h ⊢
  rcases h with hkind | hkind <;> simp [hkind]

theorem Template.Branches.bodies_nodes {branches : Branches} {body : Fragment}
    (h : body ∈ branches.bodies) : body.nodes ⊆ branches.nodes := by
  induction branches with
  | done => cases h
  | otherwise =>
    rw [List.mem_singleton.mp h]
    exact List.Subset.refl _
  | test _ _ _ ih =>
    rcases List.mem_cons.mp h with rfl | h
    · exact List.subset_append_left _ _
    · exact List.subset_append_of_subset_right _ (ih h)

theorem Template.Node.regions_nodes {n : Node} {new : List String} {g : Fragment}
    (h : (new, g) ∈ n.regions) : g.nodes ⊆ n.inside := by
  cases n with
  | ifBlock b =>
    obtain ⟨body, hbody, heq⟩ := List.mem_map.mp h
    obtain ⟨-, rfl⟩ := Prod.mk.inj heq
    obtain ⟨test, consequent, alternate, elseIf, location⟩ := b
    change body.nodes ⊆ consequent.nodes ++ Template.optionalNodes alternate
    rcases List.mem_cons.mp hbody with rfl | hbody
    · exact List.subset_append_left _ _
    · exact List.subset_append_of_subset_right _
        (List.Subset.trans (Branches.bodies_nodes hbody) (Template.alternateBranches_nodes alternate))
  | eachBlock b =>
    obtain ⟨subject, context, index, key, body, fallback, location⟩ := b
    change g.nodes ⊆ body.nodes ++ Template.optionalNodes fallback
    rcases List.mem_append.mp h with h | h
    · obtain ⟨_, -, heq⟩ := List.mem_map.mp h
      obtain ⟨-, rfl⟩ := Prod.mk.inj heq
      exact List.subset_append_left _ _
    · obtain ⟨f, hf, heq⟩ := List.mem_map.mp h
      obtain ⟨-, rfl⟩ := Prod.mk.inj heq
      cases fallback with
      | none => cases hf
      | some f' =>
        obtain rfl := List.mem_singleton.mp hf
        exact List.subset_append_right _ _
  | element e =>
    change g.nodes ⊆ e.nodes
    cases hkind : e.kind with
    | component =>
      simp only [regions, hkind] at h
      obtain ⟨slot, hslot, heq⟩ := List.mem_map.mp h
      obtain ⟨-, rfl⟩ := Prod.mk.inj heq
      cases hslots : slotsOf e with
      | error d => simp [hslots, Except.toOption] at hslot
      | ok fs =>
        simp only [hslots, Except.toOption, Option.getD_some] at hslot
        intro m hm
        exact slotsOf_nodes hslots (List.mem_flatMap.mpr ⟨slot, hslot, hm⟩)
    | slotOutlet =>
      simp only [regions, hkind] at h
      obtain ⟨f, hf, heq⟩ := List.mem_map.mp h
      obtain ⟨-, rfl⟩ := Prod.mk.inj heq
      have hcontent := outletContent_nodes e
      rw [Option.mem_toList.mp hf] at hcontent
      exact hcontent
    | _ => simp [regions, hkind] at h
  | _ => cases h

theorem Template.Node.Holds.inside_subset {n m : Node} (h : n.Holds m) : m.inside ⊆ n.inside := by
  induction h with
  | self => exact List.Subset.refl _
  | child _ _ hk ih =>
    intro x hx
    exact ih (Node.nodes_subset_inside hk (List.mem_cons_of_mem _ hx))

/-- What is in scope somewhere in the template holds nodes of the template only. -/
theorem InScope.nodes_subset {f : Fragment} (h : InScope root names f) : f.nodes ⊆ root.nodes := by
  induction h with
  | root => exact List.Subset.refl _
  | region _ hn hg ih =>
    exact List.Subset.trans (Node.regions_nodes hg) (List.Subset.trans hn.inside_subset ih)

/-! ## Blocks -/

/-- The block is made of a fragment where `names` are in scope, and the markup that is there then is
the beginning of `templates`. -/
def Scoped (o : Options) (root : Fragment) (templates : List String) (b : Block) : Prop :=
  ∃ names depth f s s', InScope root names f ∧ s.Binds names ∧
    MakesBlock (visit o depth) (.fragment f) s b s' ∧ s'.templates <+: templates

theorem Scoped.mono {templates templates' : List String} {b : Block}
    (h : templates <+: templates') (hb : Scoped o root templates b) :
    Scoped o root templates' b := by
  obtain ⟨names, depth, f, s, s', hf, hs, hmakes, hs'⟩ := hb
  exact ⟨names, depth, f, s, s', hf, hs, hmakes, hs'.trans h⟩

/-- A visit of a node in a scope adds operations that show blocks in scope only. -/
def Scopes (o : Options) (root : Fragment) (c c' : Context) : Prop :=
  ∀ names f, c.session.Binds names → InScope root names f → (Node.fragment f).Holds c.node →
    ∀ op ∈ c'.block.allOperations, op ∈ c.block.allOperations ∨
      ∀ b ∈ op.blocks, Scoped o root c'.session.templates b

section Making

variable {depth : Nat} {s s' : Session}
  (hvisit : Ensures (visit o depth) (Scopes o root))
  (hdisciplined : Disciplined (visit o depth))
  (hgrows : Ensures (visit o depth) (Grows o))

include hvisit

theorem MakesBlock.scoped {f : Fragment} {b : Block} (hs : s.Binds names)
    (hf : InScope root names f) (h : MakesBlock (visit o depth) (.fragment f) s b s') :
    ∀ b' ∈ b.blocks, Scoped o root s'.templates b' := by
  have hself : Scoped o root s'.templates b :=
    ⟨names, depth, f, s, s', hf, hs, h, List.prefix_rfl⟩
  obtain ⟨k, hrun, rfl, rfl⟩ := h
  intro b' hb'
  rw [Block.blocks_eq] at hb'
  rcases List.mem_cons.mp hb' with rfl | hb'
  · exact hself
  · obtain ⟨op, hop, hb'⟩ := List.mem_flatMap.mp hb'
    rcases hvisit _ _ (Context.newBlock_fresh f s) hrun names f (hs.newBlock f) hf .self op hop
      with hop | hop
    · cases hop
    · exact hop b' hb'

include hdisciplined hgrows

theorem Makes.scoped {rs : List (List String × Fragment)} {is : List Nat} {bs : List Block}
    (hs : s.Binds names) (hf : ∀ r ∈ rs, InScope root (r.1 ++ names) r.2)
    (h : Makes (visit o depth) s rs is bs s') :
    ∀ b ∈ bs.flatMap Block.blocks, Scoped o root s'.templates b := by
  induction h with
  | nil => simp
  | id _ ih => exact ih hs hf
  | note hnotes _ ih =>
    exact ih (hs.congr fun name => by rw [Session.count, hnotes.identifiers, Session.count]) hf
  | block hb hrest ih =>
    obtain ⟨hfirst, hf⟩ := List.forall_mem_cons.mp hf
    have hs₁ := hs.congr (hb.count_eq hdisciplined)
    intro b' hb'
    rcases List.mem_append.mp hb' with hb' | hb'
    · exact (hb.scoped hvisit hs hfirst b' hb').mono (hrest.makesAll hgrows).templates
    · exact ih hs₁ hf b' hb'
  | @loop new _ _ _ s₁ _ _ _ _ hb hrest ih =>
    obtain ⟨hfirst, hf⟩ := List.forall_mem_cons.mp hf
    have hleft := hs.congr (Session.count_leaveLoop (hb.count_eq hdisciplined))
    have hleave : (s₁.leaveLoop new).templates = s₁.templates := by rw [Session.leaveLoop_eq]
    intro b' hb'
    rcases List.mem_append.mp hb' with hb' | hb'
    · refine (hb.scoped hvisit (hs.enterLoop new) hfirst b' hb').mono ?_
      exact hleave ▸ (hrest.makesAll hgrows).templates
    · exact ih hleft hf b' hb'

/-! ## Visits -/

variable {c c' : Context} {f : Fragment}

theorem VisitsChildren.scopes {isFragment : Bool} {frame : Frame} {i : Nat} {ns : List Node}
    (hs : c.session.Binds names) (hf : InScope root names f)
    (hns : ∀ n ∈ ns, (Node.fragment f).Holds n)
    (h : VisitsChildren (visit o depth) isFragment frame i ns c c') :
    ∀ op ∈ c'.block.allOperations, op ∈ c.block.allOperations ∨
      ∀ b ∈ op.blocks, Scoped o root c'.session.templates b := by
  induction h with
  | nil => exact fun op hop => .inl hop
  | @cons frame _ i n ns c k c' hframe hrun _ hrest ih =>
    have hk := hvisit _ _ (hframe.child_fresh c) hrun names f hs hf (hns n (by simp))
    have hmore : k.session.templates <+: c'.session.templates :=
      (k.settled_grows isFragment : Grows o k _).templates.trans (hrest.grows hgrows).templates
    intro op hop
    rcases ih (hs.congr (hdisciplined.count_child hframe hrun))
      (fun m hm => hns m (by simp [hm])) op hop with hop | hop
    · replace hop : op ∈ k.block.allOperations := k.settled_allOperations isFragment ▸ hop
      exact (hk op hop).imp_right fun hop b hb => (hop b hb).mono hmore
    · exact .inr hop

/-- A visit shows blocks in scope, if the visits inside do. -/
theorem Visits.scopes (hvisits : ∀ names, c.session.Binds names →
    Visits o names (visit o depth) c c') : Scopes o root c c' := by
  intro names f hs hf hholds
  cases (hvisits names hs).proceeds with
  | absorbed | text | comment | dropped => exact fun op hop => .inl hop
  | @created _ _ op _ hcreates =>
    obtain ⟨_, -, hmakes⟩ := hcreates.makes
    refine hcreates.shows (op.blocks_eq ▸ ?_)
    exact hmakes.scoped hvisit hdisciplined hgrows hs fun r hr => .region hf hholds hr
  | @native e _ xs c₁ c₂ k attributes hbuilds =>
    obtain ⟨ys, hys, hown⟩ := hbuilds.container.allots
    obtain ⟨ops, hinsert, hops⟩ := c₂.insertAll_allots
    have hplain : ∀ x ∈ ops.map Contribution.once ++ xs, x.op.isPlain = true := by
      intro x hx
      rcases List.mem_append.mp hx with hx | hx
      · obtain ⟨op, hop, rfl⟩ := List.mem_map.mp hx
        exact Operation.isPlain_of_created? (hops op hop)
      · exact Operation.isPlain_of_isOwn (hbuilds.isOwn x hx)
    have hs₁ : c₁.session.Binds names := hs.congr hbuilds.container.count_eq
    have hchildren : ∀ n ∈ e.children, (Node.fragment f).Holds n := by
      intro n hmem
      rw [hbuilds.node] at hholds
      exact hholds.child (by simp [Node.isOpen, hbuilds.kind]) hmem
    have hmore : c₂.session.templates <+:
        ((k.closed e).place e (openingTag o e attributes ++ k.content e)).session.templates :=
      ((c₂.insertAll_grows : Grows o _ _).trans ((hbuilds.work.grows hbuilds.isOwn).trans
        (k.place_grows e _))).templates
    intro op hop
    rw [k.place_block] at hop
    rcases (hinsert.block.trans (.of_foldl hbuilds.work.block_eq)).shows hplain op hop with hop | hop
    · rcases hbuilds.walk.scopes hvisit hdisciplined hgrows hs₁ hf hchildren op hop with hop | hop
      · exact hys.block.shows (fun y hy => Operation.isPlain_of_isOwn (hown y hy).1) op hop
      · exact .inr fun p hp => (hop p hp).mono hmore
    · exact .inr hop
  | @fragment g c' hn hwalk =>
    have hchildren : ∀ n ∈ g.children, (Node.fragment f).Holds n := by
      intro n hmem
      rw [hn] at hholds
      exact hholds.child rfl hmem
    exact hwalk.scopes hvisit hdisciplined hgrows hs hf hchildren

end Making

/-! ## Compiled templates -/

theorem visit_scopes (hpasses : o.passes = Pass.all) (depth : Nat) :
    Ensures (visit o depth) (Scopes o root) := by
  refine visit_induction hpasses (fun depth ih c c' _ hvisits => ?_) depth
  exact Visits.scopes ih (visit_disciplined hpasses depth) (visit_grows hpasses depth) hvisits

/-- Every block of a compiled template is made of a fragment of the template, with the names of the
loops around it in scope. -/
theorem compile_scoped {r : Compiled} (hpasses : o.passes = Pass.all)
    (h : compile o root = .ok r) :
    ∀ b ∈ r.block.blocks, Scoped o (o.prepare root) r.templates b := by
  obtain ⟨depth, s, hmakes, htemplates⟩ := compile_ok hpasses h
  rw [htemplates]
  exact hmakes.scoped (visit_scopes hpasses depth) Session.binds_empty .root

end TemplateCompiler
