import TemplateCompiler.Proofs.Texts.Rules

/-! # Visits keep texts

A run of texts that begins with an interpolation is created as one text, and the children after the
interpolation are left alone. What has been taken over so far is all that a walk has to remember.
-/

namespace TemplateCompiler

open Template (Branches EachBlock Element Fragment IfBlock Node)
open Transform

/-! ## One child -/

section Child

variable {o : Options} {names : List String} {visit : Transform Unit} {c k : Context}

/-- What a visit does about the text of its node, and about what its parent has taken over. -/
inductive TextStep (o : Options) (names : List String) (c : Context) : Context → Prop
  | apart {k : Context} : c.node.isTextLike = false → k.parent = c.parent → TextStep o names c k
  | absorbed :
      c.node.isTextLike = true → c.isAbsorbed = true →
      TextStep o names c (c.flag { nonTemplate := true })
  | text {t : Template.TextNode} :
      c.node = .text t → c.isAbsorbed = false →
      TextStep o names c (c.write (Text.escapeText t.data))
  | run {code : Template.Code} {frame : Frame} {values : List Expression} :
      c.node = .interpolation code → c.parent = some frame → c.isAbsorbed = false →
      List.Forall₂ (Shows o names) (c.textRun frame) values →
      TextStep o names c
        (({ c with
            parent := some (frame.consumeUntil (c.index + (c.textRun frame).length))
          }.referenced.flag .inserted).add
          (.once (.createText c.ownId values !(values.all (·.isConstant)))))

theorem Visits.textStep (h : Visits o names visit c k) : TextStep o names c k := by
  cases h with
  | absorbed habsorbed habsorbable =>
    by_cases hlike : c.node.isTextLike = true
    · exact .absorbed hlike habsorbed
    · exact .apart (by simpa using hlike) rfl
  | text hn habsorbed => exact .text hn habsorbed
  | interpolation hn hparent habsorbed hvalues => exact .run hn hparent habsorbed hvalues
  | comment hn | dropped hn | condition hn | loop hn => exact .apart (by rw [hn]; rfl) rfl
  | outlet hn _ _ _ _ hwork => exact .apart (by rw [hn]; rfl) hwork.samePlace.parent
  | component hn _ _ _ _ _ hwork => exact .apart (by rw [hn]; rfl) hwork.samePlace.parent
  | @native e c₁ c₂ k' _ _ _ hn hkind hcontainer hwalk hprops hwork hxs =>
    have hbuilds : Builds o _ _ e _ _ c c₁ c₂ k' :=
      ⟨hn, hkind, hcontainer, hwalk, hprops, hwork, hxs⟩
    refine .apart (by rw [hn]; rfl) ?_
    rw [Context.place_parent, Context.closed_parent, hbuilds.unplaced.parent]
  | fragment hn hwalk => exact .apart (by rw [hn]; rfl) hwalk.samePlace.parent

theorem visit_textStep (hpasses : o.passes = Pass.all) {depth : Nat} (hc : c.Fresh)
    (hb : c.session.Binds names) (h : TemplateCompiler.visit o depth c = .ok () k) :
    TextStep o names c k := by
  cases depth with
  | zero => exact nomatch h
  | succ depth => exact (visits_of_ok hpasses (visit_disciplined hpasses depth) hc hb h).textStep

/-- A node that is taken over is not among those that are still to be shown. -/
theorem drop_of_taken {i u : Nat} (h : i < u) (n : Node) (ns : List Node) :
    (n :: ns).drop (u - i) = ns.drop (u - (i + 1)) := by
  rw [show u - i = u - (i + 1) + 1 by omega, List.drop_succ_cons]

theorem drop_of_free {i u : Nat} (h : ¬i < u) (ns : List Node) : ns.drop (u - i) = ns := by
  rw [show u - i = 0 by omega, List.drop_zero]

/-- The nodes of a run come first among the text-like ones. -/
theorem filter_textRun (ns : List Node) :
    ns.filter (·.isTextLike) = ns.takeWhile (·.isTextLike) ++
      (ns.drop (ns.takeWhile (·.isTextLike)).length).filter (·.isTextLike) := by
  have hrun : (ns.takeWhile (·.isTextLike)).filter (·.isTextLike) = ns.takeWhile (·.isTextLike) :=
    List.filter_eq_self.mpr (List.all_eq_true.mp List.all_takeWhile)
  have hrest : ns.drop (ns.takeWhile (·.isTextLike)).length = ns.dropWhile (·.isTextLike) := by
    conv => lhs; arg 2; rw [← List.takeWhile_append_dropWhile (p := (·.isTextLike)) (l := ns)]
    exact List.drop_left
  calc ns.filter (·.isTextLike)
      = (ns.takeWhile (·.isTextLike) ++ ns.dropWhile (·.isTextLike)).filter (·.isTextLike) := by
        rw [List.takeWhile_append_dropWhile]
    _ = _ := by rw [List.filter_append, hrun, hrest]

/-- The parts that a text-like child shows itself, from those that the children before have taken
over. -/
theorem TextStep.carries {ops : List Operation} {templates : List String} {q : Piece}
    {frame frame' : Frame} {rest : List Node} {parts : List TextPart} (hc : c.Fresh)
    (hkeeps : Keeps o names c k) (hembeds : Embeds c k ops templates q)
    (hframe : c.parent = some frame) (hcovers : frame.Covers c.index (c.node :: rest))
    (hframe' : k.parent = some frame')
    (hparts : List.Forall₂ (Renders o names)
      ((rest.drop (frame'.consumedUntil - (c.index + 1))).filter (·.isTextLike)) parts)
    (h : TextStep o names c k) :
    ∃ own, Carries ops c.node q own ∧ List.Forall₂ (Renders o names)
      (((c.node :: rest).drop (frame.consumedUntil - c.index)).filter (·.isTextLike))
      (own ++ parts) := by
  have habsorbed : c.isAbsorbed = decide (c.index < frame.consumedUntil) := by
    rw [Context.isAbsorbed, hframe, Option.any_some]
  have hwithin : ∀ x, q.info.id = some x → c.session.Gives k.session x ∨ q.info.id = some x :=
    fun _ hx => .inr hx
  -- A child that is left alone or is markup adds no operation.
  have hidle : k.block = c.block → textsMade ops q.info.id = [] := fun hblock =>
    (hembeds.among [] (.of_same hblock)).textsMade_eq_nil hwithin (by simp)
  cases h with
  | apart hother hparent =>
    refine ⟨[], .other hother (hkeeps.apart _ _ _ hembeds hother), ?_⟩
    obtain rfl : frame = frame' := by simpa [hparent, hframe] using hframe'
    rw [List.nil_append]
    by_cases hlt : c.index < frame.consumedUntil
    · rwa [drop_of_taken hlt]
    · rw [drop_of_free hlt, List.filter_cons_of_neg (by simp [hother])]
      rwa [drop_of_free (by omega)] at hparts
  | absorbed hlike htaken =>
    have hlt : c.index < frame.consumedUntil := by simpa [habsorbed] using htaken
    obtain rfl : frame = frame' := by simpa [Context.flag, hframe] using hframe'
    obtain ⟨hnon, hinsert⟩ := hembeds.stands.flags hc.removed
      (by simp [Context.flag, Flags.union, hc.insert])
    refine ⟨[], .absorbed hlike ?_ hinsert ?_ ?_ ?_, ?_⟩
    · simp [hnon, Context.flag, Flags.union]
    · rcases hembeds.stands.markup with hmarkup | ⟨hinserted, -⟩
      · exact hmarkup.trans hc.template
      · simp [Context.flag, Flags.union, hc.insert] at hinserted
    · exact (hembeds.stands.template hc.template).trans hc.markup
    · obtain ⟨others, hperm, hothers⟩ := hembeds.among [] (.of_same rfl)
      exact fun op hop x hx => hothers op (hperm.subset hop) x (.inr hx)
    · rwa [List.nil_append, drop_of_taken hlt]
  | @text t hn hfree =>
    have hlt : ¬c.index < frame.consumedUntil := by simpa [habsorbed] using hfree
    obtain rfl : frame = frame' := by simpa [Context.write, hframe] using hframe'
    have hmarkup : q.markup = Text.escapeText t.data := by
      rcases hembeds.stands.markup with hmarkup | ⟨hinserted, -⟩
      · simpa [Context.write, hc.template] using hmarkup
      · simp [Context.write, hc.insert] at hinserted
    have hnon := (hembeds.stands.flags hc.removed hc.insert).1.trans hc.nonTemplate
    rw [hn]
    refine ⟨_, .written hnon (hidle rfl), ?_⟩
    rw [drop_of_free hlt, List.filter_cons_of_pos rfl, hmarkup]
    rw [drop_of_free (by omega)] at hparts
    exact .cons (.data t) hparts
  | @run code f values hn hparent hfree hvalues =>
    obtain rfl : f = frame := by simpa [hparent] using hframe
    have hlt : ¬c.index < f.consumedUntil := by simpa [habsorbed] using hfree
    have hrun : c.textRun f = (c.node :: rest).takeWhile (·.isTextLike) := by
      rw [Context.textRun, hcovers.rest]
    obtain rfl : f.consumeUntil (c.index + (c.textRun f).length) = frame' := by
      simpa [Context.add, Context.flag, Context.referenced] using hframe'
    -- The operation that creates the text is the only one of the visit.
    have hmade : textsMade ops q.info.id = [values] := by
      have hown : q.info.id = some c.ownId := hembeds.stands.later.id _ (Context.referenced_id _)
      rw [hown]
      have hperm := (hembeds.among _ (.of_add c
        (.once (.createText c.ownId values !(values.all (·.isConstant)))) rfl)).textsMade_perm
        (.inr hown)
      rw [← List.perm_singleton]
      simpa [textsMade, Operation.textMade?, Contribution.op] using hperm
    have hmarkup : q.markup = "" ∨ q.markup = "<!>" := by
      rcases hembeds.stands.markup with hmarkup | ⟨-, hmarkup⟩
      · exact .inl (hmarkup.trans hc.template)
      · exact .inr hmarkup
    have hfirst : c.node.isTextLike = true := by rw [hn]; rfl
    have hrest : rest.drop ((f.consumeUntil (c.index + (c.textRun f).length)).consumedUntil -
        (c.index + 1)) = (c.node :: rest).drop (c.textRun f).length := by
      rw [hrun, List.takeWhile_cons_of_pos hfirst, List.length_cons, List.drop_succ_cons]
      congr 1
      simp only [Frame.consumeUntil]
      omega
    rw [hrest] at hparts
    rw [drop_of_free hlt, filter_textRun, ← hrun]
    refine ⟨values.map .value, ?_, List.rel_append (renders_of_shows hvalues) hparts⟩
    rw [hn]
    exact .made hmade hmarkup

end Child

/-! ## Settled children -/

/-- The child with or without a placeholder before it. -/
structure Piece.Becomes (d q : Piece) : Prop where
  replaces : d.info.Replaces q.info
  same : d.info.flags.insert = false → q = d
  markup : q.markup = d.markup ∨ d.info.flags.insert = true ∧ q.markup = "<!>"

theorem Piece.Becomes.refl (d : Piece) : d.Becomes d := ⟨⟨rfl, rfl, rfl, rfl⟩, fun _ => rfl, .inl rfl⟩

section Settled

variable {k : Context} {isFragment : Bool} {q : Piece}

theorem Context.settled_flags (k : Context) (isFragment : Bool) :
    (k.settled isFragment).dynamic.flags.insert = k.dynamic.flags.insert ∧
      (k.removed = false →
        (k.settled isFragment).dynamic.flags.nonTemplate = k.dynamic.flags.nonTemplate) := by
  have hreferenced : k.referenced.dynamic.flags.insert = k.dynamic.flags.insert ∧
      k.referenced.dynamic.flags.nonTemplate = k.dynamic.flags.nonTemplate := by
    cases hid : k.dynamic.id <;> simp [referenced, hid, Flags.union]
  unfold settled returned registered
  dsimp only
  split
  · rename_i hremoved
    exact ⟨by simp [flag, Flags.union], by simp [hremoved]⟩
  · split
    · split <;> split <;> exact ⟨hreferenced.1, fun _ => hreferenced.2⟩
    · exact ⟨rfl, fun _ => rfl⟩

/-- The markup of a child of a fragment is registered. -/
theorem Context.settled_registers (k : Context) (hremoved : k.removed = false)
    (htemplate : k.template ≠ "") :
    ∃ i, (k.settled true).dynamic.template = some i ∧
      (k.settled true).session.templates[i]? = some k.template := by
  have hempty : k.referenced.template.isEmpty = false := by
    simpa [Context.referenced] using htemplate
  have hregistered : k.returned.dynamic = k.referenced.registered.dynamic ∧
      k.returned.session = k.referenced.registered.session := by
    unfold returned
    dsimp only
    split <;> exact ⟨rfl, rfl⟩
  rw [settled, hremoved, if_neg (by simp), if_pos rfl, hregistered.1, hregistered.2, registered,
    hempty]
  exact ⟨_, rfl, Session.getElem?_addTemplate _ _⟩

theorem Stands.of_settled
    (h : Piece.Becomes ⟨(k.settled isFragment).dynamic, k.template⟩ q) : Stands k q where
  later := (k.settled_later isFragment).trans
    ⟨h.replaces.children, fun _ hi => h.replaces.id.trans hi⟩
  fresh := by
    intro hid x hx
    rw [h.replaces.id] at hx
    rcases (k.settled_allots isFragment).id x hx with hown | hgives
    · simp [hid] at hown
    · exact hgives.1
  markup := by
    rw [← (k.settled_flags isFragment).1]
    exact h.markup
  template := by
    intro hempty
    rw [h.replaces.template]
    rcases k.settled_markup isFragment with hsame | ⟨-, htemplate, -⟩
    · exact hsame
    · exact absurd hempty htemplate
  flags := by
    intro hremoved hinsert
    obtain ⟨hsame, hnon⟩ := k.settled_flags isFragment
    rw [h.same (hsame.trans hinsert)]
    exact ⟨hnon hremoved, hsame.trans hinsert⟩

end Settled

/-! ## Walks -/

/-- A walk over children keeps their texts, whatever block it is part of. Those that are taken over
when it begins are accounted for elsewhere. -/
structure WalkKeeps (o : Options) (isFragment : Bool) (frame : Frame) (i : Nat) (ns : List Node)
    (c c' : Context) (ds : List Piece) : Prop where
  children : c'.dynamic.children = c.dynamic.children ++ ds.map (·.info)
  pieces : isFragment = false →
    c'.childrenTemplate = c.childrenTemplate ++ ds.map (·.markup)
  registered : isFragment = true → ∀ d ∈ ds, d.markup ≠ "" →
    ∃ j, d.info.template = some j ∧ c'.session.templates[j]? = some d.markup
  kept : ∀ names ops templates qs, c.session.Binds names →
    (∀ new, c.Adds c' new → Among ops new (c.session.Gives c'.session)) →
    c'.session.templates <+: templates → List.Forall₂ Piece.Becomes ds qs →
    (∃ parts, CarriesAll ops ns qs parts ∧ List.Forall₂ (Renders o names)
      ((ns.drop (frame.consumedUntil - i)).filter (·.isTextLike)) parts) ∧
    ∀ n q, (n, q) ∈ ns.zip qs → KeepsText o templates names ops n q

theorem getElem?_of_prefix {templates templates' : List String} {i : Nat} {text : String}
    (h : templates <+: templates') (hi : templates[i]? = some text) :
    templates'[i]? = some text := by
  obtain ⟨more, rfl⟩ := h
  obtain ⟨hlt, -⟩ := List.getElem?_eq_some_iff.mp hi
  exact (List.getElem?_append_left hlt).trans hi

section Walk

variable {o : Options} {isFragment : Bool} {c c' : Context}

theorem VisitsChildren.keeps (hpasses : o.passes = Pass.all) {depth : Nat} {frame : Frame} {i : Nat}
    {ns : List Node}
    (hvisit : Ensures (visit o depth) fun c c' =>
      c.IsNumbered → ∀ names, c.session.Binds names → Keeps o names c c')
    (h : VisitsChildren (visit o depth) isFragment frame i ns c c') :
    ∃ ds, WalkKeeps o isFragment frame i ns c c' ds := by
  induction h with
  | nil =>
    refine ⟨[], by simp, by simp, by simp, ?_⟩
    rintro names ops templates _ _ _ _ ⟨⟩
    exact ⟨⟨[], .nil, by simp⟩, by simp⟩
  | @cons frame frame' i n ns c k c' hframe hrun hparent hrest ih =>
    obtain ⟨ds, hds⟩ := ih
    have hfresh := hframe.child_fresh c
    obtain ⟨xs, hxs⟩ := visit_allots hpasses depth _ _ hfresh hrun
    obtain ⟨ys, hys⟩ := hrest.allots (visit_conserves hpasses depth) (visit_allots hpasses depth)
    have hsettled := k.settled_allots isFragment
    have hle : k.session.nextId ≤ (k.settled isFragment).session.nextId := hsettled.nextId
    have hle' : (k.settled isFragment).session.nextId ≤ c'.session.nextId := hys.nextId
    have hgrows := visit_grows hpasses depth
    have hmore : k.session.templates <+: c'.session.templates :=
      (k.settled_grows isFragment : Grows o k _).templates.trans (hrest.grows hgrows).templates
    refine ⟨⟨(k.settled isFragment).dynamic, k.template⟩ :: ds, ?_, ?_, ?_, ?_⟩
    · rw [hds.children]
      simp [Context.adopt]
    · rintro rfl
      rw [hds.pieces rfl]
      simp [Context.adopt, Context.settled_place.2]
    · rintro rfl d hd hmarkup
      rcases List.mem_cons.mp hd with rfl | hd
      · have hremoved : k.removed = false := by
          by_contra hremoved
          rw [Bool.not_eq_false] at hremoved
          exact hmarkup ((visit_records hpasses depth _ _ hfresh hrun).apart (.inl hremoved))
        obtain ⟨j, hj, htext⟩ := k.settled_registers hremoved hmarkup
        exact ⟨j, hj, getElem?_of_prefix (hrest.grows hgrows).templates htext⟩
      · exact hds.registered rfl d hd hmarkup
    · intro names ops templates qs hb hamong htemplates hqs
      obtain _ | @⟨_, q, _, qs, hq, hqs⟩ := hqs
      -- The operations of the walk are those of the child and those of the other children.
      have hadds : c.Adds c' (ys.map (·.op) ++ xs.map (·.op)) := by
        have hchild : c.Adds (c.adopt isFragment (k.settled isFragment)) (xs.map (·.op)) := by
          have hk : (c.child n i frame).Adds k (xs.map (·.op)) := hxs.adds
          unfold Context.Adds at hk ⊢
          exact k.settled_allOperations isFragment ▸ hk
        exact hchild.trans hys.adds
      have hall := hamong _ hadds
      have hchildren : ∀ op ∈ ys.map (·.op), ∀ x, op.subject? = some x →
          (k.settled isFragment).session.Gives c'.session x := by
        intro op hop x hx
        obtain ⟨y, hy, rfl⟩ := List.mem_map.mp hop
        exact hys.within y hy x (Operation.mem_named_of_subject? hx)
      have hhead : ∀ x, (c.child n i frame).session.Gives k.session x ∨ q.info.id = some x →
          c.session.Gives (k.settled isFragment).session x := by
        rintro x (hx | hx)
        · exact hx.mono (Nat.le_refl _) hle
        · rw [hq.replaces.id] at hx
          exact ((hxs.trans hsettled).id x hx).resolve_left fun h => by cases h
      have hembeds : Embeds (c.child n i frame) k ops templates q := by
        refine ⟨fun new hnew => ?_, hmore.trans htemplates, .of_settled hq⟩
        refine Among.congr (hall.right ?_ ?_) (hxs.adds.perm hnew)
        · exact fun x hx => (hhead x hx).mono (Nat.le_refl _) hle'
        · intro op hop x hx hsubject
          exact absurd (hhead x hx).2 (Nat.not_lt.mpr (hchildren op hop x hsubject).1)
      have hothers : ∀ new, (c.adopt isFragment (k.settled isFragment)).Adds c' new →
          Among ops new ((k.settled isFragment).session.Gives c'.session) := by
        intro new hnew
        refine Among.congr (hall.left ?_ ?_) (hys.adds.perm hnew)
        · exact fun x hx => hx.mono (Nat.le_trans hxs.nextId hle) (Nat.le_refl _)
        · intro op hop x hx hsubject
          have hgiven := hxs.gives rfl rfl hxs.adds op hop x hsubject
          exact absurd (Nat.lt_of_lt_of_le hgiven.2 hle) (Nat.not_lt.mpr hx.1)
      have hnumbered : (c.child n i frame).IsNumbered := by
        intro _ hx
        cases hx
      have hkeeps := hvisit _ _ hfresh hrun hnumbered names hb
      obtain ⟨⟨parts, hcarries, hparts⟩, hinside⟩ :=
        hds.kept names ops templates qs
          (hb.congr ((visit_disciplined hpasses depth).count_child hframe hrun)) hothers htemplates hqs
      obtain ⟨own, hown, hrenders⟩ := TextStep.carries hfresh hkeeps hembeds rfl hframe hparent
        hparts (visit_textStep hpasses hfresh hb hrun)
      refine ⟨⟨own ++ parts, .cons hown hcarries, hrenders⟩, ?_⟩
      intro m p hmem
      rw [List.zip_cons_cons] at hmem
      rcases List.mem_cons.mp hmem with heq | hmem
      · obtain ⟨rfl, rfl⟩ := Prod.mk.inj heq
        exact hkeeps.inside ops templates _ hembeds
      · exact hinside m p hmem

end Walk

/-! ## Blocks -/

/-- The block shows the fragment with all its texts. -/
structure BlockKeeps (o : Options) (templates names : List String) (f : Fragment) (b : Block) :
    Prop where
  node : b.node = .fragment f
  owns : b.OwnsTexts
  keeps : KeepsText o templates names b.allOperations (.fragment f) ⟨b.dynamic, ""⟩

section Making

variable {o : Options} {names templates : List String} {depth : Nat} {s s' : Session}
  (hpasses : o.passes = Pass.all)
  (hvisit : Ensures (visit o depth) fun c c' =>
    c.IsNumbered → ∀ names, c.session.Binds names → Keeps o names c c')

include hpasses hvisit

theorem MakesBlock.keeps {f : Fragment} {b : Block} (hs : s.Binds names)
    (h : MakesBlock (visit o depth) (.fragment f) s b s') (htemplates : s'.templates <+: templates) :
    BlockKeeps o templates names f b := by
  obtain ⟨k, hrun, rfl, rfl⟩ := h
  have hfresh := Context.newBlock_fresh f s
  have hid : (Context.newBlock (.fragment f) s).dynamic.id = some s.nextId := rfl
  have hnumbered : (Context.newBlock (.fragment f) s).IsNumbered := by
    intro x hx
    obtain rfl : s.nextId = x := Option.some.inj (hid.symm.trans hx)
    exact Nat.lt_succ_self _
  obtain ⟨d, hwalk⟩ := visit_fragment_ok hpasses hfresh rfl hrun
  have hadds : (Context.newBlock (.fragment f) s).Adds k k.block.allOperations := by
    rw [Context.Adds]
    exact (List.append_nil _).symm ▸ .refl _
  refine ⟨hwalk.samePlace.node, ?_, ?_⟩
  · intro op hop x htext
    rcases (visit_names hpasses depth _ _ hfresh hrun).named op hop with hold | hnames
    · cases hold
    · apply hnames.named x
      apply Operation.mem_named_of_subject?
      rcases htext with htext | htext <;>
        obtain ⟨values, hvalues⟩ := Option.isSome_iff_exists.mp htext
      · exact (Operation.subject?_of_textMade? hvalues).1
      · exact Operation.subject?_of_textSet? hvalues
  · refine (hvisit _ _ hfresh hrun hnumbered names (hs.newBlock f)).inside _ templates _
      ⟨fun new hnew => (Among.all _ _).congr (hadds.perm hnew), htemplates, ?_⟩
    have htemplate : k.template = "" := hwalk.samePlace.template.trans hfresh.template
    refine ⟨.refl _, ?_, .inl htemplate.symm, fun _ => rfl, fun _ hinsert => ⟨rfl, hinsert⟩⟩
    intro hnone x hx
    exact absurd (hnone.symm.trans hx) (by simp)

theorem Makes.keeps {rs : List (List String × Fragment)} {is : List Nat} {bs : List Block}
    (hs : s.Binds names) (h : Makes (visit o depth) s rs is bs s')
    (htemplates : s'.templates <+: templates) :
    List.Forall₂ (fun r b => BlockKeeps o templates (r.1 ++ names) r.2 b) rs bs := by
  have hdisciplined := visit_disciplined hpasses depth
  have hgrows := visit_grows hpasses depth
  induction h with
  | nil => exact .nil
  | id _ ih => exact ih hs htemplates
  | note hnotes _ ih =>
    exact ih (hs.congr fun name => by rw [Session.count, hnotes.identifiers, Session.count])
      htemplates
  | block hb hrest ih =>
    have hmore := (hrest.makesAll hgrows).templates.trans htemplates
    exact .cons (hb.keeps hpasses hvisit hs hmore)
      (ih (hs.congr (hb.count_eq hdisciplined)) htemplates)
  | @loop new _ _ _ s₁ _ _ _ _ hb hrest ih =>
    have hleave : (s₁.leaveLoop new).templates = s₁.templates := by rw [Session.leaveLoop_eq]
    have hmore := hleave ▸ (hrest.makesAll hgrows).templates.trans htemplates
    exact .cons (hb.keeps hpasses hvisit (hs.enterLoop new) hmore)
      (ih (hs.congr (Session.count_leaveLoop (hb.count_eq hdisciplined))) htemplates)

end Making

end TemplateCompiler
