import TemplateCompiler.Proofs.Insertion.Gaps

/-! # Where children are found

The run time finds a child of an element by its position among those that are part of the markup.
When the markup is read, the child or its placeholder is at this position, if no two texts of the
element meet.
-/

namespace TemplateCompiler.Markup

open Template (Attribute Element Fragment Node)
open Transform

variable {d : NodeInfo} {e : Element}

/-! ## Templates -/

/-- Among the children, two texts are apart: something that is not left out comes between them.
`afterText` says that a text comes before. -/
def textsApart (o : Options) (afterText : Bool) : List Node → Bool
  | [] => true
  | n :: ns =>
    if o.drops n then textsApart o afterText ns
    else !(afterText && n.isText) && textsApart o n.isText ns

/-- The name of an element does not begin like a comment or a placeholder. -/
def isElementName (s : String) : Bool := isName s && s.toList.head? != some '!'

/-- The attribute can be read, if it is part of markup. -/
def isReadableAttribute : Attribute → Bool
  | .plain name _ _ => isName name
  | _ => true

/-- The children of the node can be told apart in markup. -/
def isSound (o : Options) : Node → Bool
  | .text t => !t.data.isEmpty
  | .comment data _ => isCommentData data
  | .fragment _ => false
  | .element e =>
    e.kind != .regular ||
      (isElementName e.name && e.attributes.all isReadableAttribute &&
        (!Template.isVoidTag e.name || e.children.isEmpty) && textsApart o false e.children)
  | _ => true

variable {o : Options}

/-- Condensing leaves out texts only. -/
theorem textsApart_condense {afterText : Bool} {ns : List Node}
    (h : textsApart o afterText ns = true) (before : Option Node) {afterText' : Bool}
    (hafter : afterText' = true → afterText = true) :
    textsApart o afterText' (Template.condenseNodes before ns) = true := by
  induction ns generalizing afterText before afterText' with
  | nil => rfl
  | cons n ns ih =>
    have hdrops : o.drops n.condense = o.drops n := by cases n <;> rfl
    have htext : n.condense.isText = n.isText := by cases n <;> rfl
    rw [Template.condenseNodes]
    split
    · rename_i hlayout
      have hn : n.isText = true := by
        cases n <;> simp_all [Template.isLayout, Node.isText]
      have hkept : o.drops n = false := by
        cases n <;> simp_all [Options.drops, Node.isText, Node.isComment]
      simp only [textsApart, hkept, hn, Bool.false_eq_true, ite_false, Bool.and_eq_true] at h
      exact ih h.2 (some n) fun _ => rfl
    · rw [textsApart, hdrops, htext]
      rw [textsApart] at h
      split at h
      · rename_i hleft
        rw [if_pos hleft]
        exact ih h (some n) hafter
      · rename_i hkept
        rw [if_neg hkept]
        simp only [Bool.and_eq_true, Bool.not_eq_true', Bool.and_eq_false_iff] at h ⊢
        refine ⟨?_, ih h.2 (some n) id⟩
        rcases h.1 with hfalse | hfalse
        · exact .inl (Bool.eq_false_iff.mpr fun htrue => by simp [hafter htrue] at hfalse)
        · exact .inr hfalse

theorem isSound_condense {n : Node} (h : isSound o n = true) : isSound o n.condense = true := by
  cases n with
  | text t =>
    rw [Node.condense, isSound, Template.isEmpty_condense]
    exact h
  | element e =>
    obtain ⟨name, kind, attributes, children, location⟩ := e
    rw [Node.condense, Element.condense]
    simp only [isSound, Bool.or_eq_true, Bool.and_eq_true] at h ⊢
    refine h.imp_right fun hsound => ⟨⟨hsound.1.1, ?_⟩, ?_⟩
    · refine hsound.1.2.imp_right fun hempty => ?_
      rw [List.isEmpty_iff] at hempty
      subst hempty
      split <;> rfl
    · split
      · exact hsound.2
      · exact textsApart_condense hsound.2 none id
  | fragment f => simp [isSound] at h
  | comment data location => exact h
  | _ => rfl

/-- Texts that are apart do not come right after one another, left-out nodes aside. -/
theorem not_drops_between {afterText : Bool} {ns : List Node} (h : textsApart o afterText ns = true)
    {i j : Nat} {x y : Node} (hij : i < j) (hx : ns[i]? = some x) (hy : ns[j]? = some y)
    (hxtext : x.isText = true) (hytext : y.isText = true) :
    ¬∀ l m, i < l → l < j → ns[l]? = some m → o.drops m = true := by
  have htext : ∀ {n : Node}, n.isText = true → o.drops n = false := by
    intro n hn
    cases n <;> simp_all [Options.drops, Node.isText, Node.isComment]
  -- After a text, the first text cannot come before another node.
  have hfirst : ∀ {ns : List Node} {j : Nat} {y : Node}, textsApart o true ns = true →
      ns[j]? = some y → y.isText = true →
      ¬∀ l m, l < j → ns[l]? = some m → o.drops m = true := by
    intro ns
    induction ns with
    | nil => simp
    | cons n ns ih =>
      intro j y h hy hytext hall
      cases j with
      | zero =>
        obtain rfl : n = y := by simpa using hy
        simp [textsApart, htext hytext, hytext] at h
      | succ j =>
        rw [textsApart, if_pos (hall 0 n (Nat.succ_pos j) rfl)] at h
        exact ih h hy hytext fun l m hl hm => hall (l + 1) m (by omega) hm
  induction ns generalizing afterText i j with
  | nil => simp at hx
  | cons n ns ih =>
    intro hall
    obtain ⟨j, rfl⟩ := Nat.exists_eq_add_one.mpr (Nat.zero_lt_of_lt hij)
    cases i with
    | zero =>
      obtain rfl : n = x := by simpa using hx
      simp only [textsApart, htext hxtext, hxtext, Bool.false_eq_true, ite_false,
        Bool.and_eq_true] at h
      exact hfirst h.2 hy hytext fun l m hl hm =>
        hall (l + 1) m (Nat.succ_pos l) (by omega) hm
    | succ i =>
      rw [textsApart] at h
      have hrest : ∃ afterText', textsApart o afterText' ns = true := by
        split at h
        · exact ⟨_, h⟩
        · rw [Bool.and_eq_true] at h
          exact ⟨_, h.2⟩
      obtain ⟨afterText', hrest⟩ := hrest
      refine ih hrest (by omega) hx hy fun l m hil hlj hm => ?_
      exact hall (l + 1) m (by omega) (by omega) hm

/-! ## Texts that meet -/

/-- Two texts of the children come next to each other in the markup. -/
def TextsMeet (ns : List Node) (ks : List NodeInfo) : Prop :=
  ∃ (i j : Nat) (x y : Node) (kx ky : NodeInfo), i < j ∧ ns[i]? = some x ∧ ns[j]? = some y ∧
    ks[i]? = some kx ∧ ks[j]? = some ky ∧ IsTextPiece x kx ∧ IsTextPiece y ky ∧
    ∀ (l : Nat) k, i < l → l < j → ks[l]? = some k → k.flags.nonTemplate = true

/-- What comes first in the markup is a text. -/
def TextLeads (ns : List Node) (ks : List NodeInfo) : Prop :=
  ∃ (j : Nat) (y : Node) (ky : NodeInfo), ns[j]? = some y ∧ ks[j]? = some ky ∧ IsTextPiece y ky ∧
    ∀ (l : Nat) k, l < j → ks[l]? = some k → k.flags.nonTemplate = true

section Meeting

variable {n : Node} {k : NodeInfo} {ns : List Node} {ks : List NodeInfo}

theorem TextsMeet.cons (h : TextsMeet ns ks) : TextsMeet (n :: ns) (k :: ks) := by
  obtain ⟨i, j, x, y, kx, ky, hij, hx, hy, hkx, hky, hxtext, hytext, hgap⟩ := h
  refine ⟨i + 1, j + 1, x, y, kx, ky, by omega, hx, hy, hkx, hky, hxtext, hytext, ?_⟩
  intro l k' hil hlj hk'
  obtain ⟨l, rfl⟩ := Nat.exists_eq_add_one.mpr (Nat.zero_lt_of_lt hil)
  exact hgap l k' (by omega) (by omega) hk'

theorem TextLeads.cons (h : TextLeads ns ks) (hk : k.flags.nonTemplate = true) :
    TextLeads (n :: ns) (k :: ks) := by
  obtain ⟨j, y, ky, hy, hky, htext, hgap⟩ := h
  refine ⟨j + 1, y, ky, hy, hky, htext, fun l k' hl hk' => ?_⟩
  cases l with
  | zero =>
    obtain rfl : k = k' := by simpa using hk'
    exact hk
  | succ l => exact hgap l k' (by omega) hk'

theorem TextLeads.head (h : IsTextPiece n k) : TextLeads (n :: ns) (k :: ks) :=
  ⟨0, n, k, rfl, rfl, h, by simp⟩

theorem TextLeads.meets (h : TextLeads ns ks) (hn : IsTextPiece n k) :
    TextsMeet (n :: ns) (k :: ks) := by
  obtain ⟨j, y, ky, hy, hky, htext, hgap⟩ := h
  refine ⟨0, j + 1, n, y, k, ky, Nat.succ_pos j, rfl, hy, rfl, hky, hn, htext, ?_⟩
  intro l k' hl hlj hk'
  obtain ⟨l, rfl⟩ := Nat.exists_eq_add_one.mpr hl
  exact hgap l k' (by omega) hk'

end Meeting

theorem not_textsMeet (h : Spaced o (.element e) d) (hkind : e.kind = .regular)
    (hapart : textsApart o false e.children = true) : ¬TextsMeet e.children d.children := by
  rintro ⟨i, j, x, y, kx, ky, hij, hx, hy, hkx, hky, hxtext, hytext, hgap⟩
  exact not_drops_between hapart hij hx hy hxtext.1 hytext.1
    (h.texts e rfl hkind i j x y kx ky hij hx hy hkx hky hxtext hytext hgap)

/-! ## Trees of markup -/

/-- Tags without content: those of void elements and placeholders. -/
def isEmptyTag (tag : String) : Bool := tag == "!" || Template.isVoidTag tag

/-- What a placeholder reads as. -/
def placeholder : Tree := .element "!" [] []

mutual

/-- The tree stands for the node. -/
inductive StandsFor : Tree → Node → NodeInfo → Prop
  | text (t : Template.TextNode) (d : NodeInfo) : StandsFor (.text t.data) (.text t) d
  | comment (data : String) (location : Location) (d : NodeInfo) :
      StandsFor (.comment data) (.comment data location) d
  | element {e : Element} {d : NodeInfo} {attributes : List (String × String)}
      {kids : List Tree} :
      AllStandFor kids e.children d.children →
      StandsFor (.element e.name attributes kids) (.element e) d
  /-- None of the children is part of the markup. -/
  | content {e : Element} {d : NodeInfo} {attributes : List (String × String)}
      {kids : List Tree} :
      (∀ k ∈ d.children, k.flags.nonTemplate = true) →
      StandsFor (.element e.name attributes kids) (.element e) d

/-- The trees stand for those of the nodes that are part of the markup, in their order. -/
inductive AllStandFor : List Tree → List Node → List NodeInfo → Prop
  | nil : AllStandFor [] [] []
  | placeholder {n : Node} {k : NodeInfo} {a : Nat} {ts : List Tree} {ns : List Node}
      {ks : List NodeInfo} :
      k.anchor = some a → k.flags.nonTemplate = false → AllStandFor ts ns ks →
      AllStandFor (Markup.placeholder :: ts) (n :: ns) (k :: ks)
  | apart {n : Node} {k : NodeInfo} {ts : List Tree} {ns : List Node} {ks : List NodeInfo} :
      k.flags.nonTemplate = true → AllStandFor ts ns ks → AllStandFor ts (n :: ns) (k :: ks)
  | tree {n : Node} {k : NodeInfo} {t : Tree} {ts : List Tree} {ns : List Node}
      {ks : List NodeInfo} :
      k.anchor = none → k.flags.nonTemplate = false → StandsFor t n k → AllStandFor ts ns ks →
      AllStandFor (t :: ts) (n :: ns) (k :: ks)

end

theorem StandsFor.isText_eq {t : Tree} {n : Node} (h : StandsFor t n d) : t.isText = n.isText := by
  cases h <;> rfl

theorem isTagName_of_isElementName {s : String} (h : isElementName s = true) :
    isTagName s = true ∧ isEmptyTag s = Template.isVoidTag s := by
  simp only [isElementName, Bool.and_eq_true, bne_iff_ne, ne_eq] at h
  obtain ⟨hname, hhead⟩ := h
  refine ⟨?_, ?_⟩
  · rw [isTagName, hname, Bool.true_and, Bool.not_eq_true', Bool.eq_false_iff]
    intro hprefix
    obtain ⟨rest, hrest⟩ := List.isPrefixOf_iff_prefix.mp hprefix
    exact hhead (by simp [← hrest])
  · have hne : s ≠ "!" := by
      rintro rfl
      exact hhead rfl
    rw [isEmptyTag, beq_eq_false_iff_ne.mpr hne, Bool.false_or]

/-- The attributes of an opening tag can be read. -/
theorem openingTag_eq {attributes : String} (h : IsAttributesOf e attributes)
    (he : e.attributes.all isReadableAttribute = true) (hscope : ∀ s ∈ o.scopeId, isName s = true) :
    ∃ pairs, openingTag o e attributes = "<" ++ e.name ++ writeAttributes pairs ++ ">" ∧
      pairs.all (fun a => isName a.1) = true := by
  obtain ⟨pairs, rfl, hpairs⟩ := h
  have hnames : ∀ a ∈ pairs, isName a.1 = true := by
    intro a ha
    obtain ⟨value, location, hmem⟩ := hpairs a ha
    exact List.all_eq_true.mp he _ hmem
  cases hid : o.scopeId with
  | none =>
    refine ⟨pairs, ?_, List.all_eq_true.mpr hnames⟩
    simp [openingTag, hid]
  | some s =>
    refine ⟨(s, "") :: pairs, ?_, ?_⟩
    · simp [openingTag, hid, writeAttributes, attributeMarkup, String.join_cons,
        String.append_assoc]
    · rw [List.all_cons, hscope s (by simp [hid]), Bool.true_and]
      exact List.all_eq_true.mpr hnames

theorem escapeText_append (s t : String) :
    Text.escapeText (s ++ t) = Text.escapeText s ++ Text.escapeText t := by
  simp [Text.escapeText]

/-- Literal content is one text. -/
theorem join_literalMarkup {values : List Expression} {texts : List String}
    (h : literalMarkup? values = some texts) :
    ∃ data, String.join texts = Text.escapeText data := by
  induction values generalizing texts with
  | nil =>
    obtain rfl : [] = texts := by simpa [literalMarkup?] using h
    exact ⟨"", rfl⟩
  | cons v vs ih =>
    simp only [literalMarkup?, List.mapM_cons, Option.bind_eq_bind, Option.bind_eq_some_iff,
      Option.map_eq_some_iff, Option.pure_def, Option.some.injEq] at h
    obtain ⟨_, ⟨s, -, rfl⟩, rest, hrest, rfl⟩ := h
    obtain ⟨data, hdata⟩ := ih hrest
    exact ⟨s ++ data, by rw [String.join_cons, hdata, escapeText_append]⟩

/-- The tree of an element is written as its markup, and can be read if its children can. -/
theorem element_write {kids : List Tree} {attributes : String} (he : isSound o (.element e) = true)
    (hkind : e.kind = .regular) (hattributes : IsAttributesOf e attributes)
    (hscope : ∀ s ∈ o.scopeId, isName s = true) (hkids : areWritable isEmptyTag false kids = true)
    (hvoid : Template.isVoidTag e.name = true → kids = []) :
    ∃ pairs, (Tree.element e.name pairs kids).write isEmptyTag = openingTag o e attributes ++
        (if Template.isVoidTag e.name then ""
          else String.join (kids.map (·.write isEmptyTag)) ++ "</" ++ e.name ++ ">") ∧
      (Tree.element e.name pairs kids).isWritable isEmptyTag = true := by
  simp only [isSound, hkind, bne_self_eq_false, Bool.false_or, Bool.and_eq_true] at he
  obtain ⟨htag, hempty⟩ := isTagName_of_isElementName he.1.1.1
  obtain ⟨pairs, hopening, hpairs⟩ := openingTag_eq hattributes he.1.1.2 hscope
  refine ⟨pairs, ?_, ?_⟩
  · rw [Tree.write_element, hempty, hopening]
  · simp only [Tree.isWritable, htag, hpairs, hempty, hkids, Bool.true_and, Bool.and_true,
      Bool.or_eq_true, Bool.not_eq_true', List.isEmpty_iff]
    cases hv : Template.isVoidTag e.name with
    | true => exact .inr (hvoid hv)
    | false => exact .inl rfl

mutual

/-- Markup reads as a tree that stands for the node. -/
theorem exists_tree (hscope : ∀ s ∈ o.scopeId, isName s = true) {n : Node} {d : NodeInfo}
    {text : String} (h : Spells o n d text) (hspaced : AllSpaced o n d)
    (hn : ∀ m ∈ n.nodes, isSound o m = true) :
    ∃ t, text = t.write isEmptyTag ∧ StandsFor t n d ∧ t.isWritable isEmptyTag = true := by
  have hself : isSound o n = true := hn n (List.mem_cons_self ..)
  match h with
  | .text t d => exact ⟨.text t.data, (write_text _ _).symm, .text t d, hself⟩
  | .comment data location d =>
    exact ⟨.comment data, (write_comment _ _).symm, .comment data location d, hself⟩
  | .fragment f d => simp [isSound] at hself
  | .void (e := e) hkind hvoid hattributes =>
    have hchildren : d.children = [] := by
      simp only [isSound, hkind, hvoid, bne_self_eq_false, Bool.false_or, Bool.and_eq_true,
        Bool.not_true, List.isEmpty_iff] at hself
      have hlength := (hspaced _ _ (.self _ _)).length e rfl hkind
      rw [hself.1.2] at hlength
      exact List.length_eq_zero_iff.mp hlength
    obtain ⟨pairs, hwrite, hwritable⟩ := element_write hself hkind hattributes hscope
      (show areWritable isEmptyTag false [] = true from rfl) fun _ => rfl
    refine ⟨_, ?_, .content (by simp [hchildren]), hwritable⟩
    rw [hwrite, if_pos hvoid, String.append_empty]
  | .literal hkind hvoid hattributes _ _ hliteral hplain =>
    obtain ⟨data, hdata⟩ := join_literalMarkup hliteral
    obtain ⟨kids, hjoin, hkids⟩ : ∃ kids : List Tree,
        Text.escapeText data = String.join (kids.map (·.write isEmptyTag)) ∧
          areWritable isEmptyTag false kids = true := by
      by_cases hempty : data = ""
      · exact ⟨[], by rw [hempty]; rfl, rfl⟩
      · refine ⟨[.text data], by simp [write_text, String.join_cons], ?_⟩
        simp [areWritable, Tree.isWritable, hempty]
    obtain ⟨pairs, hwrite, hwritable⟩ := element_write hself hkind hattributes hscope hkids
      fun hv => by simp [hvoid] at hv
    refine ⟨_, ?_, .content fun k hk => (hplain k hk).2, hwritable⟩
    rw [hwrite, hdata, hjoin, if_neg (by simp [hvoid])]
  | .element (e := e) hkind hvoid hattributes hall _ =>
    have hapart : textsApart o false e.children = true := by
      simp only [isSound, hkind, bne_self_eq_false, Bool.false_or, Bool.and_eq_true] at hself
      exact hself.2
    have hmeet := not_textsMeet (hspaced _ _ (.self _ _)) hkind hapart
    obtain ⟨kids, hjoin, hstand, hkids⟩ := exists_trees hscope hall
      (hspaced _ _ (.self _ _)).anchored
      (fun i m k hm hk m' k' hwithin => hspaced m' k' (.child hm hk hwithin))
      (fun m hm => hn m (List.mem_cons_of_mem _ (by rwa [Node.inside, Element.nodes_eq])))
      hmeet (b := false) (by simp)
    obtain ⟨pairs, hwrite, hwritable⟩ := element_write hself hkind hattributes hscope hkids
      fun hv => by simp [hvoid] at hv
    refine ⟨_, ?_, .element hstand, hwritable⟩
    rw [hwrite, hjoin, if_neg (by simp [hvoid])]

theorem exists_trees (hscope : ∀ s ∈ o.scopeId, isName s = true) {ns : List Node}
    {ks : List NodeInfo} {pieces : List String} (h : SpellsAll o ns ks pieces)
    (hanchored : ∀ k ∈ ks, k.anchor.isSome = true → k.flags.nonTemplate = false)
    (hspaced : ∀ (i : Nat) m k, ns[i]? = some m → ks[i]? = some k → AllSpaced o m k)
    (hns : ∀ m ∈ ns.flatMap Node.nodes, isSound o m = true) (hmeet : ¬TextsMeet ns ks)
    {b : Bool} (hlead : b = true → ¬TextLeads ns ks) :
    ∃ ts : List Tree, String.join pieces = String.join (ts.map (·.write isEmptyTag)) ∧
      AllStandFor ts ns ks ∧ areWritable isEmptyTag b ts = true := by
  match h with
  | .nil => exact ⟨[], rfl, .nil, rfl⟩
  | .placeholder (k := k) ha hrest =>
    rw [List.flatMap_cons, List.forall_mem_append] at hns
    obtain ⟨ts, hjoin, hstand, hts⟩ := exists_trees hscope hrest
      (fun k hk => hanchored k (List.mem_cons_of_mem _ hk))
      (fun i m k hm hk => hspaced (i + 1) m k hm hk) hns.2 (fun hmeets => hmeet hmeets.cons)
      (b := false) (by simp)
    have hnon := hanchored k (List.mem_cons_self ..) (by simp [ha])
    refine ⟨placeholder :: ts, ?_, .placeholder ha hnon hstand, ?_⟩
    · rw [String.join_cons, List.map_cons, String.join_cons, hjoin]
      rfl
    · have hplaceholder : placeholder.isWritable isEmptyTag = true := by decide
      have htext : placeholder.isText = false := rfl
      simp [areWritable, hplaceholder, htext, hts]
  | .apart _ hnon hrest =>
    rw [List.flatMap_cons, List.forall_mem_append] at hns
    obtain ⟨ts, hjoin, hstand, hts⟩ := exists_trees hscope hrest
      (fun k hk => hanchored k (List.mem_cons_of_mem _ hk))
      (fun i m k hm hk => hspaced (i + 1) m k hm hk) hns.2 (fun hmeets => hmeet hmeets.cons)
      fun hb hleads => hlead hb (hleads.cons hnon)
    exact ⟨ts, by rw [String.join_cons, String.empty_append, hjoin], .apart hnon hstand, hts⟩
  | .markup (n := n) (k := k) ha hnon hspells hrest =>
    rw [List.flatMap_cons, List.forall_mem_append] at hns
    obtain ⟨t, htext, ht, hwritable⟩ := exists_tree hscope hspells (hspaced 0 n k rfl rfl) hns.1
    have hpiece : t.isText = true → IsTextPiece n k := fun htext =>
      ⟨ht.isText_eq.symm.trans htext, hnon, ha⟩
    obtain ⟨ts, hjoin, hstand, hts⟩ := exists_trees hscope hrest
      (fun k hk => hanchored k (List.mem_cons_of_mem _ hk))
      (fun i m k hm hk => hspaced (i + 1) m k hm hk) hns.2 (fun hmeets => hmeet hmeets.cons)
      (b := t.isText) fun htext hleads => hmeet (hleads.meets (hpiece htext))
    refine ⟨t :: ts, ?_, .tree ha hnon ht hstand, ?_⟩
    · rw [String.join_cons, List.map_cons, String.join_cons, hjoin, htext]
    · have hfirst : (b && t.isText) = false := by
        rw [Bool.eq_false_iff, ne_eq, Bool.and_eq_true]
        exact fun ⟨hb, htext⟩ => hlead hb (.head (hpiece htext))
      simp [areWritable, hwritable, hfirst, hts]

end

/-! ## Positions -/

/-- The position of a child among those that are part of the markup. -/
def position (d : NodeInfo) (i : Nat) : Nat :=
  (d.children.take i).countP (!·.flags.nonTemplate)

/-- What a child is in the markup of its parent: a placeholder or a tree that stands for it. -/
def IsPieceOf (t : Tree) (n : Node) (k : NodeInfo) : Prop :=
  if k.anchor.isSome then t = placeholder else StandsFor t n k

theorem AllStandFor.getElem? {ts : List Tree} {ns : List Node} {ks : List NodeInfo}
    (h : AllStandFor ts ns ks) {i : Nat} {k : NodeInfo} (hk : ks[i]? = some k)
    (hnon : k.flags.nonTemplate = false) :
    ∃ n t, ns[i]? = some n ∧ ts[(ks.take i).countP (!·.flags.nonTemplate)]? = some t ∧
      IsPieceOf t n k := by
  induction i generalizing ts ns ks with
  | zero =>
    cases h with
    | nil => simp at hk
    | placeholder ha =>
      obtain rfl := Option.some.inj hk
      exact ⟨_, _, rfl, rfl, by simp [IsPieceOf, ha]⟩
    | apart hapart =>
      obtain rfl := Option.some.inj hk
      simp [hnon] at hapart
    | tree ha _ ht =>
      obtain rfl := Option.some.inj hk
      exact ⟨_, _, rfl, rfl, by simpa [IsPieceOf, ha] using ht⟩
  | succ i ih =>
    cases h with
    | nil => simp at hk
    | placeholder _ hstays hrest | tree _ hstays _ hrest =>
      obtain ⟨n, t, hn, ht, hpiece⟩ := ih hrest hk
      refine ⟨n, t, hn, ?_, hpiece⟩
      rw [List.take_succ_cons, List.countP_cons_of_pos (by simp [hstays]),
        List.getElem?_cons_succ, ht]
    | apart hapart hrest =>
      obtain ⟨n, t, hn, ht, hpiece⟩ := ih hrest hk
      refine ⟨n, t, hn, ?_, hpiece⟩
      rw [List.take_succ_cons, List.countP_cons_of_neg (by simp [hapart]), ht]

theorem AllStandFor.length_eq {ts : List Tree} {ns : List Node} {ks : List NodeInfo}
    (h : AllStandFor ts ns ks) : ts.length = ks.countP (!·.flags.nonTemplate) :=
  match h with
  | .nil => rfl
  | .placeholder _ hnon hrest | .tree _ hnon _ hrest => by
    rw [List.length_cons, hrest.length_eq, List.countP_cons_of_pos (by simp [hnon])]
  | .apart hnon hrest => by
    rw [hrest.length_eq, List.countP_cons_of_neg (by simp [hnon])]

/-- In a block with the node `root` and what is known of it, the tree is found for a node: it is
what its markup reads as, or it is at the position of the node in the tree of its parent. -/
inductive Finds (templates : List String) (root : Node) (known : NodeInfo) :
    Node → NodeInfo → Tree → Prop
  | registered {n : Node} {d : NodeInfo} {i : Nat} {markup : String} {t : Tree} :
      Within root known n d → d.template = some i → templates[i]? = some markup →
      read isEmptyTag markup = some [t] → Finds templates root known n d t
  | child {n m : Node} {d k : NodeInfo} {i : Nat} {name : String}
      {attributes : List (String × String)} {kids : List Tree} {t : Tree} :
      Finds templates root known n d (.element name attributes kids) →
      n.children[i]? = some m → d.children[i]? = some k → k.flags.nonTemplate = false →
      k.anchor = none → kids[position d i]? = some t → Finds templates root known m k t

/-- The children of an element are at their positions among the trees. -/
structure Addresses (kids : List Tree) (e : Element) (d : NodeInfo) : Prop where
  /-- There are no other trees, unless none of the children is part of the markup. -/
  length : (∃ k ∈ d.children, k.flags.nonTemplate = false) →
    kids.length = d.children.countP (!·.flags.nonTemplate)
  position : ∀ (i : Nat) k, d.children[i]? = some k → k.flags.nonTemplate = false →
    ∃ n t, e.children[i]? = some n ∧ kids[position d i]? = some t ∧ IsPieceOf t n k

theorem StandsFor.addresses {t : Tree} (h : StandsFor t (.element e) d) :
    ∃ attributes kids, t = .element e.name attributes kids ∧ Addresses kids e d := by
  cases h with
  | element hall =>
    exact ⟨_, _, rfl, fun _ => hall.length_eq, fun i k hk hnon => hall.getElem? hk hnon⟩
  | content hnon =>
    refine ⟨_, _, rfl, fun ⟨k, hk, hk'⟩ => ?_, fun i k hk hk' => ?_⟩
    · simp [hnon k hk] at hk'
    · simp [hnon k (List.mem_of_getElem? hk)] at hk'

section Blocks

variable {templates : List String} {root : Node} {known : NodeInfo}
  (hscope : ∀ s ∈ o.scopeId, isName s = true) (hspelled : Spelled o templates root known)
  (hspaced : AllSpaced o root known)

include hscope hspelled hspaced

theorem finds_registered {n : Node} (hwithin : Within root known n d)
    (hn : ∀ m ∈ n.nodes, isSound o m = true) (htemplate : d.template.isSome = true) :
    ∃ t, Finds templates root known n d t ∧ StandsFor t n d := by
  obtain ⟨i, hi⟩ := Option.isSome_iff_exists.mp htemplate
  obtain ⟨text, htext, hspells⟩ := hspelled n d hwithin i hi
  obtain ⟨t, rfl, ht, hwritable⟩ := exists_tree hscope hspells
    (fun m k hinside => hspaced m k (hwithin.trans hinside)) hn
  exact ⟨t, .registered hwithin hi htext (read_write hwritable), ht⟩

/-- Elements inside one that is found are found. -/
theorem finds_inside {n m : Node} {d k : NodeInfo} (h : Within n d m k)
    (hwithin : Within root known n d) (hn : ∀ x ∈ n.inside, isSound o x = true)
    (hself : ∀ e, n = .element e → e.kind = .regular →
      ∃ t, Finds templates root known n d t ∧ StandsFor t n d)
    {e : Element} (he : m = .element e) (hkind : e.kind = .regular) :
    ∃ t, Finds templates root known m k t ∧ StandsFor t m k := by
  induction h with
  | self => exact hself e he hkind
  | @child n m m' d k k' i hm hk _ ih =>
    have hmem := Node.nodes_subset_inside (List.mem_of_getElem? hm)
    have hchild : Within root known m k := hwithin.trans (.child hm hk (.self m k))
    refine ih hchild (fun x hx => hn x (hmem (List.mem_cons_of_mem m hx))) ?_ he
    rintro e' rfl hkind'
    rcases (hspaced n d hwithin).rooted i e' k hm hk hkind' with
      htemplate | ⟨⟨p, rfl, hp⟩, hnon, hanchor⟩
    · exact finds_registered hscope hspelled hspaced hchild (fun x hx => hn x (hmem hx)) htemplate
    · obtain ⟨t, hfinds, hstands⟩ := hself p rfl hp
      obtain ⟨attributes, kids, rfl, haddresses⟩ := hstands.addresses
      obtain ⟨n', t', hn', ht', hpiece⟩ := haddresses.position i k hk hnon
      obtain rfl : n' = .element e' := Option.some.inj (hn'.symm.trans hm)
      refine ⟨t', .child hfinds hm hk hnon hanchor ht', ?_⟩
      simpa [IsPieceOf, hanchor] using hpiece

end Blocks

/-- In every block of a compiled template, each element is found in the markup, and each of its
children that is part of the markup is at the position that counts those before it. -/
theorem compile_addresses_children {root : Fragment} {r : Compiled}
    (hpasses : o.passes = Pass.all) (hscope : ∀ s ∈ o.scopeId, isName s = true)
    (hroot : ∀ n ∈ root.nodes, isSound o n = true) (h : compile o root = .ok r) :
    ∀ b ∈ r.block.blocks, ∀ e d, Within b.node b.dynamic (.element e) d → e.kind = .regular →
      ∃ attributes kids, Finds r.templates b.node b.dynamic (.element e) d
        (.element e.name attributes kids) ∧ Addresses kids e d := by
  intro b hb e d hwithin hkind
  obtain ⟨f, hnode, hsound⟩ := (compile_parts hpasses h b hb).forall_nodes
    (p := fun n => isSound o n = true) (fun n hn => isSound_condense hn) hroot
  obtain ⟨depth, f', s, s', ⟨c, hrun, rfl, rfl⟩, htemplates⟩ := compile_made hpasses h b hb
  have hfresh := Context.newBlock_fresh f' s
  obtain rfl : f' = f := by
    have hf' := visit_node_eq hpasses depth f' _ c hfresh rfl hrun
    exact Node.fragment.inj (hf'.symm.trans hnode)
  have hspelled := (visit_records hpasses depth _ c hfresh hrun).recorded.mono htemplates
  have hspaced := visit_allSpaced hpasses depth _ c hfresh hrun fun n hn => by
    have hn' := hsound n hn
    cases n <;> simp_all [isSound, Node.isFragment]
  have hfinds := finds_inside (o := o) hscope hspelled hspaced (n := .fragment f') (d := c.dynamic)
    (hnode ▸ hwithin) (.self _ _) hsound (by simp) rfl hkind
  obtain ⟨t, ht, hstands⟩ := hfinds
  obtain ⟨attributes, kids, rfl, haddresses⟩ := hstands.addresses
  exact ⟨attributes, kids, hnode ▸ ht, haddresses⟩

/-- Texts with a condition, a comment that is left out and an element between them. -/
def addressedTemplate : Fragment :=
  ⟨[.element ⟨"div", .regular, [.plain "id" (.chunks [.text ⟨"x", "x", {}⟩]) {}],
    [.text ⟨"a", "a", {}⟩,
      .ifBlock ⟨⟨"b", {}⟩, ⟨[.element ⟨"p", .regular, [], [.text ⟨"c", "c", {}⟩], {}⟩], {}⟩, none,
        false, {}⟩,
      .comment "d" {},
      .text ⟨"e", "e", {}⟩,
      .element ⟨"p", .regular, [.plain "title" (.chunks [.code ⟨"f", {}⟩]) {}], [], {}⟩,
      .element ⟨"br", .regular, [], [], {}⟩], {}⟩], {}⟩

def scopedOptions : Options := { comments := false, scopeId := some "data-v" }

theorem compile_addresses_children_addressedTemplate :
    ∃ r, compile scopedOptions addressedTemplate = .ok r ∧
    ∀ b ∈ r.block.blocks, ∀ e d, Within b.node b.dynamic (.element e) d → e.kind = .regular →
      ∃ attributes kids, Finds r.templates b.node b.dynamic (.element e) d
        (.element e.name attributes kids) ∧ Addresses kids e d := by
  have hscope : ∀ s ∈ scopedOptions.scopeId, isName s = true := by
    rintro s ⟨⟩
    decide +kernel
  exact exists_ok (by decide +kernel) fun _ =>
    compile_addresses_children rfl hscope (by decide +kernel)

/-- Two texts with only a comment between them, before an element. -/
def splitTextTemplate : Fragment :=
  ⟨[.element ⟨"div", .regular, [],
    [.text ⟨"a", "a", {}⟩, .comment "x" {}, .text ⟨"b", "b", {}⟩,
      .element ⟨"p", .regular, [.plain "id" (.chunks [.code ⟨"c", {}⟩]) {}], [], {}⟩], {}⟩],
    {}⟩

/-- When comments are left out, texts with a comment between them meet. The element after them is
then not at its position: two children are counted before it, and the markup has one. -/
theorem splitTextTemplate_misaddressed :
    ∃ r d markup, compile { comments := false } splitTextTemplate = .ok r ∧
      r.block.dynamic.children = [d] ∧ d.template = some 0 ∧ r.templates = [markup] ∧
      (d.children.map (·.flags.nonTemplate)) = [false, true, false, false] ∧ position d 3 = 2 ∧
      read isEmptyTag markup =
        some [.element "div" [] [.text "ab", .element "p" [] []]] := by
  have hok : ((compile { comments := false } splitTextTemplate).toOption.map fun r =>
      (r.templates, r.block.dynamic.children.map fun d =>
        (d.template, d.children.map (·.flags.nonTemplate), position d 3))) =
      some (["<div>ab<p></p></div>"], [(some 0, [false, true, false, false], 2)]) := by
    decide +kernel
  have hmarkup : "<div>ab<p></p></div>" = Tree.write isEmptyTag
      (.element "div" [] [.text "ab", .element "p" [] []]) := by decide +kernel
  obtain ⟨r, h, hok⟩ := exists_ok_of_map hok
  simp only [Prod.mk.injEq, List.map_eq_singleton_iff] at hok
  obtain ⟨htemplates, d, hd, htemplate, hflags, hposition⟩ := hok
  refine ⟨r, d, _, h, hd, htemplate, htemplates, hflags, hposition, ?_⟩
  rw [hmarkup]
  exact read_write (by decide +kernel)

end TemplateCompiler.Markup
