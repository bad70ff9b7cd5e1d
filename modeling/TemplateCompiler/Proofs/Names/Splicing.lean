import TemplateCompiler.Proofs.Names.Processed
import TemplateCompiler.Proofs.Script.Places

/-! # Edits of a text

Edits that lie in a text one after the other change it piece by piece: what stands between them
stays, and a text that is cut between two edits can be edited in two parts. Qualifying the names of a
text replaces the references that need it, and nothing else.
-/

namespace TemplateCompiler

open Script (Laid Placed Reference ScopeTree utf8Length utf8Length_cons utf8Length_append)
open Text (Edit splice splitBytes)

variable {pos : Nat} {rs : List Reference} {x : List Char}

/-! ## Bytes -/

theorem splitBytes_append {n : Nat} (y : List Char) (h : utf8Length x ≤ n) : splitBytes n (x ++ y) =
      (x ++ (splitBytes (n - utf8Length x) y).1, (splitBytes (n - utf8Length x) y).2) := by
  induction x generalizing n with
  | nil => simp
  | cons c x ih =>
    rw [utf8Length_cons] at h
    rw [List.cons_append, splitBytes, if_pos (by omega), ih (by omega), utf8Length_cons,
      Nat.sub_add_eq]
    rfl

theorem splitBytes_zero (x : List Char) : splitBytes 0 x = ([], x) := by
  cases x with
  | nil => rfl
  | cons c x =>
    have := c.utf8Size_pos
    rw [splitBytes, if_neg (by omega)]

theorem splitBytes_utf8Length (x y : List Char) : splitBytes (utf8Length x) (x ++ y) = (x, y) := by
  simp [splitBytes_append, splitBytes_zero]

theorem eq_nil_of_utf8Length (h : utf8Length x = 0) : x = [] := by
  cases x with
  | nil => rfl
  | cons c x =>
    have := c.utf8Size_pos
    rw [utf8Length_cons] at h
    omega

/-- Of two beginnings of a text, the one with fewer bytes comes first. -/
theorem exists_append_of_utf8Length_le {a b y : List Char} (heq : a ++ x = b ++ y)
    (hle : utf8Length a ≤ utf8Length b) : ∃ d, b = a ++ d ∧ x = d ++ y := by
  rcases List.append_eq_append_iff.mp heq with ⟨d, hb, hx⟩ | ⟨d, rfl, rfl⟩
  · exact ⟨d, hb, hx⟩
  · rw [utf8Length_append] at hle
    obtain rfl := eq_nil_of_utf8Length (show utf8Length d = 0 by omega)
    exact ⟨[], by simp, rfl⟩

/-! ## Edits -/

/-- The edits lie one after the other in the text, which begins at the byte `pos`. -/
inductive Fits : Nat → List Edit → List Char → Prop
  | nil (pos : Nat) (x : List Char) : Fits pos [] x
  | cons {pos : Nat} {e : Edit} {es : List Edit} {before word after : List Char} :
      e.start = pos + utf8Length before → e.stop = e.start + utf8Length word →
      Fits e.stop es after → Fits pos (e :: es) (before ++ (word ++ after))

theorem splice_cons {e : Edit} {before word : List Char}
    (hstart : e.start = pos + utf8Length before) (hstop : e.stop = e.start + utf8Length word)
    (es : List Edit) (after : List Char) : splice pos (e :: es) (before ++ (word ++ after)) =
      before ++ e.text ++ splice e.stop es after := by
  have h₁ : e.start - pos = utf8Length before := by omega
  have h₂ : e.stop - e.start = utf8Length word := by omega
  rw [splice, h₁, h₂, splitBytes_utf8Length]
  dsimp only
  rw [splitBytes_utf8Length]

/-- What stands before all edits stays. -/
theorem splice_after {es : List Edit} (y : List Char) (h : ∀ e ∈ es, pos + utf8Length x ≤ e.start) :
    splice pos es (x ++ y) = x ++ splice (pos + utf8Length x) es y := by
  cases es with
  | nil => rfl
  | cons e es =>
    have hle := h e (List.mem_cons_self ..)
    rw [splice, splice, splitBytes_append y (by omega), Nat.sub_sub]
    simp

theorem splice_append {es es' : List Edit} (y : List Char) (h : Fits pos es x)
    (h' : ∀ e ∈ es', pos + utf8Length x ≤ e.start) :
    splice pos (es ++ es') (x ++ y) = splice pos es x ++ splice (pos + utf8Length x) es' y := by
  induction h with
  | nil pos x => exact splice_after y h'
  | @cons pos e es before word after hstart hstop _ ih =>
    have hend : pos + utf8Length (before ++ (word ++ after)) = e.stop + utf8Length after := by
      simp only [utf8Length_append]
      omega
    rw [hend] at h' ⊢
    rw [List.cons_append, List.append_assoc, List.append_assoc, splice_cons hstart hstop,
      splice_cons hstart hstop, ih h']
    simp

/-! ## Edits in place of identifiers -/

/-- Edits in place of identifiers that are laid in one part of a text lie in that part. -/
theorem fits_of_laid {f : Reference → Edit} {rs : List Reference} {before x after : List Char}
    (hf : ∀ r ∈ rs, (f r).start = r.ident.start ∧ (f r).stop = r.ident.stop)
    (h : Laid (before ++ (x ++ after)) (utf8Length before) (rs.map (·.ident))
      (utf8Length (before ++ x))) :
    Fits (utf8Length before) (rs.map f) x := by
  induction rs generalizing before x with
  | nil => exact .nil _ _
  | cons r rs ih =>
    obtain ⟨hstart, hstop⟩ := hf r (List.mem_cons_self ..)
    have hr : r.ident ∈ (r :: rs).map (·.ident) := List.mem_cons_self ..
    obtain ⟨a, word, b, htext, -, ha, hword⟩ := h.placed _ hr
    obtain ⟨hlo, hhi⟩ := h.within _ hr
    obtain ⟨gap, rfl, hgap⟩ := exists_append_of_utf8Length_le htext (by omega)
    obtain ⟨rest, hx, hb⟩ := exists_append_of_utf8Length_le (a := gap ++ word) (b := x) (x := b)
      (y := after) (by simpa using hgap.symm) (by simp only [utf8Length_append] at *; omega)
    obtain rfl : x = gap ++ (word ++ rest) := by simpa using hx
    refine .cons (by simp [hstart, ← ha]) ?_ ?_
    · simp [hstart, hstop, ← ha, ← hword, Nat.add_assoc]
    rw [hstop, ← hword]
    refine ih (fun r' hr' => hf r' (List.mem_cons_of_mem _ hr')) ⟨?_, ?_, ?_, ?_⟩
    · simp
    · intro y hy
      have horder := (List.pairwise_cons.mp h.ordered).1 y hy
      have hwithin := (h.within y (List.mem_cons_of_mem _ hy)).2
      simp only [utf8Length_append] at *
      omega
    · intro y hy
      simpa using h.placed y (List.mem_cons_of_mem _ hy)
    · exact (List.pairwise_cons.mp h.ordered).2

/-! ## Qualified texts -/

/-- What stands in place of a reference: the qualified name, after its key if it is a shorthand. -/
def qualifiedText (o : Options) (r : Reference) : String :=
  if r.shorthand then r.ident.name ++ ": " ++ o.qualify r.ident.name else o.qualify r.ident.name

/-- The second text is the first one, which begins at the byte `pos`, with the references replaced one
after the other and all between them kept. -/
inductive Replaces (o : Options) : Nat → List Reference → List Char → List Char → Prop
  | nil (pos : Nat) (x : List Char) : Replaces o pos [] x x
  | cons {pos : Nat} {r : Reference} {rs : List Reference} {gap word x y : List Char} :
      r.ident.start = pos + utf8Length gap → r.ident.stop = r.ident.start + utf8Length word →
      Replaces o r.ident.stop rs x y →
      Replaces o pos (r :: rs) (gap ++ (word ++ x)) (gap ++ ((qualifiedText o r).toList ++ y))

theorem text_qualifyingEdit (o : Options) (r : Reference) :
    (qualifyingEdit o r).text = (qualifiedText o r).toList := by
  unfold qualifyingEdit qualifiedText
  cases r.shorthand <;> simp

theorem replaces_of_fits {o : Options} (h : Fits pos (rs.map (qualifyingEdit o)) x) :
    Replaces o pos rs x (splice pos (rs.map (qualifyingEdit o)) x) := by
  induction rs generalizing pos x with
  | nil => exact .nil pos x
  | cons r rs ih =>
    cases h with
    | cons hstart hstop hrest =>
      rw [List.map_cons, splice_cons hstart hstop, text_qualifyingEdit, List.append_assoc]
      exact .cons hstart hstop (ih hrest)

/-- References that are written apart from each other lie one after the other once they are sorted. -/
theorem laid_sortByStart {text : List Char} (hplaced : ∀ r ∈ rs, Placed text r.ident)
    (hapart : rs.Pairwise fun a b => a.ident.stop ≤ b.ident.start ∨ b.ident.stop ≤ a.ident.start) :
    Laid text 0 ((sortByStart rs).map (·.ident)) (utf8Length text) where
  le := Nat.zero_le _
  within := by
    intro x hx
    obtain ⟨r, hr, rfl⟩ := List.mem_map.mp hx
    obtain ⟨before, word, after, rfl, -, -, hstop⟩ := hplaced r (mem_sortByStart.mp hr)
    refine ⟨Nat.zero_le _, ?_⟩
    simp only [utf8Length_append] at hstop ⊢
    omega
  placed := by
    intro x hx
    obtain ⟨r, hr, rfl⟩ := List.mem_map.mp hx
    exact hplaced r (mem_sortByStart.mp hr)
  ordered := by
    have hsorted := List.pairwise_insertionSort StartsBefore rs
    have hapart := (List.perm_insertionSort StartsBefore rs).symm.pairwise hapart Or.symm
    rw [← sortByStart_eq] at hsorted hapart
    refine List.pairwise_map.mpr ((hsorted.and hapart).imp_of_mem fun {a b} ha hb h => ?_)
    have hlt := (hplaced b (mem_sortByStart.mp hb)).start_lt_stop
    have hle : a.ident.start ≤ b.ident.start := h.1
    have hlt' := (hplaced a (mem_sortByStart.mp ha)).start_lt_stop
    omega

theorem qualifiedReferences_perm (s : Session) (tree : ScopeTree) :
    (qualifiedReferences s tree).Perm (tree.references.filter fun r =>
      !s.isIdentifier r.ident.name && !Script.isAllowedGlobal r.ident.name && r.owner.isNone) := by
  rw [qualifiedReferences, sortByStart_eq, ScopeTree.free, List.filter_filter]
  exact List.perm_insertionSort _ _

/-- Whatever the order of the references, qualifying a text replaces exactly the free ones among them
that neither the template nor every script knows, and changes nothing if there are none. -/
theorem qualifySource?_replaces (o : Options) (s : Session) (source : String) (tree : ScopeTree)
    (hplaced : ∀ r ∈ tree.references, Placed source.toList r.ident)
    (hapart : tree.references.Pairwise fun a b =>
      a.ident.stop ≤ b.ident.start ∨ b.ident.stop ≤ a.ident.start) :
    (qualifySource? o s source tree = none ↔ ∀ r ∈ tree.references, r.owner = none →
      s.isIdentifier r.ident.name = true ∨ Script.isAllowedGlobal r.ident.name = true) ∧
    ∀ result, qualifySource? o s source tree = some result →
      ∃ rs, rs.Perm (tree.references.filter fun r =>
          !s.isIdentifier r.ident.name && !Script.isAllowedGlobal r.ident.name && r.owner.isNone) ∧
        Replaces o 0 rs source.toList result.toList := by
  have hperm := qualifiedReferences_perm s tree
  constructor
  · have hnone : qualifySource? o s source tree = none ↔ qualifiedReferences s tree = [] := by
      unfold qualifySource?
      split <;> simp_all
    rw [hnone, ← List.perm_nil, hperm.congr_left, List.perm_nil, List.filter_eq_nil_iff]
    refine forall₂_congr fun r _ => ?_
    cases s.isIdentifier r.ident.name <;> cases Script.isAllowedGlobal r.ident.name <;> simp
  · intro result h
    refine ⟨qualifiedReferences s tree, hperm, ?_⟩
    have hlaid : Laid source.toList 0 ((qualifiedReferences s tree).map (·.ident))
        (utf8Length source.toList) :=
      laid_sortByStart
        (fun r hr => hplaced r (List.mem_of_mem_filter (List.mem_of_mem_filter hr)))
        ((hapart.filter _).filter _)
    have hresult : result = String.ofList
        (splice 0 ((qualifiedReferences s tree).map (qualifyingEdit o)) source.toList) := by
      unfold qualifySource? at h
      split at h <;> simp_all
    rw [hresult, String.toList_ofList]
    apply replaces_of_fits
    exact @fits_of_laid _ _ [] _ [] (fun _ _ => ⟨rfl, rfl⟩) (by simpa using hlaid)

/-- The array `[\u0061, {é, b}]` with its last name recorded first. -/
def unsortedTree : ScopeTree where
  scopes := [{ parent := none, isBlock := false }]
  references := [⟨⟨"b", 14, 15⟩, 0, none, true⟩, ⟨⟨"a", 1, 7⟩, 0, none, false⟩,
    ⟨⟨"é", 10, 12⟩, 0, none, true⟩]
  globals := []

theorem qualifySource?_replaces_unsortedTree :
    qualifySource? {} {} "[\\u0061, \x7bé, b\x7d]" unsortedTree =
        some "[_ctx.a, \x7bé: _ctx.é, b: _ctx.b\x7d]" ∧
      ∃ rs, rs.Perm unsortedTree.references ∧
        Replaces {} 0 rs "[\\u0061, \x7bé, b\x7d]".toList
          "[_ctx.a, \x7bé: _ctx.é, b: _ctx.b\x7d]".toList := by
  have hresult : qualifySource? {} {} "[\\u0061, \x7bé, b\x7d]" unsortedTree =
      some "[_ctx.a, \x7bé: _ctx.é, b: _ctx.b\x7d]" := by decide +kernel
  refine ⟨hresult, (qualifySource?_replaces {} {} _ unsortedTree ?_ ?_).2 _ hresult⟩
  · simp only [unsortedTree, List.forall_mem_cons]
    refine ⟨⟨"[\\u0061, \x7bé, ".toList, "b".toList, "\x7d]".toList, ?_⟩,
      ⟨"[".toList, "\\u0061".toList, ", \x7bé, b\x7d]".toList, ?_⟩,
      ⟨"[\\u0061, \x7b".toList, "é".toList, ", b\x7d]".toList, ?_⟩, by simp⟩ <;> decide +kernel
  · decide

end TemplateCompiler
