import TemplateCompiler.Proofs.Script.Owners

/-! # Names inside scopes

A scope lists the names of the references that stand in it or in a scope inside it. A mention climbs
from its scope outwards and stops at the first scope that lists the name already, since all scopes
around that one list it too.
-/

namespace TemplateCompiler.Script

variable {scopes : List Scope} {i j k : Nat} {name other : String}

/-- The names that the scope lists. -/
def namesAt (scopes : List Scope) (i : Nat) : List String := (scopes[i]?.map Scope.references).getD []

theorem any_mentions : scopes[i]?.any (·.mentions name) = true ↔ name ∈ namesAt scopes i := by
  cases h : scopes[i]? <;> simp [namesAt, h, Scope.mentions]

/-! ## Climbing -/

theorem namesAt_modify (hi : i < scopes.length) :
    namesAt (scopes.modify i fun s => { s with references := name :: s.references }) j =
      if i = j then name :: namesAt scopes j else namesAt scopes j := by
  unfold namesAt
  rw [List.getElem?_modify]
  by_cases hij : i = j
  · subst hij
    simp [List.getElem?_eq_getElem hi]
  · cases scopes[j]? <;> simp [hij]

/-- Where every scope of a chain that lists the name is followed by scopes that do, stopping at the
first one loses nothing. -/
theorem mem_namesAt_recordAlong {chain : List Nat} (hlt : ∀ k ∈ chain, k < scopes.length)
    (hdown : chain.Pairwise (· > ·))
    (hclosed : chain.Pairwise fun k l => name ∈ namesAt scopes k → name ∈ namesAt scopes l) :
    other ∈ namesAt (recordAlong name chain scopes) j ↔
      other ∈ namesAt scopes j ∨ j ∈ chain ∧ other = name := by
  induction chain generalizing scopes with
  | nil => simp [recordAlong]
  | cons i chain ih =>
    obtain ⟨hlast, hdown⟩ := List.pairwise_cons.mp hdown
    obtain ⟨hrest, hclosed⟩ := List.pairwise_cons.mp hclosed
    rw [recordAlong]
    split
    · rename_i hi
      have hi := any_mentions.mp hi
      refine ⟨.inl, ?_⟩
      rintro (h | ⟨hj, rfl⟩)
      · exact h
      · rcases List.mem_cons.mp hj with rfl | hj
        · exact hi
        · exact hrest j hj hi
    · have hmodify (l : Nat) := @namesAt_modify scopes i l name (hlt i (List.mem_cons_self ..))
      -- The scopes further out have smaller numbers, so they are as they were.
      have hkept (l : Nat) (hl : l ∈ chain) : i ≠ l := Nat.ne_of_gt (hlast l hl)
      rw [ih, hmodify, List.mem_cons]
      · by_cases hij : i = j
        · rw [if_pos hij, List.mem_cons]
          tauto
        · rw [if_neg hij]
          tauto
      · intro l hl
        simpa using hlt l (List.mem_cons_of_mem _ hl)
      · exact hdown
      · refine hclosed.imp_of_mem fun {k l} hk hl h => ?_
        rwa [hmodify, hmodify, if_neg (hkept k hk), if_neg (hkept l hl)]

theorem pairwise_scopeChain (hscopes : Ordered scopes) (hi : i < scopes.length) :
    (scopeChain scopes i).Pairwise fun k l => k > l ∧ Inside scopes k l := by
  induction i using Nat.strong_induction_on with
  | _ i ih =>
    cases hp : scopes[i]?.bind Scope.parent with
    | none =>
      rw [scopeChain_root hi hp]
      exact List.pairwise_singleton _ _
    | some p =>
      have hlt := hscopes i p hp
      rw [scopeChain_cons hscopes hi hp]
      refine List.pairwise_cons.mpr ⟨fun k hk => ?_, ih p hlt (by omega)⟩
      have hin := (mem_scopeChain hscopes (by omega)).mp hk
      have hle := hin.le hscopes
      exact ⟨by omega, .outer hp hin⟩

/-! ## Resolving -/

/-- The names of the references that stand in the scope or inside it. -/
def Lists (scopes : List Scope) (rs : List Reference) (i : Nat) (name : String) : Prop :=
  ∃ r ∈ rs, Inside scopes r.scope i ∧ r.ident.name = name

namespace ScopeTree

theorem mem_namesAt_foldr_resolve (hscopes : Ordered scopes) (hnone : ∀ i, namesAt scopes i = [])
    (rs : List (Reference × Nat)) (hrs : ∀ r ∈ rs, r.1.scope < scopes.length) :
    name ∈ namesAt (rs.foldr (fun r tree => resolve r.1 r.2 tree) ⟨scopes, [], []⟩).scopes j ↔
      Lists scopes (rs.map Prod.fst) j name := by
  induction rs generalizing j name with
  | nil => simp [hnone, Lists]
  | cons r rs ih =>
    have ih {j name} := @ih name j fun r' hr' => hrs r' (List.mem_cons_of_mem _ hr')
    have hagree := agree_foldr_resolve scopes rs
    have hordered := hscopes.congr hagree.parent_eq
    have hlt := hagree.length_eq ▸ hrs r (List.mem_cons_self ..)
    have hinside {a b : Nat} : Inside _ a b ↔ Inside scopes a b :=
      ⟨fun h => h.congr fun i => (hagree.parent_eq i).symm, fun h => h.congr hagree.parent_eq⟩
    have hchain := pairwise_scopeChain hordered hlt
    rw [List.foldr_cons, resolve, mem_namesAt_recordAlong _ (hchain.imp And.left), ih,
      mem_scopeChain hordered hlt, hinside]
    · simp [Lists, eq_comm, or_comm]
    · refine hchain.imp fun h hk => ?_
      obtain ⟨r', hr', hin, heq⟩ := ih.mp hk
      exact ih.mpr ⟨r', hr', hin.trans (hinside.mp h.2), heq⟩
    · exact fun k hk => Nat.lt_of_le_of_lt (le_of_mem_scopeChain hordered hk) hlt

/-- Every scope lists exactly the names that are mentioned in it or inside it. -/
def ListsMentions (tree : ScopeTree) : Prop :=
  ∀ i s, tree.scopes[i]? = some s → ∀ name,
    name ∈ s.references ↔ Lists tree.scopes tree.references i name

theorem mem_namesAt_ofEvents (events : List Event) :
    name ∈ namesAt (ofEvents events).scopes i ↔
      Lists (events.foldl Collector.step .empty).scopes
        (events.foldl Collector.step .empty).references i name := by
  have hgrown := Collector.grown_empty.run events
  have hnone : ∀ i, namesAt (events.foldl Collector.step .empty).scopes i = [] := by
    intro i
    unfold namesAt
    cases h : (events.foldl Collector.step .empty).scopes[i]? with
    | none => rfl
    | some s => exact (hgrown.listed i s h).2
  refine (mem_namesAt_foldr_resolve hgrown.ordered hnone _ fun r hr => ?_).trans ?_
  · exact hgrown.references_lt r.1 (List.fst_mem_of_mem_zipIdx hr)
  · rw [List.zipIdx_map_fst]

theorem listsMentions_ofEvents (events : List Event) : (ofEvents events).ListsMentions := by
  intro i s hs name
  have hparent := (agree_ofEvents events).parent_eq
  have hnames : namesAt (ofEvents events).scopes i = s.references := by simp [namesAt, hs]
  rw [← hnames, mem_namesAt_ofEvents, Lists, Lists, references_ofEvents]
  simp only [List.mem_map, exists_exists_and_eq_and, Reference.resolved]
  refine exists_congr fun r => and_congr_right fun _ => and_congr_left fun _ => ?_
  exact ⟨fun h => h.congr hparent, fun h => h.congr fun i => (hparent i).symm⟩

/-- The names that scopes list are those of the references inside them. -/
theorem mentions_exactly :
    (∀ e, (ofExpr e).ListsMentions) ∧ ∀ body, (ofProgram body).ListsMentions :=
  ⟨fun e => listsMentions_ofEvents e.events, fun body => listsMentions_ofEvents (stmtEvents body)⟩

end ScopeTree

end TemplateCompiler.Script
