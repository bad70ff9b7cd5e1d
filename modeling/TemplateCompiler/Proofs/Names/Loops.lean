import TemplateCompiler.Proofs.Names.Processed
import TemplateCompiler.Proofs.Transform.Making
import TemplateCompiler.Proofs.Transform.Children

/-! # Names that loops introduce

A session counts, for every name, the loops around that introduce it. Leaving a loop undoes what
entering it has done, so a visit leaves the counts as they were.
-/

namespace TemplateCompiler

open Template (EachBlock Fragment Node)
open Transform

/-! ## Counting -/

namespace Session

theorem lookup_modifyCount (f : Nat → Nat) (name other : String) (counts : List (String × Nat)) :
    (modifyCount f name counts).lookup other =
      if other = name then (counts.lookup other).map f else counts.lookup other := by
  induction counts with
  | nil => simp [modifyCount]
  | cons entry counts ih =>
    obtain ⟨n, k⟩ := entry
    have hcons : modifyCount f name ((n, k) :: counts) =
        (n, if n = name then f k else k) :: modifyCount f name counts := by
      by_cases hname : n = name <;> simp [modifyCount, hname]
    rw [hcons, List.lookup_cons, List.lookup_cons, ih]
    by_cases hother : other = n
    · by_cases hname : other = name <;> simp [← hother, hname]
    · simp [beq_eq_false_iff_ne.mpr hother]

theorem isSome_lookup (name : String) (counts : List (String × Nat)) :
    (counts.lookup name).isSome = counts.any (·.1 == name) := by
  rw [Bool.eq_iff_iff, List.lookup_isSome_iff, List.any_eq_true]
  simp only [BEq.comm]

theorem count_addIdentifier (s : Session) (name other : String) :
    (s.addIdentifier name).count other = s.count other + if other = name then 1 else 0 := by
  unfold addIdentifier count
  rw [← isSome_lookup]
  cases hlookup : s.identifiers.lookup name with
  | some k =>
    simp only [Option.isSome_some, ite_true, lookup_modifyCount]
    by_cases h : other = name
    · simp [h, hlookup]
    · simp [h]
  | none =>
    simp only [Option.isSome_none, Bool.false_eq_true, ite_false, List.lookup_append]
    by_cases h : other = name
    · simp [h, hlookup]
    · simp [h, List.lookup_cons, beq_eq_false_iff_ne.mpr h]

theorem count_removeIdentifier (s : Session) (name other : String) :
    (s.removeIdentifier name).count other = s.count other - if other = name then 1 else 0 := by
  unfold removeIdentifier count
  rw [lookup_modifyCount]
  by_cases h : other = name
  · cases hlookup : s.identifiers.lookup other <;> simp [h]
  · simp [h]

theorem count_addIdentifiers (s : Session) (names : List String) (name : String) :
    (s.addIdentifiers names).count name = s.count name + names.count name := by
  induction names generalizing s with
  | nil => rfl
  | cons n names ih =>
    rw [addIdentifiers, List.foldl_cons]
    change ((s.addIdentifier n).addIdentifiers names).count name = _
    rw [ih, count_addIdentifier, List.count_cons]
    by_cases h : name = n
    · simp [h]
      omega
    · simp [h, beq_eq_false_iff_ne.mpr (Ne.symm h)]

theorem count_removeIdentifiers (s : Session) (names : List String) (name : String) :
    (s.removeIdentifiers names).count name = s.count name - names.count name := by
  induction names generalizing s with
  | nil => rfl
  | cons n names ih =>
    rw [removeIdentifiers, List.foldl_cons]
    change ((s.removeIdentifier n).removeIdentifiers names).count name = _
    rw [ih, count_removeIdentifier, List.count_cons]
    by_cases h : name = n
    · simp [h]
      omega
    · simp [h, beq_eq_false_iff_ne.mpr (Ne.symm h)]

theorem count_leaveLoop {s s' : Session} {names : List String}
    (h : ∀ name, s'.count name = (s.enterLoop names).count name) (name : String) :
    (s'.leaveLoop names).count name = s.count name := by
  have henter : (s.enterLoop names).count name = s.count name + names.count name :=
    count_addIdentifiers s names name
  have hleave : (s'.leaveLoop names).count name = s'.count name - names.count name :=
    count_removeIdentifiers { s' with loopDepth := s'.loopDepth - 1 } names name
  rw [hleave, h name, henter]
  omega

theorem foldl_identifiers {step : Session → String → Session}
    (hstep : ∀ s name, step s name = { s with identifiers := (step s name).identifiers })
    (s : Session) (names : List String) :
    names.foldl step s = { s with identifiers := (names.foldl step s).identifiers } := by
  induction names generalizing s with
  | nil => rfl
  | cons name names ih =>
    rw [List.foldl_cons, ih, hstep]

theorem enterLoop_eq (s : Session) (names : List String) :
    s.enterLoop names =
      { s with
        identifiers := (s.enterLoop names).identifiers, loopDepth := s.loopDepth + 1 } := by
  have hadd : s.addIdentifiers names =
      { s with identifiers := (s.addIdentifiers names).identifiers } :=
    foldl_identifiers (fun _ _ => rfl) s names
  unfold enterLoop
  rw [hadd]

theorem leaveLoop_eq (s : Session) (names : List String) :
    s.leaveLoop names =
      { s with
        identifiers := (s.leaveLoop names).identifiers, loopDepth := s.loopDepth - 1 } := by
  have hremove : s.leaveLoop names =
      { { s with loopDepth := s.loopDepth - 1 } with
        identifiers := (s.leaveLoop names).identifiers } :=
    foldl_identifiers (fun _ _ => rfl) { s with loopDepth := s.loopDepth - 1 } names
  exact hremove

theorem Binds.congr {s s' : Session} {names : List String} (hs : s.Binds names)
    (h : ∀ name, s'.count name = s.count name) : s'.Binds names := by
  intro name
  rw [← hs name, isIdentifier, isIdentifier, h name]

/-- Inside a loop the names that it introduces are in scope, too. -/
theorem Binds.enterLoop {s : Session} {names : List String} (hs : s.Binds names)
    (new : List String) : (s.enterLoop new).Binds (new ++ names) := by
  intro name
  have henter : (s.enterLoop new).count name = s.count name + new.count name :=
    count_addIdentifiers s new name
  have hold : 0 < s.count name ↔ name ∈ names := by
    simpa [isIdentifier] using Bool.eq_iff_iff.mp (hs name)
  rw [Bool.eq_iff_iff, isIdentifier, henter, decide_eq_true_eq, List.contains_iff_mem,
    List.mem_append, ← hold, ← List.count_pos_iff]
  omega

theorem binds_empty : ({} : Session).Binds [] := fun _ => rfl

theorem exists_binds (s : Session) : ∃ names, s.Binds names := by
  refine ⟨(s.identifiers.map (·.1)).filter s.isIdentifier, fun name => ?_⟩
  rw [Bool.eq_iff_iff, List.contains_iff_mem, List.mem_filter]
  refine ⟨fun h => ⟨?_, h⟩, fun h => h.2⟩
  have hsome : (s.identifiers.lookup name).isSome = true := by
    cases hlookup : s.identifiers.lookup name with
    | some k => rfl
    | none => simp [isIdentifier, count, hlookup] at h
  rw [isSome_lookup, List.any_eq_true] at hsome
  obtain ⟨entry, hentry, heq⟩ := hsome
  exact List.mem_map.mpr ⟨entry, hentry, by simpa using heq⟩

end Session

/-! ## Making blocks leaves the counts as they were -/

variable {o : Options} {visit : Transform Unit} {s s' : Session}

theorem Context.newBlock_fresh (f : Fragment) (s : Session) :
    (Context.newBlock (.fragment f) s).Fresh where
  removed := rfl
  template := rfl
  childrenTemplate := rfl
  consumedChildren := rfl
  slots := rfl
  children := rfl
  anchor := rfl
  insert := rfl
  nonTemplate := rfl
  markup := rfl
  root := fun _ => ⟨f, rfl⟩
  frame := by simp [newBlock, referenced, root]

theorem Session.Binds.newBlock {names : List String} (hs : s.Binds names) (f : Fragment) :
    (Context.newBlock (.fragment f) s).session.Binds names :=
  hs.congr fun name => by simp [Context.newBlock, Context.root, Session.count]

theorem MakesBlock.count_eq {f : Fragment} {b : Block} (hvisit : Disciplined visit)
    (h : MakesBlock visit (.fragment f) s b s') (name : String) : s'.count name = s.count name := by
  obtain ⟨c, hrun, -, rfl⟩ := h
  exact (hvisit _ _ (Context.newBlock_fresh f s) hrun).count name

theorem Makes.count_eq {rs : List (List String × Fragment)} {is : List Nat} {bs : List Block}
    (hvisit : Disciplined visit) (h : Makes visit s rs is bs s') (name : String) :
    s'.count name = s.count name := by
  induction h with
  | nil => rfl
  | id _ ih => exact ih
  | note hs _ ih => exact ih.trans (by rw [Session.count, hs.identifiers, Session.count])
  | block hb _ ih => exact ih.trans (hb.count_eq hvisit name)
  | loop hb _ ih => exact ih.trans (Session.count_leaveLoop (hb.count_eq hvisit) name)

theorem Context.settled_identifiers (c : Context) (isFragment : Bool) :
    (c.settled isFragment).session.identifiers = c.session.identifiers := by
  have hreturned : c.returned.session.identifiers = c.session.identifiers := by
    unfold returned
    dsimp only
    split <;> simp
  unfold settled
  split
  · rfl
  · split
    · exact hreturned
    · rfl

variable {isFragment : Bool} {frame : Frame} {i : Nat} {n : Node} {ns : List Node} {c c' k : Context}

theorem Disciplined.count_child (hvisit : Disciplined visit) (hframe : frame.Covers i (n :: ns))
    (hrun : visit (c.child n i frame) = .ok () k) (name : String) :
    (c.adopt isFragment (k.settled isFragment)).session.count name = c.session.count name := by
  have hsettled : (k.settled isFragment).session.count name = k.session.count name := by
    simp only [Session.count, Context.settled_identifiers]
  exact hsettled.trans ((hvisit _ _ (hframe.child_fresh c) hrun).count name)

theorem VisitsChildren.count_eq (hvisit : Disciplined visit)
    (h : VisitsChildren visit isFragment frame i ns c c') (name : String) :
    c'.session.count name = c.session.count name := by
  induction h with
  | nil => rfl
  | cons hframe hrun _ _ ih => exact ih.trans (hvisit.count_child hframe hrun name)

end TemplateCompiler
