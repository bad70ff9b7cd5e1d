import TemplateCompiler.Proofs.Script.Collecting

/-! # Resolution

Reading a script first and then resolving its names finds exactly the free occurrences.
-/

namespace TemplateCompiler.Script

open Event

/-! ## Meaning of events -/

/-- Wherever the events are read, they declare the names `declared` in the scope being read and
`hoisted` in the function around, and leave the occurrences `free`. -/
def Denotes (events : List Event) (declared hoisted : List String) (free : List Occurrence) : Prop :=
  ∀ c : Collector, c.WellFormed →
    Collects declared hoisted free c (events.foldl Collector.step c)

namespace Denotes

variable {events events' : List Event} {declared declared' hoisted hoisted' : List String}
  {free free' : List Occurrence}

theorem nil : Denotes [] [] [] [] := fun _ hc => .nil hc

theorem append (h : Denotes events declared hoisted free)
    (h' : Denotes events' declared' hoisted' free') :
    Denotes (events ++ events') (declared ++ declared') (hoisted ++ hoisted') (free ++ free') := by
  intro c hc
  rw [List.foldl_append]
  exact (h c hc).trans hc (h' _ (h c hc).wellFormed)

theorem mention (id : Ident) (shorthand : Bool) :
    Denotes [.mention id shorthand] [] [] [⟨id, shorthand⟩] :=
  fun _ hc => .mention hc id shorthand

theorem declare_kept (kind : DeclarationKind) (hkind : kind.isHoisted = false) (ids : List Ident) :
    Denotes (ids.map (.declare kind)) (Ident.names ids) [] [] := by
  induction ids with
  | nil => exact nil
  | cons id ids ih =>
    have hid : Denotes [.declare kind id] [id.name] [] [] := fun _ hc => .declare_kept hc hkind id
    exact hid.append ih

theorem declare_hoisted (kind : DeclarationKind) (hkind : kind.isHoisted = true)
    (ids : List Ident) : Denotes (ids.map (.declare kind)) [] (Ident.names ids) [] := by
  induction ids with
  | nil => exact nil
  | cons id ids ih =>
    have hid : Denotes [.declare kind id] [] [id.name] [] :=
      fun _ hc => .declare_hoisted hc hkind id
    exact hid.append ih

theorem congr (h : Denotes events declared hoisted free)
    (hdeclared : ∀ name, declared'.contains name = declared.contains name)
    (hhoisted : ∀ name, hoisted'.contains name = hoisted.contains name) :
    Denotes events declared' hoisted' free :=
  fun c hc => (h c hc).congr hdeclared hhoisted

theorem append_expr (h : Denotes events declared hoisted free)
    (h' : Denotes events' [] hoisted' free') :
    Denotes (events ++ events') declared (hoisted ++ hoisted') (free ++ free') :=
  (h.append h').congr (by simp) fun _ => rfl

theorem enclosed (isBlock : Bool) (h : Denotes events declared hoisted free) :
    Denotes (Event.enclosed isBlock events) [] (if isBlock then hoisted else [])
      (without (if isBlock then declared else declared ++ hoisted) free) := by
  intro c hc
  rw [Event.enclosed, List.foldl_cons, List.foldl_append]
  exact .enclosed hc (h _ (Collector.wellFormed_enter isBlock hc))

theorem block (h : Denotes events declared hoisted free) :
    Denotes (Event.enclosed true events) [] hoisted (without declared free) :=
  h.enclosed true

theorem function (h : Denotes events declared hoisted free) :
    Denotes (Event.enclosed false events) [] [] (without (declared ++ hoisted) free) :=
  h.enclosed false

/-- A pattern declares its names, and then its defaults and keys are read. -/
theorem pattern {kind : DeclarationKind} {record : Bool} {b : Binding} {bs : List Binding}
    (h : Denotes (b.events record) [] b.hoisted (b.free record))
    (hrest : Denotes events (keptBy kind bs) (hoistedBy kind bs ++ bindingHoisted bs) free) :
    Denotes (declareAll kind b ++ (b.events record ++ events)) (keptBy kind (b :: bs))
      (hoistedBy kind (b :: bs) ++ bindingHoisted (b :: bs)) (b.free record ++ free) := by
  cases hkind : kind.isHoisted with
  | false =>
    refine ((declare_kept kind hkind b.idents).append (h.append hrest)).congr ?_ ?_ <;>
      simp [keptBy, hoistedBy, bindingHoisted, bindingIdents, Ident.names, hkind]
  | true =>
    refine ((declare_hoisted kind hkind b.idents).append (h.append hrest)).congr ?_ ?_ <;>
      simp [keptBy, hoistedBy, bindingHoisted, bindingIdents, Ident.names, hkind,
        Bool.or_left_comm]

end Denotes

/-! ## Syntax -/

mutual

theorem Expr.denotes : ∀ e : Expr, Denotes e.events [] e.hoisted e.free
  | .ident id => .mention id false
  | .literal _ => .nil
  | .form _ parts => exprs_denote parts
  | .object properties => properties_denote properties
  | .assign target value => target.denotes.append value.denotes
  | .update target => target.denotes
  | .function name ps body =>
    ((Denotes.declare_kept .functionDecl rfl name.toList).append
      ((parameters_denote ps).append (stmts_denote body))).function
  | .arrow ps body => ((parameters_denote ps).append (stmts_denote body)).function
  | .classDef _ heritage members => (optional_denotes heritage).append (members_denote members)

theorem exprs_denote : ∀ es : List Expr, Denotes (exprEvents es) [] (exprHoisted es) (exprFree es)
  | [] => .nil
  | e :: es => e.denotes.append (exprs_denote es)

theorem optional_denotes : ∀ e : Option Expr,
    Denotes (optionalEvents e) [] (optionalHoisted e) (optionalFree e)
  | none => .nil
  | some e => e.denotes

theorem Key.denotes : ∀ k : Key, Denotes k.events [] k.hoisted k.free
  | .fixed _ => .nil
  | .computed e => e.denotes

theorem Property.denotes : ∀ p : Property, Denotes p.events [] p.hoisted p.free
  | .shorthand id _ => .mention id true
  | .pair key value => key.denotes.append value.denotes
  | .spread value => value.denotes

theorem properties_denote : ∀ ps : List Property,
    Denotes (propertyEvents ps) [] (propertyHoisted ps) (propertyFree ps)
  | [] => .nil
  | p :: ps => p.denotes.append (properties_denote ps)

theorem Target.denotes : ∀ t : Target, Denotes t.events [] t.hoisted t.free
  | .name id => .mention id false
  | .place value => value.denotes
  | .array elements => targets_denote elements
  | .object properties => targets_denote properties
  | .withDefault target value => target.denotes.append value.denotes
  | .hole => .nil
  | .rest target => target.denotes
  | .property key target => key.denotes.append target.denotes
  | .shorthand id fallback => (Denotes.mention id true).append (optional_denotes fallback)

theorem targets_denote : ∀ ts : List Target,
    Denotes (targetEvents ts) [] (targetHoisted ts) (targetFree ts)
  | [] => .nil
  | t :: ts => t.denotes.append (targets_denote ts)

theorem Binding.denotes (record : Bool) : ∀ b : Binding,
    Denotes (b.events record) [] b.hoisted (b.free record)
  | .name id =>
    match record with
    | true => .mention id false
    | false => .nil
  | .array elements => bindings_denote record elements
  | .object properties => bindings_denote record properties
  | .withDefault b value => (b.denotes record).append value.denotes
  | .hole => .nil
  | .rest b => b.denotes record
  | .property key b => key.denotes.append (b.denotes record)

theorem bindings_denote (record : Bool) : ∀ bs : List Binding,
    Denotes (bindingEvents record bs) [] (bindingHoisted bs) (bindingFree record bs)
  | [] => .nil
  | b :: bs => (b.denotes record).append (bindings_denote record bs)

theorem parameters_denote : ∀ bs : List Binding,
    Denotes (parameterEvents bs) (keptBy .parameter bs) (hoistedBy .parameter bs ++ bindingHoisted bs)
      (bindingFree false bs)
  | [] => .nil
  | b :: bs => .pattern (b.denotes false) (parameters_denote bs)

theorem declarators_denote (kind : DeclarationKind) : ∀ bs : List Binding,
    Denotes (declaratorEvents kind bs) (keptBy kind bs) (hoistedBy kind bs ++ bindingHoisted bs)
      (bindingFree true bs)
  | [] => by cases kind <;> exact .nil
  | b :: bs => .pattern (b.denotes true) (declarators_denote kind bs)

theorem Member.denotes : ∀ m : Member, Denotes m.events [] m.hoisted m.free
  | .method key ps body =>
    (key.denotes.append ((parameters_denote ps).append (stmts_denote body)).function).congr
      (by simp) (by simp [Member.hoisted])
  | .field key value => key.denotes.append (optional_denotes value)
  | .staticBlock body => (stmts_denote body).block

theorem members_denote : ∀ ms : List Member,
    Denotes (memberEvents ms) [] (memberHoisted ms) (memberFree ms)
  | [] => .nil
  | m :: ms => m.denotes.append (members_denote ms)

theorem Stmt.denotes : ∀ s : Stmt, Denotes s.events s.declared s.hoisted s.free
  | .inert => .nil
  | .eval value => value.denotes
  | .declare kind bs => declarators_denote kind bs
  | .function name ps body =>
    (Denotes.declare_kept .functionDecl rfl name.toList).append_expr
      ((parameters_denote ps).append (stmts_denote body)).function
  | .classDef name heritage members =>
    (Denotes.declare_kept .classDecl rfl name.toList).append_expr
      ((optional_denotes heritage).append (members_denote members))
  | .importNames locals => .declare_kept .imported rfl locals
  | .exported _ body => stmts_denote body
  | .block body => (stmts_denote body).block
  | .labeled body => body.denotes
  | .headed head bodies => head.denotes.append (stmts_denote bodies)
  | .doWhile body test => body.denotes.append_expr test.denotes
  | .forLoop start control body =>
    ((stmts_denote start).append ((exprs_denote control).append body.denotes)).block
  | .forDeclared kind bs subject body =>
    ((declarators_denote kind bs).append (subject.denotes.append body.denotes)).block
  | .forTarget target subject body =>
    (target.denotes.append (subject.denotes.append body.denotes)).block
  | .switch subject cases => subject.denotes.append (stmts_denote cases).block
  | .tryCatch body clauses => (stmts_denote body).block.append (stmts_denote clauses)
  | .catchClause parameter body => ((caught_denote parameter).append (stmts_denote body)).block

theorem caught_denote : ∀ bs : List Binding,
    Denotes (caughtEvents bs) (keptBy .caught bs) (hoistedBy .caught bs ++ bindingHoisted bs)
      (bindingFree false bs)
  | [] => .nil
  | b :: bs => .pattern (b.denotes false) (caught_denote bs)

theorem stmts_denote : ∀ ss : List Stmt,
    Denotes (stmtEvents ss) (stmtDeclared ss) (stmtHoisted ss) (stmtFree ss)
  | [] => .nil
  | s :: ss => s.denotes.append (stmts_denote ss)

end

/-! ## Resolving -/

theorem agree_recordAlong (name : String) (chain : List Nat) (scopes : List Scope) :
    Agree (recordAlong name chain scopes) scopes := by
  induction chain generalizing scopes with
  | nil => rfl
  | cons i chain ih =>
    rw [recordAlong]
    split
    · rfl
    · refine (ih _).trans (List.ext_getElem? fun j => ?_)
      rw [List.getElem?_map, List.getElem?_map, List.getElem?_modify]
      by_cases hij : i = j <;> cases scopes[j]? <;> simp [hij, Scope.bare]

/-- The reference with the scope that declares it. -/
def Reference.resolved (scopes : List Scope) (r : Reference) : Reference :=
  { r with owner := owner? scopes r.scope r.ident.name }

namespace ScopeTree

theorem agree_foldr_resolve (scopes : List Scope) (rs : List (Reference × Nat)) :
    Agree (rs.foldr (fun r tree => resolve r.1 r.2 tree) ⟨scopes, [], []⟩).scopes scopes := by
  induction rs with
  | nil => rfl
  | cons r rs ih => exact (agree_recordAlong ..).trans ih

theorem agree_ofEvents (events : List Event) :
    Agree (ofEvents events).scopes (events.foldl Collector.step .empty).scopes :=
  agree_foldr_resolve _ _

theorem references_foldr_resolve (scopes : List Scope) (rs : List (Reference × Nat)) :
    (rs.foldr (fun r tree => resolve r.1 r.2 tree) ⟨scopes, [], []⟩).references =
      (rs.map Prod.fst).map (·.resolved scopes) := by
  induction rs with
  | nil => rfl
  | cons r rs ih =>
    rw [List.foldr_cons, List.map_cons, List.map_cons, ← ih, Reference.resolved,
      ← (agree_foldr_resolve scopes rs).owner?_eq]
    rfl

/-- Every reference that is collected is resolved among the scopes that are. -/
theorem references_ofEvents (events : List Event) :
    (ofEvents events).references =
      (events.foldl Collector.step .empty).references.map
        (·.resolved (events.foldl Collector.step .empty).scopes) := by
  refine (references_foldr_resolve _ _).trans ?_
  rw [List.zipIdx_map_fst]

/-- Resolving leaves free what no scope around it declares. -/
theorem map_occurrence_free_ofEvents (events : List Event) :
    (ofEvents events).free.map (·.occurrence) =
      unresolved (events.foldl Collector.step .empty).scopes
        (events.foldl Collector.step .empty).references := by
  rw [free, references_ofEvents, List.filter_map, List.map_map]
  rfl

/-- What is left free where nothing is around is free in the tree. -/
theorem map_occurrence_free_of_denotes {events : List Event} {hoisted : List String}
    {free : List Occurrence} (hevents : Denotes events [] hoisted free) :
    (ofEvents events).free.map (·.occurrence) = without hoisted free := by
  have h := hevents .empty Collector.wellFormed_empty
  obtain ⟨new, hnew, hres⟩ := h.references
  rw [map_occurrence_free_ofEvents, hnew]
  refine (hres _ h.wellFormed.ordered ⟨Nat.le_refl _, fun _ _ => rfl, fun _ _ _ _ => rfl⟩).trans ?_
  refine List.filter_congr fun x _ => ?_
  -- All that is hoisted is declared in the outermost scope.
  have hlength := Nat.lt_of_lt_of_le (show 0 < Collector.empty.scopes.length by decide) h.length_le
  have hroot := parent_of_shapeAt (h.shape 0 (by decide))
  exact (isNone_owner?_root hlength hroot).trans (congrArg not (h.declares 0 (by decide) _))

/-- The free references of an expression, in reading order, are its free occurrences. -/
theorem free_ofExpr (e : Expr) : (ofExpr e).free.map (·.occurrence) = e.freeOccurrences :=
  map_occurrence_free_of_denotes e.denotes

-- The name `x` is hoisted out of the block in `() => { x; { var x; let y } y }`, and `y` is not.
example :
    (ofExpr (.arrow [] [.eval (.ident ⟨"x", 8, 9⟩),
      .block [.declare .varDecl [.name ⟨"x", 17, 18⟩], .declare .letDecl [.name ⟨"y", 24, 25⟩]],
      .eval (.ident ⟨"y", 28, 29⟩)])).free.map (·.occurrence) = [⟨⟨"y", 28, 29⟩, false⟩] := by
  decide

end ScopeTree

end TemplateCompiler.Script
