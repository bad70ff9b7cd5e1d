import TemplateCompiler.Proofs.Script.FreeNames
import TemplateCompiler.Proofs.Script.Idents

/-! # How far declarations reach

Every scope of a script introduces names, and it reaches the identifiers that are written inside it.
An identifier is bound if a scope that reaches it introduces its name.
-/

namespace TemplateCompiler.Script

/-- What a scope introduces, and the identifiers it reaches. -/
structure Extent where
  names : List String
  inside : List Ident
  /-- The names are known inside without a declaration there: the own name of a class, and the
  `arguments` of a function. -/
  implied : Bool := false
  deriving DecidableEq, Repr

/-- The scope of a function with its own name, if it is known inside. -/
def functionExtents (own : Option Ident) (ps : List Binding) (body : List Stmt) : List Extent :=
  [⟨functionNames own ps body, own.toList ++ (bindingsWritten ps ++ stmtsWritten body), false⟩,
    ⟨["arguments"], bindingsWritten ps ++ stmtsWritten body, true⟩]

mutual

def Expr.extents : Expr → List Extent
  | .ident _ | .literal _ => []
  | .form _ parts => exprExtents parts
  | .object properties => propertyExtents properties
  | .assign target value => target.extents ++ value.extents
  | .update target => target.extents
  | .function name ps body => functionExtents name ps body ++ (bindingExtents ps ++ stmtExtents body)
  | .arrow ps body =>
    ⟨functionNames none ps body, bindingsWritten ps ++ stmtsWritten body, false⟩ ::
      (bindingExtents ps ++ stmtExtents body)
  | .classDef name heritage members =>
    ⟨Ident.names name.toList, name.toList, false⟩ ::
      ⟨Ident.names name.toList, optionalWritten heritage ++ membersWritten members, true⟩ ::
        (optionalExtents heritage ++ memberExtents members)

def exprExtents : List Expr → List Extent
  | [] => []
  | e :: es => e.extents ++ exprExtents es

def optionalExtents : Option Expr → List Extent
  | none => []
  | some e => e.extents

def Key.extents : Key → List Extent
  | .fixed _ => []
  | .computed e => e.extents

def Property.extents : Property → List Extent
  | .shorthand _ _ => []
  | .pair key value => key.extents ++ value.extents
  | .spread value => value.extents

def propertyExtents : List Property → List Extent
  | [] => []
  | x :: xs => x.extents ++ propertyExtents xs

def Target.extents : Target → List Extent
  | .name _ | .hole => []
  | .place value => value.extents
  | .array elements => targetExtents elements
  | .object properties => targetExtents properties
  | .withDefault target value => target.extents ++ value.extents
  | .rest target => target.extents
  | .property key target => key.extents ++ target.extents
  | .shorthand _ fallback => optionalExtents fallback

def targetExtents : List Target → List Extent
  | [] => []
  | t :: ts => t.extents ++ targetExtents ts

def Binding.extents : Binding → List Extent
  | .name _ | .hole => []
  | .array elements => bindingExtents elements
  | .object properties => bindingExtents properties
  | .withDefault b value => b.extents ++ value.extents
  | .rest b => b.extents
  | .property key b => key.extents ++ b.extents

def bindingExtents : List Binding → List Extent
  | [] => []
  | b :: bs => b.extents ++ bindingExtents bs

def Member.extents : Member → List Extent
  | .method key ps body =>
    key.extents ++ (functionExtents none ps body ++ (bindingExtents ps ++ stmtExtents body))
  | .field key value => key.extents ++ optionalExtents value
  | .staticBlock body => ⟨stmtDeclared body, stmtsWritten body, false⟩ :: stmtExtents body

def memberExtents : List Member → List Extent
  | [] => []
  | m :: ms => m.extents ++ memberExtents ms

def Stmt.extents : Stmt → List Extent
  | .inert | .importNames _ => []
  | .eval value => value.extents
  | .declare _ bs => bindingExtents bs
  | .function _ ps body => functionExtents none ps body ++ (bindingExtents ps ++ stmtExtents body)
  | .classDef _ heritage members => optionalExtents heritage ++ memberExtents members
  | .exported _ body => stmtExtents body
  | .block body => ⟨stmtDeclared body, stmtsWritten body, false⟩ :: stmtExtents body
  | .labeled body => body.extents
  | .headed head bodies => head.extents ++ stmtExtents bodies
  | .doWhile body test => body.extents ++ test.extents
  | .forLoop start control body =>
    ⟨stmtDeclared start ++ body.declared,
        stmtsWritten start ++ (exprsWritten control ++ body.written), false⟩ ::
      (stmtExtents start ++ (exprExtents control ++ body.extents))
  | .forDeclared kind bs subject body =>
    ⟨keptBy kind bs ++ body.declared, bindingsWritten bs ++ (subject.written ++ body.written), false⟩ ::
      (bindingExtents bs ++ (subject.extents ++ body.extents))
  | .forTarget target subject body =>
    ⟨body.declared, target.written ++ (subject.written ++ body.written), false⟩ ::
      (target.extents ++ (subject.extents ++ body.extents))
  | .switch subject cases =>
    subject.extents ++ (⟨stmtDeclared cases, stmtsWritten cases, false⟩ :: stmtExtents cases)
  | .tryCatch body clauses =>
    ⟨stmtDeclared body, stmtsWritten body, false⟩ :: stmtExtents body ++ stmtExtents clauses
  | .catchClause parameter body =>
    ⟨Ident.names (bindingIdents parameter) ++ stmtDeclared body,
        bindingsWritten parameter ++ stmtsWritten body, false⟩ ::
      (bindingExtents parameter ++ stmtExtents body)

def stmtExtents : List Stmt → List Extent
  | [] => []
  | s :: ss => s.extents ++ stmtExtents ss

end

/-- The scopes of an expression that stands alone, which is a function as far as hoisted names are
concerned. -/
def Expr.allExtents (e : Expr) : List Extent := ⟨e.hoisted, e.written, false⟩ :: e.extents

/-- A scope that reaches the identifier declares its name. -/
def Extent.Binds (x : Extent) (id : Ident) : Prop :=
  x.implied = false ∧ id ∈ x.inside ∧ id.name ∈ x.names

instance (x : Extent) (id : Ident) : Decidable (x.Binds id) :=
  inferInstanceAs (Decidable (_ ∧ _ ∧ _))

/-! ## Bound and free -/

/-- The free occurrences are written in the script in the same order, and so are the insides of the
scopes. Where no identifier is written twice, none that a scope binds is free. -/
structure Separated (written : List Ident) (extents : List Extent) (free : List Occurrence) :
    Prop where
  free_sublist : (free.map (·.ident)).Sublist written
  inside_written : ∀ s ∈ extents, s.inside ⊆ written
  apart : written.Nodup → ∀ s ∈ extents, ∀ x ∈ free, ¬ s.Binds x.ident

namespace Separated

variable {written written' ids : List Ident} {extents extents' : List Extent}
  {free free' : List Occurrence} {names : List String}

theorem free_written (h : Separated written extents free) : ∀ x ∈ free, x.ident ∈ written :=
  fun _ hx => h.free_sublist.subset (List.mem_map_of_mem hx)

theorem unused (ids : List Ident) : Separated ids [] [] := ⟨List.nil_sublist _, nofun, nofun⟩

theorem mention (id : Ident) (shorthand : Bool) : Separated [id] [] [⟨id, shorthand⟩] :=
  ⟨List.Sublist.refl _, nofun, nofun⟩

theorem append (h : Separated written extents free) (h' : Separated written' extents' free') :
    Separated (written ++ written') (extents ++ extents') (free ++ free') where
  free_sublist := by
    rw [List.map_append]
    exact h.free_sublist.append h'.free_sublist
  inside_written s hs id hid := List.mem_append.mpr
    ((List.mem_append.mp hs).imp (h.inside_written s · hid) (h'.inside_written s · hid))
  apart hnodup s hs x hx hbinds := by
    obtain ⟨hw, hw', hdisjoint⟩ := List.nodup_append.mp hnodup
    rcases List.mem_append.mp hs with hs | hs <;> rcases List.mem_append.mp hx with hx | hx
    · exact h.apart hw s hs x hx hbinds
    · exact hdisjoint _ (h.inside_written s hs hbinds.2.1) _ (h'.free_written x hx) rfl
    · exact hdisjoint _ (h.free_written x hx) _ (h'.inside_written s hs hbinds.2.1) rfl
    · exact h'.apart hw' s hs x hx hbinds

theorem after (ids : List Ident) (h : Separated written extents free) :
    Separated (ids ++ written) extents free := (unused ids).append h

theorem scope (names : List String) (h : Separated written extents free) :
    Separated written (⟨names, written, false⟩ :: extents) (without names free) where
  free_sublist := (List.filter_sublist.map _).trans h.free_sublist
  inside_written s hs := by
    rcases List.mem_cons.mp hs with rfl | hs
    · exact List.Subset.refl _
    · exact h.inside_written s hs
  apart hnodup s hs x hx hbinds := by
    obtain ⟨hfree, hother⟩ := List.mem_filter.mp hx
    rcases List.mem_cons.mp hs with rfl | hs
    · simp [hbinds.2.2] at hother
    · exact h.apart hnodup s hs x hfree hbinds

theorem implied (names : List String) (hids : ids ⊆ written) (h : Separated written extents free) :
    Separated written (⟨names, ids, true⟩ :: extents) free where
  free_sublist := h.free_sublist
  inside_written s hs := by
    rcases List.mem_cons.mp hs with rfl | hs
    · exact hids
    · exact h.inside_written s hs
  apart hnodup s hs x hx hbinds := by
    rcases List.mem_cons.mp hs with rfl | hs
    · exact Bool.noConfusion hbinds.1
    · exact h.apart hnodup s hs x hx hbinds

theorem declared (names : List String) (ids : List Ident) (h : Separated written extents free) :
    Separated (ids ++ written) (⟨names, ids, false⟩ :: extents) free where
  free_sublist := (h.after ids).free_sublist
  inside_written s hs := by
    rcases List.mem_cons.mp hs with rfl | hs
    · exact List.subset_append_left _ _
    · exact (h.after ids).inside_written s hs
  apart hnodup s hs x hx hbinds := by
    rcases List.mem_cons.mp hs with rfl | hs
    · exact (List.nodup_append.mp hnodup).2.2 _ hbinds.2.1 _ (h.free_written x hx) rfl
    · exact (h.after ids).apart hnodup s hs x hx hbinds

theorem function (own : Option Ident) {ps : List Binding} {body : List Stmt}
    (h : Separated (bindingsWritten ps ++ stmtsWritten body) extents free) :
    Separated (own.toList ++ (bindingsWritten ps ++ stmtsWritten body))
      (functionExtents own ps body ++ extents) (without (functionNames own ps body) free) :=
  ((h.after own.toList).implied ["arguments"] (List.subset_append_right _ _)).scope _

end Separated

mutual

theorem Expr.separated : ∀ e : Expr, Separated e.written e.extents e.free
  | .ident id => .mention id false
  | .literal _ => .unused []
  | .form _ parts => exprs_separated parts
  | .object properties => properties_separated properties
  | .assign target value => target.separated.append value.separated
  | .update target => target.separated
  | .function name ps body =>
    ((bindings_separated false ps).append (stmts_separated body)).function name
  | .arrow ps body => ((bindings_separated false ps).append (stmts_separated body)).scope _
  | .classDef name heritage members =>
    (((optional_separated heritage).append (members_separated members)).implied _
      (List.Subset.refl _)).declared _ name.toList

theorem exprs_separated : ∀ es : List Expr, Separated (exprsWritten es) (exprExtents es) (exprFree es)
  | [] => .unused []
  | e :: es => e.separated.append (exprs_separated es)

theorem optional_separated : ∀ e : Option Expr,
    Separated (optionalWritten e) (optionalExtents e) (optionalFree e)
  | none => .unused []
  | some e => e.separated

theorem Key.separated : ∀ k : Key, Separated k.written k.extents k.free
  | .fixed _ => .unused []
  | .computed e => e.separated

theorem Property.separated : ∀ x : Property, Separated x.written x.extents x.free
  | .shorthand id fallback => (Separated.mention id true).append (.unused (optionalWritten fallback))
  | .pair key value => key.separated.append value.separated
  | .spread value => value.separated

theorem properties_separated : ∀ xs : List Property,
    Separated (propertiesWritten xs) (propertyExtents xs) (propertyFree xs)
  | [] => .unused []
  | x :: xs => x.separated.append (properties_separated xs)

theorem Target.separated : ∀ t : Target, Separated t.written t.extents t.free
  | .name id => .mention id false
  | .place value => value.separated
  | .array elements => targets_separated elements
  | .object properties => targets_separated properties
  | .withDefault target value => target.separated.append value.separated
  | .hole => .unused []
  | .rest target => target.separated
  | .property key target => key.separated.append target.separated
  | .shorthand id fallback => (Separated.mention id true).append (optional_separated fallback)

theorem targets_separated : ∀ ts : List Target,
    Separated (targetsWritten ts) (targetExtents ts) (targetFree ts)
  | [] => .unused []
  | t :: ts => t.separated.append (targets_separated ts)

theorem Binding.separated (assigns : Bool) : ∀ b : Binding,
    Separated b.written b.extents (b.free assigns)
  | .name id =>
    match assigns with
    | true => .mention id false
    | false => .unused [id]
  | .array elements => bindings_separated assigns elements
  | .object properties => bindings_separated assigns properties
  | .withDefault b value => (b.separated assigns).append value.separated
  | .hole => .unused []
  | .rest b => b.separated assigns
  | .property key b => key.separated.append (b.separated assigns)

theorem bindings_separated (assigns : Bool) : ∀ bs : List Binding,
    Separated (bindingsWritten bs) (bindingExtents bs) (bindingFree assigns bs)
  | [] => .unused []
  | b :: bs => (b.separated assigns).append (bindings_separated assigns bs)

theorem Member.separated : ∀ m : Member, Separated m.written m.extents m.free
  | .method key ps body => key.separated.append
      (((bindings_separated false ps).append (stmts_separated body)).function none)
  | .field key value => key.separated.append (optional_separated value)
  | .staticBlock body => (stmts_separated body).scope _

theorem members_separated : ∀ ms : List Member,
    Separated (membersWritten ms) (memberExtents ms) (memberFree ms)
  | [] => .unused []
  | m :: ms => m.separated.append (members_separated ms)

theorem Stmt.separated : ∀ s : Stmt, Separated s.written s.extents s.free
  | .inert => .unused []
  | .importNames _ => .unused []
  | .eval value => value.separated
  | .declare _ bs => bindings_separated true bs
  | .function name ps body =>
    (((bindings_separated false ps).append (stmts_separated body)).function none).after name.toList
  | .classDef name heritage members =>
    ((optional_separated heritage).append (members_separated members)).after name.toList
  | .exported _ body => stmts_separated body
  | .block body => (stmts_separated body).scope _
  | .labeled body => body.separated
  | .headed head bodies => head.separated.append (stmts_separated bodies)
  | .doWhile body test => body.separated.append test.separated
  | .forLoop start control body =>
    ((stmts_separated start).append ((exprs_separated control).append body.separated)).scope _
  | .forDeclared _ bs subject body =>
    ((bindings_separated true bs).append (subject.separated.append body.separated)).scope _
  | .forTarget target subject body =>
    (target.separated.append (subject.separated.append body.separated)).scope _
  | .switch subject cases => subject.separated.append ((stmts_separated cases).scope _)
  | .tryCatch body clauses => ((stmts_separated body).scope _).append (stmts_separated clauses)
  | .catchClause parameter body =>
    ((bindings_separated false parameter).append (stmts_separated body)).scope _

theorem stmts_separated : ∀ ss : List Stmt, Separated (stmtsWritten ss) (stmtExtents ss) (stmtFree ss)
  | [] => .unused []
  | s :: ss => s.separated.append (stmts_separated ss)

end

theorem Expr.allSeparated (e : Expr) : Separated e.written e.allExtents e.freeOccurrences :=
  e.separated.scope e.hoisted

end TemplateCompiler.Script
