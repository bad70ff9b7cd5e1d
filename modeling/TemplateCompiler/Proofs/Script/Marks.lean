import TemplateCompiler.Proofs.Script.FreeNames
import TemplateCompiler.Proofs.Script.Idents
import TemplateCompiler.Script.Grammar.Modifier
import TemplateCompiler.Script.Grammar.Target

/-! # What a tree is written with

The words that a tree is written with, in reading order: identifiers in use, identifiers that bind,
names of properties, labels, and the words that act as keywords in some places only. Reserved words
and all that is no word leave no mark.
-/

namespace TemplateCompiler.Script

inductive Mark
  /-- An identifier in use; `shorthand` when it stands for both a key and its value. -/
  | use (id : Ident) (shorthand : Bool)
  /-- The name of a function, of a class, of a parameter or of what is caught. -/
  | binder (id : Ident)
  | label
  /-- The name of a property, as it is written. -/
  | name (text : String)
  /-- Any number of words that may act as keywords here. -/
  | words (allowed : List String)
  /-- Names that modules give to what they import and export. -/
  | specifiers
  /-- Decorators leave no other trace in a tree. -/
  | decorators
  /-- Operands that are separated by commas from one that counts, and do not count themselves. -/
  | extra
  /-- What `implements` is followed by, an interface, or the label of a jump. -/
  | aside
  /-- Whatever is read and dropped. -/
  | dropped
  /-- A shorthand default that no assignment has justified yet; nothing is written for it. -/
  | pending
  deriving DecidableEq

namespace Mark

/-- The mark stands for any number of words, perhaps for none. -/
def repeats : Mark → Bool
  | words _ | specifiers | decorators | extra | aside | dropped => true
  | _ => false

/-- An identifier in use. -/
def use? : Mark → Option Occurrence
  | use id shorthand => some ⟨id, shorthand⟩
  | _ => none

/-- An identifier, in use or not. -/
def ident? : Mark → Option Ident
  | use id _ | binder id => some id
  | _ => none

/-- The name of a pattern, which counts as used where `record` says so. -/
def bound (record : Bool) (id : Ident) : Mark := if record then use id false else binder id

end Mark

/-- The identifiers in use. -/
def uses (ms : List Mark) : List Occurrence := ms.filterMap Mark.use?

/-- All identifiers. -/
def identsOf (ms : List Mark) : List Ident := ms.filterMap Mark.ident?

/-- The marks that something is written for. -/
def settled (ms : List Mark) : List Mark := ms.filter (· != .pending)

/-! ## Marks of a tree -/

/-- Words before the name of a method in an object. -/
def methodWords : List Mark := [.words ["async"], .words ["get"], .words ["set"]]

/-- What may stand before a class and before a function. -/
def classWords : List Mark := [.decorators, .words modifierWords]

/-- What may stand before a member of a class. -/
def memberWords : List Mark := classWords ++ [.words ["get"], .words ["set"]]

/-- What may stand before declarators. -/
def declarationWords : List Mark :=
  [.words modifierWords, .words ["await"], .words ["let", "using"]]

namespace Literal

@[simp] def marks : Literal → List Mark
  | metaProperty => [.words ["meta", "target"]]
  | _ => []

end Literal

namespace Form

/-- What is written before the operands. -/
@[simp] def before : Form → List Mark
  | await => [.words ["await"]]
  | yield => [.words ["yield"]]
  | importCall => [.words ["source", "defer"]]
  | _ => []

/-- What is written after the operands. -/
@[simp] def after : Form → List Mark
  | member name => [.name name]
  | importCall => [.extra]
  | _ => []

end Form

mutual

@[simp] def Expr.marks : Expr → List Mark
  | .ident id => [.use id false]
  | .literal value => value.marks
  | .form f parts => f.before ++ (exprMarks parts ++ f.after)
  | .object properties => propertyMarks properties
  | .assign target value => target.marks ++ value.marks
  | .update target => target.marks
  | .function name ps body =>
    .words ["async"] :: (name.toList.map .binder ++ (bindingMarks false ps ++ stmtMarks body))
  | .arrow ps body => .words ["async"] :: (bindingMarks false ps ++ stmtMarks body)
  | .classDef name heritage members =>
    classWords ++ (name.toList.map .binder ++
      (optionalMarks heritage ++ .extra :: .aside :: memberMarks members))

def exprMarks : List Expr → List Mark
  | [] => []
  | e :: es => e.marks ++ exprMarks es

@[simp] def optionalMarks : Option Expr → List Mark
  | none => []
  | some e => e.marks

@[simp] def Key.marks : Key → List Mark
  | .fixed text => [.name text]
  | .computed e => e.marks

@[simp] def Property.marks : Property → List Mark
  | .shorthand id none => [.use id true]
  | .shorthand id (some fallback) => .use id true :: .pending :: fallback.marks
  | .pair key value => methodWords ++ (key.marks ++ value.marks)
  | .spread value => value.marks

def propertyMarks : List Property → List Mark
  | [] => []
  | x :: xs => x.marks ++ propertyMarks xs

@[simp] def Target.marks : Target → List Mark
  | .name id => [.use id false]
  | .place value => value.marks
  | .array elements => targetMarks elements
  | .object properties => targetMarks properties
  | .withDefault target value => target.marks ++ value.marks
  | .hole => []
  | .rest target => target.marks
  | .property key target => methodWords ++ (key.marks ++ target.marks)
  | .shorthand id fallback => .use id true :: optionalMarks fallback

@[simp] def targetMarks : List Target → List Mark
  | [] => []
  | t :: ts => t.marks ++ targetMarks ts

@[simp] def Binding.marks (record : Bool) : Binding → List Mark
  | .name id => [.bound record id]
  | .array elements => bindingMarks record elements
  | .object properties => bindingMarks record properties
  | .withDefault b value => b.marks record ++ value.marks
  | .hole => []
  | .rest b => b.marks record
  | .property key b => key.marks ++ b.marks record

def bindingMarks (record : Bool) : List Binding → List Mark
  | [] => []
  | b :: bs => b.marks record ++ bindingMarks record bs

@[simp] def Member.marks : Member → List Mark
  | .method key ps body =>
    memberWords ++ (key.marks ++ (bindingMarks false ps ++ stmtMarks body))
  | .field key value => memberWords ++ (key.marks ++ optionalMarks value)
  | .staticBlock body => classWords ++ .words ["static"] :: stmtMarks body

def memberMarks : List Member → List Mark
  | [] => []
  | m :: ms => m.marks ++ memberMarks ms

@[simp] def Stmt.marks : Stmt → List Mark
  | .inert => [.aside]
  | .eval value => value.marks
  | .declare _ bs => declarationWords ++ bindingMarks true bs
  | .function name ps body =>
    .words modifierWords :: (name.toList.map .binder ++ (bindingMarks false ps ++ stmtMarks body))
  | .classDef name heritage members =>
    classWords ++ (name.toList.map .binder ++
      (optionalMarks heritage ++ .extra :: .aside :: memberMarks members))
  | .importNames _ => [.specifiers]
  | .exported _ [] => [.decorators, .specifiers]
  | .exported _ (s :: ss) => .decorators :: (s.marks ++ stmtMarks ss)
  | .block body => stmtMarks body
  | .labeled body => .label :: body.marks
  | .headed head bodies => head.marks ++ stmtMarks bodies
  | .doWhile body test => body.marks ++ test.marks
  | .forLoop start control body =>
    .words ["await"] :: (stmtMarks start ++ (exprMarks control ++ body.marks))
  | .forDeclared _ bs subject body =>
    .words ["await"] :: (declarationWords ++
      (bindingMarks true bs ++ .words ["of"] :: (subject.marks ++ body.marks)))
  | .forTarget target subject body =>
    .words ["await"] :: (target.marks ++ .words ["of"] :: (subject.marks ++ body.marks))
  | .switch subject cases => subject.marks ++ stmtMarks cases
  | .tryCatch body clauses => stmtMarks body ++ stmtMarks clauses
  | .catchClause parameter body => bindingMarks false parameter ++ stmtMarks body

def stmtMarks : List Stmt → List Mark
  | [] => []
  | s :: ss => s.marks ++ stmtMarks ss

end

/-! ## Lists -/

@[simp] theorem exprMarks_eq (es : List Expr) : exprMarks es = es.flatMap Expr.marks := by
  induction es with
  | nil => rfl
  | cons e es ih => simp [exprMarks, ih]

@[simp] theorem propertyMarks_eq (xs : List Property) :
    propertyMarks xs = xs.flatMap Property.marks := by
  induction xs with
  | nil => rfl
  | cons x xs ih => simp [propertyMarks, ih]

@[simp] theorem bindingMarks_eq (record : Bool) (bs : List Binding) :
    bindingMarks record bs = bs.flatMap (Binding.marks record) := by
  induction bs with
  | nil => rfl
  | cons b bs ih => simp [bindingMarks, ih]

@[simp] theorem memberMarks_eq (ms : List Member) : memberMarks ms = ms.flatMap Member.marks := by
  induction ms with
  | nil => rfl
  | cons m ms ih => simp [memberMarks, ih]

@[simp] theorem stmtMarks_eq (ss : List Stmt) : stmtMarks ss = ss.flatMap Stmt.marks := by
  induction ss with
  | nil => rfl
  | cons s ss ih => simp [stmtMarks, ih]

/-! ## Identifiers and mentions -/

def Event.mention? : Event → Option Occurrence
  | .mention id shorthand => some ⟨id, shorthand⟩
  | _ => none

/-- The identifiers in use among events. -/
def mentions (events : List Event) : List Occurrence := events.filterMap Event.mention?

@[simp] theorem mentions_append (xs ys : List Event) :
    mentions (xs ++ ys) = mentions xs ++ mentions ys := List.filterMap_append

@[simp] theorem uses_append (xs ys : List Mark) : uses (xs ++ ys) = uses xs ++ uses ys :=
  List.filterMap_append

@[simp] theorem identsOf_append (xs ys : List Mark) :
    identsOf (xs ++ ys) = identsOf xs ++ identsOf ys := List.filterMap_append

theorem mentions_declarations (kind : DeclarationKind) (ids : List Ident) :
    mentions (ids.map (.declare kind)) = [] := by
  simp [mentions, List.filterMap_map, Function.comp_def, Event.mention?]

/-- The marks hold the identifiers `ids`, and those in use are mentioned by the events. -/
structure Matches (events : List Event) (ms : List Mark) (ids : List Ident) : Prop where
  idents : identsOf ms = ids
  mentioned : Mark.pending ∉ ms → mentions events = uses ms

namespace Matches

variable {events events' : List Event} {m : Mark} {ms ms' : List Mark} {ids ids' : List Ident}

theorem nil : Matches [] [] [] := ⟨rfl, fun _ => rfl⟩

theorem append (h : Matches events ms ids) (h' : Matches events' ms' ids') :
    Matches (events ++ events') (ms ++ ms') (ids ++ ids') where
  idents := by
    rw [identsOf_append, h.idents, h'.idents]
  mentioned hpending := by
    rw [List.mem_append, not_or] at hpending
    rw [mentions_append, uses_append, h.mentioned hpending.1, h'.mentioned hpending.2]

theorem use (id : Ident) (shorthand : Bool) :
    Matches [.mention id shorthand] [.use id shorthand] [id] := ⟨rfl, fun _ => rfl⟩

theorem plain (hms : identsOf ms = []) : Matches [] ms [] where
  idents := hms
  mentioned _ := by
    refine (List.filterMap_eq_nil_iff.mpr fun m hm => ?_).symm
    have hnone := List.filterMap_eq_nil_iff.mp hms m hm
    cases m with
    | use id shorthand => cases hnone
    | _ => rfl

theorem after (ms : List Mark) (h : Matches events ms' ids) (hms : identsOf ms = []) :
    Matches events (ms ++ ms') ids :=
  (plain hms).append h

theorem binders (h : Matches events ms ids') (ids : List Ident) :
    Matches events (ids.map .binder ++ ms) (ids ++ ids') := by
  suffices hids : Matches [] (ids.map .binder) ids from hids.append h
  refine ⟨?_, fun _ => ?_⟩
  · simp [identsOf, List.filterMap_map, Function.comp_def, Mark.ident?]
  · simp [mentions, uses, List.filterMap_map, Function.comp_def, Mark.use?]

theorem declaring (h : Matches events ms ids) (kind : DeclarationKind) (declared : List Ident) :
    Matches (declared.map (.declare kind) ++ events) ms ids where
  idents := h.idents
  mentioned hpending := by
    rw [mentions_append, mentions_declarations, List.nil_append, h.mentioned hpending]

theorem enclosed (h : Matches events ms ids) (isBlock : Bool) :
    Matches (Event.enclosed isBlock events) ms ids where
  idents := h.idents
  mentioned hpending := by
    have hleave : mentions [.leave] = [] := rfl
    change mentions (events ++ [.leave]) = uses ms
    rw [mentions_append, hleave, List.append_nil, h.mentioned hpending]

/-- A default that is never justified is not mentioned. -/
theorem unjustified (id : Ident) {e : Expr} (h : Matches e.events e.marks e.written) :
    Matches [.mention id true] (.use id true :: .pending :: e.marks) (id :: e.written) where
  idents := congrArg (id :: ·) h.idents
  mentioned hpending := absurd (by simp) hpending

theorem name (record : Bool) (id : Ident) :
    Matches ((Binding.name id).events record) ((Binding.name id).marks record) [id] := by
  cases record with
  | true => exact use id false
  | false => exact binders .nil [id]

theorem ofClass (name : Option Ident) (h : Matches events ms ids)
    (h' : Matches events' ms' ids') :
    Matches (events ++ events')
      (classWords ++ (name.toList.map .binder ++ (ms ++ .extra :: .aside :: ms')))
      (name.toList ++ (ids ++ ids')) :=
  .after classWords (.binders (h.append (.after [.extra, .aside] h' rfl)) _) rfl

end Matches

mutual

/-- What is mentioned of a tree, what is marked and what is written agree. -/
theorem Expr.matched : ∀ e : Expr, Matches e.events e.marks e.written
  | .ident id => .use id false
  | .literal value => .plain (by cases value <;> rfl)
  | .form f parts => by
    have hafter : Matches [] f.after [] := .plain (by cases f <;> rfl)
    have hparts := ((exprs_matched parts).append hafter).after f.before (by cases f <;> rfl)
    rwa [List.append_nil, List.append_nil] at hparts
  | .object properties => properties_matched properties
  | .assign target value => target.matched.append value.matched
  | .update target => target.matched
  | .function name ps body =>
    .enclosed (.declaring (.after [.words ["async"]] (.binders
      ((parameters_matched ps).append (stmts_matched body)) _) rfl) _ _) _
  | .arrow ps body =>
    .enclosed (.after [.words ["async"]] ((parameters_matched ps).append (stmts_matched body))
      rfl) _
  | .classDef name heritage members =>
    .ofClass name (optional_matched heritage) (members_matched members)

theorem exprs_matched : ∀ es : List Expr, Matches (exprEvents es) (exprMarks es) (exprsWritten es)
  | [] => .nil
  | e :: es => e.matched.append (exprs_matched es)

theorem optional_matched : ∀ e : Option Expr,
    Matches (optionalEvents e) (optionalMarks e) (optionalWritten e)
  | none => .nil
  | some e => e.matched

theorem Key.matched : ∀ k : Key, Matches k.events k.marks k.written
  | .fixed _ => .plain rfl
  | .computed e => e.matched

theorem Property.matched : ∀ x : Property, Matches x.events x.marks x.written
  | .shorthand id none => .use id true
  | .shorthand id (some fallback) => .unjustified id fallback.matched
  | .pair key value => .after methodWords (key.matched.append value.matched) rfl
  | .spread value => value.matched

theorem properties_matched : ∀ xs : List Property,
    Matches (propertyEvents xs) (propertyMarks xs) (propertiesWritten xs)
  | [] => .nil
  | x :: xs => x.matched.append (properties_matched xs)

theorem Target.matched : ∀ t : Target, Matches t.events t.marks t.written
  | .name id => .use id false
  | .place value => value.matched
  | .array elements => targets_matched elements
  | .object properties => targets_matched properties
  | .withDefault target value => target.matched.append value.matched
  | .hole => .nil
  | .rest target => target.matched
  | .property key target => .after methodWords (key.matched.append target.matched) rfl
  | .shorthand id fallback => (Matches.use id true).append (optional_matched fallback)

theorem targets_matched : ∀ ts : List Target,
    Matches (targetEvents ts) (targetMarks ts) (targetsWritten ts)
  | [] => .nil
  | t :: ts => t.matched.append (targets_matched ts)

theorem Binding.matched (record : Bool) : ∀ b : Binding,
    Matches (b.events record) (b.marks record) b.written
  | .name id => .name record id
  | .array elements => bindings_matched record elements
  | .object properties => bindings_matched record properties
  | .withDefault b value => (b.matched record).append value.matched
  | .hole => .nil
  | .rest b => b.matched record
  | .property key b => key.matched.append (b.matched record)

theorem bindings_matched (record : Bool) : ∀ bs : List Binding,
    Matches (bindingEvents record bs) (bindingMarks record bs) (bindingsWritten bs)
  | [] => .nil
  | b :: bs => (b.matched record).append (bindings_matched record bs)

theorem parameters_matched : ∀ bs : List Binding,
    Matches (parameterEvents bs) (bindingMarks false bs) (bindingsWritten bs)
  | [] => .nil
  | b :: bs => ((b.matched false).append (parameters_matched bs)).declaring _ _

theorem declarators_matched (kind : DeclarationKind) : ∀ bs : List Binding,
    Matches (declaratorEvents kind bs) (bindingMarks true bs) (bindingsWritten bs)
  | [] => .nil
  | b :: bs => ((b.matched true).append (declarators_matched kind bs)).declaring _ _

theorem caught_matched : ∀ bs : List Binding,
    Matches (caughtEvents bs) (bindingMarks false bs) (bindingsWritten bs)
  | [] => .nil
  | b :: bs => ((b.matched false).append (caught_matched bs)).declaring _ _

theorem Member.matched : ∀ m : Member, Matches m.events m.marks m.written
  | .method key ps body =>
    .after memberWords (key.matched.append
      (((parameters_matched ps).append (stmts_matched body)).enclosed _)) rfl
  | .field key value => .after memberWords (key.matched.append (optional_matched value)) rfl
  | .staticBlock body =>
    .after classWords (.after [.words ["static"]]
      ((stmts_matched body).enclosed _) rfl) rfl

theorem members_matched : ∀ ms : List Member,
    Matches (memberEvents ms) (memberMarks ms) (membersWritten ms)
  | [] => .nil
  | m :: ms => m.matched.append (members_matched ms)

theorem Stmt.matched : ∀ s : Stmt, Matches s.events s.marks s.written
  | .inert => .plain rfl
  | .eval value => value.matched
  | .declare kind bs => .after declarationWords (declarators_matched kind bs) rfl
  | .function name ps body =>
    .declaring (.after [.words modifierWords] (.binders
      (((parameters_matched ps).append (stmts_matched body)).enclosed _) _) rfl) _ _
  | .classDef name heritage members =>
    .declaring (.ofClass name (optional_matched heritage) (members_matched members)) _ _
  | .importNames locals => by
    have hplain : Matches [] [.specifiers] [] := .plain rfl
    have h := hplain.declaring .imported locals
    rwa [List.append_nil] at h
  | .exported _ [] => .plain rfl
  | .exported _ (s :: ss) =>
    .after [.decorators] (s.matched.append (stmts_matched ss)) rfl
  | .block body => (stmts_matched body).enclosed _
  | .labeled body => .after [.label] body.matched rfl
  | .headed head bodies => head.matched.append (stmts_matched bodies)
  | .doWhile body test => body.matched.append test.matched
  | .forLoop start control body =>
    .enclosed (.after [.words ["await"]] ((stmts_matched start).append
      ((exprs_matched control).append body.matched)) rfl) _
  | .forDeclared kind bs subject body =>
    .enclosed (.after (.words ["await"] :: declarationWords) ((declarators_matched kind bs).append
      (.after [.words ["of"]] (subject.matched.append body.matched) rfl)) rfl) _
  | .forTarget target subject body =>
    .enclosed (.after [.words ["await"]] (target.matched.append
      (.after [.words ["of"]] (subject.matched.append body.matched) rfl)) rfl) _
  | .switch subject cases => subject.matched.append ((stmts_matched cases).enclosed _)
  | .tryCatch body clauses => ((stmts_matched body).enclosed _).append (stmts_matched clauses)
  | .catchClause parameter body =>
    ((caught_matched parameter).append (stmts_matched body)).enclosed _

theorem stmts_matched : ∀ ss : List Stmt, Matches (stmtEvents ss) (stmtMarks ss) (stmtsWritten ss)
  | [] => .nil
  | s :: ss => s.matched.append (stmts_matched ss)

end

/-! ## Targets -/

/-- The marks `ms'` are the marks `ms` with `n` defaults justified. -/
structure Justifies (n : Nat) (ms ms' : List Mark) : Prop where
  settled_eq : settled ms' = settled ms
  count_eq : ms.count .pending = ms'.count .pending + n

namespace Justifies

variable {n n' : Nat} {xs xs' ys ys' : List Mark}

theorem refl (ms : List Mark) : Justifies 0 ms ms := ⟨rfl, rfl⟩

theorem append (h : Justifies n xs xs') (h' : Justifies n' ys ys') :
    Justifies (n + n') (xs ++ ys) (xs' ++ ys') where
  settled_eq := by simp only [settled, List.filter_append]; exact congr (congrArg _ h.1) h'.1
  count_eq := by
    have hx := h.count_eq
    have hy := h'.count_eq
    rw [List.count_append, List.count_append]
    omega

theorem shorthand (id : Ident) (fallback : Option Expr) :
    Justifies (if fallback.isSome then 1 else 0) (Property.shorthand id fallback).marks
      (Target.shorthand id fallback).marks := by
  cases fallback with
  | none => exact refl _
  | some e => exact ⟨rfl, by simp⟩

end Justifies

theorem Expr.marks_toSimpleTarget? {e : Expr} {t : Target} (h : e.toSimpleTarget? = some t) :
    t.marks = e.marks := by
  cases e with
  | ident id =>
    cases h
    rfl
  | form f parts =>
    obtain ⟨-, ⟨⟩⟩ := Option.ite_none_right_eq_some.mp h
    rfl
  | _ => simp [Expr.toSimpleTarget?] at h

/-- A target is written as the expression it is read from, and justifies as many of its defaults as
it says. -/
theorem Expr.justifies_toTarget? {e : Expr} {t : Target} {n : Nat}
    (h : e.toTarget? = some (t, n)) : Justifies n e.marks t.marks := by
  refine (Expr.toTarget?.mutual_induct
    (fun e => ∀ t n, e.toTarget? = some (t, n) → Justifies n e.marks t.marks)
    (fun xs => ∀ ts n, propertyTargets? xs = some (ts, n) →
      Justifies n (propertyMarks xs) (targetMarks ts))
    (fun trailing es => ∀ ts n, elementTargets? trailing es = some (ts, n) →
      Justifies n (exprMarks es) (targetMarks ts))
    ?array ?object ?simple ?nil ?spread ?hole ?assign ?element ?none ?last ?early ?shorthand ?default
    ?pair).1 e t n h
  case array =>
    intro trailing parts ih t n ht
    obtain ⟨⟨ts, _⟩, hts, ⟨⟩⟩ := Option.bind_eq_some_iff.mp ht
    simpa [Form.before, Form.after] using ih ts n hts
  case object =>
    intro xs ih t n ht
    obtain ⟨⟨ts, _⟩, hts, ⟨⟩⟩ := Option.bind_eq_some_iff.mp ht
    exact ih ts n hts
  case simple =>
    intro e harray hobject t n ht
    rw [Expr.toTarget?.eq_3 e harray hobject] at ht
    obtain ⟨t', ht', ⟨⟩⟩ := Option.map_eq_some_iff.mp ht
    exact marks_toSimpleTarget? ht' ▸ .refl _
  case nil =>
    rintro trailing _ _ ⟨⟩
    exact .refl []
  case none =>
    rintro _ _ ⟨⟩
    exact .refl []
  case spread =>
    intro trailing e ih ts n ht
    obtain ⟨⟨t, m⟩, ht', h⟩ := Option.bind_eq_some_iff.mp ht
    obtain ⟨-, ⟨⟩⟩ := Option.ite_none_left_eq_some.mp h
    simpa [Form.before, Form.after] using ih t n ht'
  case hole =>
    intro trailing es ih ts n ht
    obtain ⟨⟨ts', _⟩, hts, ⟨⟩⟩ := Option.bind_eq_some_iff.mp ht
    exact ih ts' n hts
  case assign =>
    intro trailing t value es ih ts n ht
    obtain ⟨⟨ts', _⟩, hts, ⟨⟩⟩ := Option.bind_eq_some_iff.mp ht
    exact Nat.zero_add n ▸ (Justifies.refl (Expr.assign t value).marks).append (ih ts' n hts)
  case element =>
    intro trailing e es hspread hhole hassign ih ihs ts n ht
    rw [elementTargets?.eq_5 trailing e es hspread hhole hassign] at ht
    obtain ⟨⟨t, m⟩, ht', h⟩ := Option.bind_eq_some_iff.mp ht
    obtain ⟨⟨ts', m'⟩, hts, ⟨⟩⟩ := Option.bind_eq_some_iff.mp h
    exact (ih t m ht').append (ihs ts' m' hts)
  case last =>
    intro e ts n ht
    obtain ⟨t, ht', ⟨⟩⟩ := Option.map_eq_some_iff.mp ht
    simpa [marks_toSimpleTarget? ht'] using Justifies.refl e.marks
  case early =>
    intro value tail htail ts n ht
    rw [propertyTargets?.eq_3 _ _ htail] at ht
    cases ht
  case shorthand =>
    intro id fallback xs ih ts n ht
    obtain ⟨⟨ts', m⟩, hts, ⟨⟩⟩ := Option.bind_eq_some_iff.mp ht
    exact (Justifies.shorthand id fallback).append (ih ts' m hts)
  case default =>
    intro key t value xs ih ts n ht
    obtain ⟨⟨ts', _⟩, hts, ⟨⟩⟩ := Option.bind_eq_some_iff.mp ht
    exact Nat.zero_add n ▸
      (Justifies.refl (Property.pair key (.assign t value)).marks).append (ih ts' n hts)
  case pair =>
    intro key value xs hassign ih ihs ts n ht
    rw [propertyTargets?.eq_6 key value xs hassign] at ht
    obtain ⟨⟨t, m⟩, ht', h⟩ := Option.bind_eq_some_iff.mp ht
    obtain ⟨⟨ts', m'⟩, hts, ⟨⟩⟩ := Option.bind_eq_some_iff.mp h
    have hvalue : Justifies m (Property.pair key value).marks (Target.property key t).marks :=
      Nat.zero_add m ▸ (Justifies.refl methodWords).append
        (Nat.zero_add m ▸ (Justifies.refl key.marks).append (ih t m ht'))
    exact hvalue.append (ihs ts' m' hts)

end TemplateCompiler.Script
