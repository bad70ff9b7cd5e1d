import TemplateCompiler.Script.Scope.Event

/-! # Parts of scripts

What a part of a script means for names is part of what the script means.
-/

namespace TemplateCompiler.Script

open Event

/-- A part of a script. The names of a pattern are `recorded` where they count as mentioned, and
`declared` in front of it unless it stands in another pattern. -/
inductive Part
  | events (es : List Event)
  | expr (e : Expr)
  | key (k : Key)
  | property (p : Property)
  | target (t : Target)
  | pattern (recorded : Bool) (b : Binding)
  | declared (kind : DeclarationKind) (recorded : Bool) (b : Binding)
  | member (m : Member)
  | stmt (s : Stmt)

namespace Part

/-- What the part means for names. -/
def meaning : Part → List Event
  | events es => es
  | expr e => e.events
  | key k => k.events
  | property p => p.events
  | target t => t.events
  | pattern recorded b => b.events recorded
  | declared kind recorded b => declareAll kind b ++ b.events recorded
  | member m => m.events
  | stmt s => s.events

/-- Parts in a scope of their own. -/
def scope (isBlock : Bool) (ps : List Part) : List Part :=
  events [enter isBlock] :: (ps ++ [events [leave]])

def callable (ps : List Binding) (body : List Stmt) : List Part :=
  scope false (ps.map (declared .parameter false) ++ body.map stmt)

/-- The parts right inside a part, in order. -/
def pieces : Part → List Part
  | expr (.form _ es) => es.map expr
  | expr (.object ps) => ps.map property
  | expr (.assign t e) => [target t, expr e]
  | expr (.update t) => [target t]
  | expr (.function name ps body) =>
    scope false (events (name.toList.map (declare .functionDecl)) ::
      (ps.map (declared .parameter false) ++ body.map stmt))
  | expr (.arrow ps body) => callable ps body
  | expr (.classDef _ heritage ms) => heritage.toList.map expr ++ ms.map member
  | key (.computed e) | property (.spread e) | target (.place e) | stmt (.eval e) => [expr e]
  | property (.pair k e) => [key k, expr e]
  | target (.array ts) | target (.object ts) => ts.map target
  | target (.withDefault t e) => [target t, expr e]
  | target (.rest t) => [target t]
  | target (.property k t) => [key k, target t]
  | target (.shorthand id fallback) => events [mention id true] :: fallback.toList.map expr
  | pattern recorded (.array bs) | pattern recorded (.object bs) => bs.map (pattern recorded)
  | pattern recorded (.withDefault b e) => [pattern recorded b, expr e]
  | pattern recorded (.rest b) => [pattern recorded b]
  | pattern recorded (.property k b) => [key k, pattern recorded b]
  | declared kind recorded b => [events (declareAll kind b), pattern recorded b]
  | member (.method k ps body) => key k :: callable ps body
  | member (.field k value) => key k :: value.toList.map expr
  | member (.staticBlock body) | stmt (.block body) => scope true (body.map stmt)
  | stmt (.declare kind bs) => bs.map (declared kind true)
  | stmt (.function name ps body) =>
    events (name.toList.map (declare .functionDecl)) :: callable ps body
  | stmt (.classDef name heritage ms) =>
    events (name.toList.map (declare .classDecl)) :: (heritage.toList.map expr ++ ms.map member)
  | stmt (.exported _ body) => body.map stmt
  | stmt (.labeled s) => [stmt s]
  | stmt (.headed e ss) => expr e :: ss.map stmt
  | stmt (.doWhile s e) => [stmt s, expr e]
  | stmt (.forLoop start control s) => scope true (start.map stmt ++ (control.map expr ++ [stmt s]))
  | stmt (.forDeclared kind bs e s) => scope true (bs.map (declared kind true) ++ [expr e, stmt s])
  | stmt (.forTarget t e s) => scope true [target t, expr e, stmt s]
  | stmt (.switch e ss) => expr e :: scope true (ss.map stmt)
  | stmt (.tryCatch body ss) => scope true (body.map stmt) ++ ss.map stmt
  | stmt (.catchClause bs body) => scope true (bs.map (declared .caught false) ++ body.map stmt)
  | p => [events p.meaning]

theorem flatMap_eq {α : Type} {f : α → Part} {F : List α → List Event} (hnil : F [] = [])
    (hcons : ∀ a as, F (a :: as) = (f a).meaning ++ F as) (as : List α) :
    (as.map f).flatMap meaning = F as := by
  induction as with
  | nil => exact hnil.symm
  | cons a as ih => rw [List.map_cons, List.flatMap_cons, ih, hcons]

theorem flatMap_stmts (body : List Stmt) : (body.map stmt).flatMap meaning = stmtEvents body :=
  flatMap_eq (F := stmtEvents) rfl (fun _ _ => rfl) body

theorem flatMap_pieces (p : Part) : p.pieces.flatMap meaning = p.meaning := by
  have hexprs := flatMap_eq (f := expr) (F := exprEvents) rfl fun _ _ => rfl
  have hproperties := flatMap_eq (f := property) (F := propertyEvents) rfl fun _ _ => rfl
  have htargets := flatMap_eq (f := target) (F := targetEvents) rfl fun _ _ => rfl
  have hpatterns r := flatMap_eq (f := pattern r) (F := bindingEvents r) rfl fun _ _ => rfl
  have hparameters := flatMap_eq (f := declared .parameter false) (F := parameterEvents) rfl
    fun _ _ => (List.append_assoc ..).symm
  have hdeclarators kind := flatMap_eq (f := declared kind true) (F := declaratorEvents kind) rfl
    fun _ _ => (List.append_assoc ..).symm
  have hcaught := flatMap_eq (f := declared .caught false) (F := caughtEvents) rfl
    fun _ _ => (List.append_assoc ..).symm
  have hmembers := flatMap_eq (f := member) (F := memberEvents) rfl fun _ _ => rfl
  have hstmts := flatMap_stmts
  have hoptional (e : Option Expr) : exprEvents e.toList = optionalEvents e := by
    cases e <;> simp [optionalEvents, exprEvents]
  have hscope b ps : (scope b ps).flatMap meaning = enclosed b (ps.flatMap meaning) := by
    simp [scope, enclosed, meaning]
  cases p with
  | events | declared => simp [pieces, meaning]
  | expr e => cases e <;> simp [pieces, callable, meaning, Expr.events, *]
  | key k => cases k <;> simp [pieces, meaning, Key.events]
  | property p => cases p <;> simp [pieces, meaning, Property.events]
  | target t => cases t <;> simp [pieces, meaning, Target.events, *]
  | pattern r b => cases b <;> simp [pieces, meaning, Binding.events, *]
  | member m => cases m <;> simp [pieces, callable, meaning, Member.events, *]
  | stmt s => cases s <;> simp [pieces, callable, meaning, Stmt.events, *]

/-- The second part is the first one or stands anywhere inside it. -/
inductive Holds : Part → Part → Prop
  | self (p : Part) : Holds p p
  | piece {p q r : Part} : q ∈ p.pieces → Holds q r → Holds p r

theorem Holds.infix {p q : Part} (h : p.Holds q) : q.meaning <:+: p.meaning := by
  induction h with
  | self => exact List.infix_rfl
  | @piece p q _ hq _ ih =>
    rw [← p.flatMap_pieces]
    exact ih.trans (List.infix_of_mem_flatten (List.mem_map_of_mem hq))

end Part

end TemplateCompiler.Script
