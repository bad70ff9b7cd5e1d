import TemplateCompiler.Script.Scope.Event

/-! # Trees of scopes

Scopes are numbered in the order in which they are entered; the outermost one is number 0.
-/

namespace TemplateCompiler.Script

structure Declaration where
  kind : DeclarationKind
  id : Ident
  deriving DecidableEq, Repr

structure Scope where
  parent : Option Nat
  /-- Declarations that are hoisted pass through a block. -/
  isBlock : Bool
  children : List Nat := []
  /-- What is declared directly in this scope; of each name its first declaration. -/
  declarations : List Declaration := []
  /-- The names mentioned in this scope or in one inside it. -/
  references : List String := []
  deriving DecidableEq, Repr

namespace Scope

def declaration? (s : Scope) (name : String) : Option Declaration :=
  s.declarations.find? (·.id.name == name)

def declares (s : Scope) (name : String) : Bool := (s.declaration? name).isSome

def mentions (s : Scope) (name : String) : Bool := s.references.contains name

/-- Declares a name, unless it is declared already. -/
def insert (s : Scope) (d : Declaration) : Scope :=
  if s.declares d.id.name then s else { s with declarations := s.declarations ++ [d] }

end Scope

/-- An identifier in use. -/
structure Reference where
  ident : Ident
  /-- The scope it stands in. -/
  scope : Nat
  /-- The scope that declares it, if there is one. -/
  owner : Option Nat := none
  shorthand : Bool
  deriving DecidableEq, Repr

/-! ## Chains of scopes -/

/-- At most `n` scopes from the given one outwards. -/
def outward (scopes : List Scope) : Nat → Nat → List Nat
  | 0, _ => []
  | n + 1, i =>
    i :: match scopes[i]?.bind Scope.parent with
      | some p => outward scopes n p
      | none => []

/-- The scope `i` and those around it, innermost first. -/
def scopeChain (scopes : List Scope) (i : Nat) : List Nat := outward scopes scopes.length i

/-- The innermost scope of the chain from `i` that satisfies `p`. -/
def nearest? (scopes : List Scope) (p : Scope → Bool) (i : Nat) : Option Nat :=
  (scopeChain scopes i).find? fun j => scopes[j]?.any p

/-- The scope that declares `name`, seen from scope `i`. -/
def owner? (scopes : List Scope) (i : Nat) (name : String) : Option Nat :=
  nearest? scopes (·.declares name) i

/-! ## Collecting -/

/-- The scopes entered so far, the one being read, and the identifiers seen. -/
structure Collector where
  scopes : List Scope
  current : Nat
  references : List Reference

namespace Collector

def empty : Collector where
  scopes := [{ parent := none, isBlock := false }]
  current := 0
  references := []

def step (c : Collector) : Event → Collector
  | .enter isBlock =>
    let new := c.scopes.length
    { c with
      scopes := c.scopes.modify c.current (fun s => { s with children := s.children ++ [new] }) ++
        [{ parent := some c.current, isBlock }]
      current := new }
  | .leave => { c with current := (c.scopes[c.current]?.bind Scope.parent).getD 0 }
  | .declare kind id =>
    let target :=
      if kind.isHoisted then (nearest? c.scopes (!·.isBlock) c.current).getD 0 else c.current
    { c with scopes := c.scopes.modify target (·.insert { kind, id }) }
  | .mention ident shorthand =>
    { c with references := c.references ++ [{ ident, scope := c.current, shorthand }] }

end Collector

/-! ## Resolving -/

structure ScopeTree where
  scopes : List Scope
  /-- All identifiers in use, in reading order. -/
  references : List Reference
  /-- The names that no scope declares where they are used, each with the index of the first such
  use. -/
  globals : List (String × Nat)

/-- Records a mention of `name` along a chain of scopes. A scope that has the name already ends the
chain, since the scopes around it have it too. -/
def recordAlong (name : String) : List Nat → List Scope → List Scope
  | [], scopes => scopes
  | i :: chain, scopes =>
    if scopes[i]?.any (·.mentions name) then scopes
    else
      recordAlong name chain
        (scopes.modify i fun s => { s with references := name :: s.references })

namespace ScopeTree

/-- Resolves one reference, the later ones being resolved already. -/
def resolve (r : Reference) (i : Nat) (tree : ScopeTree) : ScopeTree :=
  let name := r.ident.name
  let owner := owner? tree.scopes r.scope name
  { scopes := recordAlong name (scopeChain tree.scopes r.scope) tree.scopes
    references := { r with owner } :: tree.references
    globals :=
      if owner.isSome then tree.globals
      else (name, i) :: tree.globals.filter (·.1 != name) }

def ofEvents (events : List Event) : ScopeTree :=
  let c := events.foldl Collector.step Collector.empty
  c.references.zipIdx.foldr (fun (r, i) tree => resolve r i tree)
    { scopes := c.scopes, references := [], globals := [] }

def ofExpr (e : Expr) : ScopeTree := ofEvents e.events

def ofProgram (body : List Stmt) : ScopeTree := ofEvents (stmtEvents body)

/-- The references that no scope declares. -/
def free (tree : ScopeTree) : List Reference := tree.references.filter (·.owner.isNone)

def isGlobal (tree : ScopeTree) (name : String) : Bool := tree.globals.any (·.1 == name)

/-- The first undeclared use of every name, in reading order. -/
def globalIdents (tree : ScopeTree) : List Ident :=
  tree.globals.filterMap fun (_, i) => tree.references[i]?.map (·.ident)

end ScopeTree

end TemplateCompiler.Script
