/-! # What the parts of a compilation share -/

namespace TemplateCompiler

structure Session where
  nextId : Nat := 0
  /-- Pieces of markup, no two of them equal. -/
  templates : List String := []
  /-- Components to be looked up at run time. -/
  components : List String := []
  /-- Actions to be looked up at run time. -/
  directives : List String := []
  /-- Names that loops introduce, with the number of loops that do so. -/
  identifiers : List (String × Nat) := []
  /-- The number of loops around. -/
  loopDepth : Nat := 0

/-- Adds `a` unless it is there. -/
def insertNew {α : Type} [BEq α] (a : α) (as : List α) : List α :=
  if as.contains a then as else as ++ [a]

namespace Session

def allocateId (s : Session) : Nat × Session := (s.nextId, { s with nextId := s.nextId + 1 })

/-- The number of a piece of markup, which is added if it is new. -/
def addTemplate (s : Session) (text : String) : Nat × Session :=
  match s.templates.idxOf? text with
  | some i => (i, s)
  | none => (s.templates.length, { s with templates := s.templates ++ [text] })

def addComponent (s : Session) (name : String) : Session :=
  { s with components := insertNew name s.components }

def addDirective (s : Session) (name : String) : Session :=
  { s with directives := insertNew name s.directives }

def count (s : Session) (name : String) : Nat := (s.identifiers.lookup name).getD 0

/-- A loop around introduces the name. -/
def isIdentifier (s : Session) (name : String) : Bool := 0 < s.count name

/-- Changes the count of a name that has one. -/
def modifyCount (f : Nat → Nat) (name : String) (counts : List (String × Nat)) :
    List (String × Nat) :=
  counts.map fun (n, k) => if n == name then (n, f k) else (n, k)

def addIdentifier (s : Session) (name : String) : Session :=
  { s with
    identifiers :=
      if s.identifiers.any (·.1 == name) then modifyCount (· + 1) name s.identifiers
      else s.identifiers ++ [(name, 1)] }

def removeIdentifier (s : Session) (name : String) : Session :=
  { s with identifiers := modifyCount (· - 1) name s.identifiers }

def addIdentifiers (s : Session) (names : List String) : Session := names.foldl addIdentifier s

def removeIdentifiers (s : Session) (names : List String) : Session :=
  names.foldl removeIdentifier s

end Session

end TemplateCompiler
