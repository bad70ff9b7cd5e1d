import TemplateCompiler.Proofs.Block.Contents
import TemplateCompiler.Transform.Names

/-! # Runs of transformations

The small steps of a transformation as functions of the context, and what a successful run of a
composed transformation says about its parts.
-/

namespace TemplateCompiler

open Template (Node)

theorem prefix_insertNew (a : String) (as : List String) : as <+: insertNew a as := by
  unfold insertNew
  split
  · exact List.prefix_rfl
  · exact List.prefix_append as [a]

@[simp] theorem Session.addTemplate_identifiers (s : Session) (text : String) :
    (s.addTemplate text).2.identifiers = s.identifiers := by
  unfold addTemplate
  split <;> rfl

theorem exists_eq_ok {ε α : Type} {x : Except ε α} (h : x.isOk = true) : ∃ a, x = .ok a := by
  cases x with
  | error e => cases h
  | ok a => exact ⟨a, rfl⟩

theorem exists_ok {ε α : Type} {x : Except ε α} {P : α → Prop} (hok : x.isOk = true)
    (h : ∀ a, x = .ok a → P a) : ∃ a, x = .ok a ∧ P a :=
  (exists_eq_ok hok).imp fun a ha => ⟨ha, h a ha⟩

theorem exists_ok_of_map {ε α β : Type} {x : Except ε α} {f : α → β} {b : β}
    (h : x.toOption.map f = some b) : ∃ a, x = .ok a ∧ f a = b := by
  cases x with
  | error e => cases h
  | ok a => exact ⟨a, rfl, Option.some.inj h⟩

/-! ## Steps on a context -/

namespace Context

/-- The context with further flags on its node. -/
def flag (c : Context) (flags : Flags) : Context :=
  { c with dynamic := { c.dynamic with flags := c.dynamic.flags.union flags } }

/-- The id of the node, or the one that it would receive next. -/
def ownId (c : Context) : Nat := c.dynamic.id.getD c.session.nextId

/-- The context whose node has an id. -/
def referenced (c : Context) : Context :=
  { c with
    session := if c.dynamic.id.isSome then c.session else c.session.allocateId.2
    dynamic :=
      if c.dynamic.id.isSome then c.dynamic
      else
        { c.dynamic with
          id := some c.session.nextId
          flags := c.dynamic.flags.union { referenced := true } } }

/-- The context whose block has received a contribution. -/
def add (c : Context) (x : Contribution) : Context := { c with block := c.block.add x }

/-- The context with further markup. -/
def write (c : Context) (text : String) : Context := { c with template := c.template ++ text }

/-- The context in a later session. -/
def during (c : Context) (s : Session) : Context := { c with session := s }

theorem referenced_of_some {c : Context} {id : Nat} (h : c.dynamic.id = some id) :
    c.referenced = c := by
  simp [referenced, h]

@[simp] theorem referenced_id (c : Context) : c.referenced.dynamic.id = some c.ownId := by
  cases h : c.dynamic.id <;> simp [referenced, ownId, h]

@[simp] theorem referenced_identifiers (c : Context) :
    c.referenced.session.identifiers = c.session.identifiers := by
  cases h : c.dynamic.id <;> simp [referenced, Session.allocateId, h]

@[simp] theorem referenced_directives (c : Context) :
    c.referenced.session.directives = c.session.directives := by
  cases h : c.dynamic.id <;> simp [referenced, Session.allocateId, h]

@[simp] theorem referenced_anchor (c : Context) :
    c.referenced.dynamic.anchor = c.dynamic.anchor := by
  cases h : c.dynamic.id <;> simp [referenced, h]

@[simp] theorem referenced_children (c : Context) :
    c.referenced.dynamic.children = c.dynamic.children := by
  cases h : c.dynamic.id <;> simp [referenced, h]

@[simp] theorem referenced_template (c : Context) :
    c.referenced.dynamic.template = c.dynamic.template := by
  cases h : c.dynamic.id <;> simp [referenced, h]

@[simp] theorem referenced_insert (c : Context) :
    c.referenced.dynamic.flags.insert = c.dynamic.flags.insert := by
  cases h : c.dynamic.id <;> simp [referenced, Flags.union, h]

@[simp] theorem referenced_nonTemplate (c : Context) :
    c.referenced.dynamic.flags.nonTemplate = c.dynamic.flags.nonTemplate := by
  cases h : c.dynamic.id <;> simp [referenced, Flags.union, h]

@[simp] theorem referenced_ownId (c : Context) : c.referenced.ownId = c.ownId := by
  simp [ownId]

/-- The context `c'` is that of the same node. Only what is known of the node, the block and the
session have changed since `c`. -/
structure SamePlace (c c' : Context) : Prop where
  node : c'.node = c.node
  parent : c'.parent = c.parent
  index : c'.index = c.index
  isBlockRoot : c'.isBlockRoot = c.isBlockRoot
  template : c'.template = c.template
  slots : c'.slots = c.slots
  consumedChildren : c'.consumedChildren = c.consumedChildren
  removed : c'.removed = c.removed

theorem SamePlace.refl (c : Context) : c.SamePlace c := ⟨rfl, rfl, rfl, rfl, rfl, rfl, rfl, rfl⟩

theorem SamePlace.trans {c c₁ c₂ : Context} (h₁ : c.SamePlace c₁) (h₂ : c₁.SamePlace c₂) :
    c.SamePlace c₂ where
  node := h₂.node.trans h₁.node
  parent := h₂.parent.trans h₁.parent
  index := h₂.index.trans h₁.index
  isBlockRoot := h₂.isBlockRoot.trans h₁.isBlockRoot
  template := h₂.template.trans h₁.template
  slots := h₂.slots.trans h₁.slots
  consumedChildren := h₂.consumedChildren.trans h₁.consumedChildren
  removed := h₂.removed.trans h₁.removed

end Context

/-! ## Composed transformations -/

namespace Transform

variable {α β : Type} {c c' : Context}

theorem bind_eq_ok {t : Transform α} {f : α → Transform β} {b : β} :
    (t >>= f) c = .ok b c' ↔ ∃ a c₁, t c = .ok a c₁ ∧ f a c₁ = .ok b c' := by
  change EStateM.bind t f c = _ ↔ _
  cases h : t c with
  | ok a c₁ =>
    simp only [EStateM.bind, h, EStateM.Result.ok.injEq]
    exact ⟨fun hb => ⟨a, c₁, ⟨rfl, rfl⟩, hb⟩, fun ⟨_, _, ⟨ha, hc⟩, hb⟩ => ha ▸ hc ▸ hb⟩
  | error e c₁ => simp [EStateM.bind, h]

theorem bind_run {t : Transform α} {a : α} {c₁ : Context} (h : t c = .ok a c₁)
    (f : α → Transform β) : (t >>= f) c = f a c₁ := by
  change EStateM.bind t f c = _
  simp [EStateM.bind, h]

theorem bind_error {t : Transform α} {e : Diagnostic} {c₁ : Context} (h : t c = .error e c₁)
    (f : α → Transform β) : (t >>= f) c = .error e c₁ := by
  change EStateM.bind t f c = _
  simp [EStateM.bind, h]

/-- What a run fails with and the context it leaves, if it fails. -/
def failure? (t : Transform α) (c : Context) : Option (Diagnostic × Context) :=
  match t c with
  | .ok _ _ => none
  | .error e c' => some (e, c')

theorem failure?_isNone {t : Transform α} :
    (failure? t c).isNone = true ↔ ∃ a c', t c = .ok a c' := by
  unfold failure?
  cases t c <;> simp

theorem failure?_eq_some {t : Transform α} {x : Diagnostic × Context} :
    failure? t c = some x ↔ t c = .error x.1 x.2 := by
  unfold failure?
  cases t c <;> simp [Prod.ext_iff]

@[simp] theorem pure_run (a : α) : (pure a : Transform α) c = .ok a c := rfl

@[simp] theorem throw_run (e : Diagnostic) : (throw e : Transform α) c = .error e c := rfl

@[simp] theorem get_bind (f : Context → Transform β) : (get >>= f) c = f c c := rfl

@[simp] theorem modify_run (g : Context → Context) :
    (modify g : Transform Unit) c = .ok () (g c) := rfl

@[simp] theorem modify_bind (g : Context → Context) (f : Unit → Transform β) :
    (modify g >>= f) c = f () (g c) := rfl

@[simp] theorem getSession_bind (f : Session → Transform β) :
    (getSession >>= f) c = f c.session c := rfl

theorem ofExcept_eq_ok {x : Except Diagnostic α} {a : α} :
    (ofExcept x : Transform α) c = .ok a c' ↔ x = .ok a ∧ c = c' := by
  cases x with
  | ok b => simp [ofExcept]
  | error e => simp [ofExcept]

/-! ## Steps of a transformation -/

@[simp] theorem setFlags_run (flags : Flags) : setFlags flags c = .ok () (c.flag flags) := rfl

@[simp] theorem modifySession_run (f : Session → Session) :
    modifySession f c = .ok () (c.during (f c.session)) := rfl

@[simp] theorem allocateId_run :
    allocateId c = .ok c.session.nextId (c.during c.session.allocateId.2) := rfl

@[simp] theorem addTemplate_run (text : String) :
    addTemplate text c =
      .ok (c.session.addTemplate text).1 (c.during (c.session.addTemplate text).2) := rfl

@[simp] theorem reference_run : reference c = .ok c.ownId c.referenced := by
  rw [reference, get_bind]
  cases h : c.dynamic.id with
  | some id => simp [Context.ownId, Context.referenced_of_some h, h]
  | none =>
    simp only [Context.ownId, Context.referenced, h, Option.getD_none, Option.isSome_none]
    rfl

@[simp] theorem registerOperation_run (op : Operation) :
    registerOperation op c = .ok () (c.add (.once op)) := rfl

@[simp] theorem registerEffect_run (es : List Expression) (op : Operation) :
    registerEffect es op c = .ok () (c.add (.whenever es op)) := rfl

@[simp] theorem appendTemplate_run (text : String) :
    appendTemplate text c = .ok () (c.write text) := rfl

@[simp] theorem replaceNode_run (n : Node) :
    replaceNode n c = .ok () { c with node := n } := rfl

theorem qualify_eq_ok {o : Options} {raw e : Expression} :
    qualify o raw c = .ok e c' ↔ raw.qualified o c.session = .ok e ∧ c = c' := by
  rw [qualify, getSession_bind, ofExcept_eq_ok]

theorem mapM_qualify_eq_ok {o : Options} {x : Option α} {g : α → Expression}
    {y : Option Expression} :
    x.mapM (fun a => qualify o (g a)) c = .ok y c' ↔
      x.mapM (fun a => (g a).qualified o c.session) = .ok y ∧ c = c' := by
  cases x with
  | none =>
    change EStateM.Result.ok none c = _ ↔ Except.ok none = _ ∧ _
    simp
  | some a =>
    change (some <$> qualify o (g a)) c = _ ↔ some <$> (g a).qualified o c.session = _ ∧ _
    rw [map_eq_pure_bind, bind_eq_ok]
    simp only [qualify_eq_ok, pure_run, EStateM.Result.ok.injEq]
    cases (g a).qualified o c.session with
    | ok e => simp [Functor.map, Except.map, and_comm, eq_comm]
    | error d => simp [Functor.map, Except.map]

end Transform

end TemplateCompiler
