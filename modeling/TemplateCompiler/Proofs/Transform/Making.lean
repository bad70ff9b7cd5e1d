import TemplateCompiler.Proofs.Ids.Owned
import TemplateCompiler.Proofs.Transform.Run
import TemplateCompiler.Transform.Regions

/-! # Making blocks

Blocks are made in a session, whatever the context. The rules below say how a session goes on when
a block, the alternatives of a condition, a loop or the slots of a component are made.
-/

namespace TemplateCompiler

open Template (Branches EachBlock Element Fragment Node)
open Transform

variable {b : EachBlock} {α : Type}

/-- The block that the context of its root has come to. -/
def Context.toBlock (c : Context) : Block := { c.block with node := c.node, dynamic := c.dynamic }

/-- The context in which the visit of a new block begins. -/
def Context.newBlock (n : Node) (s : Session) : Context :=
  (Context.root n Block.empty s).referenced

/-- Visiting `n` in session `s` makes the block `b` and leaves the session as `s'`. -/
def MakesBlock (visit : Transform Unit) (n : Node) (s : Session) (b : Block) (s' : Session) :
    Prop :=
  ∃ c, visit (Context.newBlock n s) = .ok () c ∧ b = c.toBlock ∧ s' = c.session

/-- The blocks of the branches after the first one. -/
inductive MakesAlternative (o : Options) (visit : Transform Unit) :
    Branches → Session → Alternative → Session → Prop
  | done (s : Session) : MakesAlternative o visit .done s .nothing s
  | otherwise {body : Fragment} {s s' : Session} {b : Block} :
      MakesBlock visit (.fragment body) s b s' →
      MakesAlternative o visit (.otherwise body) s (.block b) s'
  | test {condition : Template.Code} {body : Fragment} {rest : Branches} {s s₁ s' : Session}
      {e : Expression} {positive : Block} {negative : Alternative} :
      (Expression.ofCode condition).qualified o s.allocateId.2 = .ok e →
      MakesBlock visit (.fragment body) s.allocateId.2 positive s₁ →
      MakesAlternative o visit rest s₁ negative s' →
      MakesAlternative o visit (.test condition body rest) s
        (.branch s.nextId e positive negative) s'

/-- A block that is made only if there is something to make it of. -/
inductive MakesOptional (visit : Transform Unit) :
    Option Fragment → Session → Option Block → Session → Prop
  | none (s : Session) : MakesOptional visit none s none s
  | some {f : Fragment} {s s' : Session} {b : Block} :
      MakesBlock visit (.fragment f) s b s' → MakesOptional visit (some f) s (some b) s'

/-- The session inside a loop that introduces `names`. -/
def Session.enterLoop (s : Session) (names : List String) : Session :=
  { s.addIdentifiers names with loopDepth := (s.addIdentifiers names).loopDepth + 1 }

/-- The session after a loop that introduces `names`. -/
def Session.leaveLoop (s : Session) (names : List String) : Session :=
  Session.removeIdentifiers { s with loopDepth := s.loopDepth - 1 } names

/-- The names that a loop introduces. -/
def loopNames? (b : EachBlock) : Option (List String) :=
  (Script.patternNames? b.context).map (· ++ b.index.toList)

/-- A loop. Its subject and what shows in its place are made outside of its scope. -/
inductive MakesLoop (o : Options) (visit : Transform Unit) (id : Nat) (b : EachBlock) :
    Session → Operation → Session → Prop
  | intro {names : List String} {s s₁ s' : Session} {subject : Expression}
      {key : Option Expression} {body : Block} {fallback : Option Block} :
      loopNames? b = some names →
      (Expression.ofCode b.subject).qualified o s = .ok subject →
      MakesBlock visit (.fragment b.body) (s.enterLoop names) body s₁ →
      b.key.mapM (fun c => (Expression.ofCode c).qualified o s₁) = .ok key →
      MakesOptional visit b.fallback (s₁.leaveLoop names) fallback s' →
      MakesLoop o visit id b s
        (.loop id subject (.dynamic (Text.trim b.context) b.location)
          (b.index.map fun name => .dynamic name b.location) key body fallback) s'

/-- The blocks of slots, in their order. -/
inductive MakesSlots (visit : Transform Unit) :
    List (String × Fragment) → Session → List (String × Block) → Session → Prop
  | nil (s : Session) : MakesSlots visit [] s [] s
  | cons {name : String} {f : Fragment} {fs : List (String × Fragment)} {s s₁ s' : Session}
      {b : Block} {slots : List (String × Block)} :
      MakesBlock visit (.fragment f) s b s₁ → MakesSlots visit fs s₁ slots s' →
      MakesSlots visit ((name, f) :: fs) s ((name, b) :: slots) s'

/-! ## Successful runs follow the rules -/

variable {o : Options} {visit : Transform Unit} {c c' : Context}

theorem createBlock_eq_ok {n : Node} {b : Block} :
    createBlock visit n c = .ok b c' ↔
      ∃ s, MakesBlock visit n c.session b s ∧ c' = c.during s := by
  have hrun : ((do let _ ← reference; visit : Transform Unit)
      (Context.root n Block.empty c.session)) = visit (Context.newBlock n c.session) :=
    bind_run reference_run _
  simp only [createBlock, hrun, MakesBlock]
  cases h : visit (Context.newBlock n c.session) with
  | ok u k =>
    simp only [EStateM.Result.ok.injEq]
    constructor
    · rintro ⟨rfl, rfl⟩
      exact ⟨k.session, ⟨k, ⟨trivial, rfl⟩, rfl, rfl⟩, rfl⟩
    · rintro ⟨s, ⟨k', ⟨-, rfl⟩, rfl, rfl⟩, rfl⟩
      exact ⟨rfl, rfl⟩
  | error e k => simp

theorem createAlternative_ok {branches : Branches} {a : Alternative}
    (h : createAlternative o visit branches c = .ok a c') :
    ∃ s, MakesAlternative o visit branches c.session a s ∧ c' = c.during s := by
  induction branches generalizing c a with
  | done =>
    simp only [createAlternative, pure_run, EStateM.Result.ok.injEq] at h
    obtain ⟨rfl, rfl⟩ := h
    exact ⟨c.session, .done _, rfl⟩
  | otherwise body =>
    simp only [createAlternative, bind_eq_ok, createBlock_eq_ok, pure_run] at h
    obtain ⟨b, _, ⟨s, hb, rfl⟩, ⟨⟩⟩ := h
    exact ⟨s, .otherwise hb, rfl⟩
  | test condition body rest ih =>
    simp only [createAlternative, bind_eq_ok, allocateId_run, qualify_eq_ok, createBlock_eq_ok,
      pure_run] at h
    obtain ⟨_, _, ⟨⟩, e, _, ⟨he, rfl⟩, positive, _, ⟨s₁, hp, rfl⟩, negative, c₂, hn, ⟨⟩⟩ := h
    obtain ⟨s, hrest, rfl⟩ := ih hn
    exact ⟨s, .test he hp hrest, rfl⟩

theorem withIdentifiers_eq_ok {names : List String} {t : Transform α} {a : α} :
    withIdentifiers names t c = .ok a c' ↔
      ∃ c₁, t (c.during (c.session.addIdentifiers names)) = .ok a c₁ ∧
        c' = c₁.during (c₁.session.removeIdentifiers names) := by
  rw [withIdentifiers, bind_run (modifySession_run _)]
  cases h : t (c.during (c.session.addIdentifiers names)) with
  | ok b c₁ =>
    have hattempt : attempt t (c.during (c.session.addIdentifiers names)) = .ok (.ok b) c₁ := by
      simp [attempt, h]
    rw [bind_run hattempt, bind_run (modifySession_run _), ofExcept_eq_ok]
    simp only [Except.ok.injEq, EStateM.Result.ok.injEq]
    constructor
    · rintro ⟨rfl, rfl⟩
      exact ⟨c₁, ⟨rfl, rfl⟩, rfl⟩
    · rintro ⟨_, ⟨rfl, rfl⟩, rfl⟩
      exact ⟨rfl, rfl⟩
  | error e c₁ =>
    have hattempt : attempt t (c.during (c.session.addIdentifiers names)) = .ok (.error e) c₁ := by
      simp [attempt, h]
    rw [bind_run hattempt, bind_run (modifySession_run _), ofExcept_eq_ok]
    simp

theorem attempt_eq_ok {t : Transform α} {x : Except Diagnostic α} : attempt t c = .ok x c' ↔
      (∃ a, t c = .ok a c' ∧ x = .ok a) ∨ ∃ e, t c = .error e c' ∧ x = .error e := by
  cases h : t c <;> simp [attempt, h, and_comm, eq_comm]

/-- The body and the key of a loop are both made inside of its scope. -/
theorem createLoopBody_ok {names : List String} {body : Block} {key : Option Expression}
    (h : createLoopBody o visit names b c = .ok (body, key) c') :
    ∃ s, MakesBlock visit (.fragment b.body) (c.session.enterLoop names) body s ∧
      b.key.mapM (fun code => (Expression.ofCode code).qualified o s) = .ok key ∧
      c' = c.during (s.leaveLoop names) := by
  rw [createLoopBody, withIdentifiers_eq_ok] at h
  obtain ⟨c₁, h, rfl⟩ := h
  simp only [bind_eq_ok, modifySession_run, attempt_eq_ok, createBlock_eq_ok, mapM_qualify_eq_ok,
    ofExcept_eq_ok, pure_run] at h
  obtain ⟨_, _, ⟨⟩, _, _, hbody, _, _, hkey, _, _, ⟨⟩, b', _, ⟨hb, rfl⟩, k', _, ⟨hk, rfl⟩, ⟨⟩⟩ := h
  obtain ⟨_, ⟨s, hbody, rfl⟩, rfl⟩ | ⟨_, _, rfl⟩ := hbody
  · obtain ⟨_, ⟨hkey, rfl⟩, rfl⟩ | ⟨_, _, rfl⟩ := hkey
    · simp only [Except.ok.injEq] at hb hk
      subst hb hk
      exact ⟨s, hbody, hkey, rfl⟩
    · simp at hk
  · simp at hb

theorem createLoop_ok {id : Nat} {op : Operation} (h : createLoop o visit id b c = .ok op c') :
    ∃ s, MakesLoop o visit id b c.session op s ∧ c' = c.during s := by
  simp only [createLoop, bind_eq_ok, qualify_eq_ok] at h
  obtain ⟨subject, _, ⟨hsubject, rfl⟩, h⟩ := h
  cases hnames : Script.patternNames? b.context with
  | none => simp [hnames] at h
  | some names =>
    simp only [hnames, bind_eq_ok, pure_run, Prod.exists] at h
    obtain ⟨body, key, _, hrun, fallback, _, hfallback, ⟨⟩⟩ := h
    obtain ⟨s₁, hbody, hkey, rfl⟩ := createLoopBody_ok hrun
    have hall : loopNames? b = some (names ++ b.index.toList) := by simp [loopNames?, hnames]
    cases hb : b.fallback with
    | none =>
      rw [hb] at hfallback
      obtain ⟨rfl, rfl⟩ := EStateM.Result.ok.inj hfallback
      exact ⟨_, .intro hall hsubject hbody hkey (hb ▸ .none _), rfl⟩
    | some f =>
      rw [hb] at hfallback
      change (some <$> createBlock visit (.fragment f)) _ = _ at hfallback
      rw [map_eq_pure_bind, bind_eq_ok] at hfallback
      simp only [createBlock_eq_ok, pure_run] at hfallback
      obtain ⟨b', _, ⟨s', hf, rfl⟩, ⟨⟩⟩ := hfallback
      exact ⟨s', .intro hall hsubject hbody hkey (hb ▸ .some hf), rfl⟩

theorem createSlots_ok {fs : List (String × Fragment)} {slots : List (String × Block)}
    (h : (fs.mapM fun (name, f) => do
      return (name, ← createBlock visit (.fragment f)) : Transform _) c = .ok slots c') :
    ∃ s, MakesSlots visit fs c.session slots s ∧ c' = c.during s := by
  induction fs generalizing c slots with
  | nil =>
    obtain ⟨rfl, rfl⟩ := EStateM.Result.ok.inj h
    exact ⟨c.session, .nil _, rfl⟩
  | cons slot fs ih =>
    obtain ⟨name, f⟩ := slot
    simp only [List.mapM_cons, bind_eq_ok, createBlock_eq_ok, pure_run] at h
    obtain ⟨_, _, ⟨b, _, ⟨s₁, hb, rfl⟩, rfl, rfl⟩, rest, _, hrest, ⟨⟩⟩ := h
    obtain ⟨s, hslots, rfl⟩ := ih hrest
    exact ⟨s, .cons hb hslots, rfl⟩

/-! ## All runs -/

theorem createBlock_eq (v : Transform Unit) (n : Node) (c : Context) :
    createBlock v n c =
      match v (Context.newBlock n c.session) with
      | .ok _ k => .ok k.toBlock (c.during k.session)
      | .error e k => .error e (c.during k.session) := by
  have hrun : ((do let _ ← reference; v : Transform Unit)
      (Context.root n Block.empty c.session)) = v (Context.newBlock n c.session) :=
    bind_run reference_run _
  rw [createBlock, hrun]
  rfl

theorem withIdentifiers_eq (names : List String) (t : Transform α) (c : Context) :
    withIdentifiers names t c =
      match t (c.during (c.session.addIdentifiers names)) with
      | .ok a k => .ok a (k.during (k.session.removeIdentifiers names))
      | .error e k => .error e (k.during (k.session.removeIdentifiers names)) := by
  rw [withIdentifiers, bind_run (modifySession_run _)]
  cases h : t (c.during (c.session.addIdentifiers names)) with
  | ok a k =>
    exact bind_run (attempt_eq_ok.mpr (.inl ⟨a, h, rfl⟩)) _
  | error e k =>
    exact bind_run (attempt_eq_ok.mpr (.inr ⟨e, h, rfl⟩)) _

theorem mapM_qualify_run (x : Option α) (g : α → Expression) (c : Context) :
    x.mapM (fun a => qualify o (g a)) c =
      (ofExcept (x.mapM fun a => (g a).qualified o c.session) : Transform _) c := by
  cases x with
  | none => rfl
  | some a =>
    change (some <$> qualify o (g a)) c =
      (ofExcept (some <$> (g a).qualified o c.session) : Transform _) c
    rw [map_eq_pure_bind, qualify, bind_assoc, getSession_bind]
    cases (g a).qualified o c.session <;> rfl

/-- The body and the key of a loop are made in its scope, which is left in any case. -/
theorem createLoopBody_eq (v : Transform Unit) (names : List String) (b : EachBlock)
    (c : Context) :
    createLoopBody o v names b c =
      match createBlock v (.fragment b.body) (c.during (c.session.enterLoop names)) with
      | .error e k => .error e (k.during (k.session.leaveLoop names))
      | .ok body k =>
        match b.key.mapM (fun code => (Expression.ofCode code).qualified o k.session) with
        | .error e => .error e (k.during (k.session.leaveLoop names))
        | .ok key => .ok (body, key) (k.during (k.session.leaveLoop names)) := by
  have hkey : ∀ k, attempt (b.key.mapM fun code => qualify o (.ofCode code)) k =
      .ok (b.key.mapM fun code => (Expression.ofCode code).qualified o k.session) k := by
    intro k
    rw [attempt, mapM_qualify_run]
    cases b.key.mapM fun code => (Expression.ofCode code).qualified o k.session <;> rfl
  rw [createLoopBody, withIdentifiers_eq, bind_run (modifySession_run _)]
  cases hbody : createBlock v (.fragment b.body) (c.during (c.session.enterLoop names)) with
  | error e k =>
    have hattempt : attempt (createBlock v (.fragment b.body))
        (c.during (c.session.enterLoop names)) = .ok (.error e) k :=
      attempt_eq_ok.mpr (.inr ⟨e, hbody, rfl⟩)
    erw [bind_run hattempt, bind_run (hkey k)]
    rfl
  | ok body k =>
    have hattempt : attempt (createBlock v (.fragment b.body))
        (c.during (c.session.enterLoop names)) = .ok (.ok body) k :=
      attempt_eq_ok.mpr (.inl ⟨body, hbody, rfl⟩)
    erw [bind_run hattempt, bind_run (hkey k)]
    dsimp only
    cases b.key.mapM fun code => (Expression.ofCode code).qualified o k.session <;> rfl

/-! ## Blocks one after the other -/

/-- What the branches show. -/
def Template.Branches.bodies : Branches → List Fragment
  | .done => []
  | .otherwise body => [body]
  | .test _ body rest => body :: rest.bodies

/-- What a slot outlet shows when the slot is not filled. -/
def outletContent? (e : Element) : Option Fragment :=
  if e.children.all (·.isBlankText) then none else some ⟨e.children, e.location⟩

/-- Whether the children of the node are shown in the same block. -/
def Template.Node.isOpen : Node → Bool
  | fragment _ => true
  | element e => e.kind == .regular
  | _ => false

/-- What the node shows in blocks of their own, apart from the body of a loop. -/
def Template.Node.asides : Node → List Fragment
  | ifBlock b => b.consequent :: (alternateBranches b.alternate).bodies
  | eachBlock b => b.fallback.toList
  | element e =>
    match e.kind with
    | .component => ((slotsOf e).toOption.getD []).map (·.2)
    | .slotOutlet => (outletContent? e).toList
    | _ => []
  | _ => []

/-- Something else is noted in the session than ids, markup and names. -/
structure Session.Notes (s s' : Session) : Prop where
  nextId : s'.nextId = s.nextId
  templates : s'.templates = s.templates
  identifiers : s'.identifiers = s.identifiers

/-- A block is made of each region, with the names that are introduced there. The ids are given out
in between. -/
inductive Makes (visit : Transform Unit) :
    Session → List (List String × Fragment) → List Nat → List Block → Session → Prop
  | nil (s : Session) : Makes visit s [] [] [] s
  | id {s s' rs is bs} :
      Makes visit s.allocateId.2 rs is bs s' → Makes visit s rs (s.nextId :: is) bs s'
  | note {s s₁ s' rs is bs} : s.Notes s₁ → Makes visit s₁ rs is bs s' → Makes visit s rs is bs s'
  | block {f b s s₁ s' rs is bs} :
      MakesBlock visit (.fragment f) s b s₁ → Makes visit s₁ rs is bs s' →
      Makes visit s (([], f) :: rs) is (b :: bs) s'
  | loop {names f b s s₁ s' rs is bs} :
      MakesBlock visit (.fragment f) (s.enterLoop names) b s₁ →
      Makes visit (s₁.leaveLoop names) rs is bs s' →
      Makes visit s ((names, f) :: rs) is (b :: bs) s'

section Makes

variable {s s₁ s' : Session}

theorem Makes.append {rs rs' : List (List String × Fragment)} {is is' : List Nat}
    {bs bs' : List Block} (h : Makes visit s rs is bs s₁) (h' : Makes visit s₁ rs' is' bs' s') :
    Makes visit s (rs ++ rs') (is ++ is') (bs ++ bs') s' := by
  induction h with
  | nil => exact h'
  | id _ ih => exact .id (ih h')
  | note hs _ ih => exact .note hs (ih h')
  | block hb _ ih => exact .block hb (ih h')
  | loop hb _ ih => exact .loop hb (ih h')

theorem MakesOptional.makes {f : Option Fragment} {b : Option Block}
    (h : MakesOptional visit f s b s') :
    Makes visit s (f.toList.map ([], ·)) [] b.toList s' := by
  cases h with
  | none => exact .nil s
  | some hb => exact .block hb (.nil s')

theorem MakesAlternative.makes {branches : Branches} {a : Alternative}
    (h : MakesAlternative o visit branches s a s') :
    Makes visit s (branches.bodies.map ([], ·)) a.chainIds a.shown s' := by
  induction h with
  | done s => exact .nil s
  | otherwise hb => exact .block hb (.nil _)
  | test _ hb _ ih => exact .id (.block hb ih)

theorem MakesSlots.makes {fs : List (String × Fragment)} {slots : List (String × Block)}
    (h : MakesSlots visit fs s slots s') :
    Makes visit s (fs.map fun slot => ([], slot.2)) [] (slots.map (·.2)) s' := by
  induction h with
  | nil s => exact .nil s
  | cons hb _ ih => exact .block hb ih

theorem MakesLoop.makes {id : Nat} {op : Operation} (h : MakesLoop o visit id b s op s') :
    Makes visit s ((loopNames? b).toList.map (·, b.body) ++ b.fallback.toList.map ([], ·))
      op.chainIds op.shown s' := by
  cases h with
  | intro hnames _ hbody _ hfallback =>
    rw [hnames]
    exact .loop hbody hfallback.makes

end Makes

end TemplateCompiler
