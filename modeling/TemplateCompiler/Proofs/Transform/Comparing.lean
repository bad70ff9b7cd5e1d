import TemplateCompiler.Proofs.Transform.Run

/-! # Comparing runs

Rules for composed transformations reduce a comparison of two runs to their steps.
-/

namespace TemplateCompiler

open Transform

theorem optionRel_eq {α : Type} {x y : Option α} : Option.Rel Eq x y ↔ x = y := by
  constructor
  · rintro (h | _)
    · rw [h]
    · rfl
  · rintro rfl
    cases x with
    | none => exact .none
    | some a => exact .some rfl

/-- A way to compare two runs. -/
structure Comparison where
  /-- The runs may be in these contexts at the same time. -/
  Related : Context → Context → Prop
  /-- The second run may come from one context to the other. -/
  Later : Context → Context → Prop
  /-- Both runs may fail in these contexts. -/
  Fails : Context → Context → Prop
  /-- If the first run fails, it does not matter what the second one does. -/
  isOneWay : Prop
  refl (c : Context) : Later c c
  trans {c₁ c₂ c₃ : Context} : Later c₁ c₂ → Later c₂ c₃ → Later c₁ c₃
  fails {c c' : Context} : Related c c' → Fails c c'

namespace Comparison

variable {S : Comparison} {α β γ : Type}

/-- The runs yield values that `V` relates, where the second one has come to, or they fail with the
same error. The second one began in `c`. -/
inductive Outcome (S : Comparison) (c : Context) (V : Context → α → α → Prop) :
    EStateM.Result Diagnostic Context α → EStateM.Result Diagnostic Context α → Prop
  | ok {a a' : α} {k k' : Context} :
      S.Related k k' → S.Later c k' → V k' a a' → Outcome S c V (.ok a k) (.ok a' k')
  | error (e : Diagnostic) {k k' : Context} :
      S.Fails k k' → Outcome S c V (.error e k) (.error e k')
  | excused {e : Diagnostic} {k : Context} (r : EStateM.Result Diagnostic Context α) :
      S.isOneWay → Outcome S c V (.error e k) r

/-- The transformations compare in all related contexts that come later than `w`. -/
def Runs (S : Comparison) (w : Context) (V : Context → α → α → Prop) (t t' : Transform α) : Prop :=
  ∀ ⦃c c'⦄, S.Related c c' → S.Later w c' → S.Outcome c' V (t c) (t' c')

/-- The values are the same. -/
abbrev Equal : Context → α → α → Prop := fun _ => Eq

/-- The same for what fails or not without a run. -/
inductive Excepts (S : Comparison) (V : α → α → Prop) :
    Except Diagnostic α → Except Diagnostic α → Prop
  | ok {a a' : α} : V a a' → Excepts S V (.ok a) (.ok a')
  | error (e : Diagnostic) : Excepts S V (.error e) (.error e)
  | excused {e : Diagnostic} (x : Except Diagnostic α) : S.isOneWay → Excepts S V (.error e) x

theorem Excepts.refl {V : α → α → Prop} (h : ∀ a, V a a) (x : Except Diagnostic α) :
    S.Excepts V x x := by
  cases x with
  | ok a => exact .ok (h a)
  | error e => exact .error e

theorem Excepts.bind {V : α → α → Prop} {W : β → β → Prop} {x x' : Except Diagnostic α}
    {f f' : α → Except Diagnostic β} (h : S.Excepts V x x')
    (hf : ∀ a a', V a a' → S.Excepts W (f a) (f' a')) : S.Excepts W (x >>= f) (x' >>= f') := by
  cases h with
  | ok ha => exact hf _ _ ha
  | error e => exact .error e
  | excused _ h => exact .excused _ h

namespace Runs

variable {w w' : Context} {V : Context → α → α → Prop} {W : Context → β → β → Prop}
  {R : α → α → Prop} {t t' : Transform α} {f f' : α → Transform β}

theorem later (h : S.Runs w V t t') (hw : S.Later w w') : S.Runs w' V t t' :=
  fun _ _ hc hw' => h hc (S.trans hw hw')

theorem bind (h : S.Runs w V t t')
    (hf : ∀ k a a', S.Later w k → V k a a' → S.Runs k W (f a) (f' a')) :
    S.Runs w W (t >>= f) (t' >>= f') := by
  intro c c' hc hw
  have ht := h hc hw
  generalize hr : t c = r at ht
  generalize hr' : t' c' = r' at ht
  cases ht with
  | ok hk hlater ha =>
    rw [bind_run hr, bind_run hr']
    have hrest := hf _ _ _ (S.trans hw hlater) ha hk (S.refl _)
    generalize f _ _ = r at hrest
    generalize f' _ _ = r' at hrest
    cases hrest with
    | ok hl hlater' hb => exact .ok hl (S.trans hlater hlater') hb
    | error e hfails => exact .error e hfails
    | excused _ hone => exact .excused _ hone
  | error e hfails =>
    rw [bind_error hr, bind_error hr']
    exact .error e hfails
  | excused _ hone =>
    rw [bind_error hr]
    exact .excused _ hone

/-- What is known of the values does not depend on the context. -/
theorem andThen (h : S.Runs w (fun _ => R) t t')
    (hf : ∀ a a', R a a' → S.Runs w W (f a) (f' a')) : S.Runs w W (t >>= f) (t' >>= f') :=
  h.bind fun _ a a' hk ha => (hf a a' ha).later hk

theorem seq (h : S.Runs w Equal t t') (hf : ∀ a, S.Runs w W (f a) (f' a)) :
    S.Runs w W (t >>= f) (t' >>= f') :=
  h.andThen fun a _ ha => ha ▸ hf a

theorem pure {a a' : α} (h : ∀ k, S.Later w k → V k a a') :
    S.Runs w V (Pure.pure a) (Pure.pure a') :=
  fun _ _ hc hw => .ok hc (S.refl _) (h _ hw)

theorem pure_eq (a : α) : S.Runs w Equal (Pure.pure a) (Pure.pure a) := .pure fun _ _ => rfl

theorem throw (e : Diagnostic) : S.Runs w V (MonadExcept.throw e) (MonadExcept.throw e) :=
  fun _ _ hc _ => .error e (S.fails hc)

theorem throw_bind (e : Diagnostic) {f f' : α → Transform β} :
    S.Runs w W ((MonadExcept.throw e : Transform α) >>= f) (MonadExcept.throw e >>= f') :=
  fun _ _ hc _ => .error e (S.fails hc)

theorem ite {p : Prop} [Decidable p] {u u' : Transform α} (h : p → S.Runs w V t t')
    (h' : ¬p → S.Runs w V u u') : S.Runs w V (if p then t else u) (if p then t' else u') := by
  split
  · exact h ‹_›
  · exact h' ‹_›

theorem ofExcept {x x' : Except Diagnostic α} (h : S.Excepts R x x') :
    S.Runs w (fun _ => R) (MonadExcept.ofExcept x) (MonadExcept.ofExcept x') := by
  cases h with
  | ok ha => exact .pure fun _ _ => ha
  | error e => exact .throw e
  | excused x hone => exact fun _ _ _ _ => .excused _ hone

theorem ofExcept_eq (x : Except Diagnostic α) :
    S.Runs w Equal (MonadExcept.ofExcept x) (MonadExcept.ofExcept x) :=
  ofExcept (.refl (fun _ => rfl) x)

theorem get {f f' : Context → Transform β}
    (h : ∀ c c', S.Related c c' → S.Later w c' → S.Runs c' W (f c) (f' c')) :
    S.Runs w W (MonadState.get >>= f) (MonadState.get >>= f') :=
  fun c c' hc hw => h c c' hc hw hc (S.refl c')

theorem getSession {f f' : Session → Transform β}
    (h : ∀ c c', S.Related c c' → S.Later w c' → S.Runs c' W (f c.session) (f' c'.session)) :
    S.Runs w W (Transform.getSession >>= f) (Transform.getSession >>= f') :=
  fun c c' hc hw => h c c' hc hw hc (S.refl c')

theorem modify {g g' : Context → Context}
    (h : ∀ c c', S.Related c c' → S.Later w c' → S.Related (g c) (g' c') ∧ S.Later c' (g' c')) :
    S.Runs w Equal (modify g) (modify g') :=
  fun c c' hc hw => .ok (h c c' hc hw).1 (h c c' hc hw).2 rfl

theorem yield {g g' : α → β} (h : S.Runs w V t t')
    (hg : ∀ k a a', S.Later w k → V k a a' → W k (g a) (g' a')) :
    S.Runs w W (t >>= fun a => Pure.pure (g a)) (t' >>= fun a => Pure.pure (g' a)) := by
  intro c c' hc hw
  have ht := h hc hw
  generalize hr : t c = r at ht
  generalize hr' : t' c' = r' at ht
  cases ht with
  | ok hk hlater ha =>
    rw [bind_run hr, bind_run hr']
    exact .ok hk hlater (hg _ _ _ (S.trans hw hlater) ha)
  | error e hfails =>
    rw [bind_error hr, bind_error hr']
    exact .error e hfails
  | excused _ hone =>
    rw [bind_error hr]
    exact .excused _ hone

theorem map {g : α → β} (h : S.Runs w V t t') (hg : ∀ k a a', V k a a' → W k (g a) (g a')) :
    S.Runs w W (g <$> t) (g <$> t') := by
  rw [map_eq_pure_bind, map_eq_pure_bind]
  exact h.yield fun k a a' _ => hg k a a'

theorem imp {V' : Context → α → α → Prop} (h : S.Runs w V t t')
    (hV : ∀ k a a', V k a a' → V' k a a') : S.Runs w V' t t' := by
  rw [← bind_pure t, ← bind_pure t']
  exact h.yield fun k a a' _ => hV k a a'

theorem optionMapM {f f' : γ → Transform β} {R : β → β → Prop}
    (h : ∀ x, S.Runs w (fun _ => R) (f x) (f' x)) (x : Option γ) :
    S.Runs w (fun _ => Option.Rel R) (x.mapM f) (x.mapM f') := by
  cases x with
  | none => exact .pure fun _ _ => .none
  | some a => exact (h a).map fun _ _ _ => .some

theorem foldlM {f f' : β → γ → Transform β} {R : β → β → Prop}
    (h : ∀ b b' x, R b b' → S.Runs w (fun _ => R) (f b x) (f' b' x)) (xs : List γ) {b b' : β}
    (hb : R b b') : S.Runs w (fun _ => R) (xs.foldlM f b) (xs.foldlM f' b') := by
  induction xs generalizing b b' with
  | nil => exact .pure fun _ _ => hb
  | cons x xs ih =>
    rw [List.foldlM_cons, List.foldlM_cons]
    exact (h b b' x hb).andThen fun b₁ b₁' hb₁ => ih hb₁

theorem forM {f f' : γ → Transform Unit} {xs : List γ}
    (h : ∀ x ∈ xs, S.Runs w Equal (f x) (f' x)) : S.Runs w Equal (xs.forM f) (xs.forM f') := by
  induction xs with
  | nil => exact .pure_eq ()
  | cons x xs ih => exact (h x (by simp)).seq fun _ => ih fun y hy => h y (by simp [hy])

theorem mapM_eq {f f' : γ → Transform β} {xs : List γ}
    (h : ∀ x ∈ xs, S.Runs w Equal (f x) (f' x)) : S.Runs w Equal (xs.mapM f) (xs.mapM f') := by
  induction xs with
  | nil => exact .pure_eq []
  | cons x xs ih =>
    rw [List.mapM_cons, List.mapM_cons]
    exact (h x (by simp)).seq fun y => (ih fun z hz => h z (by simp [hz])).seq fun ys => .pure_eq _

theorem mapM {U : γ → γ → Prop} {f f' : γ → Transform β} {R : β → β → Prop}
    (h : ∀ x x', U x x' → S.Runs w (fun _ => R) (f x) (f' x')) {xs xs' : List γ}
    (hxs : List.Forall₂ U xs xs') :
    S.Runs w (fun _ => List.Forall₂ R) (xs.mapM f) (xs'.mapM f') := by
  induction hxs with
  | nil => exact .pure fun _ _ => .nil
  | cons hx _ ih =>
    rw [List.mapM_cons, List.mapM_cons]
    exact (h _ _ hx).andThen fun y y' hy => ih.yield fun _ _ _ _ => .cons hy

end Runs

end Comparison

end TemplateCompiler
