import Mathlib.Data.List.Induction

/-! # First occurrences

Elements that count as the same are told apart by their places: of each kind, the first one stands
for all.
-/

namespace TemplateCompiler

variable {α : Type} {same : α → α → Bool}

/-- The elements that are the same as none before them, in order. -/
def firsts (same : α → α → Bool) (xs : List α) : List α :=
  (xs.zipIdx.filter fun x => !(xs.take x.2).any (same x.1)).map Prod.fst

@[simp] theorem firsts_nil : firsts same [] = [] := rfl

theorem firsts_concat (xs : List α) (x : α) :
    firsts same (xs ++ [x]) = firsts same xs ++ if xs.any (same x) then [] else [x] := by
  have hold : xs.zipIdx.filter (fun y => !((xs ++ [x]).take y.2).any (same y.1)) =
      xs.zipIdx.filter fun y => !(xs.take y.2).any (same y.1) := by
    apply List.filter_congr
    intro y hy
    rw [List.take_append_of_le_length (Nat.le_of_lt (List.snd_lt_of_mem_zipIdx hy))]
  rw [firsts, List.zipIdx_append, List.filter_append, hold, List.map_append]
  cases hx : xs.any (same x) <;> simp [firsts, hx]

theorem firsts_sublist (xs : List α) : (firsts same xs).Sublist xs := by
  have hfirst := (List.filter_sublist (p := fun x => !(xs.take x.2).any (same x.1))
    (l := xs.zipIdx)).map Prod.fst
  rwa [List.zipIdx_map_fst] at hfirst

/-- What comes later does not change the first occurrences so far. -/
theorem firsts_isPrefix (xs ys : List α) : firsts same xs <+: firsts same (xs ++ ys) := by
  induction ys using List.reverseRecOn with
  | nil => simp
  | append_singleton ys y ih =>
    rw [← List.append_assoc, firsts_concat]
    exact ih.trans (List.prefix_append _ _)

theorem pairwise_firsts (xs : List α) :
    (firsts same xs).Pairwise fun a b => same b a = false := by
  induction xs using List.reverseRecOn with
  | nil => exact .nil
  | append_singleton xs x ih =>
    rw [firsts_concat]
    cases hx : xs.any (same x) with
    | true => simpa using ih
    | false =>
      refine List.pairwise_append.mpr ⟨ih, List.pairwise_singleton _ _, ?_⟩
      intro a ha b hb
      obtain rfl : b = x := by simpa using hb
      simpa using List.any_eq_false.mp hx a ((firsts_sublist xs).subset ha)

section Keys

variable {κ : Type} [DecidableEq κ] {key : α → κ}

/-- Both have the same key. -/
def sameKey (key : α → κ) (a b : α) : Bool := decide (key a = key b)

theorem any_sameKey (xs : List α) (x : α) : xs.any (sameKey key x) = true ↔ key x ∈ xs.map key := by
  simp only [List.any_eq_true, sameKey, decide_eq_true_eq, List.mem_map]
  exact exists_congr fun a => and_congr_right fun _ => eq_comm

theorem firsts_concat_of_mem {xs : List α} {x : α} (h : key x ∈ xs.map key) :
    firsts (sameKey key) (xs ++ [x]) = firsts (sameKey key) xs := by
  rw [firsts_concat, if_pos ((any_sameKey xs x).mpr h), List.append_nil]

theorem firsts_concat_of_not_mem {xs : List α} {x : α} (h : key x ∉ xs.map key) :
    firsts (sameKey key) (xs ++ [x]) = firsts (sameKey key) xs ++ [x] := by
  rw [firsts_concat, if_neg (mt (any_sameKey xs x).mp h)]

theorem firsts_cons (x : α) (xs : List α) :
    firsts (sameKey key) (x :: xs) =
      x :: (firsts (sameKey key) xs).filter fun y => decide (key y ≠ key x) := by
  induction xs using List.reverseRecOn with
  | nil => rfl
  | append_singleton xs y ih =>
    by_cases hx : key y = key x
    · rw [← List.cons_append, firsts_concat_of_mem (by simp [hx]), ih]
      by_cases hy : key y ∈ xs.map key
      · rw [firsts_concat_of_mem hy]
      · rw [firsts_concat_of_not_mem hy, List.filter_append]
        simp [hx]
    · by_cases hy : key y ∈ xs.map key
      · rw [← List.cons_append, firsts_concat_of_mem (List.mem_cons_of_mem _ hy), ih,
          firsts_concat_of_mem hy]
      · rw [← List.cons_append, firsts_concat_of_not_mem (by simpa [hx] using hy), ih,
          firsts_concat_of_not_mem hy, List.filter_append]
        simp [hx]

theorem firsts_map {β : Type} (f : β → α) (xs : List β) :
    firsts (sameKey key) (xs.map f) = (firsts (sameKey (key ∘ f)) xs).map f := by
  induction xs with
  | nil => rfl
  | cons x xs ih =>
    rw [List.map_cons, firsts_cons, firsts_cons, ih, List.map_cons, List.filter_map]
    rfl

/-- Where the elements are numbered in order, a first occurrence has the least number. -/
theorem mem_firsts {index : α → Nat} {xs : List α} {x : α}
    (h : xs.Pairwise fun a b => index a < index b) :
    x ∈ firsts (sameKey key) xs ↔ x ∈ xs ∧ ∀ y ∈ xs, key y = key x → index x ≤ index y := by
  induction xs with
  | nil => simp
  | cons a xs ih =>
    obtain ⟨ha, hxs⟩ := List.pairwise_cons.mp h
    rw [firsts_cons, List.mem_cons, List.mem_filter, ih hxs, List.forall_mem_cons, List.mem_cons]
    constructor
    · rintro (rfl | ⟨⟨hx, hleast⟩, hne⟩)
      · exact ⟨.inl rfl, fun _ => Nat.le_refl _, fun y hy _ => Nat.le_of_lt (ha y hy)⟩
      · refine ⟨.inr hx, fun heq => ?_, hleast⟩
        simp [heq] at hne
    · rintro ⟨rfl | hx, hfirst, hleast⟩
      · exact .inl rfl
      · refine .inr ⟨⟨hx, hleast⟩, decide_eq_true fun heq => ?_⟩
        have hlt := ha x hx
        have hle := hfirst heq.symm
        omega

theorem mem_map_firsts {xs : List α} {k : κ} :
    k ∈ (firsts (sameKey key) xs).map key ↔ k ∈ xs.map key := by
  induction xs using List.reverseRecOn with
  | nil => rfl
  | append_singleton xs x ih =>
    by_cases hx : key x ∈ xs.map key
    · rw [firsts_concat_of_mem hx, ih, List.map_append, List.mem_append]
      exact ⟨.inl, fun h => h.elim id fun hk => List.mem_singleton.mp hk ▸ hx⟩
    · rw [firsts_concat_of_not_mem hx, List.map_append, List.map_append, List.mem_append,
        List.mem_append, ih]

theorem nodup_map_firsts (key : α → κ) (xs : List α) :
    ((firsts (sameKey key) xs).map key).Nodup := by
  rw [List.Nodup, List.pairwise_map]
  refine (pairwise_firsts xs).imp fun {a b} h heq => ?_
  simp [sameKey, heq] at h

end Keys

end TemplateCompiler
