import TemplateCompiler.Proofs.Lists.Firsts
import TemplateCompiler.Proofs.Props.Split

/-! # Merged properties

Merging keeps one property for each literal name, at the place of its first entry, and every entry
whose name is not known.
-/

namespace TemplateCompiler

open PropEntry

theorem eraseDupsBy_sameName (entries : List PropEntry) :
    entries.eraseDupsBy sameName = firsts sameName entries := by
  induction entries using List.reverseRecOn with
  | nil => rfl
  | append_singleton entries e ih =>
    rw [eraseDupsBy_concat, any_eraseDupsBy, firsts_concat, ih]

theorem mergeEntries_eq_map (entries : List PropEntry) :
    mergeEntries entries = (firsts sameName entries).map (gather entries) := by
  rw [mergeEntries_eq_dedupe, dedupe, eraseDupsBy_sameName]

/-- The property `p` is what all entries come to that have the name of the entry `e`. -/
structure StandsFor (entries : List PropEntry) (e : PropEntry) (p : MergedProp) : Prop where
  key : p.key = e.key
  traits : p.toPropTraits = e.toPropTraits
  /-- All values for the name, in order. -/
  collected : e.key.isStatic = true → isMergeableProp e.key.content = true →
    p.values = (entries.filter e.sameName).map (·.value)
  single : ¬(e.key.isStatic = true ∧ isMergeableProp e.key.content = true) → p.values = [e.value]

theorem standsFor_gather (entries : List PropEntry) (e : PropEntry) :
    StandsFor entries e (gather entries e) where
  key := rfl
  traits := rfl
  collected hstatic hmerge := by simp [gather, hstatic, hmerge]
  single h := by
    rw [← Bool.and_eq_true, Bool.not_eq_true] at h
    simp [gather, h]

/-- An entry whose name is not known is the same as no other one. -/
theorem firsts_filter_dynamic (entries : List PropEntry) :
    (firsts sameName entries).filter (!·.key.isStatic) = entries.filter (!·.key.isStatic) := by
  induction entries using List.reverseRecOn with
  | nil => rfl
  | append_singleton entries e ih =>
    rw [firsts_concat, List.filter_append, List.filter_append, ih]
    cases hstatic : e.key.isStatic with
    | true =>
      split
      · simp [hstatic]
      · rfl
    | false =>
      have hnone : entries.any (sameName e) = false := by simp [sameName, hstatic]
      rw [hnone]
      rfl

theorem gather_dynamic {entries : List PropEntry} {e : PropEntry} (h : e.key.isStatic = false) :
    gather entries e = MergedProp.ofEntry e := by
  simp [gather, h, MergedProp.ofEntry]

/-- Merged properties are those of the first entries with their names, in order; no two have the
same literal name, and properties without one stay as they are. Further entries leave the names so
far in their places. -/
theorem mergeEntries_exact (entries more : List PropEntry) :
    List.Forall₂ (StandsFor entries) (firsts sameName entries) (mergeEntries entries) ∧
    (((mergeEntries entries).filter (·.key.isStatic)).map (·.key.content)).Nodup ∧
    (mergeEntries entries).filter (!·.key.isStatic) =
      (entries.filter (!·.key.isStatic)).map MergedProp.ofEntry ∧
    (mergeEntries entries).map (·.key) <+: (mergeEntries (entries ++ more)).map (·.key) := by
  refine ⟨?_, ?_, ?_, ?_⟩
  · rw [mergeEntries_eq_map, List.forall₂_map_right_iff]
    exact List.forall₂_same.mpr fun e _ => standsFor_gather entries e
  · have hfirsts : (firsts sameName entries).Pairwise fun a b =>
        a.key.isStatic = true → b.key.isStatic = true → a.key.content ≠ b.key.content := by
      refine (pairwise_firsts entries).imp fun {a b} h ha hb heq => ?_
      simp [sameName, ha, hb, heq] at h
    rw [mergeEntries_eq_map, List.filter_map, List.map_map, List.Nodup, List.pairwise_map,
      List.pairwise_filter]
    exact hfirsts.imp fun h ha hb => h ha hb
  · rw [mergeEntries_eq_map, List.filter_map]
    change ((firsts sameName entries).filter (!·.key.isStatic)).map _ = _
    rw [firsts_filter_dynamic]
    refine List.map_congr_left fun e he => gather_dynamic ?_
    simpa using (List.mem_filter.mp he).2
  · rw [mergeEntries_eq_map, mergeEntries_eq_map, List.map_map, List.map_map]
    exact (firsts_isPrefix entries more).map _

end TemplateCompiler
