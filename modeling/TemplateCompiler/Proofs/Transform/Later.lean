import TemplateCompiler.Proofs.Transform.Children
import TemplateCompiler.Proofs.Transform.Elements

/-! # Nodes later on

Once the children of a node are visited, they stay. The node may still receive an id, flags and a
placeholder.
-/

namespace TemplateCompiler

open Template (Element)
open Transform

/-- The same node later on, when it may have received an id, flags and a placeholder. -/
structure NodeInfo.Later (d d' : NodeInfo) : Prop where
  children : d'.children = d.children
  id : ∀ i, d.id = some i → d'.id = some i

namespace NodeInfo.Later

variable {d d' d'' : NodeInfo}

theorem refl (d : NodeInfo) : d.Later d := ⟨rfl, fun _ h => h⟩

theorem trans (h : d.Later d') (h' : d'.Later d'') : d.Later d'' :=
  ⟨h'.children.trans h.children, fun i hi => h'.id i (h.id i hi)⟩

end NodeInfo.Later

/-! ## Steps -/

theorem Context.referenced_later (c : Context) : c.dynamic.Later c.referenced.dynamic :=
  ⟨c.referenced_children, fun i hi => by simp [ownId, hi]⟩

theorem OwnWork.later {c c' : Context} {xs : List Contribution} (h : OwnWork c xs c') :
    c.dynamic.Later c'.dynamic := by
  cases h with
  | none => exact .refl _
  | some xs actions => exact c.referenced_later

theorem Context.settled_later (c : Context) (isFragment : Bool) :
    c.dynamic.Later (c.settled isFragment).dynamic := by
  have hreferenced := c.referenced_later
  rcases c.settled_dynamic isFragment with h | h | ⟨_, h⟩
  · rw [h]
    exact ⟨rfl, fun _ h => h⟩
  · rw [h]
    exact .refl _
  · rw [h]
    exact ⟨hreferenced.children, hreferenced.id⟩

theorem Context.place_later (c : Context) (e : Element) (markup : String) :
    c.dynamic.Later ((c.closed e).place e markup).dynamic := by
  rw [← c.closed_dynamic e]
  unfold place
  split
  · have hlater := (c.closed e).referenced_later
    exact ⟨hlater.children, hlater.id⟩
  · exact .refl _

end TemplateCompiler
