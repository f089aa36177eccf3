import Mathlib.Data.Set.Insert
import Mathlib.Data.Option.Basic

/-! Labellings of a space that tell apart exactly the points some set of a family tells apart.
Such a labelling is the coarsest partition of the covered points into classes each of which
lies inside or outside every set of the family, and it grows one set at a time. -/

variable {α ι : Type*}

structure Coarsest (F : Set (Set α)) (label : α → Option ι) : Prop where
  covers : ∀ x, (label x).isSome ↔ ∃ S ∈ F, x ∈ S
  separates : ∀ x y, label x = label y ↔ ∀ S ∈ F, x ∈ S ↔ y ∈ S

/-- What adding the set `R` does to a labelling: it is kept outside `R`, refined to no more
than before inside, and no label is shared across the boundary. -/
structure RefinedBy (R : Set α) (label label' : α → Option ι) : Prop where
  outside : ∀ x, x ∉ R → label' x = label x
  covered : ∀ x, x ∈ R → (label' x).isSome
  inside : ∀ x y, x ∈ R → y ∈ R → (label' x = label' y ↔ label x = label y)
  boundary : ∀ x y, x ∈ R → y ∉ R → label' x ≠ label' y

namespace Coarsest

theorem empty : Coarsest ∅ (fun _ : α => (none : Option ι)) :=
  ⟨fun x => by simp, fun x y => by simp⟩

theorem insert {F : Set (Set α)} {R : Set α} {label label' : α → Option ι}
    (h : Coarsest F label) (hR : RefinedBy R label label') :
    Coarsest (insert R F) label' := by
  constructor
  · intro x
    by_cases hx : x ∈ R
    · simp [hR.covered x hx, hx]
    · simp [hR.outside x hx, h.covers x, hx]
  · intro x y
    simp only [Set.mem_insert_iff, forall_eq_or_imp]
    by_cases hx : x ∈ R <;> by_cases hy : y ∈ R
    · simp [hR.inside x y hx hy, h.separates x y, hx, hy]
    · simp [hR.boundary x y hx hy, hx, hy]
    · simp [(hR.boundary y x hy hx).symm, hx, hy]
    · simp [hR.outside x hx, hR.outside y hy, h.separates x y, hx, hy]

end Coarsest
