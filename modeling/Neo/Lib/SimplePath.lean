import Mathlib.Data.Set.Insert
import Mathlib.Logic.Relation

/-! Paths along a relation that meet no vertex twice. Whatever can be reached can be reached along
such a path, and what remains of the path avoids the vertices that were met. -/

variable {V : Type*} {r : V → V → Prop} {S T : Set V} {a b c : V}

/-- A path that meets no vertex of a set, and none twice. -/
inductive SimplePath (r : V → V → Prop) : Set V → V → V → Prop
  | nil {S : Set V} {a : V} : a ∉ S → SimplePath r S a a
  | cons {S : Set V} {a b c : V} : a ∉ S → r a b → SimplePath r (insert a S) b c →
      SimplePath r S a c

namespace SimplePath

theorem mono (h : SimplePath r T a b) (hST : S ⊆ T) : SimplePath r S a b := by
  induction h generalizing S with
  | nil ha => exact .nil fun hS => ha (hST hS)
  | cons ha hr _ ih => exact .cons (fun hS => ha (hST hS)) hr (ih (Set.insert_subset_insert hST))

theorem start_notMem (h : SimplePath r S a b) : a ∉ S := by
  cases h with
  | nil ha => exact ha
  | cons ha => exact ha

theorem meets_or_avoids (h : SimplePath r S a b) (c : V) :
    SimplePath r S c b ∨ SimplePath r (insert c S) a b := by
  induction h with
  | @nil S a ha =>
    by_cases hac : a = c
    · exact .inl (hac ▸ .nil ha)
    · exact .inr (.nil (by simp [hac, ha]))
  | @cons S a a' b ha hr hrest ih =>
    by_cases hac : a = c
    · exact .inl (hac ▸ .cons ha hr hrest)
    · rcases ih with hmeets | havoids
      · exact .inl (hmeets.mono (Set.subset_insert a S))
      · rw [Set.insert_comm] at havoids
        exact .inr (.cons (by simp [hac, ha]) hr havoids)

theorem prepend (ha : a ∉ S) (hr : r a b) (h : SimplePath r S b c) : SimplePath r S a c := by
  rcases h.meets_or_avoids a with hmeets | havoids
  · exact hmeets
  · exact .cons ha hr havoids

theorem of_reflTransGen (ha : a ∉ S)
    (h : Relation.ReflTransGen (fun x y => r x y ∧ y ∉ S) a b) : SimplePath r S a b := by
  induction h using Relation.ReflTransGen.head_induction_on with
  | refl => exact .nil ha
  | head hr _ ih => exact prepend ha hr.1 (ih hr.2)

theorem reflTransGen (h : SimplePath r S a b) :
    Relation.ReflTransGen (fun x y => r x y ∧ y ∉ S) a b := by
  induction h with
  | nil => exact .refl
  | cons _ hr hrest ih =>
    refine .head ⟨hr, fun hS => hrest.start_notMem (Set.mem_insert_of_mem _ hS)⟩ ?_
    refine Relation.ReflTransGen.mono ?_ _ _ ih
    rintro x y ⟨hxy, hy⟩
    exact ⟨hxy, fun hS => hy (Set.mem_insert_of_mem _ hS)⟩

theorem iff_reflTransGen (ha : a ∉ S) :
    SimplePath r S a b ↔ Relation.ReflTransGen (fun x y => r x y ∧ y ∉ S) a b :=
  ⟨reflTransGen, of_reflTransGen ha⟩

end SimplePath

theorem simplePath_iff : SimplePath r ∅ a b ↔ Relation.ReflTransGen r a b := by
  rw [SimplePath.iff_reflTransGen (Set.notMem_empty a)]
  simp
