import Mathlib.Data.List.Destutter
import Mathlib.Data.List.Sort
import Mathlib.Order.Basic

/-! A relation that holds of two values where some component of the first is less. It orders values
among which no two components disagree. Sorting them and dropping repetitions then makes the same
of all lists of the same values. -/

namespace SomeLess

variable {α ι β : Type*} [LinearOrder β] (key : α → ι → β)

def Less (a b : α) : Prop := ∃ i, key a i < key b i

def Comparable (a b : α) : Prop := key a ≤ key b ∨ key b ≤ key a

structure OrdersOn (lt eq : α → α → Prop) (S : Set α) : Prop where
  irrefl : ∀ a ∈ S, ¬ lt a a
  asymm : ∀ a ∈ S, ∀ b ∈ S, lt a b → ¬ lt b a
  trans : ∀ a ∈ S, ∀ b ∈ S, ∀ c ∈ S, lt a b → lt b c → lt a c
  total : ∀ a ∈ S, ∀ b ∈ S, (¬ lt a b ∧ ¬ lt b a) ↔ eq a b

/-- What a sorting function demands of a comparison. -/
structure StrictWeakOn (lt : α → α → Prop) (S : Set α) : Prop where
  irrefl : ∀ a ∈ S, ¬ lt a a
  trans : ∀ a ∈ S, ∀ b ∈ S, ∀ c ∈ S, lt a b → lt b c → lt a c
  unordered : ∀ a ∈ S, ∀ b ∈ S, ∀ c ∈ S, ¬ lt a b ∧ ¬ lt b a → ¬ lt b c ∧ ¬ lt c b →
    ¬ lt a c ∧ ¬ lt c a

/-- A function that sorts where it is given a strict weak order, and does anything otherwise. -/
def Sorts (lt : α → α → Prop) (sort : List α → List α) : Prop :=
  ∀ l, StrictWeakOn lt {a | a ∈ l} →
    (sort l).Perm l ∧ (sort l).Pairwise fun a b => ¬ lt b a

variable {key} {a b c : α}

theorem not_less_iff : ¬ Less key a b ↔ key b ≤ key a := by
  simp only [Less, not_exists, not_lt, Pi.le_def]

theorem less_iff_lt (h : Comparable key a b) : Less key a b ↔ key a < key b := by
  constructor
  · intro hless
    have hnot : ¬ key b ≤ key a := fun hle => not_less_iff.mpr hle hless
    exact lt_of_le_not_ge (h.resolve_right hnot) hnot
  · intro hlt
    by_contra hnot
    exact hlt.not_ge (not_less_iff.mp hnot)

theorem ordersOn_iff {S : Set α} :
    OrdersOn (Less key) (fun a b => key a = key b) S ↔
      ∀ a ∈ S, ∀ b ∈ S, Comparable key a b := by
  constructor
  · intro h a ha b hb
    by_cases hless : Less key a b
    · exact .inl (not_less_iff.mp (h.asymm a ha b hb hless))
    · exact .inr (not_less_iff.mp hless)
  · intro h
    refine ⟨fun a _ => ?_, fun a ha b hb hab => ?_, fun a ha b hb c hc hab hbc => ?_,
      fun a _ b _ => ?_⟩
    · exact not_less_iff.mpr le_rfl
    · exact not_less_iff.mpr ((less_iff_lt (h a ha b hb)).mp hab).le
    · have hlt := ((less_iff_lt (h a ha b hb)).mp hab).trans ((less_iff_lt (h b hb c hc)).mp hbc)
      exact (less_iff_lt (h a ha c hc)).mpr hlt
    · rw [not_less_iff, not_less_iff, and_comm]
      exact le_antisymm_iff.symm

theorem strictWeakOn {S : Set α} (h : ∀ a ∈ S, ∀ b ∈ S, Comparable key a b) :
    StrictWeakOn (Less key) S := by
  have horders := ordersOn_iff.mpr h
  refine ⟨horders.irrefl, horders.trans, fun a ha b hb c hc hab hbc => ?_⟩
  rw [horders.total a ha b hb] at hab
  rw [horders.total b hb c hc] at hbc
  rw [horders.total a ha c hc]
  exact hab.trans hbc

theorem pairwise_le {sort : List α → List α} (hsort : Sorts (Less key) sort) {l : List α}
    (h : ∀ a ∈ l, ∀ b ∈ l, Comparable key a b) :
    (sort l).Perm l ∧ ((sort l).map key).Pairwise (· ≤ ·) := by
  obtain ⟨hperm, hpair⟩ := hsort l (strictWeakOn h)
  refine ⟨hperm, List.pairwise_map.mpr (hpair.imp fun hnot => ?_)⟩
  exact not_less_iff.mp hnot

theorem destutter_sort_eq [DecidableEq (ι → β)] {sort : List α → List α}
    (hsort : Sorts (Less key) sort) {l₁ l₂ : List α}
    (h : ∀ a ∈ l₁, ∀ b ∈ l₁, Comparable key a b)
    (hsame : ∀ k, k ∈ l₁.map key ↔ k ∈ l₂.map key) :
    ((sort l₁).map key).destutter (· ≠ ·) = ((sort l₂).map key).destutter (· ≠ ·) := by
  have h₂ : ∀ a ∈ l₂, ∀ b ∈ l₂, Comparable key a b := by
    intro a ha b hb
    obtain ⟨a', ha', hka⟩ := List.mem_map.mp ((hsame _).mpr (List.mem_map_of_mem ha))
    obtain ⟨b', hb', hkb⟩ := List.mem_map.mp ((hsame _).mpr (List.mem_map_of_mem hb))
    have hcomp := h a' ha' b' hb'
    rw [Comparable, hka, hkb] at hcomp
    exact hcomp
  obtain ⟨hperm₁, hle₁⟩ := pairwise_le hsort h
  obtain ⟨hperm₂, hle₂⟩ := pairwise_le hsort h₂
  rw [hle₁.destutter_eq_dedup, hle₂.destutter_eq_dedup]
  have hmem : ∀ k, k ∈ ((sort l₁).map key).dedup ↔ k ∈ ((sort l₂).map key).dedup := by
    intro k
    rw [List.mem_dedup, List.mem_dedup, (hperm₁.map key).mem_iff, (hperm₂.map key).mem_iff]
    exact hsame k
  have hperm := (List.perm_ext_iff_of_nodup (List.nodup_dedup _) (List.nodup_dedup _)).mpr hmem
  apply hperm.eq_of_pairwise
  · exact fun a b _ _ hab hba => le_antisymm hab hba
  · exact hle₁.sublist (List.dedup_sublist _)
  · exact hle₂.sublist (List.dedup_sublist _)

end SomeLess
