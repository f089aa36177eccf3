import Mathlib.Data.Finset.Card
import Mathlib.Logic.Relation

/-! The rank of a point under a relation without cycles into a finite set: how many points can be
reached from it. Every step lowers it. -/

variable {α : Type*}

def Acyclic (r : α → α → Prop) : Prop := ∀ a, ¬ Relation.TransGen r a a

open Classical in
/-- How many points of a set are reached from a point. -/
noncomputable def reachRank (r : α → α → Prop) (S : Finset α) (a : α) : Nat :=
  (S.filter fun b => Relation.TransGen r a b).card

namespace Acyclic

variable {r : α → α → Prop} {S : Finset α} {a b : α}

theorem rank_lt (h : Acyclic r) (hab : r a b) (hb : b ∈ S) :
    reachRank r S b < reachRank r S a := by
  classical
  unfold reachRank
  apply Finset.card_lt_card
  rw [Finset.ssubset_iff_of_subset]
  · refine ⟨b, Finset.mem_filter.mpr ⟨hb, .single hab⟩, ?_⟩
    intro hself
    exact h b (Finset.mem_filter.mp hself).2
  · intro c hc
    obtain ⟨hcS, hbc⟩ := Finset.mem_filter.mp hc
    exact Finset.mem_filter.mpr ⟨hcS, .head hab hbc⟩

end Acyclic

theorem reachRank_le (r : α → α → Prop) (S : Finset α) (a : α) : reachRank r S a ≤ S.card := by
  classical
  exact Finset.card_filter_le S _
