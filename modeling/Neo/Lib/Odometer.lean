import Mathlib.Data.List.Basic
import Mathlib.Data.List.Forall2
import Mathlib.Data.List.Nodup
import Mathlib.Algebra.BigOperators.Group.List.Basic
import Mathlib.Tactic.Common

/-! A row of positions in a row of lists, advanced like an odometer whose first digit runs
fastest. From all zeros it shows every tuple of the product once before the last digit wraps. -/

namespace Odometer

variable {α : Type*}

def tuples : List (List α) → List (List α)
  | [] => [[]]
  | S :: Ss => (tuples Ss).flatMap fun t => S.map (· :: t)

/-- The tuple the positions point at; `none` where one points behind its list. -/
def read : List (List α) → List Nat → Option (List α)
  | S :: Ss, i :: is => do return (← S[i]?) :: (← read Ss is)
  | _, _ => some []

def advance : List (List α) → List Nat → Bool × List Nat
  | S :: Ss, i :: is =>
    if i + 1 ≠ S.length then (false, (i + 1) :: is)
    else
      let (wrapped, is) := advance Ss is
      (wrapped, 0 :: is)
  | _, is => (true, is)

def remaining : List (List α) → List Nat → List (List α)
  | S :: Ss, i :: is =>
    match remaining Ss is with
    | [] => []
    | t :: ts => (S.drop i).map (· :: t) ++ ts.flatMap fun t => S.map (· :: t)
  | _, _ => [[]]

def InRange (Ss : List (List α)) (is : List Nat) : Prop :=
  List.Forall₂ (fun (S : List α) i => i < S.length) Ss is

theorem mem_tuples (Ss : List (List α)) (t : List α) :
    t ∈ tuples Ss ↔ List.Forall₂ (· ∈ ·) t Ss := by
  induction Ss generalizing t with
  | nil => simp [tuples]
  | cons S Ss ih =>
    simp only [tuples, List.mem_flatMap, List.mem_map]
    constructor
    · rintro ⟨t', ht', a, ha, rfl⟩
      exact .cons ha ((ih _).mp ht')
    · intro h
      cases h with
      | cons ha ht => exact ⟨_, (ih _).mpr ht, _, ha, rfl⟩

theorem length_tuples (Ss : List (List α)) : (tuples Ss).length = (Ss.map List.length).prod := by
  induction Ss with
  | nil => rfl
  | cons S Ss ih => simp [tuples, List.length_flatMap, ih, Nat.mul_comm]

theorem nodup_tuples {Ss : List (List α)} (h : ∀ S ∈ Ss, S.Nodup) : (tuples Ss).Nodup := by
  induction Ss with
  | nil => simp [tuples]
  | cons S Ss ih =>
    have hS := h S (List.mem_cons_self ..)
    refine List.nodup_flatMap.mpr ⟨fun t _ => hS.map fun a b hab => (List.cons.inj hab).1, ?_⟩
    refine (ih fun S' hS' => h S' (List.mem_cons_of_mem _ hS')).imp fun {t t'} hne u hu hu' => ?_
    obtain ⟨a, -, rfl⟩ := List.mem_map.mp hu
    obtain ⟨b, -, hb⟩ := List.mem_map.mp hu'
    exact hne (List.cons.inj hb).2.symm

theorem remaining_zeros {Ss : List (List α)} (h : ∀ S ∈ Ss, S ≠ []) :
    InRange Ss (Ss.map fun _ => 0) ∧ remaining Ss (Ss.map fun _ => 0) = tuples Ss := by
  induction Ss with
  | nil => exact ⟨.nil, rfl⟩
  | cons S Ss ih =>
    obtain ⟨hr, ht⟩ := ih fun S' hS' => h S' (List.mem_cons_of_mem _ hS')
    refine ⟨.cons (List.length_pos_iff.mpr (h S (List.mem_cons_self ..))) hr, ?_⟩
    simp only [List.map_cons, remaining, tuples, ht]
    cases tuples Ss with
    | nil => rfl
    | cons t ts => rfl

theorem turn {Ss : List (List α)} {is : List Nat} (h : InRange Ss is) :
    ∃ t ts, read Ss is = some t ∧ t.length = Ss.length ∧ remaining Ss is = t :: ts ∧
      ((advance Ss is).1 = true → ts = []) ∧
      ((advance Ss is).1 = false →
        InRange Ss (advance Ss is).2 ∧ remaining Ss (advance Ss is).2 = ts) := by
  induction h with
  | nil => exact ⟨[], [], rfl, rfl, rfl, fun _ => rfl, fun h => by simp [advance] at h⟩
  | @cons S i Ss is hi hr ih =>
    obtain ⟨t, ts, hread, hlen, hrem, hend, hnext⟩ := ih
    have hdrop : S.drop i = S[i] :: S.drop (i + 1) := List.drop_eq_getElem_cons hi
    refine ⟨S[i] :: t, (S.drop (i + 1)).map (· :: t) ++ ts.flatMap fun t => S.map (· :: t),
      ?_, by simp [hlen], ?_, ?_⟩
    · simp [read, hread, List.getElem?_eq_getElem hi]
    · simp only [remaining, hrem, hdrop, List.map_cons, List.cons_append]
    · by_cases hlast : i + 1 = S.length
      · have hnil : S.drop (i + 1) = [] := List.drop_eq_nil_of_le (Nat.le_of_eq hlast.symm)
        have hstep : advance (S :: Ss) (i :: is) = ((advance Ss is).1, 0 :: (advance Ss is).2) := by
          simp [advance, hlast]
        rw [hstep, hnil]
        refine ⟨fun hw => by simp [hend hw], fun hw => ?_⟩
        obtain ⟨hr', hrem'⟩ := hnext hw
        refine ⟨.cons (by omega) hr', ?_⟩
        simp only [remaining, hrem', List.drop_zero, List.map_nil, List.nil_append]
        cases ts with
        | nil => rfl
        | cons t' ts => simp
      · have hstep : advance (S :: Ss) (i :: is) = (false, (i + 1) :: is) := by
          simp [advance, hlast]
        rw [hstep]
        refine ⟨fun hw => by simp at hw, fun _ => ⟨.cons (by omega) hr, ?_⟩⟩
        simp only [remaining, hrem]

end Odometer
