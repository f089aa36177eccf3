import Mathlib.Data.List.Perm.Subperm
import Mathlib.Data.List.Nodup
import Mathlib.Logic.Function.Basic
import Mathlib.Tactic.Common

/-! Hash containers. A hash set of objects keeps one of each content, if equal contents have equal
hashes; a hash map has its entries in an order that depends on how it was built. -/

namespace Unordered

variable {α β κ ν : Type*}

structure HashEq (α β : Type*) where
  hash : α → β
  eq : α → α → Bool

/-- What the elements of a hash set leave open: which of them are compared with a key, those with
its hash at least, and where new objects are. -/
structure Buckets (β : Type*) where
  compared : List β → β → β → Bool
  compared_self : ∀ hashes h, compared hashes h h = true
  address : List Nat → Nat
  address_fresh : ∀ live, address live ∉ live

abbrev Table (α : Type*) := List (Nat × α)

namespace HashEq

variable (S : HashEq α β) (B : Buckets β)

def find (table : Table α) (x : α) : Option (Nat × α) :=
  table.find? fun object =>
    B.compared (table.map fun object => S.hash object.2) (S.hash object.2) (S.hash x) &&
      S.eq object.2 x

def store (table : Table α) (x : α) : Table α × Nat :=
  match S.find B table x with
  | some object => (table, object.1)
  | none => ((B.address (table.map Prod.fst), x) :: table, B.address (table.map Prod.fst))

def storeAll : Table α → List α → List (α × Nat)
  | _, [] => []
  | table, x :: xs => (x, (S.store B table x).2) :: storeAll (S.store B table x).1 xs

structure IsEquiv (S : HashEq α β) : Prop where
  refl : ∀ x, S.eq x x = true
  symm : ∀ x y, S.eq x y = true → S.eq y x = true
  trans : ∀ x y z, S.eq x y = true → S.eq y z = true → S.eq x z = true

def Consistent (S : HashEq α β) (xs : List α) : Prop :=
  ∀ x ∈ xs, ∀ y ∈ xs, S.eq x y = true → S.hash x = S.hash y

variable {S B}

theorem isEquiv_of_key {γ : Type*} (key : α → γ) (h : ∀ x y, S.eq x y = true ↔ key x = key y) :
    S.IsEquiv := by
  refine ⟨fun x => ?_, fun x y hxy => ?_, fun x y z hxy hyz => ?_⟩
  · rw [h]
  · rw [h] at hxy ⊢
    exact hxy.symm
  · rw [h] at hxy hyz ⊢
    exact hxy.trans hyz

theorem find_eq_some {table : Table α} {x : α} {object : Nat × α}
    (h : S.find B table x = some object) : object ∈ table ∧ S.eq object.2 x = true := by
  unfold find at h
  have hfound := List.find?_some h
  simp only [Bool.and_eq_true] at hfound
  exact ⟨List.mem_of_find?_eq_some h, hfound.2⟩

theorem find_eq_none {table : Table α} {x : α} (h : S.find B table x = none) :
    ∀ object ∈ table, S.hash object.2 = S.hash x → ¬ S.eq object.2 x = true := by
  intro object hobject hhash heq
  unfold find at h
  have hnone := List.find?_eq_none.mp h object hobject
  rw [hhash, B.compared_self, heq] at hnone
  exact hnone rfl

structure Keeps (S : HashEq α β) (xs : List α) (table : Table α) (calls : List (α × Nat)) :
    Prop where
  contents : ∀ object ∈ table, object.2 ∈ xs
  addresses : ∀ object ∈ table, ∀ object' ∈ table, object.1 = object'.1 → object = object'
  once : ∀ object ∈ table, ∀ object' ∈ table, S.eq object.2 object'.2 = true → object = object'
  kept : ∀ call ∈ calls, ∃ object ∈ table, object.1 = call.2 ∧ S.eq object.2 call.1 = true

theorem Keeps.store {xs : List α} {table : Table α} {calls : List (α × Nat)} {x : α}
    (h : S.Keeps xs table calls) (hS : S.IsEquiv) (hxs : S.Consistent xs) (hx : x ∈ xs) :
    S.Keeps xs (S.store B table x).1 (calls ++ [(x, (S.store B table x).2)]) := by
  unfold HashEq.store
  cases hfind : S.find B table x with
  | some object =>
    obtain ⟨hmem, heq⟩ := find_eq_some hfind
    refine ⟨h.contents, h.addresses, h.once, fun call hcall => ?_⟩
    rcases List.mem_append.mp hcall with hcall | hlast
    · exact h.kept call hcall
    · obtain rfl := List.mem_singleton.mp hlast
      exact ⟨object, hmem, rfl, heq⟩
  | none =>
    have hnew : ∀ object ∈ table, ¬ S.eq object.2 x = true := by
      intro object hobject heq
      exact find_eq_none hfind object hobject (hxs _ (h.contents object hobject) _ hx heq) heq
    -- an object that is stored anew lies at an address of its own
    have hfresh : ∀ object ∈ table, object.1 ≠ B.address (table.map Prod.fst) := by
      intro object hobject haddr
      apply B.address_fresh (table.map Prod.fst)
      rw [← haddr]
      exact List.mem_map_of_mem hobject
    refine ⟨?_, ?_, ?_, ?_⟩
    · intro object hobject
      rcases List.mem_cons.mp hobject with rfl | hobject
      · exact hx
      · exact h.contents object hobject
    · intro object hobject object' hobject' haddr
      rcases List.mem_cons.mp hobject with rfl | hold <;>
        rcases List.mem_cons.mp hobject' with rfl | hold'
      · rfl
      · exact absurd haddr.symm (hfresh object' hold')
      · exact absurd haddr (hfresh object hold)
      · exact h.addresses object hold object' hold' haddr
    · intro object hobject object' hobject' heq
      rcases List.mem_cons.mp hobject with rfl | hold <;>
        rcases List.mem_cons.mp hobject' with rfl | hold'
      · rfl
      · exact absurd (hS.symm _ _ heq) (hnew object' hold')
      · exact absurd heq (hnew object hold)
      · exact h.once object hold object' hold' heq
    · intro call hcall
      rcases List.mem_append.mp hcall with hcall | hlast
      · obtain ⟨object, hobject, haddr, heq⟩ := h.kept call hcall
        exact ⟨object, List.mem_cons_of_mem _ hobject, haddr, heq⟩
      · obtain rfl := List.mem_singleton.mp hlast
        exact ⟨_, List.mem_cons_self .., rfl, hS.refl x⟩

theorem Keeps.storeAll {xs ys : List α} {table : Table α} {calls : List (α × Nat)}
    (h : S.Keeps xs table calls) (hS : S.IsEquiv) (hxs : S.Consistent xs)
    (hys : ∀ y ∈ ys, y ∈ xs) :
    ∃ table', S.Keeps xs table' (calls ++ S.storeAll B table ys) := by
  induction ys generalizing table calls with
  | nil => exact ⟨table, by rwa [HashEq.storeAll, List.append_nil]⟩
  | cons y ys ih =>
    have hy := h.store (B := B) hS hxs (hys y (List.mem_cons_self ..))
    obtain ⟨table', htable'⟩ := ih hy fun z hz => hys z (List.mem_cons_of_mem _ hz)
    refine ⟨table', ?_⟩
    rwa [List.append_assoc] at htable'

def Canonical (S : HashEq α β) (B : Buckets β) (xs : List α) : Prop :=
  ∀ call ∈ S.storeAll B [] xs, ∀ call' ∈ S.storeAll B [] xs,
    S.eq call.1 call'.1 = true ↔ call.2 = call'.2

theorem canonical_of_consistent {xs : List α} (hS : S.IsEquiv) (hxs : S.Consistent xs) :
    S.Canonical B xs := by
  have hempty : S.Keeps xs [] [] := ⟨by simp, by simp, by simp, by simp⟩
  obtain ⟨table, htable⟩ := hempty.storeAll (B := B) hS hxs fun y hy => hy
  rw [List.nil_append] at htable
  intro call hcall call' hcall'
  obtain ⟨object, hobject, haddr, heq⟩ := htable.kept call hcall
  obtain ⟨object', hobject', haddr', heq'⟩ := htable.kept call' hcall'
  constructor
  · intro hsame
    have hobjects : S.eq object.2 object'.2 = true :=
      hS.trans _ _ _ (hS.trans _ _ _ heq hsame) (hS.symm _ _ heq')
    rw [← haddr, ← haddr', htable.once object hobject object' hobject' hobjects]
  · intro hsame
    have hobjects := htable.addresses object hobject object' hobject'
      (haddr.trans (hsame.trans haddr'.symm))
    rw [← hobjects] at heq'
    exact hS.trans _ _ _ (hS.symm _ _ heq) heq'

end HashEq

/-- What a hash map leaves open: the order in which its entries are traversed once a key is
inserted, or the map is copied. -/
structure Layout (κ : Type*) where
  place : List κ → κ → List κ
  place_perm : ∀ keys k, (place keys k).Perm (k :: keys)
  copy : List κ → List κ
  copy_perm : ∀ keys, (copy keys).Perm keys

structure UnorderedMap (κ ν : Type*) where
  keys : List κ
  nodup : keys.Nodup
  val : κ → ν

namespace UnorderedMap

variable (L : Layout κ) {a b c : UnorderedMap κ ν}

def empty [Inhabited ν] : UnorderedMap κ ν := ⟨[], List.nodup_nil, fun _ => default⟩

def entries (a : UnorderedMap κ ν) : List (κ × ν) := a.keys.map fun k => (k, a.val k)

/-- The value of a key is written where it is, or the key is inserted. -/
def insert [DecidableEq κ] (a : UnorderedMap κ ν) (k : κ) (v : ν) : UnorderedMap κ ν where
  keys := if k ∈ a.keys then a.keys else L.place a.keys k
  nodup := by
    split_ifs with hk
    · exact a.nodup
    · exact (L.place_perm a.keys k).nodup_iff.mpr (List.nodup_cons.mpr ⟨hk, a.nodup⟩)
  val := Function.update a.val k v

def copy (a : UnorderedMap κ ν) : UnorderedMap κ ν where
  keys := L.copy a.keys
  nodup := (L.copy_perm a.keys).nodup_iff.mpr a.nodup
  val := a.val

def same [DecidableEq κ] [DecidableEq ν] (a b : UnorderedMap κ ν) : Bool :=
  a.keys.length == b.keys.length && a.keys.all fun k => k ∈ b.keys && a.val k == b.val k

variable [DecidableEq κ] [DecidableEq ν]

theorem same_iff : same a b = true ↔ a.keys.Perm b.keys ∧ ∀ k ∈ a.keys, a.val k = b.val k := by
  unfold same
  simp only [Bool.and_eq_true, beq_iff_eq, List.all_eq_true, decide_eq_true_eq]
  constructor
  · intro ⟨hlength, hall⟩
    have hsub : a.keys ⊆ b.keys := fun k hk => (hall k hk).1
    exact ⟨(List.subperm_of_subset a.nodup hsub).perm_of_length_le (Nat.le_of_eq hlength.symm),
      fun k hk => (hall k hk).2⟩
  · intro ⟨hperm, hval⟩
    exact ⟨hperm.length_eq, fun k hk => ⟨hperm.subset hk, hval k hk⟩⟩

theorem isEquiv_same {S : HashEq (UnorderedMap κ ν) β} (h : S.eq = same) : S.IsEquiv := by
  refine ⟨fun a => ?_, fun a b hab => ?_, fun a b c hab hbc => ?_⟩
  · rw [h, same_iff]
    exact ⟨.refl _, fun _ _ => rfl⟩
  · rw [h, same_iff] at hab ⊢
    exact ⟨hab.1.symm, fun k hk => (hab.2 k (hab.1.mem_iff.mpr hk)).symm⟩
  · rw [h, same_iff] at hab hbc ⊢
    refine ⟨hab.1.trans hbc.1, fun k hk => ?_⟩
    exact (hab.2 k hk).trans (hbc.2 k (hab.1.mem_iff.mp hk))

theorem entries_eq (h : same a b = true) (hkeys : a.keys = b.keys) : a.entries = b.entries := by
  unfold entries
  rw [← hkeys]
  apply List.map_congr_left
  intro k hk
  rw [(same_iff.mp h).2 k hk]

def InOneOrder (xs : List (UnorderedMap κ ν)) : Prop :=
  ∀ a ∈ xs, ∀ b ∈ xs, same a b = true → a.keys = b.keys

theorem consistent_of_inOneOrder {S : HashEq (UnorderedMap κ ν) β} (heq : S.eq = same)
    (hash : List (κ × ν) → β) (hhash : ∀ a, S.hash a = hash a.entries)
    {xs : List (UnorderedMap κ ν)} (h : InOneOrder xs) : S.Consistent xs := by
  intro a ha b hb hab
  rw [heq] at hab
  rw [hhash, hhash, entries_eq hab (h a ha b hb hab)]

end UnorderedMap

end Unordered
