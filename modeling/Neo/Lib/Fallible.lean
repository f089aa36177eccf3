import Mathlib.Data.List.Forall2
import Mathlib.Data.List.Nodup
import Mathlib.Data.Option.Basic

/-! Computations that end in a value or an error, and lists without equal keys that they build. -/

namespace Neo

namespace Fallible

section Except
variable {ε α β σ : Type}

theorem bind_eq_ok {x : Except ε α} {f : α → Except ε β} {b : β} :
    x >>= f = .ok b ↔ ∃ a, x = .ok a ∧ f a = .ok b := by
  cases x with
  | error e => exact iff_of_false (fun h => by cases h) fun ⟨a, ha, _⟩ => by cases ha
  | ok a =>
    constructor
    · exact fun h => ⟨a, rfl, h⟩
    · rintro ⟨_, ha, h⟩
      obtain rfl := Except.ok.inj ha
      exact h

theorem pure_eq_ok {a b : α} : (pure a : Except ε α) = .ok b ↔ a = b :=
  ⟨fun h => Except.ok.inj h, fun h => h ▸ rfl⟩

theorem mapM_eq_ok {f : α → Except ε β} {l : List α} {l' : List β} :
    l.mapM f = .ok l' ↔ List.Forall₂ (fun a b => f a = .ok b) l l' := by
  induction l generalizing l' with
  | nil =>
    rw [List.mapM_nil, pure_eq_ok, List.forall₂_nil_left_iff]
    exact eq_comm
  | cons a l ih =>
    rw [List.mapM_cons, bind_eq_ok]
    constructor
    · rintro ⟨b, hb, h⟩
      obtain ⟨bs, hbs, h⟩ := bind_eq_ok.mp h
      rw [← pure_eq_ok.mp h]
      exact .cons hb (ih.mp hbs)
    · intro h
      cases h with
      | cons hb hbs => exact ⟨_, hb, bind_eq_ok.mpr ⟨_, ih.mpr hbs, rfl⟩⟩

theorem mapM_option_eq_ok {f : α → Except ε β} {o : Option α} {o' : Option β} :
    o.mapM f = .ok o' ↔ Option.Rel (fun a b => f a = .ok b) o o' := by
  cases o with
  | none =>
    refine Iff.trans pure_eq_ok ⟨fun h => h ▸ .none, fun h => ?_⟩
    cases h
    rfl
  | some a =>
    rw [Option.mapM_some]
    cases hb : f a with
    | error e =>
      refine iff_of_false (fun h => by cases h) fun h => ?_
      cases h with
      | some h => exact absurd (hb.symm.trans h) (by simp)
    | ok b =>
      refine Iff.trans (b := some b = o') ⟨fun h => Except.ok.inj h, fun h => h ▸ rfl⟩ ?_
      constructor
      · rintro rfl
        exact .some hb
      · intro h
        cases h with
        | some h => rw [Except.ok.inj (hb.symm.trans h)]

theorem exists_of_mem_right {r : α → β → Prop} {l : List α} {l' : List β}
    (h : List.Forall₂ r l l') {b : β} (hb : b ∈ l') : ∃ a ∈ l, r a b := by
  induction h with
  | nil => exact absurd hb (List.not_mem_nil)
  | cons hab _ ih =>
    rcases List.mem_cons.mp hb with rfl | hb
    · exact ⟨_, List.mem_cons_self .., hab⟩
    · obtain ⟨a, ha, hr⟩ := ih hb
      exact ⟨a, List.mem_cons_of_mem _ ha, hr⟩

theorem foldlM_read_eq_ok {read : α → Except ε β} {add : σ → β → Except ε σ} {l : List α}
    {s s' : σ} : l.foldlM (fun s a => read a >>= add s) s = .ok s' ↔
      ∃ bs, List.Forall₂ (fun a b => read a = .ok b) l bs ∧ bs.foldlM add s = .ok s' := by
  induction l generalizing s with
  | nil =>
    rw [List.foldlM_nil, pure_eq_ok]
    constructor
    · rintro rfl
      exact ⟨[], .nil, rfl⟩
    · rintro ⟨bs, hbs, h⟩
      rw [List.forall₂_nil_left_iff.mp hbs] at h
      exact pure_eq_ok.mp h
  | cons a l ih =>
    rw [List.foldlM_cons, bind_eq_ok]
    constructor
    · rintro ⟨s₁, h₁, h⟩
      obtain ⟨b, hb, hadd⟩ := bind_eq_ok.mp h₁
      obtain ⟨bs, hbs, h⟩ := ih.mp h
      exact ⟨b :: bs, .cons hb hbs, bind_eq_ok.mpr ⟨s₁, hadd, h⟩⟩
    · rintro ⟨bs, hbs, h⟩
      cases hbs with
      | cons hb hbs =>
        obtain ⟨s₁, hadd, h⟩ := bind_eq_ok.mp h
        exact ⟨s₁, bind_eq_ok.mpr ⟨_, hb, hadd⟩, ih.mpr ⟨_, hbs, h⟩⟩

end Except

/-! ### Keys -/

section Keys
variable {α κ : Type} {key : α → κ} {l : List α}

theorem nodup_map_append {a : α} (h : (l.map key).Nodup) (ha : key a ∉ l.map key) :
    ((l ++ [a]).map key).Nodup := by
  rw [List.map_append, List.nodup_append]
  refine ⟨h, List.nodup_singleton _, fun k hk k' hk' heq => ha ?_⟩
  rw [← List.mem_singleton.mp hk', ← heq]
  exact hk

theorem nodup_filterMap_append {key : α → Option κ} {a : α} (h : (l.filterMap key).Nodup)
    (ha : ∀ k, key a = some k → k ∉ l.filterMap key) : ((l ++ [a]).filterMap key).Nodup := by
  rw [List.filterMap_append, List.nodup_append]
  refine ⟨h, ?_, fun k hk k' hk' heq => ?_⟩
  · cases hkey : key a <;> simp [hkey]
  · have hkey : key a = some k' := by simpa using hk'
    exact ha k' hkey (heq ▸ hk)

theorem find?_key [DecidableEq κ] (h : (l.map key).Nodup) {k : κ} {a : α} :
    (l.find? fun a => key a = k) = some a ↔ a ∈ l ∧ key a = k := by
  constructor
  · intro hfind
    exact ⟨List.mem_of_find?_eq_some hfind, by simpa using List.find?_some hfind⟩
  · rintro ⟨ha, rfl⟩
    cases hfind : l.find? fun b => key b = key a with
    | none =>
      exact absurd (List.find?_eq_none.mp hfind a ha) (by simp)
    | some b =>
      have hb : key b = key a := by simpa using List.find?_some hfind
      rw [List.inj_on_of_nodup_map h (List.mem_of_find?_eq_some hfind) ha hb]

theorem lookup_eq_some {β : Type} [BEq κ] [LawfulBEq κ] {l : List (κ × β)}
    (h : ∀ p ∈ l, ∀ q ∈ l, p.1 = q.1 → p = q) {p : κ × β} (hp : p ∈ l) :
    l.lookup p.1 = some p.2 := by
  induction l with
  | nil => exact absurd hp (List.not_mem_nil)
  | cons q l ih =>
    rw [List.lookup_cons]
    by_cases hkey : p.1 = q.1
    · rw [hkey, beq_self_eq_true, h p hp q (List.mem_cons_self ..) hkey]
    · rw [beq_false_of_ne hkey]
      refine ih (fun x hx y hy => h x (List.mem_cons_of_mem _ hx) y (List.mem_cons_of_mem _ hy)) ?_
      exact (List.mem_cons.mp hp).resolve_left fun heq => hkey (heq ▸ rfl)

end Keys

end Fallible

end Neo
