import Mathlib.Data.List.SplitBy

/-! A list cut into groups, in each of which every element is linked to the one before it, and
between which no elements are. There are as many groups as elements that are not linked. -/

variable {α : Type*}

structure Groups (r : α → α → Bool) (l : List α) (gs : List (List α)) : Prop where
  flatten : gs.flatten = l
  nonempty : [] ∉ gs
  linked : ∀ g ∈ gs, g.IsChain fun a b => r a b = true
  apart : gs.IsChain fun g h => ∀ a ∈ g.getLast?, ∀ b ∈ h.head?, r a b = false

namespace Groups

variable {r r' : α → α → Bool} {l : List α} {gs : List (List α)} {g : List α} {a b : α}

theorem nil : Groups r [] [] := ⟨rfl, by simp, by simp, .nil⟩

theorem snoc (h : Groups r l gs) (hb : ∀ a ∈ l.getLast?, r a b = false) :
    Groups r (l ++ [b]) (gs ++ [[b]]) := by
  refine ⟨by rw [List.flatten_append, h.flatten]; rfl, ?_, fun g hg => ?_, ?_⟩
  · simp [h.nonempty]
  · rcases List.mem_append.mp hg with hg | hg
    · exact h.linked g hg
    · rw [List.mem_singleton.mp hg]
      exact .singleton b
  · refine List.isChain_append.mpr ⟨h.apart, .singleton [b], fun g hg k hk c hc d hd => ?_⟩
    obtain rfl : [b] = k := by simpa using hk
    obtain rfl : b = d := by simpa using hd
    obtain ⟨gs', rfl⟩ : ∃ gs', gs = gs' ++ [g] :=
      ⟨gs.dropLast, (List.dropLast_append_getLast? g hg).symm⟩
    refine hb c ?_
    have hne : g ≠ [] := fun hnil => h.nonempty (hnil ▸ List.mem_append_right _ (by simp))
    rw [← h.flatten, List.flatten_append, List.flatten_singleton,
      List.getLast?_append_of_ne_nil _ hne]
    exact hc

theorem extend (h : Groups r l (gs ++ [g])) (ha : a ∈ g.getLast?) (hab : r a b = true) :
    Groups r (l ++ [b]) (gs ++ [g ++ [b]]) := by
  have hne : g ≠ [] := by
    rintro rfl
    simp at ha
  refine ⟨?_, ?_, fun k hk => ?_, ?_⟩
  · rw [← h.flatten]
    simp
  · intro hnil
    rcases List.mem_append.mp hnil with hnil | hnil
    · exact h.nonempty (List.mem_append_left _ hnil)
    · simp at hnil
  · rcases List.mem_append.mp hk with hk | hk
    · exact h.linked k (List.mem_append_left _ hk)
    · rw [List.mem_singleton.mp hk]
      refine List.isChain_append.mpr ⟨h.linked g (by simp), .singleton b, fun c hc d hd => ?_⟩
      obtain rfl : b = d := by simpa using hd
      obtain rfl : a = c := Option.mem_unique ha hc
      exact hab
  · obtain ⟨happ, -, hlast⟩ := List.isChain_append.mp h.apart
    refine List.isChain_append.mpr ⟨happ, .singleton _, fun k hk k' hk' c hc d hd => ?_⟩
    obtain rfl : g ++ [b] = k' := by simpa using hk'
    rw [List.head?_append_of_ne_nil _ hne] at hd
    exact hlast k hk g (by simp) c hc d hd

theorem isChain_and {R S : α → α → Prop} : ∀ {l : List α}, l.IsChain R → l.IsChain S →
    l.IsChain fun a b => R a b ∧ S a b
  | [], _, _ => .nil
  | [a], _, _ => .singleton a
  | a :: b :: l, hR, hS => by
    obtain ⟨hab, hR'⟩ := List.isChain_cons_cons.mp hR
    obtain ⟨hab', hS'⟩ := List.isChain_cons_cons.mp hS
    exact .cons_cons ⟨hab, hab'⟩ (isChain_and hR' hS')

def links (r : α → α → Bool) : List α → Nat
  | a :: b :: l => (r a b).toNat + links r (b :: l)
  | _ => 0

theorem toNat_le {p q : Bool} (h : p = true → q = true) : p.toNat ≤ q.toNat := by
  cases p with
  | false => exact Nat.zero_le _
  | true => rw [h rfl]

theorem links_le (h : ∀ a b, r' a b = true → r a b = true) (l : List α) :
    links r' l ≤ links r l := by
  induction l with
  | nil => exact le_rfl
  | cons a l ih =>
    cases l with
    | nil => exact le_rfl
    | cons b l =>
      exact Nat.add_le_add (toNat_le (h a b)) ih

theorem isChain_of_links_eq (h : ∀ a b, r' a b = true → r a b = true) :
    ∀ {l : List α}, links r' l = links r l → l.IsChain fun a b => r' a b = r a b
  | [], _ => .nil
  | [a], _ => .singleton a
  | a :: b :: l, heq => by
    have hle := toNat_le (h a b)
    have hrest := links_le h (b :: l)
    simp only [links] at heq
    refine .cons_cons ?_ (isChain_of_links_eq h (by omega))
    have heq' : (r' a b).toNat = (r a b).toNat := by
      omega
    revert heq'
    cases r' a b <;> cases r a b <;> decide

theorem links_append (hne : l ≠ []) : ∀ {g : List α}, g ≠ [] →
    (g.IsChain fun a b => r a b = true) → (∀ a ∈ g.getLast?, ∀ b ∈ l.head?, r a b = false) →
    1 + links r (g ++ l) = g.length + links r l
  | [], hg, _, _ => absurd rfl hg
  | [a], _, _, hapart => by
    obtain ⟨b, l, rfl⟩ := List.exists_cons_of_ne_nil hne
    simp [links, hapart a (by simp) b (by simp)]
  | a :: a' :: g, _, hlinked, hapart => by
    obtain ⟨hab, hlinked'⟩ := List.isChain_cons_cons.mp hlinked
    have hrest := links_append hne (g := a' :: g) (List.cons_ne_nil _ _) hlinked'
      (by simpa using hapart)
    simp only [List.cons_append, links, hab, Bool.toNat_true, List.length_cons] at hrest ⊢
    omega

theorem links_of_isChain : ∀ {g : List α}, g ≠ [] → (g.IsChain fun a b => r a b = true) →
    1 + links r g = g.length
  | [], hg, _ => absurd rfl hg
  | [a], _, _ => rfl
  | a :: a' :: g, _, hlinked => by
    obtain ⟨hab, hlinked'⟩ := List.isChain_cons_cons.mp hlinked
    have hrest := links_of_isChain (List.cons_ne_nil a' g) hlinked'
    simp only [links, hab, Bool.toNat_true, List.length_cons] at hrest ⊢
    omega

theorem length_add_links (h : Groups r l gs) : gs.length + links r l = l.length := by
  induction gs generalizing l with
  | nil =>
    obtain rfl := h.flatten
    rfl
  | cons g gs ih =>
    obtain ⟨hapart, hrest⟩ := List.isChain_cons.mp h.apart
    have hg : g ≠ [] := fun hnil => h.nonempty (hnil ▸ List.mem_cons_self ..)
    have hgs : Groups r gs.flatten gs := ⟨rfl, fun hnil => h.nonempty (List.mem_cons_of_mem _ hnil),
      fun k hk => h.linked k (List.mem_cons_of_mem _ hk), hrest⟩
    have hlinked := h.linked g (List.mem_cons_self ..)
    have hih := ih hgs
    rw [← h.flatten, List.flatten_cons, List.length_append, List.length_cons]
    by_cases hnil : gs = []
    · subst hnil
      have hlinks := links_of_isChain hg hlinked
      simp only [List.flatten_nil, List.append_nil, List.length_nil]
      omega
    · obtain ⟨k, gs, rfl⟩ := List.exists_cons_of_ne_nil hnil
      have hk : k ≠ [] := fun hnil => hgs.nonempty (hnil ▸ List.mem_cons_self ..)
      have hlinks := links_append (r := r) (l := (k :: gs).flatten) (by simp [hk]) hg hlinked
        (by
          intro a ha b hb
          rw [List.flatten_cons, List.head?_append_of_ne_nil _ hk] at hb
          exact hapart k (by simp) a ha b hb)
      omega

end Groups
