import Neo.Lib.Ordered
import Mathlib.Logic.Relation

/-! Recursive lookup with one set of visited keys for the whole search. Each key yields results
and further keys; a key met again yields nothing. From an empty visited set the search returns
what all keys reachable from the first one yield, however they refer to each other. -/

namespace Collect

variable {α β : Type*}

def Next (items : α → List (α ⊕ Option β)) (x y : α) : Prop := .inl y ∈ items x

def Yields (items : α → List (α ⊕ Option β)) (x : α) (b : β) : Prop := .inr (some b) ∈ items x

variable {lt : β → β → Prop} {items : α → List (α ⊕ Option β)}

/-- Items that agree on a set of keys closed under the one references agree on what the keys of
the set reach. -/
theorem reach_congr {items' : α → List (α ⊕ Option β)} (K : α → Prop)
    (hK : ∀ x, K x → ∀ y, Next items x y → K y)
    (h : ∀ x, K x → ∀ i, i ∈ items x ↔ i ∈ items' x) {k : α} (hk : K k) (b : β) :
    (∃ x, Relation.ReflTransGen (Next items) k x ∧ Yields items x b) ↔
      ∃ x, Relation.ReflTransGen (Next items') k x ∧ Yields items' x b := by
  constructor
  · rintro ⟨x, hx, hb⟩
    have hreach : K x ∧ Relation.ReflTransGen (Next items') k x := by
      clear hb
      induction hx with
      | refl => exact ⟨hk, .refl⟩
      | tail _ hxy ih => exact ⟨hK _ ih.1 _ hxy, ih.2.tail ((h _ ih.1 _).mp hxy)⟩
    exact ⟨x, hreach.2, (h x hreach.1 _).mp hb⟩
  · rintro ⟨x, hx, hb⟩
    have hreach : K x ∧ Relation.ReflTransGen (Next items) k x := by
      clear hb
      induction hx with
      | refl => exact ⟨hk, .refl⟩
      | tail _ hxy ih =>
        have hxy' := (h _ ih.1 _).mpr hxy
        exact ⟨hK _ ih.1 _ hxy', ih.2.tail hxy'⟩
    exact ⟨x, hreach.2, (h x hreach.1 _).mpr hb⟩

/-- The visited keys that were not visited before are closed and reachable from `k`, and the
results are theirs. -/
structure Post (lt : β → β → Prop) (items : α → List (α ⊕ Option β)) (k : α) (seen : List α)
    (bs : List β) (seen' : List α) : Prop where
  mono : ∀ x ∈ seen, x ∈ seen'
  self : k ∈ seen'
  closed : ∀ x ∈ seen', x ∉ seen → ∀ y, Next items x y → y ∈ seen'
  reach : ∀ x ∈ seen', x ∉ seen → Relation.ReflTransGen (Next items) k x
  sorted : Ordered.Sorted lt bs
  mem : ∀ b, b ∈ bs ↔ ∃ x ∈ seen', x ∉ seen ∧ Yields items x b

/-- The state of the loop over the items of `k`, after the items `done`. -/
structure Loop (lt : β → β → Prop) (items : α → List (α ⊕ Option β)) (k : α) (seen : List α)
    (done : List (α ⊕ Option β)) (bs : List β) (s : List α) : Prop where
  mono : ∀ x ∈ seen, x ∈ s
  self : k ∈ s
  closed : ∀ x ∈ s, x ∉ seen → x ≠ k → ∀ y, Next items x y → y ∈ s
  met : ∀ y, .inl y ∈ done → y ∈ s
  reach : ∀ x ∈ s, x ∉ seen → Relation.ReflTransGen (Next items) k x
  sorted : Ordered.Sorted lt bs
  mem : ∀ b, b ∈ bs ↔ (∃ x ∈ s, x ∉ seen ∧ x ≠ k ∧ Yields items x b) ∨ .inr (some b) ∈ done

theorem Loop.init {k : α} {seen : List α} : Loop lt items k seen [] [] (k :: seen) where
  mono _ hx := List.mem_cons_of_mem _ hx
  self := List.mem_cons_self ..
  closed x hx hs hk := absurd ((List.mem_cons.mp hx).resolve_left hk) hs
  met := by simp
  reach x hx hs := by
    obtain rfl := (List.mem_cons.mp hx).resolve_right hs
    exact .refl
  sorted := List.Pairwise.nil
  mem b := by
    simp only [List.not_mem_nil, or_false, false_iff, List.mem_cons]
    rintro ⟨x, hx, hs, hk, -⟩
    exact hs (hx.resolve_left hk)

theorem Loop.post {k : α} {seen : List α} {bs : List β} {s : List α}
    (h : Loop lt items k seen (items k) bs s) (hk : k ∉ seen) : Post lt items k seen bs s where
  mono := h.mono
  self := h.self
  closed x hx hs y hy := by
    by_cases hxk : x = k
    · exact h.met y (hxk ▸ hy)
    · exact h.closed x hx hs hxk y hy
  reach := h.reach
  sorted := h.sorted
  mem b := by
    rw [h.mem]
    constructor
    · rintro (⟨x, hx, hs, -, hb⟩ | hb)
      · exact ⟨x, hx, hs, hb⟩
      · exact ⟨k, h.self, hk, hb⟩
    · rintro ⟨x, hx, hs, hb⟩
      by_cases hxk : x = k
      · exact .inr (hxk ▸ hb)
      · exact .inl ⟨x, hx, hs, hxk, hb⟩

section Search
variable [DecidableEq α] (lt) [DecidableRel lt]

def item (visit : α → List α → Option (List β × List α)) :
    List β × List α → α ⊕ Option β → Option (List β × List α)
  | (bs, seen), .inl k =>
    (visit k seen).map fun r => (r.1.foldl (fun bs b => Ordered.insert lt b bs) bs, r.2)
  | (bs, seen), .inr (some b) => some (Ordered.insert lt b bs, seen)
  | (bs, seen), .inr none => some (bs, seen)

/-- The results of a key and the keys visited then; `none` where the fuel runs out. -/
def collect (items : α → List (α ⊕ Option β)) :
    Nat → α → List α → Option (List β × List α)
  | 0, _, _ => none
  | fuel + 1, k, seen =>
    if k ∈ seen then some ([], seen)
    else (items k).foldlM (item lt (collect items fuel)) ([], k :: seen)

variable {lt}

theorem mem_foldl_insert [Std.Trichotomous lt] (l bs : List β) (b : β) :
    b ∈ l.foldl (fun bs b => Ordered.insert lt b bs) bs ↔ b ∈ l ∨ b ∈ bs := by
  induction l generalizing bs with
  | nil => simp
  | cons a l ih =>
    rw [List.foldl_cons, ih, Ordered.mem_insert_linear, List.mem_cons]
    tauto

theorem sorted_foldl_insert [IsTrans β lt] (l : List β) {bs : List β} (h : Ordered.Sorted lt bs) :
    Ordered.Sorted lt (l.foldl (fun bs b => Ordered.insert lt b bs) bs) := by
  induction l generalizing bs with
  | nil => exact h
  | cons a l ih => exact ih (h.insert a)

variable [IsTrans β lt] [Std.Trichotomous lt]

theorem Loop.key {k y : α} {seen : List α} {done : List (α ⊕ Option β)} {bs bs' : List β}
    {s s' : List α} (h : Loop lt items k seen done bs s) (hy : Next items k y)
    (hp : Post lt items y s bs' s') :
    Loop lt items k seen (done ++ [.inl y])
      (bs'.foldl (fun bs b => Ordered.insert lt b bs) bs) s' where
  mono x hx := hp.mono x (h.mono x hx)
  self := hp.mono k h.self
  closed x hx hs hk z hz := by
    by_cases hxs : x ∈ s
    · exact hp.mono z (h.closed x hxs hs hk z hz)
    · exact hp.closed x hx hxs z hz
  met z hz := by
    rcases List.mem_append.mp hz with hz | hz
    · exact hp.mono z (h.met z hz)
    · obtain rfl : z = y := by simpa using hz
      exact hp.self
  reach x hx hs := by
    by_cases hxs : x ∈ s
    · exact h.reach x hxs hs
    · exact .head hy (hp.reach x hx hxs)
  sorted := sorted_foldl_insert bs' h.sorted
  mem b := by
    rw [mem_foldl_insert, hp.mem, h.mem]
    simp only [List.mem_append, List.mem_singleton, reduceCtorEq, or_false]
    constructor
    · rintro (⟨x, hx, hxs, hb⟩ | ⟨x, hx, hs, hk, hb⟩ | hb)
      · refine .inl ⟨x, hx, fun hs => hxs (h.mono x hs), ?_, hb⟩
        rintro rfl
        exact hxs h.self
      · exact .inl ⟨x, hp.mono x hx, hs, hk, hb⟩
      · exact .inr hb
    · rintro (⟨x, hx, hs, hk, hb⟩ | hb)
      · by_cases hxs : x ∈ s
        · exact .inr (.inl ⟨x, hxs, hs, hk, hb⟩)
        · exact .inl ⟨x, hx, hxs, hb⟩
      · exact .inr (.inr hb)

omit [DecidableEq α] in
theorem Loop.result {k : α} {seen : List α} {done : List (α ⊕ Option β)} {bs : List β}
    {s : List α} (h : Loop lt items k seen done bs s) (o : Option β) :
    Loop lt items k seen (done ++ [.inr o])
      (match o with | none => bs | some b => Ordered.insert lt b bs) s where
  mono := h.mono
  self := h.self
  closed := h.closed
  met y hy := h.met y (by simpa using hy)
  reach := h.reach
  sorted := by
    cases o with
    | none => exact h.sorted
    | some b => exact h.sorted.insert b
  mem b := by
    cases o with
    | none => simp [h.mem b]
    | some b' =>
      simp only [Ordered.mem_insert_linear, h.mem b, List.mem_append, List.mem_singleton,
        Sum.inr.injEq, Option.some.injEq]
      rw [or_comm, or_assoc]

variable (lt)

theorem collect_post {U : List α} (hU : ∀ x ∈ U, ∀ y, Next items x y → y ∈ U) :
    ∀ (fuel : Nat) (k : α) (seen : List α), k ∈ U →
      (U.filter fun x => x ∉ seen).length < fuel →
      ∃ bs seen', collect lt items fuel k seen = some (bs, seen') ∧
        Post lt items k seen bs seen' := by
  intro fuel
  induction fuel with
  | zero => exact fun _ _ _ h => absurd h (Nat.not_lt_zero _)
  | succ fuel ih =>
    intro k seen hk hfuel
    by_cases hks : k ∈ seen
    · refine ⟨[], seen, by simp [collect, hks], fun _ hx => hx, hks, fun x hx hs => absurd hx hs,
        fun x hx hs => absurd hx hs, List.Pairwise.nil, fun b => ?_⟩
      simp only [List.not_mem_nil, false_iff]
      rintro ⟨x, hx, hs, -⟩
      exact hs hx
    · -- every recursive call starts with `k` visited, so its fuel suffices
      have hless : ∀ s : List α, (∀ x ∈ seen, x ∈ s) → k ∈ s →
          (U.filter fun x => x ∉ s).length < fuel := by
        intro s hmono hself
        have hsub : (U.filter fun x => x ∉ s).Sublist
            ((U.filter fun x => x ∉ seen).filter fun x => x ≠ k) := by
          rw [List.filter_filter]
          refine List.monotone_filter_right U fun x hx => ?_
          simp only [decide_eq_true_eq, Bool.and_eq_true] at hx ⊢
          exact ⟨fun hxk => hx (hxk ▸ hself), fun hxs => hx (hmono x hxs)⟩
        have hlt : ((U.filter fun x => x ∉ seen).filter fun x => x ≠ k).length <
            (U.filter fun x => x ∉ seen).length := by
          refine List.length_filter_lt_length_iff_exists.mpr ⟨k, ?_, by simp⟩
          simpa [hks] using hk
        have := hsub.length_le
        omega
      -- inner induction: the items of `k` one after the other
      have hloop : ∀ (todo done : List (α ⊕ Option β)) (bs : List β) (s : List α),
          items k = done ++ todo → Loop lt items k seen done bs s →
          ∃ bs' s', todo.foldlM (item lt (collect lt items fuel)) (bs, s) = some (bs', s') ∧
            Loop lt items k seen (items k) bs' s' := by
        intro todo
        induction todo with
        | nil =>
          intro done bs s hitems h
          rw [List.append_nil] at hitems
          exact ⟨bs, s, rfl, hitems ▸ h⟩
        | cons a todo ihtodo =>
          intro done bs s hitems h
          have hitems' : items k = done ++ [a] ++ todo := by simpa using hitems
          have ha : a ∈ items k := by simp [hitems]
          cases a with
          | inl y =>
            obtain ⟨bs', s', hcollect, hpost⟩ := ih y s (hU k hk y ha) (hless s h.mono h.self)
            obtain ⟨bs'', s'', hfold, hdone⟩ := ihtodo _ _ _ hitems' (h.key ha hpost)
            exact ⟨bs'', s'', by rw [List.foldlM_cons, item, hcollect]; exact hfold, hdone⟩
          | inr o =>
            obtain ⟨bs'', s'', hfold, hdone⟩ := ihtodo _ _ _ hitems' (h.result o)
            refine ⟨bs'', s'', ?_, hdone⟩
            rw [List.foldlM_cons]
            cases o <;> exact hfold
      obtain ⟨bs, s, hfold, hdone⟩ := hloop (items k) [] [] (k :: seen) rfl Loop.init
      exact ⟨bs, s, by rw [collect, if_neg hks]; exact hfold, hdone.post hks⟩

theorem collect_spec {U : List α} (hU : ∀ x ∈ U, ∀ y, Next items x y → y ∈ U) {k : α}
    (hk : k ∈ U) (fuel : Nat) (hfuel : U.length < fuel) :
    ∃ bs seen, collect lt items fuel k [] = some (bs, seen) ∧ Ordered.Sorted lt bs ∧
      ∀ b, b ∈ bs ↔ ∃ x, Relation.ReflTransGen (Next items) k x ∧ Yields items x b := by
  obtain ⟨bs, seen, hc, hp⟩ := collect_post lt hU fuel k [] hk (by simpa using hfuel)
  have hreach : ∀ x, x ∈ seen ↔ Relation.ReflTransGen (Next items) k x := fun x => by
    refine ⟨fun hx => hp.reach x hx (by simp), fun hx => ?_⟩
    induction hx with
    | refl => exact hp.self
    | tail _ hxy ih => exact hp.closed _ ih (by simp) _ hxy
  refine ⟨bs, seen, hc, hp.sorted, fun b => ?_⟩
  rw [hp.mem]
  simp [hreach]

end Search

end Collect
