import Mathlib.Combinatorics.SimpleGraph.Metric

/-! Breadth-first search that keeps, for every node, the first hop of its way from the source. The
first hop is nearer to the node than the source is. -/

namespace FirstHop

variable {α : Type*} [DecidableEq α]

/-- The first hops that are known, and the nodes whose neighbors are still to be looked at. -/
structure State (α : Type*) where
  parent : α → Option α
  queue : List α

/-- A neighbor of `n` is reached the way `n` is. -/
def visit (n : α) (st : State α) (m : α) : State α :=
  if st.parent m = none then ⟨Function.update st.parent m (st.parent n), st.queue ++ [m]⟩ else st

/-- The search; `none` where the fuel does not suffice. -/
def loop (adj : α → List α) : Nat → State α → Option (α → Option α)
  | _, ⟨parent, []⟩ => some parent
  | 0, ⟨_, _ :: _⟩ => none
  | fuel + 1, ⟨parent, n :: queue⟩ => loop adj fuel ((adj n).foldl (visit n) ⟨parent, queue⟩)

def start (adj : α → List α) (s : α) : State α :=
  (adj s).foldl (fun st m => ⟨Function.update st.parent m (some m), st.queue ++ [m]⟩)
    ⟨Function.update (fun _ => none) s (some s), []⟩

/-- The nodes that the visit of some neighbors adds. -/
structure Visited (n : α) (ms : List α) (st st' : State α) (new : List α) : Prop where
  queue : st'.queue = st.queue ++ new
  mem_new : ∀ m, m ∈ new ↔ m ∈ ms ∧ st.parent m = none
  nodup : new.Nodup
  old : ∀ m, st.parent m ≠ none → st'.parent m = st.parent m
  added : ∀ m, m ∈ new → st'.parent m = st.parent n
  rest : ∀ m, st.parent m = none → m ∉ new → st'.parent m = none

variable {n s : α} {st : State α}

theorem visited_visit (n : α) (st : State α) (m : α) :
    Visited n [m] st (visit n st m) (if st.parent m = none then [m] else []) := by
  rw [visit]
  split
  · rename_i hm
    refine ⟨rfl, fun k => ?_, List.nodup_singleton m, fun k hk => ?_, fun k hk => ?_,
      fun k hk hnew => ?_⟩
    · rw [List.mem_singleton]
      exact ⟨fun hk => ⟨hk, hk ▸ hm⟩, fun hk => hk.1⟩
    · exact Function.update_of_ne (fun heq : k = m => hk (by rw [heq]; exact hm)) _ _
    · rw [List.mem_singleton.mp hk]
      exact Function.update_self _ _ _
    · rw [← hk]
      exact Function.update_of_ne (fun heq => hnew (List.mem_singleton.mpr heq)) _ _
  · rename_i hm
    refine ⟨(List.append_nil _).symm, fun k => ?_, List.nodup_nil, fun k _ => rfl, fun k hk => ?_,
      fun k hk _ => hk⟩
    · rw [List.mem_singleton]
      exact ⟨fun hk => absurd hk List.not_mem_nil, fun hk => absurd (hk.1 ▸ hk.2) hm⟩
    · exact absurd hk List.not_mem_nil

theorem Visited.trans {ms ks : List α} {st₁ st₂ : State α} {new₁ new₂ : List α}
    (h : st.parent n ≠ none) (h₁ : Visited n ms st st₁ new₁) (h₂ : Visited n ks st₁ st₂ new₂) :
    Visited n (ms ++ ks) st st₂ (new₁ ++ new₂) := by
  have hnew : ∀ m ∈ new₂, st.parent m = none ∧ m ∉ new₁ := by
    intro m hm
    have hnone := ((h₂.mem_new m).mp hm).2
    constructor
    · by_contra hm'
      rw [h₁.old m hm'] at hnone
      exact hm' hnone
    · intro hm'
      rw [h₁.added m hm'] at hnone
      exact h hnone
  refine ⟨?_, fun m => ?_, ?_, fun m hm => ?_, fun m hm => ?_, fun m hm hrest => ?_⟩
  · rw [h₂.queue, h₁.queue, List.append_assoc]
  · rw [List.mem_append, List.mem_append]
    constructor
    · rintro (hm | hm)
      · exact ⟨.inl ((h₁.mem_new m).mp hm).1, ((h₁.mem_new m).mp hm).2⟩
      · exact ⟨.inr ((h₂.mem_new m).mp hm).1, (hnew m hm).1⟩
    · rintro ⟨hm | hm, hnone⟩
      · exact .inl ((h₁.mem_new m).mpr ⟨hm, hnone⟩)
      · by_cases hm' : m ∈ new₁
        · exact .inl hm'
        · exact .inr ((h₂.mem_new m).mpr ⟨hm, h₁.rest m hnone hm'⟩)
  · exact h₁.nodup.append h₂.nodup fun m hm hm' => (hnew m hm').2 hm
  · rw [h₂.old m (by rw [h₁.old m hm]; exact hm), h₁.old m hm]
  · rcases List.mem_append.mp hm with hm | hm
    · have hadded := h₁.added m hm
      rw [h₂.old m (by rw [hadded]; exact h), hadded]
    · rw [h₂.added m hm, h₁.old n h]
  · rw [List.mem_append, not_or] at hrest
    exact h₂.rest m (h₁.rest m hm hrest.1) hrest.2

theorem visited_foldl (st : State α) (h : st.parent n ≠ none) (ms : List α) :
    ∃ new, Visited n ms st (ms.foldl (visit n) st) new := by
  induction ms generalizing st with
  | nil =>
    refine ⟨[], (List.append_nil _).symm, by simp, List.nodup_nil, fun _ _ => rfl, by simp,
      fun _ hm _ => hm⟩
  | cons m ms ih =>
    have hone := visited_visit n st m
    obtain ⟨new, hnew⟩ := ih (visit n st m) (by rw [hone.old n h]; exact h)
    exact ⟨_, hone.trans h hnew⟩

/-! ### Levels -/

variable {G : SimpleGraph α} {adj : α → List α}

/-- The nodes have levels. Those of the queue are on one level and then on the next, and the
neighbors of every node that left the queue are known and not farther than the next level. -/
structure Levels (G : SimpleGraph α) (s : α) (st : State α) (level : α → Nat) (d : Nat)
    (here next : List α) : Prop where
  source : st.parent s = some s
  zero : level s = 0
  hop : ∀ n p, n ≠ s → st.parent n = some p → G.Adj s p ∧ ∃ w : G.Walk p n, w.length + 1 = level n
  queue : st.queue = here ++ next
  here : ∀ n ∈ here, level n = d
  next : ∀ n ∈ next, level n = d + 1
  known : ∀ n ∈ st.queue, n ≠ s ∧ st.parent n ≠ none
  le : ∀ n, st.parent n ≠ none → level n ≤ d + 1
  done : ∀ n, st.parent n ≠ none → n ∉ st.queue →
    ∀ m, G.Adj n m → st.parent m ≠ none ∧ level m ≤ level n + 1

variable {level : α → Nat} {d : Nat} {parent : α → Option α} {queue here next : List α}

omit [DecidableEq α] in
theorem Levels.shift (h : Levels G s st level d [] next) : Levels G s st level (d + 1) next [] where
  source := h.source
  zero := h.zero
  hop := h.hop
  queue := by rw [List.append_nil, h.queue, List.nil_append]
  here := h.next
  next := fun n hn => absurd hn List.not_mem_nil
  known := h.known
  le := fun n hn => (h.le n hn).trans (Nat.le_succ _)
  done := h.done

theorem Levels.visit (hadj : ∀ u v, v ∈ adj u ↔ G.Adj u v)
    (h : Levels G s ⟨parent, n :: queue⟩ level d (n :: here) next) :
    ∃ level' new, Levels G s ((adj n).foldl (visit n) ⟨parent, queue⟩) level' d here
      (next ++ new) := by
  have hknown : parent n ≠ none := (h.known n (List.mem_cons_self ..)).2
  have hns : n ≠ s := (h.known n (List.mem_cons_self ..)).1
  have hd : level n = d := h.here n (List.mem_cons_self ..)
  have hqueue : queue = here ++ next := by
    have := h.queue
    rwa [List.cons_append, List.cons_inj_right] at this
  have hsource : parent s = some s := h.source
  obtain ⟨p, hp⟩ := Option.ne_none_iff_exists'.mp hknown
  obtain ⟨new, hv⟩ := visited_foldl ⟨parent, queue⟩ hknown (adj n)
  set st' := (adj n).foldl (FirstHop.visit n) ⟨parent, queue⟩ with hst'
  -- unknown nodes have no level yet
  let level' : α → Nat := fun m => if parent m = none then d + 1 else level m
  have hold : ∀ m, parent m ≠ none → level' m = level m := fun m hm => if_neg hm
  have hnew : ∀ m ∈ new, level' m = d + 1 := fun m hm => if_pos ((hv.mem_new m).mp hm).2
  have hcases : ∀ m, st'.parent m ≠ none →
      parent m ≠ none ∧ st'.parent m = parent m ∨ m ∈ new ∧ st'.parent m = some p := by
    intro m hm
    by_cases hpm : parent m = none
    · by_cases hmem : m ∈ new
      · exact .inr ⟨hmem, (hv.added m hmem).trans hp⟩
      · exact absurd (hv.rest m hpm hmem) hm
    · exact .inl ⟨hpm, hv.old m hpm⟩
  refine ⟨level', new, ?_⟩
  constructor
  case source => exact (hv.old s (by simp [hsource])).trans hsource
  case zero => exact (hold s (by simp [hsource])).trans h.zero
  case hop =>
    intro m q hms hq
    rcases hcases m (by rw [hq]; simp) with ⟨hpm, heq⟩ | ⟨hmem, heq⟩
    · rw [hold m hpm]
      exact h.hop m q hms (heq.symm.trans hq)
    · obtain rfl : p = q := Option.some.inj (heq.symm.trans hq)
      obtain ⟨hsp, w, hw⟩ := h.hop n p hns hp
      have hadjm := (hadj n m).mp ((hv.mem_new m).mp hmem).1
      refine ⟨hsp, w.concat hadjm, ?_⟩
      rw [SimpleGraph.Walk.length_concat, hw, hnew m hmem, hd]
  case queue => rw [hv.queue, hqueue, List.append_assoc]
  case here =>
    intro m hm
    have hmem : m ∈ n :: here := List.mem_cons_of_mem _ hm
    have hpm := (h.known m (h.queue ▸ List.mem_append_left _ hmem)).2
    exact (hold m hpm).trans (h.here m hmem)
  case next =>
    intro m hm
    rcases List.mem_append.mp hm with hm | hm
    · have hpm := (h.known m (h.queue ▸ List.mem_append_right _ hm)).2
      exact (hold m hpm).trans (h.next m hm)
    · exact hnew m hm
  case known =>
    intro m hm
    rw [hv.queue] at hm
    rcases List.mem_append.mp hm with hm | hm
    · obtain ⟨hms, hpm⟩ := h.known m (List.mem_cons_of_mem _ hm)
      exact ⟨hms, by rw [hv.old m hpm]; exact hpm⟩
    · refine ⟨fun hms => ?_, by rw [hv.added m hm]; exact hknown⟩
      have hnone := ((hv.mem_new m).mp hm).2
      rw [hms] at hnone
      exact absurd (hsource.symm.trans hnone) (by simp)
  case le =>
    intro m hm
    rcases hcases m hm with ⟨hpm, -⟩ | ⟨hmem, -⟩
    · rw [hold m hpm]
      exact h.le m hpm
    · exact (hnew m hmem).le
  case done =>
    intro k hk hkq m hkm
    rw [hv.queue, List.mem_append, not_or] at hkq
    rcases hcases k hk with ⟨hpk, -⟩ | ⟨hmem, -⟩
    · by_cases hkn : k = n
      · -- the neighbors of the node itself are old, or are added now
        rw [hkn] at hkm ⊢
        rw [hold n hknown, hd]
        have hmadj := (hadj n m).mpr hkm
        by_cases hpm : parent m = none
        · have hmem : m ∈ new := (hv.mem_new m).mpr ⟨hmadj, hpm⟩
          exact ⟨by rw [hv.added m hmem]; exact hknown, (hnew m hmem).le⟩
        · rw [hv.old m hpm, hold m hpm]
          exact ⟨hpm, h.le m hpm⟩
      · have hnot : k ∉ n :: queue := fun hmem => (List.mem_cons.mp hmem).elim hkn hkq.1
        obtain ⟨hpm, hle⟩ := h.done k hpk hnot m hkm
        rw [hv.old m hpm, hold m hpm, hold k hpk]
        exact ⟨hpm, hle⟩
    · exact absurd hmem hkq.2

theorem Levels.loop (hadj : ∀ u v, v ∈ adj u ↔ G.Adj u v) {fuel : Nat} {result : α → Option α}
    (h : Levels G s st level d here next) (hloop : loop adj fuel st = some result) :
    ∃ level d, Levels G s ⟨result, []⟩ level d [] [] := by
  obtain ⟨parent, queue⟩ := st
  induction fuel generalizing parent queue level d here next with
  | zero =>
    cases queue with
    | nil =>
      obtain ⟨rfl, rfl⟩ := List.append_eq_nil_iff.mp h.queue.symm
      obtain rfl : parent = result := Option.some.inj hloop
      exact ⟨level, d, h⟩
    | cons n queue => exact absurd hloop (by simp [FirstHop.loop])
  | succ fuel ih =>
    cases queue with
    | nil =>
      obtain ⟨rfl, rfl⟩ := List.append_eq_nil_iff.mp h.queue.symm
      obtain rfl : parent = result := Option.some.inj hloop
      exact ⟨level, d, h⟩
    | cons n queue =>
      rw [FirstHop.loop] at hloop
      cases here with
      | nil =>
        have hnext : n :: queue = next := h.queue
        subst hnext
        obtain ⟨level', new, hvisit⟩ := h.shift.visit hadj
        exact ih _ _ hvisit hloop
      | cons m here =>
        obtain rfl : n = m := (List.cons_eq_cons.mp h.queue).1
        obtain ⟨level', new, hvisit⟩ := h.visit hadj
        exact ih _ _ hvisit hloop

/-! ### The start and the end -/

theorem start_foldl (ms : List α) (st : State α) :
    (ms.foldl (fun st m => (⟨Function.update st.parent m (some m), st.queue ++ [m]⟩ : State α))
      st).queue = st.queue ++ ms ∧
    ∀ k, (ms.foldl (fun st m => (⟨Function.update st.parent m (some m), st.queue ++ [m]⟩ : State α))
      st).parent k = if k ∈ ms then some k else st.parent k := by
  induction ms generalizing st with
  | nil => simp
  | cons m ms ih =>
    obtain ⟨hqueue, hparent⟩ := ih ⟨Function.update st.parent m (some m), st.queue ++ [m]⟩
    refine ⟨by rw [List.foldl_cons, hqueue, List.append_assoc]; rfl, fun k => ?_⟩
    rw [List.foldl_cons, hparent]
    by_cases hk : k = m
    · simp [hk]
    · simp [hk, Function.update_of_ne]

theorem start_queue (adj : α → List α) (s : α) : (start adj s).queue = adj s := by
  rw [start, (start_foldl (adj s) _).1, List.nil_append]

theorem start_parent (adj : α → List α) (s n : α) :
    (start adj s).parent n = if n ∈ adj s ∨ n = s then some n else none := by
  rw [start, (start_foldl (adj s) _).2]
  by_cases hmem : n ∈ adj s
  · simp [hmem]
  · by_cases hs : n = s
    · simp [hs]
    · simp [hmem, hs]

theorem levels_start (hadj : ∀ u v, v ∈ adj u ↔ G.Adj u v) (s : α) :
    Levels G s (start adj s) (fun n => if n = s then 0 else 1) 1 (adj s) [] := by
  have hne : ∀ n ∈ adj s, n ≠ s := fun n hn => (((hadj s n).mp hn).ne).symm
  constructor
  case source => rw [start_parent, if_pos (.inr rfl)]
  case zero => exact if_pos rfl
  case hop =>
    intro n p hns hp
    rw [start_parent] at hp
    split at hp
    · rename_i hmem
      obtain rfl := Option.some.inj hp
      refine ⟨(hadj s n).mp (hmem.resolve_right hns), .nil, ?_⟩
      rw [if_neg hns]
      rfl
    · exact absurd hp (by simp)
  case queue => rw [start_queue, List.append_nil]
  case here => exact fun n hn => if_neg (hne n hn)
  case next => exact fun n hn => absurd hn List.not_mem_nil
  case known =>
    intro n hn
    rw [start_queue] at hn
    refine ⟨hne n hn, ?_⟩
    rw [start_parent, if_pos (.inl hn)]
    simp
  case le =>
    intro n _
    split <;> omega
  -- only the source is done, and its neighbours are all known
  case done =>
    intro n hn hq m hm
    rw [start_queue] at hq
    have hns : n = s := by
      by_contra hns
      rw [start_parent, if_neg (not_or.mpr ⟨hq, hns⟩)] at hn
      exact hn rfl
    have hmem : m ∈ adj s := (hadj s m).mpr (hns ▸ hm)
    rw [start_parent, if_pos (.inl hmem), hns, if_pos rfl, if_neg (hne m hmem)]
    exact ⟨by simp, le_rfl⟩

omit [DecidableEq α] in
theorem Levels.walk (h : Levels G s ⟨parent, []⟩ level d [] []) {u v : α} (w : G.Walk u v)
    (hu : parent u ≠ none) : parent v ≠ none ∧ level v ≤ level u + w.length := by
  induction w with
  | nil => exact ⟨hu, le_rfl⟩
  | cons hadj w ih =>
    obtain ⟨hm, hle⟩ := h.done _ hu List.not_mem_nil _ hadj
    obtain ⟨hv, hle'⟩ := ih hm
    rw [SimpleGraph.Walk.length_cons]
    exact ⟨hv, by omega⟩

def firstHops (adj : α → List α) (fuel : Nat) (s : α) : Option (α → Option α) :=
  loop adj fuel (start adj s)

theorem exists_firstHop (hadj : ∀ u v, v ∈ adj u ↔ G.Adj u v) {fuel : Nat}
    (h : firstHops adj fuel s = some parent) (hreach : G.Reachable s n) (hne : n ≠ s) :
    ∃ p, parent n = some p ∧ G.Adj s p ∧ G.Reachable p n ∧ G.dist p n < G.dist s n := by
  obtain ⟨level, d, hlevels⟩ := (levels_start hadj s).loop hadj h
  obtain ⟨w, hw⟩ := hreach.exists_walk_length_eq_dist
  have hsource : parent s = some s := hlevels.source
  obtain ⟨hknown, hle⟩ := hlevels.walk w (by rw [hsource]; simp)
  obtain ⟨p, hp⟩ := Option.ne_none_iff_exists'.mp hknown
  obtain ⟨hsp, w', hw'⟩ := hlevels.hop n p hne hp
  refine ⟨p, hp, hsp, ⟨w'⟩, ?_⟩
  have hdist := SimpleGraph.dist_le w'
  rw [hlevels.zero, hw] at hle
  omega

/-! ### Fuel -/

def unknown (U : Finset α) (parent : α → Option α) : Finset α := U.filter fun m => parent m = none

theorem Visited.card {U : Finset α} {ms new : List α} {st' : State α}
    (hn : st.parent n ≠ none) (hU : ∀ m ∈ ms, m ∈ U) (h : Visited n ms st st' new) :
    new.length + (unknown U st'.parent).card = (unknown U st.parent).card := by
  have hsub : new.toFinset ⊆ unknown U st.parent := by
    intro m hm
    obtain ⟨hmem, hnone⟩ := (h.mem_new m).mp (List.mem_toFinset.mp hm)
    exact Finset.mem_filter.mpr ⟨hU m hmem, hnone⟩
  have hdiff : unknown U st'.parent = unknown U st.parent \ new.toFinset := by
    ext m
    rw [Finset.mem_sdiff, List.mem_toFinset, unknown, unknown, Finset.mem_filter, Finset.mem_filter]
    constructor
    · rintro ⟨hmU, hnone⟩
      have hold : st.parent m = none := by
        by_contra hold
        exact hold ((h.old m hold).symm.trans hnone)
      refine ⟨⟨hmU, hold⟩, fun hm => ?_⟩
      rw [h.added m hm] at hnone
      exact hn hnone
    · rintro ⟨⟨hmU, hnone⟩, hm⟩
      exact ⟨hmU, h.rest m hnone hm⟩
  have hcard := Finset.card_sdiff_add_card_eq_card hsub
  rw [hdiff, ← List.toFinset_card_of_nodup h.nodup]
  omega

theorem loop_isSome {U : Finset α} (hU : ∀ n, ∀ m ∈ adj n, m ∈ U) {fuel : Nat}
    (hknown : ∀ n ∈ st.queue, st.parent n ≠ none)
    (hfuel : st.queue.length + (unknown U st.parent).card ≤ fuel) :
    (loop adj fuel st).isSome = true := by
  induction fuel generalizing st with
  | zero =>
    obtain ⟨parent, queue⟩ := st
    obtain rfl : queue = [] := List.eq_nil_of_length_eq_zero (by simp only at hfuel; omega)
    rfl
  | succ fuel ih =>
    obtain ⟨parent, queue⟩ := st
    cases queue with
    | nil => rfl
    | cons n queue =>
      rw [loop]
      have hn : parent n ≠ none := hknown n (List.mem_cons_self ..)
      obtain ⟨new, hv⟩ := visited_foldl ⟨parent, queue⟩ hn (adj n)
      refine ih (fun m hm => ?_) ?_
      · rw [hv.queue] at hm
        rcases List.mem_append.mp hm with hm | hm
        · have hpm := hknown m (List.mem_cons_of_mem _ hm)
          rw [hv.old m hpm]
          exact hpm
        · rw [hv.added m hm]
          exact hn
      · have hcard := hv.card hn (hU n)
        rw [hv.queue, List.length_append]
        rw [List.length_cons] at hfuel
        dsimp only at hcard hfuel ⊢
        omega

theorem firstHops_isSome {U : Finset α} (hU : ∀ n, ∀ m ∈ adj n, m ∈ U) (hs : (adj s).Nodup)
    {fuel : Nat} (hfuel : U.card ≤ fuel) : (firstHops adj fuel s).isSome = true := by
  refine loop_isSome hU (fun n hn => ?_) ?_
  · rw [start_queue] at hn
    rw [start_parent, if_pos (.inl hn)]
    simp
  · have hdisjoint : Disjoint (adj s).toFinset (unknown U (start adj s).parent) := by
      rw [Finset.disjoint_left]
      intro m hm hm'
      have hnone := (Finset.mem_filter.mp hm').2
      rw [start_parent, if_pos (.inl (List.mem_toFinset.mp hm))] at hnone
      exact absurd hnone (by simp)
    have hsub : (adj s).toFinset ∪ unknown U (start adj s).parent ⊆ U :=
      Finset.union_subset (fun m hm => hU s m (List.mem_toFinset.mp hm)) (Finset.filter_subset _ _)
    have hcard := Finset.card_le_card hsub
    rw [Finset.card_union_of_disjoint hdisjoint, List.toFinset_card_of_nodup hs] at hcard
    rw [start_queue]
    omega

end FirstHop
