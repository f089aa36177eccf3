import Neo.Network.RoutingTable

/-! Routing tables as sets of routes. Every table built by insertions and updates is in the order
of routes, and in such a table the first network that contains an address is the longest. -/

namespace Neo

namespace Route

theorem lt_rank (a b c : Route) (h : lt a c) : lt a b ∨ lt b c := by
  unfold lt at *
  rcases Nat.lt_trichotomy a.network.prefixLength b.network.prefixLength with hab | hab | hab
  · exact .inr (h.elim (fun h => .inl (by omega)) fun h => .inl (by omega))
  · rcases h with h | ⟨h, hlt⟩
    · exact .inr (.inl (by omega))
    · by_cases hb : a.network.addr < b.network.addr
      · exact .inl (.inr ⟨hab, hb⟩)
      · refine .inr (.inr ⟨by omega, ?_⟩)
        bv_omega
  · exact .inl (.inl hab)

instance : Std.Irrefl lt := ⟨fun a h => by
  rcases h with h | ⟨-, h⟩
  · exact Nat.lt_irrefl _ h
  · exact BitVec.lt_irrefl _ h⟩

/-- The routes send packets the same way: to the same interface or, if there is none, to the
same next hop. -/
structure SamePath (r q : Route) : Prop where
  network : r.network = q.network
  egressIntf : r.egressIntf = q.egressIntf
  nextHop : r.egressIntf = 0 → r.nextHop = q.nextHop

theorem SamePath.refl (r : Route) : SamePath r r := ⟨rfl, rfl, fun _ => rfl⟩

theorem SamePath.symm {r q : Route} (h : SamePath r q) : SamePath q r :=
  ⟨h.network.symm, h.egressIntf.symm, fun h₀ => (h.nextHop (h.egressIntf.trans h₀)).symm⟩

theorem SamePath.trans {r q s : Route} (h : SamePath r q) (h' : SamePath q s) : SamePath r s :=
  ⟨h.network.trans h'.network, h.egressIntf.trans h'.egressIntf,
    fun h₀ => (h.nextHop h₀).trans (h'.nextHop (h.egressIntf.symm.trans h₀))⟩

theorem SamePath.hasSamePath {r q : Route} (h : SamePath r q) : r.hasSamePath q = true := by
  unfold Route.hasSamePath
  split_ifs with h₀
  · simpa using ⟨h.network, h.nextHop h₀⟩
  · simpa using ⟨h.network, h.egressIntf⟩

end Route

namespace RoutingTable

variable {tbl : RoutingTable}

abbrev Ranked (tbl : RoutingTable) : Prop := Ordered.WeakSorted Route.lt tbl

theorem Ranked.update (h : Ranked tbl) (r : Route) : Ranked (tbl.update r) :=
  (h.erase r).insertMulti r

theorem Ranked.insert (h : Ranked tbl) (r : Route) : Ranked (tbl.insert r) := by
  unfold RoutingTable.insert
  split
  · exact h.insertMulti r
  · split_ifs
    · exact h
    · exact (h.erase r).insertMulti r
    · exact h
    · exact h.insertMulti r

theorem mem_equalRange (h : Ranked tbl) {r q : Route} :
    q ∈ tbl.equalRange r ↔ q ∈ tbl ∧ q.network = r.network := by
  rw [equalRange, Ordered.WeakSorted.mem_equalRange Route.lt_rank h, Route.equiv_iff]

theorem mem_erase {r q : Route} : q ∈ tbl.erase r ↔ q ∈ tbl ∧ q.network ≠ r.network := by
  rw [erase, Ordered.mem_erase, Route.equiv_iff]

theorem mem_update {r q : Route} :
    q ∈ tbl.update r ↔ q = r ∨ q ∈ tbl ∧ q.network ≠ r.network := by
  rw [update, Ordered.mem_insertMulti, mem_erase]

theorem insert_eq_update (h : Ranked tbl) {r : Route}
    (hr : ∀ q ∈ tbl, q.network = r.network → r.admDist < q.admDist) :
    tbl.insert r = tbl.update r := by
  unfold RoutingTable.insert RoutingTable.update
  split
  · next hnil =>
    have hnone : tbl.erase r = tbl := by
      apply List.filter_eq_self.mpr
      intro q hq
      have hne : ¬ q.network = r.network := fun hqr => by
        have hmem := (mem_equalRange h).mpr ⟨hq, hqr⟩
        rw [hnil] at hmem
        exact List.not_mem_nil hmem
      simpa [Route.equiv_iff] using hne
    rw [hnone]
  · next q' qs hcons =>
    have hq' := (mem_equalRange h (r := r)).mp (hcons ▸ List.mem_cons_self ..)
    have hlt := hr q' hq'.1 hq'.2
    rw [if_neg (by omega), if_pos hlt]

theorem insert_of_samePath (h : Ranked tbl) {r : Route}
    (hr : ∀ q ∈ tbl, q.network = r.network → q.SamePath r)
    {q : Route} (hq : q ∈ tbl) (hqr : q.network = r.network) :
    tbl.insert r = tbl ∨ tbl.insert r = tbl.update r := by
  unfold RoutingTable.insert
  split
  · next hnil =>
    have := (mem_equalRange h).mpr ⟨hq, hqr⟩
    simp [hnil] at this
  · next q' qs hcons =>
    have hq' := (mem_equalRange h (r := r)).mp (hcons ▸ List.mem_cons_self ..)
    have hpath := hr q' hq'.1 hq'.2
    split_ifs with hlt hgt hany
    · exact .inl rfl
    · exact .inr rfl
    · exact .inl rfl
    · simp [hpath.hasSamePath] at hany

theorem mem_lookup (h : Ranked tbl) {dst : IPv4Address} {r : Route} :
    r ∈ tbl.lookup dst ↔ r ∈ tbl ∧ r.network.contains dst = true ∧
      ∀ q ∈ tbl, q.network.contains dst = true →
        q.network.prefixLength ≤ r.network.prefixLength := by
  unfold lookup
  cases hfind : tbl.find? fun r => r.network.contains dst with
  | none =>
    simp only [List.not_mem_nil, false_iff]
    rintro ⟨hr, hc, -⟩
    exact List.find?_eq_none.mp hfind r hr hc
  | some r₀ =>
    obtain ⟨hc₀, before, after, rfl, hbefore⟩ := List.find?_eq_some_iff_append.mp hfind
    have hfirst : ∀ q ∈ before ++ r₀ :: after, q.network.contains dst = true →
        q.network.prefixLength ≤ r₀.network.prefixLength := fun q hq hc => by
      rcases List.mem_append.mp hq with hq | hq
      · exact absurd hc (by simpa using hbefore q hq)
      · rcases List.mem_cons.mp hq with rfl | hq
        · exact Nat.le_refl _
        · have : ¬ Route.lt q r₀ := (List.pairwise_cons.mp (List.pairwise_append.mp h).2.1).1 q hq
          unfold Route.lt at this
          omega
    have hmem₀ : r₀ ∈ before ++ r₀ :: after := by simp
    dsimp only
    rw [mem_equalRange h]
    constructor
    · rintro ⟨hr, hnet⟩
      rw [hnet]
      exact ⟨hr, hc₀, hfirst⟩
    · rintro ⟨hr, hc, hmax⟩
      refine ⟨hr, IPNetwork.eq_of_contains hc hc₀ ?_⟩
      exact Nat.le_antisymm (hfirst r hr hc) (hmax r₀ hmem₀ hc₀)

def Longest (tbl : RoutingTable) (dst : IPv4Address) (r : Route) : Prop :=
  r.network.contains dst = true ∧ ∀ q ∈ tbl, q.network.contains dst = true →
    q.network.prefixLength ≤ r.network.prefixLength

instance (tbl : RoutingTable) (dst : IPv4Address) : DecidablePred (tbl.Longest dst) :=
  fun _ => inferInstanceAs (Decidable (_ ∧ _))

theorem lookup_eq_filter (h : Ranked tbl) (dst : IPv4Address) :
    tbl.lookup dst = tbl.filter fun r => tbl.Longest dst r := by
  have hmem : ∀ r ∈ tbl, r ∈ tbl.lookup dst ↔ tbl.Longest dst r := by
    intro r hr
    rw [mem_lookup h]
    exact and_iff_right hr
  unfold lookup at hmem ⊢
  cases hfind : tbl.find? fun r => r.network.contains dst with
  | none =>
    symm
    apply List.filter_eq_nil_iff.mpr
    intro r hr hlong
    have hc : r.network.contains dst = true := (of_decide_eq_true hlong).1
    exact List.find?_eq_none.mp hfind r hr hc
  | some r₀ =>
    rw [hfind] at hmem
    dsimp only at hmem ⊢
    rw [equalRange, Ordered.WeakSorted.equalRange_eq_filter Route.lt_rank h] at hmem ⊢
    apply List.filter_congr
    intro r hr
    have hiff := hmem r hr
    rw [List.mem_filter] at hiff
    rw [decide_eq_decide, ← hiff, decide_eq_true_eq]
    exact (and_iff_right hr).symm

theorem lookup_eq_nil (h : Ranked tbl) (dst : IPv4Address) :
    tbl.lookup dst = [] ↔ ∀ r ∈ tbl, r.network.contains dst = false := by
  unfold lookup
  cases hfind : tbl.find? fun r => r.network.contains dst with
  | none => simpa using hfind
  | some r₀ =>
    have hmem : r₀ ∈ tbl := List.mem_of_find?_eq_some hfind
    have hc : r₀.network.contains dst = true := by
      simpa using List.find?_some hfind
    have hself : r₀ ∈ tbl.equalRange r₀ := (mem_equalRange h).mpr ⟨hmem, rfl⟩
    constructor
    · intro hnil
      dsimp only at hnil
      rw [hnil] at hself
      simp at hself
    · intro hnone
      rw [hnone r₀ hmem] at hc
      exact absurd hc Bool.false_ne_true

/-! Tables are built from the empty one by their operations. -/

/-- `erase` of the route that an iterator refers to. -/
def eraseAt (tbl : RoutingTable) (it : Nat) : RoutingTable := tbl.eraseIdx it

inductive Op
  | insert (route : Route)
  | update (route : Route)
  | erase (route : Route)
  | eraseAt (it : Nat)

def apply (tbl : RoutingTable) : Op → RoutingTable
  | .insert route => tbl.insert route
  | .update route => tbl.update route
  | .erase route => tbl.erase route
  | .eraseAt it => tbl.eraseAt it

theorem Ranked.apply (h : Ranked tbl) (op : Op) : Ranked (tbl.apply op) := by
  cases op with
  | insert r => exact h.insert r
  | update r => exact h.update r
  | erase r => exact Ordered.WeakSorted.erase h r
  | eraseAt it => exact h.sublist (List.eraseIdx_sublist _ _)

theorem ranked_foldl_apply (ops : List Op) {tbl : RoutingTable} (h : Ranked tbl) :
    Ranked (ops.foldl apply tbl) := by
  induction ops generalizing tbl with
  | nil => exact h
  | cons op ops ih => exact ih (h.apply op)

/-- Whatever the operations, a lookup returns the routes of the longest network that contains the
address, each as often as it is stored, and nothing only if no network contains it. -/
theorem lookup_longest (ops : List Op) (dst : IPv4Address) :
    let tbl := ops.foldl apply []
    (tbl.lookup dst = tbl.filter fun r => tbl.Longest dst r) ∧
      (tbl.lookup dst = [] ↔ ∀ r ∈ tbl, r.network.contains dst = false) := by
  have h : Ranked (ops.foldl apply []) := ranked_foldl_apply ops List.Pairwise.nil
  exact ⟨lookup_eq_filter h dst, lookup_eq_nil h dst⟩

end RoutingTable

end Neo
