import Neo.Process.UpdateFib
import Neo.Network.LongestPrefix

/-! The next hops `install_update` writes against those `update_fib` computes. One path inserts
the earlier updates and the other lets them replace their networks; the tables have the same
paths as long as every insertion finds only larger administrative distances or its own path. -/

namespace Neo

namespace RoutingTable

variable {N : IPNetwork → Prop} {tbl tbl' : RoutingTable}

def Has (tbl : RoutingTable) (net : IPNetwork) : Prop := ∃ q ∈ tbl, q.network = net

/-- The tables have the same paths to the networks in `N`. -/
structure SamePaths (N : IPNetwork → Prop) (tbl tbl' : RoutingTable) : Prop where
  left : ∀ q ∈ tbl, N q.network → ∃ q' ∈ tbl', q'.SamePath q
  right : ∀ q ∈ tbl', N q.network → ∃ q' ∈ tbl, q'.SamePath q

theorem SamePaths.refl (N : IPNetwork → Prop) (tbl : RoutingTable) : SamePaths N tbl tbl :=
  ⟨fun q hq _ => ⟨q, hq, .refl q⟩, fun q hq _ => ⟨q, hq, .refl q⟩⟩

/-- An insertion that changes the paths of a table as an update would: it finds only larger
administrative distances, or only its own path. -/
def InsertsLikeUpdate (tbl : RoutingTable) (u : Route) : Prop :=
  (∀ q ∈ tbl, q.network = u.network → u.admDist < q.admDist) ∨
    Has tbl u.network ∧
      ∀ q ∈ tbl, q.network = u.network → q.SamePath u

theorem mem_insert_of_ne {u q : Route} (hq : q.network ≠ u.network) :
    q ∈ tbl.insert u ↔ q ∈ tbl := by
  have hqu : q ≠ u := fun h => hq (congrArg Route.network h)
  unfold insert
  split
  · simp [Ordered.mem_insertMulti, hqu]
  · split_ifs
    · rfl
    · simp [Ordered.mem_insertMulti, hqu, mem_erase, hq]
    · rfl
    · simp [Ordered.mem_insertMulti, hqu]

theorem SamePaths.update (h : SamePaths N tbl tbl') (u : Route) :
    SamePaths N (tbl.update u) (tbl'.update u) := by
  constructor
  · intro q hq hNq
    rcases mem_update.mp hq with rfl | ⟨hq, hne⟩
    · exact ⟨q, mem_update.mpr (.inl rfl), .refl q⟩
    · obtain ⟨q', hq', hp⟩ := h.left q hq hNq
      exact ⟨q', mem_update.mpr (.inr ⟨hq', hp.network ▸ hne⟩), hp⟩
  · intro q hq hNq
    rcases mem_update.mp hq with rfl | ⟨hq, hne⟩
    · exact ⟨q, mem_update.mpr (.inl rfl), .refl q⟩
    · obtain ⟨q', hq', hp⟩ := h.right q hq hNq
      exact ⟨q', mem_update.mpr (.inr ⟨hq', hp.network ▸ hne⟩), hp⟩

theorem SamePaths.update_right (h : SamePaths N tbl tbl') {u : Route} (hu : Has tbl u.network)
    (hsame : ∀ q ∈ tbl, q.network = u.network → q.SamePath u) :
    SamePaths N tbl (tbl'.update u) := by
  constructor
  · intro q hq hNq
    by_cases hne : q.network = u.network
    · exact ⟨u, mem_update.mpr (.inl rfl), (hsame q hq hne).symm⟩
    · obtain ⟨q', hq', hp⟩ := h.left q hq hNq
      exact ⟨q', mem_update.mpr (.inr ⟨hq', hp.network ▸ hne⟩), hp⟩
  · intro q hq hNq
    rcases mem_update.mp hq with rfl | ⟨hq, -⟩
    · obtain ⟨q₀, hq₀, hnet₀⟩ := hu
      exact ⟨q₀, hq₀, hsame q₀ hq₀ hnet₀⟩
    · exact h.right q hq hNq

theorem SamePaths.insert_update (h : SamePaths N tbl tbl') (hrank : Ranked tbl) {u : Route}
    (hu : N u.network → InsertsLikeUpdate tbl u) :
    SamePaths N (tbl.insert u) (tbl'.update u) := by
  by_cases hN : N u.network
  · rcases hu hN with hlt | ⟨⟨q₀, hq₀, hnet₀⟩, hsame⟩
    · rw [insert_eq_update hrank hlt]
      exact h.update u
    · rcases insert_of_samePath hrank hsame hq₀ hnet₀ with heq | heq
      · rw [heq]
        exact h.update_right ⟨q₀, hq₀, hnet₀⟩ hsame
      · rw [heq]
        exact h.update u
  · -- outside `N` nothing is promised, and the other networks stay as they are
    have hne : ∀ q : Route, N q.network → q.network ≠ u.network := fun q hNq heq => hN (heq ▸ hNq)
    constructor
    · intro q hq hNq
      obtain ⟨q', hq', hp⟩ := h.left q ((mem_insert_of_ne (hne q hNq)).mp hq) hNq
      exact ⟨q', mem_update.mpr (.inr ⟨hq', hp.network ▸ hne q hNq⟩), hp⟩
    · intro q hq hNq
      rcases mem_update.mp hq with rfl | ⟨hq, -⟩
      · exact absurd hNq hN
      · obtain ⟨q', hq', hp⟩ := h.right q hq hNq
        exact ⟨q', (mem_insert_of_ne (hp.network ▸ hne q hNq)).mpr hq', hp⟩

theorem has_update {u : Route} {net : IPNetwork} :
    Has (tbl.update u) net ↔ net = u.network ∨ Has tbl net := by
  constructor
  · rintro ⟨q, hq, rfl⟩
    rcases mem_update.mp hq with rfl | ⟨hq, -⟩
    · exact .inl rfl
    · exact .inr ⟨q, hq, rfl⟩
  · intro h
    by_cases hnet : net = u.network
    · exact ⟨u, mem_update.mpr (.inl rfl), hnet.symm⟩
    · obtain ⟨q, hq, rfl⟩ := h.resolve_left hnet
      exact ⟨q, mem_update.mpr (.inr ⟨hq, hnet⟩), rfl⟩

theorem has_insert (hrank : Ranked tbl) {u : Route} {net : IPNetwork} :
    Has (tbl.insert u) net ↔ net = u.network ∨ Has tbl net := by
  by_cases hnet : net = u.network
  · subst hnet
    simp only [true_or, iff_true]
    unfold insert
    split
    · exact ⟨u, Ordered.mem_insertMulti.mpr (.inl rfl), rfl⟩
    · next q qs hcons =>
      have hq := (mem_equalRange hrank (r := u)).mp (hcons ▸ List.mem_cons_self ..)
      split_ifs
      · exact ⟨q, hq⟩
      · exact ⟨u, Ordered.mem_insertMulti.mpr (.inl rfl), rfl⟩
      · exact ⟨q, hq⟩
      · exact ⟨u, Ordered.mem_insertMulti.mpr (.inl rfl), rfl⟩
  · simp only [hnet, false_or]
    constructor
    · rintro ⟨q, hq, rfl⟩
      exact ⟨q, (mem_insert_of_ne hnet).mp hq, rfl⟩
    · rintro ⟨q, hq, rfl⟩
      exact ⟨q, (mem_insert_of_ne hnet).mpr hq, rfl⟩

structure SameLookup (tbl tbl' : RoutingTable) (x : IPv4Address) : Prop where
  left : ∀ q ∈ tbl.lookup x, ∃ q' ∈ tbl'.lookup x, q'.SamePath q
  right : ∀ q ∈ tbl'.lookup x, ∃ q' ∈ tbl.lookup x, q'.SamePath q

theorem exists_mem_lookup {x : IPv4Address} (hrank : Ranked tbl) {q : Route} (hq : q ∈ tbl)
    (hc : q.network.contains x = true) : ∃ r, r ∈ tbl.lookup x := by
  cases hfind : tbl.find? fun r => r.network.contains x with
  | none => exact absurd hc (List.find?_eq_none.mp hfind q hq)
  | some r =>
    refine ⟨r, ?_⟩
    rw [lookup, hfind]
    exact (mem_equalRange hrank).mpr ⟨List.mem_of_find?_eq_some hfind, rfl⟩

theorem sameLookup (hr : Ranked tbl) (hr' : Ranked tbl') {x : IPv4Address}
    (hleft : ∀ q ∈ tbl.lookup x, ∃ q' ∈ tbl', q'.SamePath q)
    (hright : ∀ q' ∈ tbl', (∃ q ∈ tbl.lookup x, q.network = q'.network) →
      ∃ q ∈ tbl, q.SamePath q')
    (hlen : ∀ q' ∈ tbl', q'.network.contains x = true → ∃ r ∈ tbl,
      r.network.contains x = true ∧ q'.network.prefixLength ≤ r.network.prefixLength) :
    SameLookup tbl tbl' x := by
  constructor
  · intro q hq
    obtain ⟨q', hq', hp⟩ := hleft q hq
    obtain ⟨-, hc, hmax⟩ := (mem_lookup hr).mp hq
    refine ⟨q', (mem_lookup hr').mpr ⟨hq', hp.network ▸ hc, fun s hs hsc => ?_⟩, hp⟩
    obtain ⟨r, hmem, hrc, hsr⟩ := hlen s hs hsc
    rw [hp.network]
    exact hsr.trans (hmax r hmem hrc)
  · intro q' hq'
    obtain ⟨hq', hc', hmax'⟩ := (mem_lookup hr').mp hq'
    obtain ⟨r, hmem, hrc, hq'r⟩ := hlen q' hq' hc'
    obtain ⟨q, hq⟩ := exists_mem_lookup hr hmem hrc
    obtain ⟨-, hc, hmax⟩ := (mem_lookup hr).mp hq
    -- both tables find the same network
    obtain ⟨q'', hq'', hp⟩ := hleft q hq
    have hle := hmax' q'' hq'' (hp.network ▸ hc)
    have hge := hq'r.trans (hmax r hmem hrc)
    rw [hp.network] at hle
    have hnet : q.network = q'.network := IPNetwork.eq_of_contains hc hc' (le_antisymm hle hge)
    obtain ⟨p, hp, hpath⟩ := hright q' hq' ⟨q, hq, hnet⟩
    refine ⟨p, (mem_lookup hr).mpr ⟨hp, hpath.network ▸ hc', ?_⟩, hpath⟩
    rw [hpath.network, ← hnet]
    exact hmax

end RoutingTable

namespace Network

variable {net : Network} {n : NodePtr}

theorem mem_routeItems_iff {tbl tbl' : RoutingTable} {x : IPv4Address}
    (h : RoutingTable.SameLookup tbl tbl' x) (i : IPv4Address ⊕ Option FibIpnh) :
    i ∈ net.routeItems n tbl x ↔ i ∈ net.routeItems n tbl' x := by
  have key : ∀ {tbl tbl' : RoutingTable},
      (∀ q ∈ tbl.lookup x, ∃ q' ∈ tbl'.lookup x, q'.SamePath q) →
      i ∈ net.routeItems n tbl x → i ∈ net.routeItems n tbl' x := by
    intro tbl tbl' h hi
    obtain ⟨q, hq, rfl⟩ := List.mem_map.mp hi
    obtain ⟨q', hq', hp⟩ := h q hq
    apply List.mem_map.mpr
    refine ⟨q', hq', ?_⟩
    rw [hp.egressIntf]
    split_ifs with h₀
    · rw [hp.nextHop (hp.egressIntf.trans h₀)]
    · rfl
    · rfl
  exact ⟨key h.left, key h.right⟩

/-- The addresses looked up for an address, itself and by recursion. -/
def LooksUp (net : Network) (n : NodePtr) (tbl : RoutingTable) (addr x : IPv4Address) : Prop :=
  Relation.ReflTransGen (Collect.Next (net.routeItems n tbl)) addr x

theorem getIpnhs_eq_of_sameLookup {tbl tbl' : RoutingTable} {addr : IPv4Address}
    (h : ∀ x, net.LooksUp n tbl addr x → RoutingTable.SameLookup tbl tbl' x) :
    net.getIpnhs n tbl addr = net.getIpnhs n tbl' addr := by
  have hreach := Collect.reach_congr (net.LooksUp n tbl addr) (fun x hx y hxy => hx.tail hxy)
    (fun x hx i => mem_routeItems_iff (h x hx) i) (k := addr) .refl
  apply getIpnhs_congr
  · exact fun x b hx => (hreach b).mp ⟨x, hx⟩
  · exact fun x b hx => (hreach b).mpr ⟨x, hx⟩

/-- The address resolves: recursive lookup ends in a connected route that accepts or leads to
an existing next hop. -/
def Resolves (net : Network) (n : NodePtr) (tbl : RoutingTable) (x : IPv4Address) : Prop :=
  ∃ hop y, net.LooksUp n tbl x y ∧ Collect.Yields (net.routeItems n tbl) y hop

theorem getIpnhs_eq_nil_iff (hn : (net.node n).isEmulated = false) (tbl : RoutingTable)
    (x : IPv4Address) : net.getIpnhs n tbl x = some [] ↔ ¬ net.Resolves n tbl x := by
  obtain ⟨nhs, hget, -, hmem⟩ := getIpnhs_spec n hn tbl x
  rw [hget, Option.some.injEq, List.eq_nil_iff_forall_not_mem]
  unfold Resolves
  push Not
  refine forall_congr' fun hop => ?_
  rw [hmem]
  push Not
  rfl

end Network

namespace OpenflowProcess

open RoutingTable

variable {net : Network} {n : NodePtr} {updates : List Route} {k : Nat} {addr : IPv4Address}

theorem installedRib_succ {add : RoutingTable → Route → RoutingTable} {u : Route}
    (hu : updates[k]? = some u) :
    installedRib add net n updates (k + 1) addr =
      if u.network.contains addr then add (installedRib add net n updates k addr) u
      else installedRib add net n updates k addr := by
  unfold installedRib
  rw [List.take_add_one, hu, List.filter_append, List.foldl_append]
  cases hc : u.network.contains addr with
  | true => simp [hc]
  | false => simp [hc]

theorem ranked_installedRib {add : RoutingTable → Route → RoutingTable}
    (hadd : ∀ tbl u, Ranked tbl → Ranked (add tbl u)) (hk : k ≤ updates.length) :
    Ranked (installedRib add net n updates k addr) := by
  induction k with
  | zero => exact (net.node n).rib_ranked
  | succ k ih =>
    rw [installedRib_succ (List.getElem?_eq_getElem hk)]
    split_ifs
    · exact hadd _ _ (ih (Nat.le_of_succ_le hk))
    · exact ih (Nat.le_of_succ_le hk)

theorem samePaths_installedRib {N : IPNetwork → Prop} (hk : k ≤ updates.length)
    (h : ∀ i < k, ∀ u, updates[i]? = some u → u.network.contains addr = true → N u.network →
      InsertsLikeUpdate (installedRib RoutingTable.insert net n updates i addr) u) :
    SamePaths N (installedRib RoutingTable.insert net n updates k addr)
      (installedRib RoutingTable.update net n updates k addr) := by
  induction k with
  | zero => exact SamePaths.refl N _
  | succ k ih =>
    have hu : updates[k]? = some updates[k] := List.getElem?_eq_getElem hk
    have ih' := ih (Nat.le_of_succ_le hk) fun i hi => h i (Nat.lt_succ_of_lt hi)
    rw [installedRib_succ hu, installedRib_succ hu]
    split_ifs with hc
    · have hrank : Ranked (installedRib RoutingTable.insert net n updates k addr) :=
        ranked_installedRib (fun tbl u h => Ranked.insert h u) (Nat.le_of_succ_le hk)
      exact ih'.insert_update hrank (h k (Nat.lt_succ_self k) _ hu hc)
    · exact ih'

theorem has_installedRib (hk : k ≤ updates.length) (M : IPNetwork) :
    Has (installedRib RoutingTable.insert net n updates k addr) M ↔
      Has (installedRib RoutingTable.update net n updates k addr) M := by
  induction k with
  | zero => rfl
  | succ k ih =>
    have hu : updates[k]? = some updates[k] := List.getElem?_eq_getElem hk
    have hrank : Ranked (installedRib RoutingTable.insert net n updates k addr) :=
      ranked_installedRib (fun tbl u h => Ranked.insert h u) (Nat.le_of_succ_le hk)
    rw [installedRib_succ hu, installedRib_succ hu]
    split_ifs
    · rw [has_insert hrank, has_update, ih (Nat.le_of_succ_le hk)]
    · exact ih (Nat.le_of_succ_le hk)

/-- The update `u`, which the first `k` precede, is installed as `update_fib` would: insertions
into networks looked up for the address are like updates, and if `u` does not concern the address
it concerns no lookup. -/
structure InstallsLikeUpdates (net : Network) (n : NodePtr) (updates : List Route) (k : Nat)
    (addr : IPv4Address) (u : Route) : Prop where
  earlier : ∀ i < k, ∀ v, updates[i]? = some v → v.network.contains addr = true →
    v.network ≠ u.network →
    (∃ x, net.LooksUp n (installedRib RoutingTable.update net n updates (k + 1) addr) addr x ∧
      ∃ r ∈ (installedRib RoutingTable.update net n updates (k + 1) addr).lookup x,
        r.network = v.network) →
    InsertsLikeUpdate (installedRib RoutingTable.insert net n updates i addr) v
  current : u.network.contains addr = true ∨ ∀ x,
    net.LooksUp n (installedRib RoutingTable.update net n updates (k + 1) addr) addr x →
    u.network.contains x = true →
    ∃ r ∈ (installedRib RoutingTable.update net n updates (k + 1) addr).lookup x,
      u.network.prefixLength < r.network.prefixLength

theorem getIpnhs_installedRib_succ {u : Route} (hu : updates[k]? = some u)
    (h : InstallsLikeUpdates net n updates k addr u) :
    net.getIpnhs n (installedRib RoutingTable.update net n updates (k + 1) addr) addr =
      net.getIpnhs n ((installedRib RoutingTable.insert net n updates k addr).update u) addr := by
  have hk : k < updates.length := (List.getElem?_eq_some_iff.mp hu).1
  have hrank : Ranked (installedRib RoutingTable.insert net n updates k addr) :=
    ranked_installedRib (fun tbl u h => Ranked.insert h u) hk.le
  have hrank' : Ranked (installedRib RoutingTable.update net n updates k addr) :=
    ranked_installedRib (fun tbl u h => Ranked.update h u) hk.le
  -- the networks that are looked up, the last update's apart
  have hsame := samePaths_installedRib (N := fun M => M ≠ u.network ∧
    ∃ x, net.LooksUp n (installedRib RoutingTable.update net n updates (k + 1) addr) addr x ∧
      ∃ r ∈ (installedRib RoutingTable.update net n updates (k + 1) addr).lookup x,
        r.network = M) hk.le fun i hi v hv hc hN => h.earlier i hi v hv hc hN.1 hN.2
  have hhas : ∀ M, Has (installedRib RoutingTable.insert net n updates k addr) M ↔
      Has (installedRib RoutingTable.update net n updates k addr) M := has_installedRib hk.le
  obtain ⟨-, hcurrent⟩ := h
  rw [installedRib_succ hu] at hsame hcurrent ⊢
  apply Network.getIpnhs_eq_of_sameLookup
  intro x hx
  split_ifs at hsame hcurrent hx ⊢ with hc
  · -- both tables end with the update
    apply sameLookup (hrank'.update u) (hrank.update u)
    · intro q hq
      rcases mem_update.mp ((mem_lookup (hrank'.update u)).mp hq).1 with rfl | ⟨hmem, hne⟩
      · exact ⟨q, mem_update.mpr (.inl rfl), .refl q⟩
      · obtain ⟨q', hq', hp⟩ := hsame.right q hmem ⟨hne, x, hx, q, hq, rfl⟩
        exact ⟨q', mem_update.mpr (.inr ⟨hq', hp.network ▸ hne⟩), hp⟩
    · rintro q' hq' ⟨q, hq, hnet⟩
      rcases mem_update.mp hq' with rfl | ⟨hq', hne⟩
      · exact ⟨q', mem_update.mpr (.inl rfl), .refl q'⟩
      · obtain ⟨p, hp, hpath⟩ := hsame.left q' hq' ⟨hne, x, hx, q, hq, hnet⟩
        exact ⟨p, mem_update.mpr (.inr ⟨hp, hpath.network ▸ hne⟩), hpath⟩
    · intro q' hq' hcx
      obtain ⟨r, hr, hnet⟩ : Has (RoutingTable.update _ u) q'.network :=
        has_update.mpr ((has_update.mp ⟨q', hq', rfl⟩).imp_right (hhas _).mp)
      exact ⟨r, hr, hnet ▸ hcx, hnet ▸ le_rfl⟩
  · -- only one table has the update, and it is not looked up there
    have hshadowed := hcurrent.resolve_left hc
    have hother : ∀ q ∈ (installedRib RoutingTable.update net n updates k addr).lookup x,
        q.network ≠ u.network := by
      intro q hq hnet
      obtain ⟨hmem, hcx, hmax⟩ := (mem_lookup hrank').mp hq
      obtain ⟨r, hr, hlt⟩ := hshadowed x hx (hnet ▸ hcx)
      obtain ⟨hrmem, hrc, -⟩ := (mem_lookup hrank').mp hr
      have := hmax r hrmem hrc
      rw [hnet] at this
      omega
    apply sameLookup hrank' (hrank.update u)
    · intro q hq
      have hne := hother q hq
      obtain ⟨q', hq', hp⟩ := hsame.right q ((mem_lookup hrank').mp hq).1 ⟨hne, x, hx, q, hq, rfl⟩
      exact ⟨q', mem_update.mpr (.inr ⟨hq', hp.network ▸ hne⟩), hp⟩
    · rintro q' hq' ⟨q, hq, hnet⟩
      have hne : q'.network ≠ u.network := hnet ▸ hother q hq
      rcases mem_update.mp hq' with rfl | ⟨hq', -⟩
      · exact absurd rfl hne
      · exact hsame.left q' hq' ⟨hne, x, hx, q, hq, hnet⟩
    · intro q' hq' hcx
      rcases mem_update.mp hq' with rfl | ⟨hq', -⟩
      · obtain ⟨r, hr, hlt⟩ := hshadowed x hx hcx
        obtain ⟨hrmem, hrc, -⟩ := (mem_lookup hrank').mp hr
        exact ⟨r, hrmem, hrc, hlt.le⟩
      · obtain ⟨r, hr, hnet⟩ := (hhas _).mp ⟨q', hq', rfl⟩
        exact ⟨r, hr, hnet ▸ hcx, hnet ▸ le_rfl⟩

/-- The update `u`, which the first `k` precede, leaves what is looked up for the address: it does
not concern the address, or wherever an address that is looked up is in its network, a longer
network is found, or only its own path. -/
def LeavesLookups (net : Network) (n : NodePtr) (updates : List Route) (k : Nat)
    (addr : IPv4Address) (u : Route) : Prop :=
  u.network.contains addr = true → ∀ x,
    net.LooksUp n (installedRib RoutingTable.update net n updates k addr) addr x →
    u.network.contains x = true →
    (∃ r ∈ (installedRib RoutingTable.update net n updates k addr).lookup x,
      u.network.prefixLength < r.network.prefixLength) ∨
    (∃ r, r ∈ (installedRib RoutingTable.update net n updates k addr).lookup x) ∧
      ∀ r ∈ (installedRib RoutingTable.update net n updates k addr).lookup x, r.SamePath u

theorem getIpnhs_installedRib_of_leaves {u : Route} (hu : updates[k]? = some u)
    (h : LeavesLookups net n updates k addr u) :
    net.getIpnhs n (installedRib RoutingTable.update net n updates k addr) addr =
      net.getIpnhs n (installedRib RoutingTable.update net n updates (k + 1) addr) addr := by
  have hk : k < updates.length := (List.getElem?_eq_some_iff.mp hu).1
  rw [installedRib_succ hu]
  split_ifs with hc
  · have hrank : Ranked (installedRib RoutingTable.update net n updates k addr) :=
      ranked_installedRib (fun tbl u h => Ranked.update h u) hk.le
    apply Network.getIpnhs_eq_of_sameLookup
    intro x hx
    have hu' : u ∈ (installedRib RoutingTable.update net n updates k addr).update u :=
      mem_update.mpr (.inl rfl)
    -- a looked-up route that the update replaces has the path of the update
    have hsame : ∀ q ∈ (installedRib RoutingTable.update net n updates k addr).lookup x,
        q.network = u.network → q.SamePath u := by
      intro q hq hnet
      obtain ⟨-, hqx, hmax⟩ := (mem_lookup hrank).mp hq
      rcases h hc x hx (hnet ▸ hqx) with ⟨r, hr, hlt⟩ | ⟨-, hall⟩
      · obtain ⟨hmem, hrx, -⟩ := (mem_lookup hrank).mp hr
        have hle := hmax r hmem hrx
        rw [hnet] at hle
        omega
      · exact hall q hq
    -- each lookup finds the same paths before and after
    apply sameLookup hrank (hrank.update u)
    · intro q hq
      by_cases hnet : q.network = u.network
      · exact ⟨u, hu', (hsame q hq hnet).symm⟩
      · exact ⟨q, mem_update.mpr (.inr ⟨((mem_lookup hrank).mp hq).1, hnet⟩), .refl q⟩
    · rintro q' hq' ⟨q, hq, hnet⟩
      rcases mem_update.mp hq' with rfl | ⟨hq', -⟩
      · exact ⟨q, ((mem_lookup hrank).mp hq).1, hsame q hq hnet⟩
      · exact ⟨q', hq', .refl q'⟩
    · intro q' hq' hcx
      rcases mem_update.mp hq' with rfl | ⟨hq', -⟩
      · rcases h hc x hx hcx with ⟨r, hr, hlt⟩ | ⟨⟨r, hr⟩, hall⟩
        · obtain ⟨hmem, hrx, -⟩ := (mem_lookup hrank).mp hr
          exact ⟨r, hmem, hrx, hlt.le⟩
        · obtain ⟨hmem, hrx, -⟩ := (mem_lookup hrank).mp hr
          exact ⟨r, hmem, hrx, (hall r hr).network ▸ le_rfl⟩
      · exact ⟨q', hq', hcx, le_rfl⟩
  · rfl

/-- With the update installed, the address resolves, or it does not in the node's own table. -/
def ResolvesOrNever (net : Network) (n : NodePtr) (updates : List Route) (k : Nat)
    (addr : IPv4Address) : Prop :=
  net.Resolves n (installedRib RoutingTable.update net n updates (k + 1) addr) addr ∨
    ¬ net.Resolves n (net.node n).rib addr

/-- What `install_update` writes is the entry `update_fib` computes, unless the updates take all
next hops away. -/
theorem newNextHops_eq_iff {of : OpenflowProcess net.toTopology} {ec : EqClass}
    (hU : ec.Uniform of) (hn : n ∈ net.nodes) (hemu : (net.node n).isEmulated = false)
    (haddr : ec.representativeAddr = some addr) {u : Route} (hu : (of.updatesOf n)[k]? = some u)
    (h : InstallsLikeUpdates net n (of.updatesOf n) k addr u) :
    newNextHops net n (of.updatesOf n) k ec =
        nodeNextHops net n (of.updatesOf n) (k + 1) ec addr ↔
      ResolvesOrNever net n (of.updatesOf n) k addr := by
  have hk : k < (of.updatesOf n).length := (List.getElem?_eq_some_iff.mp hu).1
  obtain ⟨range, hr, rfl⟩ : ∃ range ∈ ec, range.lb = addr := by
    cases ec with
    | nil => simp [EqClass.representativeAddr] at haddr
    | cons range rest => exact ⟨range, List.mem_cons_self .., Option.some.inj haddr⟩
  have hlb : range.lb ∈ range.toIPRange := range.toIPRange.lb_mem
  have hnew : newNextHops net n (of.updatesOf n) k ec =
      net.getIpnhs n (installedRib RoutingTable.update net n (of.updatesOf n) (k + 1) range.lb)
        range.lb := by
    rw [newNextHops, hu, Option.bind_some, applyUpdates_take hU hn hr hlb, Option.bind_some,
      haddr, Option.bind_some, ← getIpnhs_installedRib_succ hu h]
  have hresolves := Network.getIpnhs_eq_nil_iff hemu
    (installedRib RoutingTable.update net n (of.updatesOf n) (k + 1) range.lb) range.lb
  have hbase := Network.getIpnhs_eq_nil_iff hemu (net.node n).rib range.lb
  rw [hnew, nodeNextHops, installedNextHops_eq hU hn hr hlb hk, ResolvesOrNever]
  obtain ⟨nhs, hnhs⟩ := net.getIpnhs_isSome n
    (installedRib RoutingTable.update net n (of.updatesOf n) (k + 1) range.lb) range.lb
  rw [hnhs, Option.some.injEq] at hresolves
  rw [hnhs, Option.bind_some]
  split_ifs with hnil
  · rw [hnil, eq_comm, hbase]
    have := hresolves.mp hnil
    tauto
  · have := mt hresolves.mpr hnil
    simp only [true_iff]
    exact .inl (not_not.mp this)

theorem exists_range_of_representativeAddr {ec : EqClass}
    (h : ec.representativeAddr = some addr) : ∃ range ∈ ec, addr ∈ range.toIPRange := by
  cases ec with
  | nil => simp [EqClass.representativeAddr] at h
  | cons range rest =>
    obtain rfl := Option.some.inj h
    exact ⟨range, List.mem_cons_self .., range.toIPRange.lb_mem⟩

theorem nodeNextHops_succ {of : OpenflowProcess net.toTopology} {ec : EqClass}
    (hU : ec.Uniform of) (hn : n ∈ net.nodes) (haddr : ec.representativeAddr = some addr)
    {u : Route} (hu : (of.updatesOf n)[k]? = some u)
    (h : LeavesLookups net n (of.updatesOf n) k addr u) :
    nodeNextHops net n (of.updatesOf n) (k + 1) ec addr =
      nodeNextHops net n (of.updatesOf n) k ec addr := by
  have hk : k < (of.updatesOf n).length := (List.getElem?_eq_some_iff.mp hu).1
  obtain ⟨range, hr, ha⟩ := exists_range_of_representativeAddr haddr
  rw [nodeNextHops, nodeNextHops, installedNextHops_eq hU hn hr ha hk,
    installedNextHops_eq hU hn hr ha hk.le, getIpnhs_installedRib_of_leaves hu h]

theorem nodeNextHops_zero {of : OpenflowProcess net.toTopology} {ec : EqClass}
    (hU : ec.Uniform of) (hn : n ∈ net.nodes) (haddr : ec.representativeAddr = some addr)
    (hk : k ≤ (of.updatesOf n).length)
    (h : ∀ j < k, ∀ u, (of.updatesOf n)[j]? = some u →
      LeavesLookups net n (of.updatesOf n) j addr u) :
    nodeNextHops net n (of.updatesOf n) k ec addr =
      nodeNextHops net n (of.updatesOf n) 0 ec addr := by
  induction k with
  | zero => rfl
  | succ k ih =>
    have hu : (of.updatesOf n)[k]? = some (of.updatesOf n)[k] := List.getElem?_eq_getElem hk
    rw [nodeNextHops_succ hU hn haddr hu (h k (Nat.lt_succ_self k) _ hu)]
    exact ih (Nat.le_of_succ_le hk) fun j hj => h j (Nat.lt_succ_of_lt hj)

/-- With `k + 1` updates of the node installed, `update_fib` computes for it what `install_update`
wrote when it installed the last of them. -/
def IncrementalAgrees (of : OpenflowProcess net.toTopology) (st : OpenflowUpdateState)
    (ec : EqClass) (n : NodePtr) (k : Nat) : Prop :=
  ∃ fib, of.updateFib st ec = some fib ∧ fib n = newNextHops net n (of.updatesOf n) k ec

theorem node_mem_of_updatesOf {of : OpenflowProcess net.toTopology} {u : Route}
    (hu : u ∈ of.updatesOf n) : n ∈ net.nodes ∧ (net.node n).isEmulated = false := by
  by_contra hnot
  have hnil : of.updatesOf n = [] := by
    apply updatesOf_of_notMem
    rintro p hp rfl
    exact hnot (of.node_mem p hp)
  simp [hnil] at hu

theorem updateFib_apply {of : OpenflowProcess net.toTopology} {ec : EqClass}
    (hU : ec.Uniform of) {st : OpenflowUpdateState} (hst : of.Legal st)
    (haddr : ec.representativeAddr = some addr) :
    ∃ fib, of.updateFib st ec = some fib ∧ ∀ n, fib n = if n ∈ net.nodes then
      nodeNextHops net n (of.updatesOf n) (of.installed st n) ec addr else none := by
  rw [updateFib, haddr, Option.bind_some]
  exact fibFor_spec hU hst addr

/-- Where earlier insertions are like updates, the two computations agree exactly if the address
still resolves with the updates, or never did. -/
theorem incrementalAgrees_iff {of : OpenflowProcess net.toTopology} {ec : EqClass}
    (hU : ec.Uniform of) {st : OpenflowUpdateState} (hst : of.Legal st)
    (hinstalled : of.installed st n = k + 1) (haddr : ec.representativeAddr = some addr)
    {u : Route} (hu : (of.updatesOf n)[k]? = some u)
    (h : InstallsLikeUpdates net n (of.updatesOf n) k addr u) :
    IncrementalAgrees of st ec n k ↔ ResolvesOrNever net n (of.updatesOf n) k addr := by
  obtain ⟨hn, hemu⟩ := node_mem_of_updatesOf (List.mem_of_getElem? hu)
  obtain ⟨fib, hfib, hnode⟩ := updateFib_apply hU hst haddr
  have hfibn := hnode n
  rw [if_pos hn, hinstalled] at hfibn
  rw [← newNextHops_eq_iff hU hn hemu haddr hu h, ← hfibn, IncrementalAgrees, hfib]
  constructor
  · rintro ⟨fib', hfib', hag⟩
    obtain rfl := Option.some.inj hfib'
    exact hag.symm
  · intro hag
    exact ⟨fib, rfl, hag.symm⟩

/-! A node with two neighbours. Its table sends `10.0.0.0/24` to the first. -/

section Fork

def subnet (addr : IPv4Address) : IPNetwork :=
  IPInterface.network ⟨addr, 24, twentyFour_le⟩

def forkIntf : IntfPtr → Interface
  | 10 => ⟨2, ⟨0x0A000001#32, 24, twentyFour_le⟩, false⟩
  | 11 => ⟨2, ⟨0x0A000002#32, 24, twentyFour_le⟩, false⟩
  | 20 => ⟨3, ⟨0x0A000101#32, 24, twentyFour_le⟩, false⟩
  | _ => ⟨2, ⟨0x0A000102#32, 24, twentyFour_le⟩, false⟩

def forkRib : RoutingTable :=
  [⟨subnet 0x0A000000#32, 0x0A000001#32, 2, 0⟩, ⟨subnet 0x0A000100#32, 0x0A000101#32, 3, 0⟩]

def forkNode : NodePtr → Node
  | 0 => ⟨[10, 20], forkRib, by unfold Ordered.WeakSorted; decide, [(2, 1, 11), (3, 2, 21)], false⟩
  | 1 => ⟨[11], [], Route.weakSorted_nil, [(2, 0, 10)], false⟩
  | 2 => ⟨[21], [], Route.weakSorted_nil, [(2, 0, 20)], false⟩
  | _ => ⟨[], [], Route.weakSorted_nil, [], false⟩

def fork : Network where
  nodes := [0, 1, 2]
  node := forkNode
  intf := forkIntf
  peer_mem n p hp := by
    rcases n with _ | _ | _ | n <;> simp [forkNode] at hp ⊢
    · rcases hp with rfl | rfl <;> simp
    · subst hp; simp
    · subst hp; simp
  l2Lan _ _ := ⟨[], []⟩
  lan_built _ _ := ⟨1, 0, rfl⟩

def forkUpdates (us : List Route) : OpenflowProcess fork.toTopology where
  updates := [(0, us)]
  sorted := List.pairwise_singleton ..
  node_mem := by simp [fork, forkNode]

/-- `10.0.0.0/24` to the second neighbour. -/
def redirect : Route := ⟨subnet 0x0A000000#32, 0#32, 3, 255⟩

/-- `10.0.0.0/25` to the second neighbour. -/
def redirectHalf : Route :=
  ⟨IPInterface.network ⟨0x0A000000#32, 25, by decide⟩, 0#32, 3, 255⟩

/-- `10.0.0.0/16` to the second neighbour. -/
def redirectWide : Route := ⟨IPInterface.network ⟨0x0A000000#32, 16, sixteen_le⟩, 0#32, 3, 255⟩

end Fork

theorem incrementalAgrees_redirect :
    IncrementalAgrees (forkUpdates [redirectHalf, redirectWide]) [2] (.ofAddr 0x0A000005#32) 0
      1 := by
  have hlegal : (forkUpdates [redirectHalf, redirectWide]).Legal [2] := .cons (by decide) .nil
  have hlike : InstallsLikeUpdates fork 0 [redirectHalf, redirectWide] 1 0x0A000005#32
      redirectWide := by
    refine ⟨fun i hi v hv _ _ _ => ?_, .inl (by decide)⟩
    obtain rfl := Nat.lt_one_iff.mp hi
    obtain rfl := Option.some.inj hv
    exact .inl (by decide)
  have hitems : fork.routeItems 0 (installedRib RoutingTable.update fork 0
      [redirectHalf, redirectWide] 2 0x0A000005#32) 0x0A000005#32 =
        [.inr (some ⟨2, some 21, 2, some 21⟩)] := by decide
  apply (incrementalAgrees_iff (EqClass.uniform_ofAddr _ _) hlegal rfl rfl rfl hlike).mpr
  exact .inl ⟨_, _, .refl, hitems ▸ List.mem_singleton_self _⟩

/-- The first update is kept out of the table by the connected route when the second one is
installed, but not when the FIB is computed. -/
theorem not_incrementalAgrees :
    ¬ ∀ (net : Network) (of : OpenflowProcess net.toTopology) (ec : EqClass), ec.Uniform of →
      ∀ st, of.Legal st → ∀ n k, k < (of.updatesOf n).length → of.installed st n = k + 1 →
        IncrementalAgrees of st ec n k := by
  intro h
  have hlegal : (forkUpdates [redirect, redirectWide]).Legal [2] := .cons (by decide) .nil
  obtain ⟨fib, hfib, hag⟩ := h fork (forkUpdates [redirect, redirectWide])
    (.ofAddr 0x0A000005#32) (EqClass.uniform_ofAddr _ _) [2] hlegal 0 1 (by decide) (by decide)
  have hnew : newNextHops fork 0 [redirect, redirectWide] 1 (.ofAddr 0x0A000005#32) =
      some [⟨1, some 11, 1, some 11⟩] := by decide
  have hfull : ((forkUpdates [redirect, redirectWide]).updateFib [2]
      (.ofAddr 0x0A000005#32)).bind (· 0) = some [⟨2, some 21, 2, some 21⟩] := by decide
  rw [hfib, Option.bind_some, hag] at hfull
  have := hnew.symm.trans hfull
  simp at this

end OpenflowProcess

end Neo
