import Neo.Network.LongestPrefix
import Neo.Network.Network
import Neo.Lib.Run

/-! What `get_ipnhs` returns: the next hops of all addresses reachable by recursive lookup,
whatever cycles the next hops form. Of an address only the networks of routes and the addresses
of interfaces matter. -/

namespace Neo

namespace Topology

variable {t : Topology}

theorem hasIp_iff {n : NodePtr} {a : IPv4Address} :
    t.hasIp n a = true ↔ ∃ i ∈ (t.node n).intfs, (t.intf i).isL2 = false ∧ (t.intf i).addr = a := by
  simp [hasIp, intfsL3]

def EndpointsOwned (t : Topology) (lan : L2Lan) : Prop :=
  ∀ ep ∈ lan.l3Endpoints, ∃ n ∈ t.nodes, t.hasIp n ep.1 = true

theorem getPeer_mem {n : NodePtr} {name : IntfName} {peer : NodePtr × IntfPtr}
    (h : t.getPeer n name = some peer) :
    peer.1 ∈ t.nodes ∧ peer.2 ∈ (t.node peer.1).intfs := by
  obtain ⟨l₁, l₂, hl, -⟩ := List.lookup_eq_some_iff.mp h
  exact t.peer_mem n (name, peer) (by simp [hl])

theorem endpoints_collectIntfs (Q : IPv4Address × NodePtr × IntfPtr → Prop)
    (hQ : ∀ n ∈ t.nodes, ∀ i ∈ (t.node n).intfs, (t.intf i).isL2 = false →
      Q ((t.intf i).addr, n, i)) :
    ∀ (fuel : Nat) (n : NodePtr) {lan lan' : L2Lan}, (∀ ep ∈ lan.l3Endpoints, Q ep) →
      t.collectIntfs fuel n lan = some lan' → ∀ ep ∈ lan'.l3Endpoints, Q ep := by
  intro fuel
  induction fuel with
  | zero => exact fun n lan lan' _ h => by simp [collectIntfs] at h
  | succ fuel ih =>
    intro n lan lan' hlan h
    refine foldlM_invariant (fun lan : L2Lan => ∀ ep ∈ lan.l3Endpoints, Q ep) (t.intfsL2 n)
      (fun i _ lan lan' hlan h => ?_) hlan h
    split_ifs at h with hmem
    · exact Option.some.inj h ▸ hlan
    · split at h
      · exact Option.some.inj h ▸ hlan
      · next peer hpeer =>
        obtain ⟨hnode, hintf⟩ := getPeer_mem hpeer
        dsimp only at h
        split_ifs at h with hl2
        · obtain rfl := Option.some.inj h
          intro ep hep
          rcases List.mem_cons.mp hep with rfl | hep
          · exact hQ peer.1 hnode peer.2 hintf (by simpa using hl2)
          · exact hlan ep (List.mem_filter.mp hep).1
        · exact Option.some.inj h ▸ hlan
        · have hlan' : ∀ ep ∈ ({ lan with l2Endpoints := (n, i) :: lan.l2Endpoints } :
              L2Lan).l3Endpoints, Q ep := hlan
          exact ih peer.1 hlan' h

end Topology

namespace Network

variable {net : Network}

theorem endpointsOwned_l2Lan (net : Network) (n : NodePtr) (i : IntfPtr) :
    net.EndpointsOwned (net.l2Lan n i) := by
  obtain ⟨fuel, start, h⟩ := net.lan_built n i
  apply Topology.endpoints_collectIntfs (fun ep => ∃ n ∈ net.nodes, net.hasIp n ep.1 = true) _
    fuel start (by simp) h
  intro n hn i hi hl3
  exact ⟨n, hn, Topology.hasIp_iff.mpr ⟨i, hi, hl3, rfl⟩⟩

theorem findL3Endpoint_mem {n : NodePtr} {i : IntfPtr} {dst : IPv4Address}
    {peer : NodePtr × IntfPtr} (h : (net.l2Lan n i).findL3Endpoint dst = some peer) :
    peer.1 ∈ net.nodes := by
  obtain ⟨fuel, start, hbuilt⟩ := net.lan_built n i
  obtain ⟨l₁, l₂, hl, -⟩ := List.lookup_eq_some_iff.mp h
  have hall := Topology.endpoints_collectIntfs (fun ep => ep.2.1 ∈ net.nodes)
    (fun n hn _ _ _ => hn) fuel start (by simp) hbuilt
  exact hall (dst, peer) (by simp [hl])

theorem getIpnh_mem {n : NodePtr} {egressIntf : IntfName} {dst : IPv4Address} {h : FibIpnh}
    (hh : net.getIpnh n egressIntf dst = some h) : h.l3Node ∈ net.nodes := by
  unfold getIpnh at hh
  split at hh
  · simp at hh
  · next l2Node l2Intf hpeer =>
    split_ifs at hh with hl2
    · obtain rfl := Option.some.inj hh
      exact (Topology.getPeer_mem hpeer).1
    · obtain ⟨⟨l3Node, l3Intf⟩, hfind, rfl⟩ := Option.map_eq_some_iff.mp hh
      exact findL3Endpoint_mem hfind

def Unowned (net : Network) (a : IPv4Address) : Prop := ∀ n ∈ net.nodes, net.hasIp n a = false

theorem findL3Endpoint_unowned {a : IPv4Address} (ha : net.Unowned a) (n : NodePtr)
    (i : IntfPtr) : (net.l2Lan n i).findL3Endpoint a = none := by
  cases h : (net.l2Lan n i).findL3Endpoint a with
  | none => rfl
  | some peer =>
    obtain ⟨l₁, l₂, hl, -⟩ := List.lookup_eq_some_iff.mp h
    obtain ⟨m, hm, hip⟩ := net.endpointsOwned_l2Lan n i (a, peer) (by simp [hl])
    exact absurd hip (by simp [ha m hm])

theorem getIpnh_unowned {a b : IPv4Address} (ha : net.Unowned a) (hb : net.Unowned b)
    (n : NodePtr) (egressIntf : IntfName) :
    net.getIpnh n egressIntf a = net.getIpnh n egressIntf b := by
  unfold getIpnh
  simp only [findL3Endpoint_unowned ha, findL3Endpoint_unowned hb]

theorem mem_of_mem_lookup {rib : RoutingTable} {dst : IPv4Address} {r : Route}
    (h : r ∈ rib.lookup dst) : r ∈ rib := by
  unfold RoutingTable.lookup at h
  split at h
  · exact (List.dropWhile_sublist _).subset ((List.takeWhile_sublist _).subset h)
  · simp at h

theorem lookup_congr {rib : RoutingTable} {a b : IPv4Address}
    (h : ∀ r ∈ rib, r.network.contains a = r.network.contains b) : rib.lookup a = rib.lookup b := by
  unfold RoutingTable.lookup
  have hfind : (rib.find? fun r => r.network.contains a) =
      rib.find? fun r => r.network.contains b := by
    induction rib with
    | nil => rfl
    | cons r rib ih =>
      simp only [List.find?_cons, h r (List.mem_cons_self ..)]
      rw [ih fun q hq => h q (List.mem_cons_of_mem _ hq)]
  rw [hfind]

theorem getIpnhs_spec (n : NodePtr) (hn : (net.node n).isEmulated = false) (rib : RoutingTable)
    (dst : IPv4Address) :
    ∃ nhs, net.getIpnhs n rib dst = some nhs ∧ Ordered.Sorted FibIpnh.lt nhs ∧
      ∀ h, h ∈ nhs ↔ ∃ x, Relation.ReflTransGen (Collect.Next (net.routeItems n rib)) dst x ∧
        Collect.Yields (net.routeItems n rib) x h := by
  have hclosed : ∀ x ∈ dst :: rib.map Route.nextHop, ∀ y,
      Collect.Next (net.routeItems n rib) x y → y ∈ dst :: rib.map Route.nextHop := by
    intro x _ y hxy
    obtain ⟨r, hr, hry⟩ := List.mem_map.mp hxy
    split_ifs at hry
    obtain rfl := Sum.inl.inj hry
    exact List.mem_cons_of_mem _ (List.mem_map_of_mem (mem_of_mem_lookup hr))
  obtain ⟨nhs, seen, hc, hs, hm⟩ := Collect.collect_spec FibIpnh.lt hclosed
    (List.mem_cons_self ..) (rib.length + 2) (by simp)
  exact ⟨nhs, by simp [getIpnhs, hn, hc], hs, hm⟩

theorem getIpnhs_congr {n : NodePtr} {rib rib' : RoutingTable} {a b : IPv4Address}
    (h : ∀ x h, Relation.ReflTransGen (Collect.Next (net.routeItems n rib)) a x ∧
      Collect.Yields (net.routeItems n rib) x h → ∃ y,
        Relation.ReflTransGen (Collect.Next (net.routeItems n rib')) b y ∧
          Collect.Yields (net.routeItems n rib') y h)
    (h' : ∀ x h, Relation.ReflTransGen (Collect.Next (net.routeItems n rib')) b x ∧
      Collect.Yields (net.routeItems n rib') x h → ∃ y,
        Relation.ReflTransGen (Collect.Next (net.routeItems n rib)) a y ∧
          Collect.Yields (net.routeItems n rib) y h) :
    net.getIpnhs n rib a = net.getIpnhs n rib' b := by
  cases hn : (net.node n).isEmulated with
  | true => simp [getIpnhs, hn]
  | false =>
    obtain ⟨nhs, hget, hs, hm⟩ := getIpnhs_spec n hn rib a
    obtain ⟨nhs', hget', hs', hm'⟩ := getIpnhs_spec n hn rib' b
    rw [hget, hget', hs.ext hs']
    intro hop
    rw [hm, hm']
    exact ⟨fun ⟨x, hx⟩ => h x hop hx, fun ⟨x, hx⟩ => h' x hop hx⟩

theorem getIpnhs_eq_of_items {n : NodePtr} {rib : RoutingTable} {a b : IPv4Address}
    (h : net.routeItems n rib a = net.routeItems n rib b) :
    net.getIpnhs n rib a = net.getIpnhs n rib b := by
  have key : ∀ {a b : IPv4Address}, net.routeItems n rib a = net.routeItems n rib b →
      ∀ x h, Relation.ReflTransGen (Collect.Next (net.routeItems n rib)) a x ∧
        Collect.Yields (net.routeItems n rib) x h → ∃ y,
          Relation.ReflTransGen (Collect.Next (net.routeItems n rib)) b y ∧
            Collect.Yields (net.routeItems n rib) y h := by
    rintro a b hab x h ⟨hx, hy⟩
    rcases hx.cases_head with rfl | ⟨y, hay, hyx⟩
    · exact ⟨b, .refl, by rwa [Collect.Yields, ← hab]⟩
    · refine ⟨x, .head ?_ hyx, hy⟩
      rwa [Collect.Next, ← hab]
  exact getIpnhs_congr (key h) (key h.symm)

theorem getIpnhs_eq {n : NodePtr} (hn : n ∈ net.nodes) {rib : RoutingTable} {a b : IPv4Address}
    (hrib : ∀ r ∈ rib, r.network.contains a = r.network.contains b)
    (hown : a = b ∨ net.Unowned a ∧ net.Unowned b) :
    net.getIpnhs n rib a = net.getIpnhs n rib b := by
  rcases hown with rfl | ⟨ha, hb⟩
  · rfl
  · refine getIpnhs_eq_of_items ?_
    unfold routeItems
    rw [lookup_congr hrib, ha n hn, hb n hn]
    simp only [getIpnh_unowned ha hb]

/-! The same in terms of longest prefixes. -/

/-- A longest route of one address that is not connected has the other for its next hop. -/
def Forwards (rib : RoutingTable) (x y : IPv4Address) : Prop :=
  ∃ r ∈ rib, rib.Longest x r ∧ r.egressIntf = 0 ∧ r.nextHop = y

/-- What a longest route of the address that is connected leads to: the node itself if it has
the address, otherwise the neighbour behind the interface. -/
def Connects (net : Network) (n : NodePtr) (rib : RoutingTable) (x : IPv4Address)
    (h : FibIpnh) : Prop :=
  ∃ r ∈ rib, rib.Longest x r ∧ r.egressIntf ≠ 0 ∧
    if net.hasIp n x = true then h = .accept n else net.getIpnh n r.egressIntf x = some h

section Closure
variable {rib : RoutingTable} (hrib : RoutingTable.Ranked rib)
include hrib

theorem mem_lookup_iff {x : IPv4Address} {r : Route} :
    r ∈ rib.lookup x ↔ r ∈ rib ∧ rib.Longest x r := by
  rw [RoutingTable.mem_lookup hrib]
  rfl

theorem next_iff (n : NodePtr) {x y : IPv4Address} :
    Collect.Next (net.routeItems n rib) x y ↔ Forwards rib x y := by
  unfold Collect.Next routeItems Forwards
  rw [List.mem_map]
  constructor
  · rintro ⟨r, hr, hitem⟩
    obtain ⟨hmem, hlong⟩ := (mem_lookup_iff hrib).mp hr
    split_ifs at hitem with hintf
    exact ⟨r, hmem, hlong, hintf, Sum.inl.inj hitem⟩
  · rintro ⟨r, hmem, hlong, hintf, rfl⟩
    refine ⟨r, (mem_lookup_iff hrib).mpr ⟨hmem, hlong⟩, ?_⟩
    rw [if_pos hintf]

theorem yields_iff (n : NodePtr) {x : IPv4Address} {h : FibIpnh} :
    Collect.Yields (net.routeItems n rib) x h ↔ Connects net n rib x h := by
  have hsome : ∀ r : Route, (if net.hasIp n x = true then some (.accept n)
      else net.getIpnh n r.egressIntf x) = some h ↔
        if net.hasIp n x = true then h = .accept n else net.getIpnh n r.egressIntf x = some h := by
    intro r
    split_ifs
    · rw [Option.some.injEq]
      exact eq_comm
    · rfl
  unfold Collect.Yields routeItems Connects
  rw [List.mem_map]
  constructor
  · rintro ⟨r, hr, hitem⟩
    obtain ⟨hmem, hlong⟩ := (mem_lookup_iff hrib).mp hr
    split_ifs at hitem with hintf hip
    · exact ⟨r, hmem, hlong, hintf, by rw [if_pos hip]; exact (Option.some.inj
        (Sum.inr.inj hitem)).symm⟩
    · exact ⟨r, hmem, hlong, hintf, by rw [if_neg hip]; exact Sum.inr.inj hitem⟩
  · rintro ⟨r, hmem, hlong, hintf, hres⟩
    refine ⟨r, (mem_lookup_iff hrib).mpr ⟨hmem, hlong⟩, ?_⟩
    rw [if_neg hintf, (hsome r).mpr hres]

end Closure

theorem forwards_perm {rib rib' : RoutingTable} (hperm : rib.Perm rib') :
    Forwards rib = Forwards rib' := by
  funext x y
  unfold Forwards RoutingTable.Longest
  simp only [hperm.mem_iff]

theorem connects_perm {n : NodePtr} {rib rib' : RoutingTable} (hperm : rib.Perm rib') :
    Connects net n rib = Connects net n rib' := by
  funext x h
  unfold Connects RoutingTable.Longest
  simp only [hperm.mem_iff]

theorem getIpnhs_spec_closure (net : Network) (n : NodePtr) {rib : RoutingTable}
    (hrib : RoutingTable.Ranked rib) (dst : IPv4Address) :
    ∃ nhs, net.getIpnhs n rib dst = some nhs ∧ Ordered.Sorted FibIpnh.lt nhs ∧
      ∀ h, h ∈ nhs ↔ (net.node n).isEmulated = false ∧
        ∃ x, Relation.ReflTransGen (Forwards rib) dst x ∧ Connects net n rib x h := by
  cases hn : (net.node n).isEmulated with
  | true => exact ⟨[], by simp [getIpnhs, hn], List.Pairwise.nil, by simp⟩
  | false =>
    obtain ⟨nhs, hget, hs, hm⟩ := getIpnhs_spec n hn rib dst
    refine ⟨nhs, hget, hs, fun h => ?_⟩
    have hnext : Collect.Next (net.routeItems n rib) = Forwards rib := by
      funext x y
      exact propext (next_iff hrib n)
    rw [hm, hnext]
    simp only [true_and, yields_iff hrib]

/-- The lookup of next hops ends with what the addresses reachable over next hops connect to, in
whatever order the table has its routes. A middlebox, whose own lookup is empty, has none. -/
theorem getIpnhs_closure (net : Network) (n : NodePtr) {rib : RoutingTable}
    (hrib : RoutingTable.Ranked rib) (dst : IPv4Address) :
    ∃ nhs, net.getIpnhs n rib dst = some nhs ∧ Ordered.Sorted FibIpnh.lt nhs ∧
      (∀ h, h ∈ nhs ↔ (net.node n).isEmulated = false ∧
        ∃ x, Relation.ReflTransGen (Forwards rib) dst x ∧ Connects net n rib x h) ∧
      ∀ rib' : RoutingTable, RoutingTable.Ranked rib' → rib.Perm rib' →
        net.getIpnhs n rib' dst = some nhs := by
  obtain ⟨nhs, hget, hs, hm⟩ := getIpnhs_spec_closure net n hrib dst
  refine ⟨nhs, hget, hs, hm, fun rib' hrib' hperm => ?_⟩
  obtain ⟨nhs', hget', hs', hm'⟩ := getIpnhs_spec_closure net n hrib' dst
  rw [hget', hs'.ext hs]
  intro h
  rw [hm', hm, forwards_perm hperm, connects_perm hperm]

theorem isNetwork_10 : 0x0a000000#32 &&& hostMask 24 = 0#32 := by decide

/-- A node with an address and a connected route to it, and two routes whose next hops are in
each other's networks. -/
def cyclicRib : RoutingTable :=
  [⟨⟨⟨0x0a000000#32, 24, twentyFour_le⟩, isNetwork_10⟩, 0x0a000101#32, 0, 1⟩,
    ⟨⟨⟨0x0a000000#32, 24, twentyFour_le⟩, isNetwork_10⟩, 0x0a000201#32, 0, 1⟩,
    ⟨⟨⟨0x0a000100#32, 24, twentyFour_le⟩, by decide⟩, 0x0a000001#32, 0, 1⟩,
    ⟨⟨⟨0x0a000200#32, 24, twentyFour_le⟩, by decide⟩, 0x0a000001#32, 1, 0⟩]

def cyclicNet : Network where
  nodes := [0]
  node := fun _ => ⟨[0], [], Route.weakSorted_nil, [], false⟩
  intf := fun _ => ⟨1, ⟨0x0a000201#32, 24, twentyFour_le⟩, false⟩
  peer_mem := by simp
  l2Lan := fun _ _ => ⟨[], []⟩
  lan_built := fun _ _ => ⟨1, 0, rfl⟩

theorem getIpnhs_closure_cyclic :
    ∃ nhs, cyclicNet.getIpnhs 0 cyclicRib 0x0a000001#32 = some nhs ∧
      Ordered.Sorted FibIpnh.lt nhs ∧
      (∀ h, h ∈ nhs ↔ (cyclicNet.node 0).isEmulated = false ∧ ∃ x,
        Relation.ReflTransGen (Forwards cyclicRib) 0x0a000001#32 x ∧
          Connects cyclicNet 0 cyclicRib x h) ∧
      ∀ rib' : RoutingTable, RoutingTable.Ranked rib' → cyclicRib.Perm rib' →
        cyclicNet.getIpnhs 0 rib' 0x0a000001#32 = some nhs :=
  getIpnhs_closure cyclicNet 0 (by decide) 0x0a000001#32

example : cyclicNet.getIpnhs 0 cyclicRib 0x0a000001#32 = some [.accept 0] := by decide

end Network

end Neo
