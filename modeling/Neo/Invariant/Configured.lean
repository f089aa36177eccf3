import Mathlib.Data.Nat.Pairing
import Neo.ConfigParser.ParseInvariants
import Neo.ConfigParser.WellFormed
import Neo.Invariant.Specified

/-! From the file to the verdict: the network of an accepted configuration is one for which the
verdicts are right, and the connections of its invariants start at nodes of it. -/

namespace Neo

namespace Topology

variable {t : Topology}

theorem Populated.buildsLan {st : L2Lans} (h : t.Populated st) {e : NodePtr × IntfPtr}
    {lan : L2LanTbl} (hlan : st.lanOf e = some lan) : t.BuildsLan lan.toL2Lan := by
  obtain ⟨n, -, -, hn⟩ := h.lan lan (h.mapped e lan hlan).1
  refine ⟨t.endpoints.length + 1, n, ?_⟩
  have hmap := t.map_collectTbl (t.endpoints.length + 1) n ⟨⟨[], []⟩, ∅⟩
  rw [show t.collectTbl (t.endpoints.length + 1) n ⟨⟨[], []⟩, ∅⟩ = some lan from hn] at hmap
  exact hmap.symm

end Topology

namespace ConfigParser

open Fallible

variable {H : DockerHost} {M : Layout} {cfg : NetworkTbl} {p : ParsedNetwork}

/-! ### The network with its LANs -/

/-- The network has the L2 LANs that are populated at the end of `parse_network`. -/
structure ParsedNetwork.Realizes (p : ParsedNetwork) (net : Network) : Prop where
  topology : net.toTopology = p.topology
  lans : ∃ st, p.topology.populateL2Lans = some st ∧
    ∀ n i lan, st.lanOf (n, i) = some lan → net.l2Lan n i = lan.toL2Lan

theorem wired_of_parse (hp : parseNetwork H M cfg = .ok p) : p.topology.Wired := by
  obtain ⟨-, ls, hls, hlinked⟩ := linkedBy_of_parse hp
  exact hlinked.wired (p.nodes.unlinked M) fun l hl => (hls.fits l hl).1

theorem intfs_of_parse (hp : parseNetwork H M cfg = .ok p) {n : NodePtr}
    (hn : n ∉ p.topology.nodes) : (p.topology.node n).intfs = [] ∧
      (p.topology.node n).isEmulated = false := by
  obtain ⟨-, ls, hls, hlinked⟩ := linkedBy_of_parse hp
  rw [hlinked.nodes] at hn
  rw [hlinked.intfs, hlinked.isEmulated]
  have hnone : (p.nodes.decls.find? fun d => M.node d.name = n) = none := by
    refine List.find?_eq_none.mpr fun d hd heq => hn ?_
    exact Nodes.mem_nodes.mpr ⟨d, hd, by simpa using heq⟩
  have hnode : (p.nodes.topology M).node n = noNode := by
    show p.nodes.nodeAt M n = _
    rw [Nodes.nodeAt, hnone]
    rfl
  rw [hnode]
  exact ⟨rfl, rfl⟩

theorem exists_realizes (hp : parseNetwork H M cfg = .ok p) : ∃ net, p.Realizes net := by
  obtain ⟨st, hst, hpop, -⟩ := Topology.exists_populateL2Lans (wired_of_parse hp)
  -- a node that is not there has a LAN without interfaces
  have hempty : p.topology.BuildsLan ⟨[], []⟩ := by
    obtain ⟨n, hn⟩ := Infinite.exists_notMem_finset p.topology.nodes.toFinset
    rw [List.mem_toFinset] at hn
    refine ⟨1, n, ?_⟩
    rw [Topology.collectIntfs, Topology.intfsL2, (intfs_of_parse hp hn).1]
    rfl
  let lanOf : NodePtr → IntfPtr → L2Lan := fun n i =>
    (st.lanOf (n, i)).elim ⟨[], []⟩ L2LanTbl.toL2Lan
  refine ⟨⟨p.topology, lanOf, fun n i => ?_⟩, rfl, st, hst, fun n i lan hlan => ?_⟩
  · cases hlan : st.lanOf (n, i) with
    | none =>
      show p.topology.BuildsLan ((st.lanOf (n, i)).elim _ _)
      rw [hlan]
      exact hempty
    | some lan =>
      show p.topology.BuildsLan ((st.lanOf (n, i)).elim _ _)
      rw [hlan]
      exact hpop.buildsLan hlan
  · show (st.lanOf (n, i)).elim _ _ = _
    rw [hlan]
    rfl

theorem linked_of_parse (hp : parseNetwork H M cfg = .ok p) {net : Network}
    (hnet : p.Realizes net) : net.Linked := by
  obtain ⟨-, ls, hls, hlinked⟩ := linkedBy_of_parse hp
  obtain ⟨t, lans, built⟩ := net
  obtain rfl : t = p.topology := hnet.topology
  exact hlinked.linked fun l hl => (hls.fits l hl).1

theorem modelOnly_of_parse (hp : parseNetwork H M cfg = .ok p) {net : Network}
    (hnet : p.Realizes net)
    (htype : ∀ tbl ∈ cfg.nodes.getD [], tbl.type ≠ some "emulation".toList) : net.ModelOnly := by
  obtain ⟨hwell, ls, hls, hlinked⟩ := linkedBy_of_parse hp
  obtain ⟨t, lans, built⟩ := net
  obtain rfl : t = p.topology := hnet.topology
  intro n
  by_cases hn : n ∈ p.topology.nodes
  · rw [hlinked.nodes] at hn
    obtain ⟨d, hd, rfl⟩ := Nodes.mem_nodes.mp hn
    show (p.topology.node _).isEmulated = false
    rw [hlinked.isEmulated, Nodes.node_topology hd]
    show d.docker.isSome = false
    obtain ⟨tbl, htbl, hden⟩ := exists_of_mem_right hwell.nodes hd
    cases hden with
    | model _ hdocker _ => rw [hdocker]; rfl
    | emulation dn hemulation _ _ _ _ => exact absurd hemulation (htype tbl htbl)
  · exact (intfs_of_parse hp hn).2

/-! ### Connections -/

section
variable {L : Libraries} {ns : Nodes}

theorem srcNodes_of_parse {tbl : ConnTbl} {spec : ConnSpec}
    (h : parseConnSpec L M ns tbl = .ok spec) {n : NodePtr} (hn : n ∈ spec.srcNodes) :
    ∃ d ∈ ns.decls, M.node d.name = n := by
  simp only [parseConnSpec, matchNodes, bind_eq_ok, pure_eq_ok] at h
  obtain ⟨_, -, _, -, _, -, _, -, _, ⟨matched, -, rfl⟩, _, -, rfl⟩ := h
  obtain ⟨d, hd, rfl⟩ := List.mem_map.mp (Ordered.mem_ofList.mp hn)
  exact ⟨d, (List.mem_filter.mp hd).1, rfl⟩

def SpecInv.Parsed (L : Libraries) (M : Layout) (ns : Nodes) (inv : SpecInv) : Prop :=
  ∀ spec ∈ inv.connSpecs, ∃ tbl, parseConnSpec L M ns tbl = .ok spec

theorem parsed_of_parseSingle {tbl : InvTbl} {policy : Policy} {count : Nat → Bool}
    {inv : SpecInv} (h : parseSingle L M ns tbl policy count = .ok inv) : inv.Parsed L M ns := by
  simp only [parseSingle, parseConnections, bind_eq_ok, pure_eq_ok, mapM_eq_ok] at h
  obtain ⟨specs, ⟨tbls, -, hspecs⟩, _, -, _, -, rfl⟩ := h
  intro spec hspec
  obtain ⟨tbl, -, htbl⟩ := exists_of_mem_right hspecs hspec
  exact ⟨tbl, htbl⟩

theorem parsed_of_parseTargets {tbl : InvTbl} {missing : String} {flag : Option Bool}
    {policy : List NodePtr → Bool → Policy} {inv : SpecInv}
    (h : parseTargets L M ns tbl missing flag policy = .ok inv) : inv.Parsed L M ns := by
  simp only [parseTargets, bind_eq_ok] at h
  obtain ⟨_, -, _, -, _, -, h⟩ := h
  exact parsed_of_parseSingle h

theorem parsed_of_parseCommon {α : Type} {tbl : InvTbl} {wrap : SpecInv → α}
    {other : Text → Except Text α} {x : α} (h : parseCommon L M ns tbl wrap other = .ok x) :
    (∃ inv : SpecInv, inv.Parsed L M ns ∧ wrap inv = x) ∨ ∃ type, other type = .ok x := by
  obtain ⟨type, -, h⟩ := bind_eq_ok.mp h
  split_ifs at h
  · obtain ⟨inv, hinv, h⟩ := bind_eq_ok.mp h
    exact .inl ⟨inv, parsed_of_parseTargets hinv, pure_eq_ok.mp h⟩
  · obtain ⟨inv, hinv, h⟩ := bind_eq_ok.mp h
    exact .inl ⟨inv, parsed_of_parseTargets hinv, pure_eq_ok.mp h⟩
  · obtain ⟨inv, hinv, h⟩ := bind_eq_ok.mp h
    exact .inl ⟨inv, parsed_of_parseTargets hinv, pure_eq_ok.mp h⟩
  · obtain ⟨inv, hinv, h⟩ := bind_eq_ok.mp h
    exact .inl ⟨inv, parsed_of_parseSingle hinv, pure_eq_ok.mp h⟩
  · exact .inr ⟨type, h⟩

theorem parsed_of_parseInv {tbl : InvTbl} {inv : SpecInv}
    (h : parseInv L M ns tbl = .ok (.single inv)) : inv.Parsed L M ns := by
  rcases parsed_of_parseCommon h with ⟨inv', hinv', heq⟩ | ⟨type, h⟩
  · exact ParsedInv.single.inj heq ▸ hinv'
  split_ifs at h
  · obtain ⟨inv', hinv', h⟩ := bind_eq_ok.mp h
    simp only [parseOnerequest, bind_eq_ok] at hinv'
    obtain ⟨_, -, _, -, hinv'⟩ := hinv'
    exact ParsedInv.single.inj (pure_eq_ok.mp h) ▸ parsed_of_parseSingle hinv'
  · obtain ⟨inv', hinv', h⟩ := bind_eq_ok.mp h
    simp only [parseLoadbalance, bind_eq_ok] at hinv'
    obtain ⟨_, -, _, -, hinv'⟩ := hinv'
    exact ParsedInv.single.inj (pure_eq_ok.mp h) ▸ parsed_of_parseSingle hinv'
  · obtain ⟨invs, -, h⟩ := bind_eq_ok.mp h
    cases pure_eq_ok.mp h
  · obtain ⟨invs, -, h⟩ := bind_eq_ok.mp h
    cases pure_eq_ok.mp h
  · cases h

/-! ### Verdicts -/

/-- No switchport of the node is its loopback interface or the egress interface of a route. -/
def NodeDecl.CanSend (d : NodeDecl) : Prop :=
  ∀ i ∈ d.intfs, i.ipv4 = none → i.name ≠ "lo".toList ∧
    ∀ r ∈ d.rib, r.egressIntf ≠ 0 → r.egressIntf ≠ .ofText i.name

theorem canSend_of_parse (hp : parseNetwork H M cfg = .ok p) {net : Network}
    (hnet : p.Realizes net) {d : NodeDecl} (hd : d ∈ p.nodes.decls) (hsend : d.CanSend) :
    M.node d.name ∈ net.nodes ∧ net.CanSend (M.node d.name) := by
  obtain ⟨-, ls, hls, hlinked⟩ := linkedBy_of_parse hp
  obtain ⟨t, lans, built⟩ := net
  obtain rfl : t = p.topology := hnet.topology
  refine ⟨?_, fun q hq hl2 => ?_⟩
  · show M.node d.name ∈ p.topology.nodes
    rw [hlinked.nodes]
    exact Nodes.mem_nodes.mpr ⟨d, hd, rfl⟩
  · have hq' : q ∈ (p.topology.node (M.node d.name)).intfs := hq
    rw [hlinked.intfs, Nodes.node_topology hd, Nodes.mem_intfs_node] at hq'
    obtain ⟨i, hi, rfl⟩ := hq'
    have hintf : p.topology.intf (M.intf d.name i.name) = i.interface := by
      rw [hlinked.intf, Nodes.intf_topology hd hi]
    have hl2' : (p.topology.intf (M.intf d.name i.name)).isL2 = true := hl2
    rw [hintf] at hl2'
    obtain ⟨hlo, hroutes⟩ := hsend i hi (Option.isNone_iff_eq_none.mp hl2')
    show (p.topology.intf _).name ≠ _ ∧ ∀ r ∈ (p.topology.node _).rib, _
    rw [hintf, hlinked.rib, Nodes.node_topology hd]
    exact ⟨fun h => hlo (IntfName.ofText_injective (h.trans IntfName.ofText_lo.symm)), hroutes⟩

theorem openflow_of_parse {L : Libraries} {cfg : ConfigTbl} {c : Config}
    (h : parse L M cfg = .ok c) : parseNetwork L.toDockerHost M cfg.toNetworkTbl =
      .ok c.toParsedNetwork ∧ parseOpenflow M c.toParsedNetwork cfg.updates = .ok c.openflow ∧
      List.Forall₂ (fun tbl inv => parseInv L M c.nodes tbl = .ok inv) (cfg.invariants.getD [])
        c.invs := by
  simp only [parse, bind_eq_ok, pure_eq_ok, mapM_eq_ok] at h
  obtain ⟨p, hp, of, hof, invs, hinvs, rfl⟩ := h
  exact ⟨hp, hof, hinvs⟩

/-- From the file to the verdict: where the nodes of an accepted configuration are models without
updates, the verification of a reachability invariant finds a violation if and only if some address
of its destination is not reached from some source node as the file asks for. -/
theorem violated_iff_configured {L : Libraries} {cfg : ConfigTbl} {c : Config}
    (hparse : parse L M cfg = .ok c)
    (htype : ∀ tbl ∈ cfg.nodes.getD [], tbl.type ≠ some "emulation".toList)
    (hupdates : cfg.updates.getD [] = []) {net : Network} (hnet : c.Realizes net)
    (of : OpenflowProcess net.toTopology) (hof : of.updates = c.openflow.updates)
    {targetNodes : List NodePtr} {reachable : Bool} {spec : ConnSpec}
    (hinv : .single ⟨.reachability targetNodes reachable, [spec]⟩ ∈ c.invs) (A : Allocator)
    {specs : List ConnSpec} (hspec : spec ∈ specs) {ports : List (BitVec 16)} (hports : ports ≠ [])
    (hall : spec.dstIp ≠ ConnSpec.everything) (howned : spec.ownedDstOnly = false)
    (hudp : spec.protocol ≠ .tcp)
    (hsrc : ∀ d ∈ c.nodes.decls, M.node d.name ∈ spec.srcNodes → d.CanSend) :
    (∃ conn ∈ spec.computeConnections ports (ConnSpec.plankton A of [] specs).ecs, ∃ s t tr,
      (ConnSpec.plankton A of [] specs).initModel
        (Reachability.invariants targetNodes reachable conn) = some s ∧
      Run ((ConnSpec.plankton A of [] specs).step
        (Reachability.invariants targetNodes reachable conn)) s tr t ∧ t.choiceCount = 0 ∧
        t.violated = true) ↔
    ∃ src ∈ spec.srcNodes, ∃ a ∈ spec.dstIp, ∃ n, net.Reaches a src n ∧ if reachable then
      net.Discards a n ∨ net.Accepts a n ∧ n ∉ targetNodes
    else net.Accepts a n ∧ n ∈ targetNodes := by
  obtain ⟨hp, hopenflow, hinvs⟩ := openflow_of_parse hparse
  have hempty : of.updates = [] := by
    rw [parseOpenflow, hupdates] at hopenflow
    rw [hof, ← pure_eq_ok.mp hopenflow]
    rfl
  have hallPorts : spec.allDstPorts ports ≠ [] := by
    rw [ConnSpec.allDstPorts]
    split_ifs with hnil htcp
    · exact hports
    · exact List.cons_ne_nil _ _
    · exact hnil
  obtain ⟨itbl, -, hitbl⟩ := exists_of_mem_right hinvs hinv
  obtain ⟨tbl, htbl⟩ := parsed_of_parseInv hitbl spec (List.mem_singleton_self spec)
  have hsend : ∀ n ∈ spec.srcNodes, n ∈ net.nodes ∧ net.CanSend n := by
    intro n hn
    obtain ⟨d, hd, rfl⟩ := srcNodes_of_parse htbl hn
    exact canSend_of_parse hp hnet hd (hsrc d hd hn)
  -- the connections of the specification cover its sources and destination addresses
  apply ConnSpec.exists_conn_iff A of [] hspec hall howned hallPorts
  intro src hmem a ec p ha
  exact Reachability.violated_iff_dataPlane (modelOnly_of_parse hp hnet htype)
    (linked_of_parse hp hnet) hempty ⟨(hsend src hmem).1, ⟨a, ha⟩, rfl, (hsend src hmem).2⟩ hudp ha
    targetNodes reachable

end

/-! ### A node on its own -/

def textLayout : Layout where
  node := codeText
  intf n i := Nat.pair (codeText n) (codeText i)
  order := id
  unset := 0#32
  node_injective := codeText_injective
  intf_injective := fun _ _ _ _ h =>
    ⟨codeText_injective (Nat.pair_eq_pair.mp h).1, codeText_injective (Nat.pair_eq_pair.mp h).2⟩
  order_perm := List.Perm.refl

def plainLibraries : Libraries where
  pull _ _ := .error []
  start _ := .error []
  regex pattern := .ok (· == pattern)
  exceeds _ _ _ := false
  assertions := true

theorem aloneIp_isNetwork : 0x0A000001#32 &&& hostMask 32 = 0#32 := by decide

def aloneIp : IPNetwork := ⟨⟨0x0A000001#32, 32, thirtyTwo_le⟩, aloneIp_isNetwork⟩

def aloneIntf : NamedIntf := ⟨"e0".toList, some aloneIp.toIPInterface⟩

def aloneNode : NodeDecl where
  name := "a".toList
  intfs := [aloneIntf]
  rib := [⟨aloneIp, aloneIp.addr, .ofText "e0".toList, 0⟩]
  rib_ranked := List.pairwise_singleton _ _
  names_nodup := List.nodup_singleton _
  addrs_nodup := List.nodup_singleton _
  docker := none

def aloneNodes : Nodes := ⟨[aloneNode], List.nodup_singleton _⟩

def aloneTbl : NodeTbl where
  type := none
  driver := none
  name := some "a".toList
  interfaces := some [⟨some "e0".toList, some aloneIp.toChars⟩]
  staticRoutes := none
  installedRoutes := none
  startDelay := none
  resetDelay := none
  replayDelay := none
  packetsPerInjection := none
  daemon := none
  container := none

def aloneConn : ConnTbl where
  protocol := some "UDP".toList
  srcNode := some "a".toList
  dstIp := some aloneIp.toChars
  srcPort := none
  dstPort := some (.integer 80)
  ownedDstOnly := none

def aloneInv : InvTbl where
  type := some "reachability".toList
  targetNode := some "b".toList
  reachable := some true
  passThrough := none
  maxDispersionIndex := none
  connections := some [aloneConn]
  correlatedInvariants := none

def aloneCfg : ConfigTbl where
  nodes := some [aloneTbl]
  links := none
  updates := none
  invariants := some [aloneInv]

def aloneSpec : ConnSpec where
  protocol := .udp
  srcNodes := [codeText "a".toList]
  dstIp := aloneIp.range
  srcPort := 49152
  dstPorts := [80]
  ownedDstOnly := false
  isNetwork := ⟨aloneIp, rfl⟩

def aloneConfig : Config where
  nodes := aloneNodes
  topology := aloneNodes.topology textLayout
  links := []
  openflow := .initial _
  invs := [.single ⟨.reachability [] true, [aloneSpec]⟩]

theorem parse_aloneConn :
    parseConnSpec plainLibraries textLayout aloneNodes aloneConn = .ok aloneSpec := by
  simp only [parseConnSpec, bind_eq_ok, require_eq_ok, pure_eq_ok]
  refine ⟨_, rfl, _, rfl, _, rfl, .udp, rfl, _, rfl, aloneIp, ?_, rfl⟩
  rw [if_pos (by decide)]
  exact IPNetwork.parse_toChars aloneIp

theorem parse_aloneInv : parseInv plainLibraries textLayout aloneNodes aloneInv =
    .ok (.single ⟨.reachability [] true, [aloneSpec]⟩) := by
  have hconns : parseConnections plainLibraries textLayout aloneNodes aloneInv =
      .ok [aloneSpec] := by
    refine bind_eq_ok.mpr ⟨[aloneConn], rfl, mapM_eq_ok.mpr (.cons parse_aloneConn .nil)⟩
  refine bind_eq_ok.mpr ⟨"reachability".toList, rfl, ?_⟩
  rw [if_pos rfl]
  refine bind_eq_ok.mpr ⟨⟨.reachability [] true, [aloneSpec]⟩, ?_, rfl⟩
  simp only [parseReachability, parseTargets, parseSingle, bind_eq_ok, hconns]
  exact ⟨_, rfl, true, rfl, [], rfl, _, rfl, (), rfl, (), rfl, rfl⟩

theorem parse_aloneCfg : parse plainLibraries textLayout aloneCfg = .ok aloneConfig := by
  have hnetwork : parseNetwork plainLibraries.toDockerHost textLayout aloneCfg.toNetworkTbl =
      .ok aloneConfig.toParsedNetwork := by
    refine parseNetwork_eq_ok.mpr ⟨.cons (.model (.inl rfl) rfl ⟨rfl, ?_, [], [], .nil, .nil, rfl⟩)
      .nil, [], .nil, rfl⟩
    exact .cons ⟨rfl, .some (cidr_toChars aloneIp.toIPInterface).parse⟩ .nil
  exact bind_eq_ok.mpr ⟨_, hnetwork, bind_eq_ok.mpr ⟨_, rfl, bind_eq_ok.mpr ⟨_,
    mapM_eq_ok.mpr (.cons parse_aloneInv .nil), rfl⟩⟩⟩

theorem endpoints_alone : aloneConfig.topology.endpoints = [] := by decide +kernel

theorem builds_alone : aloneConfig.topology.BuildsLan ⟨[], []⟩ := by
  refine ⟨1, 0, ?_⟩
  rw [Topology.collectIntfs, show aloneConfig.topology.intfsL2 0 = [] by decide +kernel]
  rfl

def aloneNet : Network where
  toTopology := aloneConfig.topology
  l2Lan _ _ := ⟨[], []⟩
  lan_built _ _ := builds_alone

theorem realizes_aloneNet : aloneConfig.Realizes aloneNet := by
  refine ⟨rfl, ⟨[], fun _ => none⟩, ?_, fun n i lan h => absurd h (by simp)⟩
  rw [Topology.populateL2Lans, endpoints_alone]
  rfl

theorem violated_alone : ∃ conn ∈ aloneSpec.computeConnections [80]
      (ConnSpec.plankton .next (.initial aloneNet.toTopology) [] [aloneSpec]).ecs, ∃ s t tr,
    (ConnSpec.plankton .next (.initial aloneNet.toTopology) [] [aloneSpec]).initModel
      (Reachability.invariants [] true conn) = some s ∧
    Run ((ConnSpec.plankton .next (.initial aloneNet.toTopology) [] [aloneSpec]).step
      (Reachability.invariants [] true conn)) s tr t ∧ t.choiceCount = 0 ∧ t.violated = true := by
  have haccepts : aloneNet.Accepts 0x0A000001#32 (codeText "a".toList) := by
    have hnhs : aloneNet.getIpnhs (codeText "a".toList) (aloneNet.node (codeText "a".toList)).rib
        0x0A000001#32 = some [.accept (codeText "a".toList)] := by
      decide +kernel
    exact ⟨.accept _, Network.sendsTo_iff.mpr ⟨_, hnhs, List.mem_singleton_self _⟩, rfl⟩
  refine (violated_iff_configured parse_aloneCfg (by decide) rfl realizes_aloneNet _ rfl
    (List.mem_singleton_self _) .next (List.mem_singleton_self _) (List.cons_ne_nil _ _)
    (by decide) rfl (by decide) ?_).mpr ?_
  · intro d hd _ i hi hnone
    obtain rfl := List.mem_singleton.mp hd
    obtain rfl := List.mem_singleton.mp hi
    exact absurd hnone (by decide)
  · exact ⟨_, List.mem_singleton_self _, 0x0A000001#32, by decide, _, .refl,
      .inr ⟨haccepts, by simp⟩⟩

end ConfigParser

end Neo
