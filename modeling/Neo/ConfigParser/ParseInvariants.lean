import Neo.ConfigParser.ParseNetwork
import Neo.ConnSpec
import Neo.Net

/-! Openflow updates and invariants of a configuration. Nodes are selected by regular expressions,
and invariants with correlated ones have these instead of connections. -/

namespace Neo

namespace OpenflowProcess

def insertUpdate (n : NodePtr) (r : Route) :
    List (NodePtr × List Route) → List (NodePtr × List Route)
  | [] => [(n, [r])]
  | (m, rs) :: l =>
    if n < m then (n, [r]) :: (m, rs) :: l
    else if n = m then (m, rs ++ [r]) :: l
    else (m, rs) :: insertUpdate n r l

theorem mem_insertUpdate {n : NodePtr} {r : Route} {l : List (NodePtr × List Route)}
    {p : NodePtr × List Route} (h : p ∈ insertUpdate n r l) : p.1 = n ∨ ∃ q ∈ l, q.1 = p.1 := by
  induction l with
  | nil =>
    rw [List.mem_singleton.mp h]
    exact .inl rfl
  | cons q l ih =>
    obtain ⟨m, rs⟩ := q
    rw [insertUpdate] at h
    split_ifs at h with hlt heq
    · rcases List.mem_cons.mp h with rfl | h
      · exact .inl rfl
      · exact .inr ⟨p, h, rfl⟩
    · rcases List.mem_cons.mp h with rfl | h
      · exact .inl heq.symm
      · exact .inr ⟨p, List.mem_cons_of_mem _ h, rfl⟩
    · rcases List.mem_cons.mp h with rfl | h
      · exact .inr ⟨_, List.mem_cons_self .., rfl⟩
      · exact (ih h).imp_right fun ⟨q, hq, heq⟩ => ⟨q, List.mem_cons_of_mem _ hq, heq⟩

theorem sorted_insertUpdate {n : NodePtr} {r : Route} {l : List (NodePtr × List Route)}
    (h : l.Pairwise fun p q => p.1 < q.1) :
    (insertUpdate n r l).Pairwise fun p q => p.1 < q.1 := by
  induction l with
  | nil => exact List.pairwise_singleton _ _
  | cons q l ih =>
    obtain ⟨m, rs⟩ := q
    obtain ⟨hm, hl⟩ := List.pairwise_cons.mp h
    rw [insertUpdate]
    split_ifs with hlt heq
    · refine List.pairwise_cons.mpr ⟨fun p hp => ?_, h⟩
      rcases List.mem_cons.mp hp with rfl | hp
      · exact hlt
      · exact hlt.trans (hm p hp)
    · exact List.pairwise_cons.mpr ⟨hm, hl⟩
    · refine List.pairwise_cons.mpr ⟨fun p hp => ?_, ih hl⟩
      rcases mem_insertUpdate hp with hpn | ⟨q, hq, hqp⟩
      · rw [hpn]
        exact lt_of_le_of_ne (not_lt.mp hlt) fun heq' => heq heq'.symm
      · rw [← hqp]
        exact hm q hq

theorem node_mem_insertUpdate {t : Topology} (of : OpenflowProcess t) {n : NodePtr}
    (hn : n ∈ t.nodes ∧ (t.node n).isEmulated = false) (r : Route) (p : NodePtr × List Route)
    (hp : p ∈ insertUpdate n r of.updates) :
    p.1 ∈ t.nodes ∧ (t.node p.1).isEmulated = false := by
  rcases mem_insertUpdate hp with hpn | ⟨q, hq, hqp⟩
  · exact hpn ▸ hn
  · exact hqp ▸ of.node_mem q hq

def addUpdate {t : Topology} (of : OpenflowProcess t) (n : NodePtr)
    (hn : n ∈ t.nodes ∧ (t.node n).isEmulated = false) (r : Route) : OpenflowProcess t where
  updates := insertUpdate n r of.updates
  sorted := sorted_insertUpdate of.sorted
  node_mem := of.node_mem_insertUpdate hn r

theorem node_mem_nil {t : Topology} (p : NodePtr × List Route) (h : p ∈ []) :
    p.1 ∈ t.nodes ∧ (t.node p.1).isEmulated = false :=
  absurd h (List.not_mem_nil)

theorem sorted_nil : ([] : List (NodePtr × List Route)).Pairwise fun p q => p.1 < q.1 := .nil

def initial (t : Topology) : OpenflowProcess t := ⟨[], sorted_nil, node_mem_nil⟩

end OpenflowProcess

namespace ConfigParser

/-! ### Tables -/

inductive DstPortTbl
  | array (ports : List Int)
  | integer (port : Int)

structure ConnTbl where
  protocol : Option Text
  srcNode : Option Text
  dstIp : Option Text
  srcPort : Option Int
  dstPort : Option DstPortTbl
  ownedDstOnly : Option Bool

/-- A maximum is a double, here its bits, or an integer. -/
inductive MaxTbl
  | double (bits : BitVec 64)
  | integer (n : Int)

structure InvTbl where
  type : Option Text
  targetNode : Option Text
  reachable : Option Bool
  passThrough : Option Bool
  maxDispersionIndex : Option MaxTbl
  connections : Option (List ConnTbl)
  correlatedInvariants : Option (List InvTbl)

structure ConfigTbl extends NetworkTbl where
  updates : Option (List UpdateTbl)
  invariants : Option (List InvTbl)

/-- What the parser uses of libraries: the nodes' names that an expression matches, unless it is no
expression, and the comparison of a dispersion index with a maximum. Whether assertions are checked
depends on the build. -/
structure Libraries extends DockerHost where
  regex : Text → Except Text (Text → Bool)
  exceeds : MaxTbl → List NodePtr → ReachCounts → Bool
  assertions : Bool

/-! ### Openflow updates -/

def parseOpenflowUpdate (M : Layout) (p : ParsedNetwork) (of : OpenflowProcess p.topology)
    (cfg : UpdateTbl) : Except Text (OpenflowProcess p.topology) := do
  let nodeName ← require "Missing node name" cfg.node
  let networkCidr ← require "Missing network" cfg.network
  let outport ← require "Missing outport" cfg.outport
  let node ← p.nodes.find nodeName
  if hn : M.node node.name ∈ p.topology.nodes ∧
      (p.topology.node (M.node node.name)).isEmulated = false then
    let network ← IPNetwork.parse networkCidr
    return of.addUpdate _ hn ⟨network, M.unset, .ofText outport, 255⟩
  else throw "Unsupported node type".toList

def parseOpenflow (M : Layout) (p : ParsedNetwork) (updates : Option (List UpdateTbl)) :
    Except Text (OpenflowProcess p.topology) :=
  (updates.getD []).foldlM (parseOpenflowUpdate M p) (.initial p.topology)

/-! ### Connections -/

def compile (L : Libraries) (ns : Nodes) (pattern : Text) : Except Text (Text → Bool) :=
  if ns.decls.isEmpty then .ok fun _ => false else L.regex pattern

/-- The nodes whose names match, in the order of a `set<Node *>`. -/
def matchNodes (L : Libraries) (M : Layout) (ns : Nodes) (pattern : Text) :
    Except Text (List NodePtr) := do
  let matched ← compile L ns pattern
  return Ordered.ofList (· < ·) ((ns.decls.filter fun d => matched d.name).map fun d =>
    M.node d.name)

def parseProtocol (protoStr : Text) : Except Text Proto :=
  let protoS := protoStr.map Char.toLower
  if protoS = "tcp".toList then .ok .tcp
  else if protoS = "udp".toList then .ok .udp
  else if protoS = "icmp-echo".toList then .ok .icmpEcho
  else .error ("Unknown protocol: ".toList ++ protoStr)

/-- `DYNAMIC_PORT`. -/
def dynamicPort : Int := 49152

def DstPortTbl.ports : Option DstPortTbl → List (BitVec 16)
  | some (.array ports) => Ordered.ofList (· < ·) (ports.map (BitVec.ofInt 16))
  | some (.integer port) => [BitVec.ofInt 16 port]
  | none => []

def parseConnSpec (L : Libraries) (M : Layout) (ns : Nodes) (cfg : ConnTbl) :
    Except Text ConnSpec := do
  let protoStr ← require "Missing protocol" cfg.protocol
  let srcNodeRegex ← require "Missing src_node" cfg.srcNode
  let dstIpStr ← require "Missing dst_ip" cfg.dstIp
  let protocol ← parseProtocol protoStr
  let srcNodes ← matchNodes L M ns srcNodeRegex
  let net ← IPNetwork.parse (if '/' ∈ dstIpStr then dstIpStr else dstIpStr ++ "/32".toList)
  -- ports are read for protocols that have them
  let hasPorts := protocol = .tcp ∨ protocol = .udp
  return {
    protocol := protocol
    srcNodes := srcNodes
    dstIp := net.range
    srcPort := if hasPorts then BitVec.ofInt 16 (cfg.srcPort.getD dynamicPort) else 0
    dstPorts := if hasPorts then DstPortTbl.ports cfg.dstPort else []
    ownedDstOnly := cfg.ownedDstOnly.getD false
    isNetwork := ⟨net, rfl⟩ }

def parseConnections (L : Libraries) (M : Layout) (ns : Nodes) (cfg : InvTbl) :
    Except Text (List ConnSpec) := do
  let connsCfg ← require "Missing connections" cfg.connections
  connsCfg.mapM (parseConnSpec L M ns)

/-! ### Invariants -/

structure SpecInv where
  policy : Policy
  connSpecs : List ConnSpec

inductive ParsedInv
  | single (inv : SpecInv)
  | conditional (correlatedInvs : List SpecInv)
  | consistency (correlatedInvs : List SpecInv)

def assert (L : Libraries) (cond : Bool) : Except Text Unit :=
  if L.assertions && !cond then .error "Assertion failed".toList else .ok ()

section
variable (L : Libraries) (M : Layout) (ns : Nodes) (cfg : InvTbl)

def parseSingle (policy : Policy) (count : Nat → Bool) : Except Text SpecInv := do
  let connSpecs ← parseConnections L M ns cfg
  assert L (count connSpecs.length)
  assert L (connSpecs.length ≤ Packet.maxConns)
  return ⟨policy, connSpecs⟩

def parseTargets (missing : String) (flag : Option Bool)
    (policy : List NodePtr → Bool → Policy) : Except Text SpecInv := do
  let pattern ← require "Missing target_node" cfg.targetNode
  let flag ← require missing flag
  let targetNodes ← matchNodes L M ns pattern
  parseSingle L M ns cfg (policy targetNodes flag) (· == 1)

def parseReachability : Except Text SpecInv :=
  parseTargets L M ns cfg "Missing reachable" cfg.reachable .reachability

def parseReplyreachability : Except Text SpecInv :=
  parseTargets L M ns cfg "Missing reachable" cfg.reachable .replyReachability

def parseWaypoint : Except Text SpecInv :=
  parseTargets L M ns cfg "Missing pass_through" cfg.passThrough .waypoint

def parseLoop : Except Text SpecInv := parseSingle L M ns cfg .loop (· == 1)

def parseOnerequest : Except Text SpecInv := do
  let pattern ← require "Missing target_node" cfg.targetNode
  let targetNodes ← matchNodes L M ns pattern
  parseSingle L M ns cfg (.oneRequest targetNodes) (1 ≤ ·)

def parseLoadbalance : Except Text SpecInv := do
  let pattern ← require "Missing target_node" cfg.targetNode
  let targetNodes ← matchNodes L M ns pattern
  let maxVmr := cfg.maxDispersionIndex.getD (.integer 1)
  parseSingle L M ns cfg (.loadBalance targetNodes (L.exceeds maxVmr targetNodes)) (1 ≤ ·)

def parseCommon {α : Type} (wrap : SpecInv → α) (other : Text → Except Text α) :
    Except Text α := do
  let type ← require "Missing invariant type" cfg.type
  if type = "reachability".toList then return wrap (← parseReachability L M ns cfg)
  else if type = "reply-reachability".toList then
    return wrap (← parseReplyreachability L M ns cfg)
  else if type = "waypoint".toList then return wrap (← parseWaypoint L M ns cfg)
  else if type = "loop".toList then return wrap (← parseLoop L M ns cfg)
  else other type

def unknownType {α : Type} (type : Text) : Except Text α :=
  .error ("Unknown invariant type: ".toList ++ type)

/-- A turn of the loop of `parse_inv_array` over correlated invariants. -/
def parseCorrelated : Except Text SpecInv := parseCommon L M ns cfg id unknownType

def parseCorrelatedInvs : Except Text (List SpecInv) := do
  let invsConfig ← require "Missing correlated invariants" cfg.correlatedInvariants
  invsConfig.mapM (parseCorrelated L M ns)

/-- A turn of the loop of `parse_inv_array`. -/
def parseInv : Except Text ParsedInv :=
  parseCommon L M ns cfg .single fun type =>
    if type = "one-request".toList then return .single (← parseOnerequest L M ns cfg)
    else if type = "loadbalance".toList then return .single (← parseLoadbalance L M ns cfg)
    else if type = "conditional".toList then
      return .conditional (← parseCorrelatedInvs L M ns cfg)
    else if type = "consistency".toList then
      return .consistency (← parseCorrelatedInvs L M ns cfg)
    else unknownType type

end

/-! ### The configuration -/

structure Config extends ParsedNetwork where
  openflow : OpenflowProcess topology
  invs : List ParsedInv

/-- `ConfigParser::parse`. -/
def parse (L : Libraries) (M : Layout) (cfg : ConfigTbl) : Except Text Config := do
  let network ← parseNetwork L.toDockerHost M cfg.toNetworkTbl
  let openflow ← parseOpenflow M network cfg.updates
  let invs ← (cfg.invariants.getD []).mapM (parseInv L M network.nodes)
  return { network with openflow := openflow, invs := invs }

end ConfigParser

end Neo
