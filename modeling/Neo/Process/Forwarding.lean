import Neo.Net

/-! The forwarding process: packets are forwarded hop by hop, delivered, dropped or injected into
a middlebox, whose answer may be any packets of any connections. -/

namespace Neo

namespace Topology

/-- The name `lo`. -/
def loName : IntfName := 1

def l3Addrs (t : Topology) (n : NodePtr) : List IPv4Address :=
  Ordered.ofList (· < ·) ((t.intfsL3 n).map fun i => (t.intf i).addr)

/-- The address of `loopback_intf`; `none` where it is missing or no L3 interface. -/
def loopbackAddr (t : Topology) (n : NodePtr) : Option IPv4Address :=
  match (t.node n).intfs.find? fun i => (t.intf i).name = loName with
  | some lo => if (t.intf lo).isL2 then none else some (t.intf lo).addr
  | none => if t.hasIp n 0x7F000001#32 then some 0x7F000001#32 else (t.l3Addrs n).head?

end Topology

namespace Model

variable (P : Plankton) (m : Model)

/-- `inject_packet`, whose answer is `results`: there is at least one. -/
def injectPacket (results : List InjectionResult) : Option Model := do
  assert !results.isEmpty
  return (m.setCur { m.cur with
    injResults := some results
    fwdMode := .chooseInjRes }).setChoiceCount results.length

def dropCur : Model := m.setCur { m.cur with fwdMode := .dropped, executable := 0 }

/-- The candidates among the next hops: in case of multipath, the past choice if it's been
made. -/
def chooseCandidates (nextHops : List FibIpnh) : Candidates :=
  match m.cur.pathChoices.getChoice m.cur.dstIpEc m.cur.pktLocation with
  | some choice => if nextHops.length > 1 ∧ choice ∈ nextHops then [choice] else nextHops
  | none => nextHops

def collectNextHops (results : List InjectionResult) : Option Model := do
  if (P.network.node m.cur.pktLocation).isEmulated then
    m.injectPacket results
  else
    let nextHops ← m.cur.fib m.cur.pktLocation
    if nextHops.isEmpty then
      -- no route: the packet is dropped
      return m.dropCur
    else
      let candidates := m.chooseCandidates nextHops
      return (m.setCur { m.cur with
        candidates := some candidates
        fwdMode := .forwardPacket }).setChoiceCount candidates.length

/-- `first_collect`: whatever collecting led to, the mode becomes `FIRST_FORWARD`. -/
def firstCollect (results : List InjectionResult) : Option Model := do
  let m ← m.collectNextHops P results
  return m.setCur { m.cur with fwdMode := .firstForward }

/-- In case of multipath, the choice is remembered. -/
def rememberChoice (candidates : Candidates) (nextHop : FibIpnh) : Option Choices :=
  if candidates.length > 1 then
    m.cur.pathChoices.addChoice m.cur.dstIpEc m.cur.pktLocation nextHop
  else some m.cur.pathChoices

def deliver : Model :=
  (m.setCur { m.cur with
    rxNode := if m.cur.protoState.isFirst then some m.cur.pktLocation else m.cur.rxNode
    fwdMode := .accepted }).setChoiceCount 1

def moveTo (nextHop : FibIpnh) : Model :=
  -- a connection that is about to enter a middlebox waits for the others
  let entersMb := (P.network.node nextHop.l3Node).isEmulated
  (m.setCur { m.cur with
    rxNode :=
      if entersMb && m.cur.protoState.isFirst then some nextHop.l3Node else m.cur.rxNode
    executable := if entersMb then 1 else m.cur.executable
    pktLocation := nextHop.l3Node
    ingressIntf := nextHop.l3Intf
    fwdMode := .collectNhops }).setChoiceCount 1

def forwardPacket : Option Model := do
  let candidates ← m.cur.candidates
  let nextHop ← candidates[m.choice]?
  let pathChoices ← m.rememberChoice candidates nextHop
  let m := m.setCur { m.cur with pathChoices := pathChoices }
  return if nextHop.l3Node = m.cur.pktLocation then m.deliver else m.moveTo P nextHop

def firstSrcIp : Option IPv4Address := do
  let candidates ← m.cur.candidates
  let nextHop ← candidates[m.choice]?
  match nextHop.l2Intf with
  | some l2Intf =>
    let egress ← P.network.getPeer nextHop.l2Node (P.network.intf l2Intf).name
    -- the address of a switchport is an error
    assert !(P.network.intf egress.2).isL2
    return (P.network.intf egress.2).addr
  | none =>
    -- sender is receiver
    assert (nextHop.l3Intf == none && nextHop.l3Node == nextHop.l2Node &&
      nextHop.l2Node == m.cur.pktLocation)
    P.network.loopbackAddr m.cur.pktLocation

def firstForward : Option Model := do
  if m.cur.protoState.isFirst ∧ m.cur.srcIp = 0#32 then
    let srcIp ← m.firstSrcIp P
    (m.setCur { m.cur with srcIp := srcIp }).forwardPacket P
  else
    m.forwardPacket P

def nextSeqAck (changeDirection : Bool) : BitVec 32 × BitVec 32 :=
  if m.cur.protoState.isTcp then
    let seq := Packet.seqAfter m.cur.protoState m.cur.payload m.cur.seq
    if changeDirection then (m.cur.ack, seq) else (seq, m.cur.ack)
  else (m.cur.seq, m.cur.ack)

def turnAround : Option Model := do
  let ec ← m.cur.dstIpEc
  let srcIp ← EqClass.representativeAddr (P.ecs.ranges ec)
  let dstIpEc ← P.ecs.findEc m.cur.srcIp
  (m.setCur { m.cur with
    srcIp := srcIp
    dstIpEc := some dstIpEc
    srcNode := m.cur.pktLocation
    srcPort := m.cur.dstPort
    dstPort := m.cur.srcPort }).updateFib P

def sendAgain : Model := m.setCur { m.cur with pktLocation := m.cur.srcNode }

def phaseTransition (nextProtoState : ProtoState) (changeDirection : Bool) : Option Model := do
  let newSrcNode := if changeDirection then m.cur.pktLocation else m.cur.srcNode
  if (P.network.node newSrcNode).isEmulated then
    -- missing packet: freeze the connection
    return m.setCur { m.cur with executable := 0 }
  else
    let (seq, ack) := m.nextSeqAck changeDirection
    let m := m.setCur { m.cur with seq := seq, ack := ack, protoState := nextProtoState }
    let m ← if changeDirection then m.turnAround P else some m.sendAgain
    let payload ← m.getPayloadFromModel P
    return m.setCur { m.cur with
      payload := payload
      fwdMode := .firstCollect
      ingressIntf := none
      candidates := none
      injResults := none }

def accepted : Option Model :=
  match m.cur.protoState with
  | psTcpInit1 => m.phaseTransition P psTcpInit2 true
  | psTcpInit2 => m.phaseTransition P psTcpInit3 true
  | psTcpInit3 => m.phaseTransition P psTcpL7Req false
  | psTcpL7Req => m.phaseTransition P psTcpL7ReqA true
  | psTcpL7ReqA => m.phaseTransition P psTcpL7Rep false
  | psTcpL7Rep => m.phaseTransition P psTcpL7RepA true
  | psTcpL7RepA =>
    m.phaseTransition P psTcpTerm1 (!(P.network.node m.cur.pktLocation).isEmulated)
  | psTcpTerm1 => m.phaseTransition P psTcpTerm2 true
  | psTcpTerm2 => m.phaseTransition P psTcpTerm3 true
  | psUdpReq => m.phaseTransition P psUdpRep true
  | psIcmpEchoReq => m.phaseTransition P psIcmpEchoRep true
  | psTcpTerm3 | psUdpRep | psIcmpEchoRep => some (m.setCur { m.cur with executable := 0 })
  | _ => none

def setFlow (pkt : Packet) : Option Model := do
  let oldDstIpEc := m.cur.dstIpEc
  let dstIpEc ← P.ecs.findEc pkt.dstIp
  let m := m.setCur { m.cur with
    executable := 2
    protoState := pkt.protoState
    srcIp := pkt.srcIp
    dstIpEc := some dstIpEc
    srcPort := pkt.srcPort
    dstPort := pkt.dstPort
    seq := pkt.seq
    ack := pkt.ack
    payload := pkt.payload }
  -- the FIB is that of the class, and is kept where the class is
  if oldDstIpEc ≠ some dstIpEc then m.updateFib P else some m

def setPhase (mb : NodePtr) (pkt : Packet) : Model :=
  if pkt.isNew then
    -- a connection that the middlebox opens
    (m.setCur { m.cur with
      srcNode := mb
      txNode := mb
      rxNode := none
      pktLocation := mb
      fwdMode := .firstForward
      ingressIntf := none
      pathChoices := [] }).setNumConns (m.numConns + 1)
  else if pkt.nextPhase then
    if pkt.oppositeDir then
      -- an answer of the middlebox itself
      m.setCur { m.cur with srcNode := mb, fwdMode := .firstForward, ingressIntf := none }
    else
      m.setCur { m.cur with
        pktLocation := m.cur.srcNode
        fwdMode := .firstForward
        ingressIntf := none }
  else m.setCur { m.cur with fwdMode := .forwardPacket }

def setMbNextHop (mb : NodePtr) (pkt : Packet) : Option Model := do
  let intf ← pkt.intf
  let candidates := (P.network.getIpnh mb (P.network.intf intf).name pkt.dstIp).toList
  return (m.setCur { m.cur with candidates := some candidates }).setChoiceCount candidates.length

def receivePacket (mb : NodePtr) (st : Model × Bool × Bool) (pkt : Packet) :
    Option (Model × Bool × Bool) := do
  let (m, currentConnUpdated, otherConnsUpdated) := st
  if pkt.isEmpty then return st
  else
    let pkt ← pkt.identifyConn P m
    let pkt ← pkt.processProtoState m
    if pkt.protoState = psInvalid then return st
    else
      pkt.checkSeqAck m
      -- the connection of the packet is set for a while
      let m' ← (m.setConn pkt.conn).setFlow P pkt
      let m' ← (m'.setPhase mb pkt).setMbNextHop P mb pkt
      return (m'.setConn m.conn, currentConnUpdated || pkt.conn == m.conn,
        otherConnsUpdated || pkt.conn != m.conn)

def settleCurrent (mb : NodePtr) (explicitDrop currentConnUpdated otherConnsUpdated : Bool) :
    Option Model :=
  if !currentConnUpdated then
    -- no packet of the current connection was received
    if explicitDrop then some m.dropCur
    else if otherConnsUpdated then
      -- assume the injected packet is delivered
      some ((m.setCur { m.cur with
        executable := 2
        fwdMode := .forwardPacket
        candidates := some [.accept mb] }).setChoiceCount 1)
    else some m.dropCur
  else do
    let candidates ← m.cur.candidates
    if candidates.isEmpty then return m.dropCur
    else return m.setChoiceCount candidates.length

def updateModelFromInjectionResult (mb : NodePtr) (result : InjectionResult) : Option Model := do
  assert !(result.explicitDrop && !result.recvPkts.isEmpty)
  let (m, currentConnUpdated, otherConnsUpdated) ←
    result.recvPkts.foldlM (receivePacket P mb) (m, false, false)
  m.settleCurrent mb result.explicitDrop currentConnUpdated otherConnsUpdated

def chooseInjectionResults : Option Model := do
  let results ← m.cur.injResults
  let result ← results[m.choice]?
  m.updateModelFromInjectionResult P m.cur.pktLocation result

/-- `ForwardingProcess::exec_step`. -/
def execForwarding (results : List InjectionResult) : Option Model :=
  match m.cur.fwdMode with
  | .firstCollect => m.firstCollect P results
  | .firstForward => m.firstForward P
  | .collectNhops => m.collectNextHops P results
  | .chooseInjRes => m.chooseInjectionResults P
  | .forwardPacket => m.forwardPacket P
  | .accepted => m.accepted P
  | .dropped => some (m.setCur { m.cur with executable := 0 })

end Model

end Neo
