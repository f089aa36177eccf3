import Neo.Model

/-! How a received packet is matched with the connections: which one it belongs to and in which
direction, and which state of the protocol it carries. Assertions abort. -/

namespace Neo

def assert (p : Bool) : Option Unit := if p then some () else none

namespace EqClass

def contains (ec : EqClass) (addr : IPv4Address) : Bool :=
  ec.any fun range => addr ∈ range.toIPRange

end EqClass

namespace Packet

/-- `packet_belongs_to_connection`: whether the direction is the same, where it belongs. -/
def belongsToConnection (P : Plankton) (pkt : Packet) (m : Model) (conn : Nat) :
    Option (Option Bool) := do
  let c := m.connState conn
  let ecPtr ← c.dstIpEc
  let ec : EqClass := P.ecs.ranges ecPtr
  let pktProtocol : Proto := pkt.protoState.toProto
  let connProtocol : Proto := c.protoState.toProto
  -- the destination is known by its class only
  if pkt.srcIp = c.srcIp ∧ ec.contains pkt.dstIp ∧ pkt.srcPort = c.srcPort ∧
      pkt.dstPort = c.dstPort ∧ pktProtocol = connProtocol then
    return some true
  else if pkt.dstIp = c.srcIp ∧ ec.contains pkt.srcIp ∧ pkt.dstPort = c.srcPort ∧
      pkt.srcPort = c.dstPort ∧ pktProtocol = connProtocol then
    return some false
  else
    return none

/-- The loop of `identify_conn` over the connections. -/
def findConn (P : Plankton) (pkt : Packet) (m : Model) : List Nat → Option (Option (Nat × Bool))
  | [] => some none
  | conn :: rest => do
    if conn = m.conn then
      findConn P pkt m rest
    else
      match ← pkt.belongsToConnection P m conn with
      | some sameDirection => return some (conn, sameDirection)
      | none => findConn P pkt m rest

def maxConns : Nat := 32

def identifyConn (P : Plankton) (m : Model) (pkt : Packet) : Option Packet := do
  match ← pkt.belongsToConnection P m m.conn with
  | some sameDirection =>
    return { pkt with isNew := false, oppositeDir := !sameDirection, conn := m.conn }
  | none =>
    -- the other connections, in order
    match ← findConn P pkt m (List.range m.numConns) with
    | some (conn, sameDirection) =>
      return { pkt with isNew := false, oppositeDir := !sameDirection, conn := conn }
    | none =>
      assert (m.numConns < maxConns)
      return { pkt with isNew := true, oppositeDir := false, conn := m.numConns }

def thFin : Nat := 0x01
def thSyn : Nat := 0x02
def thPush : Nat := 0x08
def thAck : Nat := 0x10

def convertAck (pkt : Packet) (oldProtoState : ProtoState) : Option ProtoState :=
  let payloadlen := Payload.size pkt.payload
  match oldProtoState with
  | psTcpInit2 | psTcpTerm2 => do
    assert pkt.oppositeDir
    return oldProtoState + 1
  | psTcpInit3 | psTcpL7ReqA => do
    assert !pkt.oppositeDir
    return if payloadlen = 0 then oldProtoState else oldProtoState + 1
  | psTcpL7Req =>
    -- an acknowledgement alone, or one with data that answers or repeats
    if payloadlen = 0 then do
      assert pkt.oppositeDir
      return oldProtoState + 1
    else if pkt.oppositeDir then some (oldProtoState + 2) else some oldProtoState
  | psTcpL7Rep =>
    if payloadlen = 0 then do
      assert pkt.oppositeDir
      return oldProtoState + 1
    else do
      assert !pkt.oppositeDir
      return oldProtoState
  | psTcpL7RepA | psTcpTerm3 => do
    assert (payloadlen = 0)
    assert !pkt.oppositeDir
    return oldProtoState
  | _ => none

def convertFin (pkt : Packet) (oldProtoState : ProtoState) : Option ProtoState :=
  match oldProtoState with
  | psTcpInit3 | psTcpL7ReqA | psTcpL7RepA => some psTcpTerm1
  | psTcpTerm1 => some (if pkt.oppositeDir then psTcpTerm2 else oldProtoState)
  | psTcpTerm2 => do
    assert !pkt.oppositeDir
    return oldProtoState
  | _ => none

def convertFlags (pkt : Packet) (flags : Nat) (oldProtoState : ProtoState) : Option ProtoState :=
  if flags = thSyn then some psTcpInit1
  else if flags = thSyn + thAck then some psTcpInit2
  else if flags = thAck ∨ flags = thPush + thAck then pkt.convertAck oldProtoState
  else if flags = thFin + thAck then pkt.convertFin oldProtoState
  else none

def convertProtoState (pkt : Packet) (oldProtoState : ProtoState) : Option Packet :=
  if pkt.protoState.isFlags then do
    let flags := pkt.protoState - 0x800
    assert (!pkt.isNew || flags == thSyn)
    let protoState ← pkt.convertFlags flags oldProtoState
    return { pkt with protoState := protoState }
  else if pkt.protoState.isUdp then
    if pkt.isNew then some { pkt with protoState := psUdpReq }
    else if pkt.oppositeDir then do
      assert (oldProtoState + 1 == psUdpRep)
      return { pkt with protoState := oldProtoState + 1 }
    else some { pkt with protoState := oldProtoState }
  else if pkt.protoState.isIcmpEcho then do
    assert (!pkt.isNew || pkt.protoState == psIcmpEchoReq)
    return pkt
  else some pkt

def processProtoState (m : Model) (pkt : Packet) : Option Packet := do
  let oldProtoState := (m.connState pkt.conn).protoState
  let pkt ← pkt.convertProtoState oldProtoState
  if pkt.isNew then
    assert pkt.protoState.isFirst
    return { pkt with nextPhase := false }
  else if pkt.protoState = oldProtoState then
    return { pkt with nextPhase := false }
  else if pkt.protoState > oldProtoState then
    return { pkt with nextPhase := true }
  else
    -- an old packet
    return { pkt with protoState := psInvalid }

def seqAfter (protoState : ProtoState) (payload : Option Payload) (seq : BitVec 32) : BitVec 32 :=
  if Payload.size payload > 0 then seq + BitVec.ofNat 32 (Payload.size payload)
  else if protoState.hasSyn || protoState.hasFin then seq + 1
  else seq

def checkSeqAck (m : Model) (pkt : Packet) : Option Unit :=
  if !pkt.protoState.isTcp then some ()
  else
    let c := m.connState pkt.conn
    if pkt.isNew then
      assert (pkt.seq == 0 && pkt.ack == 0)
    else if pkt.nextPhase then
      let oldSeq := seqAfter c.protoState c.payload c.seq
      if pkt.oppositeDir then assert (pkt.seq == c.ack && pkt.ack == oldSeq)
      else assert (pkt.seq == oldSeq && pkt.ack == c.ack)
    else
      assert (pkt.seq == c.seq && pkt.ack == c.ack && pkt.payload == c.payload)

end Packet

end Neo
