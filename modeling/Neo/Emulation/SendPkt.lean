import Neo.Frame
import Neo.Process.FlowTable

/-! How a packet is sent to an emulation and what is received is read: the offsets of sequence
numbers and ports that are not part of the model, the frames, and the segments of one message. -/

namespace Neo

/-- `EmuPktKey`, the other end of a connection of the emulation. -/
abbrev EmuPktKey := IPv4Address × BitVec 16

structure Offsets where
  seqOffsets : EmuPktKey → Option (BitVec 32)
  portOffsets : EmuPktKey → Option (BitVec 16)

namespace Offsets

variable (t : Topology) (mb : NodePtr)

def applyOffsets (o : Offsets) (pkt : Packet) : Packet :=
  if !pkt.protoState.isTcp then pkt
  else if !t.hasIp mb pkt.dstIp then pkt
  else
    let key : EmuPktKey := (pkt.srcIp, pkt.srcPort)
    { pkt with
      ack := pkt.ack + (o.seqOffsets key).getD 0
      dstPort := pkt.dstPort + (o.portOffsets key).getD 0 }

def dynamicPort : BitVec 16 := 49152

def updateSeq (o : Offsets) (pkt : Packet) : Offsets × Packet :=
  let key : EmuPktKey := (pkt.dstIp, pkt.dstPort)
  let flags := pkt.protoState &&& 0xf7ff
  if flags = Packet.thSyn ∨ flags = Packet.thSyn + Packet.thAck then
    ({ o with seqOffsets := Function.update o.seqOffsets key (some pkt.seq) },
      { pkt with seq := 0 })
  else (o, { pkt with seq := pkt.seq - (o.seqOffsets key).getD 0 })

def updatePort (o : Offsets) (pkt : Packet) : Offsets × Packet :=
  let key : EmuPktKey := (pkt.dstIp, pkt.dstPort)
  let flags := pkt.protoState &&& 0xf7ff
  if flags = Packet.thSyn then
    -- the port of the middlebox is learned from its SYN
    if 1024 ≤ pkt.srcPort then
      ({ o with
          portOffsets := Function.update o.portOffsets key (some (pkt.srcPort - dynamicPort)) },
        { pkt with srcPort := dynamicPort })
    else (o, pkt)
  else (o, { pkt with srcPort := pkt.srcPort - (o.portOffsets key).getD 0 })

/-- `update_offsets`, which leaves the loop at the first packet that does not matter. -/
def updateOffsets (o : Offsets) : List Packet → Offsets × List Packet
  | [] => (o, [])
  | pkt :: pkts =>
    -- both conditions leave the whole loop
    if !pkt.protoState.isTcp then (o, pkt :: pkts)
    else if !t.hasIp mb pkt.srcIp then (o, pkt :: pkts)
    else
      let (o, pkt) := o.updateSeq pkt
      let (o, pkt) := o.updatePort pkt
      let (o, pkts) := updateOffsets o pkts
      (o, pkt :: pkts)

end Offsets

namespace Net

open Packet

/-- `is_tcp_ack_or_psh_ack`, which asserts that the flags are not converted yet. -/
def isTcpAckOrPshAck (pkt : Packet) : Option Bool := do
  assert pkt.protoState.isFlags
  return pkt.protoState == 0x800 + thAck || pkt.protoState == 0x800 + (thPush + thAck)

def continues (lp p : Packet) : Option Bool := do
  if lp.srcIp = p.srcIp ∧ lp.dstIp = p.dstIp ∧ lp.srcPort = p.srcPort ∧ lp.dstPort = p.dstPort then
    if !(← isTcpAckOrPshAck lp) then return false
    else
      let ack ← isTcpAckOrPshAck p
      return ack && lp.seq.toNat + Payload.size lp.payload == p.seq.toNat && lp.ack == p.ack
  else return false

abbrev IntfPkts := List (Option IntfPtr × List Packet)

def addSegment (p : Packet) : IntfPkts → Option IntfPkts
  | [] => some [(p.intf, [p])]
  | (intf, pkts) :: rest =>
    if intf = p.intf then do
      match pkts.getLast? with
      | none => return (intf, [p]) :: rest
      | some lp =>
        -- a segment that continues the last one of its interface is joined to it
        if ← continues lp p then
          let payload := some (lp.payload.getD [] ++ p.payload.getD [])
          return (intf, pkts.dropLast ++ [{ lp with payload := payload }]) :: rest
        else return (intf, pkts ++ [p]) :: rest
    else (addSegment p rest).map ((intf, pkts) :: ·)

end Net

/-- What sending a packet does not determine: the frames libnet builds, the hash by which packets
that are sent again are known, and the order in which a hash map is visited. -/
structure SendEnv where
  libnet : Libnet
  hash : Packet → Nat
  order : Net.IntfPkts → Net.IntfPkts
  order_perm : ∀ l, (order l).Perm l

namespace SendEnv

variable (env : SendEnv)

def readPackets (frames : List (IntfPtr × Frame)) : Option (List Packet) := do
  let pkts ← frames.mapM fun (intf, frame) => do
    let pkt ← Net.deserialize (frame.take ethFrameLen)
    return if pkt.isEmpty then none else some { pkt with intf := some intf }
  return pkts.reduceOption

/-- The loop of `listen_packets` that removes the packets that were sent again. -/
def removeRetransmitted : List Nat → List Packet → List Packet
  | _, [] => []
  | seen, p :: pkts =>
    if env.hash p ∈ seen then removeRetransmitted seen pkts
    else p :: removeRetransmitted (env.hash p :: seen) pkts

def reassembleSegments (pkts : List Packet) : Option (List Packet) := do
  let intfPkts ← pkts.foldlM (fun intfPkts p => Net.addSegment p intfPkts) []
  return (env.order intfPkts).flatMap Prod.snd

/-- `send_pkt` to an emulation that answers a frame with frames at its interfaces, where no drop
is seen. -/
def sendPkt (t : Topology) (mb : NodePtr) (mac : IntfPtr → Mac) (o : Offsets)
    (answer : Frame → List (IntfPtr × Frame)) (pkt : Packet) :
    Option (InjectionResult × Offsets) := do
  let pkt := o.applyOffsets t mb pkt
  let intf ← pkt.intf
  let frame ← Net.serialize env.libnet pkt idEthAddr (mac intf)
  let pkts ← readPackets (answer frame)
  let pkts ← env.reassembleSegments (env.removeRetransmitted [] pkts)
  let (o, pkts) := o.updateOffsets t mb pkts
  return (⟨pkts, false⟩, o)

theorem intf_of_sendPkt {env : SendEnv} {t : Topology} {mb : NodePtr} {mac : IntfPtr → Mac}
    {o : Offsets} {answer : Frame → List (IntfPtr × Frame)} {pkt : Packet}
    {r : InjectionResult × Offsets} (h : env.sendPkt t mb mac o answer pkt = some r) :
    pkt.intf ≠ none := by
  have hintf : (o.applyOffsets t mb pkt).intf = pkt.intf := by
    unfold Offsets.applyOffsets
    split_ifs
    all_goals rfl
  simp only [sendPkt, Option.bind_eq_bind, Option.bind_eq_some_iff] at h
  obtain ⟨intf, hsome, -⟩ := h
  rw [← hintf, hsome]
  exact Option.some_ne_none _

end SendEnv

def ConnState.toPacket (c : ConnState) (conn : Nat) (dstIp : IPv4Address) : Packet where
  intf := c.ingressIntf
  srcIp := c.srcIp
  dstIp := dstIp
  srcPort := c.srcPort
  dstPort := c.dstPort
  seq := c.seq
  ack := c.ack
  protoState := c.protoState
  payload := c.payload
  conn := conn
  isNew := c.protoState.isFirst
  oppositeDir := false
  nextPhase := false

def Packet.ofModel (P : Plankton) (m : Model) : Option Packet := do
  let ec ← m.cur.dstIpEc
  let dstIp ← EqClass.representativeAddr (P.ecs.ranges ec)
  return m.cur.toPacket m.conn dstIp

end Neo
