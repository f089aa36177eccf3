import Neo.FrameBounds

/-! Two detectors of dropped packets. The monitor decodes the frame and compares headers; the filter
compares what the kernel has of the packet with the data of the target. -/

namespace Neo

open Bytes Net

namespace Packet

def sameFlowAs (pkt other : Packet) : Bool :=
  pkt.srcIp == other.srcIp && pkt.dstIp == other.dstIp && pkt.srcPort == other.srcPort &&
    pkt.dstPort == other.dstPort && pkt.protoState.toProto == other.protoState.toProto

def sameHeader (pkt other : Packet) : Bool :=
  pkt.sameFlowAs other && pkt.seq == other.seq && pkt.ack == other.ack

end Packet

def htons (x : BitVec 16) : List Byte := ofBitVec 2 x

def htonl (x : BitVec 32) : List Byte := ofBitVec 4 x

structure Place where
  ifindex : BitVec 32
  netnsIno : BitVec 32

/-- What the filter compares, with numbers in network order as they are in memory. -/
structure DropData where
  ingressIfindex : BitVec 32 := 0
  netnsIno : BitVec 32 := 0
  ethProto : List Byte
  ipProto : List Byte := [0]
  saddr : List Byte
  daddr : List Byte
  sport : List Byte := htons 0
  dport : List Byte := htons 0
  seq : List Byte := htonl 0
  ack : List Byte := htonl 0
  icmpType : List Byte := [0]
  icmpEchoId : List Byte := htons 0
  icmpEchoSeq : List Byte := htons 0

namespace Packet

def icmpType (pkt : Packet) : BitVec 8 :=
  if pkt.protoState = psIcmpEchoReq then icmpEcho else icmpEchoReply

def icmpEchoId : BitVec 16 := 42

/-- `to_drop_data`. The place is known where the packet is injected into a container. -/
def toDropData (pkt : Packet) (place : Option Place) : DropData :=
  let data : DropData := {
    ingressIfindex := (place.map Place.ifindex).getD 0
    netnsIno := (place.map Place.netnsIno).getD 0
    ethProto := htons ethertypeIp
    saddr := htonl pkt.srcIp
    daddr := htonl pkt.dstIp }
  match pkt.protoState.toProto with
  | .tcp => { data with
      ipProto := [ipprotoTcp]
      sport := htons pkt.srcPort
      dport := htons pkt.dstPort
      seq := htonl pkt.seq
      ack := htonl pkt.ack }
  | .udp => { data with
      ipProto := [ipprotoUdp]
      sport := htons pkt.srcPort
      dport := htons pkt.dstPort
      seq := htonl 0
      ack := htonl 0 }
  | .icmpEcho => { data with
      ipProto := [ipprotoIcmp]
      icmpType := [pkt.icmpType]
      icmpEchoId := htons icmpEchoId
      icmpEchoSeq := htons 0 }

end Packet

/-- What the kernel has of a packet: the memory, the offsets of the headers in it, and the
namespaces of the device, of the socket and of the device of the route. -/
structure Skb where
  len : Nat
  skbIif : BitVec 32
  devNet : Option (BitVec 32)
  sockNet : Option (BitVec 32)
  dstNet : Option (BitVec 32)
  head : Nat → Byte
  macHeader : BitVec 16
  networkHeader : BitVec 16
  transportHeader : BitVec 16

namespace Skb

variable (skb : Skb)

def unset : BitVec 16 := 0xFFFF

def netnsIno : BitVec 32 := (skb.devNet <|> skb.sockNet <|> skb.dstNet).getD 0

def read (offset n : Nat) : List Byte := (List.range n).map fun i => skb.head (offset + i)

def readMac (offset n : Nat) : List Byte := skb.read (skb.macHeader.toNat + offset) n

def readNetwork (offset n : Nat) : List Byte := skb.read (skb.networkHeader.toNat + offset) n

def readTransport (offset n : Nat) : List Byte := skb.read (skb.transportHeader.toNat + offset) n

variable (target : DropData)

def matchesL1 : Bool :=
  skb.skbIif ≠ 0 && skb.netnsIno ≠ 0 &&
    !(target.ingressIfindex ≠ 0 && target.netnsIno ≠ 0 &&
      (skb.skbIif ≠ target.ingressIfindex || skb.netnsIno ≠ target.netnsIno))

def matchesL2 : Bool :=
  skb.macHeader ≠ unset && skb.readMac 12 2 == target.ethProto &&
    (skb.readMac 0 6 == idEthAddr.toList || skb.readMac 6 6 == idEthAddr.toList)

def matchesL3 : Bool :=
  skb.transportHeader ≠ skb.networkHeader && skb.readNetwork 9 1 == target.ipProto &&
    skb.readNetwork 12 4 == target.saddr && skb.readNetwork 16 4 == target.daddr

def matchesL4 : Bool :=
  if skb.transportHeader ≠ unset then
    if skb.readNetwork 9 1 = [ipprotoTcp] then
      skb.readTransport 0 2 == target.sport && skb.readTransport 2 2 == target.dport &&
        skb.readTransport 4 4 == target.seq && skb.readTransport 8 4 == target.ack
    else if skb.readNetwork 9 1 = [ipprotoUdp] then
      skb.readTransport 0 2 == target.sport && skb.readTransport 2 2 == target.dport &&
        htonl 0 == target.seq && htonl 0 == target.ack
    else if skb.readNetwork 9 1 = [ipprotoIcmp] then
      let icmpType := skb.readTransport 0 1
      (icmpType == [icmpEchoReply] || icmpType == [icmpEcho]) && icmpType == target.icmpType &&
        skb.readTransport 4 2 == target.icmpEchoId && skb.readTransport 6 2 == target.icmpEchoSeq
    else false
  -- there is no other branch: without the offset nothing of the transport header is compared
  else true

/-- `tracepoint__kfree_skb`, where the ring buffer has room: whether the event is submitted. -/
def accepted : Bool :=
  skb.len ≠ 0 && skb.matchesL1 target && skb.matchesL2 target && skb.matchesL3 target &&
    skb.matchesL4 target

end Skb

namespace Buffer

open Packet

variable (b : Buffer) (pkt : Packet)

/-- `listen_msgs`: whether a dropped frame is taken for the packet. -/
def monitored : Bool := b.deserialize.1.sameHeader pkt

def transportOffset : Nat := 14 + 4 * ((b.word 14 1).toNat % 16)

structure HasTransport : Prop where
  relevant : IsRelevant b.frame
  ethertype : b.word 12 2 = ethertypeIp
  options : 34 ≤ b.transportOffset
  proto : b.word 23 1 = ipprotoTcp ∧ b.transportOffset + 20 ≤ b.buflen ∨
    b.word 23 1 = ipprotoUdp ∧ b.transportOffset + 8 ≤ b.buflen ∨
    b.word 23 1 = ipprotoIcmp ∧ b.transportOffset + 8 ≤ b.buflen ∧
      (b.word b.transportOffset 1 = icmpEcho ∨ b.word b.transportOffset 1 = icmpEchoReply)

end Buffer

/-- The frame is dropped where the packet comes in, and the kernel has it as it is. -/
structure Skb.Drops (skb : Skb) (b : Buffer) (place : Option Place) : Prop where
  frame : b.HasTransport
  iif : skb.skbIif ≠ 0
  netns : skb.netnsIno ≠ 0
  place : ∀ p ∈ place, skb.skbIif = p.ifindex ∧ skb.netnsIno = p.netnsIno
  room : skb.macHeader.toNat + b.buflen < Skb.unset.toNat
  network : skb.networkHeader.toNat = skb.macHeader.toNat + 14
  transport : skb.transportHeader ≠ Skb.unset →
    skb.transportHeader.toNat = skb.macHeader.toNat + b.transportOffset
  memory : ∀ i < b.buflen, skb.head (skb.macHeader.toNat + i) = b.byte i

def Proto.number : Proto → BitVec 8
  | .tcp => ipprotoTcp
  | .udp => ipprotoUdp
  | .icmpEcho => ipprotoIcmp

namespace Buffer

open Packet

variable (b : Buffer) (pkt : Packet)

def SameAddresses : Prop :=
  b.word 26 4 = pkt.srcIp ∧ b.word 30 4 = pkt.dstIp ∧ b.word 23 1 = pkt.protoState.toProto.number

def SamePorts (offset : Nat) : Prop :=
  b.word offset 2 = pkt.srcPort ∧ b.word (offset + 2) 2 = pkt.dstPort

def SameNumbers (offset : Nat) : Prop :=
  b.word (offset + 4) 4 = pkt.seq ∧ b.word (offset + 8) 4 = pkt.ack

def SameTransport : Prop :=
  match pkt.protoState.toProto with
  | .tcp => b.SamePorts pkt b.transportOffset ∧ b.SameNumbers pkt b.transportOffset
  | .udp => b.SamePorts pkt b.transportOffset
  | .icmpEcho => b.word b.transportOffset 1 = pkt.icmpType ∧
      b.word (b.transportOffset + 4) 2 = icmpEchoId

def SameEchoSeq : Prop :=
  pkt.protoState.toProto = .icmpEcho → b.word (b.transportOffset + 6) 2 = (0 : BitVec 16)

/-- What the monitor sees. It looks for the transport header behind an IPv4 header without options,
has zeros for what the protocol lacks, and nothing but zeros for what is not an echo message. -/
def SeenAs : Prop :=
  match pkt.protoState.toProto with
  | .tcp => b.SameAddresses pkt ∧ b.SamePorts pkt 34 ∧ b.SameNumbers pkt 34
  | .udp => b.SameAddresses pkt ∧ b.SamePorts pkt 34 ∧ pkt.seq = 0 ∧ pkt.ack = 0
  | .icmpEcho => b.word 23 1 = ipprotoIcmp ∧
      (if b.word 34 1 = icmpEcho ∨ b.word 34 1 = icmpEchoReply then b.SameAddresses pkt
        else pkt.srcIp = 0 ∧ pkt.dstIp = 0) ∧
      pkt.srcPort = 0 ∧ pkt.dstPort = 0 ∧ pkt.seq = 0 ∧ pkt.ack = 0

/-- The monitor sees the packet, and the filter sees it, where the headers agree; neither sees
it where they do not. -/
def SeenAlike (skb : Skb) : Prop :=
  (b.SameAddresses pkt ∧ b.SameTransport pkt ∧
    (b.SeenAs pkt ↔ 0 < skb.len ∧ (skb.transportHeader ≠ Skb.unset → b.SameEchoSeq pkt))) ∨
  (b.SameAddresses pkt ∧ ¬b.SameTransport pkt ∧ ¬b.SeenAs pkt ∧
    (skb.len = 0 ∨ skb.transportHeader ≠ Skb.unset)) ∨
  (¬b.SameAddresses pkt ∧ ¬b.SeenAs pkt)

/-- Both detectors recognise the frame or neither does, and only one that has the header. -/
structure Recognised (skb : Skb) (place : Option Place) : Prop where
  agree : b.monitored pkt = true ↔ skb.accepted (pkt.toDropData place) = true
  same : b.monitored pkt = true ∨ skb.accepted (pkt.toDropData place) = true →
    b.SameAddresses pkt ∧ b.SameTransport pkt

variable {b : Buffer} {pkt : Packet}

/-! ### The monitor -/

theorem sameHeader_iff {p q : Packet} : p.sameHeader q = true ↔
    p.srcIp = q.srcIp ∧ p.dstIp = q.dstIp ∧ p.srcPort = q.srcPort ∧ p.dstPort = q.dstPort ∧
      p.protoState.toProto = q.protoState.toProto ∧ p.seq = q.seq ∧ p.ack = q.ack := by
  simp only [sameHeader, sameFlowAs, Bool.and_eq_true, beq_iff_eq]
  tauto

theorem toProto_of_flags (flags : Nat) : ProtoState.toProto (flags ||| 0x800) = .tcp := by
  have hand : (flags ||| 0x800) &&& 0x800 ≠ 0 := by
    rw [Nat.and_or_distrib_right]
    intro h
    exact absurd (Nat.or_eq_zero_iff.mp h).2 (by decide)
  simp [ProtoState.toProto, ProtoState.isTcp, ProtoState.isFlags, hand]

theorem buflen_of_hasTransport (h : b.HasTransport) : 42 ≤ b.buflen := by
  have hoptions := h.options
  rcases h.proto with ⟨-, hle⟩ | ⟨-, hle⟩ | ⟨-, hle, -⟩ <;> omega

theorem deserialize_of_hasTransport (h : b.HasTransport) :
    b.deserialize.1 = b.deserializeIp.1 := by
  have hlen := buflen_of_hasTransport h
  have hmacs := (readMacs_eq (b := b) (by omega)).1.mpr h.relevant
  simp only [deserialize, hmacs, h.ethertype, if_true]

theorem monitored_tcp (h : b.HasTransport) (hproto : b.word 23 1 = ipprotoTcp) :
    b.monitored pkt = true ↔ pkt.protoState.toProto = .tcp ∧ b.word 26 4 = pkt.srcIp ∧
      b.word 30 4 = pkt.dstIp ∧ b.SamePorts pkt 34 ∧ b.SameNumbers pkt 34 := by
  rw [monitored, deserialize_of_hasTransport h, sameHeader_iff]
  simp only [deserializeIp, hproto, if_true, deserializeTcp, toProto_of_flags, SamePorts,
    SameNumbers]
  tauto

theorem monitored_udp (h : b.HasTransport) (hproto : b.word 23 1 = ipprotoUdp) :
    b.monitored pkt = true ↔ pkt.protoState.toProto = .udp ∧ b.word 26 4 = pkt.srcIp ∧
      b.word 30 4 = pkt.dstIp ∧ b.SamePorts pkt 34 ∧ pkt.seq = 0 ∧ pkt.ack = 0 := by
  have htcp : ipprotoUdp ≠ ipprotoTcp := by decide
  have hudp : ProtoState.toProto psUdpReq = .udp := by decide
  rw [monitored, deserialize_of_hasTransport h, sameHeader_iff]
  simp only [deserializeIp, hproto, htcp, if_true, if_false, deserializeUdp, hudp, cleared,
    SamePorts]
  tauto

theorem monitored_icmp (h : b.HasTransport) (hproto : b.word 23 1 = ipprotoIcmp) :
    b.monitored pkt = true ↔ pkt.protoState.toProto = .icmpEcho ∧
      (if b.word 34 1 = icmpEcho ∨ b.word 34 1 = icmpEchoReply then
        b.word 26 4 = pkt.srcIp ∧ b.word 30 4 = pkt.dstIp else pkt.srcIp = 0 ∧ pkt.dstIp = 0) ∧
      pkt.srcPort = 0 ∧ pkt.dstPort = 0 ∧ pkt.seq = 0 ∧ pkt.ack = 0 := by
  have htcp : ipprotoIcmp ≠ ipprotoTcp := by decide
  have hudp : ipprotoIcmp ≠ ipprotoUdp := by decide
  have hreq : ProtoState.toProto psIcmpEchoReq = .icmpEcho := by decide
  have hrep : ProtoState.toProto psIcmpEchoRep = .icmpEcho := by decide
  have hnone : ProtoState.toProto 0 = .icmpEcho := by decide
  rw [monitored, deserialize_of_hasTransport h, sameHeader_iff]
  simp only [deserializeIp, hproto, htcp, hudp, if_true, if_false, deserializeIcmp]
  by_cases hecho : b.word 34 1 = icmpEcho
  · simp only [hecho, if_true, true_or, hreq, cleared]
    tauto
  · by_cases hreply : b.word 34 1 = icmpEchoReply
    · have hne : icmpEchoReply ≠ icmpEcho := by decide
      simp only [hreply, hne, if_true, if_false, or_true, hrep, cleared]
      tauto
    · simp only [hecho, hreply, if_false, or_self, hnone, cleared]
      tauto

theorem monitored_iff (h : b.HasTransport) : b.monitored pkt = true ↔ b.SeenAs pkt := by
  have hne : ipprotoTcp ≠ ipprotoUdp ∧ ipprotoTcp ≠ ipprotoIcmp ∧ ipprotoUdp ≠ ipprotoIcmp := by
    decide
  obtain ⟨htu, hti, hui⟩ := hne
  rcases h.proto with ⟨hp, -⟩ | ⟨hp, -⟩ | ⟨hp, -⟩
  · rw [monitored_tcp h hp]
    cases hproto : pkt.protoState.toProto <;>
      simp [SeenAs, SameAddresses, hproto, hp, Proto.number, htu, hti, and_assoc]
  · rw [monitored_udp h hp]
    cases hproto : pkt.protoState.toProto <;>
      simp [SeenAs, SameAddresses, hproto, hp, Proto.number, htu.symm, hui, and_assoc]
  · rw [monitored_icmp h hp]
    cases hproto : pkt.protoState.toProto <;>
      simp [SeenAs, SameAddresses, hproto, hp, Proto.number, hti.symm, hui.symm]

/-! ### The filter -/

variable {skb : Skb} {place : Option Place}

theorem read_eq_bytes (h : skb.Drops b place) {offset n : Nat} (hle : offset + n ≤ b.buflen) :
    skb.read (skb.macHeader.toNat + offset) n = b.bytes offset n := by
  apply List.map_congr_left
  intro i hi
  rw [Nat.add_assoc]
  exact h.memory _ (by have := List.mem_range.mp hi; omega)

theorem bytes_beq {offset n : Nat} (x : BitVec (8 * n)) :
    b.bytes offset n = ofBitVec n x ↔ b.word offset n = x := by
  have hlen : (b.bytes offset n).length = n := by
    rw [bytes, List.length_map, List.length_range]
  have hiff := eq_ofBitVec_iff (l := b.bytes offset n) (w := 8 * n) (by rw [hlen]) x
  rwa [hlen] at hiff

theorem bytes_singleton {offset : Nat} (x : BitVec 8) :
    b.bytes offset 1 = [x] ↔ b.word offset 1 = x := by
  have hx : ofBitVec 1 x = [x] := by
    simp [ofBitVec, toBytes]
  rw [← hx]
  exact bytes_beq (n := 1) x

theorem readMac_eq (h : skb.Drops b place) {offset n : Nat} (hle : offset + n ≤ b.buflen) :
    skb.readMac offset n = b.bytes offset n := read_eq_bytes h hle

theorem readNetwork_eq (h : skb.Drops b place) {offset n : Nat} (hle : 14 + offset + n ≤ b.buflen) :
    skb.readNetwork offset n = b.bytes (14 + offset) n := by
  rw [Skb.readNetwork, h.network, Nat.add_assoc]
  exact read_eq_bytes h hle

theorem readTransport_eq (h : skb.Drops b place) (hset : skb.transportHeader ≠ Skb.unset)
    {offset n : Nat} (hle : b.transportOffset + offset + n ≤ b.buflen) :
    skb.readTransport offset n = b.bytes (b.transportOffset + offset) n := by
  rw [Skb.readTransport, h.transport hset, Nat.add_assoc]
  exact read_eq_bytes h hle

theorem toDropData_place (pkt : Packet) (place : Option Place) :
    (pkt.toDropData place).ingressIfindex = (place.map Place.ifindex).getD 0 ∧
      (pkt.toDropData place).netnsIno = (place.map Place.netnsIno).getD 0 := by
  rw [toDropData]
  cases pkt.protoState.toProto <;> exact ⟨rfl, rfl⟩

theorem toDropData_ip (pkt : Packet) (place : Option Place) :
    (pkt.toDropData place).ethProto = htons ethertypeIp ∧
      (pkt.toDropData place).saddr = htonl pkt.srcIp ∧
      (pkt.toDropData place).daddr = htonl pkt.dstIp ∧
      (pkt.toDropData place).ipProto = [pkt.protoState.toProto.number] := by
  rw [toDropData]
  cases pkt.protoState.toProto <;> exact ⟨rfl, rfl, rfl, rfl⟩

theorem matchesL1_of_drops (h : skb.Drops b place) :
    skb.matchesL1 (pkt.toDropData place) = true := by
  obtain ⟨hifindex, hnetns⟩ := toDropData_place pkt place
  have hiif : decide (skb.skbIif ≠ 0) = true := decide_eq_true h.iif
  have hns : decide (skb.netnsIno ≠ 0) = true := decide_eq_true h.netns
  rw [Skb.matchesL1, hifindex, hnetns, hiif, hns]
  cases hplace : place with
  | none => simp
  | some p =>
    obtain ⟨hi, hn⟩ := h.place p (by rw [hplace]; rfl)
    simp [← hi, ← hn]

theorem matchesL2_of_drops (h : skb.Drops b place) :
    skb.matchesL2 (pkt.toDropData place) = true := by
  have hlen := buflen_of_hasTransport h.frame
  have hmac : skb.macHeader ≠ Skb.unset := by
    intro hunset
    have hroom := h.room
    rw [hunset] at hroom
    omega
  have htype : b.bytes 12 2 = htons ethertypeIp := (bytes_beq _).mpr h.frame.ethertype
  have hdst : b.bytes 0 6 = slice b.frame 0 6 := bytes_eq (by omega)
  have hsrc : b.bytes 6 6 = slice b.frame 6 6 := bytes_eq (by omega)
  rw [Skb.matchesL2, readMac_eq h (by omega), readMac_eq h (by omega), readMac_eq h (by omega),
    (toDropData_ip pkt place).1, htype, hdst, hsrc]
  simpa [hmac, IsRelevant] using h.frame.relevant

theorem matchesL3_iff (h : skb.Drops b place) :
    skb.matchesL3 (pkt.toDropData place) = true ↔ b.SameAddresses pkt := by
  have hlen := buflen_of_hasTransport h.frame
  have hheader : skb.transportHeader ≠ skb.networkHeader := by
    intro heq
    have hnetwork := h.network
    have hroom := h.room
    have hoptions := h.frame.options
    by_cases hset : skb.transportHeader = Skb.unset
    · rw [← heq, hset] at hnetwork
      omega
    · have htransport := h.transport hset
      rw [heq] at htransport
      omega
  obtain ⟨-, hsaddr, hdaddr, hproto⟩ := toDropData_ip pkt place
  rw [Skb.matchesL3, readNetwork_eq h (by omega), readNetwork_eq h (by omega),
    readNetwork_eq h (by omega), hsaddr, hdaddr, hproto]
  simp only [hheader, ne_eq, not_false_eq_true, decide_true, Bool.true_and, Bool.and_eq_true,
    beq_iff_eq, htonl, bytes_beq, bytes_singleton, SameAddresses]
  tauto

theorem room_tcp (h : b.HasTransport) (hproto : b.word 23 1 = ipprotoTcp) :
    b.transportOffset + 20 ≤ b.buflen := by
  rcases h.proto with ⟨-, hle⟩ | ⟨hp, -⟩ | ⟨hp, -⟩
  · exact hle
  · exact absurd (hproto.symm.trans hp) (by decide)
  · exact absurd (hproto.symm.trans hp) (by decide)

theorem room (h : b.HasTransport) : b.transportOffset + 8 ≤ b.buflen := by
  rcases h.proto with ⟨-, hle⟩ | ⟨-, hle⟩ | ⟨-, hle, -⟩ <;> omega

theorem echo_of_icmp (h : b.HasTransport) (hproto : b.word 23 1 = ipprotoIcmp) :
    b.bytes b.transportOffset 1 = [icmpEchoReply] ∨ b.bytes b.transportOffset 1 = [icmpEcho] := by
  simp only [bytes_singleton]
  rcases h.proto with ⟨hp, -⟩ | ⟨hp, -⟩ | ⟨-, -, htype⟩
  · exact absurd (hproto.symm.trans hp) (by decide)
  · exact absurd (hproto.symm.trans hp) (by decide)
  · exact htype.symm

theorem matchesL4_iff (h : skb.Drops b place) (hsame : b.SameAddresses pkt) :
    skb.matchesL4 (pkt.toDropData place) = true ↔
      (skb.transportHeader ≠ Skb.unset → b.SameTransport pkt ∧ b.SameEchoSeq pkt) := by
  have hlen := buflen_of_hasTransport h.frame
  have hroom := room h.frame
  rw [Skb.matchesL4]
  by_cases hset : skb.transportHeader = Skb.unset
  · simp [hset]
  -- where the transport header is set, the kernel reads the bytes of the frame
  have hread : ∀ {offset n : Nat}, b.transportOffset + offset + n ≤ b.buflen →
      skb.readTransport offset n = b.bytes (b.transportOffset + offset) n :=
    readTransport_eq h hset
  have hnumber := hsame.2.2
  have hnetwork : skb.readNetwork 9 1 = [pkt.protoState.toProto.number] := by
    rw [readNetwork_eq h (by omega), (bytes_singleton _).mpr hnumber]
  have hne : ipprotoUdp ≠ ipprotoTcp ∧ ipprotoIcmp ≠ ipprotoTcp ∧ ipprotoIcmp ≠ ipprotoUdp := by
    decide
  rw [if_pos hset, hnetwork]
  cases hproto : pkt.protoState.toProto with
  | tcp =>
    rw [hproto] at hnumber
    have hroom := room_tcp h.frame hnumber
    rw [hread (by omega), hread (by omega), hread (by omega), hread (by omega)]
    simp [Proto.number, toDropData, hproto, htons, htonl, bytes_beq, SameTransport, SamePorts,
      SameNumbers, SameEchoSeq, hset, and_assoc]
  | udp =>
    rw [hread (by omega), hread (by omega)]
    simp [Proto.number, toDropData, hproto, htons, bytes_beq, SameTransport, SamePorts,
      SameEchoSeq, hset, hne]
  | icmpEcho =>
    rw [hproto] at hnumber
    have hecho := echo_of_icmp h.frame hnumber
    have htype : skb.readTransport 0 1 = b.bytes b.transportOffset 1 := hread (by omega)
    have hid : skb.readTransport 4 2 = b.bytes (b.transportOffset + 4) 2 := hread (by omega)
    have hseq : skb.readTransport 6 2 = b.bytes (b.transportOffset + 6) 2 := hread (by omega)
    rw [← htype] at hecho
    have hsame : skb.readTransport 0 1 = [pkt.icmpType] ↔
        b.word b.transportOffset 1 = pkt.icmpType := by
      rw [htype, bytes_singleton]
    simp [Proto.number, toDropData, hproto, htons, bytes_beq, SameTransport, SameEchoSeq, hset,
      hne, hecho, hsame, hid, hseq, and_assoc]

theorem accepted_iff (h : skb.Drops b place) :
    skb.accepted (pkt.toDropData place) = true ↔ 0 < skb.len ∧ b.SameAddresses pkt ∧
      (skb.transportHeader ≠ Skb.unset → b.SameTransport pkt ∧ b.SameEchoSeq pkt) := by
  rw [Skb.accepted, matchesL1_of_drops h, matchesL2_of_drops h]
  simp only [Bool.and_eq_true, and_true, decide_eq_true_eq, ne_eq, Nat.pos_iff_ne_zero, and_assoc]
  constructor
  · rintro ⟨hlen, hthree, hfour⟩
    have hsame := (matchesL3_iff h).mp hthree
    exact ⟨hlen, hsame, (matchesL4_iff h hsame).mp hfour⟩
  · rintro ⟨hlen, hsame, hset⟩
    exact ⟨hlen, (matchesL3_iff h).mpr hsame, (matchesL4_iff h hsame).mpr hset⟩

/-! ### The condition -/

theorem seen_iff_accepted {seen ip transport seq set : Prop} {len : Nat} :
    (seen ↔ 0 < len ∧ ip ∧ (set → transport ∧ seq)) ∧
        (seen ∨ 0 < len ∧ ip ∧ (set → transport ∧ seq) → ip ∧ transport) ↔
      ip ∧ transport ∧ (seen ↔ 0 < len ∧ (set → seq)) ∨
        ip ∧ ¬transport ∧ ¬seen ∧ (len = 0 ∨ set) ∨ ¬ip ∧ ¬seen := by
  by_cases hip : ip
  · by_cases ht : transport
    · simp [hip, ht]
    · by_cases hset : set
      · simp [hip, ht, hset]
      · rcases Nat.eq_zero_or_pos len with rfl | hpos
        · simp [hip, ht, hset]
        · simp [hip, ht, hset, hpos, hpos.ne']
  · simp [hip]

def echoReply : Buffer :=
  ⟨[2, 0, 0, 0, 0, 1] ++ idEthAddr.toList ++ [8, 0] ++
    [0x45, 0, 0, 28, 0, 0, 0, 0, 64, 1, 0, 0, 10, 0, 0, 1, 10, 0, 0, 2] ++
    [0, 0, 0, 0, 0, 42, 0, 0], fun _ => 0⟩

def echoRequest : Packet :=
  { cleared with srcIp := 0x0A000001, dstIp := 0x0A000002, protoState := psIcmpEchoReq }

def echoSkb : Skb where
  len := 28
  skbIif := 2
  devNet := some 7
  sockNet := none
  dstNet := none
  head := echoReply.byte
  macHeader := 0
  networkHeader := 14
  transportHeader := 34

theorem echoSkb_drops : echoSkb.Drops echoReply none where
  frame := ⟨.inr rfl, by decide, by decide, .inr (.inr ⟨by decide, by decide, .inr (by decide)⟩)⟩
  iif := by decide
  netns := by decide
  place := by simp
  room := by decide
  network := rfl
  transport := fun _ => by decide
  memory := fun i _ => by rw [show echoSkb.macHeader.toNat = 0 from rfl, Nat.zero_add]; rfl

def segmentSkb : Skb :=
  { echoSkb with len := 42, head := segment.byte, transportHeader := Skb.unset }

theorem segmentSkb_drops : segmentSkb.Drops segment none where
  frame := ⟨.inr rfl, by decide, by decide, .inl ⟨by decide, by decide⟩⟩
  iif := by decide
  netns := by decide
  place := by simp
  room := by decide
  network := rfl
  transport := fun h => absurd rfl h
  memory := fun i _ => by rw [show segmentSkb.macHeader.toNat = 0 from rfl, Nat.zero_add]; rfl

def segmentPacket : Packet := segment.deserialize.1

end Buffer

end Neo
