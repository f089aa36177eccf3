import Neo.Lib.Bytes
import Neo.Net

/-! Packets as frames. Frames are built by libnet, and of what it builds only the standard layout
is known. What is read from a frame is the flow, the flags and the data. -/

namespace Neo

open Bytes

abbrev Frame := List Byte

abbrev Mac := Vector Byte 6

/-- `ID_ETH_ADDR`, by which the frames of injected packets and their answers are known. -/
def idEthAddr : Mac := #v[0xAA, 0xBB, 0xCC, 0xDD, 0xEE, 0xFF]

def ethertypeIp : BitVec 16 := 0x0800
def ipprotoIcmp : BitVec 8 := 1
def ipprotoTcp : BitVec 8 := 6
def ipprotoUdp : BitVec 8 := 17
def icmpEcho : BitVec 8 := 8
def icmpEchoReply : BitVec 8 := 0

/-- `ETH_FRAME_LEN`, the length of the buffer that frames are read into. -/
def ethFrameLen : Nat := 1514

structure IpLayout (frame : Frame) (ipProto : BitVec 8) (srcIp dstIp : IPv4Address)
    (srcMac dstMac : Mac) : Prop where
  dstMac : slice frame 0 6 = dstMac.toList
  srcMac : slice frame 6 6 = srcMac.toList
  ethertype : slice frame 12 2 = ofBitVec 2 ethertypeIp
  ipProto : slice frame 23 1 = ofBitVec 1 ipProto
  srcIp : slice frame 26 4 = ofBitVec 4 srcIp
  dstIp : slice frame 30 4 = ofBitVec 4 dstIp

structure TcpLayout (frame : Frame) (srcPort dstPort : BitVec 16) (seq ack : BitVec 32)
    (flags : BitVec 8) (payload : Payload) : Prop where
  srcPort : slice frame 34 2 = ofBitVec 2 srcPort
  dstPort : slice frame 36 2 = ofBitVec 2 dstPort
  seq : slice frame 38 4 = ofBitVec 4 seq
  ack : slice frame 42 4 = ofBitVec 4 ack
  offset : slice frame 46 2 = [0x50, flags]
  payload : frame.drop 54 = payload
  length : 54 ≤ frame.length

structure IcmpLayout (frame : Frame) (icmpType : BitVec 8) : Prop where
  icmpType : slice frame 34 1 = ofBitVec 1 icmpType
  length : 42 ≤ frame.length

structure Libnet where
  tcp (srcPort dstPort : BitVec 16) (seq ack : BitVec 32) (flags : BitVec 8) (payload : Payload)
    (srcIp dstIp : IPv4Address) (srcMac dstMac : Mac) : Frame
  udp (srcPort dstPort : BitVec 16) (payload : Payload) (srcIp dstIp : IPv4Address)
    (srcMac dstMac : Mac) : Frame
  icmpEcho (icmpType : BitVec 8) (srcIp dstIp : IPv4Address) (srcMac dstMac : Mac) : Frame
  tcp_ip : ∀ srcPort dstPort seq ack flags payload srcIp dstIp srcMac dstMac,
    IpLayout (tcp srcPort dstPort seq ack flags payload srcIp dstIp srcMac dstMac) ipprotoTcp srcIp
      dstIp srcMac dstMac
  tcp_tcp : ∀ srcPort dstPort seq ack flags payload srcIp dstIp srcMac dstMac,
    TcpLayout (tcp srcPort dstPort seq ack flags payload srcIp dstIp srcMac dstMac) srcPort dstPort
      seq ack flags payload
  icmpEcho_ip : ∀ icmpType srcIp dstIp srcMac dstMac,
    IpLayout (icmpEcho icmpType srcIp dstIp srcMac dstMac) ipprotoIcmp srcIp dstIp srcMac dstMac
  icmpEcho_icmp : ∀ icmpType srcIp dstIp srcMac dstMac,
    IcmpLayout (icmpEcho icmpType srcIp dstIp srcMac dstMac) icmpType

namespace Net

open Packet

def ctrlFlags : ProtoState → Nat
  | psTcpInit1 => thSyn
  | psTcpInit2 => thSyn + thAck
  | psTcpInit3 | psTcpL7ReqA | psTcpL7RepA | psTcpTerm3 => thAck
  | psTcpL7Req | psTcpL7Rep => thPush + thAck
  | psTcpTerm1 | psTcpTerm2 => thFin + thAck
  | _ => 0

variable (N : Libnet)

def buildTcp (pkt : Packet) (srcMac dstMac : Mac) : Frame :=
  N.tcp pkt.srcPort pkt.dstPort pkt.seq pkt.ack (BitVec.ofNat 8 (ctrlFlags pkt.protoState))
    (pkt.payload.getD []) pkt.srcIp pkt.dstIp srcMac dstMac

def buildUdp (pkt : Packet) (srcMac dstMac : Mac) : Frame :=
  N.udp pkt.srcPort pkt.dstPort (pkt.payload.getD []) pkt.srcIp pkt.dstIp srcMac dstMac

def buildIcmpEcho (pkt : Packet) (srcMac dstMac : Mac) : Option Frame :=
  if pkt.protoState = psIcmpEchoReq then
    some (N.icmpEcho icmpEcho pkt.srcIp pkt.dstIp srcMac dstMac)
  else if pkt.protoState = psIcmpEchoRep then
    some (N.icmpEcho icmpEchoReply pkt.srcIp pkt.dstIp srcMac dstMac)
  else none

def serialize (pkt : Packet) (srcMac dstMac : Mac) : Option Frame :=
  if pkt.protoState.isTcp then some (buildTcp N pkt srcMac dstMac)
  else if pkt.protoState.isUdp then some (buildUdp N pkt srcMac dstMac)
  else if pkt.protoState.isIcmpEcho then buildIcmpEcho N pkt srcMac dstMac
  else none

/-- Some bytes of a frame; `none` where they are not there. -/
def read (frame : Frame) (offset n : Nat) : Option (List Byte) :=
  if offset + n ≤ frame.length then some (slice frame offset n) else none

def readWord (frame : Frame) (offset n : Nat) : Option (BitVec (8 * n)) :=
  (read frame offset n).map (toBitVec (8 * n))

def cleared : Packet where
  intf := none
  srcIp := 0
  dstIp := 0
  srcPort := 0
  dstPort := 0
  seq := 0
  ack := 0
  protoState := 0
  payload := none
  conn := 0
  isNew := false
  oppositeDir := false
  nextPhase := false

def getPayload (data : Payload) : Option Payload := if data.isEmpty then none else some data

def deserializeTcp (frame : Frame) (pkt : Packet) : Option Packet := do
  let srcPort ← readWord frame 34 2
  let dstPort ← readWord frame 36 2
  let seq ← readWord frame 38 4
  let ack ← readWord frame 42 4
  let offset ← readWord frame 46 1
  let flags ← readWord frame 46 2
  -- the upper half of the byte is the data offset in words
  let dataoff := 34 + offset.toNat / 16 * 4
  assert (dataoff ≤ frame.length)
  return { pkt with
    srcPort := srcPort
    dstPort := dstPort
    seq := seq
    ack := ack
    protoState := (flags.toNat &&& 0x0fff) ||| 0x800
    payload := getPayload (frame.drop dataoff) }

def deserializeUdp (frame : Frame) (pkt : Packet) : Option Packet := do
  let srcPort ← readWord frame 34 2
  let dstPort ← readWord frame 36 2
  let length ← read frame 38 2
  assert (42 ≤ frame.length)
  -- the length is taken as it is in memory, without conversion
  let length : BitVec 16 := toBitVec 16 length.reverse - 8
  let rest : BitVec 16 := BitVec.ofNat 16 (frame.length - 42)
  let length := if length ≤ rest then length else rest
  return { pkt with
    srcPort := srcPort
    dstPort := dstPort
    protoState := psUdpReq
    payload := getPayload (slice frame 42 length.toNat) }

def deserializeIcmp (frame : Frame) (pkt : Packet) : Option Packet := do
  let icmpType ← readWord frame 34 1
  let _icmpCode ← readWord frame 35 1
  if icmpType = icmpEcho then return { pkt with protoState := psIcmpEchoReq }
  else if icmpType = icmpEchoReply then return { pkt with protoState := psIcmpEchoRep }
  else return cleared

/-- `deserialize`; `none` where more is read than the frame has. -/
def deserialize (frame : Frame) : Option Packet := do
  let dstMac ← read frame 0 6
  let srcMac ← read frame 6 6
  if dstMac ≠ idEthAddr.toList ∧ srcMac ≠ idEthAddr.toList then return cleared
  else
    let ethertype ← readWord frame 12 2
    if ethertype = ethertypeIp then
      let srcIp ← readWord frame 26 4
      let dstIp ← readWord frame 30 4
      let pkt : Packet := { cleared with srcIp := srcIp, dstIp := dstIp }
      let ipProto ← readWord frame 23 1
      if ipProto = ipprotoTcp then deserializeTcp frame pkt
      else if ipProto = ipprotoUdp then deserializeUdp frame pkt
      else if ipProto = ipprotoIcmp then deserializeIcmp frame pkt
      else return cleared
    else return cleared

theorem readWord_eq {frame : Frame} {offset n : Nat} {x : BitVec (8 * n)}
    (h : slice frame offset n = ofBitVec n x) (hlen : offset + n ≤ frame.length) :
    readWord frame offset n = some x := by
  rw [readWord, read, if_pos hlen, Option.map_some, h, toBitVec_ofBitVec rfl]

theorem slice_take {l : List Byte} {offset n k : Nat} (h : offset + n ≤ k) :
    slice (l.take k) offset n = slice l offset n := by
  unfold slice
  rw [List.drop_take, List.take_take, min_eq_left (by omega)]

theorem ipLayout_take {frame : Frame} {ipProto : BitVec 8} {srcIp dstIp : IPv4Address}
    {srcMac dstMac : Mac} (h : IpLayout frame ipProto srcIp dstIp srcMac dstMac) {k : Nat}
    (hk : 34 ≤ k) : IpLayout (frame.take k) ipProto srcIp dstIp srcMac dstMac := by
  have hslice : ∀ offset n, offset + n ≤ 34 →
      slice (frame.take k) offset n = slice frame offset n := by
    intro offset n hle
    exact slice_take (hle.trans hk)
  refine ⟨?_, ?_, ?_, ?_, ?_, ?_⟩
  · rw [hslice 0 6 (by decide), h.dstMac]
  · rw [hslice 6 6 (by decide), h.srcMac]
  · rw [hslice 12 2 (by decide), h.ethertype]
  · rw [hslice 23 1 (by decide), h.ipProto]
  · rw [hslice 26 4 (by decide), h.srcIp]
  · rw [hslice 30 4 (by decide), h.dstIp]

variable {frame : Frame} {srcIp dstIp : IPv4Address} {srcMac dstMac : Mac}

theorem markFlags (flags : BitVec 8) :
    ((toBitVec 16 [0x50, flags]).toNat &&& 0x0fff) ||| 0x800 = 0x800 + flags.toNat := by
  have hlt := flags.isLt
  have hword : (toBitVec 16 [0x50, flags]).toNat = 0x5000 + flags.toNat := by
    have hbytes : ofBytes [0x50, flags] = 0x5000 + flags.toNat := by
      simp [ofBytes]
    rw [toBitVec, hbytes, BitVec.toNat_ofNat]
    omega
  have hmask : (0x5000 + flags.toNat) &&& 0x0fff = flags.toNat := by
    rw [show 0x0fff = 2 ^ 12 - 1 from rfl, Nat.and_two_pow_sub_one_eq_mod]
    omega
  have hmark : 2 ^ 11 * 1 + flags.toNat = 2 ^ 11 * 1 ||| flags.toNat :=
    Nat.two_pow_add_eq_or_of_lt (by omega) 1
  rw [hword, hmask, Nat.or_comm]
  exact hmark.symm

theorem deserialize_ip {ipProto : BitVec 8}
    (h : IpLayout frame ipProto srcIp dstIp idEthAddr dstMac) (hlen : 34 ≤ frame.length) :
    deserialize frame =
      if ipProto = ipprotoTcp then
        deserializeTcp frame { cleared with srcIp := srcIp, dstIp := dstIp }
      else if ipProto = ipprotoUdp then
        deserializeUdp frame { cleared with srcIp := srcIp, dstIp := dstIp }
      else if ipProto = ipprotoIcmp then
        deserializeIcmp frame { cleared with srcIp := srcIp, dstIp := dstIp }
      else some cleared := by
  have hdst : read frame 0 6 = some dstMac.toList := by
    rw [read, if_pos (by omega), h.dstMac]
  have hsrc : read frame 6 6 = some idEthAddr.toList := by
    rw [read, if_pos (by omega), h.srcMac]
  have htype := readWord_eq h.ethertype (by omega)
  have hsrcIp := readWord_eq h.srcIp (by omega)
  have hdstIp := readWord_eq h.dstIp (by omega)
  have hproto := readWord_eq h.ipProto (by omega)
  unfold deserialize
  simp only [hdst, hsrc, htype, hsrcIp, hdstIp, hproto, Option.bind_eq_bind, Option.bind_some,
    ne_eq, not_true_eq_false, and_false, if_false, if_true]
  rfl

theorem deserialize_tcp {srcPort dstPort : BitVec 16} {seq ack : BitVec 32} {flags : BitVec 8}
    {payload : Payload} (hip : IpLayout frame ipprotoTcp srcIp dstIp idEthAddr dstMac)
    (htcp : TcpLayout frame srcPort dstPort seq ack flags payload) :
    deserialize frame = some { cleared with
      srcIp := srcIp
      dstIp := dstIp
      srcPort := srcPort
      dstPort := dstPort
      seq := seq
      ack := ack
      protoState := 0x800 + flags.toNat
      payload := getPayload payload } := by
  have hlen := htcp.length
  have hsrcPort := readWord_eq htcp.srcPort (by omega)
  have hdstPort := readWord_eq htcp.dstPort (by omega)
  have hseq := readWord_eq htcp.seq (by omega)
  have hack := readWord_eq htcp.ack (by omega)
  have hflags : readWord frame 46 2 = some (toBitVec 16 [0x50, flags]) := by
    rw [readWord, read, if_pos (by omega), htcp.offset]
    rfl
  have hoffset : readWord frame 46 1 = some (0x50 : BitVec 8) := by
    have hfirst : slice frame 46 1 = [0x50] := by
      have htake : slice frame 46 1 = (slice frame 46 2).take 1 := by
        rw [slice, slice, List.take_take]
        rfl
      rw [htake, htcp.offset]
      rfl
    rw [readWord, read, if_pos (by omega), hfirst]
    rfl
  rw [deserialize_ip hip (by omega), if_pos rfl]
  unfold deserializeTcp
  simp only [hsrcPort, hdstPort, hseq, hack, hflags, hoffset, Option.bind_eq_bind,
    Option.bind_some]
  have hdataoff : 34 + (0x50 : BitVec 8).toNat / 16 * 4 = 54 := rfl
  rw [hdataoff, decide_eq_true hlen, markFlags, htcp.payload]
  rfl

theorem deserialize_icmp {icmpType : BitVec 8} {protoState : ProtoState}
    (hip : IpLayout frame ipprotoIcmp srcIp dstIp idEthAddr dstMac)
    (hicmp : IcmpLayout frame icmpType)
    (htype : icmpType = icmpEcho ∧ protoState = psIcmpEchoReq ∨
      icmpType = icmpEchoReply ∧ protoState = psIcmpEchoRep) :
    deserialize frame = some { cleared with
      srcIp := srcIp
      dstIp := dstIp
      protoState := protoState } := by
  have hlen := hicmp.length
  have hread := readWord_eq hicmp.icmpType (by omega)
  have hcode : readWord frame 35 1 = some (toBitVec 8 (slice frame 35 1)) := by
    rw [readWord, read, if_pos (by omega), Option.map_some]
  rw [deserialize_ip hip (by omega), if_neg (by decide), if_neg (by decide), if_pos rfl]
  unfold deserializeIcmp
  simp only [hread, hcode, Option.bind_eq_bind, Option.bind_some]
  rcases htype with ⟨rfl, rfl⟩ | ⟨rfl, rfl⟩
  · rfl
  · rfl

end Net

end Neo
