import Neo.Emulation.Libnet
import Neo.Emulation.Returned
import Mathlib.Tactic.IntervalCases

/-! What is read from the frame of a packet, of any protocol and any data. The length of a datagram
is read with its bytes swapped, and then only some lengths are long enough. -/

namespace Neo

open Bytes

structure UdpLayout (frame : Frame) (srcPort dstPort : BitVec 16) (payload : Payload) : Prop where
  srcPort : slice frame 34 2 = ofBitVec 2 srcPort
  dstPort : slice frame 36 2 = ofBitVec 2 dstPort
  size : slice frame 38 2 = toBytes 2 (8 + payload.length)
  payload : frame.drop 42 = payload
  length : 42 ≤ frame.length

structure Libnet.BuildsUdp (N : Libnet) : Prop where
  udp_ip : ∀ srcPort dstPort payload srcIp dstIp srcMac dstMac,
    IpLayout (N.udp srcPort dstPort payload srcIp dstIp srcMac dstMac) ipprotoUdp srcIp dstIp
      srcMac dstMac
  udp_udp : ∀ srcPort dstPort payload srcIp dstIp srcMac dstMac,
    UdpLayout (N.udp srcPort dstPort payload srcIp dstIp srcMac dstMac) srcPort dstPort payload

namespace Net

def swappedLength (size : Nat) : BitVec 16 := toBitVec 16 (toBytes 2 (8 + size)).reverse - 8

def Truncates (length : Nat) : Prop := 1 ≤ length % 256 ∧ length % 256 < length / 256

instance (length : Nat) : Decidable (Truncates length) := inferInstanceAs (Decidable (_ ∧ _))

theorem toNat_swappedLength {size : Nat} (h : 8 + size < 65536) :
    (swappedLength size).toNat =
      (256 * ((8 + size) % 256) + (8 + size) / 256 + 65528) % 65536 := by
  have hbytes : (toBytes 2 (8 + size)).reverse =
      [BitVec.ofNat 8 (8 + size), BitVec.ofNat 8 ((8 + size) / 256)] := rfl
  have hword : ofBytes [BitVec.ofNat 8 (8 + size), BitVec.ofNat 8 ((8 + size) / 256)] =
      256 * ((8 + size) % 256) + (8 + size) / 256 := by
    simp only [ofBytes, List.foldl_cons, List.foldl_nil, BitVec.toNat_ofNat]
    omega
  rw [swappedLength, hbytes, toBitVec, hword, BitVec.toNat_sub, BitVec.toNat_ofNat]
  have height : (8 : BitVec 16).toNat = 8 := rfl
  rw [height]
  omega

theorem le_swappedLength_iff {size : Nat} (h : size ≤ 1472) :
    size ≤ (swappedLength size).toNat ↔ ¬ Truncates (8 + size) := by
  rw [toNat_swappedLength (by omega), Truncates]
  have hsplit := Nat.div_add_mod (8 + size) 256
  have hlow := Nat.mod_lt (8 + size) (show 256 > 0 by decide)
  have hhigh : (8 + size) / 256 ≤ 5 := by omega
  generalize (8 + size) / 256 = high at *
  generalize (8 + size) % 256 = low at *
  interval_cases high
  all_goals omega

variable {frame : Frame} {srcIp dstIp : IPv4Address} {dstMac : Mac}

theorem deserialize_udp {srcPort dstPort : BitVec 16} {payload : Payload}
    (hip : IpLayout frame ipprotoUdp srcIp dstIp idEthAddr dstMac)
    (hudp : UdpLayout frame srcPort dstPort payload) (hsize : payload.length < 65536) :
    deserialize frame = some { cleared with
      srcIp := srcIp
      dstIp := dstIp
      srcPort := srcPort
      dstPort := dstPort
      protoState := psUdpReq
      payload := getPayload (payload.take (swappedLength payload.length).toNat) } := by
  have hlen := hudp.length
  have hsrcPort := readWord_eq hudp.srcPort (by omega)
  have hdstPort := readWord_eq hudp.dstPort (by omega)
  have hlength : read frame 38 2 = some (toBytes 2 (8 + payload.length)) := by
    rw [read, if_pos (by omega), hudp.size]
  have hrest : frame.length - 42 = payload.length := by
    rw [← hudp.payload, List.length_drop]
  rw [deserialize_ip hip (by omega), if_neg (by decide), if_pos rfl]
  unfold deserializeUdp
  simp only [hsrcPort, hdstPort, hlength, Option.bind_eq_bind, Option.bind_some]
  rw [decide_eq_true hlen, hrest]
  have hdata : ∀ length : BitVec 16, slice frame 42
      (if length ≤ BitVec.ofNat 16 payload.length then length
        else BitVec.ofNat 16 payload.length).toNat = payload.take length.toNat := by
    intro length
    rw [slice, hudp.payload]
    have hnat : (BitVec.ofNat 16 payload.length).toNat = payload.length := by
      rw [BitVec.toNat_ofNat]
      exact Nat.mod_eq_of_lt hsize
    split_ifs with hle
    · rfl
    · rw [BitVec.le_def, hnat] at hle
      rw [hnat, List.take_of_length_le le_rfl, List.take_of_length_le (by omega)]
  have hread := hdata (swappedLength payload.length)
  unfold swappedLength at hread ⊢
  rw [hread]
  rfl

structure RoundTrips (pkt r : Packet) : Prop where
  notEmpty : r.isEmpty = false
  srcIp : r.srcIp = pkt.srcIp
  dstIp : r.dstIp = pkt.dstIp
  srcPort : r.srcPort = pkt.srcPort
  dstPort : r.dstPort = pkt.dstPort
  tcp : pkt.protoState.isTcp = true → r.seq = pkt.seq ∧ r.ack = pkt.ack ∧
    r.protoState = 0x800 + ctrlFlags pkt.protoState
  udp : pkt.protoState.isUdp = true → r.protoState.isUdp = true
  icmp : pkt.protoState.isIcmpEcho = true → r.protoState = pkt.protoState
  payload : r.payload = pkt.payload

/-- A packet in a state of one of the protocols, with data that fits into a frame. -/
inductive Fits (pkt : Packet) : Prop
  | tcp : psTcpInit1 ≤ pkt.protoState → pkt.protoState ≤ psTcpTerm3 →
      Payload.size pkt.payload ≤ 1460 → Fits pkt
  | udp : pkt.protoState = psUdpReq ∨ pkt.protoState = psUdpRep →
      Payload.size pkt.payload ≤ 1472 → Fits pkt
  | icmp : pkt.protoState = psIcmpEchoReq ∨ pkt.protoState = psIcmpEchoRep →
      pkt.srcPort = 0 → pkt.dstPort = 0 → Payload.size pkt.payload ≤ 1472 → Fits pkt

/-- The headers do not look like those of no packet, there is data where there is a payload, the
length of a datagram is not one that is read too short, and an echo message has no payload. -/
structure Readable (pkt : Packet) : Prop where
  header : pkt.srcIp ≠ 0 ∨ pkt.dstIp ≠ 0 ∨ pkt.srcPort ≠ 0 ∨ pkt.dstPort ≠ 0 ∨
    pkt.protoState.isTcp = true ∧ (pkt.seq ≠ 0 ∨ pkt.ack ≠ 0)
  payload : pkt.payload ≠ some []
  udp : pkt.protoState.isUdp = true → ¬ Truncates (8 + Payload.size pkt.payload)
  icmp : pkt.protoState.isIcmpEcho = true → pkt.payload = none

variable {N : Libnet} {pkt : Packet}

theorem serialize_tcp (N : Libnet) (dstMac : Mac) (h : pkt.protoState.isTcp = true) :
    ∃ frame, serialize N pkt idEthAddr dstMac = some frame ∧ deserialize frame =
      some { cleared with
        srcIp := pkt.srcIp
        dstIp := pkt.dstIp
        srcPort := pkt.srcPort
        dstPort := pkt.dstPort
        seq := pkt.seq
        ack := pkt.ack
        protoState := 0x800 + ctrlFlags pkt.protoState
        payload := getPayload (pkt.payload.getD []) } := by
  refine ⟨buildTcp N pkt idEthAddr dstMac, if_pos h, ?_⟩
  have hread := deserialize_tcp (N.tcp_ip pkt.srcPort pkt.dstPort pkt.seq pkt.ack
    (BitVec.ofNat 8 (ctrlFlags pkt.protoState)) (pkt.payload.getD []) pkt.srcIp pkt.dstIp idEthAddr
    dstMac) (N.tcp_tcp ..)
  rw [toNat_ctrlFlags] at hread
  exact hread

theorem serialize_udp (hN : N.BuildsUdp) (dstMac : Mac)
    (h : pkt.protoState = psUdpReq ∨ pkt.protoState = psUdpRep)
    (hsize : Payload.size pkt.payload < 65536) :
    ∃ frame, serialize N pkt idEthAddr dstMac = some frame ∧ deserialize frame =
      some { cleared with
        srcIp := pkt.srcIp
        dstIp := pkt.dstIp
        srcPort := pkt.srcPort
        dstPort := pkt.dstPort
        protoState := psUdpReq
        payload := getPayload ((pkt.payload.getD []).take
          (swappedLength (Payload.size pkt.payload)).toNat) } := by
  refine ⟨buildUdp N pkt idEthAddr dstMac, ?_, ?_⟩
  · have htcp : ¬ pkt.protoState.isTcp = true := by
      rcases h with hstate | hstate <;> rw [hstate] <;> decide
    have hudp : pkt.protoState.isUdp = true := by
      rcases h with hstate | hstate <;> rw [hstate] <;> decide
    exact (if_neg htcp).trans (if_pos hudp)
  · exact deserialize_udp (hN.udp_ip pkt.srcPort pkt.dstPort (pkt.payload.getD []) pkt.srcIp
      pkt.dstIp idEthAddr dstMac) (hN.udp_udp ..) hsize

theorem serialize_icmp (N : Libnet) (dstMac : Mac)
    (h : pkt.protoState = psIcmpEchoReq ∨ pkt.protoState = psIcmpEchoRep) :
    ∃ frame, serialize N pkt idEthAddr dstMac = some frame ∧ deserialize frame =
      some { cleared with
        srcIp := pkt.srcIp
        dstIp := pkt.dstIp
        protoState := pkt.protoState } := by
  have hserialize : serialize N pkt idEthAddr dstMac = buildIcmpEcho N pkt idEthAddr dstMac := by
    have htcp : ¬ pkt.protoState.isTcp = true := by
      rcases h with hstate | hstate <;> rw [hstate] <;> decide
    have hudp : ¬ pkt.protoState.isUdp = true := by
      rcases h with hstate | hstate <;> rw [hstate] <;> decide
    have hecho : pkt.protoState.isIcmpEcho = true := by
      rcases h with hstate | hstate <;> rw [hstate] <;> decide
    exact ((if_neg htcp).trans (if_neg hudp)).trans (if_pos hecho)
  have hread (icmpType : BitVec 8) (htype : icmpType = icmpEcho ∧ pkt.protoState = psIcmpEchoReq ∨
      icmpType = icmpEchoReply ∧ pkt.protoState = psIcmpEchoRep) :=
    deserialize_icmp (N.icmpEcho_ip icmpType pkt.srcIp pkt.dstIp idEthAddr dstMac)
      (N.icmpEcho_icmp ..) htype
  rw [hserialize]
  rcases h with hstate | hstate
  · exact ⟨_, if_pos hstate, hread _ (.inl ⟨rfl, hstate⟩)⟩
  · have hne : ¬ pkt.protoState = psIcmpEchoReq := by
      rw [hstate]
      decide
    exact ⟨_, (if_neg hne).trans (if_pos hstate), hread _ (.inr ⟨rfl, hstate⟩)⟩

theorem isEmpty_eq_false (pkt : Packet) : pkt.isEmpty = false ↔ pkt.intf ≠ none ∨ pkt.srcIp ≠ 0 ∨
    pkt.dstIp ≠ 0 ∨ pkt.srcPort ≠ 0 ∨ pkt.dstPort ≠ 0 ∨ pkt.seq ≠ 0 ∨ pkt.ack ≠ 0 := by
  simp only [Packet.isEmpty, Bool.and_eq_false_iff, beq_eq_false_iff_ne, or_assoc]

theorem roundTrips_tcp_iff {r : Packet} (hle : psTcpInit1 ≤ pkt.protoState)
    (hle' : pkt.protoState ≤ psTcpTerm3)
    (hr : r = { cleared with
      srcIp := pkt.srcIp
      dstIp := pkt.dstIp
      srcPort := pkt.srcPort
      dstPort := pkt.dstPort
      seq := pkt.seq
      ack := pkt.ack
      protoState := 0x800 + ctrlFlags pkt.protoState
      payload := getPayload (pkt.payload.getD []) }) :
    RoundTrips pkt r ↔ Readable pkt := by
  have htcp : pkt.protoState.isTcp = true := by
    unfold ProtoState.isTcp
    rw [decide_eq_true hle, decide_eq_true hle']
    rfl
  have hudp : ¬ pkt.protoState.isUdp = true := by
    intro hudp
    unfold ProtoState.isUdp at hudp
    have hlt : ∀ x : Nat, x ≤ 10 → ¬ 11 ≤ x := by omega
    exact hlt _ hle' (of_decide_eq_true (Bool.and_eq_true_iff.mp hudp).1)
  have hicmp : ¬ pkt.protoState.isIcmpEcho = true := by
    intro hicmp
    unfold ProtoState.isIcmpEcho at hicmp
    have hlt : ∀ x : Nat, x ≤ 10 → ¬ 13 ≤ x := by omega
    exact hlt _ hle' (of_decide_eq_true (Bool.and_eq_true_iff.mp hicmp).1)
  have hall : (pkt.payload.getD []).take (Payload.size pkt.payload) = pkt.payload.getD [] :=
    List.take_of_length_le le_rfl
  have hpayload := getPayload_take pkt.payload (Payload.size pkt.payload)
  rw [hall] at hpayload
  subst hr
  constructor
  · intro h
    refine ⟨?_, (hpayload.mp h.payload).1, fun hu => absurd hu hudp, fun hi => absurd hi hicmp⟩
    have hheader := ((isEmpty_eq_false _).mp h.notEmpty).resolve_left (not_not.mpr rfl)
    simpa only [htcp, true_and] using hheader
  · intro h
    refine ⟨?_, rfl, rfl, rfl, rfl, fun _ => ⟨rfl, rfl, rfl⟩, fun hu => absurd hu hudp,
      fun hi => absurd hi hicmp, hpayload.mpr ⟨h.payload, le_rfl⟩⟩
    apply (isEmpty_eq_false _).mpr
    right
    simpa only [htcp, true_and] using h.header

theorem roundTrips_udp_iff {r : Packet}
    (hstate : pkt.protoState = psUdpReq ∨ pkt.protoState = psUdpRep)
    (hsize : Payload.size pkt.payload ≤ 1472)
    (hr : r = { cleared with
      srcIp := pkt.srcIp
      dstIp := pkt.dstIp
      srcPort := pkt.srcPort
      dstPort := pkt.dstPort
      protoState := psUdpReq
      payload := getPayload ((pkt.payload.getD []).take
        (swappedLength (Payload.size pkt.payload)).toNat) }) :
    RoundTrips pkt r ↔ Readable pkt := by
  have htcp : ¬ pkt.protoState.isTcp = true := by
    rcases hstate with hstate | hstate <;> rw [hstate] <;> decide
  have hudp : pkt.protoState.isUdp = true := by
    rcases hstate with hstate | hstate <;> rw [hstate] <;> decide
  have hicmp : ¬ pkt.protoState.isIcmpEcho = true := by
    rcases hstate with hstate | hstate <;> rw [hstate] <;> decide
  have hpayload := getPayload_take pkt.payload
    (swappedLength (Payload.size pkt.payload)).toNat
  rw [le_swappedLength_iff hsize] at hpayload
  subst hr
  constructor
  · intro h
    obtain ⟨hdata, hlength⟩ := hpayload.mp h.payload
    refine ⟨?_, hdata, fun _ => hlength, fun hi => absurd hi hicmp⟩
    have hheader := ((isEmpty_eq_false _).mp h.notEmpty).resolve_left (not_not.mpr rfl)
    simpa [htcp, cleared] using hheader
  · intro h
    refine ⟨?_, rfl, rfl, rfl, rfl, fun ht => absurd ht htcp, fun _ => rfl,
      fun hi => absurd hi hicmp, hpayload.mpr ⟨h.payload, h.udp hudp⟩⟩
    apply (isEmpty_eq_false _).mpr
    right
    simpa [htcp, cleared] using h.header

theorem roundTrips_icmp_iff {r : Packet}
    (hstate : pkt.protoState = psIcmpEchoReq ∨ pkt.protoState = psIcmpEchoRep)
    (hsrcPort : pkt.srcPort = 0) (hdstPort : pkt.dstPort = 0)
    (hr : r = { cleared with
      srcIp := pkt.srcIp
      dstIp := pkt.dstIp
      protoState := pkt.protoState }) :
    RoundTrips pkt r ↔ Readable pkt := by
  have htcp : ¬ pkt.protoState.isTcp = true := by
    rcases hstate with hstate | hstate <;> rw [hstate] <;> decide
  have hudp : ¬ pkt.protoState.isUdp = true := by
    rcases hstate with hstate | hstate <;> rw [hstate] <;> decide
  have hicmp : pkt.protoState.isIcmpEcho = true := by
    rcases hstate with hstate | hstate <;> rw [hstate] <;> decide
  subst hr
  constructor
  · intro h
    have hnone : pkt.payload = none := h.payload.symm
    refine ⟨?_, by simp [hnone], fun hu => absurd hu hudp, fun _ => hnone⟩
    have hheader := ((isEmpty_eq_false _).mp h.notEmpty).resolve_left (not_not.mpr rfl)
    simpa [htcp, cleared, hsrcPort, hdstPort] using hheader
  · intro h
    refine ⟨?_, rfl, rfl, hsrcPort.symm, hdstPort.symm, fun ht => absurd ht htcp,
      fun hu => absurd hu hudp, fun _ => rfl, (h.icmp hicmp).symm⟩
    apply (isEmpty_eq_false _).mpr
    right
    simpa [htcp, cleared, hsrcPort, hdstPort] using h.header

/-- Which packets are read from their frames as they were sent. -/
theorem roundTrips_iff (hN : N.BuildsUdp) (pkt : Packet) (hfits : Fits pkt) (dstMac : Mac) :
    (∃ frame r, serialize N pkt idEthAddr dstMac = some frame ∧ deserialize frame = some r ∧
      RoundTrips pkt r) ↔ Readable pkt := by
  have hframe : ∀ {r : Packet}, (RoundTrips pkt r ↔ Readable pkt) →
      (∃ frame, serialize N pkt idEthAddr dstMac = some frame ∧ deserialize frame = some r) →
        ((∃ frame r, serialize N pkt idEthAddr dstMac = some frame ∧ deserialize frame = some r ∧
          RoundTrips pkt r) ↔ Readable pkt) := by
    intro r hiff ⟨frame, hserialize, hread⟩
    rw [← hiff]
    constructor
    · intro ⟨frame', r', hserialize', hread', h⟩
      obtain rfl := Option.some.inj (hserialize.symm.trans hserialize')
      obtain rfl := Option.some.inj (hread.symm.trans hread')
      exact h
    · intro h
      exact ⟨frame, r, hserialize, hread, h⟩
  cases hfits with
  | tcp hle hle' hsize =>
    have htcp : pkt.protoState.isTcp = true := by
      unfold ProtoState.isTcp
      rw [decide_eq_true hle, decide_eq_true hle']
      rfl
    exact hframe (roundTrips_tcp_iff hle hle' rfl) (serialize_tcp N dstMac htcp)
  | udp hstate hsize =>
    exact hframe (roundTrips_udp_iff hstate hsize rfl)
      (serialize_udp hN dstMac hstate (by omega))
  | icmp hstate hsrcPort hdstPort hsize =>
    exact hframe (roundTrips_icmp_iff hstate hsrcPort hdstPort rfl)
      (serialize_icmp N dstMac hstate)

end Net

namespace Libnet

theorem udpFields_flatten (srcPort dstPort : BitVec 16) (payload : Payload)
    (srcIp dstIp : IPv4Address) : ∃ sum : BitVec 16,
      (udpFields srcPort dstPort payload srcIp dstIp).flatten =
        [ofBitVec 2 srcPort, ofBitVec 2 dstPort, toBytes 2 (8 + payload.length), ofBitVec 2 sum,
          payload].flatten := by
  refine ⟨checksum (pseudoHeader ipprotoUdp (8 + payload.length) srcIp dstIp ++
    (ofBitVec 2 srcPort ++ ofBitVec 2 dstPort ++ toBytes 2 (8 + payload.length)) ++
    [0, 0] ++ payload), ?_⟩
  simp only [udpFields, List.flatten_cons, List.append_assoc]

theorem udpLayout_udpFields {id : BitVec 16} {ipProto : BitVec 8} {size : Nat}
    {srcIp dstIp : IPv4Address} {srcMac dstMac : Mac} {srcPort dstPort : BitVec 16}
    {payload : Payload} : UdpLayout (ipFields id ipProto size srcIp dstIp srcMac dstMac ++
      udpFields srcPort dstPort payload srcIp dstIp).flatten srcPort dstPort payload := by
  obtain ⟨sum, hfields⟩ := udpFields_flatten srcPort dstPort payload srcIp dstIp
  rw [List.flatten_append, hfields, ← List.flatten_append]
  refine ⟨?_, ?_, ?_, ?_, ?_⟩
  · exact slice_flatten 8 rfl (by simp [ipFields]) (by simp)
  · exact slice_flatten 9 rfl (by simp [ipFields]) (by simp)
  · exact slice_flatten 10 rfl (by simp [ipFields]) (by simp)
  · rw [List.flatten_append, show 42 = 34 + 8 from rfl, ← List.drop_drop,
      List.drop_left' length_ipFields]
    show (ofBitVec 2 srcPort ++ (ofBitVec 2 dstPort ++ (toBytes 2 (8 + payload.length) ++
      (ofBitVec 2 sum ++ (payload ++ []))))).drop 8 = payload
    rw [← List.append_assoc, ← List.append_assoc, ← List.append_assoc, List.append_nil]
    exact List.drop_left' (by simp)
  · rw [List.flatten_append, List.length_append, length_ipFields]
    simp
    omega

theorem standard_buildsUdp : standard.BuildsUdp where
  udp_ip _ _ _ _ _ _ _ := ipLayout_ipFields
  udp_udp _ _ _ _ _ _ _ := udpLayout_udpFields

end Libnet

namespace Net

def datagram (size : Nat) : Packet :=
  { cleared with
    srcIp := 0x0A000001#32
    dstIp := 0x0A000002#32
    srcPort := 100
    dstPort := 53
    protoState := psUdpReq
    payload := some (List.replicate size 0x47) }

theorem size_datagram (size : Nat) : Payload.size (datagram size).payload = size :=
  List.length_replicate

theorem datagram_fits {size : Nat} (h : size ≤ 1472) : Fits (datagram size) :=
  .udp (.inl rfl) ((size_datagram size).le.trans h)

theorem roundTrips_iff_short : ∃ frame r,
    serialize Libnet.standard (datagram 504) idEthAddr idEthAddr = some frame ∧
      deserialize frame = some r ∧ RoundTrips (datagram 504) r := by
  apply (roundTrips_iff Libnet.standard_buildsUdp (datagram 504) (datagram_fits (by decide))
    idEthAddr).mpr
  refine ⟨.inl (by decide), ?_, fun _ => ?_, fun hecho => absurd hecho (by decide)⟩
  · intro hnil
    have hsize := size_datagram 504
    rw [hnil] at hsize
    exact absurd hsize (by decide)
  · rw [size_datagram]
    decide

/-- Of 505 bytes of data 250 are read. -/
theorem not_roundTrips : ¬ ∀ (N : Libnet) (pkt : Packet) (dstMac : Mac), N.BuildsUdp → Fits pkt →
    ∃ frame r, serialize N pkt idEthAddr dstMac = some frame ∧ deserialize frame = some r ∧
      RoundTrips pkt r := by
  intro h
  obtain ⟨frame, r, hserialize, hread, htrip⟩ := h Libnet.standard (datagram 505) idEthAddr
    Libnet.standard_buildsUdp (datagram_fits (by decide))
  have hsize : ((serialize Libnet.standard (datagram 505) idEthAddr idEthAddr).bind
      deserialize).map (fun r => Payload.size r.payload) = some 250 := by
    decide +kernel
  rw [hserialize, Option.bind_some, hread, Option.map_some, htrip.payload, size_datagram] at hsize
  exact absurd hsize (by decide)

end Net

end Neo
