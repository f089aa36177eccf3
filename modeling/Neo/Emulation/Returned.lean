import Neo.Emulation.SendPkt

/-! An emulation that gives back the frame it is given. What is read from the frame is the packet of
the connection again, as far as a frame can hold it. -/

namespace Neo

open Bytes

/-- The data that fits into a frame. -/
def mss : Nat := ethFrameLen - 54

def ConnState.returned (c : ConnState) (egress : IntfPtr) (dstIp : IPv4Address) : Packet :=
  if c.protoState.isTcp then
    { Net.cleared with
      intf := some egress
      srcIp := c.srcIp
      dstIp := dstIp
      srcPort := c.srcPort
      dstPort := c.dstPort
      seq := c.seq
      ack := c.ack
      protoState := 0x800 + Net.ctrlFlags c.protoState
      payload := Net.getPayload ((c.payload.getD []).take mss) }
  else
    { Net.cleared with
      intf := some egress
      srcIp := c.srcIp
      dstIp := dstIp
      protoState := c.protoState }

namespace Net

theorem ctrlFlags_lt (protoState : ProtoState) : ctrlFlags protoState < 0x800 := by
  unfold ctrlFlags
  split
  all_goals decide

theorem toNat_ctrlFlags (protoState : ProtoState) :
    (BitVec.ofNat 8 (ctrlFlags protoState)).toNat = ctrlFlags protoState := by
  unfold ctrlFlags
  split
  all_goals rfl

theorem tcpLayout_take {frame : Frame} {srcPort dstPort : BitVec 16} {seq ack : BitVec 32}
    {flags : BitVec 8} {payload : Payload}
    (h : TcpLayout frame srcPort dstPort seq ack flags payload) :
    TcpLayout (frame.take ethFrameLen) srcPort dstPort seq ack flags (payload.take mss) := by
  have hslice : ∀ offset n, offset + n ≤ ethFrameLen →
      slice (frame.take ethFrameLen) offset n = slice frame offset n := by
    intro offset n hle
    exact slice_take hle
  refine ⟨?_, ?_, ?_, ?_, ?_, ?_, ?_⟩
  · rw [hslice 34 2 (by decide), h.srcPort]
  · rw [hslice 36 2 (by decide), h.dstPort]
  · rw [hslice 38 4 (by decide), h.seq]
  · rw [hslice 42 4 (by decide), h.ack]
  · rw [hslice 46 2 (by decide), h.offset]
  · rw [List.drop_take, h.payload]
    rfl
  · have hlen := h.length
    rw [List.length_take, ethFrameLen]
    omega

theorem icmpLayout_take {frame : Frame} {icmpType : BitVec 8} (h : IcmpLayout frame icmpType) :
    IcmpLayout (frame.take ethFrameLen) icmpType := by
  refine ⟨?_, ?_⟩
  · rw [slice_take (by decide), h.icmpType]
  · have hlen := h.length
    rw [List.length_take, ethFrameLen]
    omega

end Net

namespace SendEnv

variable {P : Plankton} {env : SendEnv} {m : Model} {pkt : Packet}

theorem deserialize_serialize (N : Libnet) (c : ConnState) (conn : Nat) (dstIp : IPv4Address)
    (dstMac : Mac) (egress : IntfPtr)
    (hproto : c.protoState.isTcp = true ∨ c.protoState.isIcmpEcho = true) :
    ∃ frame, Net.serialize N (c.toPacket conn dstIp) idEthAddr dstMac = some frame ∧
      Net.deserialize (frame.take ethFrameLen) =
        some { c.returned egress dstIp with intf := none } := by
  by_cases htcp : c.protoState.isTcp = true
  · refine ⟨Net.buildTcp N (c.toPacket conn dstIp) idEthAddr dstMac, ?_, ?_⟩
    · exact if_pos htcp
    · have hip := Net.ipLayout_take (N.tcp_ip c.srcPort c.dstPort c.seq c.ack
        (BitVec.ofNat 8 (Net.ctrlFlags c.protoState)) (c.payload.getD []) c.srcIp dstIp idEthAddr
        dstMac) (k := ethFrameLen) (by decide)
      have hsegment := Net.tcpLayout_take (N.tcp_tcp c.srcPort c.dstPort c.seq c.ack
        (BitVec.ofNat 8 (Net.ctrlFlags c.protoState)) (c.payload.getD []) c.srcIp dstIp idEthAddr
        dstMac)
      have hread := Net.deserialize_tcp hip hsegment
      rw [Net.toNat_ctrlFlags] at hread
      rw [ConnState.returned, if_pos htcp]
      exact hread
  · -- what is left is an echo message, in either direction
    have hecho := hproto.resolve_left htcp
    have hcase : c.protoState = psIcmpEchoReq ∨ c.protoState = psIcmpEchoRep := by
      simp only [ProtoState.isIcmpEcho, Bool.and_eq_true, decide_eq_true_eq] at hecho
      have hor : ∀ x : Nat, 13 ≤ x → x ≤ 14 → x = 13 ∨ x = 14 := by omega
      exact hor _ hecho.1 hecho.2
    have hread : ∀ icmpType, (icmpType = icmpEcho ∧ c.protoState = psIcmpEchoReq ∨
        icmpType = icmpEchoReply ∧ c.protoState = psIcmpEchoRep) →
          Net.deserialize ((N.icmpEcho icmpType c.srcIp dstIp idEthAddr dstMac).take
            ethFrameLen) = some { Net.cleared with
              srcIp := c.srcIp
              dstIp := dstIp
              protoState := c.protoState } := by
      intro icmpType htype
      have hip := Net.ipLayout_take (N.icmpEcho_ip icmpType c.srcIp dstIp idEthAddr dstMac)
        (k := ethFrameLen) (by decide)
      have hicmp := Net.icmpLayout_take (N.icmpEcho_icmp icmpType c.srcIp dstIp idEthAddr dstMac)
      exact Net.deserialize_icmp hip hicmp htype
    have hserialize : Net.serialize N (c.toPacket conn dstIp) idEthAddr dstMac =
        Net.buildIcmpEcho N (c.toPacket conn dstIp) idEthAddr dstMac := by
      have hudp : ¬ c.protoState.isUdp = true := by
        rcases hcase with hstate | hstate <;> rw [hstate] <;> decide
      have hstate : (c.toPacket conn dstIp).protoState = c.protoState := rfl
      unfold Net.serialize
      rw [hstate, if_neg htcp, if_neg hudp, if_pos hecho]
    rw [ConnState.returned, if_neg htcp, hserialize]
    rcases hcase with hstate | hstate
    · refine ⟨N.icmpEcho icmpEcho c.srcIp dstIp idEthAddr dstMac, ?_, ?_⟩
      · exact if_pos hstate
      · exact hread icmpEcho (.inl ⟨rfl, hstate⟩)
    · refine ⟨N.icmpEcho icmpEchoReply c.srcIp dstIp idEthAddr dstMac, ?_, ?_⟩
      · have hne : ¬ c.protoState = psIcmpEchoReq := by
          rw [hstate]
          decide
        exact (if_neg hne).trans (if_pos hstate)
      · exact hread icmpEchoReply (.inr ⟨rfl, hstate⟩)

theorem reassembleSegments_nil : env.reassembleSegments [] = some [] := by
  have horder : env.order [] = [] := List.perm_nil.mp (env.order_perm [])
  show some ((env.order []).flatMap Prod.snd) = some []
  rw [horder]
  rfl

theorem reassembleSegments_singleton (p : Packet) : env.reassembleSegments [p] = some [p] := by
  have horder : env.order [(p.intf, [p])] = [(p.intf, [p])] :=
    List.perm_singleton.mp (env.order_perm _)
  show (some (env.order [(p.intf, [p])])).bind (fun l => some (l.flatMap Prod.snd)) = some [p]
  rw [horder]
  rfl

theorem sendPkt_returned {t : Topology} {mb : NodePtr} {mac : IntfPtr → Mac} {o : Offsets}
    {c : ConnState} {conn : Nat} {dstIp : IPv4Address} {ingress egress : IntfPtr}
    (hproto : c.protoState.isTcp = true ∨ c.protoState.isIcmpEcho = true)
    (hintf : c.ingressIntf = some ingress) (hsrc : t.hasIp mb c.srcIp = false)
    (hdst : t.hasIp mb dstIp = false) :
    env.sendPkt t mb mac o (fun frame => [(egress, frame)]) (c.toPacket conn dstIp) =
      some (⟨if Packet.isEmpty { c.returned egress dstIp with intf := none } then []
        else [c.returned egress dstIp], false⟩, o) := by
  -- neither end of the packet is the middlebox itself, so no numbers are translated
  have hoffsets : o.applyOffsets t mb (c.toPacket conn dstIp) = c.toPacket conn dstIp := by
    unfold Offsets.applyOffsets
    have hdst' : t.hasIp mb (c.toPacket conn dstIp).dstIp = false := hdst
    rw [hdst', Bool.not_false, if_pos rfl, ite_self]
  obtain ⟨frame, hserialize, hread⟩ := deserialize_serialize env.libnet c conn dstIp (mac ingress)
    egress hproto
  have hreturned : { { c.returned egress dstIp with intf := none } with intf := some egress } =
      c.returned egress dstIp := by
    unfold ConnState.returned
    split_ifs <;> rfl
  have hpkts : readPackets [(egress, frame)] =
      some (if Packet.isEmpty { c.returned egress dstIp with intf := none } then []
        else [c.returned egress dstIp]) := by
    unfold readPackets
    simp only [List.mapM_cons, List.mapM_nil, hread, Option.bind_eq_bind, Option.bind_some,
      Option.pure_def]
    split_ifs
    · rfl
    · rw [hreturned]
      rfl
  have hsrc' : t.hasIp mb (c.returned egress dstIp).srcIp = false := by
    unfold ConnState.returned
    split_ifs
    · exact hsrc
    · exact hsrc
  unfold sendPkt
  have hintf' : (c.toPacket conn dstIp).intf = some ingress := hintf
  simp only [hoffsets, hintf', hserialize, hpkts, Option.bind_eq_bind, Option.bind_some]
  split_ifs
  · have hnil : env.reassembleSegments (env.removeRetransmitted [] []) = some [] :=
      reassembleSegments_nil
    rw [hnil]
    rfl
  · have hseen : env.removeRetransmitted [] [c.returned egress dstIp] =
        [c.returned egress dstIp] := rfl
    have hsame : o.updateOffsets t mb [c.returned egress dstIp] =
        (o, [c.returned egress dstIp]) := by
      unfold Offsets.updateOffsets
      rw [hsrc', Bool.not_false, if_pos rfl, ite_self]
    rw [hseen, reassembleSegments_singleton, Option.bind_some, hsame]
    rfl

end SendEnv

namespace Net

theorem getPayload_take (pl : Option Payload) (k : Nat) :
    getPayload ((pl.getD []).take k) = pl ↔ pl ≠ some [] ∧ Payload.size pl ≤ k := by
  cases pl with
  | none => simp [getPayload, Payload.size]
  | some data =>
    simp only [Option.getD_some, Payload.size, getPayload]
    cases data with
    | nil => simp
    | cons b data =>
      cases k with
      | zero => simp
      | succ k =>
        simp only [List.take_succ_cons, List.isEmpty_cons, Bool.false_eq_true, if_false,
          Option.some.injEq, List.cons.injEq, true_and, reduceCtorEq, not_false_eq_true, ne_eq,
          List.length_cons, Nat.add_le_add_iff_right]
        exact List.take_eq_self_iff data

theorem hasData_getPayload {pkt : Packet} {pl : Option Payload}
    (h : pkt.payload = pl) (hpl : pl ≠ some []) : pkt.hasData = pl.isSome := by
  unfold Packet.hasData
  rw [h]
  cases pl with
  | none => rfl
  | some data =>
    have hne : data ≠ [] := by
      intro hnil
      exact hpl (congrArg some hnil)
    simpa [Payload.size, List.length_pos_iff] using hne

end Net

namespace ConnState

def ackStates : List ProtoState := [psTcpInit3, psTcpL7ReqA, psTcpL7RepA, psTcpTerm3]

def dataStates : List ProtoState := [psTcpL7Req, psTcpL7Rep]

/-- The packet of a connection is read as it is from a frame: with all headers zero it would be
taken for none; a TCP segment has data in the states that send data, and no data in those that
only acknowledge; an echo message has neither ports nor numbers nor data. -/
structure Returnable (c : ConnState) (dstIp : IPv4Address) : Prop where
  header : c.srcIp ≠ 0 ∨ dstIp ≠ 0 ∨ c.srcPort ≠ 0 ∨ c.dstPort ≠ 0 ∨ c.seq ≠ 0 ∨ c.ack ≠ 0
  tcp : c.protoState.isTcp = true → c.protoState ≤ psTcpTerm3 ∧ c.payload ≠ some [] ∧
    Payload.size c.payload ≤ mss ∧ (c.protoState ∈ ackStates → c.payload = none) ∧
      (c.protoState ∈ dataStates → c.payload ≠ none)
  icmp : c.protoState.isTcp = false → c.srcPort = 0 ∧ c.dstPort = 0 ∧ c.seq = 0 ∧ c.ack = 0 ∧
    c.payload = none

theorem carries_ctrlFlags (pkt : Packet) {old : ProtoState} (htcp : old.isTcp = true)
    (hps : pkt.protoState = 0x800 + Net.ctrlFlags old) :
    pkt.Carries false old old ↔ old ≤ psTcpTerm3 ∧ (old ∈ ackStates → pkt.hasData = false) ∧
      (old ∈ dataStates → pkt.hasData = true) := by
  constructor
  · intro hcarries
    generalize hnew : old = new at hcarries
    cases hcarries with
    | syn | synAck =>
      subst hnew
      exact ⟨by decide, fun h => absurd h (by decide), fun h => absurd h (by decide)⟩
    | ack _ hmeans =>
      generalize pkt.hasData = data at hmeans ⊢
      subst hnew
      cases hmeans with
      | initAgain | reqAckAgain | repAckAgain | termAgain =>
        exact ⟨by decide, fun _ => rfl, fun h => absurd h (by decide)⟩
      | reqAgain | repAgain =>
        exact ⟨by decide, fun h => absurd h (by decide), fun _ => rfl⟩
    | fin _ hmeans =>
      subst hnew
      cases hmeans with
      | again | answerAgain =>
        exact ⟨by decide, fun h => absurd h (by decide), fun h => absurd h (by decide)⟩
    | datagram hps' =>
      rw [hps] at hps'
      have hne : ∀ k : Nat, 0x800 + k ≠ 11 := by omega
      exact absurd hps' (hne _)
    | answer _ hopp => exact absurd hopp (by decide)
    | echo hps' hecho =>
      simp only [ProtoState.isIcmpEcho, Bool.and_eq_true, decide_eq_true_eq] at hecho
      have hle : (0x800 + Net.ctrlFlags old : Nat) ≤ 14 := by
        rw [← hps, hps']
        exact hecho.2
      omega
  · rintro ⟨hle, hack, hdata⟩
    -- one phase of a TCP connection after the other
    have hcases : ∀ x : Nat, x ≤ 10 → x = 0 ∨ x = 1 ∨ x = 2 ∨ x = 3 ∨ x = 4 ∨ x = 5 ∨ x = 6 ∨
        x = 7 ∨ x = 8 ∨ x = 9 ∨ x = 10 := by omega
    have hno : ∀ {opposite data : Bool} {old' new : ProtoState}, pkt.hasData = data →
        AckMeans opposite data old' new → AckMeans opposite pkt.hasData old' new := by
      intro _ _ _ _ hd hmeans
      rw [hd]
      exact hmeans
    rcases hcases old hle with rfl | rfl | rfl | rfl | rfl | rfl | rfl | rfl | rfl | rfl | rfl
    · exact absurd htcp (by decide)
    · exact .syn hps
    · exact .synAck hps
    · exact .ack (.inl hps) (hno (hack (by decide)) .initAgain)
    · exact .ack (.inr hps) (hno (hdata (by decide)) .reqAgain)
    · exact .ack (.inl hps) (hno (hack (by decide)) .reqAckAgain)
    · exact .ack (.inr hps) (hno (hdata (by decide)) .repAgain)
    · exact .ack (.inl hps) (hno (hack (by decide)) .repAckAgain)
    · exact .fin hps .again
    · exact .fin hps .answerAgain
    · exact .ack (.inl hps) (hno (hack (by decide)) .termAgain)

theorem isEmpty_noIntf {pkt : Packet} :
    Packet.isEmpty { pkt with intf := none } = false ↔ pkt.srcIp ≠ 0 ∨ pkt.dstIp ≠ 0 ∨
      pkt.srcPort ≠ 0 ∨ pkt.dstPort ≠ 0 ∨ pkt.seq ≠ 0 ∨ pkt.ack ≠ 0 := by
  simp only [Packet.isEmpty, beq_self_eq_true, Bool.true_and, Bool.and_eq_false_iff,
    beq_eq_false_iff_ne, or_assoc]

structure ReadBack (c : ConnState) (r : Packet) : Prop where
  notEmpty : Packet.isEmpty { r with intf := none } = false
  srcPort : r.srcPort = c.srcPort
  dstPort : r.dstPort = c.dstPort
  seq : r.seq = c.seq
  ack : r.ack = c.ack
  payload : r.payload = c.payload
  carries : r.Carries false c.protoState c.protoState

theorem readBack_tcp_iff {c : ConnState} (dstIp : IPv4Address) (egress : IntfPtr)
    (htcp : c.protoState.isTcp = true) :
    c.ReadBack (c.returned egress dstIp) ↔ c.Returnable dstIp := by
  have hr : c.returned egress dstIp = _ := if_pos htcp
  have hnot : ¬ c.protoState.isTcp = false := by
    simp [htcp]
  have hcarries := carries_ctrlFlags (c.returned egress dstIp) htcp (by rw [hr])
  have hpayload : (c.returned egress dstIp).payload =
      Net.getPayload ((c.payload.getD []).take mss) := by
    rw [hr]
  constructor
  · intro h
    have hheader := isEmpty_noIntf.mp h.notEmpty
    rw [hr] at hheader
    obtain ⟨hne, hsize⟩ := (Net.getPayload_take _ mss).mp (hpayload.symm.trans h.payload)
    -- whether there is data tells the states with the same flags apart
    have hdata := Net.hasData_getPayload h.payload hne
    obtain ⟨hle, hack, hdataStates⟩ := hcarries.mp h.carries
    refine ⟨hheader, fun _ => ⟨hle, hne, hsize, ?_, ?_⟩, fun hfalse => absurd hfalse hnot⟩
    · intro hmem
      have hnone := hack hmem
      rw [hdata] at hnone
      exact Option.isNone_iff_eq_none.mp (by simpa using hnone)
    · intro hmem hnone
      have hsome := hdataStates hmem
      rw [hdata, hnone] at hsome
      exact absurd hsome (by decide)
  · intro h
    obtain ⟨hle, hne, hsize, hack, hdataStates⟩ := h.tcp htcp
    have hsame := hpayload.trans ((Net.getPayload_take _ mss).mpr ⟨hne, hsize⟩)
    have hdata := Net.hasData_getPayload hsame hne
    refine ⟨?_, by rw [hr], by rw [hr], by rw [hr], by rw [hr], hsame, ?_⟩
    · apply isEmpty_noIntf.mpr
      rw [hr]
      exact h.header
    · apply hcarries.mpr
      refine ⟨hle, ?_, ?_⟩
      · intro hmem
        rw [hdata, hack hmem]
        rfl
      · intro hmem
        rw [hdata]
        exact Option.isSome_iff_ne_none.mpr (hdataStates hmem)

theorem readBack_icmp_iff {c : ConnState} (dstIp : IPv4Address) (egress : IntfPtr)
    (hecho : c.protoState.isIcmpEcho = true) (htcp : ¬ c.protoState.isTcp = true) :
    c.ReadBack (c.returned egress dstIp) ↔ c.Returnable dstIp := by
  have hr : c.returned egress dstIp = _ := if_neg htcp
  have hnot : c.protoState.isTcp = false := by
    simpa using htcp
  constructor
  · intro h
    have hsrcPort := h.srcPort
    have hdstPort := h.dstPort
    have hseq := h.seq
    have hack := h.ack
    have hpayload := h.payload
    have hheader := isEmpty_noIntf.mp h.notEmpty
    rw [hr] at hsrcPort hdstPort hseq hack hpayload hheader
    refine ⟨?_, fun htrue => absurd htrue htcp, ?_⟩
    · rw [← hsrcPort, ← hdstPort, ← hseq, ← hack]
      exact hheader
    · intro _
      exact ⟨hsrcPort.symm, hdstPort.symm, hseq.symm, hack.symm, hpayload.symm⟩
  · intro h
    obtain ⟨hsrcPort, hdstPort, hseq, hack, hpayload⟩ := h.icmp hnot
    have hheader := h.header
    rw [hsrcPort, hdstPort, hseq, hack] at hheader
    rw [hr]
    refine ⟨?_, hsrcPort.symm, hdstPort.symm, hseq.symm, hack.symm, hpayload.symm, ?_⟩
    · exact isEmpty_noIntf.mpr hheader
    · exact .echo rfl hecho

theorem readBack_iff {c : ConnState} (dstIp : IPv4Address) (egress : IntfPtr)
    (hproto : c.protoState.isTcp = true ∨ c.protoState.isIcmpEcho = true) :
    c.ReadBack (c.returned egress dstIp) ↔ c.Returnable dstIp := by
  by_cases htcp : c.protoState.isTcp = true
  · exact readBack_tcp_iff dstIp egress htcp
  · exact readBack_icmp_iff dstIp egress (hproto.resolve_left htcp) htcp

end ConnState

end Neo
