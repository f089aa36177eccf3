import Neo.Emulation.Libnet
import Neo.Emulation.Returned
import Neo.Process.Answer

/-! A middlebox that gives back the frame it is given is not seen by the connection, as far as its
packet is read back from the frame. -/

namespace Neo

def ConnState.passedOn (c : ConnState) (nextHop : Option FibIpnh) : ConnState :=
  { c with
    executable := if nextHop.isSome then 2 else 0
    candidates := some nextHop.toList
    fwdMode := if nextHop.isSome then .forwardPacket else .dropped }

namespace Model

variable {P : Plankton} {t m' : Model} {mb : NodePtr} {ec : EcPtr} {dstIp : IPv4Address}
  {egress : IntfPtr} {pkt : Packet}

def mbNextHop (P : Plankton) (mb : NodePtr) (egress : IntfPtr) (dstIp : IPv4Address) :
    Option FibIpnh :=
  P.network.getIpnh mb (P.network.intf egress).name dstIp

def passOn (t : Model) (nextHop : Option FibIpnh) : Model :=
  (t.setCur (t.cur.passedOn nextHop)).setChoiceCount nextHop.toList.length

structure SamePhase (P : Plankton) (t : Model) (pkt : Packet) : Prop where
  identified : pkt.identifyConn P t = some (pkt.ofConn false false t.conn)
  state : (pkt.ofConn false false t.conn).processProtoState t =
    some ((pkt.ofConn false false t.conn).inState t.cur.protoState false)

/-- The middlebox is not seen: the answer is one packet of the same connection, direction and
phase, and what is left is the connection on its way to the next hop. -/
def Invisible (P : Plankton) (t : Model) (mb : NodePtr) (nextHop : Option FibIpnh)
    (result : InjectionResult) : Prop :=
  ∃ pkt, result = ⟨[pkt], false⟩ ∧ SamePhase P t pkt ∧
    t.updateModelFromInjectionResult P mb result = some (t.passOn nextHop)

theorem returned_fromWire {c : ConnState} (egress : IntfPtr) (dstIp : IPv4Address)
    (hproto : c.protoState.isTcp = true ∨ c.protoState.isIcmpEcho = true) :
    (c.returned egress dstIp).FromWire ∧
      (c.returned egress dstIp).protoState.toProto = c.protoState.toProto := by
  by_cases htcp : c.protoState.isTcp = true
  · have hr : c.returned egress dstIp = _ := if_pos htcp
    have hlt := Net.ctrlFlags_lt c.protoState
    have hflags := Packet.isFlags_add hlt
    refine ⟨⟨?_, ?_⟩, ?_⟩
    · rw [hr]
      exact Option.some_ne_none _
    · rw [hr]
      exact .inl ⟨_, hlt, rfl⟩
    · rw [hr]
      have htcp' : ProtoState.isTcp (0x800 + Net.ctrlFlags c.protoState) = true := by
        unfold ProtoState.isTcp
        rw [hflags, Bool.or_true]
      unfold ProtoState.toProto
      rw [if_pos htcp, if_pos htcp']
  · have hr : c.returned egress dstIp = _ := if_neg htcp
    refine ⟨⟨?_, ?_⟩, ?_⟩
    · rw [hr]
      exact Option.some_ne_none _
    · right
      right
      rw [hr]
      have hecho := hproto.resolve_left htcp
      simp only [ProtoState.isIcmpEcho, Bool.and_eq_true, decide_eq_true_eq] at hecho
      have hor : ∀ x : Nat, 13 ≤ x → x ≤ 14 → x = 13 ∨ x = 14 := by omega
      exact hor _ hecho.1 hecho.2
    · rw [hr]

theorem returned_ip (c : ConnState) (egress : IntfPtr) (dstIp : IPv4Address) :
    (c.returned egress dstIp).srcIp = c.srcIp ∧
    (c.returned egress dstIp).dstIp = dstIp ∧ (c.returned egress dstIp).intf = some egress := by
  unfold ConnState.returned
  split_ifs
  · exact ⟨rfl, rfl, rfl⟩
  · exact ⟨rfl, rfl, rfl⟩

theorem contains_representativeAddr {ranges : EqClass}
    (h : EqClass.representativeAddr ranges = some dstIp) :
    EqClass.contains ranges dstIp = true := by
  obtain ⟨r, hr, rfl⟩ := Option.map_eq_some_iff.mp h
  apply List.any_eq_true.mpr
  exact ⟨r, List.mem_of_head? hr, decide_eq_true r.lb_mem⟩

theorem samePhase_returned (h : P.Addressed t)
    (hproto : t.cur.protoState.isTcp = true ∨ t.cur.protoState.isIcmpEcho = true)
    (hec : t.cur.dstIpEc = some ec)
    (hdst : EqClass.representativeAddr (P.ecs.ranges ec) = some dstIp)
    (hread : t.cur.ReadBack (t.cur.returned egress dstIp)) :
    SamePhase P t (t.cur.returned egress dstIp) := by
  obtain ⟨hwire, hsame⟩ := returned_fromWire egress dstIp hproto
  obtain ⟨hsrcIp, hdstIp, -⟩ := returned_ip t.cur egress dstIp
  have hdirection : t.cur.flow.direction P (t.cur.returned egress dstIp) = some false := by
    have hhas : t.cur.flow.dstHas P dstIp = true := by
      have hcontains := contains_representativeAddr hdst
      simpa [Flow.dstHas, ConnState.flow, hec] using hcontains
    have hproto' : ¬ (t.cur.returned egress dstIp).protoState.toProto ≠
        t.cur.flow.protoState.toProto := not_not.mpr hsame
    unfold Flow.direction
    rw [if_neg hproto', hdstIp]
    exact if_pos ⟨hsrcIp, hhas, hread.srcPort, hread.dstPort⟩
  have howner : t.flows.owner P (t.cur.returned egress dstIp) = some (t.conn, false) := by
    have hhead : (t.flows.flow t.flows.conn).direction P (t.cur.returned egress dstIp) =
        some false := hdirection
    unfold FlowTable.owner
    rw [List.findSome?_cons, hhead]
    rfl
  refine ⟨?_, ?_⟩
  · rw [Packet.identifyConn_eq _ h, howner]
  · apply (Packet.processProtoState_known (hwire.ofConn false false t.conn) rfl).mpr
    refine ⟨t.cur.protoState, Packet.carries_ofConn.mpr hread.carries, ?_⟩
    exact (if_pos rfl).symm

theorem checkSeqAck_returned (hread : t.cur.ReadBack pkt) :
    (((pkt.ofConn false false t.conn).inState t.cur.protoState false).checkSeqAck t).isSome =
      true := by
  have hknown := Packet.checkSeqAck_known t (pkt.ofConn false false t.conn) t.cur.protoState rfl
  have hstay : decide (t.cur.protoState ≠ (t.connState t.conn).protoState) = false :=
    decide_eq_false (not_not.mpr rfl)
  have hstay' : (pkt.ofConn false false t.conn).conn = t.conn := rfl
  rw [hstay', hstay] at hknown
  apply hknown.mpr
  intro _
  exact (if_pos rfl).mpr ⟨hread.seq, hread.ack, hread.payload⟩

theorem setFlow_returned (hread : t.cur.ReadBack pkt) (hec : t.cur.dstIpEc = some ec)
    (hfind : P.ecs.findEc dstIp = some ec) (hsrcIp : pkt.srcIp = t.cur.srcIp)
    (hdstIp : pkt.dstIp = dstIp) :
    t.setFlow P ((pkt.ofConn false false t.conn).inState t.cur.protoState false) =
      some (t.setCur { t.cur with executable := 2 }) := by
  generalize hq : (pkt.ofConn false false t.conn).inState t.cur.protoState false = q
  have hfind' : P.ecs.findEc q.dstIp = some ec := by
    rw [← hq, ← hfind, ← hdstIp]
    rfl
  have hsameFlow : { t.cur with
      executable := 2
      protoState := q.protoState
      srcIp := q.srcIp
      dstIpEc := some ec
      srcPort := q.srcPort
      dstPort := q.dstPort
      seq := q.seq
      ack := q.ack
      payload := q.payload } = { t.cur with executable := 2 } := by
    rw [← hq]
    dsimp only [Packet.inState, Packet.ofConn]
    rw [hsrcIp, hread.srcPort, hread.dstPort, hread.seq, hread.ack, hread.payload, ← hec]
  unfold setFlow
  rw [hfind', Option.bind_eq_bind, Option.bind_some, hsameFlow, hec]
  exact if_neg (not_not.mpr rfl)

theorem receivePacket_returned (mb : NodePtr) (hsame : SamePhase P t pkt)
    (hwire : pkt.FromWire) (hread : t.cur.ReadBack pkt) (hec : t.cur.dstIpEc = some ec)
    (hfind : P.ecs.findEc dstIp = some ec) (hsrcIp : pkt.srcIp = t.cur.srcIp)
    (hdstIp : pkt.dstIp = dstIp) (hintf : pkt.intf = some egress)
    (hproto : pkt.protoState.toProto = t.cur.protoState.toProto) :
    receivePacket P mb (t, false, false) pkt =
      some ((t.setCur { t.cur with
        executable := 2
        fwdMode := .forwardPacket
        candidates := some (mbNextHop P mb egress dstIp).toList }).setChoiceCount
          (mbNextHop P mb egress dstIp).toList.length, true, false) := by
  have hvalid : t.cur.protoState ≠ psInvalid := hread.carries.ne_invalid hproto
  have hflow := setFlow_returned (P := P) hread hec hfind hsrcIp hdstIp
  obtain ⟨u, hcheck⟩ := Option.isSome_iff_exists.mp (checkSeqAck_returned hread)
  generalize hq : (pkt.ofConn false false t.conn).inState t.cur.protoState false = q at hcheck hflow
  -- what was read back is the packet of the state itself: only the hops are new
  have hphase : ∀ m : Model,
      m.setPhase mb q = m.setCur { m.cur with fwdMode := .forwardPacket } := by
    intro m
    rw [← hq]
    rfl
  have hhop : ∀ m : Model, m.setMbNextHop P mb q =
      some ((m.setCur { m.cur with candidates := some (mbNextHop P mb egress dstIp).toList
        }).setChoiceCount (mbNextHop P mb egress dstIp).toList.length) := by
    intro m
    have hintf' : q.intf = some egress := by
      rw [← hq, ← hintf]
      rfl
    have hdstIp' : q.dstIp = dstIp := by
      rw [← hq, ← hdstIp]
      rfl
    unfold setMbNextHop
    rw [hintf', hdstIp']
    rfl
  have hconn : q.conn = t.conn := by
    rw [← hq]
    rfl
  have hvalid' : q.protoState ≠ psInvalid := by
    rw [← hq]
    exact hvalid
  rw [receivePacket_eq hwire.isEmpty_eq hsame.identified hsame.state, hq, if_neg hvalid', hcheck,
    Option.bind_some, hconn]
  have hself : t.setConn t.conn = t := rfl
  rw [hself, hflow, Option.bind_some, hphase, hhop, Option.bind_some]
  simp only [cur_setCur, setCur_setCur, beq_self_eq_true, Bool.or_true, bne_self_eq_false,
    Bool.or_false]
  rfl

theorem settleCurrent_passOn (mb : NodePtr) (nextHop : Option FibIpnh) :
    ((t.setCur { t.cur with
      executable := 2
      fwdMode := .forwardPacket
      candidates := some nextHop.toList }).setChoiceCount nextHop.toList.length).settleCurrent mb
        false true false = some (t.passOn nextHop) := by
  have hcomm : ∀ (m : Model) (c : ConnState) (k : Nat),
      (m.setChoiceCount k).setCur c = (m.setCur c).setChoiceCount k := fun _ _ _ => rfl
  unfold settleCurrent
  simp only [Bool.not_true, Bool.false_eq_true, if_false, cur_setChoiceCount, cur_setCur,
    Option.bind_eq_bind, Option.bind_some]
  cases nextHop with
  | none =>
    rw [if_pos (by rfl)]
    unfold dropCur passOn
    rw [cur_setChoiceCount, cur_setCur, hcomm, setCur_setCur]
    rfl
  | some hop => rfl

theorem settleCurrent_flow {explicitDrop cu ou : Bool}
    (h : t.settleCurrent mb explicitDrop cu ou = some m') : m'.cur.flow = t.cur.flow := by
  rcases settleCurrent_cases h with rfl | ⟨-, rfl⟩ | ⟨-, candidates, -, -, rfl⟩
  · rw [dropCur, cur_setCur]
    rfl
  · rw [cur_setChoiceCount, cur_setCur]
    rfl
  · rw [cur_setChoiceCount]

theorem invisible_of_readBack (h : P.Addressed t)
    (hproto : t.cur.protoState.isTcp = true ∨ t.cur.protoState.isIcmpEcho = true)
    (hec : t.cur.dstIpEc = some ec)
    (hdst : EqClass.representativeAddr (P.ecs.ranges ec) = some dstIp)
    (hread : t.cur.ReadBack (t.cur.returned egress dstIp)) :
    Invisible P t mb (mbNextHop P mb egress dstIp) ⟨[t.cur.returned egress dstIp], false⟩ := by
  have hsame := samePhase_returned h hproto hec hdst hread
  obtain ⟨hwire, htoProto⟩ := returned_fromWire egress dstIp hproto
  obtain ⟨hsrcIp, hdstIp, hintf⟩ := returned_ip t.cur egress dstIp
  have hfind : P.ecs.findEc dstIp = some ec := by
    obtain ⟨ec', hisEc, hec'⟩ := h.classed t.conn h.conn
    obtain rfl := Option.some.inj (hec.symm.trans hec')
    obtain ⟨addr, haddr, hfind⟩ := Plankton.representativeAddr_of_isEc hisEc
    obtain rfl := Option.some.inj (hdst.symm.trans haddr)
    exact hfind
  refine ⟨_, rfl, hsame, ?_⟩
  have hreceive := receivePacket_returned mb hsame hwire hread hec hfind hsrcIp hdstIp
    hintf htoProto
  unfold updateModelFromInjectionResult
  simp only [List.foldlM_cons, List.foldlM_nil, hreceive, Option.bind_eq_bind, Option.bind_some]
  exact settleCurrent_passOn mb _

theorem readBack_of_invisible (h : P.Addressed t) (hwire : pkt.FromWire)
    (hproto : pkt.protoState.toProto = t.cur.protoState.toProto) {nextHop : Option FibIpnh}
    (hinvisible : Invisible P t mb nextHop ⟨[pkt], false⟩)
    (hempty : Packet.isEmpty { pkt with intf := none } = false) : t.cur.ReadBack pkt := by
  obtain ⟨pkt', heq, hsame, hupdate⟩ := hinvisible
  obtain rfl : pkt = pkt' := by simpa using heq
  -- the phase did not advance, so the packet carries the one of the connection
  have hcarries : pkt.Carries false t.cur.protoState t.cur.protoState := by
    obtain ⟨new, hcarries, hstate⟩ := (Packet.processProtoState_known
      (hwire.ofConn false false t.conn) rfl).mp hsame.state
    rw [Packet.carries_ofConn] at hcarries
    have hold : ((t.connState (pkt.ofConn false false t.conn).conn).protoState) =
        t.cur.protoState := rfl
    rw [hold] at hstate
    split_ifs at hstate with hstay hnext
    · rw [hstay] at hcarries
      exact hcarries
    · exact absurd (congrArg Packet.nextPhase hstate) Bool.false_ne_true
    · have hzero : t.cur.protoState = psInvalid := congrArg Packet.protoState hstate
      rw [hzero] at hstay hnext
      exact absurd (Nat.pos_of_ne_zero hstay) hnext
  -- the flow that was filed is the one that was there
  have hflow : ∃ ec, t.cur.flow = pkt.flow t.cur.protoState ec := by
    simp only [updateModelFromInjectionResult, List.foldlM_cons, List.foldlM_nil,
      Option.bind_eq_bind, Option.bind_eq_some_iff] at hupdate
    obtain ⟨-, -, st, ⟨st₁, hreceive, hst⟩, hsettle⟩ := hupdate
    obtain rfl := Option.some.inj hst
    have hvalid := hcarries.ne_invalid hproto
    obtain ⟨-, ec, -, hflows⟩ := (receivePacket_file h.legal hwire.isEmpty_eq hsame.identified
      hsame.state hvalid hwire.intf).mp ⟨st₁, hreceive, rfl⟩
    have hfiled : st₁.1.cur.flow = pkt.flow t.cur.protoState ec := by
      have hconn : st₁.1.flows.conn = t.conn := congrArg FlowTable.conn hflows
      have hslot := congrFun (congrArg FlowTable.flow hflows) t.conn
      have hcur : st₁.1.flows.flow t.conn = st₁.1.cur.flow := by
        rw [← hconn]
        rfl
      rw [← hcur, hslot]
      exact Function.update_self ..
    refine ⟨ec, ?_⟩
    rw [← hfiled]
    have hsettled := settleCurrent_flow hsettle
    rw [passOn, cur_setChoiceCount, cur_setCur] at hsettled
    exact hsettled
  obtain ⟨ec, hflow⟩ := hflow
  exact ⟨hempty, (congrArg Flow.srcPort hflow).symm, (congrArg Flow.dstPort hflow).symm,
    (congrArg Flow.seq hflow).symm, (congrArg Flow.ack hflow).symm,
    (congrArg Flow.payload hflow).symm, hcarries⟩

theorem sendPkt_invisible_iff (h : P.Addressed t) (env : SendEnv) (mac : IntfPtr → Mac)
    (o : Offsets) (hpkt : Packet.ofModel P t = some pkt)
    (hproto : t.cur.protoState.isTcp = true ∨ t.cur.protoState.isIcmpEcho = true)
    (hsrc : P.network.hasIp t.cur.pktLocation pkt.srcIp = false)
    (hdst : P.network.hasIp t.cur.pktLocation pkt.dstIp = false) :
    (∃ result, env.sendPkt P.network.toTopology t.cur.pktLocation mac o
        (fun frame => [(egress, frame)]) pkt = some (result, o) ∧
      Invisible P t t.cur.pktLocation (mbNextHop P t.cur.pktLocation egress pkt.dstIp) result) ↔
      t.cur.ingressIntf ≠ none ∧ t.cur.Returnable pkt.dstIp := by
  simp only [Packet.ofModel, Option.bind_eq_bind, Option.bind_eq_some_iff] at hpkt
  obtain ⟨ec, hec, dstIp, haddr, hpkt⟩ := hpkt
  obtain rfl := Option.some.inj hpkt
  have hreturned : ∀ ingress, t.cur.ingressIntf = some ingress →
      env.sendPkt P.network.toTopology t.cur.pktLocation mac o (fun frame => [(egress, frame)])
        (t.cur.toPacket t.conn dstIp) =
          some (⟨if Packet.isEmpty { t.cur.returned egress dstIp with intf := none } then []
            else [t.cur.returned egress dstIp], false⟩, o) := by
    intro ingress hintf
    exact SendEnv.sendPkt_returned hproto hintf hsrc hdst
  have hread := ConnState.readBack_iff dstIp egress hproto
  obtain ⟨hwire, htoProto⟩ := returned_fromWire egress dstIp hproto
  constructor
  · intro ⟨result, hsend, hinvisible⟩
    have hintf : t.cur.ingressIntf ≠ none := SendEnv.intf_of_sendPkt hsend
    obtain ⟨ingress, hingress⟩ := Option.ne_none_iff_exists'.mp hintf
    have heq := (hreturned ingress hingress).symm.trans hsend
    have hresult := congrArg Prod.fst (Option.some.inj heq)
    refine ⟨hintf, hread.mp ?_⟩
    cases hempty : Packet.isEmpty { t.cur.returned egress dstIp with intf := none } with
    | true =>
      -- nothing was received
      rw [hempty, if_pos rfl] at hresult
      obtain ⟨_, hone, -⟩ := hinvisible
      have hnil := congrArg InjectionResult.recvPkts (hresult.trans hone)
      exact absurd hnil (List.cons_ne_nil _ _).symm
    | false =>
      rw [hempty, if_neg Bool.false_ne_true] at hresult
      subst hresult
      exact readBack_of_invisible h hwire htoProto hinvisible hempty
  · intro ⟨hintf, hreturnable⟩
    obtain ⟨ingress, hingress⟩ := Option.ne_none_iff_exists'.mp hintf
    have hback := hread.mpr hreturnable
    have hsend := hreturned ingress hingress
    rw [hback.notEmpty, if_neg Bool.false_ne_true] at hsend
    exact ⟨_, hsend, invisible_of_readBack h hproto hec haddr hback⟩

end Model

namespace Plankton

variable {P : Plankton} {V : Invariants} {s t : Model} {tr : List (Link Model Label)}
  {pkt : Packet}

/-- In every state a verification reaches, a middlebox that is no end of the connection and gives
back the frame it is given is not seen, exactly if the packet came in at an interface and is read
back from its frame. -/
theorem invisible_iff (hV : P.OfClasses V) (hconns : V.HasConns) (hs : P.initModel V = some s)
    (h : Run (P.step V) s tr t) (env : SendEnv) (mac : IntfPtr → Mac) (o : Offsets)
    (egress : IntfPtr) (hpkt : Packet.ofModel P t = some pkt)
    (hproto : t.cur.protoState.isTcp = true ∨ t.cur.protoState.isIcmpEcho = true)
    (hsrc : P.network.hasIp t.cur.pktLocation pkt.srcIp = false)
    (hdst : P.network.hasIp t.cur.pktLocation pkt.dstIp = false) :
    (∃ result, env.sendPkt P.network.toTopology t.cur.pktLocation mac o
        (fun frame => [(egress, frame)]) pkt = some (result, o) ∧
      Model.Invisible P t t.cur.pktLocation
        (Model.mbNextHop P t.cur.pktLocation egress pkt.dstIp) result) ↔
      t.cur.ingressIntf ≠ none ∧ t.cur.Returnable pkt.dstIp := by
  have haddressed := run_addressed hV hconns hs h
  exact Model.sendPkt_invisible_iff haddressed env mac o hpkt hproto hsrc hdst

/-! Two middleboxes between two hosts. -/

section Chain

def chainIntf : IntfPtr → Interface
  | 10 => ⟨2, ⟨0x0A000001#32, 24, twentyFour_le⟩, false⟩
  | 11 => ⟨2, ⟨0x0A000002#32, 24, twentyFour_le⟩, false⟩
  | 12 => ⟨3, ⟨0x0A000101#32, 24, twentyFour_le⟩, false⟩
  | 13 => ⟨2, ⟨0x0A000102#32, 24, twentyFour_le⟩, false⟩
  | 14 => ⟨3, ⟨0x0A000201#32, 24, twentyFour_le⟩, false⟩
  | _ => ⟨2, ⟨0x0A000202#32, 24, twentyFour_le⟩, false⟩

def throughRoute (i : Interface) (egressIntf : IntfName) : Route :=
  ⟨i.ipv4.network, 0#32, egressIntf, 1⟩

def chainNode : NodePtr → Node
  | 0 => ⟨[10], [connectedRoute (chainIntf 10), throughRoute (chainIntf 15) 2],
      by unfold Ordered.WeakSorted; decide, [(2, 1, 11)], false⟩
  | 1 => ⟨[11, 12], [], Route.weakSorted_nil, [(2, 0, 10), (3, 2, 13)], true⟩
  | 2 => ⟨[13, 14], [], Route.weakSorted_nil, [(2, 1, 12), (3, 3, 15)], true⟩
  | 3 => ⟨[15], [throughRoute (chainIntf 10) 2, connectedRoute (chainIntf 15)],
      by unfold Ordered.WeakSorted; decide, [(2, 2, 14)], false⟩
  | _ => ⟨[], [], Route.weakSorted_nil, [], false⟩

def chain : Network where
  nodes := [0, 1, 2, 3]
  node := chainNode
  intf := chainIntf
  peer_mem n p hp := by
    rcases n with _ | _ | _ | _ | n <;> simp [chainNode] at hp ⊢
    · subst hp; simp
    · rcases hp with rfl | rfl <;> simp
    · rcases hp with rfl | rfl <;> simp
    · subst hp; simp
  l2Lan _ _ := ⟨[], []⟩
  lan_built _ _ := ⟨1, 0, rfl⟩

def chainPlankton : Plankton := .ofNetwork chain (noUpdates _)

def chainConn : Connection where
  protocol := .tcp
  srcNode := 0
  dstIpEc := (chainPlankton.ecs.findEc 0x0A000202#32).getD 0
  srcPort := 100#16
  dstPort := 80#16
  srcIp := 0#32
  seq := 0#32
  ack := 0#32

theorem chain_ofClasses : chainPlankton.OfClasses (unchecked [chainConn]) := by
  intro k inv hinv c hc
  obtain rfl := Option.some.inj hinv
  rw [List.mem_singleton.mp hc]
  have hfound : (chainPlankton.ecs.findEc 0x0A000202#32).isSome = true := by
    decide +kernel
  obtain ⟨ec, hec⟩ := Option.isSome_iff_exists.mp hfound
  refine ⟨0x0A000202#32, ?_⟩
  rw [hec, chainConn, hec]
  rfl

def libnetEnv : SendEnv where
  libnet := .standard
  hash pkt := pkt.seq.toNat
  order := id
  order_perm _ := .refl _

def chainSegment (intf : IntfPtr) (answers : Bool) (seq ack : BitVec 32) (flags : Nat)
    (payload : Option Payload) : InjectionResult :=
  ⟨[{ Net.cleared with
      intf := some intf
      srcIp := if answers then 0x0A000202#32 else 0x0A000001#32
      dstIp := if answers then 0x0A000001#32 else 0x0A000202#32
      srcPort := if answers then 80 else 100
      dstPort := if answers then 100 else 80
      seq := seq
      ack := ack
      protoState := 0x800 + flags
      payload := payload }], false⟩

def inject (result : InjectionResult) : List Label := [go, ⟨0, [result], none⟩]

def chainLabels : List Label :=
  [go, go] ++ inject (chainSegment 12 false 0 0 0x02 none) ++ [go, go] ++
    inject (chainSegment 13 true 0 1 0x12 none) ++ [go, go] ++
      inject (chainSegment 12 false 1 1 0x18 (some [0x47])) ++ [go, go] ++
        inject (chainSegment 14 false 1 1 0x10 (some [0x47]))

theorem invisible_iff_syn : ∃ s t tr, chainPlankton.initModel (unchecked [chainConn]) = some s ∧
    Run (chainPlankton.step (unchecked [chainConn])) s tr t ∧ t.cur.fwdMode = .chooseInjRes ∧
      t.cur.pktLocation = 1 ∧ ∃ pkt result, Packet.ofModel chainPlankton t = some pkt ∧
        libnetEnv.sendPkt chain.toTopology 1 (fun _ => #v[2, 0, 0, 0, 0, 1])
          ⟨fun _ => none, fun _ => none⟩ (fun frame => [(12, frame)]) pkt =
            some (result, ⟨fun _ => none, fun _ => none⟩) ∧
          Model.Invisible chainPlankton t 1 (some ⟨2, some 13, 2, some 13⟩) result := by
  have hrun : ((chainPlankton.initModel (unchecked [chainConn])).bind fun s =>
      (execute (chainPlankton.step (unchecked [chainConn])) s (chainLabels.take 4)).bind fun r =>
        (Packet.ofModel chainPlankton r.2).map fun pkt => decide (
          r.2.cur.fwdMode = .chooseInjRes ∧ r.2.cur.pktLocation = 1 ∧
            r.2.cur.ingressIntf = some 11 ∧ r.2.cur.protoState = psTcpInit1 ∧
              r.2.cur.payload = none ∧ r.2.cur.srcIp = 0x0A000001#32 ∧
                pkt.srcIp = 0x0A000001#32 ∧ pkt.dstIp = 0x0A000202#32)) = some true := by
    decide +kernel
  obtain ⟨s, hs, hrun⟩ := Option.bind_eq_some_iff.mp hrun
  obtain ⟨⟨tr, t⟩, hexec, hrun⟩ := Option.bind_eq_some_iff.mp hrun
  obtain ⟨pkt, hpkt, hr⟩ := Option.map_eq_some_iff.mp hrun
  obtain ⟨hmode, hloc, hintf, hstate, hpayload, hcurSrc, hsrcIp, hdstIp⟩ := of_decide_eq_true hr
  have htcp : t.cur.protoState.isTcp = true := by
    rw [hstate]
    decide
  have hreturnable : t.cur.Returnable pkt.dstIp := by
    refine ⟨.inl ?_, ?_, fun hnot => absurd htcp (by simp [hnot])⟩
    · rw [hcurSrc]
      decide
    · intro _
      rw [hstate, hpayload]
      exact ⟨by decide, by decide, by decide, fun _ => rfl, fun hdata => absurd hdata (by decide)⟩
  have hiff := invisible_iff chain_ofClasses unchecked_hasConns hs
    (run_of_execute hexec) libnetEnv (fun _ => #v[2, 0, 0, 0, 0, 1])
    ⟨fun _ => none, fun _ => none⟩ 12 hpkt (.inl htcp) (by rw [hloc, hsrcIp]; decide)
    (by rw [hloc, hdstIp]; decide)
  obtain ⟨result, hsend, hinvisible⟩ := hiff.mpr ⟨by rw [hintf]; decide, hreturnable⟩
  rw [hloc] at hsend hinvisible
  rw [hdstIp] at hinvisible
  exact ⟨s, t, tr, hs, run_of_execute hexec, hmode, hloc, pkt, result, hpkt, hsend, hinvisible⟩

/-- The data that was sent with the acknowledgement of the handshake, at the second middlebox. The
state of the protocol that its frame means is another one. -/
theorem not_invisible : ¬ ∀ (P : Plankton) (V : Invariants) (s t : Model)
    (tr : List (Link Model Label)) (env : SendEnv) (mac : IntfPtr → Mac) (o : Offsets)
    (egress : IntfPtr) (pkt : Packet), P.OfClasses V → V.HasConns → P.initModel V = some s →
      Run (P.step V) s tr t → t.cur.fwdMode = .chooseInjRes → Packet.ofModel P t = some pkt →
        (t.cur.protoState.isTcp = true ∨ t.cur.protoState.isIcmpEcho = true) →
          P.network.hasIp t.cur.pktLocation pkt.srcIp = false →
            P.network.hasIp t.cur.pktLocation pkt.dstIp = false →
              ∃ result, env.sendPkt P.network.toTopology t.cur.pktLocation mac o
                (fun frame => [(egress, frame)]) pkt = some (result, o) ∧
                  Model.Invisible P t t.cur.pktLocation
                    (Model.mbNextHop P t.cur.pktLocation egress pkt.dstIp) result := by
  intro h
  have hrun : ((chainPlankton.initModel (unchecked [chainConn])).bind fun s =>
      (execute (chainPlankton.step (unchecked [chainConn])) s chainLabels).bind fun r =>
        (Packet.ofModel chainPlankton r.2).map fun pkt => decide (
          r.2.cur.fwdMode = .chooseInjRes ∧ r.2.cur.pktLocation = 2 ∧
            r.2.cur.protoState = psTcpInit3 ∧ r.2.cur.payload = some [0x47] ∧
              pkt.srcIp = 0x0A000001#32 ∧ pkt.dstIp = 0x0A000202#32)) = some true := by
    decide +kernel
  obtain ⟨s, hs, hrun⟩ := Option.bind_eq_some_iff.mp hrun
  obtain ⟨⟨tr, t⟩, hexec, hrun⟩ := Option.bind_eq_some_iff.mp hrun
  obtain ⟨pkt, hpkt, hr⟩ := Option.map_eq_some_iff.mp hrun
  obtain ⟨hmode, hloc, hstate, hpayload, hsrcIp, hdstIp⟩ := of_decide_eq_true hr
  have htcp : t.cur.protoState.isTcp = true := by
    rw [hstate]
    decide
  have hsrc : chainPlankton.network.hasIp t.cur.pktLocation pkt.srcIp = false := by
    rw [hloc, hsrcIp]
    decide
  have hdst : chainPlankton.network.hasIp t.cur.pktLocation pkt.dstIp = false := by
    rw [hloc, hdstIp]
    decide
  have hinvisible := h _ _ s t tr libnetEnv (fun _ => #v[2, 0, 0, 0, 0, 1])
    ⟨fun _ => none, fun _ => none⟩ 14 pkt chain_ofClasses unchecked_hasConns hs
    (run_of_execute hexec) hmode hpkt (.inl htcp) hsrc hdst
  have haddressed := run_addressed chain_ofClasses unchecked_hasConns hs (run_of_execute hexec)
  have hreturnable := ((Model.sendPkt_invisible_iff haddressed _ _ _ hpkt (.inl htcp) hsrc
    hdst).mp hinvisible).2
  obtain ⟨-, -, -, hack, -⟩ := hreturnable.tcp htcp
  -- an acknowledgement that carries data is read back as a request
  have hnone := hack (by rw [hstate]; decide)
  rw [hpayload] at hnone
  exact absurd hnone (by decide)

end Chain

end Plankton

end Neo
