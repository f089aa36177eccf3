import Neo.Process.Answer

/-! What a step leaves of the packet of a connection. On its way a packet stays the same, but for
the source address that it is given where it leaves its first sender; a middlebox may pass it on as
it is, or go on to a later phase; and only an accepted packet is followed by another one. -/

namespace Neo

def Plankton.Owned (P : Plankton) (a : IPv4Address) : Prop :=
  ∃ n ∈ P.network.nodes, P.network.hasIp n a = true

structure Ends where
  srcIp : IPv4Address
  dstIpEc : Option EcPtr
  srcPort : BitVec 16
  dstPort : BitVec 16

namespace ConnState

variable {P : Plankton} {c c' c'' : ConnState}

def ends (c : ConnState) : Ends where
  srcIp := c.srcIp
  dstIpEc := c.dstIpEc
  srcPort := c.srcPort
  dstPort := c.dstPort

def Early (c : ConnState) : Prop := c.fwdMode = .firstCollect ∨ c.fwdMode = .firstForward

structure SamePacket (c c' : ConnState) : Prop where
  protoState : c'.protoState = c.protoState
  packet : c.protoState.isTcp = true → c'.seq = c.seq ∧ c'.ack = c.ack ∧ c'.payload = c.payload
  early : c'.Early → c.Early ∧ c'.pktLocation = c.pktLocation

theorem samePacket_refl (c : ConnState) : SamePacket c c :=
  ⟨rfl, fun _ => ⟨rfl, rfl, rfl⟩, fun h => ⟨h, rfl⟩⟩

theorem SamePacket.trans (h : SamePacket c c') (h' : SamePacket c' c'') : SamePacket c c'' := by
  refine ⟨h'.protoState.trans h.protoState, fun htcp => ?_, fun hearly => ?_⟩
  · obtain ⟨hseq, hack, hpayload⟩ := h.packet htcp
    obtain ⟨hseq', hack', hpayload'⟩ := h'.packet (by rwa [h.protoState])
    exact ⟨hseq'.trans hseq, hack'.trans hack, hpayload'.trans hpayload⟩
  · obtain ⟨hearly', hloc'⟩ := h'.early hearly
    obtain ⟨hearly'', hloc⟩ := h.early hearly'
    exact ⟨hearly'', hloc'.trans hloc⟩

structure Moves (P : Plankton) (c c' : ConnState) : Prop extends SamePacket c c' where
  ends : ∃ srcIp, c'.ends = { c.ends with srcIp := srcIp } ∧ (srcIp = c.srcIp ∨
    c.protoState.isFirst = true ∧ c.Early ∧ (c.pktLocation ∈ P.network.nodes → P.Owned srcIp))

theorem moves_of_same (h : SamePacket c c') (hends : c'.ends = c.ends) : Moves P c c' :=
  ⟨h, c.srcIp, hends, .inl rfl⟩

theorem moves_refl (c : ConnState) : Moves P c c := moves_of_same (samePacket_refl c) rfl

end ConnState

namespace Model

open ConnState

variable {P : Plankton} {m m' : Model}

theorem moves_setCur {c : ConnState} (h : Moves P m.cur c) (i : Nat) :
    Moves P (m.connState i) ((m.setCur c).connState i) := by
  rw [setCur_connState]
  split_ifs with hi
  · rw [hi]
    exact h
  · exact moves_refl _

theorem collectNextHops_moves {results : List InjectionResult}
    (h : m.collectNextHops P results = some m') :
    Moves P m.cur m'.cur ∧ m'.cur.pktLocation = m.cur.pktLocation := by
  have hlate : ∀ {c : ConnState}, c.protoState = m.cur.protoState → c.seq = m.cur.seq →
      c.ack = m.cur.ack → c.payload = m.cur.payload → c.ends = m.cur.ends →
        c.pktLocation = m.cur.pktLocation → ¬ c.Early →
          Moves P m.cur c ∧ c.pktLocation = m.cur.pktLocation := by
    intro c hps hseq hack hpayload hends hloc hearly
    exact ⟨moves_of_same ⟨hps, fun _ => ⟨hseq, hack, hpayload⟩, fun h => absurd h hearly⟩ hends,
      hloc⟩
  rcases collectNextHops_cases h with ⟨-, h⟩ | ⟨-, -, rfl⟩ | ⟨-, nextHops, -, -, rfl⟩
  · obtain ⟨-, rfl⟩ := injectPacket_cases h
    rw [cur_setChoiceCount, cur_setCur]
    exact hlate rfl rfl rfl rfl rfl rfl (by simp [Early])
  · rw [dropCur, cur_setCur]
    exact hlate rfl rfl rfl rfl rfl rfl (by simp [Early])
  · rw [cur_setChoiceCount, cur_setCur]
    exact hlate rfl rfl rfl rfl rfl rfl (by simp [Early])

theorem forwardPacket_moves (h : m.forwardPacket P = some m') :
    SamePacket m.cur m'.cur ∧ m'.cur.ends = m.cur.ends := by
  obtain ⟨candidates, nextHop, pathChoices, -, -, -, ⟨-, rfl⟩ | ⟨-, rfl⟩⟩ := forwardPacket_cases h
  · simp only [deliver, cur_setChoiceCount, cur_setCur]
    exact ⟨⟨rfl, fun _ => ⟨rfl, rfl, rfl⟩, by simp [Early]⟩, rfl⟩
  · simp only [moveTo, cur_setChoiceCount, cur_setCur]
    exact ⟨⟨rfl, fun _ => ⟨rfl, rfl, rfl⟩, by simp [Early]⟩, rfl⟩

theorem firstSrcIp_owned {srcIp : IPv4Address} (h : m.firstSrcIp P = some srcIp)
    (hn : m.cur.pktLocation ∈ P.network.nodes) : P.Owned srcIp := by
  simp only [firstSrcIp, Option.bind_eq_bind, Option.bind_eq_some_iff] at h
  obtain ⟨candidates, -, nextHop, -, h⟩ := h
  split at h
  · next l2Intf _ =>
    simp only [Option.bind_eq_some_iff, assert_eq_some, Option.pure_def, Option.some.injEq] at h
    obtain ⟨egress, hpeer, -, hl3, rfl⟩ := h
    have hmem : ((P.network.intf l2Intf).name, egress) ∈
        (P.network.node nextHop.l2Node).l2Peers := by
      obtain ⟨l₁, l₂, hl, -⟩ := List.lookup_eq_some_iff.mp hpeer
      rw [hl]
      exact List.mem_append_right _ (List.mem_cons_self ..)
    obtain ⟨hnode, hintf⟩ := P.network.peer_mem _ _ hmem
    exact ⟨egress.1, hnode, Topology.hasIp_iff.mpr ⟨egress.2, hintf, by simpa using hl3, rfl⟩⟩
  · simp only [Option.bind_eq_some_iff] at h
    obtain ⟨-, -, h⟩ := h
    refine ⟨m.cur.pktLocation, hn, ?_⟩
    unfold Topology.loopbackAddr at h
    split at h
    · next lo hlo =>
      split_ifs at h with hl2
      obtain rfl := Option.some.inj h
      exact Topology.hasIp_iff.mpr ⟨lo, List.mem_of_find?_eq_some hlo, by simpa using hl2, rfl⟩
    · split_ifs at h with hlocal
      · obtain rfl := Option.some.inj h
        exact hlocal
      · exact Topology.mem_l3Addrs.mp (List.mem_of_head? h)

theorem firstForward_source (h : m.firstForward P = some m') : ∃ srcIp,
    (m.setCur { m.cur with srcIp := srcIp }).forwardPacket P = some m' ∧ (srcIp = m.cur.srcIp ∨
      m.cur.protoState.isFirst = true ∧ (m.cur.pktLocation ∈ P.network.nodes → P.Owned srcIp)) := by
  unfold firstForward at h
  split_ifs at h with hfirst
  · simp only [Option.bind_eq_bind, Option.bind_eq_some_iff] at h
    obtain ⟨srcIp, hsrc, h⟩ := h
    exact ⟨srcIp, h, .inr ⟨hfirst.1, firstSrcIp_owned hsrc⟩⟩
  · refine ⟨m.cur.srcIp, ?_, .inl rfl⟩
    have heta : m.setCur { m.cur with srcIp := m.cur.srcIp } = m := setCur_cur
    rwa [heta]

theorem execForwarding_moves {results : List InjectionResult}
    (h : m.execForwarding P results = some m') (haccepted : m.cur.fwdMode ≠ .accepted)
    (hinjected : m.cur.fwdMode ≠ .chooseInjRes) : Moves P m.cur m'.cur := by
  unfold execForwarding at h
  split at h
  · next hmode =>
    obtain ⟨m₁, h₁, rfl⟩ := firstCollect_cases h
    obtain ⟨hmoves, hloc⟩ := collectNextHops_moves h₁
    rw [cur_setCur]
    exact ⟨⟨hmoves.protoState, hmoves.packet, fun _ => ⟨.inl hmode, hloc⟩⟩, hmoves.ends⟩
  · next hmode =>
    obtain ⟨srcIp, h, hsrc⟩ := firstForward_source h
    obtain ⟨hsame, hends⟩ := forwardPacket_moves h
    rw [cur_setCur] at hsame hends
    refine ⟨⟨hsame.protoState, hsame.packet, hsame.early⟩, srcIp, hends, ?_⟩
    exact hsrc.imp_right fun hsrc => ⟨hsrc.1, .inr hmode, hsrc.2⟩
  · exact (collectNextHops_moves h).1
  · next hmode => exact absurd hmode hinjected
  · obtain ⟨hsame, hends⟩ := forwardPacket_moves h
    exact moves_of_same hsame hends
  · next hmode => exact absurd hmode haccepted
  · next hmode =>
    obtain rfl := Option.some.inj h
    rw [cur_setCur]
    exact moves_of_same ⟨rfl, fun _ => ⟨rfl, rfl, rfl⟩, fun h => ⟨h, rfl⟩⟩ rfl

theorem execChooseConn_moves (h : m.execChooseConn = some m') :
    m'.numConns = m.numConns ∧ ∀ i, Moves P (m.connState i) (m'.connState i) := by
  obtain ⟨m₁, h₁, hm'⟩ := execChooseConn_cases h
  obtain ⟨j, c, rfl, -, -, hpick⟩ := pickConn_cases h₁
  have hc : Moves P (m.connState j) c := by
    rcases hpick with ⟨-, -, rfl⟩ | ⟨-, -, rfl⟩ | ⟨-, rfl⟩
    · exact moves_refl _
    · exact moves_of_same ⟨rfl, fun _ => ⟨rfl, rfl, rfl⟩, fun h => ⟨h, rfl⟩⟩ rfl
    · exact moves_of_same ⟨rfl, fun _ => ⟨rfl, rfl, rfl⟩, by simp [Early]⟩ rfl
  have hslot := moves_setCur (m := m.setConn j) hc
  rcases hm' with ⟨-, candidates, -, rfl⟩ | ⟨-, rfl⟩
  · exact ⟨rfl, hslot⟩
  · exact ⟨rfl, hslot⟩

theorem execOpenflow_moves (h : m.execOpenflow P = some m') :
    m'.numConns = m.numConns ∧ ∀ i, Moves P (m.connState i) (m'.connState i) := by
  rcases execOpenflow_cases h with ⟨-, rfl⟩ | ⟨-, rfl⟩ | ⟨_, _, _, _, nextHops, -, -, -, -, -, rfl⟩
  · exact ⟨rfl, fun i => moves_refl _⟩
  · exact ⟨rfl, fun i => moves_refl _⟩
  · refine ⟨rfl, ?_⟩
    exact moves_setCur (c := { m.cur with
      fib := m.cur.fib.setIpnhs m.cur.pktLocation nextHops })
        (moves_of_same ⟨rfl, fun _ => ⟨rfl, rfl, rfl⟩, fun h => ⟨h, rfl⟩⟩ rfl)

theorem receivePacket_checks {mb : NodePtr} {st st' : Model × Bool × Bool} {pkt : Packet}
    (h : receivePacket P mb st pkt = some st') (i : Nat) :
    st'.1.connState i = st.1.connState i ∨ ∃ pkt₁ pkt₂ : Packet,
      pkt.identifyConn P st.1 = some pkt₁ ∧ pkt₁.processProtoState st.1 = some pkt₂ ∧
      pkt₂.conn = i ∧ pkt₂.checkSeqAck st.1 = some () ∧ (∃ ec, P.ecs.findEc pkt₂.dstIp = some ec ∧
        (st'.1.connState i).flow = pkt₂.flow pkt₂.protoState ec) ∧
      (pkt₂.isNew = true ∧ i = st.1.numConns ∨ pkt₂.isNew = false ∧
        (pkt₂.nextPhase = false ∧ pkt₂.protoState = (st.1.connState i).protoState ∨
          pkt₂.nextPhase = true ∧ (st.1.connState i).protoState < pkt₂.protoState)) := by
  obtain ⟨m, cu, ou⟩ := st
  unfold receivePacket at h
  dsimp only at h
  split_ifs at h with hempty
  · obtain rfl := Option.some.inj h
    exact .inl rfl
  · simp only [Option.bind_eq_bind, Option.bind_eq_some_iff] at h
    obtain ⟨pkt₁, h₁, pkt₂, h₂, h⟩ := h
    have hidentify := h₁
    have hprocess := h₂
    obtain ⟨isNew, opp, conn, rfl, hconn⟩ := identifyConn_cases h₁
    obtain ⟨protoState, nextPhase, rfl, hphase⟩ := processProtoState_cases h₂
    split_ifs at h with hinv
    · obtain rfl := Option.some.inj h
      exact .inl rfl
    · simp only [Option.bind_eq_some_iff] at h
      obtain ⟨_, hcheck, m₁, hflow, m₂, hhop, h⟩ := h
      obtain rfl := Option.some.inj h
      obtain ⟨dstIpEc, fib, hfind, -, rfl⟩ := setFlow_cases hflow
      obtain ⟨c, hset, hc⟩ := setPhase_flow ((m.setConn conn).setCur _) mb _
      rw [hset] at hhop
      obtain ⟨candidates, rfl⟩ := setMbNextHop_cases hhop
      -- only the connection of the packet is written to
      by_cases hi : i = conn
      · rw [cur_setCur] at hc
        simp only [setConn_connState, setChoiceCount_connState, setCur_connState, setCur_conn,
          setNumConns_conn, setConn_conn, if_pos hi, cur_setNumConns, cur_setCur]
        refine .inr ⟨_, _, hidentify, hprocess, hi.symm, hcheck, ⟨dstIpEc, hfind, hc⟩, ?_⟩
        rw [hi]
        rcases hphase with hps | ⟨hnew, -⟩ | ⟨hnew, hphase⟩
        · exact absurd hps hinv
        · refine .inl ⟨hnew, ?_⟩
          rcases hconn with ⟨hknown, -⟩ | ⟨-, hlast, -⟩
          · exact absurd (hknown.symm.trans hnew) Bool.false_ne_true
          · exact hlast
        · exact .inr ⟨hnew, hphase⟩
      · left
        simp only [setConn_connState, setChoiceCount_connState, setCur_connState, setCur_conn,
          setNumConns_conn, setNumConns_connState, setConn_conn, if_neg hi]

theorem checkSeqAck_same {pkt : Packet} (hnew : pkt.isNew = false) (hphase : pkt.nextPhase = false)
    (htcp : pkt.protoState.isTcp = true) (h : pkt.checkSeqAck m = some ()) :
    pkt.seq = (m.connState pkt.conn).seq ∧ pkt.ack = (m.connState pkt.conn).ack ∧
      pkt.payload = (m.connState pkt.conn).payload := by
  unfold Packet.checkSeqAck at h
  simp only [htcp, hnew, hphase, Bool.not_true, Bool.false_eq_true, if_false, assert_eq_some,
    Bool.and_eq_true, beq_iff_eq] at h
  exact ⟨h.1.1, h.1.2, h.2⟩

theorem checkSeqAck_next {pkt : Packet} (hnew : pkt.isNew = false) (hphase : pkt.nextPhase = true)
    (htcp : pkt.protoState.isTcp = true) (hconn : (m.connState pkt.conn).protoState.isTcp = true) :
    pkt.checkSeqAck m = some () ↔
      (pkt.seq, pkt.ack) = (m.setConn pkt.conn).nextSeqAck pkt.oppositeDir := by
  unfold Packet.checkSeqAck nextSeqAck
  rw [cur_setConn]
  simp only [htcp, hnew, hphase, hconn, Bool.not_true, Bool.false_eq_true, if_false, if_true]
  cases pkt.oppositeDir with
  | false => simp [assert_eq_some]
  | true => simp [assert_eq_some]

theorem receivePacket_early {mb : NodePtr} {st st' : Model × Bool × Bool} {pkt : Packet}
    (h : receivePacket P mb st pkt = some st') {i : Nat} (hi : i < st.1.numConns)
    (hps : (st'.1.connState i).protoState = (st.1.connState i).protoState)
    (hearly : (st'.1.connState i).Early) : (st.1.connState i).Early ∧
      (st'.1.connState i).pktLocation = (st.1.connState i).pktLocation := by
  rcases receivePacket_cases h with rfl | ⟨pkt', c', k, rfl, hc', hwhere, -, hlater⟩
  · exact ⟨hearly, rfl⟩
  · have hslot : (((st.1.setSlot pkt'.conn c').setNumConns (if pkt'.isNew then
        st.1.numConns + 1 else st.1.numConns)).setChoiceCount k).connState i =
          if i = pkt'.conn then c' else st.1.connState i := rfl
    rw [hslot] at hps hearly ⊢
    by_cases hic : i = pkt'.conn
    · rw [if_pos hic] at hps hearly
      rcases hc'.phase with ⟨hnew, -⟩ | ⟨hnew, hnext, -⟩ | ⟨-, -, hmode, -⟩
      · rcases hwhere with ⟨hknown, -⟩ | ⟨-, hlast, -⟩
        · exact absurd (hknown.symm.trans hnew) Bool.false_ne_true
        · omega
      · have hlt := hlater hnew hnext
        rw [← hc'.protoState, hps, hic] at hlt
        exact absurd hlt (lt_irrefl _)
      · simp [Early, hmode] at hearly
    · rw [if_neg hic] at hearly ⊢
      exact ⟨hearly, rfl⟩

theorem receivePacket_samePacket {mb : NodePtr} {st st' : Model × Bool × Bool} {pkt : Packet}
    (h : receivePacket P mb st pkt = some st') {i : Nat} (hi : i < st.1.numConns) :
    st.1.numConns ≤ st'.1.numConns ∧ (SamePacket (st.1.connState i) (st'.1.connState i) ∨
      (st.1.connState i).protoState < (st'.1.connState i).protoState) := by
  constructor
  · rcases receivePacket_cases h with rfl | ⟨pkt', c', k, rfl, -⟩
    · exact le_rfl
    · show st.1.numConns ≤ if pkt'.isNew then st.1.numConns + 1 else st.1.numConns
      split_ifs
      · exact Nat.le_succ _
      · exact le_rfl
  · rcases receivePacket_checks h i with
      heq | ⟨-, pkt', -, -, hconn, hcheck, ⟨ec, -, hflow⟩, hpkt⟩
    · rw [heq]
      exact .inl (samePacket_refl _)
    · have hps : (st'.1.connState i).protoState = pkt'.protoState :=
        congrArg Flow.protoState hflow
      have hseq : (st'.1.connState i).seq = pkt'.seq := congrArg Flow.seq hflow
      have hack : (st'.1.connState i).ack = pkt'.ack := congrArg Flow.ack hflow
      have hpayload : (st'.1.connState i).payload = pkt'.payload := congrArg Flow.payload hflow
      rcases hpkt with ⟨-, hlast⟩ | ⟨hnew, ⟨hphase, hsame⟩ | ⟨-, hlt⟩⟩
      · exact absurd hi (hlast ▸ lt_irrefl _)
      · refine .inl ⟨hps.trans hsame, fun htcp => ?_, receivePacket_early h hi (hps.trans hsame)⟩
        have hchecked := checkSeqAck_same hnew hphase (hsame ▸ htcp) hcheck
        rw [hconn] at hchecked
        exact ⟨hseq.trans hchecked.1, hack.trans hchecked.2.1, hpayload.trans hchecked.2.2⟩
      · exact .inr (hps ▸ hlt)

theorem settleCurrent_keeps {mb : NodePtr} {explicitDrop cu ou : Bool}
    (h : m.settleCurrent mb explicitDrop cu ou = some m') (i : Nat) :
    SamePacket (m.connState i) (m'.connState i) ∧
      (m'.connState i).ends = (m.connState i).ends := by
  have hslot : ∀ {c : ConnState}, SamePacket m.cur c → c.ends = m.cur.ends →
      SamePacket (m.connState i) ((m.setCur c).connState i) ∧
        ((m.setCur c).connState i).ends = (m.connState i).ends := by
    intro c hsame hends
    rw [setCur_connState]
    split_ifs with hi
    · rw [hi]
      exact ⟨hsame, hends⟩
    · exact ⟨samePacket_refl _, rfl⟩
  rcases settleCurrent_cases h with rfl | ⟨-, rfl⟩ | ⟨-, candidates, -, -, rfl⟩
  · exact hslot ⟨rfl, fun _ => ⟨rfl, rfl, rfl⟩, by simp [Early]⟩ rfl
  · exact hslot (c := { m.cur with
      executable := 2
      fwdMode := .forwardPacket
      candidates := some [.accept mb] }) ⟨rfl, fun _ => ⟨rfl, rfl, rfl⟩, by simp [Early]⟩ rfl
  · exact ⟨samePacket_refl _, rfl⟩

theorem chooseInjectionResults_samePacket (h : m.chooseInjectionResults P = some m') {i : Nat}
    (hi : i < m.numConns) : SamePacket (m.connState i) (m'.connState i) ∨
      (m.connState i).protoState < (m'.connState i).protoState := by
  have hfold : m.numConns ≤ m'.numConns ∧ (SamePacket (m.connState i) (m'.connState i) ∨
      (m.connState i).protoState < (m'.connState i).protoState) := by
    apply chooseInjectionResults_invariant (fun m₁ => m.numConns ≤ m₁.numConns ∧
      (SamePacket (m.connState i) (m₁.connState i) ∨
        (m.connState i).protoState < (m₁.connState i).protoState)) h
    · exact ⟨le_rfl, .inl (samePacket_refl _)⟩
    · intro st st' pkt hst _ hm
      obtain ⟨hle, hpacket⟩ := receivePacket_samePacket hst (hi.trans_le hm.1)
      refine ⟨hm.1.trans hle, ?_⟩
      rcases hm.2 with hsame | hlt
      · exact hpacket.imp hsame.trans fun hlt => hsame.protoState ▸ hlt
      · right
        rcases hpacket with hsame | hlt'
        · rw [hsame.protoState]
          exact hlt
        · exact hlt.trans hlt'
    · intro m₁ explicitDrop cu ou _ hm hs
      have hsame := (settleCurrent_keeps hs i).1
      refine ⟨hm.1.trans (settleCurrent_setsCur hs).numConns.ge, ?_⟩
      exact hm.2.imp (fun h => h.trans hsame) fun hlt => hsame.protoState.symm ▸ hlt
  exact hfold.2

end Model

namespace Plankton

open Model ConnState

variable {P : Plankton} {V : Invariants} {m m' : Model} {results : List InjectionResult} {i : Nat}

theorem control_moves (h : P.control results m = some m') (hi : i < m'.numConns) :
    (m.processId = .forwarding ∧ m.cur.fwdMode = .chooseInjRes ∧
      (i < m.numConns → SamePacket (m.connState i) (m'.connState i) ∨
        (m.connState i).protoState < (m'.connState i).protoState)) ∨
    i < m.numConns ∧ (Moves P (m.connState i) (m'.connState i) ∨
      i = m.conn ∧ m.processId = .forwarding ∧ m.cur.fwdMode = .accepted ∧
        ∃ m₁, m.accepted P = some m₁ ∧ m'.connState i = m₁.cur) := by
  obtain ⟨m₁, hswitch, hrest⟩ := control_cases h
  obtain ⟨p, k, rfl⟩ := checkToSwitchProcess_eq hswitch
  have hm₁ : ((m₁.setProcessId p).setChoiceCount k).connState = m₁.connState := rfl
  have hnum₁ : i < m₁.numConns := hi
  rw [hm₁]
  rcases hrest with ⟨-, h₁⟩ | ⟨hp, h₁⟩ | ⟨-, h₁⟩
  · obtain ⟨hnum, hmoves⟩ := execChooseConn_moves (P := P) h₁
    exact .inr ⟨hnum ▸ hnum₁, .inl (hmoves i)⟩
  · by_cases hinjected : m.cur.fwdMode = .chooseInjRes
    · unfold execForwarding at h₁
      rw [hinjected] at h₁
      exact .inl ⟨hp, hinjected, fun hlt => chooseInjectionResults_samePacket h₁ hlt⟩
    · have hsets := execForwarding_setsCur h₁ hinjected
      refine .inr ⟨hsets.numConns ▸ hnum₁, ?_⟩
      by_cases hcur : i = m.conn
      · have hself : m₁.connState i = m₁.cur := by
          rw [cur, hsets.sameControl.conn, hcur]
        by_cases haccepted : m.cur.fwdMode = .accepted
        · unfold execForwarding at h₁
          rw [haccepted] at h₁
          exact .inr ⟨hcur, hp, haccepted, m₁, h₁, hself⟩
        · rw [hself, hcur]
          exact .inl (execForwarding_moves h₁ haccepted hinjected)
      · rw [hsets.connState hcur]
        exact .inl (moves_refl _)
  · obtain ⟨hnum, hmoves⟩ := execOpenflow_moves h₁
    exact .inr ⟨hnum ▸ hnum₁, .inl (hmoves i)⟩

theorem checkViolation_moves {result : Option Bool} {r : Model × Bool}
    (h : V.checkViolation result m = some r) : r.1.numConns = m.numConns ∧
      ∀ i, Moves P (m.connState i) (r.1.connState i) := by
  obtain ⟨inv, v, -, -, -, -, rfl⟩ := Invariants.checkViolation_cases h
  rw [Invariants.conclude_fst]
  refine ⟨rfl, fun i => ?_⟩
  show Moves P (m.connState i) ((m.judge v).connState i)
  rw [judge_connState]
  split_ifs with hi
  · rw [hi]
    exact moves_of_same ⟨rfl, fun _ => ⟨rfl, rfl, rfl⟩, fun h => ⟨h, rfl⟩⟩ rfl
  · exact moves_refl _

end Plankton

end Neo
