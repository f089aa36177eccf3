import Neo.Process.Heading

/-! How a lone connection starts, and how the receiver of a request answers: the reply starts in
the class of the address with which the request was sent. -/

namespace Neo

namespace Plankton

variable {P : Plankton} {ec ec' : EcPtr} {a x : IPv4Address} {n : NodePtr} {policy : Policy}
  {conn : Connection} {s : Model}

theorem eq_of_findEc_of_hasIp (ha : P.ecs.findEc a = some ec) (hx : P.ecs.findEc x = some ec)
    (hn : n ∈ P.network.nodes) (hown : P.network.hasIp n x = true) : a = x := by
  obtain ⟨calls, mbs, hadded, -⟩ := P.added
  obtain ⟨L, hL⟩ := hadded.live
  obtain ⟨range, hr, har⟩ := (hL.findEc_iff (hL.findEc_mem ha)).mp ha
  obtain ⟨range', hr', hxr⟩ := (hL.findEc_iff (hL.findEc_mem hx)).mp hx
  rcases (uniform_of_isEc ⟨a, ha⟩).owned range hr a har range' hr' x hxr with heq | ⟨-, hunowned⟩
  · exact heq
  · have hnot := hunowned n hn
    rw [hown] at hnot
    exact absurd hnot (by decide)

theorem startInv_isSome (hof : P.openflow.updates = []) (hconn : P.Sendable conn) (policy : Policy)
    (m : Model) : ∃ m', CheckedInvariant.init ⟨policy, [conn]⟩ P m = some m' := by
  have hec : ∀ c ∈ [conn], P.IsEc c.dstIpEc := by
    intro c hc
    exact List.mem_singleton.mp hc ▸ hconn.dstIpEc
  obtain ⟨m₁, h₁⟩ := Option.isSome_iff_exists.mp (initFrom_isSome hof hec 0 m)
  apply Option.isSome_iff_exists.mp
  unfold CheckedInvariant.init
  show ((Connection.initFrom P [conn] 0 m).bind _).isSome
  rw [h₁]
  cases policy <;> rfl

theorem initModel_isSome (hof : P.openflow.updates = []) (hconn : P.Sendable conn)
    (policy : Policy) :
    ∃ s, P.initModel (.single ⟨policy, [conn]⟩) = some s := by
  obtain ⟨m, hm⟩ := startInv_isSome hof hconn policy (P.initOpenflow .zero)
  exact ⟨startForwarding m, Option.map_eq_some_iff.mpr ⟨m, hm, rfl⟩⟩

structure Begins (P : Plankton) (conn : Connection) (violated : Bool) (s : Model) : Prop where
  starting : Model.Starting P conn.dstIpEc conn.srcNode s.cur s
  arrived : Model.Arrived P conn.dstIpEc ∅ conn.srcNode s
  violated : s.violated = violated
  protoState : s.cur.protoState = conn.firstProtoState
  srcIp : s.cur.srcIp = 0#32
  txNode : s.cur.txNode = conn.srcNode
  fwdMode : s.cur.fwdMode = .firstCollect
  pathChoices : s.cur.pathChoices = []

theorem begins_of_starts (hof : P.openflow.updates = []) (hconn : P.Sendable conn) {m₀ m : Model}
    (hstarts : CheckedInvariant.Starts ⟨policy, [conn]⟩ P m₀ m) :
    P.Begins conn policy.initViolated (startForwarding m) := by
  have hcur : conn.Starts P m₀.openflowUpdateState (startForwarding m).cur := hstarts.cur rfl
  obtain ⟨fib, hfib, hnext⟩ := updateFib_of_noUpdates hof hconn.dstIpEc m₀.openflowUpdateState
  obtain rfl := Option.some.inj (hfib.symm.trans hcur.fib)
  have hmem : (startForwarding m).cur.pktLocation ∈ P.network.nodes :=
    hcur.pktLocation ▸ hconn.srcNode
  refine ⟨⟨⟨hstarts.conn, hstarts.numConns, hcur.dstIpEc, hmem, hnext, ?_, rfl, ?_⟩, rfl,
      hcur.executable, .inl hcur.fwdMode, hcur.pktLocation, rfl⟩,
    ⟨⟨hstarts.conn, hstarts.numConns, rfl, hcur.executable⟩, rfl, .inl hcur.fwdMode,
      hcur.pktLocation, hconn.srcNode, hcur.dstIpEc, hnext, ?_⟩,
    hstarts.violated, hcur.protoState, hcur.srcIp.trans hconn.srcIp, hcur.txNode, hcur.fwdMode,
    hcur.pathChoices⟩
  · exact ConnState.samePhase_refl _ _
  · rw [hcur.pktLocation]
  · intro k _
    rw [hcur.pathChoices]
    rfl

theorem begins_initModel (hof : P.openflow.updates = []) (hconn : P.Sendable conn)
    (hs : P.initModel (.single ⟨policy, [conn]⟩) = some s) :
    P.Begins conn policy.initViolated s := by
  obtain ⟨m, hm, rfl⟩ := Option.map_eq_some_iff.mp hs
  exact begins_of_starts hof hconn (CheckedInvariant.starts_of_init hm)

theorem Begins.leavesAs_iff {violated : Bool} (hs : P.Begins conn violated s) {h : FibIpnh} :
    P.LeavesAs s.cur conn.srcNode h x ↔ P.network.sourceAddr conn.srcNode h = some x := by
  have hfirst : s.cur.protoState.isFirst = true := by
    rw [hs.protoState, Connection.firstProtoState]
    cases conn.protocol <;> rfl
  rw [LeavesAs, if_pos ⟨hfirst, hs.srcIp⟩]

theorem Begins.receivesAs_iff {violated : Bool} (hs : P.Begins conn violated s)
    (hconn : P.Sendable conn) (ha : P.ecs.findEc a = some conn.dstIpEc) :
    P.ReceivesAs conn.dstIpEc s.cur conn.srcNode x n ↔
      P.network.Receives a conn.srcNode x n := by
  rw [receives_iff ha hconn.srcNode]
  exact exists_congr fun h => and_congr_right fun _ => and_congr_left fun _ => hs.leavesAs_iff

theorem Begins.leaves {violated : Bool} (hs : P.Begins conn violated s)
    (hnet : P.network.ModelOnly) (hlinked : P.network.Linked) (hconn : P.Sendable conn)
    {h : FibIpnh} (hh : h ∈ P.nextHops conn.dstIpEc conn.srcNode) :
    ∃ x, P.LeavesAs s.cur conn.srcNode h x := by
  obtain ⟨x, hx, -⟩ := sourceAddr_hasIp hnet hlinked hconn.canSend hh
  exact ⟨x, hs.leavesAs_iff.mpr hx⟩

end Plankton

namespace Model

variable {P : Plankton} {m m' : Model} {ec ec' : EcPtr} {src n : NodePtr} {c : ConnState}
  {l : Label}

theorem leavesWith_iff (hmode : m.cur.fwdMode = .firstCollect) {h : FibIpnh} {x : IPv4Address} :
    LeavesWith P m h x ↔ P.LeavesAs m.cur m.cur.pktLocation h x := by
  unfold LeavesWith Plankton.LeavesAs
  rw [hmode]
  simp

theorem Arrived.send (hm : Arrived P ec ∅ src m) (hmode : m.cur.fwdMode = .firstCollect)
    (hnet : P.network.ModelOnly) (hof : P.openflow.updates = []) {x : IPv4Address}
    (hn : P.ReceivesAs ec m.cur src x n) :
    ∃ tr l, Run P.turn m (tr ++ [l]) l.after ∧
      (∀ k ∈ tr, k.after.cur.InFlight ∧ ConnState.SamePhase ec m.cur k.after.cur) ∧
      DeliveredAt P ec n l.after ∧ ConnState.SamePhase ec m.cur l.after.cur ∧
      l.after.cur.srcIp = x ∧
      l.after.cur.rxNode = if m.cur.protoState.isFirst then some n else m.cur.rxNode := by
  obtain ⟨h, hh, hleaves, hrest⟩ := hn
  have hwith : LeavesWith P m h x := (leavesWith_iff hmode).mpr (hm.pktLocation ▸ hleaves)
  -- the packet is delivered where it starts, or leaves and travels along a simple path
  rcases hrest with ⟨hhere, rfl⟩ | ⟨haway, ⟨h', hh', hhere'⟩, hway⟩
  · obtain ⟨m₁, m₂, i, h₁, h₂, hflight, hphase₁, hdel, hphase₂, hip, hrx⟩ :=
      hm.deliver hnet hof (Set.notMem_empty _) hh hhere hwith
    refine ⟨[⟨m, choose 0, m₁⟩], ⟨m₁, choose i, m₂⟩, .cons h₁ (.cons h₂ (.nil m₂)), ?_, hdel,
      hphase₂, hip, hrx⟩
    intro k hk
    obtain rfl := List.mem_singleton.mp hk
    exact ⟨hflight, hphase₁⟩
  · obtain ⟨m₁, m₂, i, h₁, h₂, hflight₁, hphase₁, hm₂, hmode₂, hphase₂, hip₂, hrx₂⟩ :=
      hm.move hnet hof (Set.notMem_empty _) hh haway hwith
    rw [LawfulSingleton.insert_empty_eq] at hm₂
    have hpath : SimplePath (P.PassesTo ec) {src} h.l3Node n := by
      apply SimplePath.of_reflTransGen
      · simpa using haway
      · simpa using hway
    obtain ⟨tr, m₃, met, hrun, hall, hm₃, hmet, hphase₃, hlater, hip₃, hrx₃⟩ :=
      Arrived.journey hnet hof hpath hm₂ (.inl hmode₂)
    obtain ⟨m₄, m₅, j, h₄, h₅, hflight₄, hphase₄, hdel, hphase₅, hip₅, hrx₅⟩ :=
      hm₃.deliver hnet hof hmet hh' hhere' (LeavesWith.of_later hlater h')
    have hphase := hphase₂.trans hphase₃
    refine ⟨⟨m, choose 0, m₁⟩ :: ⟨m₁, choose i, m₂⟩ :: tr ++ [⟨m₃, choose 0, m₄⟩],
      ⟨m₄, choose j, m₅⟩, ?_, ?_, hdel, hphase.trans hphase₅, hip₅.trans (hip₃.trans hip₂), ?_⟩
    · have hlast : Run P.turn m₃ [⟨m₃, choose 0, m₄⟩, ⟨m₄, choose j, m₅⟩] m₅ :=
        .cons h₄ (.cons h₅ (.nil m₅))
      simpa using Run.cons h₁ (.cons h₂ (hrun.append hlast))
    · intro k hk
      simp only [List.cons_append, List.mem_cons, List.mem_append, List.not_mem_nil,
        or_false] at hk
      rcases hk with rfl | rfl | hk | rfl
      · exact ⟨hflight₁, hphase₁⟩
      · exact ⟨.inr (.inl hmode₂), hphase₂⟩
      · exact ⟨(hall k hk).1, hphase₂.trans (hall k hk).2⟩
      · exact ⟨hflight₄, hphase.trans hphase₄⟩
    · rw [hrx₅, hrx₃, hrx₂, hphase.protoState]

theorem Arrived.sendLost (hm : Arrived P ec ∅ src m) (hmode : m.cur.fwdMode = .firstCollect)
    (hnet : P.network.ModelOnly) (hof : P.openflow.updates = [])
    (hleaves : ∀ h ∈ P.nextHops ec src, ∃ x, P.LeavesAs m.cur src h x)
    (hway : Relation.ReflTransGen (P.PassesTo ec) src n) (hnil : P.nextHops ec n = []) :
    ∃ tr l, Run P.turn m (tr ++ [l]) l.after ∧
      (∀ k ∈ tr, k.after.cur.InFlight ∧ ConnState.SamePhase ec m.cur k.after.cur) ∧
      Lost l.after ∧ ConnState.SamePhase ec m.cur l.after.cur := by
  cases simplePath_iff.mpr hway with
  | nil => exact hm.lose hnet hnil
  | @cons _ _ k _ hnot hpass hrest =>
    obtain ⟨-, haway, h, hh, rfl⟩ := hpass
    obtain ⟨x, hx⟩ := hleaves h hh
    have hwith : LeavesWith P m h x := (leavesWith_iff hmode).mpr (hm.pktLocation ▸ hx)
    obtain ⟨m₁, m₂, i, h₁, h₂, hflight₁, hphase₁, hm₂, hmode₂, hphase₂, -, -⟩ :=
      hm.move hnet hof (Set.notMem_empty _) hh haway hwith
    obtain ⟨tr, m₃, met, hrun, hall, hm₃, -, hphase₃, -⟩ :=
      Arrived.journey hnet hof hrest hm₂ (.inl hmode₂)
    obtain ⟨tr', l, hrun', hall', hlost, hphase'⟩ := hm₃.lose hnet hnil
    have hphase := hphase₂.trans hphase₃
    refine ⟨⟨m, choose 0, m₁⟩ :: ⟨m₁, choose i, m₂⟩ :: tr ++ tr', l, ?_, ?_, hlost,
      hphase.trans hphase'⟩
    · simpa using Run.cons h₁ (.cons h₂ (hrun.append hrun'))
    · intro k hk
      simp only [List.cons_append, List.mem_cons, List.mem_append] at hk
      rcases hk with rfl | rfl | hk | hk
      · exact ⟨hflight₁, hphase₁⟩
      · exact ⟨.inr (.inl hmode₂), hphase₂⟩
      · exact ⟨(hall k hk).1, hphase₂.trans (hall k hk).2⟩
      · exact ⟨(hall' k hk).1, hphase.trans (hall' k hk).2⟩

theorem accepted_request (hreq : m.cur.protoState = psUdpReq ∨ m.cur.protoState = psIcmpEchoReq) :
    m.accepted P = m.phaseTransition P (m.cur.protoState + 1) true := by
  unfold accepted
  rcases hreq with hreq | hreq
  · rw [hreq]
    rfl
  · rw [hreq]
    rfl

theorem phaseTransition_isSome (hnet : P.network.ModelOnly) (hof : P.openflow.updates = [])
    (hec : P.IsEc ec) (hdst : m.cur.dstIpEc = some ec)
    (hknown : (P.ecs.findEc m.cur.srcIp).isSome) (next : ProtoState) :
    ∃ m', m.phaseTransition P next true = some m' := by
  obtain ⟨srcIp, dstIpEc, fib, -, hisEc, -, hturn⟩ := turnAround_eq (m := m.setCur { m.cur with
    seq := (m.nextSeqAck true).1
    ack := (m.nextSeqAck true).2
    protoState := next }) hof hec (by rw [cur_setCur]; exact hdst)
    (by rw [cur_setCur]; exact hknown)
  unfold phaseTransition
  dsimp only
  rw [if_neg (by simp [hnet _]), if_pos rfl, hturn, Option.bind_eq_bind, Option.bind_some]
  rw [cur_setCur, setCur_setCur]
  obtain ⟨payload, hpayload⟩ := getPayloadFromModel_isSome hisEc
    (m := m.setCur { m.cur with
      seq := (m.nextSeqAck true).1
      ack := (m.nextSeqAck true).2
      protoState := next
      srcIp := srcIp
      dstIpEc := some dstIpEc
      srcNode := m.cur.pktLocation
      srcPort := m.cur.dstPort
      dstPort := m.cur.srcPort
      fib := fib }) (by rw [cur_setCur])
  rw [hpayload, Option.bind_eq_bind, Option.bind_some]
  exact ⟨_, rfl⟩

structure Reversed (P : Plankton) (ec : EcPtr) (next : ProtoState) (c c' : ConnState) : Prop where
  executable : c'.executable = c.executable
  protoState : c'.protoState = next
  dstIpEc : c'.dstIpEc = some ec
  fib : ∀ k ∈ P.network.nodes, c'.fib k = some (P.nextHops ec k)
  pktLocation : c'.pktLocation = c.pktLocation
  txNode : c'.txNode = c.txNode
  pathChoices : c'.pathChoices = c.pathChoices
  fwdMode : c'.fwdMode = .firstCollect

theorem phaseTransition_reversed (hnet : P.network.ModelOnly) (hof : P.openflow.updates = [])
    (hec : P.IsEc ec) (hdst : m.cur.dstIpEc = some ec)
    (hec' : P.ecs.findEc m.cur.srcIp = some ec') (next : ProtoState) :
    ∃ c', m.phaseTransition P next true = some (m.setCur c') ∧ Reversed P ec' next m.cur c' := by
  obtain ⟨m₁, h₁⟩ := phaseTransition_isSome hnet hof hec hdst
    (Option.isSome_iff_exists.mpr ⟨ec', hec'⟩) next
  obtain ⟨hemu, -⟩ | ⟨c, seq, ack, payload, rfl, hrest⟩ := phaseTransition_cases h₁
  · simp [hnet _] at hemu
  obtain ⟨-, -, srcIp, dstIpEc, fib, hfind, hfib, rfl⟩ | ⟨hdir, -⟩ := hrest
  · obtain rfl := Option.some.inj (hfind.symm.trans hec')
    obtain ⟨fib', hfib', hnext⟩ :=
      Plankton.updateFib_of_noUpdates hof ⟨_, hfind⟩ m.openflowUpdateState
    obtain rfl := Option.some.inj (hfib'.symm.trans hfib)
    exact ⟨_, h₁, rfl, rfl, rfl, hnext, rfl, rfl, rfl, rfl⟩
  · exact absurd hdir (by decide)

theorem DeliveredAt.answer (hm : DeliveredAt P ec n m) (hnet : P.network.ModelOnly)
    (hof : P.openflow.updates = []) (hec : P.IsEc ec)
    (hreq : m.cur.protoState = psUdpReq ∨ m.cur.protoState = psIcmpEchoReq)
    (hec' : P.ecs.findEc m.cur.srcIp = some ec')
    (hunmet : ∀ k, m.cur.pathChoices.getChoice (some ec') k = none) (hl : l.choice = 0) :
    ∃ m', P.turn m l = some m' ∧ Starting P ec' n m'.cur m' ∧ Arrived P ec' ∅ n m' ∧
      m'.violated = m.violated ∧ m'.cur.protoState = m.cur.protoState + 1 ∧
      m'.cur.txNode = m.cur.txNode ∧ m'.cur.fwdMode = .firstCollect := by
  obtain ⟨c', h₁, hc'⟩ := phaseTransition_reversed (m := m.setChoice 0) hnet hof hec hm.dstIpEc hec'
    (m.cur.protoState + 1)
  have hexec : (m.setChoice 0).execForwarding P l.results = some ((m.setChoice 0).setCur c') := by
    unfold execForwarding
    rw [cur_setChoice, hm.mode]
    dsimp only
    rw [accepted_request (m := m.setChoice 0) hreq, cur_setChoice]
    exact h₁
  have hp : (m.setChoice 0).processId = .forwarding := hm.processId
  have hexecutable : c'.executable = 2 := hc'.executable.trans hm.executable
  have hloc : c'.pktLocation = n := hc'.pktLocation.trans hm.pktLocation
  -- the reply starts where the request was delivered
  refine ⟨(m.setChoice 0).setCur c', ?_, ?_⟩
  · unfold Plankton.turn
    rw [hl, if_pos (hm.choiceCount ▸ Nat.one_pos), Plankton.control_forwarding hp, hexec,
      Option.bind_some]
    exact checkToSwitchProcess_forwarding hof hp (by rw [cur_setCur]; exact hexecutable)
  · rw [cur_setCur]
    refine ⟨⟨⟨hm.conn, hm.numConns, ?_, ?_, ?_, ?_, ?_, ?_⟩, hm.processId, ?_, .inl ?_, ?_, ?_⟩,
      ⟨⟨hm.conn, hm.numConns, hm.processId, ?_⟩, hm.choiceCount, .inl ?_, ?_, hm.mem, ?_, ?_, ?_⟩,
      rfl, hc'.protoState, hc'.txNode, hc'.fwdMode⟩
    all_goals rw [cur_setCur]
    · exact hc'.dstIpEc
    · exact hloc ▸ hm.mem
    · exact hc'.fib
    · exact ConnState.samePhase_refl ec' c'
    · rw [hloc]
    · exact hexecutable
    · exact hc'.fwdMode
    · exact hloc
    · exact hexecutable
    · exact hc'.fwdMode
    · exact hloc
    · exact hc'.dstIpEc
    · exact hc'.fib
    · intro k _
      rw [hc'.pathChoices]
      exact hunmet k

end Model

end Neo
