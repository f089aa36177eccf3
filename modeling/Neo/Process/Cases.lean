import Neo.Plankton

/-! What each function of a step can do, guards included. Later proofs cite these lemmas and do
not unfold the functions. -/

namespace Neo

theorem assert_eq_some {p : Bool} {u : Unit} : assert p = some u ↔ p = true := by
  cases p <;> simp [assert]

theorem Topology.mem_l3Addrs {t : Topology} {n : NodePtr} {a : IPv4Address} :
    a ∈ t.l3Addrs n ↔ t.hasIp n a = true := by
  rw [l3Addrs, Ordered.mem_ofList]
  simp [hasIp]

namespace Model

variable {P : Plankton} {m m' : Model}

theorem setCur_cur : m.setCur m.cur = m := by
  unfold setCur
  obtain ⟨connState, _, _, _, conn, _, _, _, _, _⟩ := m
  simp only [cur, mk.injEq, and_true]
  funext i
  split_ifs with h
  · rw [h]
  · rfl

theorem setCur_setCur (c c' : ConnState) : (m.setCur c).setCur c' = m.setCur c' := by
  unfold setCur
  simp only [mk.injEq, and_true]
  funext i
  split_ifs <;> rfl

theorem updateFib_cases (h : m.updateFib P = some m') :
    ∃ ec fib, m.cur.dstIpEc = some ec ∧
      P.openflow.updateFib m.openflowUpdateState (P.ecs.ranges ec) = some fib ∧
      m' = m.setCur { m.cur with fib := fib } := by
  simp only [updateFib, Option.bind_eq_bind, Option.bind_eq_some_iff, Option.pure_def,
    Option.some.injEq] at h
  obtain ⟨ec, hec, fib, hfib, rfl⟩ := h
  exact ⟨ec, fib, hec, hfib, rfl⟩

theorem injectPacket_cases {results : List InjectionResult}
    (h : m.injectPacket results = some m') :
    results ≠ [] ∧ m' = (m.setCur { m.cur with
      injResults := some results
      fwdMode := .chooseInjRes }).setChoiceCount results.length := by
  simp only [injectPacket, Option.bind_eq_bind, Option.bind_eq_some_iff, Option.pure_def,
    Option.some.injEq, assert_eq_some] at h
  obtain ⟨-, hne, rfl⟩ := h
  exact ⟨by simpa using hne, rfl⟩

theorem chooseCandidates_ne_nil {nextHops : List FibIpnh} (h : nextHops ≠ []) :
    m.chooseCandidates nextHops ≠ [] := by
  unfold chooseCandidates
  split
  · split_ifs
    · exact List.cons_ne_nil _ _
    · exact h
  · exact h

theorem chooseCandidates_subset (nextHops : List FibIpnh) :
    ∀ hop ∈ m.chooseCandidates nextHops, hop ∈ nextHops := by
  unfold chooseCandidates
  split
  · split_ifs with hc
    · intro hop hhop
      exact List.mem_singleton.mp hhop ▸ hc.2
    · exact fun _ h => h
  · exact fun _ h => h

theorem collectNextHops_cases {results : List InjectionResult}
    (h : m.collectNextHops P results = some m') :
    ((P.network.node m.cur.pktLocation).isEmulated = true ∧
      m.injectPacket results = some m') ∨
    ((P.network.node m.cur.pktLocation).isEmulated = false ∧
      m.cur.fib m.cur.pktLocation = some [] ∧ m' = m.dropCur) ∨
    (P.network.node m.cur.pktLocation).isEmulated = false ∧ ∃ nextHops,
      m.cur.fib m.cur.pktLocation = some nextHops ∧ nextHops ≠ [] ∧
      m' = (m.setCur { m.cur with
        candidates := some (m.chooseCandidates nextHops)
        fwdMode := .forwardPacket }).setChoiceCount (m.chooseCandidates nextHops).length := by
  unfold collectNextHops at h
  split_ifs at h with hemu
  · exact .inl ⟨hemu, h⟩
  · simp only [Bool.not_eq_true] at hemu
    simp only [Option.bind_eq_bind, Option.bind_eq_some_iff] at h
    obtain ⟨nextHops, hfib, h⟩ := h
    split_ifs at h with hnil
    · obtain rfl := List.isEmpty_iff.mp hnil
      exact .inr (.inl ⟨hemu, hfib, (Option.some.inj h).symm⟩)
    · refine .inr (.inr ⟨hemu, nextHops, hfib, ?_, (Option.some.inj h).symm⟩)
      simpa using hnil

theorem firstCollect_cases {results : List InjectionResult}
    (h : m.firstCollect P results = some m') :
    ∃ m₁, m.collectNextHops P results = some m₁ ∧
      m' = m₁.setCur { m₁.cur with fwdMode := .firstForward } := by
  simp only [firstCollect, Option.bind_eq_bind, Option.bind_eq_some_iff, Option.pure_def,
    Option.some.injEq] at h
  obtain ⟨m₁, h₁, rfl⟩ := h
  exact ⟨m₁, h₁, rfl⟩

theorem forwardPacket_cases (h : m.forwardPacket P = some m') :
    ∃ candidates nextHop pathChoices, m.cur.candidates = some candidates ∧
      candidates[m.choice]? = some nextHop ∧
      m.rememberChoice candidates nextHop = some pathChoices ∧
      ((nextHop.l3Node = m.cur.pktLocation ∧
          m' = (m.setCur { m.cur with pathChoices := pathChoices }).deliver) ∨
        nextHop.l3Node ≠ m.cur.pktLocation ∧
          m' = (m.setCur { m.cur with pathChoices := pathChoices }).moveTo P nextHop) := by
  simp only [forwardPacket, Option.bind_eq_bind, Option.bind_eq_some_iff, Option.pure_def,
    Option.some.injEq, cur_setCur] at h
  obtain ⟨candidates, hc, nextHop, hn, pathChoices, hp, rfl⟩ := h
  refine ⟨candidates, nextHop, pathChoices, hc, hn, hp, ?_⟩
  split_ifs with hl
  · exact .inl ⟨hl, rfl⟩
  · exact .inr ⟨hl, rfl⟩

theorem firstForward_cases (h : m.firstForward P = some m') :
    ∃ srcIp, (m.setCur { m.cur with srcIp := srcIp }).forwardPacket P = some m' := by
  unfold firstForward at h
  split_ifs at h
  · simp only [Option.bind_eq_bind, Option.bind_eq_some_iff] at h
    obtain ⟨srcIp, -, h⟩ := h
    exact ⟨srcIp, h⟩
  · refine ⟨m.cur.srcIp, ?_⟩
    have heta : m.setCur { m.cur with srcIp := m.cur.srcIp } = m := setCur_cur
    rwa [heta]

theorem turnAround_cases (h : m.turnAround P = some m') :
    ∃ srcIp dstIpEc fib, P.ecs.findEc m.cur.srcIp = some dstIpEc ∧
      P.openflow.updateFib m.openflowUpdateState (P.ecs.ranges dstIpEc) = some fib ∧
      m' = m.setCur { m.cur with
        srcIp := srcIp
        dstIpEc := some dstIpEc
        srcNode := m.cur.pktLocation
        srcPort := m.cur.dstPort
        dstPort := m.cur.srcPort
        fib := fib } := by
  simp only [turnAround, Option.bind_eq_bind, Option.bind_eq_some_iff] at h
  obtain ⟨ec, -, srcIp, -, dstIpEc, hfind, h⟩ := h
  obtain ⟨ec', fib, hec', hfib, rfl⟩ := updateFib_cases h
  rw [cur_setCur] at hec'
  obtain rfl := Option.some.inj hec'
  refine ⟨srcIp, dstIpEc, fib, hfind, hfib, ?_⟩
  rw [cur_setCur, setCur_setCur]

/-- A phase transition freezes the connection, or starts the next phase: in the other direction
with a new FIB, or again from the same sender. -/
theorem phaseTransition_cases {next : ProtoState} {changeDirection : Bool}
    (h : m.phaseTransition P next changeDirection = some m') :
    ((P.network.node (if changeDirection then m.cur.pktLocation else m.cur.srcNode)).isEmulated =
        true ∧ m' = m.setCur { m.cur with executable := 0 }) ∨ ∃ c seq ack payload,
      m' = m.setCur { c with
        seq := seq
        ack := ack
        protoState := next
        payload := payload
        fwdMode := .firstCollect
        ingressIntf := none
        candidates := none
        injResults := none } ∧
      ((changeDirection = true ∧
          (P.network.node m.cur.pktLocation).isEmulated = false ∧ ∃ srcIp dstIpEc fib,
          P.ecs.findEc m.cur.srcIp = some dstIpEc ∧
          P.openflow.updateFib m.openflowUpdateState (P.ecs.ranges dstIpEc) = some fib ∧
          c = { m.cur with
            srcIp := srcIp
            dstIpEc := some dstIpEc
            srcNode := m.cur.pktLocation
            srcPort := m.cur.dstPort
            dstPort := m.cur.srcPort
            fib := fib }) ∨
        changeDirection = false ∧ (P.network.node m.cur.srcNode).isEmulated = false ∧
          c = { m.cur with pktLocation := m.cur.srcNode }) := by
  unfold phaseTransition at h
  simp only at h
  split_ifs at h with hdir hemu hemu
  · exact .inl ⟨by rwa [if_pos hdir], (Option.some.inj h).symm⟩
  · simp only [Option.bind_eq_bind, Option.bind_eq_some_iff, Option.pure_def,
      Option.some.injEq] at h
    obtain ⟨m₁, h₁, payload, -, rfl⟩ := h
    obtain ⟨srcIp, dstIpEc, fib, hfind, hfib, rfl⟩ := turnAround_cases h₁
    simp only [cur_setCur, setCur_setCur] at hfind ⊢
    refine .inr ⟨_, _, _, payload, rfl, .inl ⟨hdir, ?_, srcIp, dstIpEc, fib, hfind, hfib, rfl⟩⟩
    simpa using hemu
  · exact .inl ⟨by rwa [if_neg hdir], (Option.some.inj h).symm⟩
  · simp only [Option.bind_eq_bind, Option.bind_eq_some_iff, Option.pure_def,
      Option.some.injEq] at h
    obtain ⟨m₁, rfl, payload, -, rfl⟩ := h
    simp only [sendAgain, cur_setCur, setCur_setCur]
    refine .inr ⟨_, _, _, payload, rfl, .inr ⟨by simpa using hdir, by simpa using hemu, rfl⟩⟩

theorem accepted_cases (h : m.accepted P = some m') :
    (m.cur.protoState.isLast = true ∧ m' = m.setCur { m.cur with executable := 0 }) ∨
      m.cur.protoState.isLast = false ∧ ∃ changeDirection,
        m.phaseTransition P (m.cur.protoState + 1) changeDirection = some m' := by
  unfold accepted at h
  split at h
  case h_12 heq | h_13 heq | h_14 heq => exact .inl ⟨by rw [heq]; rfl, (Option.some.inj h).symm⟩
  case h_15 => simp at h
  all_goals
    next heq =>
      rw [heq]
      exact .inr ⟨rfl, _, h⟩

theorem setFlow_cases {pkt : Packet} (h : m.setFlow P pkt = some m') :
    ∃ dstIpEc fib, P.ecs.findEc pkt.dstIp = some dstIpEc ∧
      (m.cur.dstIpEc = some dstIpEc ∧ fib = m.cur.fib ∨
        P.openflow.updateFib m.openflowUpdateState (P.ecs.ranges dstIpEc) = some fib) ∧
      m' = m.setCur { m.cur with
        executable := 2
        protoState := pkt.protoState
        srcIp := pkt.srcIp
        dstIpEc := some dstIpEc
        srcPort := pkt.srcPort
        dstPort := pkt.dstPort
        seq := pkt.seq
        ack := pkt.ack
        payload := pkt.payload
        fib := fib } := by
  simp only [setFlow, Option.bind_eq_bind, Option.bind_eq_some_iff] at h
  obtain ⟨dstIpEc, hfind, h⟩ := h
  split_ifs at h with hne
  · obtain ⟨ec, fib, hec, hfib, rfl⟩ := updateFib_cases h
    rw [cur_setCur] at hec
    obtain rfl := Option.some.inj hec
    refine ⟨dstIpEc, fib, hfind, .inr hfib, ?_⟩
    rw [cur_setCur, setCur_setCur]
  · refine ⟨dstIpEc, m.cur.fib, hfind, .inl ⟨not_not.mp hne, rfl⟩, ?_⟩
    exact (Option.some.inj h).symm

def setSlot (m : Model) (i : Nat) (c : ConnState) : Model :=
  { m with connState := fun j => if j = i then c else m.connState j }

theorem setSlot_connState (m : Model) (i j : Nat) (c : ConnState) :
    (m.setSlot i c).connState j = if j = i then c else m.connState j := rfl

theorem setSlot_of_setConn (m : Model) (i : Nat) (c₁ c₂ c₃ : ConnState) (n k : Nat) :
    ((((((m.setConn i).setCur c₁).setCur c₂).setNumConns n).setCur c₃).setChoiceCount k).setConn
      m.conn = ((m.setSlot i c₃).setNumConns n).setChoiceCount k := by
  have hcomm : ((((m.setConn i).setCur c₁).setCur c₂).setNumConns n).setCur c₃ =
      ((((m.setConn i).setCur c₁).setCur c₂).setCur c₃).setNumConns n := rfl
  rw [hcomm, setCur_setCur, setCur_setCur]
  rfl

/-- What is read from a packet about the flow of its connection, and where it goes on. -/
structure ReceivedAs (P : Plankton) (m : Model) (mb : NodePtr) (pkt : Packet) (c c' : ConnState) :
    Prop where
  executable : c'.executable = 2
  protoState : c'.protoState = pkt.protoState
  dstPort : c'.dstPort = pkt.dstPort
  dstIpEc : ∃ ec, P.ecs.findEc pkt.dstIp = some ec ∧ c'.dstIpEc = some ec ∧
    (c.dstIpEc = some ec ∧ c'.fib = c.fib ∨
      P.openflow.updateFib m.openflowUpdateState (P.ecs.ranges ec) = some c'.fib)
  candidates : ∃ candidates, c'.candidates = some candidates
  visitedHops : c'.visitedHops = c.visitedHops
  txNode : c'.txNode = if pkt.isNew then mb else c.txNode
  phase : (pkt.isNew = true ∧ c'.fwdMode = .firstForward ∧ c'.pktLocation = mb) ∨
    (pkt.isNew = false ∧ pkt.nextPhase = true ∧ c'.fwdMode = .firstForward ∧
      (c'.pktLocation = c.pktLocation ∨ c'.pktLocation = c.srcNode)) ∨
    pkt.isNew = false ∧ pkt.nextPhase = false ∧ c'.fwdMode = .forwardPacket ∧
      c'.pktLocation = c.pktLocation

theorem setPhase_cases (m : Model) (mb : NodePtr) (pkt : Packet) :
    ∃ c numConns, m.setPhase mb pkt = (m.setCur c).setNumConns numConns ∧
      numConns = (if pkt.isNew then m.numConns + 1 else m.numConns) ∧
      c.executable = m.cur.executable ∧ c.protoState = m.cur.protoState ∧
      c.dstIpEc = m.cur.dstIpEc ∧ c.dstPort = m.cur.dstPort ∧ c.fib = m.cur.fib ∧
      c.visitedHops = m.cur.visitedHops ∧ c.txNode = (if pkt.isNew then mb else m.cur.txNode) ∧
      ((pkt.isNew = true ∧ c.fwdMode = .firstForward ∧ c.pktLocation = mb) ∨
        (pkt.isNew = false ∧ pkt.nextPhase = true ∧ c.fwdMode = .firstForward ∧
          (c.pktLocation = m.cur.pktLocation ∨ c.pktLocation = m.cur.srcNode)) ∨
        pkt.isNew = false ∧ pkt.nextPhase = false ∧ c.fwdMode = .forwardPacket ∧
          c.pktLocation = m.cur.pktLocation) := by
  unfold setPhase
  split_ifs with hnew hnext hopp
  · exact ⟨_, _, rfl, rfl, rfl, rfl, rfl, rfl, rfl, rfl, rfl, .inl ⟨hnew, rfl, rfl⟩⟩
  · exact ⟨_, _, rfl, rfl, rfl, rfl, rfl, rfl, rfl, rfl, rfl,
      .inr (.inl ⟨by simpa using hnew, hnext, rfl, .inl rfl⟩)⟩
  · exact ⟨_, _, rfl, rfl, rfl, rfl, rfl, rfl, rfl, rfl, rfl,
      .inr (.inl ⟨by simpa using hnew, hnext, rfl, .inr rfl⟩)⟩
  · exact ⟨_, _, rfl, rfl, rfl, rfl, rfl, rfl, rfl, rfl, rfl,
      .inr (.inr ⟨by simpa using hnew, by simpa using hnext, rfl, rfl⟩)⟩

theorem setMbNextHop_cases {mb : NodePtr} {pkt : Packet}
    (h : m.setMbNextHop P mb pkt = some m') :
    ∃ candidates, m' = (m.setCur { m.cur with candidates := some candidates }).setChoiceCount
      candidates.length := by
  simp only [setMbNextHop, Option.bind_eq_bind, Option.bind_eq_some_iff, Option.pure_def,
    Option.some.injEq] at h
  obtain ⟨intf, -, rfl⟩ := h
  exact ⟨_, rfl⟩

theorem findConn_lt {pkt : Packet} {i : Nat} {dir : Bool} :
    ∀ {l : List Nat}, pkt.findConn P m l = some (some (i, dir)) → i ∈ l := by
  intro l
  induction l with
  | nil => intro h; simp [Packet.findConn] at h
  | cons j l ih =>
    intro h
    unfold Packet.findConn at h
    split_ifs at h
    · exact List.mem_cons_of_mem _ (ih h)
    · simp only [Option.bind_eq_bind, Option.bind_eq_some_iff] at h
      obtain ⟨o, -, h⟩ := h
      cases o with
      | none => exact List.mem_cons_of_mem _ (ih h)
      | some d =>
        obtain ⟨rfl, -⟩ := Prod.mk.inj (Option.some.inj (Option.some.inj h))
        exact List.mem_cons_self ..

theorem identifyConn_cases {pkt pkt' : Packet} (h : pkt.identifyConn P m = some pkt') :
    ∃ isNew oppositeDir conn,
      pkt' = { pkt with isNew := isNew, oppositeDir := oppositeDir, conn := conn } ∧
      ((isNew = false ∧ (conn = m.conn ∨ conn < m.numConns)) ∨
        isNew = true ∧ conn = m.numConns ∧ m.numConns < Packet.maxConns) := by
  simp only [Packet.identifyConn, Option.bind_eq_bind, Option.bind_eq_some_iff] at h
  obtain ⟨o, -, h⟩ := h
  cases o with
  | some d => exact ⟨_, _, _, (Option.some.inj h).symm, .inl ⟨rfl, .inl rfl⟩⟩
  | none =>
    simp only [Option.bind_eq_some_iff] at h
    obtain ⟨o, ho, h⟩ := h
    cases o with
    | some p =>
      obtain ⟨i, d⟩ := p
      refine ⟨_, _, _, (Option.some.inj h).symm, .inl ⟨rfl, .inr ?_⟩⟩
      exact List.mem_range.mp (findConn_lt ho)
    | none =>
      simp only [Option.bind_eq_some_iff, assert_eq_some] at h
      obtain ⟨-, hlt, h⟩ := h
      exact ⟨_, _, _, (Option.some.inj h).symm, .inr ⟨rfl, rfl, by simpa using hlt⟩⟩

theorem convertProtoState_cases {pkt pkt' : Packet} {old : ProtoState}
    (h : pkt.convertProtoState old = some pkt') :
    ∃ protoState, pkt' = { pkt with protoState := protoState } := by
  unfold Packet.convertProtoState at h
  split at h
  · simp only [Option.bind_eq_bind, Option.bind_eq_some_iff] at h
    obtain ⟨-, -, protoState, -, h⟩ := h
    exact ⟨protoState, (Option.some.inj h).symm⟩
  · split at h
    · split at h
      · exact ⟨_, (Option.some.inj h).symm⟩
      · split at h
        · simp only [Option.bind_eq_bind, Option.bind_eq_some_iff] at h
          obtain ⟨-, -, h⟩ := h
          exact ⟨_, (Option.some.inj h).symm⟩
        · exact ⟨_, (Option.some.inj h).symm⟩
    · split at h
      · simp only [Option.bind_eq_bind, Option.bind_eq_some_iff] at h
        obtain ⟨-, -, h⟩ := h
        exact ⟨pkt.protoState, (Option.some.inj h).symm⟩
      · exact ⟨pkt.protoState, (Option.some.inj h).symm⟩

theorem processProtoState_cases {pkt pkt' : Packet} (h : pkt.processProtoState m = some pkt') :
    ∃ protoState nextPhase, pkt' = { pkt with protoState := protoState, nextPhase := nextPhase } ∧
      (pkt'.protoState = psInvalid ∨ pkt.isNew = true ∧ nextPhase = false ∨
        pkt.isNew = false ∧ (nextPhase = false ∧ protoState = (m.connState pkt.conn).protoState ∨
          nextPhase = true ∧ (m.connState pkt.conn).protoState < protoState)) := by
  simp only [Packet.processProtoState, Option.bind_eq_bind, Option.bind_eq_some_iff] at h
  obtain ⟨pkt₁, h₁, h⟩ := h
  obtain ⟨protoState, rfl⟩ := convertProtoState_cases h₁
  simp only at h
  split_ifs at h with hnew hsame hlt
  · simp only [Option.bind_eq_some_iff] at h
    obtain ⟨-, -, h⟩ := h
    exact ⟨_, _, (Option.some.inj h).symm, .inr (.inl ⟨hnew, rfl⟩)⟩
  · exact ⟨_, _, (Option.some.inj h).symm, .inr (.inr ⟨by simpa using hnew, .inl ⟨rfl, hsame⟩⟩)⟩
  · exact ⟨_, _, (Option.some.inj h).symm, .inr (.inr ⟨by simpa using hnew, .inr ⟨rfl, hlt⟩⟩)⟩
  · obtain rfl := Option.some.inj h
    exact ⟨_, _, rfl, .inl rfl⟩

theorem receivePacket_cases {mb : NodePtr} {st st' : Model × Bool × Bool} {pkt : Packet}
    (h : receivePacket P mb st pkt = some st') :
    st' = st ∨ ∃ pkt' c' choiceCount,
      st' = (((st.1.setSlot pkt'.conn c').setNumConns
          (if pkt'.isNew then st.1.numConns + 1 else st.1.numConns)).setChoiceCount choiceCount,
        st.2.1 || pkt'.conn == st.1.conn, st.2.2 || pkt'.conn != st.1.conn) ∧
      ReceivedAs P st.1 mb pkt' (st.1.connState pkt'.conn) c' ∧
      ((pkt'.isNew = false ∧ (pkt'.conn = st.1.conn ∨ pkt'.conn < st.1.numConns)) ∨
        pkt'.isNew = true ∧ pkt'.conn = st.1.numConns ∧ st.1.numConns < Packet.maxConns) ∧
      (pkt'.isNew = false → pkt'.nextPhase = false →
        pkt'.protoState = (st.1.connState pkt'.conn).protoState) ∧
      (pkt'.isNew = false → pkt'.nextPhase = true →
        (st.1.connState pkt'.conn).protoState < pkt'.protoState) := by
  obtain ⟨m, cu, ou⟩ := st
  unfold receivePacket at h
  dsimp only at h
  split_ifs at h with hempty
  · exact .inl (Option.some.inj h).symm
  · simp only [Option.bind_eq_bind, Option.bind_eq_some_iff] at h
    obtain ⟨pkt₁, h₁, pkt₂, h₂, h⟩ := h
    obtain ⟨isNew, opp, conn, rfl, hconn⟩ := identifyConn_cases h₁
    -- an empty or invalid packet leaves everything as it is
    obtain ⟨protoState, nextPhase, rfl, hphase⟩ := processProtoState_cases h₂
    split_ifs at h with hinv
    · exact .inl (Option.some.inj h).symm
    · simp only [Option.bind_eq_some_iff] at h
      obtain ⟨-, -, m₁, hflow, m₂, hhop, h⟩ := h
      obtain rfl := Option.some.inj h
      obtain ⟨dstIpEc, fib, hfind, hfib, rfl⟩ := setFlow_cases hflow
      rw [cur_setConn] at hfib
      obtain ⟨c, numConns, hset, hnum, hexec, hps, hec, hport, hcfib, hvis, htx, hwhere⟩ :=
        setPhase_cases ((m.setConn conn).setCur _) mb _
      rw [hset] at hhop
      obtain ⟨candidates, rfl⟩ := setMbNextHop_cases hhop
      simp only [cur_setCur] at hexec hps hec hport hcfib hvis htx hwhere
      refine .inr ⟨{ pkt with
          isNew := isNew
          oppositeDir := opp
          conn := conn
          protoState := protoState
          nextPhase := nextPhase }, { c with candidates := some candidates }, candidates.length,
        ?_, ?_, hconn, ?_, ?_⟩
      · rw [cur_setNumConns, cur_setCur, setSlot_of_setConn, hnum]
        rfl
      · refine ⟨hexec, hps, hport, ⟨dstIpEc, hfind, hec, ?_⟩, ⟨_, rfl⟩, hvis, htx, hwhere⟩
        exact hfib.imp (fun h => ⟨h.1, hcfib.trans h.2⟩) fun h => hcfib ▸ h
      · intro hnew hnext
        rcases hphase with h | h | ⟨-, h | h⟩
        · exact absurd h hinv
        · exact absurd (hnew.symm.trans h.1) Bool.false_ne_true
        · exact h.2
        · exact absurd (hnext.symm.trans h.1) Bool.false_ne_true
      · intro hnew hnext
        rcases hphase with h | h | ⟨-, h | h⟩
        · exact absurd h hinv
        · exact absurd (hnew.symm.trans h.1) Bool.false_ne_true
        · exact absurd (h.1.symm.trans hnext) Bool.false_ne_true
        · exact h.2

theorem settleCurrent_cases {mb : NodePtr} {explicitDrop cu ou : Bool}
    (h : m.settleCurrent mb explicitDrop cu ou = some m') :
    m' = m.dropCur ∨
    (cu = false ∧ m' = (m.setCur { m.cur with
      executable := 2
      fwdMode := .forwardPacket
      candidates := some [.accept mb] }).setChoiceCount 1) ∨
    cu = true ∧ ∃ candidates, m.cur.candidates = some candidates ∧ candidates ≠ [] ∧
      m' = m.setChoiceCount candidates.length := by
  unfold settleCurrent at h
  split_ifs at h with hcu hdrop hou
  · exact .inl (Option.some.inj h).symm
  · exact .inr (.inl ⟨by simpa using hcu, (Option.some.inj h).symm⟩)
  · exact .inl (Option.some.inj h).symm
  · simp only [Option.bind_eq_bind, Option.bind_eq_some_iff] at h
    obtain ⟨candidates, hc, h⟩ := h
    split_ifs at h with hnil
    · exact .inl (Option.some.inj h).symm
    · refine .inr (.inr ⟨by simpa using hcu, candidates, hc, ?_, (Option.some.inj h).symm⟩)
      simpa using hnil

theorem chooseInjectionResults_cases (h : m.chooseInjectionResults P = some m') :
    ∃ (pkts : List Packet) (st : Model × Bool × Bool) (explicitDrop : Bool),
      pkts.foldlM (receivePacket P m.cur.pktLocation) (m, false, false) = some st ∧
      st.1.settleCurrent m.cur.pktLocation explicitDrop st.2.1 st.2.2 = some m' := by
  simp only [chooseInjectionResults, updateModelFromInjectionResult, Option.bind_eq_bind,
    Option.bind_eq_some_iff] at h
  obtain ⟨_, -, result, -, -, -, st, hfold, h⟩ := h
  exact ⟨result.recvPkts, st, result.explicitDrop, hfold, h⟩

theorem mem_connMap {e : Fin 3} {i : Nat} :
    i ∈ m.connMap e ↔ i < m.numConns ∧ (m.connState i).isFinished = false ∧
      (m.connState i).executable = e := by
  simp [connMap]

/-- The connection `choose_conn` sets, if it does not drop it. -/
def nextConn (m : Model) : Option Nat :=
  match m.connMap 2 with
  | conn :: _ => some conn
  | [] => (m.connMap 1)[m.choice]?

/-- The connection that is chosen: executable, or about to enter a middlebox where none is
executable, or left over and dropped. -/
theorem pickConn_cases (h : m.pickConn = some m') :
    ∃ i c, m' = (m.setConn i).setCur c ∧ i < m.numConns ∧ (m.connState i).isFinished = false ∧
      ((m.nextConn = some i ∧ (m.connState i).executable = 2 ∧ c = m.connState i) ∨
        (m.nextConn = some i ∧ (m.connState i).executable = 1 ∧
          c = { m.connState i with executable := 2 }) ∨
        (∀ j < m.numConns, (m.connState j).executable = 0) ∧
          c = { m.connState i with fwdMode := .dropped }) := by
  unfold pickConn at h
  split at h
  · next conn _ heq =>
    simp only [Option.bind_eq_bind, Option.bind_eq_some_iff] at h
    obtain ⟨-, -, h⟩ := h
    obtain ⟨hlt, hfin, hexec⟩ := mem_connMap.mp (heq ▸ List.mem_cons_self ..)
    have hnext : m.nextConn = some conn := by
      rw [nextConn, heq]
    refine ⟨conn, m.connState conn, ?_, hlt, hfin, .inl ⟨hnext, hexec, rfl⟩⟩
    rw [← cur_setConn, setCur_cur]
    exact (Option.some.inj h).symm
  · next c cs hnil heq =>
    simp only [Option.bind_eq_bind, Option.bind_eq_some_iff] at h
    obtain ⟨conn, hconn, h⟩ := h
    have hnext : m.nextConn = some conn := by
      rw [nextConn, hnil, heq]
      exact hconn
    obtain ⟨hlt, hfin, hexec⟩ := mem_connMap.mp (heq ▸ List.mem_of_getElem? hconn)
    exact ⟨conn, _, (Option.some.inj h).symm, hlt, hfin, .inr (.inl ⟨hnext, hexec, rfl⟩)⟩
  · next conn _ hnil₂ hnil₁ heq =>
    simp only [Option.bind_eq_bind, Option.bind_eq_some_iff] at h
    obtain ⟨-, -, h⟩ := h
    obtain ⟨hlt, hfin, hexec⟩ := mem_connMap.mp (heq ▸ List.mem_cons_self ..)
    -- a frozen connection is taken only where no other one is left
    have hnone : ∀ j < m.numConns, (m.connState j).executable = 0 := by
      intro j hj
      by_contra hj₀
      have hfin' : (m.connState j).isFinished = false := by
        simp [ConnState.isFinished, hj₀]
      have hmem : j ∈ m.connMap (m.connState j).executable := mem_connMap.mpr ⟨hj, hfin', rfl⟩
      generalize (m.connState j).executable = e at hj₀ hmem
      match e with
      | 0 => exact hj₀ rfl
      | 1 => simp [hnil₁] at hmem
      | 2 => simp [hnil₂] at hmem
    refine ⟨conn, _, ?_, hlt, hfin, .inr (.inr ⟨hnone, rfl⟩)⟩
    have hbranch : (m.setConn conn).cur.fwdMode ≠ .dropped ∧
        ¬((m.setConn conn).cur.fwdMode = .accepted ∧
          (m.setConn conn).cur.protoState.isLast = true) := by
      rw [cur_setConn]
      simpa [ConnState.isFinished, hexec] using hfin
    rw [if_pos hbranch] at h
    exact (Option.some.inj h).symm
  · simp at h

theorem execChooseConn_cases (h : m.execChooseConn = some m') :
    ∃ m₁, m.pickConn = some m₁ ∧
      (((m₁.cur.fwdMode = .forwardPacket ∨ m₁.cur.fwdMode = .firstForward) ∧ ∃ candidates,
          m₁.cur.candidates = some candidates ∧ m' = m₁.setChoiceCount candidates.length) ∨
        ¬(m₁.cur.fwdMode = .forwardPacket ∨ m₁.cur.fwdMode = .firstForward) ∧
          m' = m₁.setChoiceCount 1) := by
  simp only [execChooseConn, Option.bind_eq_bind, Option.bind_eq_some_iff] at h
  obtain ⟨m₁, h₁, h⟩ := h
  refine ⟨m₁, h₁, ?_⟩
  split_ifs at h with hmode
  · simp only [Option.bind_eq_some_iff] at h
    obtain ⟨candidates, hc, h⟩ := h
    exact .inl ⟨hmode, candidates, hc, (Option.some.inj h).symm⟩
  · exact .inr ⟨hmode, (Option.some.inj h).symm⟩

theorem execOpenflow_cases (h : m.execOpenflow P = some m') :
    (P.openflow.updates = [] ∧ m' = m) ∨ (m.choice = 0 ∧ m' = m.setChoiceCount 1) ∨
    ∃ i num st ec nextHops, P.openflow.nodeOrder m.cur.pktLocation = some i ∧
      m.openflowUpdateState.numOfInstalledUpdates i = some num ∧
      m.openflowUpdateState.installUpdateAt i = some st ∧ m.cur.dstIpEc = some ec ∧
      OpenflowProcess.newNextHops P.network m.cur.pktLocation
        (P.openflow.updatesOf m.cur.pktLocation) num (P.ecs.ranges ec) = some nextHops ∧
      m' = ((m.setOpenflowUpdateState st).setChoiceCount
        (if num + 1 < (P.openflow.updatesOf m.cur.pktLocation).length then 2 else 1)).setCur
          { m.cur with fib := m.cur.fib.setIpnhs m.cur.pktLocation nextHops } := by
  unfold execOpenflow at h
  split_ifs at h with hnil
  · exact .inl ⟨hnil, (Option.some.inj h).symm⟩
  · unfold installUpdate at h
    split_ifs at h with hchoice
    · exact .inr (.inl ⟨hchoice, (Option.some.inj h).symm⟩)
    · simp only [Option.bind_eq_bind, Option.bind_eq_some_iff] at h
      obtain ⟨i, hi, num, hnum, st, hst, ec, hec, nextHops, hnew, h⟩ := h
      exact .inr (.inr ⟨i, num, st, ec, nextHops, hi, hnum, hst, hec, hnew,
        (Option.some.inj h).symm⟩)

theorem updateChoiceCount_cases (m : Model) :
    ∃ n, m.updateChoiceCount = m.setChoiceCount n ∧
      (n = 0 → ∀ i < m.numConns, (m.connState i).isFinished = true) := by
  unfold updateChoiceCount
  split_ifs with h₂ h₁ h₀
  · exact ⟨1, rfl, by simp⟩
  · exact ⟨_, rfl, fun h => absurd (List.length_eq_zero_iff.mp h) h₁⟩
  · exact ⟨1, rfl, by simp⟩
  · refine ⟨0, rfl, fun _ i hi => ?_⟩
    by_contra hfin
    have hmem : i ∈ m.connMap (m.connState i).executable :=
      mem_connMap.mpr ⟨hi, by simpa using hfin, rfl⟩
    have hnil : m.connMap (m.connState i).executable = [] := by
      generalize (m.connState i).executable = e at *
      match e with
      | 0 => exact not_not.mp h₀
      | 1 => exact not_not.mp h₁
      | 2 => exact not_not.mp h₂
    simp [hnil] at hmem

theorem checkToSwitchProcess_cases (h : m.checkToSwitchProcess P = some m') :
    (m.cur.executable ≠ 2 ∧ m' = (m.setProcessId .chooseConn).updateChoiceCount) ∨
    m.cur.executable = 2 ∧
      ((m.processId = .chooseConn ∧ m' = m.setProcessId .forwarding) ∨
        (m.processId = .forwarding ∧
          (m.cur.fwdMode = .collectNhops ∨ m.cur.fwdMode = .firstCollect) ∧
          P.openflow.hasUpdates m.cur.pktLocation m.openflowUpdateState = some true ∧
          m' = (m.setProcessId .openflow).setChoiceCount 2) ∨
        (m.processId = .forwarding ∧ m' = m) ∨
        (m.processId = .openflow ∧ m.choiceCount = 1 ∧ m' = m.setProcessId .forwarding) ∨
        m.processId = .openflow ∧ m.choiceCount ≠ 1 ∧ m' = m) := by
  unfold checkToSwitchProcess at h
  by_cases hexec : m.cur.executable = 2
  · rw [if_neg (not_not.mpr hexec)] at h
    refine .inr ⟨hexec, ?_⟩
    split at h
    · next hp => exact .inl ⟨hp, (Option.some.inj h).symm⟩
    · next hp =>
      split at h
      · next hmode =>
        simp only [Option.bind_eq_bind, Option.bind_eq_some_iff] at h
        obtain ⟨b, hb, h⟩ := h
        cases b with
        | true => exact .inr (.inl ⟨hp, hmode, hb, (Option.some.inj h).symm⟩)
        | false => exact .inr (.inr (.inl ⟨hp, (Option.some.inj h).symm⟩))
      · exact .inr (.inr (.inl ⟨hp, (Option.some.inj h).symm⟩))
    · next hp =>
      split at h
      · next hcount =>
        exact .inr (.inr (.inr (.inl ⟨hp, hcount, (Option.some.inj h).symm⟩)))
      · next hcount =>
        exact .inr (.inr (.inr (.inr ⟨hp, hcount, (Option.some.inj h).symm⟩)))
  · rw [if_pos hexec] at h
    exact .inl ⟨hexec, (Option.some.inj h).symm⟩

end Model

namespace Plankton

variable {P : Plankton} {m m' : Model} {results : List InjectionResult}

theorem control_cases (h : P.control results m = some m') :
    ∃ m₁, m₁.checkToSwitchProcess P = some m' ∧
      ((m.processId = .chooseConn ∧ m.execChooseConn = some m₁) ∨
        (m.processId = .forwarding ∧ m.execForwarding P results = some m₁) ∨
        m.processId = .openflow ∧ m.execOpenflow P = some m₁) := by
  unfold control at h
  split at h
  · next hp =>
    obtain ⟨m₁, h₁, h⟩ := Option.bind_eq_some_iff.mp h
    exact ⟨m₁, h, .inl ⟨hp, h₁⟩⟩
  · next hp =>
    obtain ⟨m₁, h₁, h⟩ := Option.bind_eq_some_iff.mp h
    exact ⟨m₁, h, .inr (.inl ⟨hp, h₁⟩)⟩
  · next hp =>
    obtain ⟨m₁, h₁, h⟩ := Option.bind_eq_some_iff.mp h
    exact ⟨m₁, h, .inr (.inr ⟨hp, h₁⟩)⟩

end Plankton

end Neo
