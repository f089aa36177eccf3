import Neo.Process.Frame

/-! How far the connections get in a step. The first sender of a connection stays, a connection
becomes accepted only where its packet is delivered, and only an accepted packet or the answer of
a middlebox changes the state of the protocol. -/

namespace Neo

namespace Model

variable {P : Plankton} {m m' : Model} {results : List InjectionResult} {c c' c'' : ConnState}

def Rests (c c' : ConnState) : Prop :=
  c'.fwdMode = .accepted → c.fwdMode = .accepted ∧ c'.protoState = c.protoState

theorem rests_refl (c : ConnState) : Rests c c := fun h => ⟨h, rfl⟩

theorem rests_of_ne (h : c'.fwdMode ≠ .accepted) : Rests c c' := fun h' => absurd h' h

theorem Rests.trans (h : Rests c c') (h' : Rests c' c'') : Rests c c'' :=
  fun hmode => ⟨(h (h' hmode).1).1, (h' hmode).2.trans (h (h' hmode).1).2⟩

def Follows (c c' : ConnState) : Prop :=
  c'.protoState = c.protoState ∨
    c.fwdMode = .accepted ∧ c.protoState.isLast = false ∧ c'.protoState = c.protoState + 1

structure Proceeds (c c' : ConnState) : Prop where
  txNode : c'.txNode = c.txNode
  follows : Follows c c'
  rests : Rests c c' ∨ c'.protoState = c.protoState

theorem proceeds_of_ne (htx : c'.txNode = c.txNode) (hps : c'.protoState = c.protoState) :
    Proceeds c c' := ⟨htx, .inl hps, .inr hps⟩

theorem collectNextHops_proceeds (h : m.collectNextHops P results = some m') :
    Proceeds m.cur m'.cur := by
  rcases collectNextHops_cases h with ⟨-, h⟩ | ⟨-, -, rfl⟩ | ⟨-, nextHops, -, -, rfl⟩
  · obtain ⟨-, rfl⟩ := injectPacket_cases h
    apply proceeds_of_ne <;> simp
  · apply proceeds_of_ne <;> simp [dropCur]
  · apply proceeds_of_ne <;> simp

theorem forwardPacket_proceeds (h : m.forwardPacket P = some m') : Proceeds m.cur m'.cur := by
  obtain ⟨candidates, nextHop, pathChoices, -, -, -, ⟨-, rfl⟩ | ⟨-, rfl⟩⟩ := forwardPacket_cases h
  · apply proceeds_of_ne <;> simp [deliver]
  · apply proceeds_of_ne <;> simp [moveTo]

theorem accepted_proceeds (h : m.accepted P = some m') (hmode : m.cur.fwdMode = .accepted) :
    Proceeds m.cur m'.cur := by
  rcases accepted_cases h with ⟨-, rfl⟩ | ⟨hlast, changeDirection, h⟩
  · apply proceeds_of_ne <;> simp
  · rcases phaseTransition_cases h with ⟨-, rfl⟩ | ⟨c, seq, ack, payload, rfl, hc⟩
    · apply proceeds_of_ne <;> simp
    · have htx : c.txNode = m.cur.txNode := by
        rcases hc with ⟨-, -, srcIp, dstIpEc, fib, -, -, rfl⟩ | ⟨-, -, rfl⟩
        · rfl
        · rfl
      rw [cur_setCur]
      exact ⟨htx, .inr ⟨hmode, hlast, rfl⟩, .inl (rests_of_ne (by simp))⟩

theorem execForwarding_proceeds (h : m.execForwarding P results = some m')
    (hmode : m.cur.fwdMode ≠ .chooseInjRes) : Proceeds m.cur m'.cur := by
  unfold execForwarding at h
  split at h
  · obtain ⟨m₁, h₁, rfl⟩ := firstCollect_cases h
    have hp := collectNextHops_proceeds h₁
    rw [cur_setCur]
    exact ⟨hp.txNode, hp.follows, .inl (rests_of_ne (by simp))⟩
  · obtain ⟨srcIp, h⟩ := firstForward_cases h
    have hp := forwardPacket_proceeds h
    rw [cur_setCur] at hp
    exact ⟨hp.txNode, hp.follows, hp.rests⟩
  · exact collectNextHops_proceeds h
  · next heq => exact absurd heq hmode
  · exact forwardPacket_proceeds h
  · next heq => exact accepted_proceeds h heq
  · obtain rfl := Option.some.inj h
    apply proceeds_of_ne <;> simp

structure Answers (mb : NodePtr) (m m' : Model) : Prop where
  numConns : m.numConns ≤ m'.numConns
  rests : ∀ i, Rests (m.connState i) (m'.connState i)
  txNode : ∀ i < m.numConns, (m'.connState i).txNode = (m.connState i).txNode
  added : ∀ i, m.numConns ≤ i → i < m'.numConns → (m'.connState i).txNode = mb
  beyond : ∀ i, m'.numConns ≤ i → m'.connState i = m.connState i

theorem receivePacket_answers {mb : NodePtr} {st st' : Model × Bool × Bool} {pkt : Packet}
    (h : receivePacket P mb st pkt = some st') (hm : Answers mb m st.1)
    (hconn : st.1.conn < m.numConns) : Answers mb m st'.1 := by
  rcases receivePacket_cases h with rfl | ⟨pkt', c', k, rfl, hc', hwhere, -⟩
  · exact hm
  · have hle := hm.numConns
    have hmode : c'.fwdMode ≠ .accepted := by
      rcases hc'.phase with ⟨-, h, -⟩ | ⟨-, -, h, -⟩ | ⟨-, -, h, -⟩ <;> simp [h]
    have hslot : ∀ i, (((st.1.setSlot pkt'.conn c').setNumConns (if pkt'.isNew then
        st.1.numConns + 1 else st.1.numConns)).setChoiceCount k).connState i =
          if i = pkt'.conn then c' else st.1.connState i := fun i => rfl
    refine ⟨?_, ?_, ?_, ?_, ?_⟩
    · show m.numConns ≤ if pkt'.isNew then st.1.numConns + 1 else st.1.numConns
      split_ifs <;> omega
    · intro i
      rw [hslot]
      split_ifs
      · exact rests_of_ne hmode
      · exact hm.rests i
    · intro i hi
      rw [hslot]
      split_ifs with hic
      · -- a connection that was there is not new
        have hnew : pkt'.isNew = false := by
          rcases hwhere with ⟨hnew, -⟩ | ⟨-, hnum, -⟩
          · exact hnew
          · omega
        rw [hc'.txNode, hnew, if_neg Bool.false_ne_true, ← hic, hm.txNode i hi]
      · exact hm.txNode i hi
    · intro i hi hlt
      rw [hslot]
      split_ifs with hic
      · rw [hc'.txNode]
        -- a connection opened earlier in this answer may get another packet
        rcases hwhere with ⟨hnew, hold⟩ | ⟨hnew, -⟩
        · rw [hnew, if_neg Bool.false_ne_true, ← hic]
          apply hm.added i hi
          omega
        · rw [if_pos hnew]
      · apply hm.added i hi
        have hlt' : i < if pkt'.isNew then st.1.numConns + 1 else st.1.numConns := hlt
        rcases hwhere with ⟨hnew, -⟩ | ⟨hnew, hnum, -⟩
        · simpa [hnew] using hlt'
        · rw [if_pos hnew] at hlt'
          omega
    · intro i hi
      have hi' : (if pkt'.isNew then st.1.numConns + 1 else st.1.numConns) ≤ i := hi
      have hbeyond : st.1.numConns ≤ i := by
        split_ifs at hi' <;> omega
      rw [hslot, if_neg, hm.beyond i hbeyond]
      rcases hwhere with ⟨-, hold⟩ | ⟨hnew, hnum, -⟩
      · omega
      · rw [if_pos hnew] at hi'
        omega

theorem chooseInjectionResults_answers (h : m.chooseInjectionResults P = some m')
    (hconn : m.conn < m.numConns) : Answers m.cur.pktLocation m m' := by
  apply chooseInjectionResults_invariant (Answers m.cur.pktLocation m) h
  · refine ⟨le_rfl, fun i => rests_refl _, fun _ _ => rfl, ?_, fun _ _ => rfl⟩
    intro i hi hlt
    omega
  · intro st st' pkt hst hsame hm
    apply receivePacket_answers hst hm
    rw [hsame.conn]
    exact hconn
  · intro m₁ explicitDrop cu ou hsame hm hs
    have hsets := settleCurrent_setsCur hs
    have hnum := hsets.numConns
    -- the connection in charge is settled last: dropped, waiting or forwarded
    have hcur : (m'.connState m.conn).txNode = (m₁.connState m.conn).txNode ∧
        Rests (m₁.connState m.conn) (m'.connState m.conn) := by
      rw [← hsame.conn]
      rcases settleCurrent_cases hs with rfl | ⟨-, rfl⟩ | ⟨-, candidates, -, -, rfl⟩
      · have hslot : (m₁.dropCur).connState m₁.conn = _ := if_pos rfl
        rw [hslot]
        exact ⟨rfl, rests_of_ne (by simp)⟩
      · show ((m₁.setCur _).connState m₁.conn).txNode = _ ∧
          Rests _ ((m₁.setCur _).connState m₁.conn)
        rw [setCur_connState, if_pos rfl]
        exact ⟨rfl, rests_of_ne (by simp)⟩
      · exact ⟨rfl, rests_refl _⟩
    have hother : ∀ i, i ≠ m.conn → m'.connState i = m₁.connState i := by
      intro i hi
      apply hsets.connState
      rw [hsame.conn]
      exact hi
    have hle := hm.numConns
    refine ⟨hnum ▸ hle, ?_, ?_, ?_, ?_⟩
    · intro i
      by_cases hi : i = m.conn
      · rw [hi]
        exact (hm.rests m.conn).trans hcur.2
      · rw [hother i hi]
        exact hm.rests i
    · intro i hlt
      by_cases hi : i = m.conn
      · rw [hi, hcur.1]
        exact hm.txNode m.conn hconn
      · rw [hother i hi]
        exact hm.txNode i hlt
    · intro i hge hlt
      have hne : i ≠ m.conn := by omega
      rw [hother i hne]
      exact hm.added i hge (hnum ▸ hlt)
    · intro i hi
      have hne : i ≠ m.conn := by omega
      rw [hother i hne]
      exact hm.beyond i (hnum ▸ hi)

end Model

namespace Plankton

open Model

variable {P : Plankton} {m m' : Model} {results : List InjectionResult}

structure Progresses (m m' : Model) : Prop where
  conn : m'.conn < m'.numConns
  numConns : m.numConns ≤ m'.numConns
  txNode : ∀ i < m.numConns, (m'.connState i).txNode = (m.connState i).txNode
  added : ∀ i, m.numConns ≤ i → i < m'.numConns →
    (m'.connState i).txNode = m.cur.pktLocation
  beyond : ∀ i, m'.numConns ≤ i → m'.connState i = m.connState i
  rests : ∀ i, i ≠ m'.conn → Rests (m.connState i) (m'.connState i)
  follows : ¬ (m.processId = .forwarding ∧ m.cur.fwdMode = .chooseInjRes) →
    m'.numConns = m.numConns ∧ ∀ i, Follows (m.connState i) (m'.connState i)

theorem progresses_of_slot {i : Nat} {c : ConnState} (hi : i < m.numConns)
    (htx : c.txNode = (m.connState i).txNode) (hc : Follows (m.connState i) c)
    (hconn : m'.conn = i) (hnum : m'.numConns = m.numConns)
    (hslot : m'.connState = fun j => if j = i then c else m.connState j) : Progresses m m' := by
  have hother : ∀ j, j ≠ i → m'.connState j = m.connState j := by
    intro j hj
    rw [hslot]
    exact if_neg hj
  have hself : m'.connState i = c := by
    rw [hslot]
    exact if_pos rfl
  refine ⟨?_, hnum.ge, ?_, ?_, ?_, ?_, ?_⟩
  · rw [hconn, hnum]
    exact hi
  · intro j _
    by_cases hj : j = i
    · rw [hj, hself, htx]
    · rw [hother j hj]
  · intro j hge hlt
    omega
  · intro j hj
    apply hother
    omega
  · intro j hj
    rw [hother j (hconn ▸ hj)]
    exact rests_refl _
  · intro _
    refine ⟨hnum, fun j => ?_⟩
    by_cases hj : j = i
    · rw [hj, hself]
      exact hc
    · rw [hother j hj]
      exact .inl rfl

theorem execChooseConn_progresses (h : m.execChooseConn = some m') : Progresses m m' := by
  obtain ⟨m₁, h₁, hm'⟩ := execChooseConn_cases h
  obtain ⟨i, c, rfl, hi, -, hpick⟩ := pickConn_cases h₁
  have hc : c.txNode = (m.connState i).txNode ∧ c.protoState = (m.connState i).protoState := by
    rcases hpick with ⟨-, -, rfl⟩ | ⟨-, -, rfl⟩ | ⟨-, rfl⟩
    · exact ⟨rfl, rfl⟩
    · exact ⟨rfl, rfl⟩
    · exact ⟨rfl, rfl⟩
  rcases hm' with ⟨-, candidates, -, rfl⟩ | ⟨-, rfl⟩
  · exact progresses_of_slot hi hc.1 (.inl hc.2) rfl rfl rfl
  · exact progresses_of_slot hi hc.1 (.inl hc.2) rfl rfl rfl

theorem execOpenflow_progresses (h : m.execOpenflow P = some m') (hconn : m.conn < m.numConns) :
    Progresses m m' := by
  have hslot : m.connState = fun j => if j = m.conn then m.cur else m.connState j := by
    funext j
    split_ifs with hj
    · rw [hj]
      rfl
    · rfl
  rcases execOpenflow_cases h with ⟨-, rfl⟩ | ⟨-, rfl⟩ | ⟨_, _, _, _, nextHops, -, -, -, -, -, rfl⟩
  · exact progresses_of_slot hconn rfl (.inl rfl) rfl rfl hslot
  · exact progresses_of_slot hconn rfl (.inl rfl) rfl rfl hslot
  · apply progresses_of_slot (c := { m.cur with
      fib := m.cur.fib.setIpnhs m.cur.pktLocation nextHops }) hconn rfl (.inl rfl)
    · rfl
    · rfl
    · rfl

theorem execForwarding_progresses (h : m.execForwarding P results = some m')
    (hp : m.processId = .forwarding) (hconn : m.conn < m.numConns) : Progresses m m' := by
  have hsame := (execForwarding_sameControl h).conn
  by_cases hmode : m.cur.fwdMode = .chooseInjRes
  · have hanswer : m.chooseInjectionResults P = some m' := by
      unfold execForwarding at h
      rwa [hmode] at h
    have ha := chooseInjectionResults_answers hanswer hconn
    refine ⟨?_, ha.numConns, ha.txNode, ha.added, ha.beyond, fun i _ => ha.rests i, ?_⟩
    · rw [hsame]
      exact hconn.trans_le ha.numConns
    · intro hnot
      exact absurd ⟨hp, hmode⟩ hnot
  · have hproceeds := execForwarding_proceeds h hmode
    obtain ⟨c, k, rfl⟩ := execForwarding_setsCur h hmode
    rw [cur_setChoiceCount, cur_setCur] at hproceeds
    exact progresses_of_slot hconn hproceeds.txNode hproceeds.follows rfl rfl rfl

theorem control_progresses (h : P.control results m = some m') (hconn : m.conn < m.numConns) :
    Progresses m m' := by
  obtain ⟨m₁, hswitch, hrest⟩ := control_cases h
  obtain ⟨p, k, rfl⟩ := checkToSwitchProcess_eq hswitch
  have hm₁ : Progresses m m₁ := by
    rcases hrest with ⟨-, h₁⟩ | ⟨hp, h₁⟩ | ⟨-, h₁⟩
    · exact execChooseConn_progresses h₁
    · exact execForwarding_progresses h₁ hp hconn
    · exact execOpenflow_progresses h₁ hconn
  exact ⟨hm₁.conn, hm₁.numConns, hm₁.txNode, hm₁.added, hm₁.beyond, hm₁.rests, hm₁.follows⟩

end Plankton

end Neo
