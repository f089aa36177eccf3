import Neo.Invariant.Verdict

/-! What the steps leave alone: a process writes its own connection, only the answer of a middlebox
writes others, and only the switch of processes and the check write the control state. -/

namespace Neo

namespace Model

variable {P : Plankton} {m m' m'' : Model}

structure SameControl (m m' : Model) : Prop where
  conn : m'.conn = m.conn
  processId : m'.processId = m.processId
  openflowUpdateState : m'.openflowUpdateState = m.openflowUpdateState
  violated : m'.violated = m.violated
  correlatedInvIdx : m'.correlatedInvIdx = m.correlatedInvIdx

theorem SameControl.refl (m : Model) : SameControl m m := ⟨rfl, rfl, rfl, rfl, rfl⟩

theorem SameControl.trans (h : SameControl m m') (h' : SameControl m' m'') : SameControl m m'' where
  conn := h'.conn.trans h.conn
  processId := h'.processId.trans h.processId
  openflowUpdateState := h'.openflowUpdateState.trans h.openflowUpdateState
  violated := h'.violated.trans h.violated
  correlatedInvIdx := h'.correlatedInvIdx.trans h.correlatedInvIdx

def SetsCur (m m' : Model) : Prop := ∃ c k, m' = (m.setCur c).setChoiceCount k

theorem setsCur_setCur (m : Model) (c : ConnState) : SetsCur m (m.setCur c) :=
  ⟨c, m.choiceCount, rfl⟩

theorem SetsCur.setCur (h : SetsCur m m') (c : ConnState) : SetsCur m (m'.setCur c) := by
  obtain ⟨c', k, rfl⟩ := h
  refine ⟨c, k, ?_⟩
  show ((m.setCur c').setCur c).setChoiceCount k = _
  rw [setCur_setCur]

theorem SetsCur.setChoiceCount (h : SetsCur m m') (k : Nat) : SetsCur m (m'.setChoiceCount k) := by
  obtain ⟨c, k', rfl⟩ := h
  exact ⟨c, k, rfl⟩

theorem SetsCur.sameControl (h : SetsCur m m') : SameControl m m' := by
  obtain ⟨c, k, rfl⟩ := h
  exact ⟨rfl, rfl, rfl, rfl, rfl⟩

theorem SetsCur.numConns (h : SetsCur m m') : m'.numConns = m.numConns := by
  obtain ⟨c, k, rfl⟩ := h
  rfl

theorem SetsCur.connState (h : SetsCur m m') {i : Nat} (hi : i ≠ m.conn) :
    m'.connState i = m.connState i := by
  obtain ⟨c, k, rfl⟩ := h
  exact if_neg hi

theorem collectNextHops_setsCur {results : List InjectionResult}
    (h : m.collectNextHops P results = some m') : SetsCur m m' := by
  rcases collectNextHops_cases h with ⟨-, h⟩ | ⟨-, -, rfl⟩ | ⟨-, nextHops, -, -, rfl⟩
  · obtain ⟨-, rfl⟩ := injectPacket_cases h
    exact ⟨_, _, rfl⟩
  · exact setsCur_setCur m _
  · exact ⟨_, _, rfl⟩

theorem forwardPacket_setsCur (h : m.forwardPacket P = some m') : SetsCur m m' := by
  obtain ⟨candidates, nextHop, pathChoices, -, -, -, ⟨-, rfl⟩ | ⟨-, rfl⟩⟩ := forwardPacket_cases h
  · exact ((setsCur_setCur m _).setCur _).setChoiceCount 1
  · exact ((setsCur_setCur m _).setCur _).setChoiceCount 1

theorem firstForward_setsCur (h : m.firstForward P = some m') : SetsCur m m' := by
  obtain ⟨srcIp, h⟩ := firstForward_cases h
  obtain ⟨c, k, rfl⟩ := forwardPacket_setsCur h
  exact ((setsCur_setCur m _).setCur c).setChoiceCount k

theorem accepted_setsCur (h : m.accepted P = some m') : SetsCur m m' := by
  rcases accepted_cases h with ⟨-, rfl⟩ | ⟨-, changeDirection, h⟩
  · exact setsCur_setCur m _
  · rcases phaseTransition_cases h with ⟨-, rfl⟩ | ⟨c, seq, ack, payload, rfl, -⟩
    · exact setsCur_setCur m _
    · exact setsCur_setCur m _

theorem execForwarding_setsCur {results : List InjectionResult}
    (h : m.execForwarding P results = some m') (hmode : m.cur.fwdMode ≠ .chooseInjRes) :
    SetsCur m m' := by
  unfold execForwarding at h
  split at h
  · obtain ⟨m₁, h₁, rfl⟩ := firstCollect_cases h
    exact (collectNextHops_setsCur h₁).setCur _
  · exact firstForward_setsCur h
  · exact collectNextHops_setsCur h
  · next heq => exact absurd heq hmode
  · exact forwardPacket_setsCur h
  · exact accepted_setsCur h
  · exact Option.some.inj h ▸ setsCur_setCur m _

theorem receivePacket_sameControl {mb : NodePtr} {st st' : Model × Bool × Bool} {pkt : Packet}
    (h : receivePacket P mb st pkt = some st') : SameControl st.1 st'.1 := by
  rcases receivePacket_cases h with rfl | ⟨pkt', c', k, rfl, -⟩
  · exact .refl _
  · exact ⟨rfl, rfl, rfl, rfl, rfl⟩

theorem settleCurrent_setsCur {mb : NodePtr} {explicitDrop cu ou : Bool}
    (h : m.settleCurrent mb explicitDrop cu ou = some m') : SetsCur m m' := by
  rcases settleCurrent_cases h with rfl | ⟨-, rfl⟩ | ⟨-, candidates, -, -, rfl⟩
  · exact setsCur_setCur m _
  · exact (setsCur_setCur m _).setChoiceCount 1
  · exact ⟨m.cur, candidates.length, by rw [setCur_cur]⟩

theorem chooseInjectionResults_invariant (I : Model → Prop)
    (h : m.chooseInjectionResults P = some m') (hm : I m)
    (hreceive : ∀ st st' pkt, receivePacket P m.cur.pktLocation st pkt = some st' →
      SameControl m st.1 → I st.1 → I st'.1)
    (hsettle : ∀ m₁ explicitDrop cu ou, SameControl m m₁ → I m₁ →
      m₁.settleCurrent m.cur.pktLocation explicitDrop cu ou = some m' → I m') : I m' := by
  obtain ⟨pkts, st, explicitDrop, hfold, h⟩ := chooseInjectionResults_cases h
  have hst : SameControl m st.1 ∧ I st.1 := by
    refine foldlM_invariant (fun st => SameControl m st.1 ∧ I st.1) pkts
      (fun pkt _ st st' hst h => ?_) ⟨.refl m, hm⟩ hfold
    exact ⟨hst.1.trans (receivePacket_sameControl h), hreceive st st' pkt h hst.1 hst.2⟩
  exact hsettle st.1 explicitDrop st.2.1 st.2.2 hst.1 hst.2 h

theorem execForwarding_sameControl {results : List InjectionResult}
    (h : m.execForwarding P results = some m') : SameControl m m' := by
  by_cases hmode : m.cur.fwdMode = .chooseInjRes
  · unfold execForwarding at h
    rw [hmode] at h
    apply chooseInjectionResults_invariant (SameControl m) h (.refl m)
    · intro st st' pkt hst hm _
      exact hm.trans (receivePacket_sameControl hst)
    · intro m₁ explicitDrop cu ou hm _ hs
      exact hm.trans (settleCurrent_setsCur hs).sameControl
  · exact (execForwarding_setsCur h hmode).sameControl

theorem checkToSwitchProcess_eq (h : m.checkToSwitchProcess P = some m') :
    ∃ p k, m' = (m.setProcessId p).setChoiceCount k := by
  rcases checkToSwitchProcess_cases h with ⟨-, rfl⟩ | ⟨-, hrest⟩
  · obtain ⟨n, hn, -⟩ := updateChoiceCount_cases (m.setProcessId .chooseConn)
    exact ⟨_, n, hn⟩
  · rcases hrest with ⟨-, rfl⟩ | ⟨-, -, -, rfl⟩ | ⟨-, rfl⟩ | ⟨-, -, rfl⟩ | ⟨-, -, rfl⟩
    · exact ⟨.forwarding, m.choiceCount, rfl⟩
    · exact ⟨.openflow, 2, rfl⟩
    · exact ⟨m'.processId, m'.choiceCount, rfl⟩
    · exact ⟨.forwarding, m.choiceCount, rfl⟩
    · exact ⟨m'.processId, m'.choiceCount, rfl⟩

theorem checkToSwitchProcess_chooseConn (h : m.checkToSwitchProcess P = some m')
    (hp : m'.processId = .chooseConn) : m'.cur.executable ≠ 2 := by
  rcases checkToSwitchProcess_cases h with ⟨hexec, rfl⟩ | ⟨-, hrest⟩
  · obtain ⟨n, hn, -⟩ := updateChoiceCount_cases (m.setProcessId .chooseConn)
    rw [hn]
    exact hexec
  · rcases hrest with ⟨-, rfl⟩ | ⟨-, -, -, rfl⟩ | ⟨hp', rfl⟩ | ⟨-, -, rfl⟩ | ⟨hp', -, rfl⟩
    · simp at hp
    · simp at hp
    · simp [hp'] at hp
    · simp at hp
    · simp [hp'] at hp

theorem otherExecutableConnsExist_eq_false
    (h : ∀ i < m.numConns, i ≠ m.conn → (m.connState i).executable = 0) :
    m.otherExecutableConnsExist = false := by
  unfold otherExecutableConnsExist
  rw [List.any_eq_false]
  intro i hi
  by_cases hconn : i = m.conn
  · simp [hconn]
  · simp [h i (List.mem_range.mp hi) hconn]

def Waits (c c' : ConnState) : Prop :=
  c'.fwdMode = .collectNhops → c.fwdMode = .collectNhops ∧ c'.pktLocation = c.pktLocation

theorem waits_refl (c : ConnState) : Waits c c := fun h => ⟨h, rfl⟩

theorem waits_of_ne {c c' : ConnState} (h : c'.fwdMode ≠ .collectNhops) : Waits c c' :=
  fun h' => absurd h' h

theorem Waits.trans {c c' c'' : ConnState} (h : Waits c c') (h' : Waits c' c'') : Waits c c'' :=
  fun hmode => ⟨(h (h' hmode).1).1, (h' hmode).2.trans (h (h' hmode).1).2⟩

theorem waits_setCur {c : ConnState} (h : Waits m.cur c) (i : Nat) :
    Waits (m.connState i) ((m.setCur c).connState i) := by
  rw [setCur_connState]
  split_ifs with hi
  · rw [hi]
    exact h
  · exact waits_refl _

theorem collectNextHops_fwdMode {results : List InjectionResult}
    (h : m.collectNextHops P results = some m') : m'.cur.fwdMode ≠ .collectNhops := by
  rcases collectNextHops_cases h with ⟨-, h⟩ | ⟨-, -, rfl⟩ | ⟨-, nextHops, -, -, rfl⟩
  · obtain ⟨-, rfl⟩ := injectPacket_cases h
    simp
  · simp [dropCur]
  · simp

theorem execChooseConn_waits (h : m.execChooseConn = some m') (i : Nat) :
    Waits (m.connState i) (m'.connState i) := by
  obtain ⟨m₁, h₁, hm'⟩ := execChooseConn_cases h
  obtain ⟨j, c, rfl, -, -, hpick⟩ := pickConn_cases h₁
  have hc : Waits (m.connState j) c := by
    rcases hpick with ⟨-, -, rfl⟩ | ⟨-, -, rfl⟩ | ⟨-, rfl⟩
    · exact waits_refl _
    · exact fun h => ⟨h, rfl⟩
    · exact waits_of_ne (by simp)
  have hslot : Waits (m.connState i) (((m.setConn j).setCur c).connState i) :=
    waits_setCur (m := m.setConn j) hc i
  rcases hm' with ⟨-, candidates, -, rfl⟩ | ⟨-, rfl⟩
  · exact hslot
  · exact hslot

theorem execOpenflow_waits (h : m.execOpenflow P = some m') (i : Nat) :
    Waits (m.connState i) (m'.connState i) := by
  rcases execOpenflow_cases h with ⟨-, rfl⟩ | ⟨-, rfl⟩ | ⟨_, _, _, _, nextHops, -, -, -, -, -, rfl⟩
  · exact waits_refl _
  · exact waits_refl _
  · exact waits_setCur (c := { m.cur with
      fib := m.cur.fib.setIpnhs m.cur.pktLocation nextHops }) (fun h => ⟨h, rfl⟩) i

theorem chooseInjectionResults_waits (h : m.chooseInjectionResults P = some m') :
    ∀ i, Waits (m.connState i) (m'.connState i) := by
  apply chooseInjectionResults_invariant
    (fun m₁ => ∀ i, Waits (m.connState i) (m₁.connState i)) h fun i => waits_refl _
  · intro st st' pkt hst _ hw i
    rcases receivePacket_cases hst with rfl | ⟨pkt', c', k, rfl, hc', -⟩
    · exact hw i
    · show Waits _ ((st.1.setSlot pkt'.conn c').connState i)
      rw [setSlot_connState]
      split_ifs
      · apply waits_of_ne
        rcases hc'.phase with ⟨-, h, -⟩ | ⟨-, -, h, -⟩ | ⟨-, -, h, -⟩ <;> simp [h]
      · exact hw i
  · intro m₁ explicitDrop cu ou _ hw hs i
    rcases settleCurrent_cases hs with rfl | ⟨-, rfl⟩ | ⟨-, candidates, -, -, rfl⟩
    · exact (hw i).trans (waits_setCur (waits_of_ne (by simp)) i)
    · exact (hw i).trans (waits_setCur (waits_of_ne (by simp)) i)
    · exact hw i

theorem accepted_waits (h : m.accepted P = some m') (i : Nat) :
    Waits (m.connState i) (m'.connState i) := by
  have hsame : Waits m.cur { m.cur with executable := 0 } := fun h => ⟨h, rfl⟩
  rcases accepted_cases h with ⟨-, rfl⟩ | ⟨-, changeDirection, h⟩
  · exact waits_setCur hsame i
  · rcases phaseTransition_cases h with ⟨-, rfl⟩ | ⟨c, seq, ack, payload, rfl, -⟩
    · exact waits_setCur hsame i
    · exact waits_setCur (waits_of_ne (by simp)) i

theorem execForwarding_waits {results : List InjectionResult}
    (h : m.execForwarding P results = some m') (i : Nat) :
    Waits (m.connState i) (m'.connState i) ∨
      i = m.conn ∧ (m.cur.fwdMode = .firstForward ∨ m.cur.fwdMode = .forwardPacket) := by
  have hne {m' : Model} (hsets : SetsCur m m') (hmode : m'.cur.fwdMode ≠ .collectNhops) :
      Waits (m.connState i) (m'.connState i) := by
    obtain ⟨c, k, rfl⟩ := hsets
    rw [cur_setChoiceCount, cur_setCur] at hmode
    exact waits_setCur (waits_of_ne hmode) i
  have hforward {m' : Model} (hsets : SetsCur m m')
      (hmode : m.cur.fwdMode = .firstForward ∨ m.cur.fwdMode = .forwardPacket) :
      Waits (m.connState i) (m'.connState i) ∨
        i = m.conn ∧ (m.cur.fwdMode = .firstForward ∨ m.cur.fwdMode = .forwardPacket) := by
    by_cases hi : i = m.conn
    · exact .inr ⟨hi, hmode⟩
    · rw [hsets.connState hi]
      exact .inl (waits_refl _)
  unfold execForwarding at h
  split at h
  · obtain ⟨m₁, h₁, rfl⟩ := firstCollect_cases h
    exact .inl (hne ((collectNextHops_setsCur h₁).setCur _) (by simp))
  · next hmode => exact hforward (firstForward_setsCur h) (.inl hmode)
  · exact .inl (hne (collectNextHops_setsCur h) (collectNextHops_fwdMode h))
  · exact .inl (chooseInjectionResults_waits h i)
  · next hmode => exact hforward (forwardPacket_setsCur h) (.inr hmode)
  · exact .inl (accepted_waits h i)
  · next hmode =>
    obtain rfl := Option.some.inj h
    exact .inl (hne (setsCur_setCur m _) (by simp [hmode]))

end Model

namespace Plankton

variable {P : Plankton} {m m' : Model} {results : List InjectionResult}

/-- The packet of the connection that is set is forwarded from one node to another. -/
def Forwards (m m' : Model) : Prop :=
  m.processId = .forwarding ∧ (m.cur.fwdMode = .firstForward ∨ m.cur.fwdMode = .forwardPacket) ∧
    m'.cur.fwdMode = .collectNhops

instance (m m' : Model) : Decidable (Forwards m m') := inferInstanceAs (Decidable (_ ∧ _))

theorem control_conn (h : P.control results m = some m') (hp : m.processId = .forwarding) :
    m'.conn = m.conn := by
  obtain ⟨m₁, hswitch, hrest⟩ := control_cases h
  obtain ⟨p, k, rfl⟩ := Model.checkToSwitchProcess_eq hswitch
  rcases hrest with ⟨hp', -⟩ | ⟨-, h₁⟩ | ⟨hp', -⟩
  · simp [hp] at hp'
  · exact (Model.execForwarding_sameControl h₁).conn
  · simp [hp] at hp'

theorem execChooseConn_eq (h : m.execChooseConn = some m') :
    ∃ i c k, m' = ((m.setConn i).setCur c).setChoiceCount k := by
  obtain ⟨m₁, h₁, hm'⟩ := Model.execChooseConn_cases h
  obtain ⟨j, c, rfl, -, -, -⟩ := Model.pickConn_cases h₁
  rcases hm' with ⟨-, candidates, -, rfl⟩ | ⟨-, rfl⟩
  · exact ⟨j, c, _, rfl⟩
  · exact ⟨j, c, 1, rfl⟩

theorem control_violated (h : P.control results m = some m') : m'.violated = m.violated := by
  obtain ⟨m₁, hswitch, hrest⟩ := control_cases h
  obtain ⟨p, k, rfl⟩ := Model.checkToSwitchProcess_eq hswitch
  rcases hrest with ⟨-, h₁⟩ | ⟨-, h₁⟩ | ⟨-, h₁⟩
  · obtain ⟨i, c, k, rfl⟩ := execChooseConn_eq h₁
    rfl
  · exact (Model.execForwarding_sameControl h₁).violated
  · rcases Model.execOpenflow_cases h₁ with ⟨-, rfl⟩ | ⟨-, rfl⟩ |
      ⟨_, _, _, _, _, -, -, -, -, -, rfl⟩
    · rfl
    · rfl
    · rfl

theorem control_correlatedInvIdx (h : P.control results m = some m') :
    m'.correlatedInvIdx = m.correlatedInvIdx := by
  obtain ⟨m₁, hswitch, hrest⟩ := control_cases h
  obtain ⟨p, k, rfl⟩ := Model.checkToSwitchProcess_eq hswitch
  rcases hrest with ⟨-, h₁⟩ | ⟨-, h₁⟩ | ⟨-, h₁⟩
  · obtain ⟨i, c, k, rfl⟩ := execChooseConn_eq h₁
    rfl
  · exact (Model.execForwarding_sameControl h₁).correlatedInvIdx
  · rcases Model.execOpenflow_cases h₁ with ⟨-, rfl⟩ | ⟨-, rfl⟩ |
      ⟨_, _, _, _, _, -, -, -, -, -, rfl⟩
    · rfl
    · rfl
    · rfl

theorem control_waits (h : P.control results m = some m') (i : Nat) :
    Model.Waits (m.connState i) (m'.connState i) ∨ i = m'.conn ∧ Forwards m m' := by
  obtain ⟨m₁, hswitch, hrest⟩ := control_cases h
  obtain ⟨p, k, rfl⟩ := Model.checkToSwitchProcess_eq hswitch
  rcases hrest with ⟨-, h₁⟩ | ⟨hp, h₁⟩ | ⟨-, h₁⟩
  · exact .inl (Model.execChooseConn_waits h₁ i)
  · rcases Model.execForwarding_waits h₁ i with hw | ⟨rfl, hmode⟩
    · exact .inl hw
    · by_cases hcollect : (m₁.connState m.conn).fwdMode = .collectNhops
      · have hconn := (Model.execForwarding_sameControl h₁).conn
        refine .inr ⟨hconn.symm, hp, hmode, ?_⟩
        show (m₁.connState m₁.conn).fwdMode = _
        rw [hconn]
        exact hcollect
      · exact .inl (Model.waits_of_ne hcollect)
  · exact .inl (Model.execOpenflow_waits h₁ i)

end Plankton

end Neo
