import Neo.Process.Kept
import Neo.Process.Progress

/-! When a connection is accepted. Its packet is delivered, and the next step of forwarding sends
the next packet, or leaves the connection accepted and not executable where that is up to a
middlebox. The state of the protocol never goes back. -/

namespace Neo

namespace Packet

variable {P : Plankton} {m : Model} {pkt pkt' : Packet}

theorem convertFlags_toProto {flags : Nat} {old new : ProtoState}
    (h : pkt.convertFlags flags old = some new) : new.toProto = .tcp := by
  unfold convertFlags at h
  split_ifs at h
  · rw [← Option.some.inj h]
    decide
  · rw [← Option.some.inj h]
    decide
  · have hmeans := convertAck_eq_some.mp h
    generalize pkt.hasData = data at hmeans
    generalize pkt.oppositeDir = opposite at hmeans
    cases hmeans <;> decide
  · have hmeans := convertFin_eq_some.mp h
    generalize pkt.oppositeDir = opposite at hmeans
    cases hmeans <;> decide

theorem convertProtoState_toProto {old : ProtoState} (h : pkt.convertProtoState old = some pkt')
    (hnew : pkt.isNew = false) (hproto : pkt.protoState.toProto = old.toProto) :
    pkt'.protoState.toProto = old.toProto := by
  unfold convertProtoState at h
  split_ifs at h with hflags hudp hnew' hopp hicmp
  · simp only [Option.bind_eq_bind, Option.bind_eq_some_iff] at h
    obtain ⟨-, -, new, hnew', h⟩ := h
    obtain rfl := Option.some.inj h
    have htcp : pkt.protoState.toProto = .tcp := by
      rw [ProtoState.toProto, if_pos]
      rw [ProtoState.isTcp, hflags, Bool.or_true]
    exact (convertFlags_toProto hnew').trans (htcp.symm.trans hproto)
  · exact absurd (hnew.symm.trans hnew') Bool.false_ne_true
  · simp only [Option.bind_eq_bind, Option.bind_eq_some_iff, assert_eq_some, beq_iff_eq] at h
    obtain ⟨-, hrep, h⟩ := h
    obtain rfl := Option.some.inj h
    have hold : old = psUdpReq := Nat.add_right_cancel hrep
    rw [hrep, hold]
    show ProtoState.toProto psUdpRep = ProtoState.toProto psUdpReq
    decide
  · obtain rfl := Option.some.inj h
    rfl
  · simp only [Option.bind_eq_bind, Option.bind_eq_some_iff] at h
    obtain ⟨-, -, h⟩ := h
    obtain rfl := Option.some.inj h
    exact hproto
  · obtain rfl := Option.some.inj h
    exact hproto

theorem belongsToConnection_toProto {i : Nat} {same : Bool}
    (h : pkt.belongsToConnection P m i = some (some same)) :
    pkt.protoState.toProto = (m.connState i).protoState.toProto := by
  simp only [belongsToConnection, Option.bind_eq_bind, Option.bind_eq_some_iff] at h
  obtain ⟨ec, -, h⟩ := h
  split_ifs at h with hsame hopp
  · exact hsame.2.2.2.2
  · exact hopp.2.2.2.2
  · simp at h

theorem findConn_toProto {i : Nat} {same : Bool} :
    ∀ {l : List Nat}, pkt.findConn P m l = some (some (i, same)) →
      pkt.protoState.toProto = (m.connState i).protoState.toProto := by
  intro l
  induction l with
  | nil => intro h; simp [findConn] at h
  | cons j l ih =>
    intro h
    unfold findConn at h
    split_ifs at h
    · exact ih h
    · simp only [Option.bind_eq_bind, Option.bind_eq_some_iff] at h
      obtain ⟨o, hbelongs, h⟩ := h
      cases o with
      | none => exact ih h
      | some same' =>
        obtain ⟨rfl, -⟩ := Prod.mk.inj (Option.some.inj (Option.some.inj h))
        exact belongsToConnection_toProto hbelongs

theorem identifyConn_toProto (h : pkt.identifyConn P m = some pkt') (hnew : pkt'.isNew = false) :
    pkt'.protoState.toProto = (m.connState pkt'.conn).protoState.toProto := by
  simp only [identifyConn, Option.bind_eq_bind, Option.bind_eq_some_iff] at h
  obtain ⟨o, hcur, h⟩ := h
  cases o with
  | some same =>
    obtain rfl := Option.some.inj h
    exact belongsToConnection_toProto hcur
  | none =>
    simp only [Option.bind_eq_some_iff] at h
    obtain ⟨o, hfind, h⟩ := h
    cases o with
    | some p =>
      obtain ⟨i, same⟩ := p
      obtain rfl := Option.some.inj h
      show pkt.protoState.toProto = (m.connState i).protoState.toProto
      exact findConn_toProto hfind
    | none =>
      simp only [Option.bind_eq_some_iff] at h
      obtain ⟨-, -, h⟩ := h
      obtain rfl := Option.some.inj h
      simp at hnew

theorem processProtoState_toProto (h : pkt.processProtoState m = some pkt')
    (hnew : pkt.isNew = false) (hvalid : pkt'.protoState ≠ psInvalid)
    (hproto : pkt.protoState.toProto = (m.connState pkt.conn).protoState.toProto) :
    pkt'.protoState.toProto = (m.connState pkt.conn).protoState.toProto := by
  simp only [processProtoState, Option.bind_eq_bind, Option.bind_eq_some_iff] at h
  obtain ⟨pkt₁, hconvert, h⟩ := h
  have hkept := convertProtoState_toProto hconvert hnew hproto
  split_ifs at h
  · simp only [Option.bind_eq_some_iff] at h
    obtain ⟨-, -, h⟩ := h
    obtain rfl := Option.some.inj h
    exact hkept
  · obtain rfl := Option.some.inj h
    exact hkept
  · obtain rfl := Option.some.inj h
    exact hkept
  · obtain rfl := Option.some.inj h
    exact absurd rfl hvalid

end Packet

namespace ConnState

def Onwards (c c' : ConnState) : Prop :=
  c.protoState ≤ c'.protoState ∧ c'.protoState.toProto = c.protoState.toProto

theorem onwards_of_eq {c c' : ConnState} (h : c'.protoState = c.protoState) : Onwards c c' :=
  ⟨h.ge, by rw [h]⟩

end ConnState

namespace Model

open ConnState (Onwards onwards_of_eq)

variable {P : Plankton} {m m' : Model} {results : List InjectionResult}

theorem identified_onwards {pkt pkt' : Packet} (h : pkt.identified P m = some pkt')
    (hnew : pkt'.isNew = false) : (m.connState pkt'.conn).protoState ≤ pkt'.protoState ∧
      pkt'.protoState.toProto = (m.connState pkt'.conn).protoState.toProto := by
  unfold Packet.identified at h
  split_ifs at h
  simp only [Option.bind_eq_bind, Option.bind_eq_some_iff] at h
  obtain ⟨pkt₁, h₁, pkt₂, h₂, h⟩ := h
  split_ifs at h with hvalid
  obtain rfl := Option.some.inj h
  obtain ⟨protoState, nextPhase, rfl, hphase⟩ := processProtoState_cases h₂
  have hold : pkt₁.isNew = false := hnew
  have hproto := Packet.identifyConn_toProto h₁ hold
  have hkept := Packet.processProtoState_toProto h₂ hold hvalid hproto
  refine ⟨?_, hkept⟩
  rcases hphase with hinv | ⟨htrue, -⟩ | ⟨-, ⟨-, hsame⟩ | ⟨-, hlt⟩⟩
  · exact absurd hinv hvalid
  · exact absurd (hold.symm.trans htrue) Bool.false_ne_true
  · exact hsame.ge
  · exact hlt.le

def Delivers (m : Model) : Prop :=
  m.cur.AboutToForward ∧ ∃ candidates ∈ m.cur.candidates, ∃ hop ∈ candidates[m.choice]?,
    hop.l3Node = m.cur.pktLocation

instance (m : Model) : Decidable m.Delivers :=
  inferInstanceAs (Decidable ((_ ∨ _) ∧ ∃ _ ∈ _, ∃ _ ∈ _, _ = _))

structure Delivered (c c' : ConnState) : Prop where
  fwdMode : c'.fwdMode = .accepted
  protoState : c'.protoState = c.protoState
  pktLocation : c'.pktLocation = c.pktLocation
  executable : c'.executable = c.executable
  rxNode : c'.rxNode = if c.protoState.isFirst then some c.pktLocation else c.rxNode

theorem forwardPacket_delivers (h : m.forwardPacket P = some m') (hmode : m.cur.AboutToForward) :
    (m.Delivers ∧ Delivered m.cur m'.cur) ∨ ¬ m.Delivers ∧ m'.cur.fwdMode = .collectNhops := by
  obtain ⟨candidates, nextHop, pathChoices, hc, hn, -, ⟨hloc, rfl⟩ | ⟨hloc, rfl⟩⟩ :=
    forwardPacket_cases h
  · refine .inl ⟨⟨hmode, candidates, hc, nextHop, hn, hloc⟩, ?_⟩
    rw [deliver, cur_setChoiceCount, cur_setCur, cur_setCur]
    exact ⟨rfl, rfl, rfl, rfl, rfl⟩
  · refine .inr ⟨?_, by simp [moveTo]⟩
    rintro ⟨-, candidates', hc', hop, hhop, hloc'⟩
    obtain rfl := Option.some.inj (hc.symm.trans hc')
    obtain rfl := Option.some.inj (hn.symm.trans hhop)
    exact hloc hloc'

theorem execForwarding_delivers (h : m.execForwarding P results = some m')
    (hmode : m.cur.AboutToForward) :
    (m.Delivers ∧ Delivered m.cur m'.cur) ∨ ¬ m.Delivers ∧ m'.cur.fwdMode = .collectNhops := by
  unfold execForwarding at h
  rcases id hmode with hfirst | hforward
  · rw [hfirst] at h
    obtain ⟨srcIp, h⟩ := firstForward_cases h
    have hcases := forwardPacket_delivers h (by rw [cur_setCur]; exact hmode)
    rw [Delivers, cur_setCur] at hcases
    rcases hcases with ⟨hdelivers, hdelivered⟩ | hmoved
    · exact .inl ⟨hdelivers, hdelivered.fwdMode, hdelivered.protoState, hdelivered.pktLocation,
        hdelivered.executable, hdelivered.rxNode⟩
    · exact .inr hmoved
  · rw [hforward] at h
    exact forwardPacket_delivers h hmode

theorem accepted_fwdMode (h : m.accepted P = some m') :
    m'.cur.fwdMode = .firstCollect ∨ m'.cur = { m.cur with executable := 0 } := by
  rcases accepted_cases h with ⟨-, rfl⟩ | ⟨-, changeDirection, h⟩
  · exact .inr (cur_setCur ..)
  · rcases phaseTransition_cases h with ⟨-, rfl⟩ | ⟨c, seq, ack, payload, rfl, -⟩
    · exact .inr (cur_setCur ..)
    · rw [cur_setCur]
      exact .inl rfl

theorem execForwarding_accepted (h : m.execForwarding P results = some m')
    (hinjected : m.cur.fwdMode ≠ .chooseInjRes) (hmode : m'.cur.fwdMode = .accepted) :
    (m.Delivers ∧ Delivered m.cur m'.cur) ∨
      m.cur.fwdMode = .accepted ∧ m'.cur = { m.cur with executable := 0 } := by
  by_cases hforward : m.cur.AboutToForward
  · rcases execForwarding_delivers h hforward with hdelivered | ⟨-, hcollect⟩
    · exact .inl hdelivered
    · simp [hmode] at hcollect
  · unfold execForwarding at h
    split at h
    · obtain ⟨m₁, -, rfl⟩ := firstCollect_cases h
      simp at hmode
    · next heq => exact absurd (.inl heq) hforward
    · rcases collectNextHops_cases h with ⟨-, h⟩ | ⟨-, -, rfl⟩ | ⟨-, _, -, -, rfl⟩
      · obtain ⟨-, rfl⟩ := injectPacket_cases h
        simp at hmode
      · simp [dropCur] at hmode
      · simp at hmode
    · next heq => exact absurd heq hinjected
    · next heq => exact absurd (.inr heq) hforward
    · next heq =>
      rcases accepted_fwdMode h with hcollect | hcur
      · simp [hmode] at hcollect
      · exact .inr ⟨heq, hcur⟩
    · next heq =>
      obtain rfl := Option.some.inj h
      simp [heq] at hmode

theorem chooseInjectionResults_accepted (h : m.chooseInjectionResults P = some m') :
    ∀ i, (m'.connState i).fwdMode = .accepted → m'.connState i = m.connState i := by
  apply chooseInjectionResults_invariant
    (fun m₁ => ∀ i, (m₁.connState i).fwdMode = .accepted → m₁.connState i = m.connState i) h
    fun i _ => rfl
  · intro st st' pkt hreceive _ hst i
    rcases receivePacket_filed hreceive with ⟨-, rfl⟩ | ⟨pkt', c', k, -, rfl, hc'⟩
    · exact hst i
    · show ((st.1.setSlot pkt'.conn c').connState i).fwdMode = _ →
        (st.1.setSlot pkt'.conn c').connState i = _
      rw [setSlot_connState]
      split_ifs
      · intro hmode
        rcases hc'.forwards with h' | h' <;> simp [h'] at hmode
      · exact hst i
  · intro m₁ explicitDrop cu ou _ hm₁ hsettle i hmode
    by_cases hi : i = m₁.conn
    · have hslot : m'.connState i = m'.cur :=
        congrArg m'.connState (hi.trans (settleCurrent_setsCur hsettle).sameControl.conn.symm)
      rw [hslot] at hmode
      rcases settleCurrent_cases hsettle with rfl | ⟨-, rfl⟩ | ⟨-, _, -, -, rfl⟩
      · simp [dropCur] at hmode
      · simp at hmode
      · exact hm₁ i (by rw [hi]; exact hmode)
    · rw [(settleCurrent_setsCur hsettle).connState hi] at hmode ⊢
      exact hm₁ i hmode

def Installing (m : Model) : Prop :=
  m.processId = .openflow → m.cur.fwdMode = .collectNhops ∨ m.cur.fwdMode = .firstCollect

theorem checkToSwitchProcess_installing (h : m.checkToSwitchProcess P = some m')
    (hm : m.Installing) : m'.Installing := by
  intro hp
  rcases checkToSwitchProcess_cases h with ⟨-, rfl⟩ | ⟨-, hrest⟩
  · obtain ⟨n, hn, -⟩ := updateChoiceCount_cases (m.setProcessId .chooseConn)
    rw [hn] at hp
    simp at hp
  · rcases hrest with ⟨-, rfl⟩ | ⟨-, hmode, -, rfl⟩ | ⟨hp', rfl⟩ | ⟨-, -, rfl⟩ | ⟨-, -, rfl⟩
    · simp at hp
    · exact hmode
    · simp [hp'] at hp
    · simp at hp
    · exact hm hp

theorem checkToSwitchProcess_executable (h : m.checkToSwitchProcess P = some m')
    (hp : m'.processId = .forwarding) : m.cur.executable = 2 := by
  rcases checkToSwitchProcess_cases h with ⟨-, rfl⟩ | ⟨hexec, -⟩
  · obtain ⟨n, hn, -⟩ := updateChoiceCount_cases (m.setProcessId .chooseConn)
    rw [hn] at hp
    simp at hp
  · exact hexec

theorem checkToSwitchProcess_accepted (h : m.checkToSwitchProcess P = some m')
    (hp : m.processId = .forwarding) (hexec : m.cur.executable = 2)
    (hmode : m.cur.fwdMode = .accepted) : m'.processId = .forwarding := by
  rcases checkToSwitchProcess_cases h with ⟨hne, -⟩ | ⟨-, hrest⟩
  · exact absurd hexec hne
  · rcases hrest with ⟨-, rfl⟩ | ⟨-, hcollect, -, rfl⟩ | ⟨-, rfl⟩ | ⟨-, -, rfl⟩ | ⟨hp', -, rfl⟩
    · rfl
    · rcases hcollect with hcollect | hcollect <;> simp [hmode] at hcollect
    · exact hp
    · rfl
    · simp [hp] at hp'

structure AtRest (m : Model) : Prop where
  installing : m.Installing
  executable : m.processId = .forwarding → m.cur.AboutToForward → m.cur.executable = 2
  accepted : ∀ i, (m.connState i).fwdMode = .accepted →
    (m.connState i).executable = 0 ∨ m.processId = .forwarding ∧ m.conn = i

theorem AtRest.judge (hm : m.AtRest) {v : Verdict} (hv : v.Fits m) : (m.judge v).AtRest := by
  have hmode : (m.judge v).cur.fwdMode = m.cur.fwdMode := by rw [judge_cur]
  refine ⟨fun hp => hmode ▸ hm.installing hp, fun hp hforward => ?_, fun i => ?_⟩
  · have hforward' : m.cur.AboutToForward := by rwa [ConnState.AboutToForward, hmode] at hforward
    rw [judge_cur]
    rcases hv.executable with hsame | ⟨-, haccepted⟩
    · exact hsame.trans (hm.executable hp hforward')
    · rcases hforward' with h' | h' <;> simp [h'] at haccepted
  · rw [judge_connState]
    split_ifs with hi
    · intro haccepted
      rcases hv.executable with hsame | ⟨hzero, -⟩
      · rw [hi] at *
        rcases hm.accepted m.conn haccepted with hzero | hset
        · exact .inl (hsame.trans hzero)
        · exact .inr hset
      · exact .inl hzero
    · exact hm.accepted i

end Model

namespace Plankton

open Model ConnState

variable {P : Plankton} {V : Invariants} {m m' s : Model} {results : List InjectionResult}

theorem control_installing (h : P.control results m = some m') (hm : m.Installing) :
    m'.Installing := by
  obtain ⟨m₁, hswitch, hrest⟩ := control_cases h
  apply checkToSwitchProcess_installing hswitch
  intro hp
  rcases hrest with ⟨hp', h₁⟩ | ⟨hp', h₁⟩ | ⟨hp', h₁⟩
  · obtain ⟨i, c, k, rfl⟩ := execChooseConn_eq h₁
    exact absurd (hp'.symm.trans hp) (by simp)
  · rw [(execForwarding_sameControl h₁).processId, hp'] at hp
    simp at hp
  · rcases execOpenflow_cases h₁ with ⟨-, rfl⟩ | ⟨-, rfl⟩ | ⟨_, _, _, _, _, -, -, -, -, -, rfl⟩
    · exact hm hp
    · exact hm hp'
    · rw [cur_setCur]
      exact hm hp'

theorem execChooseConn_accepted (h : m.execChooseConn = some m') (hm : m.AtRest)
    (hp : m.processId = .chooseConn) {i : Nat} (hi : (m'.connState i).fwdMode = .accepted) :
    i ≠ m'.conn ∧ m'.connState i = m.connState i := by
  obtain ⟨m₁, h₁, hm'⟩ := execChooseConn_cases h
  obtain ⟨j, c, rfl, -, -, hpick⟩ := pickConn_cases h₁
  have hslot : m'.conn = j ∧ m'.connState = fun i => if i = j then c else m.connState i := by
    rcases hm' with ⟨-, candidates, -, rfl⟩ | ⟨-, rfl⟩
    · exact ⟨rfl, rfl⟩
    · exact ⟨rfl, rfl⟩
  rw [hslot.2] at hi ⊢
  rw [hslot.1]
  dsimp only at hi ⊢
  by_cases hij : i = j
  · rw [if_pos hij] at hi
    -- at rest an accepted connection is not executable, so it can only have been dropped
    have hzero : ∀ c' : ConnState, c' = m.connState j → c'.fwdMode = .accepted →
        c'.executable = 0 := by
      rintro c' rfl haccepted
      rcases hm.accepted j haccepted with hzero | ⟨hp', -⟩
      · exact hzero
      · simp [hp] at hp'
    rcases hpick with ⟨-, hexec, rfl⟩ | ⟨-, hexec, rfl⟩ | ⟨-, rfl⟩
    · rw [hzero _ rfl hi] at hexec
      exact absurd hexec (by decide)
    · rw [hzero _ rfl hi] at hexec
      exact absurd hexec (by decide)
    · simp at hi
  · rw [if_neg hij]
    exact ⟨hij, rfl⟩

theorem execOpenflow_accepted (h : m.execOpenflow P = some m') (hm : m.Installing)
    (hp : m.processId = .openflow) {i : Nat} (hi : (m'.connState i).fwdMode = .accepted) :
    i ≠ m'.conn ∧ m'.connState i = m.connState i := by
  have hslot : m'.conn = m.conn ∧ m'.cur.fwdMode = m.cur.fwdMode ∧
      ∀ j, j ≠ m.conn → m'.connState j = m.connState j := by
    rcases execOpenflow_cases h with ⟨-, rfl⟩ | ⟨-, rfl⟩ | ⟨_, _, _, _, _, -, -, -, -, -, rfl⟩
    · exact ⟨rfl, rfl, fun _ _ => rfl⟩
    · exact ⟨rfl, rfl, fun _ _ => rfl⟩
    · exact ⟨rfl, by rw [cur_setCur], fun j hj => if_neg hj⟩
  -- the connection that is set is about to collect next hops
  have hne : i ≠ m.conn := by
    rintro rfl
    rw [show m'.connState m.conn = m'.cur from congrArg m'.connState hslot.1.symm,
      hslot.2.1] at hi
    rcases hm hp with hmode | hmode <;> simp [hmode] at hi
  exact ⟨fun heq => hne (heq.trans hslot.1), hslot.2.2 i hne⟩

theorem control_accepted (h : P.control results m = some m') (hm : m.AtRest) {i : Nat}
    (hi : (m'.connState i).fwdMode = .accepted) :
    (i ≠ m'.conn ∧ m'.connState i = m.connState i) ∨
      m.processId = .forwarding ∧ m.conn = i ∧ m'.conn = i ∧
        (m.Delivers ∧ Delivered m.cur m'.cur ∧ m'.processId = .forwarding ∨
          m.cur.fwdMode = .accepted ∧ m'.cur = { m.cur with executable := 0 }) := by
  obtain ⟨m₁, hswitch, hrest⟩ := control_cases h
  obtain ⟨p, k, rfl⟩ := checkToSwitchProcess_eq hswitch
  rcases hrest with ⟨hp, h₁⟩ | ⟨hp, h₁⟩ | ⟨hp, h₁⟩
  · exact .inl (execChooseConn_accepted h₁ hm hp hi)
  · have hconn : m₁.conn = m.conn := (execForwarding_sameControl h₁).conn
    by_cases hset : i = m.conn
    · have hcur : m₁.cur.fwdMode = .accepted := by
        rw [show m₁.cur = m₁.connState i from congrArg m₁.connState (hconn.trans hset.symm)]
        exact hi
      refine .inr ⟨hp, hset.symm, hconn.trans hset.symm, ?_⟩
      -- an answer leaves only those accepted that were, and the one that is set was injected
      have hinjected : m.cur.fwdMode ≠ .chooseInjRes := by
        intro hmode
        have h₂ := h₁
        unfold execForwarding at h₂
        rw [hmode] at h₂
        have hsame := chooseInjectionResults_accepted h₂ i hi
        have hi' : (m₁.connState i).fwdMode = .accepted := hi
        rw [hsame, hset] at hi'
        exact absurd (hmode.symm.trans hi') (by decide)
      rcases execForwarding_accepted h₁ hinjected hcur with ⟨hdelivers, hdelivered⟩ | hfrozen
      · refine .inl ⟨hdelivers, hdelivered, ?_⟩
        have hexec := hdelivered.executable.trans (hm.executable hp hdelivers.1)
        exact checkToSwitchProcess_accepted hswitch
          ((execForwarding_sameControl h₁).processId.trans hp) hexec hcur
      · exact .inr hfrozen
    · refine .inl ⟨fun heq => hset (heq.trans hconn), ?_⟩
      by_cases hmode : m.cur.fwdMode = .chooseInjRes
      · unfold execForwarding at h₁
        rw [hmode] at h₁
        exact chooseInjectionResults_accepted h₁ i hi
      · exact (execForwarding_setsCur h₁ hmode).connState hset
  · exact .inl (execOpenflow_accepted h₁ hm.installing hp hi)

theorem control_atRest (h : P.control results m = some m') (hm : m.AtRest) : m'.AtRest := by
  refine ⟨control_installing h hm.installing, fun hp _ => ?_, fun i hi => ?_⟩
  · obtain ⟨m₁, hswitch, -⟩ := control_cases h
    have hexec := checkToSwitchProcess_executable hswitch hp
    obtain ⟨p, k, rfl⟩ := checkToSwitchProcess_eq hswitch
    exact hexec
  · rcases control_accepted h hm hi with ⟨hne, hsame⟩ | ⟨-, -, hconn, ⟨-, -, hp⟩ | ⟨-, hcur⟩⟩
    · rw [hsame] at hi ⊢
      rcases hm.accepted i hi with hzero | ⟨hp, hset⟩
      · exact .inl hzero
      · exact absurd (hset.symm.trans (control_conn h hp).symm) hne
    · exact .inr ⟨hp, hconn⟩
    · left
      rw [show m'.connState i = m'.cur from congrArg m'.connState hconn.symm, hcur]

theorem initModel_fwdMode (h : P.initModel V = some s) (i : Nat) :
    (s.connState i).fwdMode = .firstCollect :=
  initModel_slots (fun c => c.fwdMode = .firstCollect) rfl (fun _ _ _ hs => hs.fwdMode) h i

theorem initModel_atRest (h : P.initModel V = some s) : s.AtRest := by
  have hfirst := initModel_fwdMode h
  refine ⟨fun hp => ?_, fun _ hforward => ?_, fun i hi => ?_⟩
  · simp [(initModel_cases h).1] at hp
  · have hcur : s.cur.fwdMode = .firstCollect := hfirst s.conn
    rcases hforward with hmode | hmode <;> simp [hcur] at hmode
  · simp [hfirst i] at hi

theorem toProto_succ_of_accepted (h : m.accepted P = some m')
    (hlast : m.cur.protoState.isLast = false) :
    (m.cur.protoState + 1).toProto = m.cur.protoState.toProto := by
  -- one case for each of the states that `accepted` distinguishes; no other is accepted
  unfold accepted at h
  split at h
  case h_15 => simp at h
  all_goals
    next heq =>
      rw [heq] at hlast ⊢
      revert hlast
      decide

theorem preserved_onwards : Preserved P Onwards where
  trans h h' := ⟨h.1.trans h'.1, h'.2.trans h.2⟩
  writes _ _ _ _ _ _ := onwards_of_eq rfl
  forwards h hinjected := by
    rcases (execForwarding_proceeds h hinjected).follows with hps | ⟨hmode, hlast, hps⟩
    · exact onwards_of_eq hps
    · unfold execForwarding at h
      rw [hmode] at h
      refine ⟨hps ▸ Nat.le_succ _, ?_⟩
      rw [hps, toProto_succ_of_accepted h hlast]
  receives hid hnew hc' := by
    have honwards := identified_onwards hid hnew
    rw [← hc'.protoState] at honwards
    exact honwards

end Plankton

end Neo
