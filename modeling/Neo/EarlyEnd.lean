import Neo.Invariant.Verdict

/-! The loop ends when the choice count is zero. Either the check has ended it or all connections
are finished, unless `choose_conn` sets a connection that has no next hop. -/

namespace Neo

namespace Model

variable {P : Plankton} {m m' : Model}

def ChoosesForwardable (m : Model) : Prop :=
  m.processId = .chooseConn → ∀ conn ∈ m.nextConn,
    (m.connState conn).fwdMode = .forwardPacket ∨ (m.connState conn).fwdMode = .firstForward →
      (m.connState conn).candidates ≠ some []

instance : DecidablePred ChoosesForwardable := fun _ => inferInstanceAs (Decidable (_ → _))

def AllFinished (m : Model) : Prop :=
  ∀ conn < m.numConns, (m.connState conn).fwdMode = .dropped ∨
    (m.connState conn).fwdMode = .accepted ∧ (m.connState conn).protoState.isLast = true

theorem allFinished_of_isFinished (h : ∀ conn < m.numConns, (m.connState conn).isFinished = true) :
    m.AllFinished := by
  intro conn hconn
  have := h conn hconn
  simp only [ConnState.isFinished, Bool.and_eq_true, Bool.or_eq_true, beq_iff_eq] at this
  exact this.2

/-- There is a choice left, or the connection that is set cannot go on. -/
def Continues (m : Model) : Prop := 0 < m.choiceCount ∨ m.cur.executable ≠ 2

theorem collectNextHops_continues {results : List InjectionResult}
    (h : m.collectNextHops P results = some m') : m'.Continues := by
  rcases collectNextHops_cases h with ⟨-, h⟩ | ⟨-, -, rfl⟩ | ⟨-, nextHops, -, hne, rfl⟩
  · obtain ⟨hne, rfl⟩ := injectPacket_cases h
    exact .inl (List.length_pos_iff.mpr hne)
  · right
    simp [dropCur]
  · exact .inl (List.length_pos_iff.mpr (chooseCandidates_ne_nil hne))

theorem forwardPacket_continues (h : m.forwardPacket P = some m') : m'.Continues := by
  obtain ⟨candidates, nextHop, pathChoices, -, -, -, ⟨-, rfl⟩ | ⟨-, rfl⟩⟩ := forwardPacket_cases h
  · exact .inl Nat.zero_lt_one
  · exact .inl Nat.zero_lt_one

theorem accepted_continues (h : m.accepted P = some m') (hc : 0 < m.choiceCount) :
    m'.Continues := by
  left
  rcases accepted_cases h with ⟨-, rfl⟩ | ⟨-, changeDirection, h⟩
  · exact hc
  · rcases phaseTransition_cases h with ⟨-, rfl⟩ | ⟨c, seq, ack, payload, rfl, -⟩
    · exact hc
    · exact hc

theorem chooseInjectionResults_continues (h : m.chooseInjectionResults P = some m') :
    m'.Continues := by
  obtain ⟨pkts, st, explicitDrop, -, h⟩ := chooseInjectionResults_cases h
  rcases settleCurrent_cases h with rfl | ⟨-, rfl⟩ | ⟨-, candidates, -, hne, rfl⟩
  · right
    simp [dropCur]
  · exact .inl Nat.zero_lt_one
  · exact .inl (List.length_pos_iff.mpr hne)

theorem execForwarding_continues {results : List InjectionResult}
    (h : m.execForwarding P results = some m') (hc : 0 < m.choiceCount) : m'.Continues := by
  unfold execForwarding at h
  split at h
  · obtain ⟨m₁, h₁, rfl⟩ := firstCollect_cases h
    rcases collectNextHops_continues h₁ with h₂ | h₂
    · exact .inl h₂
    · right
      simpa using h₂
  · obtain ⟨srcIp, h⟩ := firstForward_cases h
    exact forwardPacket_continues h
  · exact collectNextHops_continues h
  · exact chooseInjectionResults_continues h
  · exact forwardPacket_continues h
  · exact accepted_continues h hc
  · exact Option.some.inj h ▸ .inl hc

theorem execOpenflow_continues (h : m.execOpenflow P = some m') (hc : 0 < m.choiceCount) :
    m'.Continues := by
  left
  rcases execOpenflow_cases h with
    ⟨-, rfl⟩ | ⟨-, rfl⟩ | ⟨i, num, st, ec, nextHops, -, -, -, -, -, rfl⟩
  · exact hc
  · exact Nat.zero_lt_one
  · simp only [setCur_choiceCount, setChoiceCount_choiceCount]
    split_ifs <;> decide

theorem execChooseConn_continues (h : m.execChooseConn = some m') (hp : m.processId = .chooseConn)
    (hm : m.ChoosesForwardable) : m'.Continues := by
  left
  obtain ⟨m₁, h₁, ⟨hmode, candidates, hcand, rfl⟩ | ⟨-, rfl⟩⟩ := execChooseConn_cases h
  · obtain ⟨i, c, rfl, -, -, hpick⟩ := pickConn_cases h₁
    simp only [cur_setCur] at hmode hcand
    have hforward : m.nextConn = some i ∧ c.fwdMode = (m.connState i).fwdMode ∧
        c.candidates = (m.connState i).candidates := by
      rcases hpick with ⟨hnext, -, rfl⟩ | ⟨hnext, -, rfl⟩ | ⟨-, rfl⟩
      · exact ⟨hnext, rfl, rfl⟩
      · exact ⟨hnext, rfl, rfl⟩
      · simp at hmode
    obtain ⟨hnext, hm₁, hc₁⟩ := hforward
    have hne := hm hp i hnext (hm₁ ▸ hmode)
    rw [← hc₁, hcand] at hne
    exact List.length_pos_iff.mpr fun hnil => hne (congrArg some hnil)
  · exact Nat.zero_lt_one

theorem checkToSwitchProcess_ends (h : m.checkToSwitchProcess P = some m') (hm : m.Continues)
    (h₀ : m'.choiceCount = 0) : ∀ i < m'.numConns, (m'.connState i).isFinished = true := by
  rcases checkToSwitchProcess_cases h with ⟨-, rfl⟩ | ⟨hexec, hrest⟩
  · obtain ⟨n, hn, hall⟩ := updateChoiceCount_cases (m.setProcessId .chooseConn)
    rw [hn] at h₀ ⊢
    exact hall h₀
  · have hpos : 0 < m.choiceCount := hm.resolve_right (not_not.mpr hexec)
    rcases hrest with ⟨-, rfl⟩ | ⟨-, -, -, rfl⟩ | ⟨-, rfl⟩ | ⟨-, -, rfl⟩ | ⟨-, -, rfl⟩
    · exact absurd h₀ hpos.ne'
    · exact absurd h₀ two_ne_zero
    · exact absurd h₀ hpos.ne'
    · exact absurd h₀ hpos.ne'
    · exact absurd h₀ hpos.ne'

end Model

namespace Plankton

variable {P : Plankton} {V : Invariants} {m m' : Model} {results : List InjectionResult}

theorem control_ends (h : P.control results m = some m') (hc : 0 < m.choiceCount)
    (hm : m.ChoosesForwardable) (h₀ : m'.choiceCount = 0) :
    ∀ i < m'.numConns, (m'.connState i).isFinished = true := by
  obtain ⟨m₁, hswitch, ⟨hp, h₁⟩ | ⟨-, h₁⟩ | ⟨-, h₁⟩⟩ := control_cases h
  · exact Model.checkToSwitchProcess_ends hswitch (Model.execChooseConn_continues h₁ hp hm) h₀
  · exact Model.checkToSwitchProcess_ends hswitch (Model.execForwarding_continues h₁ hc) h₀
  · exact Model.checkToSwitchProcess_ends hswitch (Model.execOpenflow_continues h₁ hc) h₀

end Plankton

namespace Invariants

variable {V : Invariants} {result : Option Bool} {m m' : Model}

def Stops (V : Invariants) (result : Option Bool) (m : Model) : Prop :=
  ∃ m', V.checkViolation result (m.setChoiceCount 1) = some (m', false) ∧ m'.choiceCount = 0

theorem stops_of_choiceCount (h : V.checkViolation result m = some (m', false))
    (hc : m.choiceCount ≠ 0) (h₀ : m'.choiceCount = 0) : V.Stops result m := by
  obtain ⟨inv, v, -, -, -, hall, hm'⟩ := checkViolation_cases h
  have hstopped : v.stopped = true := by
    by_contra hns
    have hjudge : (m.judge v).choiceCount = m.choiceCount := if_neg hns
    rw [conclude_of_choiceCount V result (hjudge ▸ hc)] at hm'
    obtain ⟨rfl, -⟩ := Prod.mk.inj hm'
    exact hc (hjudge.symm.trans h₀)
  refine ⟨m', ?_, h₀⟩
  rw [hall 1, Model.judge_setChoiceCount_of_stopped hstopped, hm']

theorem allFinished_checkViolation {r : Bool} (h : V.checkViolation result m = some (m', r))
    (hm : m.AllFinished) : m'.AllFinished := by
  obtain ⟨inv, v, -, -, -, -, hm'⟩ := checkViolation_cases h
  have hstate := congrArg Prod.fst hm'
  rw [conclude_fst] at hstate
  dsimp only at hstate
  intro conn hconn
  rw [hstate] at hconn ⊢
  have hslot : ∃ executable hops, (m.judge v).connState conn =
      { m.connState conn with executable := executable, visitedHops := hops } := by
    by_cases hcur : conn = m.conn
    · exact ⟨v.executable, v.visitedHops, hcur ▸ if_pos rfl⟩
    · exact ⟨_, _, if_neg hcur⟩
  obtain ⟨executable, hops, hslot⟩ := hslot
  simp only [Model.setChoiceCount_connState, Model.setCorrelatedInvIdx_connState,
    Model.setViolated_connState, hslot]
  exact hm conn hconn

end Invariants

namespace Plankton

variable {P : Plankton} {V : Invariants}

/-- Where the loop ends after a step, the check has ended it or all connections are finished. -/
def EndsRight (P : Plankton) (V : Invariants) (l : Link Model Label) : Prop :=
  l.after.choiceCount = 0 →
    (∃ m, P.control l.act.results (l.before.setChoice l.act.choice) = some m ∧
      V.Stops l.act.result m) ∨ l.after.AllFinished

theorem reinit_choiceCount {m m' : Model} (h : P.reinit V m = some m') : m'.choiceCount = 1 := by
  obtain ⟨m₁, -, rfl⟩ := Option.map_eq_some_iff.mp h
  rfl

theorem step_endsRight {l : Link Model Label} (h : P.step V l.before l.act = some l.after)
    (hm : (l.before.setChoice l.act.choice).ChoosesForwardable) : EndsRight P V l := by
  obtain ⟨hlt, m₁, m₂, reinitDp, hcontrol, hcheck, hafter⟩ := step_eq_some h
  intro h₀
  have hpos : 0 < (l.before.setChoice l.act.choice).choiceCount := Nat.zero_lt_of_lt hlt
  cases reinitDp with
  | true => exact absurd (h₀.symm.trans (reinit_choiceCount hafter)) zero_ne_one
  | false =>
    obtain rfl := Option.some.inj hafter
    by_cases hc : m₁.choiceCount = 0
    · right
      exact Invariants.allFinished_checkViolation hcheck
        (Model.allFinished_of_isFinished (control_ends hcontrol hpos hm hc))
    · left
      exact ⟨m₁, hcontrol, Invariants.stops_of_choiceCount hcheck hc h₀⟩

/-- In a run in which every connection that is chosen to be forwarded has a next hop, the loop
does not end early. -/
theorem run_endsRight {s t : Model} {tr : List (Link Model Label)}
    (h : Run (P.step V) s tr t)
    (hm : ∀ l ∈ tr, (l.before.setChoice l.act.choice).ChoosesForwardable) :
    ∀ l ∈ tr, EndsRight P V l :=
  fun l hl => step_endsRight (h.link l hl) (hm l hl)

/-! A host and a middlebox, which has another interface without a peer. -/

section Gateway

def gatewayIntf : IntfPtr → Interface
  | 10 => ⟨2, ⟨0x0A000001#32, 24, twentyFour_le⟩, false⟩
  | 11 => ⟨2, ⟨0x0A000002#32, 24, twentyFour_le⟩, false⟩
  | _ => ⟨3, ⟨0x0A000101#32, 24, twentyFour_le⟩, false⟩

def connectedRoute (i : Interface) : Route := ⟨i.ipv4.network, i.addr, i.name, 0⟩

def gatewayNode : NodePtr → Node
  | 0 => ⟨[10], [connectedRoute (gatewayIntf 10)], by unfold Ordered.WeakSorted; decide,
      [(2, 1, 11)], false⟩
  | 1 => ⟨[11, 12], [connectedRoute (gatewayIntf 11), connectedRoute (gatewayIntf 12)],
      by unfold Ordered.WeakSorted; decide, [(2, 0, 10)], true⟩
  | _ => ⟨[], [], Route.weakSorted_nil, [], false⟩

def gateway : Network where
  nodes := [0, 1]
  node := gatewayNode
  intf := gatewayIntf
  peer_mem n p hp := by
    rcases n with _ | _ | n <;> simp [gatewayNode] at hp ⊢
    · subst hp; simp
    · subst hp; simp
  l2Lan _ _ := ⟨[], []⟩
  lan_built _ _ := ⟨1, 0, rfl⟩

def noUpdates (t : Topology) : OpenflowProcess t := ⟨[], .nil, by simp⟩

def gatewayPlankton : Plankton := .ofNetwork gateway (noUpdates _)

def gatewayInvariant : Invariants :=
  .single ⟨.waypoint [0] true, [{
    protocol := .udp
    srcNode := 0
    dstIpEc := (gatewayPlankton.ecs.findEc 0x0A000002#32).getD 0
    srcPort := 100#16
    dstPort := 80#16
    srcIp := 0#32
    seq := 0#32
    ack := 0#32 }]⟩

def gatewayQuery : Packet where
  intf := some 12
  srcIp := 0x0A000101#32
  dstIp := 0x0A000109#32
  srcPort := 5000#16
  dstPort := 53#16
  seq := 0#32
  ack := 0#32
  protoState := psUdpReq
  payload := none
  conn := 0
  isNew := false
  oppositeDir := false
  nextPhase := false

def go : Label := ⟨0, [], none⟩

def gatewayLabels (result : InjectionResult) : List Label :=
  [go, go, go, ⟨0, [result], none⟩, go]

end Gateway

theorem run_endsRight_dropped : ∃ s t tr, gatewayPlankton.initModel gatewayInvariant = some s ∧
    Run (gatewayPlankton.step gatewayInvariant) s tr t ∧ t.choiceCount = 0 ∧
      ∀ l ∈ tr, EndsRight gatewayPlankton gatewayInvariant l := by
  have hrun : ((gatewayPlankton.initModel gatewayInvariant).bind fun s =>
      (execute (gatewayPlankton.step gatewayInvariant) s (gatewayLabels ⟨[], true⟩)).map fun r =>
        (r.2.choiceCount, r.1.all fun l =>
          decide (l.before.setChoice l.act.choice).ChoosesForwardable)) = some (0, true) := by
    decide +kernel
  obtain ⟨s, hs, hrun⟩ := Option.bind_eq_some_iff.mp hrun
  obtain ⟨⟨tr, t⟩, hexec, hr⟩ := Option.map_eq_some_iff.mp hrun
  obtain ⟨h₀, hall⟩ := Prod.mk.inj hr
  have hgood : ∀ l ∈ tr, (l.before.setChoice l.act.choice).ChoosesForwardable := by
    simpa using hall
  exact ⟨s, t, tr, hs, run_of_execute hexec, h₀, run_endsRight (run_of_execute hexec) hgood⟩

/-- The query has no next hop. When its connection is chosen the loop leaves, with the check not
concerned and the query still to be forwarded. -/
theorem not_endsRight : ¬ ∀ (P : Plankton) (V : Invariants) (s t : Model)
    (tr : List (Link Model Label)), P.initModel V = some s → Run (P.step V) s tr t →
      ∀ l ∈ tr, EndsRight P V l := by
  intro h
  have hrun : ((gatewayPlankton.initModel gatewayInvariant).bind fun s =>
      (execute (gatewayPlankton.step gatewayInvariant) s
        (gatewayLabels ⟨[gatewayQuery], false⟩ ++ [go, go, go])).bind fun r =>
          r.1.getLast?.bind fun l =>
            (gatewayPlankton.control l.act.results (l.before.setChoice l.act.choice)).bind fun m =>
              (gatewayInvariant.checkViolation l.act.result (m.setChoiceCount 1)).map fun c =>
                (l.after.choiceCount, l.after.numConns, (l.after.connState 1).fwdMode,
                  c.1.choiceCount)) = some (0, 2, .firstForward, 1) := by
    decide +kernel
  obtain ⟨s, hs, hrun⟩ := Option.bind_eq_some_iff.mp hrun
  obtain ⟨⟨tr, t⟩, hexec, hrun⟩ := Option.bind_eq_some_iff.mp hrun
  obtain ⟨l, hlast, hrun⟩ := Option.bind_eq_some_iff.mp hrun
  obtain ⟨m, hcontrol, hrun⟩ := Option.bind_eq_some_iff.mp hrun
  obtain ⟨c, hcheck, hr⟩ := Option.map_eq_some_iff.mp hrun
  simp only [Prod.mk.injEq] at hr
  obtain ⟨h₀, hnum, hmode, hcount⟩ := hr
  have hmem : l ∈ tr := List.mem_of_getLast? hlast
  rcases h _ _ s t tr hs (run_of_execute hexec) l hmem h₀ with ⟨m', hm', c', hc', h₁⟩ | hfin
  · obtain rfl := Option.some.inj (hcontrol.symm.trans hm')
    obtain rfl := Option.some.inj (hcheck.symm.trans hc')
    exact absurd (hcount.symm.trans h₁) one_ne_zero
  · rcases hfin 1 (by omega) with h₁ | ⟨h₁, -⟩
    · simp [hmode] at h₁
    · simp [hmode] at h₁

end Plankton

end Neo
