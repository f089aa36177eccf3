import Neo.Process.Located

/-! In case of multipath the next hop that a connection takes is remembered, by the class of the
destination and the node. A remembered choice is taken again as long as it is offered. -/

namespace Neo

namespace ConnState

def nextHops (c : ConnState) : Option (List FibIpnh) := c.fib c.pktLocation

def recorded (c : ConnState) : Option FibIpnh := c.pathChoices.getChoice c.dstIpEc c.pktLocation

structure Fresh (c : ConnState) : Prop where
  forwards : c.AboutToForward → ∀ candidates, c.candidates = some candidates →
    1 < candidates.length → c.recorded = none
  collects : c.fwdMode = .firstCollect → c.candidates = none

end ConnState

namespace Model

variable {P : Plankton} {m m' : Model} {results : List InjectionResult}

/-- `forward_packet` calls `add_choice` with a key that is there already. -/
def RaisesDuplicate (m : Model) : Prop :=
  m.processId = .forwarding ∧ m.cur.AboutToForward ∧ ∃ candidates nextHop,
    m.cur.candidates = some candidates ∧ nextHop ∈ candidates ∧
      m.rememberChoice candidates nextHop = none

/-- Where next hops are collected and there are several, the choice that was made before is still
one of them. -/
def KeepsChoice (m : Model) : Prop :=
  m.processId = .forwarding → m.cur.fwdMode = .firstCollect ∨ m.cur.fwdMode = .collectNhops →
    ∀ nextHops ∈ m.cur.nextHops, 1 < nextHops.length → ∀ choice ∈ m.cur.recorded, choice ∈ nextHops

instance (m : Model) : Decidable m.KeepsChoice := inferInstanceAs (Decidable (_ → _ → ∀ _ ∈ _, _))

theorem rememberChoice_eq_none {candidates : Candidates} {nextHop : FibIpnh} :
    m.rememberChoice candidates nextHop = none ↔
      1 < candidates.length ∧ m.cur.recorded ≠ none := by
  unfold rememberChoice Choices.addChoice
  rw [show m.cur.pathChoices.getChoice m.cur.dstIpEc m.cur.pktLocation = m.cur.recorded from rfl]
  split_ifs with hlen hsome
  · simpa [hlen, Option.isSome_iff_ne_none] using hsome
  · simpa [hlen, Option.isSome_iff_ne_none] using hsome
  · simp [Nat.not_lt.mp hlen]

theorem not_raisesDuplicate (h : m.cur.Fresh) : ¬ m.RaisesDuplicate := by
  rintro ⟨-, hmode, candidates, nextHop, hc, -, hnone⟩
  obtain ⟨hlen, hrecorded⟩ := rememberChoice_eq_none.mp hnone
  exact hrecorded (h.forwards hmode candidates hc hlen)

theorem fresh_of_ne {c : ConnState} (h : ¬ c.AboutToForward) (h' : c.fwdMode ≠ .firstCollect) :
    c.Fresh := ⟨fun hmode => absurd hmode h, fun hmode => absurd hmode h'⟩

theorem chooseCandidates_of_mem {nextHops : List FibIpnh} {choice : FibIpnh}
    (hlen : 1 < nextHops.length) (hrecorded : m.cur.recorded = some choice)
    (hmem : choice ∈ nextHops) : m.chooseCandidates nextHops = [choice] := by
  unfold chooseCandidates
  rw [show m.cur.pathChoices.getChoice m.cur.dstIpEc m.cur.pktLocation = m.cur.recorded from rfl,
    hrecorded]
  exact if_pos ⟨hlen, hmem⟩

theorem recorded_of_chooseCandidates {nextHops : List FibIpnh}
    (hkeeps : 1 < nextHops.length → ∀ choice ∈ m.cur.recorded, choice ∈ nextHops)
    (hlen : 1 < (m.chooseCandidates nextHops).length) : m.cur.recorded = none := by
  cases hrecorded : m.cur.recorded with
  | none => rfl
  | some choice =>
    by_cases hseveral : 1 < nextHops.length
    · rw [chooseCandidates_of_mem hseveral hrecorded (hkeeps hseveral choice hrecorded)] at hlen
      simp at hlen
    · unfold chooseCandidates at hlen
      split at hlen
      · rw [if_neg (fun h => hseveral h.1)] at hlen
        exact absurd hlen hseveral
      · exact absurd hlen hseveral

theorem collectNextHops_fresh (h : m.collectNextHops P results = some m')
    (hkeeps : ∀ nextHops ∈ m.cur.nextHops, 1 < nextHops.length →
      ∀ choice ∈ m.cur.recorded, choice ∈ nextHops) : m'.cur.Fresh := by
  rcases collectNextHops_cases h with ⟨-, h⟩ | ⟨-, -, rfl⟩ | ⟨-, nextHops, hfib, -, rfl⟩
  · obtain ⟨-, rfl⟩ := injectPacket_cases h
    apply fresh_of_ne <;> simp [ConnState.AboutToForward]
  · apply fresh_of_ne <;> simp [dropCur, ConnState.AboutToForward]
  · rw [cur_setChoiceCount, cur_setCur]
    refine ⟨fun _ candidates hc hlen => ?_, by simp⟩
    obtain rfl := Option.some.inj hc
    exact recorded_of_chooseCandidates (hkeeps nextHops hfib) hlen

theorem firstCollect_fresh (h : m.firstCollect P results = some m')
    (hkeeps : ∀ nextHops ∈ m.cur.nextHops, 1 < nextHops.length →
      ∀ choice ∈ m.cur.recorded, choice ∈ nextHops) (hnone : m.cur.candidates = none) :
    m'.cur.Fresh := by
  obtain ⟨m₁, h₁, rfl⟩ := firstCollect_cases h
  rw [cur_setCur]
  rcases collectNextHops_cases h₁ with ⟨-, h⟩ | ⟨-, -, rfl⟩ | ⟨-, nextHops, hfib, -, rfl⟩
  · obtain ⟨-, rfl⟩ := injectPacket_cases h
    rw [cur_setChoiceCount, cur_setCur]
    exact ⟨fun _ _ hc => by simp [hnone] at hc, by simp⟩
  · rw [dropCur, cur_setCur]
    exact ⟨fun _ _ hc => by simp [hnone] at hc, by simp⟩
  · rw [cur_setChoiceCount, cur_setCur]
    refine ⟨fun _ candidates hc hlen => ?_, by simp⟩
    obtain rfl := Option.some.inj hc
    exact recorded_of_chooseCandidates (hkeeps nextHops hfib) hlen

theorem forwardPacket_mode (h : m.forwardPacket P = some m') :
    m'.cur.fwdMode = .accepted ∨ m'.cur.fwdMode = .collectNhops := by
  obtain ⟨candidates, nextHop, pathChoices, -, -, -, ⟨-, rfl⟩ | ⟨-, rfl⟩⟩ := forwardPacket_cases h
  · exact .inl (by simp [deliver])
  · exact .inr (by simp [moveTo])

theorem forwardPacket_fresh (h : m.forwardPacket P = some m') : m'.cur.Fresh := by
  rcases forwardPacket_mode h with hmode | hmode
  · apply fresh_of_ne <;> simp [hmode, ConnState.AboutToForward]
  · apply fresh_of_ne <;> simp [hmode, ConnState.AboutToForward]

theorem accepted_fresh (h : m.accepted P = some m') (hm : m.cur.Fresh) : m'.cur.Fresh := by
  rcases accepted_cases h with ⟨-, rfl⟩ | ⟨-, changeDirection, h⟩
  · rw [cur_setCur]
    exact ⟨hm.forwards, hm.collects⟩
  · rcases phaseTransition_cases h with ⟨-, rfl⟩ | ⟨c, seq, ack, payload, rfl, -⟩
    · rw [cur_setCur]
      exact ⟨hm.forwards, hm.collects⟩
    · rw [cur_setCur]
      exact ⟨by simp [ConnState.AboutToForward], fun _ => rfl⟩

theorem FiledAs.fresh {mb : NodePtr} {pkt : Packet} {c c' : ConnState}
    (h : FiledAs P mb pkt c c') : c'.Fresh := by
  refine ⟨fun _ candidates hc hlen => ?_, fun hmode => ?_⟩
  · rw [h.candidates] at hc
    obtain rfl := Option.some.inj hc
    cases hhop : pkt.mbNextHop P mb <;> simp [hhop] at hlen
  · rcases h.forwards with h' | h' <;> simp [h'] at hmode

theorem settleCurrent_fresh {mb : NodePtr} {explicitDrop cu ou : Bool}
    (h : m.settleCurrent mb explicitDrop cu ou = some m') (hm : m.cur.Fresh) : m'.cur.Fresh := by
  rcases settleCurrent_cases h with rfl | ⟨-, rfl⟩ | ⟨-, candidates, -, -, rfl⟩
  · apply fresh_of_ne <;> simp [dropCur, ConnState.AboutToForward]
  · rw [cur_setChoiceCount, cur_setCur]
    refine ⟨fun _ candidates hc hlen => ?_, by simp⟩
    obtain rfl := Option.some.inj hc
    simp at hlen
  · exact hm

theorem SetsCur.slots {Q : ConnState → Prop} (h : SetsCur m m') (hcur : Q m'.cur)
    (hm : ∀ i, Q (m.connState i)) : ∀ i, Q (m'.connState i) := by
  intro i
  by_cases hi : i = m.conn
  · rw [hi, ← h.sameControl.conn]
    exact hcur
  · rw [h.connState hi]
    exact hm i

theorem chooseInjectionResults_slots {Q : ConnState → Prop}
    (h : m.chooseInjectionResults P = some m') (hm : ∀ i, Q (m.connState i))
    (hfile : ∀ (st st' : Model × Bool × Bool) pkt,
      receivePacket P m.cur.pktLocation st pkt = some st' → ∀ pkt' c',
        FiledAs P m.cur.pktLocation pkt' (st.1.connState pkt'.conn) c' →
          (∀ i, Q (st.1.connState i)) → Q c')
    (hsettle : ∀ m₁ explicitDrop cu ou, SameControl m m₁ → (∀ i, Q (m₁.connState i)) →
      m₁.settleCurrent m.cur.pktLocation explicitDrop cu ou = some m' → Q m'.cur) :
    ∀ i, Q (m'.connState i) := by
  apply chooseInjectionResults_invariant (fun m₁ => ∀ i, Q (m₁.connState i)) h hm
  · intro st st' pkt hst _ hall i
    rcases receivePacket_filed hst with ⟨-, rfl⟩ | ⟨pkt', c', k, -, rfl, hc'⟩
    · exact hall i
    · show Q ((st.1.setSlot pkt'.conn c').connState i)
      rw [setSlot_connState]
      split_ifs
      · exact hfile _ _ pkt hst pkt' c' hc' hall
      · exact hall i
  · intro m₁ explicitDrop cu ou hsame hall hs
    exact (settleCurrent_setsCur hs).slots (hsettle m₁ explicitDrop cu ou hsame hall hs) hall

theorem execForwarding_fresh (h : m.execForwarding P results = some m')
    (hkeeps : m.KeepsChoice) (hp : m.processId = .forwarding) (hm : ∀ i, (m.connState i).Fresh) :
    ∀ i, (m'.connState i).Fresh := by
  by_cases hmode : m.cur.fwdMode = .chooseInjRes
  · unfold execForwarding at h
    rw [hmode] at h
    exact chooseInjectionResults_slots h hm (fun _ _ _ _ _ _ hc' _ => hc'.fresh)
      fun m₁ _ _ _ _ hall hs => settleCurrent_fresh hs (hall m₁.conn)
  · refine (execForwarding_setsCur h hmode).slots ?_ hm
    have hcur : m.cur.Fresh := hm m.conn
    unfold execForwarding at h
    split at h
    · next hmode => exact firstCollect_fresh h (hkeeps hp (.inl hmode)) (hcur.collects hmode)
    · obtain ⟨srcIp, h⟩ := firstForward_cases h
      exact forwardPacket_fresh h
    · next hmode => exact collectNextHops_fresh h (hkeeps hp (.inr hmode))
    · next heq => exact absurd heq hmode
    · exact forwardPacket_fresh h
    · exact accepted_fresh h hcur
    · obtain rfl := Option.some.inj h
      rw [cur_setCur]
      exact ⟨hcur.forwards, hcur.collects⟩

end Model

namespace Plankton

open Model

variable {P : Plankton} {V : Invariants} {m m' s t : Model} {results : List InjectionResult}
  {l : Label} {tr : List (Link Model Label)}

theorem control_slots (Q : ConnState → Prop) (h : P.control results m = some m')
    (hm : ∀ i, Q (m.connState i))
    (hexecutable : ∀ (c : ConnState) executable, Q c → Q { c with executable := executable })
    (hdrop : ∀ c : ConnState, Q c → Q { c with fwdMode := .dropped })
    (hforward : m.processId = .forwarding → ∀ m₁, m.execForwarding P results = some m₁ →
      ∀ i, Q (m₁.connState i))
    (hinstall : m.processId = .openflow → ∀ i, P.openflow.nodeOrder m.cur.pktLocation = some i →
      ∀ nextHops, Q m.cur →
        Q { m.cur with fib := m.cur.fib.setIpnhs m.cur.pktLocation nextHops }) :
    ∀ i, Q (m'.connState i) := by
  obtain ⟨m₁, hswitch, hrest⟩ := control_cases h
  obtain ⟨p, k, rfl⟩ := checkToSwitchProcess_eq hswitch
  show ∀ i, Q (m₁.connState i)
  -- one case for each process
  rcases hrest with ⟨-, h₁⟩ | ⟨hp, h₁⟩ | ⟨hp, h₁⟩
  · obtain ⟨m₂, h₂, hm₁⟩ := execChooseConn_cases h₁
    obtain ⟨j, c, rfl, -, -, hpick⟩ := pickConn_cases h₂
    have hc : Q c := by
      rcases hpick with ⟨-, -, rfl⟩ | ⟨-, -, rfl⟩ | ⟨-, rfl⟩
      · exact hm j
      · exact hexecutable _ _ (hm j)
      · exact hdrop _ (hm j)
    have hslots : ∀ i, Q (((m.setConn j).setCur c).connState i) := by
      intro i
      rw [setCur_connState]
      split_ifs
      · exact hc
      · exact hm i
    rcases hm₁ with ⟨-, candidates, -, rfl⟩ | ⟨-, rfl⟩
    · exact hslots
    · exact hslots
  · exact hforward hp m₁ h₁
  · rcases execOpenflow_cases h₁ with ⟨-, rfl⟩ | ⟨-, rfl⟩ |
      ⟨j, _, _, _, nextHops, horder, -, -, -, -, rfl⟩
    · exact hm
    · exact hm
    · intro i
      show Q (if i = m.conn then _ else m.connState i)
      split_ifs
      · exact hinstall hp j horder nextHops (hm m.conn)
      · exact hm i

theorem control_fresh (h : P.control results m = some m') (hkeeps : m.KeepsChoice)
    (hm : ∀ i, (m.connState i).Fresh) : ∀ i, (m'.connState i).Fresh := by
  refine control_slots ConnState.Fresh h hm (fun c _ hc => ⟨hc.forwards, hc.collects⟩) ?_
    (fun hp m₁ h₁ => execForwarding_fresh h₁ hkeeps hp hm)
    fun _ _ _ _ hc => ⟨hc.forwards, hc.collects⟩
  intro c _
  apply fresh_of_ne <;> simp [ConnState.AboutToForward]

theorem step_fresh (h : P.step V m l = some m') (hkeeps : m.KeepsChoice)
    (hm : ∀ i, (m.connState i).Fresh) : ∀ i, (m'.connState i).Fresh := by
  refine step_slots ConnState.Fresh ?_ (fun c _ _ hc => ⟨hc.forwards, hc.collects⟩) h
    fun m₁ h₁ => control_fresh h₁ hkeeps hm
  intro c st s hs
  refine ⟨fun hmode => ?_, fun _ => hs.candidates⟩
  rcases hmode with hmode | hmode <;> simp [hs.fwdMode] at hmode

theorem initModel_fresh (h : P.initModel V = some s) : ∀ i, (s.connState i).Fresh := by
  refine initModel_slots ConnState.Fresh ?_ ?_ h
  · exact ⟨fun hmode => by rcases hmode with hmode | hmode <;> simp [ConnState.zero] at hmode,
      fun _ => rfl⟩
  · intro c st s hs
    refine ⟨fun hmode => ?_, fun _ => hs.candidates⟩
    rcases hmode with hmode | hmode <;> simp [hs.fwdMode] at hmode

/-- In a run in which a choice is always still offered where next hops are collected, a choice is
never added a second time. -/
theorem run_not_raisesDuplicate (hs : P.initModel V = some s) (h : Run (P.step V) s tr t)
    (hkeeps : ∀ l ∈ tr, l.before.KeepsChoice) : ¬ t.RaisesDuplicate := by
  have hinv := h.invariant (fun m => ∀ i, (m.connState i).Fresh) (initModel_fresh hs)
    fun l hl hstep hfresh => step_fresh hstep (hkeeps l hl) hfresh
  exact not_raisesDuplicate (hinv.1 t.conn)

/-! A node with three neighbours. Its table sends `10.9.0.0/16` to the first two, and the first one
sends it back. -/

section Star

def starIntf : IntfPtr → Interface
  | 10 => ⟨2, ⟨0x0A000101#32, 24, twentyFour_le⟩, false⟩
  | 20 => ⟨3, ⟨0x0A000201#32, 24, twentyFour_le⟩, false⟩
  | 30 => ⟨4, ⟨0x0A000301#32, 24, twentyFour_le⟩, false⟩
  | 11 => ⟨2, ⟨0x0A000102#32, 24, twentyFour_le⟩, false⟩
  | 21 => ⟨2, ⟨0x0A000202#32, 24, twentyFour_le⟩, false⟩
  | _ => ⟨2, ⟨0x0A000302#32, 24, twentyFour_le⟩, false⟩

def starTarget : IPNetwork := IPInterface.network ⟨0x0A090000#32, 16, sixteen_le⟩

theorem starRoutes_ranked : Ordered.WeakSorted Route.lt
    [⟨starTarget, 0#32, 2, 1⟩, ⟨starTarget, 0#32, 3, 1⟩] := by
  unfold Ordered.WeakSorted
  decide

theorem starRoute_ranked : Ordered.WeakSorted Route.lt [⟨starTarget, 0#32, 2, 1⟩] :=
  List.pairwise_singleton ..

def starNode : NodePtr → Node
  | 0 => ⟨[10, 20, 30], [⟨starTarget, 0#32, 2, 1⟩, ⟨starTarget, 0#32, 3, 1⟩],
      starRoutes_ranked, [(2, 1, 11), (3, 2, 21), (4, 3, 31)], false⟩
  | 1 => ⟨[11], [⟨starTarget, 0#32, 2, 1⟩], starRoute_ranked, [(2, 0, 10)], false⟩
  | 2 => ⟨[21], [], Route.weakSorted_nil, [(2, 0, 20)], false⟩
  | 3 => ⟨[31], [], Route.weakSorted_nil, [(2, 0, 30)], false⟩
  | _ => ⟨[], [], Route.weakSorted_nil, [], false⟩

def star : Network where
  nodes := [0, 1, 2, 3]
  node := starNode
  intf := starIntf
  peer_mem n p hp := by
    rcases n with _ | _ | _ | _ | n <;> simp [starNode] at hp ⊢
    · rcases hp with rfl | rfl | rfl <;> simp
    · subst hp; simp
    · subst hp; simp
    · subst hp; simp
  l2Lan _ _ := ⟨[], []⟩
  lan_built _ _ := ⟨1, 0, rfl⟩

theorem star_modelOnly : star.ModelOnly := by
  intro n
  show (starNode n).isEmulated = false
  unfold starNode
  split
  all_goals rfl

/-- `10.9.0.0/24` to the second neighbour, then to the third, and another network. -/
def starUpdates : OpenflowProcess star.toTopology where
  updates := [(0, [⟨OpenflowProcess.subnet 0x0A090000#32, 0#32, 3, 255⟩,
    ⟨OpenflowProcess.subnet 0x0A090000#32, 0#32, 4, 255⟩,
    ⟨OpenflowProcess.subnet 0x0A080000#32, 0#32, 2, 255⟩])]
  sorted := List.pairwise_singleton ..
  node_mem := by simp [star, starNode]

def starPlankton : Plankton := .ofNetwork star starUpdates

def starConn : Connection where
  protocol := .udp
  srcNode := 0
  dstIpEc := (starPlankton.ecs.findEc 0x0A090001#32).getD 0
  srcPort := 100#16
  dstPort := 80#16
  srcIp := 0x0A000101#32
  seq := 0#32
  ack := 0#32

def pick (choice : Nat) : Label := ⟨choice, [], none⟩

def starLabels (installs : List Nat) : List Label :=
  List.replicate 4 go ++ installs.map pick ++ [go]

end Star

theorem not_raisesDuplicate_back : ∃ s t tr,
    starPlankton.initModel (unchecked [starConn]) = some s ∧
      Run (starPlankton.step (unchecked [starConn])) s tr t ∧
        t.cur.candidates = some [⟨1, some 11, 1, some 11⟩] ∧ ¬ t.RaisesDuplicate := by
  have hrun : ((starPlankton.initModel (unchecked [starConn])).bind fun s =>
      (execute (starPlankton.step (unchecked [starConn])) s (starLabels [0])).map fun r =>
        (r.2.cur.candidates, decide (∀ l ∈ r.1, l.before.KeepsChoice))) =
      some (some [⟨1, some 11, 1, some 11⟩], true) := by
    decide +kernel
  obtain ⟨s, hs, hrun⟩ := Option.bind_eq_some_iff.mp hrun
  obtain ⟨⟨tr, t⟩, hexec, hr⟩ := Option.map_eq_some_iff.mp hrun
  obtain ⟨hcandidates, hkeeps⟩ := Prod.mk.inj hr
  exact ⟨s, t, tr, hs, run_of_execute hexec, hcandidates,
    run_not_raisesDuplicate hs (run_of_execute hexec) (of_decide_eq_true hkeeps)⟩

/-- When the third update is installed the first two are inserted, and the node has two next hops,
none of which is the one that was chosen. -/
theorem not_run_not_raisesDuplicate : ¬ ∀ (P : Plankton) (V : Invariants) (s t : Model)
    (tr : List (Link Model Label)), P.network.ModelOnly → P.initModel V = some s →
      Run (P.step V) s tr t → ¬ t.RaisesDuplicate := by
  intro h
  have hrun : ((starPlankton.initModel (unchecked [starConn])).bind fun s =>
      (execute (starPlankton.step (unchecked [starConn])) s (starLabels [1, 1, 1])).map fun r =>
        (r.2.processId, r.2.cur.fwdMode, r.2.cur.candidates,
          (r.2.rememberChoice [⟨2, some 21, 2, some 21⟩, ⟨3, some 31, 3, some 31⟩]
            ⟨2, some 21, 2, some 21⟩).isNone)) =
      some (.forwarding, .forwardPacket,
        some [⟨2, some 21, 2, some 21⟩, ⟨3, some 31, 3, some 31⟩], true) := by
    decide +kernel
  obtain ⟨s, hs, hrun⟩ := Option.bind_eq_some_iff.mp hrun
  obtain ⟨⟨tr, t⟩, hexec, hr⟩ := Option.map_eq_some_iff.mp hrun
  simp only [Prod.mk.injEq] at hr
  obtain ⟨hp, hmode, hcandidates, hnone⟩ := hr
  exact h starPlankton _ s t tr star_modelOnly hs (run_of_execute hexec)
    ⟨hp, .inr hmode, _, _, hcandidates, List.mem_cons_self ..,
      Option.isNone_iff_eq_none.mp hnone⟩

end Plankton

end Neo
