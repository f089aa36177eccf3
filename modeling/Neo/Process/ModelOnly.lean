import Neo.Started

/-! Networks without middleboxes. There a step of the forwarding process takes one connection from
one state to the next, whatever the others do. -/

namespace Neo

def Network.ModelOnly (net : Network) : Prop := ∀ n, (net.node n).isEmulated = false

def ConnState.AboutToForward (c : ConnState) : Prop :=
  c.fwdMode = .firstForward ∨ c.fwdMode = .forwardPacket

/-- What a step of the forwarding process makes of a connection. -/
inductive Advances (P : Plankton) (st : OpenflowUpdateState) (choice : Nat) (c : ConnState) :
    ConnState → Prop
  /-- Next hops are collected, at the source or on the way. -/
  | collect (nextHops candidates : List FibIpnh) (mode : FwdMode) :
      (c.fwdMode = .firstCollect ∧ mode = .firstForward ∨
        c.fwdMode = .collectNhops ∧ mode = .forwardPacket) →
      c.fib c.pktLocation = some nextHops → candidates ≠ [] → (∀ h ∈ candidates, h ∈ nextHops) →
      Advances P st choice c { c with candidates := some candidates, fwdMode := mode }
  /-- There are no next hops. -/
  | starve (mode : FwdMode) :
      (c.fwdMode = .firstCollect ∧ mode = .firstForward ∨
        c.fwdMode = .collectNhops ∧ mode = .dropped) →
      c.fib c.pktLocation = some [] →
      Advances P st choice c { c with fwdMode := mode, executable := 0 }
  | deliver (candidates : List FibIpnh) (nextHop : FibIpnh) (srcIp : IPv4Address)
      (choices : Choices) : c.AboutToForward → c.candidates = some candidates →
      candidates[choice]? = some nextHop → nextHop.l3Node = c.pktLocation →
      Advances P st choice c { c with
        srcIp := srcIp
        pathChoices := choices
        rxNode := if c.protoState.isFirst then some c.pktLocation else c.rxNode
        fwdMode := .accepted }
  | move (candidates : List FibIpnh) (nextHop : FibIpnh) (srcIp : IPv4Address)
      (choices : Choices) : c.AboutToForward → c.candidates = some candidates →
      candidates[choice]? = some nextHop → nextHop.l3Node ≠ c.pktLocation →
      Advances P st choice c { c with
        srcIp := srcIp
        pathChoices := choices
        pktLocation := nextHop.l3Node
        ingressIntf := nextHop.l3Intf
        fwdMode := .collectNhops }
  /-- The last packet of the protocol is accepted. -/
  | last : c.fwdMode = .accepted → c.protoState.isLast = true →
      Advances P st choice c { c with executable := 0 }
  /-- The receiver answers. -/
  | answer (srcIp : IPv4Address) (dstIpEc : EcPtr) (fib : FIB) (seq ack : BitVec 32)
      (payload : Option Payload) : c.fwdMode = .accepted → c.protoState.isLast = false →
      P.ecs.findEc c.srcIp = some dstIpEc →
      P.openflow.updateFib st (P.ecs.ranges dstIpEc) = some fib →
      Advances P st choice c { c with
        srcIp := srcIp
        dstIpEc := some dstIpEc
        srcNode := c.pktLocation
        srcPort := c.dstPort
        dstPort := c.srcPort
        fib := fib
        seq := seq
        ack := ack
        protoState := c.protoState + 1
        payload := payload
        fwdMode := .firstCollect
        ingressIntf := none
        candidates := none
        injResults := none }
  /-- The sender sends the next packet. -/
  | again (seq ack : BitVec 32) (payload : Option Payload) : c.fwdMode = .accepted →
      c.protoState.isLast = false →
      Advances P st choice c { c with
        pktLocation := c.srcNode
        seq := seq
        ack := ack
        protoState := c.protoState + 1
        payload := payload
        fwdMode := .firstCollect
        ingressIntf := none
        candidates := none
        injResults := none }
  | dropped : c.fwdMode = .dropped → Advances P st choice c { c with executable := 0 }

namespace Model

variable {P : Plankton} {m m' : Model} {results : List InjectionResult}

def AdvancesCur (P : Plankton) (m m' : Model) : Prop :=
  ∃ c k, m' = (m.setCur c).setChoiceCount k ∧
    Advances P m.openflowUpdateState m.choice m.cur c

theorem collectNextHops_advances (hnet : P.network.ModelOnly)
    (hmode : m.cur.fwdMode = .collectNhops) (h : m.collectNextHops P results = some m') :
    AdvancesCur P m m' := by
  rcases collectNextHops_cases h with ⟨hemu, -⟩ | ⟨-, hfib, rfl⟩ | ⟨-, nextHops, hfib, hne, rfl⟩
  · simp [hnet m.cur.pktLocation] at hemu
  · exact ⟨_, m.choiceCount, rfl, .starve _ (.inr ⟨hmode, rfl⟩) hfib⟩
  · exact ⟨_, _, rfl, .collect nextHops _ _ (.inr ⟨hmode, rfl⟩) hfib (chooseCandidates_ne_nil hne)
      (chooseCandidates_subset nextHops)⟩

theorem firstCollect_advances (hnet : P.network.ModelOnly)
    (hmode : m.cur.fwdMode = .firstCollect) (h : m.firstCollect P results = some m') :
    AdvancesCur P m m' := by
  obtain ⟨m₁, h₁, rfl⟩ := firstCollect_cases h
  rcases collectNextHops_cases h₁ with ⟨hemu, -⟩ | ⟨-, hfib, rfl⟩ | ⟨-, nextHops, hfib, hne, rfl⟩
  · simp [hnet m.cur.pktLocation] at hemu
  · refine ⟨_, m.choiceCount, ?_, .starve _ (.inl ⟨hmode, rfl⟩) hfib⟩
    rw [dropCur, cur_setCur, setCur_setCur]
    rfl
  · refine ⟨_, (m.chooseCandidates nextHops).length, ?_,
      .collect nextHops (m.chooseCandidates nextHops) _ (.inl ⟨hmode, rfl⟩) hfib
        (chooseCandidates_ne_nil hne) (chooseCandidates_subset nextHops)⟩
    rw [cur_setChoiceCount, cur_setCur]
    show ((m.setCur _).setCur _).setChoiceCount _ = _
    rw [setCur_setCur]
    rfl

theorem forwardPacket_advances (hnet : P.network.ModelOnly) (srcIp : IPv4Address)
    (hmode : m.cur.AboutToForward)
    (h : (m.setCur { m.cur with srcIp := srcIp }).forwardPacket P = some m') :
    AdvancesCur P m m' := by
  obtain ⟨candidates, nextHop, choices, hc, hn, -, hrest⟩ := forwardPacket_cases h
  simp only [cur_setCur, setCur_setCur] at hc hn hrest
  rcases hrest with ⟨hl, rfl⟩ | ⟨hl, rfl⟩
  · refine ⟨_, 1, ?_, .deliver candidates nextHop srcIp choices hmode hc hn hl⟩
    rw [deliver, cur_setCur, setCur_setCur]
  · refine ⟨_, 1, ?_, .move candidates nextHop srcIp choices hmode hc hn hl⟩
    simp only [moveTo, cur_setCur, setCur_setCur, hnet nextHop.l3Node, Bool.false_and,
      Bool.false_eq_true, if_false]

theorem accepted_advances (hnet : P.network.ModelOnly) (hmode : m.cur.fwdMode = .accepted)
    (h : m.accepted P = some m') : AdvancesCur P m m' := by
  rcases accepted_cases h with ⟨hlast, rfl⟩ | ⟨hlast, changeDirection, h⟩
  · exact ⟨_, m.choiceCount, rfl, .last hmode hlast⟩
  · rcases phaseTransition_cases h with ⟨hemu, -⟩ | ⟨c, seq, ack, payload, rfl,
      ⟨-, -, srcIp, dstIpEc, fib, hfind, hfib, rfl⟩ | ⟨-, -, rfl⟩⟩
    · simp [hnet _] at hemu
    · exact ⟨_, m.choiceCount, rfl,
        .answer srcIp dstIpEc fib seq ack payload hmode hlast hfind hfib⟩
    · exact ⟨_, m.choiceCount, rfl, .again seq ack payload hmode hlast⟩

theorem execForwarding_advances (hnet : P.network.ModelOnly)
    (hmode : m.cur.fwdMode ≠ .chooseInjRes) (h : m.execForwarding P results = some m') :
    AdvancesCur P m m' := by
  unfold execForwarding at h
  split at h
  · next hm => exact firstCollect_advances hnet hm h
  · next hm =>
    obtain ⟨srcIp, h⟩ := firstForward_cases h
    exact forwardPacket_advances hnet srcIp (.inl hm) h
  · next hm => exact collectNextHops_advances hnet hm h
  · next hm => exact absurd hm hmode
  · next hm =>
    have hself : m.setCur { m.cur with srcIp := m.cur.srcIp } = m := setCur_cur
    exact forwardPacket_advances hnet m.cur.srcIp (.inr hm) (hself.symm ▸ h)
  · next hm => exact accepted_advances hnet hm h
  · next hm => exact ⟨_, m.choiceCount, (Option.some.inj h).symm, .dropped hm⟩

end Model

end Neo
