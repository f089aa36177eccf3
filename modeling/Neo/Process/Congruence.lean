import Neo.Started

/-! States that agree on what the forwarding process reads. Its steps take them to states that agree
again, unless a middlebox answers. -/

namespace Neo

theorem rel_bind {α β γ δ : Type*} {r : α → β → Prop} {q : γ → δ → Prop} {a : Option α}
    {b : Option β} {f : α → Option γ} {g : β → Option δ} (h : Option.Rel r a b)
    (hfg : ∀ x y, r x y → Option.Rel q (f x) (g y)) : Option.Rel q (a.bind f) (b.bind g) := by
  cases h with
  | none => exact .none
  | some hxy => exact hfg _ _ hxy

theorem rel_bind_same {α γ δ : Type*} {q : γ → δ → Prop} (a : Option α) {f : α → Option γ}
    {g : α → Option δ} (hfg : ∀ x, Option.Rel q (f x) (g x)) :
    Option.Rel q (a.bind f) (a.bind g) := by
  cases a with
  | none => exact .none
  | some x => exact hfg x

namespace Model

variable {P : Plankton} {m n : Model} {results : List InjectionResult}

def startPhase (P : Plankton) (m : Model) : Option Model :=
  (m.getPayloadFromModel P).bind fun payload => some (m.setCur { m.cur with
    payload := payload
    fwdMode := .firstCollect
    ingressIntf := none
    candidates := none
    injResults := none })

/-- Related states agree on what the forwarding process reads, and stay related where it writes. -/
structure Congruence (R : Model → Model → Prop) : Prop where
  cur {m n : Model} : R m n → m.cur = n.cur
  choice {m n : Model} : R m n → m.choice = n.choice
  openflowUpdateState {m n : Model} : R m n → m.openflowUpdateState = n.openflowUpdateState
  setCur {m n : Model} (c : ConnState) : R m n → R (m.setCur c) (n.setCur c)
  setChoiceCount {m n : Model} (k : Nat) : R m n → R (m.setChoiceCount k) (n.setChoiceCount k)

namespace Congruence

variable {R : Model → Model → Prop}

theorem updateFib (hR : Congruence R) (h : R m n) :
    Option.Rel R (m.updateFib P) (n.updateFib P) := by
  unfold Model.updateFib
  rw [hR.cur h, hR.openflowUpdateState h]
  apply rel_bind_same
  intro ec
  apply rel_bind_same
  intro fib
  exact .some (hR.setCur _ h)

theorem collectNextHops (hR : Congruence R) (h : R m n) :
    Option.Rel R (m.collectNextHops P results) (n.collectNextHops P results) := by
  unfold Model.collectNextHops
  rw [hR.cur h]
  split
  · unfold Model.injectPacket
    rw [hR.cur h]
    apply rel_bind_same
    intro _
    exact .some (hR.setChoiceCount _ (hR.setCur _ h))
  · apply rel_bind_same
    intro nextHops
    split
    · unfold dropCur
      rw [hR.cur h]
      exact .some (hR.setCur _ h)
    · have hcandidates : m.chooseCandidates nextHops = n.chooseCandidates nextHops := by
        unfold chooseCandidates
        rw [hR.cur h]
      rw [hcandidates]
      exact .some (hR.setChoiceCount _ (hR.setCur _ h))

theorem firstCollect (hR : Congruence R) (h : R m n) :
    Option.Rel R (m.firstCollect P results) (n.firstCollect P results) := by
  unfold Model.firstCollect
  apply rel_bind (hR.collectNextHops h)
  intro x y hxy
  rw [hR.cur hxy]
  exact .some (hR.setCur _ hxy)

theorem forwardPacket (hR : Congruence R) (h : R m n) :
    Option.Rel R (m.forwardPacket P) (n.forwardPacket P) := by
  unfold Model.forwardPacket rememberChoice
  simp only [hR.cur h, hR.choice h]
  apply rel_bind_same
  intro candidates
  apply rel_bind_same
  intro nextHop
  apply rel_bind_same
  intro pathChoices
  have hview : R (m.setCur { n.cur with pathChoices := pathChoices })
      (n.setCur { n.cur with pathChoices := pathChoices }) := hR.setCur _ h
  rw [hR.cur hview]
  split
  · unfold deliver
    rw [hR.cur hview]
    exact .some (hR.setChoiceCount _ (hR.setCur _ hview))
  · unfold moveTo
    rw [hR.cur hview]
    exact .some (hR.setChoiceCount _ (hR.setCur _ hview))

theorem firstForward (hR : Congruence R) (h : R m n) :
    Option.Rel R (m.firstForward P) (n.firstForward P) := by
  unfold Model.firstForward firstSrcIp
  rw [hR.cur h, hR.choice h]
  split
  · apply rel_bind_same
    intro srcIp
    exact hR.forwardPacket (hR.setCur _ h)
  · exact hR.forwardPacket h

theorem turnAround (hR : Congruence R) (h : R m n) :
    Option.Rel R (m.turnAround P) (n.turnAround P) := by
  unfold Model.turnAround
  rw [hR.cur h]
  apply rel_bind_same
  intro ec
  apply rel_bind_same
  intro srcIp
  apply rel_bind_same
  intro dstIpEc
  exact hR.updateFib (hR.setCur _ h)

theorem sendAgain (hR : Congruence R) (h : R m n) : R m.sendAgain n.sendAgain := by
  unfold Model.sendAgain
  rw [hR.cur h]
  exact hR.setCur _ h

theorem phaseTransition (hR : Congruence R) (h : R m n) (next : ProtoState)
    (changeDirection : Bool) : Option.Rel R (m.phaseTransition P next changeDirection)
      (n.phaseTransition P next changeDirection) := by
  have hseq : m.nextSeqAck changeDirection = n.nextSeqAck changeDirection := by
    unfold nextSeqAck
    rw [hR.cur h]
  have hrest : ∀ x y, R x y → Option.Rel R (x.startPhase P) (y.startPhase P) := by
    intro x y hxy
    have hpayload : x.getPayloadFromModel P = y.getPayloadFromModel P := by
      unfold getPayloadFromModel
      rw [hR.cur hxy]
    unfold startPhase
    rw [hpayload, hR.cur hxy]
    apply rel_bind_same
    intro payload
    exact .some (hR.setCur _ hxy)
  unfold Model.phaseTransition
  rw [hseq, hR.cur h]
  by_cases hemu : (P.network.node
      (if changeDirection then n.cur.pktLocation else n.cur.srcNode)).isEmulated
  · dsimp only
    rw [if_pos hemu, if_pos hemu]
    exact .some (hR.setCur _ h)
  · dsimp only
    rw [if_neg hemu, if_neg hemu]
    split
    · exact rel_bind (hR.turnAround (hR.setCur _ h)) hrest
    · exact rel_bind (.some (hR.sendAgain (hR.setCur _ h))) hrest

theorem accepted (hR : Congruence R) (h : R m n) :
    Option.Rel R (m.accepted P) (n.accepted P) := by
  unfold Model.accepted
  rw [hR.cur h]
  split
  case h_12 | h_13 | h_14 => exact .some (hR.setCur _ h)
  case h_15 => exact .none
  all_goals exact hR.phaseTransition h _ _

theorem execForwarding (hR : Congruence R) (h : R m n) (hmode : n.cur.fwdMode ≠ .chooseInjRes) :
    Option.Rel R (m.execForwarding P results) (n.execForwarding P results) := by
  unfold Model.execForwarding
  rw [hR.cur h]
  split
  · exact hR.firstCollect h
  · exact hR.firstForward h
  · exact hR.collectNextHops h
  · next heq => exact absurd heq hmode
  · exact hR.forwardPacket h
  · exact hR.accepted h
  · exact .some (hR.setCur _ h)

end Congruence

end Model

end Neo
