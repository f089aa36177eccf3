import Neo.Invariant.ReplyReachability
import Neo.Invariant.Reachability
import Neo.Process.Watched

/-! The invariants that watch the connection in charge: `Waypoint`, `Reachability`, and
`ReplyReachability` where every packet that opens a connection is delivered at a target node. -/

namespace Neo

namespace Unoptimized

variable {P : Plankton} {st : OpenflowUpdateState} {choice : Nat} {c c' : ConnState} {m : Model}
  {targetNodes : List NodePtr}

def waypointWatch (P : Plankton) (targetNodes : List NodePtr) (passThrough : Bool)
    (conns : List Connection) : Watch P (.waypoint targetNodes passThrough) conns where
  verdict := !passThrough
  hit c := c.fwdMode = .collectNhops ∧ c.pktLocation ∈ targetNodes
  miss _ := False
  past _ := True
  settled _ := False
  keeps _ := True
  initViolated := rfl
  check_hit h := congrArg some (if_pos h)
  check_miss _ h := h.elim
  check_quiet h _ := congrArg some (if_neg h)
  keeps_starts _ _ := trivial
  hit_starts h hhit := by
    rw [h.fwdMode] at hhit
    cases hhit.1
  past_starts _ h := h.elim
  keeps_dropped _ := trivial
  hit_dropped h := by cases h.1
  miss_dropped h := absurd trivial h
  keeps_advances _ _ _ := trivial
  past_advances _ _ _ _ _ _ h := absurd trivial h
  settled_miss _ _ h := h.elim
  settled_advances _ h := h.elim
  hit_settled h := h.elim

def Accepts (c : ConnState) : Prop :=
  (c.fwdMode = .accepted ∧ c.protoState.isRequest = true) ∨
    c.fwdMode = .firstForward ∧ c.protoState.isReqAckOrRep = true

def RxIsTarget (targetNodes : List NodePtr) (c : ConnState) : Prop :=
  (c.rxNode.any fun n => n ∈ targetNodes) = true

theorem requestIsAccepted_iff : m.requestIsAccepted = true ↔ Accepts m.cur := by
  simp [Model.requestIsAccepted, Accepts]

theorem isFirst_of_isReqAckOrRep {p : ProtoState} (h : p.isReqAckOrRep = true) :
    p.isFirst = false := by
  simp only [ProtoState.isReqAckOrRep, ProtoState.isReply, Bool.or_eq_true, beq_iff_eq] at h
  rcases h with rfl | (rfl | rfl) | rfl
  · rfl
  · rfl
  · rfl
  · rfl

/-- The node that received the first packet is none of the targets, and is not replaced. -/
def ReceivedElsewhere (targetNodes : List NodePtr) (c : ConnState) : Prop :=
  ¬ RxIsTarget targetNodes c ∧ (c.protoState.isFirst = true → c.fwdMode = .accepted)

theorem Accepts.receivedElsewhere (h : Accepts c) (hrx : ¬ RxIsTarget targetNodes c) :
    ReceivedElsewhere targetNodes c := by
  refine ⟨hrx, fun hfirst => ?_⟩
  rcases h with ⟨hmode, -⟩ | ⟨-, hack⟩
  · exact hmode
  · cases (isFirst_of_isReqAckOrRep hack).symm.trans hfirst

theorem isFirst_next (hsends : P.Sends c) (hlast : c.protoState.isLast = false) :
    (c.protoState + 1).isFirst = false :=
  (ProtoState.remaining_succ _ hsends.protoState.2 hsends.protoState.1 hlast).2.2

theorem ReceivedElsewhere.advances (hsends : P.Sends c) (hc : ReceivedElsewhere targetNodes c)
    (h : Advances P st choice c c') : ReceivedElsewhere targetNodes c' := by
  obtain ⟨hrx, hfirst⟩ := hc
  have hnot : c.fwdMode ≠ .accepted → c.protoState.isFirst = false := by
    intro hmode
    by_contra hp
    exact hmode (hfirst (by simpa using hp))
  cases h with
  | collect _ _ _ hmode =>
    refine ⟨hrx, fun hp => ?_⟩
    have hp' := hnot (by rcases hmode with ⟨hmode, -⟩ | ⟨hmode, -⟩ <;> simp [hmode])
    cases hp'.symm.trans hp
  | starve _ hmode =>
    refine ⟨hrx, fun hp => ?_⟩
    have hp' := hnot (by rcases hmode with ⟨hmode, -⟩ | ⟨hmode, -⟩ <;> simp [hmode])
    cases hp'.symm.trans hp
  | deliver _ _ _ _ hmode =>
    have hp' := hnot (by rcases hmode with hmode | hmode <;> simp [hmode])
    refine ⟨?_, fun _ => rfl⟩
    unfold RxIsTarget
    rw [hp', if_neg Bool.false_ne_true]
    exact hrx
  | move _ _ _ _ hmode =>
    refine ⟨hrx, fun hp => ?_⟩
    have hp' := hnot (by rcases hmode with hmode | hmode <;> simp [hmode])
    cases hp'.symm.trans hp
  | last | dropped => exact ⟨hrx, hfirst⟩
  | answer _ _ _ _ _ _ _ hlast =>
    exact ⟨hrx, fun hp => by cases (isFirst_next hsends hlast).symm.trans hp⟩
  | again _ _ _ _ hlast =>
    exact ⟨hrx, fun hp => by cases (isFirst_next hsends hlast).symm.trans hp⟩

section Reachability

open Reachability (UpToRequest PendingConn)

theorem pendingConn_of_sends (hsends : P.Sends c) (hexec : c.executable = 2)
    (hp : UpToRequest c.protoState)
    (haccepted : ¬ (c.fwdMode = .accepted ∧ c.protoState.isRequest = true)) : PendingConn c where
  phase := hp
  chooseInjRes := hsends.fwdMode.1
  dropped := hsends.fwdMode.2
  accepted := fun hmode => by simpa [hmode] using haccepted
  executable := by
    rw [hexec]
    decide

theorem PendingConn.isFinished (hc : PendingConn c) : c.isFinished = false := by
  by_contra hfinished
  simp only [ConnState.isFinished, Bool.not_eq_false, Bool.and_eq_true, Bool.or_eq_true,
    beq_iff_eq] at hfinished
  rcases hfinished.2 with hdropped | ⟨hmode, hlast⟩
  · exact hc.dropped hdropped
  · cases (hc.isLast hmode).symm.trans hlast

theorem checkReachability_miss {reachable : Bool} (hhit : ¬ (Accepts m.cur ∧
      RxIsTarget targetNodes m.cur)) (hmiss : Accepts m.cur ∨ m.cur.fwdMode = .dropped)
    (hothers : m.otherExecutableConnsExist = false) :
    m.checkReachability targetNodes reachable = m.stop (reachable != false) := by
  unfold Model.checkReachability
  rw [if_neg, if_pos]
  · rw [hothers, ← requestIsAccepted_iff] at *
    simpa using hmiss
  · rw [Bool.and_eq_true, requestIsAccepted_iff]
    exact hhit

theorem checkReachability_quiet {reachable : Bool} (hhit : ¬ (Accepts m.cur ∧
      RxIsTarget targetNodes m.cur))
    (hmiss : Accepts m.cur ∨ m.cur.fwdMode = .dropped → m.otherExecutableConnsExist = true) :
    m.checkReachability targetNodes reachable = m := by
  unfold Model.checkReachability
  rw [if_neg, if_neg]
  · rw [← requestIsAccepted_iff] at hmiss
    intro h
    simp only [Bool.and_eq_true, Bool.or_eq_true, beq_iff_eq, Bool.not_eq_true'] at h
    cases (hmiss h.1).symm.trans h.2
  · rw [Bool.and_eq_true, requestIsAccepted_iff]
    exact hhit

def reachabilityWatch (P : Plankton) (targetNodes : List NodePtr) (reachable : Bool)
    (conns : List Connection) : Watch P (.reachability targetNodes reachable) conns where
  verdict := reachable != true
  hit c := Accepts c ∧ RxIsTarget targetNodes c
  miss c := Accepts c ∨ c.fwdMode = .dropped
  past c := ¬ UpToRequest c.protoState ∨ c.fwdMode = .accepted ∧ c.protoState.isRequest = true
  settled c := ReceivedElsewhere targetNodes c
  keeps _ := True
  initViolated := rfl
  check_hit {m} h := by
    refine congrArg some (if_pos ?_)
    rw [Bool.and_eq_true, requestIsAccepted_iff]
    exact h
  check_miss hhit hmiss hothers := by
    refine (congrArg some (checkReachability_miss hhit hmiss hothers)).trans ?_
    cases reachable <;> rfl
  check_quiet hhit hmiss := congrArg some (checkReachability_quiet hhit hmiss)
  keeps_starts _ _ := trivial
  hit_starts h hhit := by
    rcases hhit.1 with ⟨hmode, -⟩ | ⟨hmode, -⟩
    · cases h.fwdMode.symm.trans hmode
    · cases h.fwdMode.symm.trans hmode
  past_starts {d _ c c'} h _ := by
    rintro (hp | ⟨hmode, -⟩)
    · apply hp
      rw [h.protoState, Connection.firstProtoState]
      cases d.protocol
      · exact .inl rfl
      · exact .inr (.inr (.inr rfl))
      · exact .inr (.inr (.inr rfl))
    · cases h.fwdMode.symm.trans hmode
  keeps_dropped _ := trivial
  hit_dropped h := by rcases h.1 with ⟨hmode, -⟩ | ⟨hmode, -⟩ <;> cases hmode
  miss_dropped _ _ := .inr rfl
  keeps_advances _ _ _ := trivial
  past_advances {st choice c c'} hsends hexec _ h _ hmiss hpast := by
    -- a request under way is delivered, dropped or still under way
    rw [not_or, not_not] at hpast
    have hc := pendingConn_of_sends hsends hexec hpast.1 hpast.2
    rcases hc.advances h with ⟨-, hmode, hrequest, -⟩ | ⟨hdropped, -⟩ | hc'
    · exact absurd (.inl (.inl ⟨hmode, hrequest⟩)) hmiss
    · exact absurd (.inr hdropped) hmiss
    · refine ⟨?_, PendingConn.isFinished hc'⟩
      rintro (hp | ⟨hmode, hrequest⟩)
      · exact hp hc'.phase
      · cases (hc'.accepted hmode).symm.trans hrequest
  settled_miss hsends _ hmiss hhit := by
    rcases hmiss with haccepts | hdropped
    · exact haccepts.receivedElsewhere fun hrx => hhit ⟨haccepts, hrx⟩
    · exact absurd hdropped hsends.fwdMode.2
  settled_advances hsends hc h := hc.advances hsends h
  hit_settled hc hhit := hc.1 hhit.2

end Reachability

section ReplyReachability

open ReplyReachability (upToReply beforeReply_of_isReply upToReply_succ)

/-- Wherever a packet that opens one of the connections is delivered, there is a target node. -/
def OpensAtTargets (P : Plankton) (targetNodes : List NodePtr) (conns : List Connection) : Prop :=
  ∀ d ∈ conns, ∀ n ∈ P.network.nodes, ∀ h ∈ P.nextHops d.dstIpEc n, h.l3Node = n →
    n ∈ targetNodes

theorem beforeReply_iff : m.beforeReply = true ↔
    upToReply m.cur.protoState = true ∧ m.cur.protoState.isReply = false := by
  unfold Model.beforeReply
  generalize m.cur.protoState = p
  have hall : ∀ p < 15, (p.isTcp && decide (p < psTcpL7Rep) || p.isUdp && decide (p < psUdpRep) ||
      p.isIcmpEcho && decide (p < psIcmpEchoRep)) = (upToReply p && !p.isReply) := by
    decide
  by_cases hlt : p < 15
  · rw [hall p hlt]
    simp
  · have hge : 15 ≤ p := not_lt.mp hlt
    have hbefore : (p.isTcp && decide (p < psTcpL7Rep) || p.isUdp && decide (p < psUdpRep) ||
        p.isIcmpEcho && decide (p < psIcmpEchoRep)) = false := by
      have h₁ : ¬ p < psTcpL7Rep := not_lt.mpr (le_trans (by decide) hge)
      have h₂ : ¬ p < psUdpRep := not_lt.mpr (le_trans (by decide) hge)
      have h₃ : ¬ p < psIcmpEchoRep := not_lt.mpr (le_trans (by decide) hge)
      simp [h₁, h₂, h₃]
    rw [hbefore]
    refine iff_of_false Bool.false_ne_true fun h => ?_
    exact hlt (ReplyReachability.lt_of_upToReply h.1)

theorem upToReply_of_isReply {p : ProtoState} (h : p.isReply = true) : upToReply p = true := by
  simp only [ProtoState.isReply, Bool.or_eq_true, beq_iff_eq] at h
  rcases h with (rfl | rfl) | rfl <;> decide

theorem upToReply_stays {p : ProtoState} (hlt : p < 15) (hpos : 1 ≤ p) (hlast : p.isLast = false)
    (h : p.isReply = true ∨ upToReply p = false) : upToReply (p + 1) = false := by
  have hall : ∀ p < 15, 1 ≤ p → p.isLast = false → p.isReply = true ∨ upToReply p = false →
      upToReply (p + 1) = false := by
    decide
  exact hall p hlt hpos hlast h

def RepliedTo (c : ConnState) : Prop :=
  c.protoState.isReply = true ∧ c.fwdMode = .accepted ∧ c.pktLocation = c.txNode

def FailsToReply (targetNodes : List NodePtr) (c : ConnState) : Prop :=
  (upToReply c.protoState = true ∧ c.fwdMode = .dropped) ∨
    (c.protoState.isReply = true ∧ c.fwdMode = .accepted) ∨
    upToReply c.protoState = true ∧ c.protoState.isReply = false ∧ Accepts c ∧
      ¬ RxIsTarget targetNodes c

theorem checkReplyReachability_hit {reachable : Bool} (h : RepliedTo m.cur) :
    m.checkReplyReachability targetNodes reachable = m.stop (reachable != true) := by
  obtain ⟨hreply, hmode, hloc⟩ := h
  unfold Model.checkReplyReachability
  rw [beforeReply_of_isReply hreply, if_neg Bool.false_ne_true, if_pos hreply, if_pos]
  simp [hmode, hloc]

theorem checkReplyReachability_miss {reachable : Bool} (hhit : ¬ RepliedTo m.cur)
    (hmiss : FailsToReply targetNodes m.cur) (hothers : m.otherExecutableConnsExist = false) :
    m.checkReplyReachability targetNodes reachable = m.stop reachable := by
  have hstop : m.stop (reachable != false) = m.stop reachable := by cases reachable <;> rfl
  unfold Model.checkReplyReachability
  rw [hothers, hstop]
  -- before the reply, and from it on
  by_cases hreply : m.cur.protoState.isReply = true
  · rw [beforeReply_of_isReply hreply, if_neg Bool.false_ne_true, if_pos hreply, if_neg, if_pos]
    · rcases hmiss with ⟨-, hmode⟩ | ⟨-, hmode⟩ | ⟨-, hnot, -⟩
      · simp [hmode]
      · have hloc : m.cur.pktLocation ≠ m.cur.txNode := fun h => hhit ⟨hreply, hmode, h⟩
        simp [hmode, hloc]
      · cases hnot.symm.trans hreply
    · simp only [Bool.and_eq_true, beq_iff_eq]
      exact fun h => hhit ⟨hreply, h⟩
  · have hnot : m.cur.protoState.isReply = false := by simpa using hreply
    have hbefore : upToReply m.cur.protoState = true := by
      rcases hmiss with ⟨hup, -⟩ | ⟨hreply', -⟩ | ⟨hup, -⟩
      · exact hup
      · exact absurd hreply' hreply
      · exact hup
    rw [if_pos (beforeReply_iff.mpr ⟨hbefore, hnot⟩), if_pos]
    rcases hmiss with ⟨-, hmode⟩ | ⟨hreply', -⟩ | ⟨-, -, haccepts, hrx⟩
    · simp [hmode]
    · exact absurd hreply' hreply
    · have hrx' : m.rxIsTarget targetNodes = false := Bool.eq_false_iff.mpr hrx
      rw [requestIsAccepted_iff.mpr haccepts, hrx']
      rfl

theorem checkReplyReachability_quiet {reachable : Bool} (hhit : ¬ RepliedTo m.cur)
    (hmiss : FailsToReply targetNodes m.cur → m.otherExecutableConnsExist = true) :
    m.checkReplyReachability targetNodes reachable = m := by
  unfold Model.checkReplyReachability
  by_cases hreply : m.cur.protoState.isReply = true
  · rw [beforeReply_of_isReply hreply, if_neg Bool.false_ne_true, if_pos hreply, if_neg, if_neg]
    · intro h
      simp only [Bool.and_eq_true, Bool.or_eq_true, beq_iff_eq, Bool.not_eq_true'] at h
      have hothers := hmiss (by
        rcases h.1 with ⟨hmode, -⟩ | hmode
        · exact .inr (.inl ⟨hreply, hmode⟩)
        · exact .inl ⟨upToReply_of_isReply hreply, hmode⟩)
      cases hothers.symm.trans h.2
    · simp only [Bool.and_eq_true, beq_iff_eq]
      exact fun h => hhit ⟨hreply, h⟩
  · have hnot : m.cur.protoState.isReply = false := by simpa using hreply
    rw [if_neg hreply]
    by_cases hbefore : m.beforeReply = true
    · rw [if_pos hbefore, if_neg]
      intro h
      simp only [Bool.and_eq_true, Bool.or_eq_true, beq_iff_eq, Bool.not_eq_true'] at h
      have hup := (beforeReply_iff.mp hbefore).1
      have hothers := hmiss (by
        rcases h.1 with ⟨haccepts, hrx⟩ | hmode
        · refine .inr (.inr ⟨hup, hnot, requestIsAccepted_iff.mp haccepts, ?_⟩)
          unfold RxIsTarget
          exact Bool.eq_false_iff.mp hrx
        · exact .inl ⟨hup, hmode⟩)
      cases hothers.symm.trans h.2
    · rw [if_neg hbefore]

/-- The class of a packet that opens a connection is that of the connection, and from where it was
received on the receiver is a target node. -/
structure OpenedAtTarget (targetNodes : List NodePtr) (conns : List Connection) (c : ConnState) :
    Prop where
  dstIpEc : c.protoState.isFirst = true → ∃ d ∈ conns, c.dstIpEc = some d.dstIpEc
  received : c.fwdMode ≠ .dropped → c.protoState.isFirst = false ∨ c.fwdMode = .accepted →
    RxIsTarget targetNodes c

variable {conns : List Connection}

theorem OpenedAtTarget.rx_of_accepts (hc : OpenedAtTarget targetNodes conns c) (h : Accepts c) :
    RxIsTarget targetNodes c := by
  rcases h with ⟨hmode, -⟩ | ⟨hmode, hack⟩
  · exact hc.received (by simp [hmode]) (.inr hmode)
  · exact hc.received (by simp [hmode]) (.inl (isFirst_of_isReqAckOrRep hack))

theorem OpenedAtTarget.advances (hK : OpensAtTargets P targetNodes conns) (hsends : P.Sends c)
    (hc : OpenedAtTarget targetNodes conns c) (h : Advances P st choice c c') :
    OpenedAtTarget targetNodes conns c' := by
  have hmode := hsends.fwdMode.2
  cases h with
  | collect _ _ mode hmodes =>
    refine ⟨hc.dstIpEc, fun _ hreceived => hc.received hmode (hreceived.imp_right fun h => ?_)⟩
    rcases hmodes with ⟨-, rfl⟩ | ⟨-, rfl⟩ <;> cases h
  | starve mode hmodes =>
    refine ⟨hc.dstIpEc, fun _ hreceived => hc.received hmode (hreceived.imp_right fun h => ?_)⟩
    rcases hmodes with ⟨-, rfl⟩ | ⟨-, rfl⟩ <;> cases h
  | deliver candidates nextHop _ _ habout hstored hnext hl3 =>
    refine ⟨hc.dstIpEc, fun _ _ => ?_⟩
    unfold RxIsTarget
    dsimp only
    cases hfirst : c.protoState.isFirst with
    | true =>
      -- an opening packet is delivered where one of the next hops ends
      obtain ⟨d, hd, hdst⟩ := hc.dstIpEc hfirst
      obtain ⟨candidates', hc'⟩ := hsends.ready habout
      obtain rfl := Option.some.inj (hc'.stored.symm.trans hstored)
      have hmem := hc'.mem _ hdst nextHop (List.mem_of_getElem? hnext)
      have htarget := hK d hd _ hsends.pktLocation nextHop hmem hl3
      simpa using htarget
    | false => exact hc.received hmode (.inl hfirst)
  | move =>
    refine ⟨hc.dstIpEc, fun _ hreceived => hc.received hmode (hreceived.imp_right fun h => ?_)⟩
    cases h
  | last hacc => exact ⟨hc.dstIpEc, fun _ _ => hc.received hmode (.inr hacc)⟩
  | answer _ _ _ _ _ _ hacc hlast =>
    refine ⟨fun hfirst => ?_, fun _ _ => hc.received hmode (.inr hacc)⟩
    cases (isFirst_next hsends hlast).symm.trans hfirst
  | again _ _ _ hacc hlast =>
    refine ⟨fun hfirst => ?_, fun _ _ => hc.received hmode (.inr hacc)⟩
    cases (isFirst_next hsends hlast).symm.trans hfirst
  | dropped hdropped => exact absurd hdropped hmode

def RepliedElsewhere (c : ConnState) : Prop :=
  (c.protoState.isReply = true ∧ c.fwdMode = .accepted ∧ c.pktLocation ≠ c.txNode) ∨
    upToReply c.protoState = false

theorem RepliedElsewhere.advances (hsends : P.Sends c) (hc : RepliedElsewhere c)
    (h : Advances P st choice c c') : RepliedElsewhere c' := by
  obtain ⟨hpos, hlt⟩ := hsends.protoState
  have hnot : c.fwdMode ≠ .accepted → upToReply c.protoState = false := by
    intro hmode
    exact hc.resolve_left fun h => hmode h.2.1
  cases h with
  | collect _ _ _ hmode =>
    exact .inr (hnot (by rcases hmode with ⟨hmode, -⟩ | ⟨hmode, -⟩ <;> simp [hmode]))
  | starve _ hmode =>
    exact .inr (hnot (by rcases hmode with ⟨hmode, -⟩ | ⟨hmode, -⟩ <;> simp [hmode]))
  | deliver _ _ _ _ hmode | move _ _ _ _ hmode =>
    exact .inr (hnot (by rcases hmode with hmode | hmode <;> simp [hmode]))
  | last | dropped => exact hc
  | answer _ _ _ _ _ _ _ hlast =>
    exact .inr (upToReply_stays hlt hpos hlast (hc.imp_left And.left))
  | again _ _ _ _ hlast =>
    exact .inr (upToReply_stays hlt hpos hlast (hc.imp_left And.left))

theorem advances_upToReply (hexec : c.executable = 2) (hup : upToReply c.protoState = true)
    (hreplied : ¬ (c.protoState.isReply = true ∧ c.fwdMode = .accepted))
    (h : Advances P st choice c c') (hmiss : ¬ FailsToReply targetNodes c') :
    upToReply c'.protoState = true ∧
      ¬ (c'.protoState.isReply = true ∧ c'.fwdMode = .accepted) ∧ c'.isFinished = false := by
  have hnext : c.fwdMode = .accepted → upToReply (c.protoState + 1) = true := by
    intro hmode
    apply upToReply_succ hup
    simpa [hmode] using hreplied
  cases h with
  | collect _ _ mode hmodes =>
    refine ⟨hup, ?_, by simp [ConnState.isFinished, hexec]⟩
    rcases hmodes with ⟨-, rfl⟩ | ⟨-, rfl⟩ <;> simp
  | starve mode hmodes =>
    rcases hmodes with ⟨-, rfl⟩ | ⟨-, rfl⟩
    · exact ⟨hup, by simp, by simp [ConnState.isFinished]⟩
    · exact absurd (.inl ⟨hup, rfl⟩) hmiss
  | deliver =>
    refine ⟨hup, ?_, by simp [ConnState.isFinished, hexec]⟩
    exact fun h => hmiss (.inr (.inl h))
  | move => exact ⟨hup, by simp, by simp [ConnState.isFinished, hexec]⟩
  | last hmode hlast =>
    have hreply : c.protoState.isReply = true := by
      have hall : ∀ p < 15, upToReply p = true → p.isLast = true → p.isReply = true := by
        decide
      exact hall _ (ReplyReachability.lt_of_upToReply hup) hup hlast
    exact absurd ⟨hreply, hmode⟩ hreplied
  | answer _ _ _ _ _ _ hmode =>
    exact ⟨hnext hmode, by simp, by simp [ConnState.isFinished, hexec]⟩
  | again _ _ _ hmode => exact ⟨hnext hmode, by simp, by simp [ConnState.isFinished, hexec]⟩
  | dropped hmode => exact absurd (.inl ⟨hup, hmode⟩) hmiss

theorem firstProtoState_upToReply (d : Connection) : upToReply d.firstProtoState = true ∧
    d.firstProtoState.isFirst = true := by
  unfold Connection.firstProtoState
  cases d.protocol
  · decide
  · decide
  · decide

def replyReachabilityWatch (targetNodes : List NodePtr) (reachable : Bool)
    (conns : List Connection) (hK : OpensAtTargets P targetNodes conns) :
    Watch P (.replyReachability targetNodes reachable) conns where
  verdict := reachable != true
  hit := RepliedTo
  miss := FailsToReply targetNodes
  past c := ¬ (upToReply c.protoState = true ∧
    ¬ (c.protoState.isReply = true ∧ c.fwdMode = .accepted))
  settled := RepliedElsewhere
  keeps := OpenedAtTarget targetNodes conns
  initViolated := rfl
  check_hit h := congrArg some (checkReplyReachability_hit h)
  check_miss hhit hmiss hothers := by
    refine (congrArg some (checkReplyReachability_miss hhit hmiss hothers)).trans ?_
    cases reachable <;> rfl
  check_quiet hhit hmiss := congrArg some (checkReplyReachability_quiet hhit hmiss)
  keeps_starts {d _ _} hd h := by
    have hfirst : d.firstProtoState.isFirst = true := (firstProtoState_upToReply d).2
    refine ⟨fun _ => ⟨d, hd, h.dstIpEc⟩, fun _ hreceived => ?_⟩
    rcases hreceived with hnot | hmode
    · rw [h.protoState] at hnot
      cases hnot.symm.trans hfirst
    · cases h.fwdMode.symm.trans hmode
  hit_starts h hhit := by cases h.fwdMode.symm.trans hhit.2.1
  past_starts {d _ _ _} h _ hpast := by
    apply hpast
    rw [h.protoState, h.fwdMode]
    exact ⟨(firstProtoState_upToReply d).1, by simp⟩
  keeps_dropped hc := ⟨hc.dstIpEc, fun h => absurd rfl h⟩
  hit_dropped h := by cases h.2.1
  miss_dropped hpast _ := .inl ⟨(not_not.mp hpast).1, rfl⟩
  keeps_advances hsends hc h := hc.advances hK hsends h
  past_advances _ hexec _ h _ hmiss hpast := by
    obtain ⟨hup, hreplied⟩ := not_not.mp hpast
    obtain ⟨hup', hreplied', hfinished⟩ := advances_upToReply hexec hup hreplied h hmiss
    exact ⟨not_not.mpr ⟨hup', hreplied'⟩, hfinished⟩
  settled_miss hsends hc hmiss hhit := by
    -- every request is received at a target node, so only a misdelivered reply can miss
    rcases hmiss with ⟨-, hdropped⟩ | ⟨hreply, hmode⟩ | ⟨-, -, haccepts, hrx⟩
    · exact absurd hdropped hsends.fwdMode.2
    · exact .inl ⟨hreply, hmode, fun hloc => hhit ⟨hreply, hmode, hloc⟩⟩
    · exact absurd (hc.rx_of_accepts haccepts) hrx
  settled_advances hsends hc h := hc.advances hsends h
  hit_settled hc hhit := by
    rcases hc with ⟨-, -, hloc⟩ | hup
    · exact hloc hhit.2.2
    · cases (upToReply_of_isReply hhit.1).symm.trans hup

end ReplyReachability

end Unoptimized

end Neo
