import Neo.Process.Reply
import Neo.Invariant.Reachability
import Neo.Invariant.ReplyReachability

/-! The verdicts on one datagram, or echo request, against the routes of the nodes. Whatever the
choices are, a violation is found where the data plane of the destination has one, and nowhere
else. -/

namespace Neo

namespace Plankton

variable {P : Plankton} {policy : Policy} {conn : Connection} {conns : List Connection}
  {m m' m₁ s t : Model} {l : Label} {tr : List (Link Model Label)} {ec : EcPtr} {src n : NodePtr}
  {c : ConnState}

theorem step_iff_turn : P.step (.single ⟨policy, conns⟩) m l = some m' ↔
    ∃ m₁, P.turn m l = some m₁ ∧ m₁.checkPolicy policy = some m' := by
  constructor
  · intro h
    obtain ⟨hlt, m₁, hcontrol, hcheck⟩ := step_single h
    refine ⟨m₁, ?_, hcheck⟩
    rw [turn, if_pos hlt, hcontrol]
  · rintro ⟨m₁, hturn, hcheck⟩
    unfold turn at hturn
    split_ifs at hturn with hlt
    unfold step execStep
    rw [if_pos hlt, hturn, Option.bind_eq_bind, Option.bind_some]
    show ((m₁.checkPolicy policy).bind fun m => some (m, false)).bind _ = _
    rw [hcheck]
    rfl

theorem turn_violated (h : P.turn m l = some m') : m'.violated = m.violated := by
  unfold turn at h
  split_ifs at h
  have hsame := control_violated h
  exact hsame

def Quiet (policy : Policy) (p : ProtoState) : Prop :=
  ∀ m : Model, m.cur.protoState = p → m.cur.InFlight → m.checkPolicy policy = some m

theorem run_of_turns (hquiet : ∀ l ∈ tr, l.after.checkPolicy policy = some l.after)
    (h : Run P.turn s tr t) : Run (P.step (.single ⟨policy, conns⟩)) s tr t :=
  h.of_steps fun l hl hturn => step_iff_turn.mpr ⟨_, hturn, hquiet l hl⟩

theorem run_flying (hnet : P.network.ModelOnly) (hof : P.openflow.updates = [])
    (hquiet : Quiet policy c.protoState)
    (h : Run (P.step (.single ⟨policy, conns⟩)) s tr t) (hs : Model.Flying P ec src c s) :
    (Model.Flying P ec src c t ∧ t.violated = s.violated) ∨
      ∃ (m₁ m' : Model) (rest : List (Link Model Label)),
        ((∃ n, Model.Landed P ec src c n m₁) ∨ Model.LostAt P ec src c m₁) ∧
        m₁.violated = s.violated ∧ m₁.checkPolicy policy = some m' ∧
        Run (P.step (.single ⟨policy, conns⟩)) m' rest t := by
  induction h with
  | nil s => exact .inl ⟨hs, rfl⟩
  | @cons s s' t l tr hstep hrest ih =>
    obtain ⟨m₁, hturn, hcheck⟩ := step_iff_turn.mp hstep
    have hviolated := turn_violated hturn
    rcases hs.turn hnet hof hturn with ⟨hflying, hflight⟩ | hend
    · rw [hquiet m₁ hflying.phase.protoState hflight] at hcheck
      obtain rfl := Option.some.inj hcheck
      rcases ih hflying with ⟨ht, hsame⟩ | ⟨m₂, m', rest, hend, hsame, hrest⟩
      · exact .inl ⟨ht, hsame.trans hviolated⟩
      · exact .inr ⟨m₂, m', rest, hend, hsame.trans hviolated, hrest⟩
    · exact .inr ⟨m₁, s', tr, hend, hviolated, hcheck, hrest⟩

theorem eq_of_stop {v : Bool} (h : Run (P.step (.single ⟨policy, conns⟩)) (m.stop v) tr t) :
    t = m.stop v := by
  cases h with
  | nil => rfl
  | cons hstep _ => exact absurd (step_eq_some hstep).1 (Nat.not_lt_zero _)

theorem firstProtoState_cases (hudp : conn.protocol ≠ .tcp) :
    conn.firstProtoState = psUdpReq ∨ conn.firstProtoState = psIcmpEchoReq := by
  unfold Connection.firstProtoState
  cases hproto : conn.protocol with
  | tcp => exact absurd hproto hudp
  | udp => exact .inl rfl
  | icmpEcho => exact .inr rfl

end Plankton

namespace Model

variable {P : Plankton} {m : Model} {ec : EcPtr} {n : NodePtr} {targetNodes : List NodePtr}
  {reachable : Bool}

theorem otherExecutableConnsExist_of_lone (hconn : m.conn = 0) (hnum : m.numConns = 1) :
    m.otherExecutableConnsExist = false := by
  apply otherExecutableConnsExist_eq_false
  intro i hi hne
  omega

theorem requestIsAccepted_of_inFlight
    (hreq : m.cur.protoState = psUdpReq ∨ m.cur.protoState = psIcmpEchoReq)
    (hflight : m.cur.InFlight) : m.requestIsAccepted = false := by
  unfold requestIsAccepted
  rcases hreq with hreq | hreq <;> rcases hflight with hmode | hmode | hmode <;>
    rw [hreq, hmode] <;> rfl

theorem ne_dropped_of_inFlight (hflight : m.cur.InFlight) :
    (m.cur.fwdMode == .dropped) = false := by
  rcases hflight with hmode | hmode | hmode <;> rw [hmode] <;> rfl

theorem DeliveredAt.requestIsAccepted (hm : DeliveredAt P ec n m)
    (hreq : m.cur.protoState = psUdpReq ∨ m.cur.protoState = psIcmpEchoReq) :
    m.requestIsAccepted = true := by
  unfold Model.requestIsAccepted
  rw [hm.mode]
  rcases hreq with hreq | hreq <;> rw [hreq] <;> rfl

end Model

namespace Reachability

variable {P : Plankton} {m : Model} {ec : EcPtr} {n : NodePtr} {targetNodes : List NodePtr}
  {reachable : Bool} {conn : Connection} {a : IPv4Address}

theorem quiet {p : ProtoState} (hreq : p = psUdpReq ∨ p = psIcmpEchoReq) :
    Plankton.Quiet (.reachability targetNodes reachable) p := by
  intro m hp hflight
  show some (m.checkReachability targetNodes reachable) = some m
  unfold Model.checkReachability
  rw [Model.requestIsAccepted_of_inFlight (hp ▸ hreq) hflight,
    Model.ne_dropped_of_inFlight hflight]
  rfl

theorem check_delivered (hm : Model.DeliveredAt P ec n m)
    (hreq : m.cur.protoState = psUdpReq ∨ m.cur.protoState = psIcmpEchoReq)
    (hrx : m.cur.rxNode = some n) :
    m.checkReachability targetNodes reachable = m.stop (reachable != decide (n ∈ targetNodes)) := by
  have htarget : m.rxIsTarget targetNodes = decide (n ∈ targetNodes) := by
    rw [Model.rxIsTarget, hrx]
    rfl
  unfold Model.checkReachability
  rw [hm.requestIsAccepted hreq, htarget,
    Model.otherExecutableConnsExist_of_lone hm.conn hm.numConns]
  by_cases hn : n ∈ targetNodes <;> simp [hn]

theorem check_lost (hm : Model.Lost m) :
    m.checkReachability targetNodes reachable = m.stop reachable := by
  have hnot : m.requestIsAccepted = false := by
    unfold Model.requestIsAccepted
    rw [hm.mode]
    rfl
  unfold Model.checkReachability
  rw [hnot, hm.mode, Model.otherExecutableConnsExist_of_lone hm.conn hm.numConns]
  simp

/-- What the data plane of an address can do to the packets of a source, as a verdict. -/
def CanEnd (net : Network) (a : IPv4Address) (src : NodePtr) (targetNodes : List NodePtr)
    (reachable violated : Bool) : Prop :=
  ∃ n, net.Reaches a src n ∧ (net.Discards a n ∧ violated = reachable ∨
    net.Accepts a n ∧ violated = (reachable != decide (n ∈ targetNodes)))

theorem canEnd_true_iff {net : Network} {src : NodePtr} :
    CanEnd net a src targetNodes reachable true ↔ ∃ n, net.Reaches a src n ∧ if reachable then
      net.Discards a n ∨ net.Accepts a n ∧ n ∉ targetNodes
    else net.Accepts a n ∧ n ∈ targetNodes := by
  refine exists_congr fun n => and_congr_right fun _ => ?_
  cases reachable <;> simp

theorem canEnd_of_ends {s m : Model} {violated : Bool} (hconn : P.Sendable conn)
    (hudp : conn.protocol ≠ .tcp) (ha : P.ecs.findEc a = some conn.dstIpEc)
    (hbegins : P.Begins conn violated s)
    (hend : (∃ n, Model.Landed P conn.dstIpEc conn.srcNode s.cur n m) ∨
      Model.LostAt P conn.dstIpEc conn.srcNode s.cur m) :
    ∃ v, CanEnd P.network a conn.srcNode targetNodes reachable v ∧
      m.checkReachability targetNodes reachable = m.stop v := by
  have hreq := hbegins.protoState ▸ Plankton.firstProtoState_cases hudp
  have hfirst : s.cur.protoState.isFirst = true := by
    rcases hreq with hreq | hreq <;> rw [hreq] <;> rfl
  rcases hend with ⟨n, hlanded⟩ | hlost
  · have hrx : m.cur.rxNode = some n := by
      rw [hlanded.rxNode, if_pos hfirst]
    obtain ⟨hway, haccepts⟩ := hlanded.received.reaches hconn.srcNode
    refine ⟨_, ⟨n, (Plankton.reaches_iff ha hconn.srcNode).mpr hway, .inr ⟨?_, rfl⟩⟩,
      check_delivered hlanded.toDeliveredAt (hlanded.phase.protoState ▸ hreq) hrx⟩
    exact (Plankton.accepts_iff ha hlanded.mem).mpr haccepts
  · refine ⟨_, ⟨m.cur.pktLocation, (Plankton.reaches_iff ha hconn.srcNode).mpr hlost.way,
      .inl ⟨?_, rfl⟩⟩, check_lost hlost.toLost⟩
    exact (Plankton.nextHops_eq_nil ha hlost.mem).mp hlost.starved

theorem exists_turns {s : Model} {violated v : Bool} (hnet : P.network.ModelOnly)
    (hlinked : P.network.Linked) (hof : P.openflow.updates = []) (hconn : P.Sendable conn)
    (hudp : conn.protocol ≠ .tcp) (ha : P.ecs.findEc a = some conn.dstIpEc)
    (hbegins : P.Begins conn violated s)
    (hend : CanEnd P.network a conn.srcNode targetNodes reachable v) :
    ∃ tr l, Run P.turn s (tr ++ [l]) l.after ∧
      (∀ k ∈ tr, k.after.cur.InFlight ∧ ConnState.SamePhase conn.dstIpEc s.cur k.after.cur) ∧
      l.after.checkReachability targetNodes reachable = l.after.stop v := by
  obtain ⟨n, hreaches, hn⟩ := hend
  have hreq := hbegins.protoState ▸ Plankton.firstProtoState_cases hudp
  have hfirst : s.cur.protoState.isFirst = true := by
    rcases hreq with hreq | hreq <;> rw [hreq] <;> rfl
  have hway := (Plankton.reaches_iff ha hconn.srcNode).mp hreaches
  have hmem : n ∈ P.network.nodes := by
    apply Plankton.mem_of_passesTo (Q := fun _ => True) ha hconn.srcNode
    simpa using hway
  have hleaves : ∀ h ∈ P.nextHops conn.dstIpEc conn.srcNode,
      ∃ x, P.LeavesAs s.cur conn.srcNode h x :=
    fun h hh => hbegins.leaves hnet hlinked hconn hh
  rcases hn with ⟨hdiscards, rfl⟩ | ⟨haccepts, rfl⟩
  · have hnil := (Plankton.nextHops_eq_nil ha hmem).mpr hdiscards
    obtain ⟨tr, l, hrun, hall, hlost, -⟩ :=
      hbegins.arrived.sendLost hbegins.fwdMode hnet hof hleaves hway hnil
    exact ⟨tr, l, hrun, hall, check_lost hlost⟩
  · obtain ⟨x, hreceives⟩ := Plankton.exists_receivesAs hleaves hway
      ((Plankton.accepts_iff ha hmem).mp haccepts)
    obtain ⟨tr, l, hrun, hall, hdel, hphase, -, hrx⟩ :=
      hbegins.arrived.send hbegins.fwdMode hnet hof hreceives
    rw [if_pos hfirst] at hrx
    exact ⟨tr, l, hrun, hall, check_delivered hdel (hphase.protoState ▸ hreq) hrx⟩

theorem complete {s : Model} {tr : List (Link Model Label)} {l : Link Model Label} {v : Bool}
    (hreq : s.cur.protoState = psUdpReq ∨ s.cur.protoState = psIcmpEchoReq)
    (h : Run P.turn s (tr ++ [l]) l.after)
    (hall : ∀ k ∈ tr, k.after.cur.InFlight ∧ ConnState.SamePhase ec s.cur k.after.cur)
    (hcheck : l.after.checkReachability targetNodes reachable = l.after.stop v) :
    ∃ t tr', Run (P.step (invariants targetNodes reachable conn)) s tr' t ∧ t.choiceCount = 0 ∧
      t.violated = v := by
  obtain ⟨hbefore, hturn, -⟩ := h.around
  have hrun : Run (P.step (invariants targetNodes reachable conn)) s tr l.before := by
    apply Plankton.run_of_turns _ hbefore
    intro k hk
    exact quiet hreq _ (hall k hk).2.protoState (hall k hk).1
  have hlast : P.step (invariants targetNodes reachable conn) l.before l.act =
      some (l.after.stop v) :=
    Plankton.step_iff_turn.mpr ⟨_, hturn, congrArg some hcheck⟩
  exact ⟨_, _, hrun.append (.cons hlast (.nil _)), rfl, rfl⟩

theorem violated_iff_dataPlane (hnet : P.network.ModelOnly) (hlinked : P.network.Linked)
    (hof : P.openflow.updates = []) (hconn : P.Sendable conn) (hudp : conn.protocol ≠ .tcp)
    (ha : P.ecs.findEc a = some conn.dstIpEc) (targetNodes : List NodePtr) (reachable : Bool) :
    (∃ s t tr, P.initModel (invariants targetNodes reachable conn) = some s ∧
      Run (P.step (invariants targetNodes reachable conn)) s tr t ∧ t.choiceCount = 0 ∧
        t.violated = true) ↔
    ∃ n, P.network.Reaches a conn.srcNode n ∧ if reachable then
      P.network.Discards a n ∨ P.network.Accepts a n ∧ n ∉ targetNodes
    else P.network.Accepts a n ∧ n ∈ targetNodes := by
  rw [← canEnd_true_iff]
  constructor
  · rintro ⟨s, t, tr, hs, h, -, hviolated⟩
    have hbegins := Plankton.begins_initModel hof hconn hs
    have hreq := hbegins.protoState ▸ Plankton.firstProtoState_cases hudp
    rcases Plankton.run_flying hnet hof (quiet hreq) h (.inl hbegins.starting) with ⟨-, hsame⟩ |
      ⟨m₁, m', rest, hend, -, hcheck, hrest⟩
    · rw [hsame, hbegins.violated] at hviolated
      exact absurd hviolated (by simp [Policy.initViolated])
    · obtain ⟨v, hv, hjudged⟩ := canEnd_of_ends hconn hudp ha hbegins hend
      obtain rfl := (Option.some.inj hcheck).symm.trans hjudged
      obtain rfl := Plankton.eq_of_stop hrest
      obtain rfl : v = true := hviolated
      exact hv
  · intro hend
    obtain ⟨s, hs⟩ := Plankton.initModel_isSome hof hconn (.reachability targetNodes reachable)
    have hbegins := Plankton.begins_initModel hof hconn hs
    have hreq := hbegins.protoState ▸ Plankton.firstProtoState_cases hudp
    obtain ⟨tr, l, hrun, hall, hcheck⟩ :=
      exists_turns hnet hlinked hof hconn hudp ha hbegins hend
    obtain ⟨t, tr', hrun', h₀, hviolated⟩ := complete hreq hrun hall hcheck
    exact ⟨s, t, tr', hs, hrun', h₀, hviolated⟩

end Reachability

namespace ReplyReachability

variable {P : Plankton} {m s t : Model} {tr : List (Link Model Label)} {ec : EcPtr} {n : NodePtr}
  {targetNodes : List NodePtr} {reachable : Bool} {conn : Connection} {a x : IPv4Address}

theorem beforeReply_of_request
    (hreq : m.cur.protoState = psUdpReq ∨ m.cur.protoState = psIcmpEchoReq) :
    m.beforeReply = true := by
  unfold Model.beforeReply
  rcases hreq with hreq | hreq <;> rw [hreq] <;> rfl

theorem isReply_succ {p : ProtoState} (hreq : p = psUdpReq ∨ p = psIcmpEchoReq) :
    ProtoState.isReply (p + 1) = true := by
  rcases hreq with rfl | rfl <;> rfl

theorem quiet_request {p : ProtoState} (hreq : p = psUdpReq ∨ p = psIcmpEchoReq) :
    Plankton.Quiet (.replyReachability targetNodes reachable) p := by
  intro m hp hflight
  show some (m.checkReplyReachability targetNodes reachable) = some m
  unfold Model.checkReplyReachability
  rw [beforeReply_of_request (hp ▸ hreq), Model.requestIsAccepted_of_inFlight (hp ▸ hreq) hflight,
    Model.ne_dropped_of_inFlight hflight]
  rfl

theorem check_reply (hreply : m.cur.protoState.isReply = true)
    (hmode : m.cur.fwdMode ≠ .accepted ∧ m.cur.fwdMode ≠ .dropped) :
    m.checkReplyReachability targetNodes reachable = m := by
  unfold Model.checkReplyReachability
  rw [beforeReply_of_isReply hreply, hreply, beq_false_of_ne hmode.1, beq_false_of_ne hmode.2]
  rfl

theorem quiet_reply {p : ProtoState} (hreply : p.isReply = true) :
    Plankton.Quiet (.replyReachability targetNodes reachable) p := by
  intro m hp hflight
  refine congrArg some (check_reply (hp ▸ hreply) ?_)
  rcases hflight with hmode | hmode | hmode <;> simp [hmode]

theorem check_request (hm : Model.DeliveredAt P ec n m)
    (hreq : m.cur.protoState = psUdpReq ∨ m.cur.protoState = psIcmpEchoReq)
    (hrx : m.cur.rxNode = some n) :
    m.checkReplyReachability targetNodes reachable =
      if n ∈ targetNodes then m else m.stop reachable := by
  have htarget : m.rxIsTarget targetNodes = decide (n ∈ targetNodes) := by
    rw [Model.rxIsTarget, hrx]
    rfl
  unfold Model.checkReplyReachability
  rw [beforeReply_of_request hreq, hm.requestIsAccepted hreq, htarget, hm.mode,
    Model.otherExecutableConnsExist_of_lone hm.conn hm.numConns]
  by_cases hn : n ∈ targetNodes <;> simp [hn]

theorem check_lost (hm : Model.Lost m)
    (hps : m.beforeReply = true ∨ m.cur.protoState.isReply = true) :
    m.checkReplyReachability targetNodes reachable = m.stop reachable := by
  unfold Model.checkReplyReachability
  rw [hm.mode, Model.otherExecutableConnsExist_of_lone hm.conn hm.numConns]
  rcases hps with hbefore | hreply
  · simp [hbefore]
  · simp [beforeReply_of_isReply hreply, hreply]

theorem check_replied (hm : Model.DeliveredAt P ec n m)
    (hreply : m.cur.protoState.isReply = true) :
    m.checkReplyReachability targetNodes reachable =
      m.stop (reachable != decide (n = m.cur.txNode)) := by
  unfold Model.checkReplyReachability
  rw [beforeReply_of_isReply hreply, hreply, hm.mode, hm.pktLocation,
    Model.otherExecutableConnsExist_of_lone hm.conn hm.numConns]
  by_cases hn : n = m.cur.txNode <;> simp [hn]

/-- What a request leads to that is received with a source address: it is received elsewhere, or
its reply may be. -/
def Fails (net : Network) (src : NodePtr) (targetNodes : List NodePtr) (reachable : Bool)
    (n : NodePtr) (x : IPv4Address) : Prop :=
  if n ∈ targetNodes then ∃ n', net.Reaches x n n' ∧
    if reachable then net.Discards x n' ∨ net.Accepts x n' ∧ n' ≠ src
    else net.Accepts x n' ∧ n' = src
  else reachable = true

theorem reply_ec (hconn : P.Sendable conn) (ha : P.ecs.findEc a = some conn.dstIpEc)
    (hforeign : P.network.hasIp conn.srcNode a = false)
    (hx : P.network.hasIp conn.srcNode x = true) :
    ∃ ec, P.ecs.findEc x = some ec ∧ ec ≠ conn.dstIpEc := by
  obtain ⟨ec, hec⟩ := Option.isSome_iff_exists.mp
    (Plankton.findEc_isSome_of_hasIp hconn.srcNode hx)
  refine ⟨ec, hec, ?_⟩
  rintro rfl
  obtain rfl := Plankton.eq_of_findEc_of_hasIp ha hec hconn.srcNode hx
  rw [hforeign] at hx
  exact absurd hx (by decide)

theorem sound_reply {tr : List (Link Model Label)} {ec' : EcPtr} (hnet : P.network.ModelOnly)
    (hof : P.openflow.updates = []) (hec : P.IsEc ec) (hm : Model.DeliveredAt P ec n m)
    (hreq : m.cur.protoState = psUdpReq ∨ m.cur.protoState = psIcmpEchoReq)
    (hec' : P.ecs.findEc m.cur.srcIp = some ec')
    (hunmet : ∀ k, m.cur.pathChoices.getChoice (some ec') k = none) (hinit : m.violated = false)
    (h : Run (P.step (invariants targetNodes reachable conn [])) m tr t)
    (hviolated : t.violated = true) :
    ∃ n', Relation.ReflTransGen (P.PassesTo ec') n n' ∧
      if reachable then P.nextHops ec' n' = [] ∨
        (∃ h ∈ P.nextHops ec' n', h.l3Node = n') ∧ n' ≠ m.cur.txNode
      else (∃ h ∈ P.nextHops ec' n', h.l3Node = n') ∧ n' = m.cur.txNode := by
  have hreply := isReply_succ hreq
  cases h with
  | nil => simp [hinit] at hviolated
  | @cons _ m' _ l tr hstep hrest =>
    obtain ⟨m₁, hturn, hcheck⟩ := Plankton.step_iff_turn.mp hstep
    have hl : l.choice = 0 := by
      have hlt := (Plankton.step_eq_some hstep).1
      rw [hm.choiceCount] at hlt
      exact Nat.lt_one_iff.mp hlt
    obtain ⟨m₂, h₂, hstart, -, hsame, hps, htx, hmode⟩ :=
      hm.answer hnet hof hec hreq hec' hunmet hl
    obtain rfl := Option.some.inj (hturn.symm.trans h₂)
    have hreply₁ : m₁.cur.protoState.isReply = true := by
      rw [hps]
      exact hreply
    have hquiet : m₁.checkReplyReachability targetNodes reachable = m₁ :=
      check_reply hreply₁ (by simp [hmode])
    obtain rfl : m₁ = m' := Option.some.inj ((congrArg some hquiet).symm.trans hcheck)
    -- the reply flies on its own from here, as a request does
    rcases Plankton.run_flying hnet hof (quiet_reply hreply₁) hrest (.inl hstart) with
      ⟨-, hstill⟩ | ⟨m₃, m₄, rest, hend, hstill, hcheck₃, hrest₃⟩
    · rw [hstill, hsame, hinit] at hviolated
      exact absurd hviolated Bool.false_ne_true
    · have hcheck₃ : m₃.checkReplyReachability targetNodes reachable = m₄ :=
        Option.some.inj hcheck₃
      rcases hend with ⟨n', hlanded⟩ | hlost
      · rw [check_replied hlanded.toDeliveredAt (hlanded.phase.protoState ▸ hreply₁),
          hlanded.phase.txNode, htx] at hcheck₃
        obtain rfl := hcheck₃
        obtain rfl := Plankton.eq_of_stop hrest₃
        obtain ⟨hway, haccepts⟩ := hlanded.received.reaches hm.mem
        refine ⟨n', hway, ?_⟩
        replace hviolated : (reachable != decide (n' = m.cur.txNode)) = true := hviolated
        cases reachable with
        | true => exact .inr ⟨haccepts, by simpa using hviolated⟩
        | false => exact ⟨haccepts, by simpa using hviolated⟩
      · rw [check_lost hlost.toLost (.inr (hlost.phase.protoState ▸ hreply₁))] at hcheck₃
        obtain rfl := hcheck₃
        obtain rfl := Plankton.eq_of_stop hrest₃
        obtain rfl : reachable = true := hviolated
        exact ⟨_, hlost.way, .inl hlost.starved⟩

theorem run_judged {s : Model} {tr : List (Link Model Label)} {l : Link Model Label} {m : Model}
    {p : ProtoState} (hquiet : Plankton.Quiet (.replyReachability targetNodes reachable) p)
    (hp : s.cur.protoState = p) (h : Run P.turn s (tr ++ [l]) l.after)
    (hall : ∀ k ∈ tr, k.after.cur.InFlight ∧ ConnState.SamePhase ec s.cur k.after.cur)
    (hcheck : l.after.checkReplyReachability targetNodes reachable = m) :
    ∃ tr', Run (P.step (invariants targetNodes reachable conn [])) s tr' m := by
  obtain ⟨hbefore, hturn, -⟩ := h.around
  have hrun : Run (P.step (invariants targetNodes reachable conn [])) s tr l.before := by
    apply Plankton.run_of_turns _ hbefore
    intro k hk
    exact hquiet _ ((hall k hk).2.protoState.trans hp) (hall k hk).1
  have hlast : P.step (invariants targetNodes reachable conn []) l.before l.act = some m :=
    Plankton.step_iff_turn.mpr ⟨_, hturn, congrArg some hcheck⟩
  exact ⟨_, hrun.append (.cons hlast (.nil _))⟩

theorem complete_reply {ec' : EcPtr} (hnet : P.network.ModelOnly)
    (hof : P.openflow.updates = []) (hec : P.IsEc ec) (hm : Model.DeliveredAt P ec n m)
    (hreq : m.cur.protoState = psUdpReq ∨ m.cur.protoState = psIcmpEchoReq)
    (hec' : P.ecs.findEc m.cur.srcIp = some ec')
    (hunmet : ∀ k, m.cur.pathChoices.getChoice (some ec') k = none) {n' : NodePtr}
    (hway : Relation.ReflTransGen (P.PassesTo ec') n n')
    (hn' : if reachable then P.nextHops ec' n' = [] ∨
        (∃ h ∈ P.nextHops ec' n', h.l3Node = n') ∧ n' ≠ m.cur.txNode
      else (∃ h ∈ P.nextHops ec' n', h.l3Node = n') ∧ n' = m.cur.txNode) :
    ∃ tr t, Run (P.step (invariants targetNodes reachable conn [])) m tr t ∧
      t.choiceCount = 0 ∧ t.violated = true := by
  obtain ⟨m₁, h₁, -, harrived, -, hps, htx, hmode⟩ :=
    hm.answer (l := choose 0) hnet hof hec hreq hec' hunmet rfl
  have hreply : m₁.cur.protoState.isReply = true := by
    rw [hps]
    exact isReply_succ hreq
  have hquiet : m₁.checkReplyReachability targetNodes reachable = m₁ :=
    check_reply hreply (by simp [hmode])
  have hstep : P.step (invariants targetNodes reachable conn []) m (choose 0) = some m₁ :=
    Plankton.step_iff_turn.mpr ⟨m₁, h₁, congrArg some hquiet⟩
  -- a reply keeps the address that it was given
  have hleaves : ∀ h ∈ P.nextHops ec' n, ∃ x, P.LeavesAs m₁.cur n h x := by
    intro h _
    refine ⟨m₁.cur.srcIp, ?_⟩
    rw [Plankton.LeavesAs, if_neg]
    rintro ⟨hfirst, -⟩
    rw [hps] at hfirst
    rcases hreq with hreq | hreq <;> rw [hreq] at hfirst <;> exact absurd hfirst (by decide)
  have hends : ∀ {tr l} {v : Bool}, Run P.turn m₁ (tr ++ [l]) l.after →
      (∀ k ∈ tr, k.after.cur.InFlight ∧ ConnState.SamePhase ec' m₁.cur k.after.cur) →
      l.after.checkReplyReachability targetNodes reachable = l.after.stop v → v = true →
      ∃ tr t, Run (P.step (invariants targetNodes reachable conn [])) m tr t ∧
        t.choiceCount = 0 ∧ t.violated = true := by
    rintro tr l v hrun hall hcheck rfl
    obtain ⟨tr', hrun'⟩ := run_judged (quiet_reply hreply) rfl hrun hall hcheck
    exact ⟨_, _, .cons hstep hrun', rfl, rfl⟩
  have hdelivered : (∃ h ∈ P.nextHops ec' n', h.l3Node = n') →
      (reachable != decide (n' = m.cur.txNode)) = true →
      ∃ tr t, Run (P.step (invariants targetNodes reachable conn [])) m tr t ∧
        t.choiceCount = 0 ∧ t.violated = true := by
    intro haccepts hjudged
    obtain ⟨x, hreceives⟩ := Plankton.exists_receivesAs hleaves hway haccepts
    obtain ⟨tr, l, hrun, hall, hdel, hphase, -, -⟩ := harrived.send hmode hnet hof hreceives
    refine hends hrun hall (check_replied hdel (hphase.protoState ▸ hreply)) ?_
    rw [hphase.txNode, htx]
    exact hjudged
  cases reachable with
  | true =>
    rcases hn' with hnil | ⟨haccepts, hne⟩
    · obtain ⟨tr, l, hrun, hall, hlost, hphase⟩ :=
        harrived.sendLost hmode hnet hof hleaves hway hnil
      exact hends hrun hall (check_lost hlost (.inr (hphase.protoState ▸ hreply))) rfl
    · exact hdelivered haccepts (by simpa using hne)
  | false => exact hdelivered hn'.1 (by simpa using hn'.2)

theorem fails_iff {ec' : EcPtr} (hx : P.ecs.findEc x = some ec') (hn : n ∈ P.network.nodes)
    (htarget : n ∈ targetNodes) (src : NodePtr) :
    Fails P.network src targetNodes reachable n x ↔
      ∃ n', Relation.ReflTransGen (P.PassesTo ec') n n' ∧
        if reachable then P.nextHops ec' n' = [] ∨
          (∃ h ∈ P.nextHops ec' n', h.l3Node = n') ∧ n' ≠ src
        else (∃ h ∈ P.nextHops ec' n', h.l3Node = n') ∧ n' = src := by
  unfold Fails
  rw [if_pos htarget]
  refine exists_congr fun n' => ?_
  rw [Plankton.reaches_iff hx hn]
  refine and_congr_right fun hway => ?_
  have hmem : n' ∈ P.network.nodes := by
    apply Plankton.mem_of_passesTo (Q := fun _ => True) hx hn
    simpa using hway
  rw [Plankton.nextHops_eq_nil hx hmem, Plankton.accepts_iff hx hmem]

/-- The verification of a datagram or an echo request and of its reply finds a violation if and
only if the data planes of the two addresses have one: the request is discarded or received
elsewhere, or it is received with a source address for which packets from there do not come back;
or the reply comes back where it should not. -/
theorem violated_iff_bothWays (hnet : P.network.ModelOnly) (hlinked : P.network.Linked)
    (hof : P.openflow.updates = []) (hconn : P.Sendable conn) (hudp : conn.protocol ≠ .tcp)
    (ha : P.ecs.findEc a = some conn.dstIpEc)
    (hforeign : P.network.hasIp conn.srcNode a = false) (targetNodes : List NodePtr)
    (reachable : Bool) :
    (∃ s t tr, P.initModel (invariants targetNodes reachable conn []) = some s ∧
      Run (P.step (invariants targetNodes reachable conn [])) s tr t ∧ t.choiceCount = 0 ∧
        t.violated = true) ↔
    (reachable = true ∧ ∃ n, P.network.Reaches a conn.srcNode n ∧ P.network.Discards a n) ∨
      ∃ n x, P.network.Receives a conn.srcNode x n ∧
        Fails P.network conn.srcNode targetNodes reachable n x := by
  have hmem : ∀ n, Relation.ReflTransGen (P.PassesTo conn.dstIpEc) conn.srcNode n →
      n ∈ P.network.nodes := by
    intro n hway
    apply Plankton.mem_of_passesTo (Q := fun _ => True) ha hconn.srcNode
    simpa using hway
  -- the class of the reply, for an address with which the request can leave
  have hanswer : ∀ {s : Model} {violated : Bool} {x : IPv4Address} {n : NodePtr},
      P.Begins conn violated s → P.ReceivesAs conn.dstIpEc s.cur conn.srcNode x n →
      ∃ ec', P.ecs.findEc x = some ec' ∧ ec' ≠ conn.dstIpEc := by
    intro s violated x n hbegins hreceives
    obtain ⟨h, hh, hleaves, -⟩ := hreceives
    obtain ⟨y, hy, hown⟩ := Plankton.sourceAddr_hasIp hnet hlinked hconn.canSend hh
    obtain rfl := Option.some.inj (hy.symm.trans (hbegins.leavesAs_iff.mp hleaves))
    exact reply_ec hconn ha hforeign hown
  constructor
  · rintro ⟨s, t, tr, hs, h, -, hviolated⟩
    have hbegins := Plankton.begins_initModel hof hconn hs
    have hreq := hbegins.protoState ▸ Plankton.firstProtoState_cases hudp
    have hfirst : s.cur.protoState.isFirst = true := by
      rcases hreq with hreq | hreq <;> rw [hreq] <;> rfl
    rcases Plankton.run_flying hnet hof (quiet_request hreq) h (.inl hbegins.starting) with
      ⟨-, hsame⟩ | ⟨m₁, m', rest, hend, hsame, hcheck, hrest⟩
    · rw [hsame, hbegins.violated] at hviolated
      exact absurd hviolated (by simp [Policy.initViolated])
    · have hcheck : m₁.checkReplyReachability targetNodes reachable = m' := Option.some.inj hcheck
      rcases hend with ⟨n, hlanded⟩ | hlost
      · right
        have hreceives := (hbegins.receivesAs_iff hconn ha).mp hlanded.received
        have hreq₁ := hlanded.phase.protoState ▸ hreq
        refine ⟨n, m₁.cur.srcIp, hreceives, ?_⟩
        rw [check_request hlanded.toDeliveredAt hreq₁ (by rw [hlanded.rxNode, if_pos hfirst])]
          at hcheck
        split_ifs at hcheck with hn
        · obtain rfl := hcheck
          obtain ⟨ec', hec', hne⟩ := hanswer hbegins hlanded.received
          have hunmet : ∀ k, m₁.cur.pathChoices.getChoice (some ec') k = none := by
            intro k
            rw [hlanded.phase.choices ec' hne k, hbegins.pathChoices]
            rfl
          have hfail := sound_reply hnet hof ⟨a, ha⟩ hlanded.toDeliveredAt hreq₁ hec' hunmet
            (hsame.trans hbegins.violated) hrest hviolated
          rw [hlanded.phase.txNode, hbegins.txNode] at hfail
          exact (fails_iff hec' hlanded.mem hn _).mpr hfail
        · obtain rfl := hcheck
          obtain rfl := Plankton.eq_of_stop hrest
          rw [Fails, if_neg hn]
          exact hviolated
      · left
        rw [check_lost hlost.toLost (.inl (beforeReply_of_request
          (hlost.phase.protoState ▸ hreq)))] at hcheck
        obtain rfl := hcheck
        obtain rfl := Plankton.eq_of_stop hrest
        exact ⟨hviolated, _, (Plankton.reaches_iff ha hconn.srcNode).mpr hlost.way,
          (Plankton.nextHops_eq_nil ha hlost.mem).mp hlost.starved⟩
  · intro h
    obtain ⟨s, hs⟩ := Plankton.initModel_isSome hof hconn
      (.replyReachability targetNodes reachable)
    have hbegins := Plankton.begins_initModel hof hconn hs
    have hreq := hbegins.protoState ▸ Plankton.firstProtoState_cases hudp
    have hfirst : s.cur.protoState.isFirst = true := by
      rcases hreq with hreq | hreq <;> rw [hreq] <;> rfl
    rcases h with ⟨rfl, n, hreaches, hdiscards⟩ | ⟨n, x, hreceives, hfails⟩
    · have hway := (Plankton.reaches_iff ha hconn.srcNode).mp hreaches
      obtain ⟨tr, l, hrun, hall, hlost, hphase⟩ := hbegins.arrived.sendLost hbegins.fwdMode hnet hof
        (fun h hh => hbegins.leaves hnet hlinked hconn hh) hway
        ((Plankton.nextHops_eq_nil ha (hmem n hway)).mpr hdiscards)
      obtain ⟨tr', hrun'⟩ := run_judged (quiet_request hreq) rfl hrun hall
        (check_lost hlost (.inl (beforeReply_of_request (hphase.protoState ▸ hreq))))
      exact ⟨s, _, tr', hs, hrun', rfl, rfl⟩
    · have hreceivesAs := (hbegins.receivesAs_iff hconn ha).mpr hreceives
      obtain ⟨tr, l, hrun, hall, hdel, hphase, hip, hrx⟩ :=
        hbegins.arrived.send hbegins.fwdMode hnet hof hreceivesAs
      rw [if_pos hfirst] at hrx
      have hquiet : Plankton.Quiet (.replyReachability targetNodes reachable) _ :=
        quiet_request hreq
      obtain ⟨tr', hrun'⟩ := run_judged hquiet rfl hrun hall
        (check_request hdel (hphase.protoState ▸ hreq) hrx)
      by_cases hn : n ∈ targetNodes
      · rw [if_pos hn] at hrun'
        obtain ⟨ec', hec', hne⟩ := hanswer hbegins hreceivesAs
        obtain ⟨n', hway', hn'⟩ := (fails_iff hec' hdel.mem hn _).mp hfails
        have hunmet : ∀ k, l.after.cur.pathChoices.getChoice (some ec') k = none := by
          intro k
          rw [hphase.choices ec' hne k, hbegins.pathChoices]
          rfl
        rw [← hbegins.txNode, ← hphase.txNode] at hn'
        obtain ⟨tr₂, t, hrun₂, h₀, hviolated⟩ := complete_reply hnet hof ⟨a, ha⟩ hdel
          (hphase.protoState ▸ hreq) (hip ▸ hec') hunmet hway' hn'
        exact ⟨s, t, _, hs, hrun'.append hrun₂, h₀, hviolated⟩
      · rw [if_neg hn] at hrun'
        rw [Fails, if_neg hn] at hfails
        exact ⟨s, _, tr', hs, hrun', rfl, hfails⟩

theorem violated_pair : ∃ s t tr,
    (Plankton.pairPlankton false).initModel
      (invariants [1] false (Plankton.pairConn false .udp) []) = some s ∧
    Run ((Plankton.pairPlankton false).step
      (invariants [1] false (Plankton.pairConn false .udp) [])) s tr t ∧ t.choiceCount = 0 ∧
        t.violated = true := by
  have hsend : (Plankton.pair false).CanSend 0 := by
    intro i hi hl2
    obtain rfl := List.mem_singleton.mp hi
    exact absurd hl2 (by decide)
  have hsends : ∀ a n h, (Plankton.pair false).getIpnhs n ((Plankton.pair false).node n).rib a =
      some [h] → (Plankton.pair false).SendsTo a n h :=
    fun a n h hget => Network.sendsTo_iff.mpr ⟨_, hget, List.mem_singleton_self h⟩
  have hreply : (Plankton.pair false).Reaches 0x0A000000#32 1 0 := by
    refine .single ⟨by decide, ⟨0, some 10, 0, some 10⟩, hsends _ _ _ ?_, rfl⟩
    decide +kernel
  have hback : (Plankton.pair false).Accepts 0x0A000000#32 0 :=
    ⟨.accept 0, hsends _ _ _ (by decide +kernel), rfl⟩
  have hrequest : (Plankton.pair false).Receives 0x0A000001#32 0 0x0A000000#32 1 := by
    refine ⟨⟨1, some 11, 1, some 11⟩, hsends _ _ _ (by decide +kernel), rfl,
      .inr ⟨by decide, ?_, .refl⟩⟩
    exact ⟨.accept 1, hsends _ _ _ (by decide +kernel), rfl⟩
  have hfind : (Plankton.pairPlankton false).ecs.findEc 0x0A000001#32 =
      some (Plankton.pairConn false .udp).dstIpEc := by
    decide +kernel
  apply (violated_iff_bothWays (Plankton.pair_modelOnly false) (Plankton.pair_linked false) rfl
    ⟨List.mem_cons_self .., ⟨_, hfind⟩, rfl, hsend⟩ (by decide) hfind (by decide) [1] false).mpr
  refine .inr ⟨1, 0x0A000000#32, hrequest, ?_⟩
  exact (if_pos (List.mem_singleton_self 1)).mpr ⟨0, hreply, hback, rfl⟩

end ReplyReachability

end Neo
