import Neo.Process.ChooseConn

/-! The invariants and what their checks do after every control step. A check may end the
exploration of the run by setting the choice count to zero. -/

namespace Neo

/-- The invariants without correlated invariants. The dispersion index of `LoadBalance` is a
quotient of floating-point numbers; its comparison with the maximum is a parameter. -/
inductive Policy
  | reachability (targetNodes : List NodePtr) (reachable : Bool)
  | replyReachability (targetNodes : List NodePtr) (reachable : Bool)
  | waypoint (targetNodes : List NodePtr) (passThrough : Bool)
  | loop
  | oneRequest (targetNodes : List NodePtr)
  | loadBalance (targetNodes : List NodePtr) (exceeds : ReachCounts → Bool)

namespace Model

variable (m : Model)

def requestIsAccepted : Bool :=
  (m.cur.fwdMode == .accepted && m.cur.protoState.isRequest) ||
    (m.cur.fwdMode == .firstForward && m.cur.protoState.isReqAckOrRep)

def otherExecutableConnsExist : Bool :=
  (List.range m.numConns).any fun conn =>
    conn != m.conn && decide ((m.connState conn).executable > 0)

def rxIsTarget (targetNodes : List NodePtr) : Bool :=
  m.cur.rxNode.any fun n => n ∈ targetNodes

/-- `set_violated` together with `set_choice_count(0)`. -/
def stop (violated : Bool) : Model := (m.setViolated violated).setChoiceCount 0

def checkReachability (targetNodes : List NodePtr) (reachable : Bool) : Model :=
  if m.requestIsAccepted && m.rxIsTarget targetNodes then m.stop (reachable != true)
  else if (m.requestIsAccepted || m.cur.fwdMode == .dropped) &&
      !m.otherExecutableConnsExist then m.stop (reachable != false)
  else m

def beforeReply : Bool :=
  (m.cur.protoState.isTcp && decide (m.cur.protoState < psTcpL7Rep)) ||
    (m.cur.protoState.isUdp && decide (m.cur.protoState < psUdpRep)) ||
    (m.cur.protoState.isIcmpEcho && decide (m.cur.protoState < psIcmpEchoRep))

def checkReplyReachability (targetNodes : List NodePtr) (reachable : Bool) : Model :=
  if m.beforeReply then
    -- before the reply: the request must not be received elsewhere
    if (m.requestIsAccepted && !m.rxIsTarget targetNodes || m.cur.fwdMode == .dropped) &&
        !m.otherExecutableConnsExist then m.stop reachable
    else m
  else if m.cur.protoState.isReply then
    if m.cur.fwdMode == .accepted && m.cur.pktLocation == m.cur.txNode then
      m.stop (reachable != true)
    else if (m.cur.fwdMode == .accepted && m.cur.pktLocation != m.cur.txNode ||
        m.cur.fwdMode == .dropped) && !m.otherExecutableConnsExist then
      m.stop (reachable != false)
    else m
  else m

def checkWaypoint (targetNodes : List NodePtr) (passThrough : Bool) : Model :=
  if m.cur.fwdMode = .collectNhops ∧ m.cur.pktLocation ∈ targetNodes then m.stop !passThrough
  else m

end Model

namespace VisitedHops

def visited (v : VisitedHops) (hop : Hop) : Bool := hop ∈ v.hops && v.lastHop != some hop

def isLastHop (v : VisitedHops) (hop : Hop) : Bool := v.lastHop == some hop

/-- `add`; `none` where the hop is there already. The last hop is not written. -/
def add (v : VisitedHops) (hop : Hop) : Option VisitedHops :=
  if hop ∈ v.hops then none else some { v with hops := hop :: v.hops }

end VisitedHops

namespace Model

variable (m : Model)

def checkLoop : Option Model :=
  if (m.requestIsAccepted || m.cur.fwdMode == .dropped) && !m.otherExecutableConnsExist then
    some (m.stop false)
  else
    match m.cur.visitedHops with
    | none => do
      -- a new beginning
      let hops ← VisitedHops.add ⟨[], none⟩ m.cur.hop
      return m.setCur { m.cur with visitedHops := some hops }
    | some v =>
      if v.visited m.cur.hop then some (m.stop true)
      else if v.isLastHop m.cur.hop then some m
      else do
        let hops ← v.add m.cur.hop
        return m.setCur { m.cur with visitedHops := some hops }

/-- The run ends if `violated`; either way the connection won't be chosen. -/
def countReach (violated : Bool) (counts : ReachCounts) : Model :=
  let m := if violated then m.stop true else m
  (m.setReachCounts counts).setCur { m.cur with executable := 0 }

def checkOneRequest (targetNodes : List NodePtr) : Model :=
  if m.cur.fwdMode == .accepted && m.cur.protoState.isRequest && m.rxIsTarget targetNodes then
    let counts := m.cur.rxNode :: m.reachCounts
    m.countReach (decide (counts.length > 1)) counts
  else m

def checkLoadBalance (targetNodes : List NodePtr) (exceeds : ReachCounts → Bool) : Model :=
  if m.cur.fwdMode == .accepted && m.cur.protoState.isFirst then
    let counts := m.cur.rxNode :: m.reachCounts
    m.countReach (m.rxIsTarget targetNodes && exceeds counts) counts
  else m

/-- `check_violation` of an invariant without correlated ones. -/
def checkPolicy : Policy → Option Model
  | .reachability targetNodes reachable => some (m.checkReachability targetNodes reachable)
  | .replyReachability targetNodes reachable =>
    some (m.checkReplyReachability targetNodes reachable)
  | .waypoint targetNodes passThrough => some (m.checkWaypoint targetNodes passThrough)
  | .loop => m.checkLoop
  | .oneRequest targetNodes => some (m.checkOneRequest targetNodes)
  | .loadBalance targetNodes exceeds => some (m.checkLoadBalance targetNodes exceeds)

end Model

end Neo
