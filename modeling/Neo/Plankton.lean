import Neo.Invariant.CheckViolation
import Neo.Lib.Run

/-! The loop of the model checker: a value is selected, the process in charge takes a step, the
next process is decided, and the invariant is checked. -/

namespace Neo

structure Connection where
  protocol : Proto
  srcNode : NodePtr
  dstIpEc : EcPtr
  srcPort : BitVec 16
  dstPort : BitVec 16
  srcIp : IPv4Address
  seq : BitVec 32
  ack : BitVec 32

structure CheckedInvariant where
  policy : Policy
  conns : List Connection

inductive Invariants
  | single (inv : CheckedInvariant)
  | conditional (correlatedInvs : List CheckedInvariant)
  | consistency (correlatedInvs : List CheckedInvariant)

/-- What a step selects or is given from outside: the choice, the answer of a middlebox to an
injection, and the result that a consistency invariant has stored from other runs, if any. -/
structure Label where
  choice : Nat
  results : List InjectionResult
  result : Option Bool

namespace Connection

def firstProtoState (c : Connection) : ProtoState :=
  match c.protocol with
  | .tcp => psTcpInit1
  | .udp => psUdpReq
  | .icmpEcho => psIcmpEchoReq

/-- `Connection::init`. What is left of earlier choices of the slot but the visited hops is
overwritten. -/
def init (c : Connection) (P : Plankton) (connIdx : Nat) (m : Model) : Option Model := do
  let origConn := m.conn
  let m := m.setConn connIdx
  let m := m.setCur { m.cur with
    executable := 2
    protoState := c.firstProtoState
    srcIp := c.srcIp
    dstIpEc := some c.dstIpEc
    srcPort := c.srcPort
    dstPort := c.dstPort
    seq := c.seq
    ack := c.ack }
  let payload ← m.getPayloadFromModel P
  let m ← (m.setCur { m.cur with
    payload := payload
    srcNode := c.srcNode
    txNode := c.srcNode
    rxNode := none
    fwdMode := .firstCollect
    pktLocation := c.srcNode
    ingressIntf := none
    candidates := none
    injResults := none }).updateFib P
  return (m.setCur { m.cur with pathChoices := [] }).setConn origConn

def initFrom (P : Plankton) : List Connection → Nat → Model → Option Model
  | [], _, m => some m
  | c :: cs, i, m => (c.init P i m).bind (initFrom P cs (i + 1))

end Connection

namespace CheckedInvariant

/-- `Invariant::init` and what the policy adds to it. -/
def init (inv : CheckedInvariant) (P : Plankton) (m : Model) : Option Model := do
  let m ← Connection.initFrom P inv.conns 0 m
  let m := (m.setConn 0).setNumConns inv.conns.length
  match inv.policy with
  | .oneRequest _ => return (m.setViolated true).setReachCounts []
  | .loadBalance _ _ => return (m.setViolated false).setReachCounts []
  | _ => return m.setViolated false

end CheckedInvariant

namespace Invariants

def current : Invariants → Nat → Option CheckedInvariant
  | single inv, _ => some inv
  | conditional invs, i => invs[i]?
  | consistency invs, i => invs[i]?

def init (V : Invariants) (P : Plankton) (m : Model) : Option Model := do
  let m := match V with
    | single _ => m
    | _ => m.setCorrelatedInvIdx 0
  (← V.current m.correlatedInvIdx).init P m

/-- `reinit`, which only invariants with correlated ones have. -/
def reinit (V : Invariants) (P : Plankton) (m : Model) : Option Model :=
  match V with
  | single _ => none
  | _ => do (← V.current m.correlatedInvIdx).init P m

def advance (invs : List CheckedInvariant) (m : Model) : Model × Bool :=
  if m.correlatedInvIdx + 1 < invs.length then
    -- the next part, from the start
    (m.setCorrelatedInvIdx (m.correlatedInvIdx + 1), true)
  else (m.stop false, false)

/-- `Conditional::check_violation` after the check of the current invariant. -/
def checkConditional (invs : List CheckedInvariant) (m : Model) : Model × Bool :=
  if m.choiceCount = 0 then
    if m.violated then (m.stop (m.correlatedInvIdx != 0), false) else advance invs m
  else (m, false)

/-- `Consistency::check_violation` after the check of the current invariant. -/
def checkConsistency (invs : List CheckedInvariant) (result : Option Bool) (m : Model) :
    Model × Bool :=
  if m.choiceCount = 0 then
    if m.violated != result.getD m.violated then (m.stop true, false) else advance invs m
  else (m, false)

/-- `check_violation`; the second component asks for `reinit`. -/
def checkViolation (V : Invariants) (result : Option Bool) (m : Model) :
    Option (Model × Bool) := do
  let m ← m.checkPolicy (← V.current m.correlatedInvIdx).policy
  match V with
  | single _ => return (m, false)
  | conditional invs => return checkConditional invs m
  | consistency invs => return checkConsistency invs result m

end Invariants

namespace Plankton

variable (P : Plankton) (V : Invariants)

/-- `OpenflowProcess::init`. -/
def initOpenflow (m : Model) : Model :=
  if P.openflow.updates = [] then m
  else m.setOpenflowUpdateState (List.replicate P.openflow.updates.length 0)

def startForwarding (m : Model) : Model :=
  ((m.setProcessId .forwarding).setChoice 0).setChoiceCount 1

/-- `Plankton::initialize`. -/
def initModel : Option Model := (V.init P (P.initOpenflow .zero)).map startForwarding

def reinit (m : Model) : Option Model := (V.reinit P (P.initOpenflow m)).map startForwarding

def control (results : List InjectionResult) (m : Model) : Option Model := do
  let m ← match m.processId with
    | .chooseConn => m.execChooseConn
    | .forwarding => m.execForwarding P results
    | .openflow => m.execOpenflow P
  m.checkToSwitchProcess P

def execStep (l : Label) (m : Model) : Option Model := do
  let m ← P.control l.results m
  let (m, reinitDp) ← V.checkViolation l.result m
  if reinitDp then P.reinit V m else return m

def step (m : Model) (l : Label) : Option Model :=
  if l.choice < m.choiceCount then P.execStep V l (m.setChoice l.choice) else none

variable {P V}

theorem step_eq_some {m m' : Model} {l : Label} (h : P.step V m l = some m') :
    l.choice < m.choiceCount ∧ ∃ m₁ m₂ reinitDp,
      P.control l.results (m.setChoice l.choice) = some m₁ ∧
      V.checkViolation l.result m₁ = some (m₂, reinitDp) ∧
      (if reinitDp then P.reinit V m₂ else some m₂) = some m' := by
  unfold step at h
  split_ifs at h with hc
  refine ⟨hc, ?_⟩
  unfold execStep at h
  simp only [Option.bind_eq_bind, Option.bind_eq_some_iff] at h
  obtain ⟨m₁, h₁, ⟨m₂, r⟩, h₂, h₃⟩ := h
  exact ⟨m₁, m₂, r, h₁, h₂, h₃⟩

end Plankton

end Neo
