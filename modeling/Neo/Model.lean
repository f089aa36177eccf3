import Neo.EqClass.InitialEcs
import Neo.Packet

/-! The state the model checker explores. Every access goes to the connection that is set, the
active one unless it is set for a while. -/

namespace Neo

inductive FwdMode
  | firstCollect
  | firstForward
  | collectNhops
  | chooseInjRes
  | forwardPacket
  | accepted
  | dropped
deriving DecidableEq

inductive Pid
  | chooseConn
  | forwarding
  | openflow
deriving DecidableEq

abbrev Candidates := List FibIpnh

abbrev Choices := List ((Option EcPtr × NodePtr) × FibIpnh)

namespace Choices

def getChoice (choices : Choices) (ec : Option EcPtr) (n : NodePtr) : Option FibIpnh :=
  choices.lookup (ec, n)

/-- `add_choice`; `none` where there is a choice already. -/
def addChoice (choices : Choices) (ec : Option EcPtr) (n : NodePtr) (choice : FibIpnh) :
    Option Choices :=
  if (choices.getChoice ec n).isSome then none else some (((ec, n), choice) :: choices)

end Choices

/-- A destination class, a destination port and a node. -/
abbrev Hop := Option EcPtr × BitVec 16 × NodePtr

/-- The hops at which a connection was checked; `lastHop` is `none` for the initial tuple of
null pointers. -/
structure VisitedHops where
  hops : List Hop
  lastHop : Option Hop

instance neZero_three : NeZero 3 := ⟨by decide⟩

/-- The state of a connection. The slots of connections that were never set hold zeros. -/
structure ConnState where
  /-- 2: executable, 1: about to enter a middlebox, 0: not executable. -/
  executable : Fin 3
  protoState : ProtoState
  srcIp : IPv4Address
  dstIpEc : Option EcPtr
  srcPort : BitVec 16
  dstPort : BitVec 16
  seq : BitVec 32
  ack : BitVec 32
  payload : Option Payload
  srcNode : NodePtr
  txNode : NodePtr
  rxNode : Option NodePtr
  fwdMode : FwdMode
  pktLocation : NodePtr
  ingressIntf : Option IntfPtr
  candidates : Option Candidates
  injResults : Option (List InjectionResult)
  fib : FIB
  pathChoices : Choices
  visitedHops : Option VisitedHops

namespace ConnState

def zero : ConnState where
  executable := 0
  protoState := 0
  srcIp := 0#32
  dstIpEc := none
  srcPort := 0#16
  dstPort := 0#16
  seq := 0#32
  ack := 0#32
  payload := none
  srcNode := 0
  txNode := 0
  rxNode := none
  fwdMode := .firstCollect
  pktLocation := 0
  ingressIntf := none
  candidates := none
  injResults := none
  fib := fun _ => none
  pathChoices := []
  visitedHops := none

def hop (c : ConnState) : Hop := (c.dstIpEc, c.dstPort, c.pktLocation)

end ConnState

/-- The nodes that were reached, once for each time. -/
abbrev ReachCounts := List (Option NodePtr)

structure Model where
  connState : Nat → ConnState
  processId : Pid
  choice : Nat
  choiceCount : Nat
  /-- The connection that is set. -/
  conn : Nat
  numConns : Nat
  openflowUpdateState : OpenflowUpdateState
  violated : Bool
  correlatedInvIdx : Nat
  reachCounts : ReachCounts

/-- What stays constant during a verification: the network, its updates, and the classes, which
are the initial ones with further ranges added by the invariants. -/
structure Plankton where
  network : Network
  openflow : OpenflowProcess network.toTopology
  ecs : EqClassMgr
  ecs_added : ∃ A mbs further,
    (EqClassMgr.reset.computeInitialEcs A openflow mbs).bind (·.addEcs A further) = some ecs

/-- The classes of a network to which no invariant adds ranges. -/
def Plankton.ofNetwork (network : Network) (openflow : OpenflowProcess network.toTopology) :
    Plankton where
  network := network
  openflow := openflow
  ecs := (EqClassMgr.reset.computeInitialEcs .next openflow []).getD .reset
  ecs_added := by
    obtain ⟨m, hm, -⟩ := EqClassMgr.computeInitialEcs_sound .next openflow [] []
    refine ⟨.next, [], [], ?_⟩
    obtain ⟨m', hm', h⟩ := Option.bind_eq_some_iff.mp hm
    rw [hm']
    rfl

namespace Model

/-- The state before `initialize`. -/
def zero : Model where
  connState := fun _ => .zero
  processId := .chooseConn
  choice := 0
  choiceCount := 0
  conn := 0
  numConns := 0
  openflowUpdateState := []
  violated := false
  correlatedInvIdx := 0
  reachCounts := []

variable (m : Model)

def cur : ConnState := m.connState m.conn

@[simps] def setCur (c : ConnState) : Model :=
  { m with connState := fun i => if i = m.conn then c else m.connState i }

@[simps] def setConn (conn : Nat) : Model := { m with conn := conn }

@[simps] def setNumConns (numConns : Nat) : Model := { m with numConns := numConns }

@[simps] def setProcessId (processId : Pid) : Model := { m with processId := processId }

@[simps] def setChoice (choice : Nat) : Model := { m with choice := choice }

@[simps] def setChoiceCount (choiceCount : Nat) : Model := { m with choiceCount := choiceCount }

@[simps] def setOpenflowUpdateState (st : OpenflowUpdateState) : Model :=
  { m with openflowUpdateState := st }

@[simps] def setViolated (violated : Bool) : Model := { m with violated := violated }

@[simps] def setCorrelatedInvIdx (i : Nat) : Model := { m with correlatedInvIdx := i }

@[simps] def setReachCounts (counts : ReachCounts) : Model := { m with reachCounts := counts }

@[simp] theorem cur_setCur (c : ConnState) : (m.setCur c).cur = c := by simp [cur]

theorem cur_setConn (i : Nat) : (m.setConn i).cur = m.connState i := rfl

@[simp] theorem cur_setNumConns (n : Nat) : (m.setNumConns n).cur = m.cur := rfl

@[simp] theorem cur_setProcessId (p : Pid) : (m.setProcessId p).cur = m.cur := rfl

@[simp] theorem cur_setChoice (n : Nat) : (m.setChoice n).cur = m.cur := rfl

@[simp] theorem cur_setChoiceCount (n : Nat) : (m.setChoiceCount n).cur = m.cur := rfl

@[simp] theorem cur_setOpenflowUpdateState (st : OpenflowUpdateState) :
    (m.setOpenflowUpdateState st).cur = m.cur := rfl

@[simp] theorem cur_setViolated (v : Bool) : (m.setViolated v).cur = m.cur := rfl

@[simp] theorem cur_setReachCounts (counts : ReachCounts) :
    (m.setReachCounts counts).cur = m.cur := rfl

/-- `update_fib` for the connection that is set. -/
def updateFib (P : Plankton) : Option Model := do
  let ec ← m.cur.dstIpEc
  let fib ← P.openflow.updateFib m.openflowUpdateState (P.ecs.ranges ec)
  return m.setCur { m.cur with fib := fib }

def getPayloadFromModel (P : Plankton) : Option (Option Payload) := do
  if m.cur.protoState = psTcpL7Req then
    let ec ← m.cur.dstIpEc
    let addr ← EqClass.representativeAddr (P.ecs.ranges ec)
    return some (Payload.request addr m.cur.dstPort)
  else if m.cur.protoState = psTcpL7Rep then
    return some Payload.reply
  else
    return none

end Model

end Neo
