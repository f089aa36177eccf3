import Neo.Process.Forwarding

/-! The process that chooses the next connection, the one that installs updates, and the switch
between the processes. -/

namespace Neo

namespace ConnState

def isFinished (c : ConnState) : Bool :=
  c.executable == 0 && (c.fwdMode == .dropped || c.fwdMode == .accepted && c.protoState.isLast)

end ConnState

namespace Model

variable (P : Plankton) (m : Model)

/-- `get_conn_map`: the connections that are not finished, by how executable they are. -/
def connMap (executable : Fin 3) : List Nat :=
  (List.range m.numConns).filter fun conn =>
    !(m.connState conn).isFinished && (m.connState conn).executable == executable

def updateChoiceCount : Model :=
  if m.connMap 2 ≠ [] then m.setChoiceCount 1
  else if m.connMap 1 ≠ [] then m.setChoiceCount (m.connMap 1).length
  else if m.connMap 0 ≠ [] then m.setChoiceCount 1
  else m.setChoiceCount 0

/-- The connection `exec_step` sets, and what it does to it. -/
def pickConn : Option Model :=
  match m.connMap 2, m.connMap 1, m.connMap 0 with
  | conn :: _, _, _ => do
    assert (m.choice == 0)
    return m.setConn conn
  | [], c :: cs, _ => do
    -- all others wait in front of middleboxes: any of them may enter
    let conn ← (c :: cs)[m.choice]?
    let m := m.setConn conn
    return m.setCur { m.cur with executable := 2 }
  | [], [], conn :: _ => do
    -- only frozen connections are left: the first one is dropped
    assert (m.choice == 0)
    let m := m.setConn conn
    if m.cur.fwdMode ≠ .dropped ∧ ¬(m.cur.fwdMode = .accepted ∧ m.cur.protoState.isLast) then
      return m.setCur { m.cur with fwdMode := .dropped }
    else
      return m
  | [], [], [] => none

/-- `ChooseConnProcess::exec_step`. -/
def execChooseConn : Option Model := do
  let m ← m.pickConn
  if m.cur.fwdMode = .forwardPacket ∨ m.cur.fwdMode = .firstForward then
    -- the candidates were stored before the connection had to wait
    let candidates ← m.cur.candidates
    return m.setChoiceCount candidates.length
  else
    return m.setChoiceCount 1

def installUpdate : Option Model := do
  if m.choice = 0 then
    -- not now: forwarding goes on
    return m.setChoiceCount 1
  else
    let n := m.cur.pktLocation
    let nodeOrder ← P.openflow.nodeOrder n
    let allUpdates := P.openflow.updatesOf n
    let numInstalled ← m.openflowUpdateState.numOfInstalledUpdates nodeOrder
    let st ← m.openflowUpdateState.installUpdateAt nodeOrder
    let m := m.setOpenflowUpdateState st
    let m := m.setChoiceCount (if numInstalled + 1 < allUpdates.length then 2 else 1)
    let ec ← m.cur.dstIpEc
    let nextHops ←
      OpenflowProcess.newNextHops P.network n allUpdates numInstalled (P.ecs.ranges ec)
    -- only the FIB of the connection in charge is written
    return m.setCur { m.cur with fib := m.cur.fib.setIpnhs n nextHops }

/-- `OpenflowProcess::exec_step`. -/
def execOpenflow : Option Model :=
  if P.openflow.updates = [] then some m else m.installUpdate P

def checkToSwitchProcess : Option Model :=
  if m.cur.executable ≠ 2 then
    some (m.setProcessId .chooseConn).updateChoiceCount
  else
    match m.processId with
    | .chooseConn => some (m.setProcessId .forwarding)
    | .forwarding =>
      if m.cur.fwdMode = .collectNhops ∨ m.cur.fwdMode = .firstCollect then do
        -- next hops are looked up in the next step, so updates come first
        if ← P.openflow.hasUpdates m.cur.pktLocation m.openflowUpdateState then
          return (m.setProcessId .openflow).setChoiceCount 2
        else
          return m
      else some m
    | .openflow => some (if m.choiceCount = 1 then m.setProcessId .forwarding else m)

end Model

end Neo
