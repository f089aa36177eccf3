import Neo.EqClass.EqClassMgr
import Neo.Network.Network

/-! OpenFlow updates and the FIB. The updates of a node are installed in order; how many of them
are installed is a counter per node, in the order of nodes. -/

namespace Neo

/-- An `EqClass` object, its ranges in the order of addresses. -/
abbrev EqClass := List ECRange

/-- `representative_addr`; `none` where the class has no ranges. -/
def EqClass.representativeAddr (ec : EqClass) : Option IPv4Address := ec.head?.map fun r => r.lb

/-- The loop of `relevant_to_ec`: every range of the class must agree with the first one. -/
def Route.relevantToRange (route : Route) (fullyContained : Option Bool) (range : ECRange) :
    Option (Option Bool) :=
  match fullyContained with
  | none => some (some (route.network.containsRange range.toIPRange))
  | some b => if route.network.containsRange range.toIPRange ≠ b then none else some (some b)

/-- `relevant_to_ec`; `none` where the route splits the class. -/
def Route.relevantToEc (route : Route) (ec : EqClass) : Option Bool :=
  (ec.foldlM route.relevantToRange none).map fun fullyContained => fullyContained.getD false

/-- The number of installed updates of each node, by its position in the updates. -/
abbrev OpenflowUpdateState := List Nat

namespace OpenflowUpdateState

def numOfInstalledUpdates (st : OpenflowUpdateState) (nodeOrder : Nat) : Option Nat :=
  st[nodeOrder]?

def installUpdateAt (st : OpenflowUpdateState) (nodeOrder : Nat) : Option OpenflowUpdateState :=
  if nodeOrder < st.length then some (st.modify nodeOrder (· + 1)) else none

end OpenflowUpdateState

/-- The updates by node, in the order of nodes. Only nodes of the network that are not emulated
have updates. -/
structure OpenflowProcess (t : Topology) where
  updates : List (NodePtr × List Route)
  sorted : updates.Pairwise fun p q => p.1 < q.1
  node_mem : ∀ p ∈ updates, p.1 ∈ t.nodes ∧ (t.node p.1).isEmulated = false

/-- The loop over installed updates: those relevant to the class go into the table. -/
def applyUpdates (add : RoutingTable → Route → RoutingTable) (ec : EqClass) (rib : RoutingTable)
    (installed : List Route) : Option RoutingTable :=
  installed.foldlM (fun rib update =>
    (update.relevantToEc ec).map fun relevant => if relevant then add rib update else rib) rib

/-- A `FIB`: the next hops of the nodes that have an entry. -/
abbrev FIB := NodePtr → Option (List FibIpnh)

def FIB.setIpnhs (fib : FIB) (n : NodePtr) (nextHops : List FibIpnh) : FIB :=
  fun m => if m = n then some nextHops else fib m

namespace OpenflowProcess

variable {net : Network}

def updatesOf {t : Topology} (of : OpenflowProcess t) (n : NodePtr) : List Route :=
  (of.updates.lookup n).getD []

/-- The position of a node that has updates. -/
def nodeOrder {t : Topology} (of : OpenflowProcess t) (n : NodePtr) : Option Nat :=
  of.updates.findIdx? fun p => p.1 = n

def hasUpdates {t : Topology} (of : OpenflowProcess t) (n : NodePtr) (st : OpenflowUpdateState) :
    Option Bool :=
  match of.nodeOrder n with
  | none => some false
  | some i => (st.numOfInstalledUpdates i).map fun num => num < (of.updatesOf n).length

/-- The next hops of an address at a node with installed updates; `none` where there are not as
many updates. -/
def installedNextHops (net : Network) (n : NodePtr) (updates : List Route) (numInstalled : Nat)
    (ec : EqClass) (addr : IPv4Address) : Option (List FibIpnh) :=
  if numInstalled ≤ updates.length then
    (applyUpdates RoutingTable.update ec (net.node n).rib (updates.take numInstalled)).bind
      fun rib => net.getIpnhs n rib addr
  else none

/-- The loop of `get_installed_updates` over the nodes: an entry for each that has next hops. -/
def installedEntries (net : Network) (ec : EqClass) (addr : IPv4Address) :
    List (NodePtr × List Route) → OpenflowUpdateState → Option (List (NodePtr × List FibIpnh))
  | [], _ => some []
  | _ :: _, [] => none
  | (n, updates) :: rest, num :: st =>
    (installedNextHops net n updates num ec addr).bind fun nextHops =>
      (installedEntries net ec addr rest st).map fun entries =>
        if nextHops = [] then entries else (n, nextHops) :: entries

/-- `update_fib` for one address of the class. -/
def fibFor (of : OpenflowProcess net.toTopology) (st : OpenflowUpdateState) (ec : EqClass)
    (addr : IPv4Address) : Option FIB :=
  (net.nodes.foldlM (fun (fib : FIB) n =>
    (net.getIpnhs n (net.node n).rib addr).map (fib.setIpnhs n)) fun _ => none).bind fun fib =>
      (installedEntries net ec addr of.updates st).map fun entries =>
        entries.foldl (fun fib e => fib.setIpnhs e.1 e.2) fib

/-- `Model::update_fib`: the next hops of the representative address. -/
def updateFib (of : OpenflowProcess net.toTopology) (st : OpenflowUpdateState) (ec : EqClass) :
    Option FIB :=
  ec.representativeAddr.bind (of.fibFor st ec)

/-- The next hops that `install_update` writes for a node, with `numInstalled` updates installed
before. Earlier updates are inserted, the installed one replaces its network. -/
def newNextHops (net : Network) (n : NodePtr) (updates : List Route) (numInstalled : Nat)
    (ec : EqClass) : Option (List FibIpnh) :=
  updates[numInstalled]?.bind fun update =>
    (applyUpdates RoutingTable.insert ec (net.node n).rib (updates.take numInstalled)).bind
      fun rib => ec.representativeAddr.bind (net.getIpnhs n (rib.update update))

end OpenflowProcess

end Neo
