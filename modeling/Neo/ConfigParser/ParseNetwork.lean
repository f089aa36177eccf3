import Mathlib.Logic.Function.Defs
import Neo.ConfigParser.ParseNode
import Neo.Network.L2Lans
import Neo.Process.Openflow

/-! The network of a configuration. Nodes and interfaces are found by name, and the objects are
somewhere in memory. -/

namespace Neo

namespace ConfigParser

/-- The memory: where the objects are, in which order a hash table of nodes is walked, and what an
address is that nothing has been assigned to. -/
structure Layout where
  node : Text → NodePtr
  intf : Text → Text → IntfPtr
  order : List NodePtr → List NodePtr
  unset : IPv4Address
  node_injective : Function.Injective node
  intf_injective : Function.Injective2 intf
  order_perm : ∀ l, (order l).Perm l

/-- `_nodes`, in the order in which they were added. -/
structure Nodes where
  decls : List NodeDecl
  names_nodup : (decls.map fun d => d.name).Nodup

namespace Nodes

def empty : Nodes := ⟨[], List.nodup_nil⟩

def addNode (ns : Nodes) (d : NodeDecl) : Except Text Nodes :=
  if h : d.name ∈ ns.decls.map fun d => d.name then .error ("Duplicate node: ".toList ++ d.name)
  else .ok ⟨ns.decls ++ [d], Fallible.nodup_map_append ns.names_nodup h⟩

/-- `nodes.find`, or the error where the node is not there. -/
def find (ns : Nodes) (name : Text) : Except Text NodeDecl :=
  match ns.decls.find? fun d => d.name = name with
  | some d => .ok d
  | none => .error ("Unknown node: ".toList ++ name)

end Nodes

/-! ### Objects in memory -/

def NamedIntf.interface (i : NamedIntf) : Interface where
  name := .ofText i.name
  ipv4 := i.ipv4.getD ⟨0#32, 0, zero_le_32⟩
  isSwitchport := i.ipv4.isNone

def noIntf : Interface := ⟨0, ⟨0#32, 0, zero_le_32⟩, true⟩

/-- The node without peers. Its interfaces are in the order of a `set<Interface *>`. -/
def NodeDecl.node (M : Layout) (d : NodeDecl) : Node where
  intfs := Ordered.ofList (· < ·) (d.intfs.map fun i => M.intf d.name i.name)
  rib := d.rib
  rib_ranked := d.rib_ranked
  l2Peers := []
  isEmulated := d.docker.isSome

def noNode : Node := ⟨[], [], Route.weakSorted_nil, [], false⟩

namespace Nodes

def heap (M : Layout) (ns : Nodes) : List (IntfPtr × Interface) :=
  ns.decls.flatMap fun d => d.intfs.map fun i => (M.intf d.name i.name, i.interface)

def nodeAt (M : Layout) (ns : Nodes) (n : NodePtr) : Node :=
  ((ns.decls.find? fun d => M.node d.name = n).map (·.node M)).getD noNode

theorem l2Peers_nodeAt (M : Layout) (ns : Nodes) (n : NodePtr) : (ns.nodeAt M n).l2Peers = [] := by
  unfold nodeAt
  cases ns.decls.find? fun d => M.node d.name = n <;> rfl

theorem no_peers (M : Layout) (ns : Nodes) (nodes : List NodePtr) (n : NodePtr)
    (p : IntfName × NodePtr × IntfPtr) (hp : p ∈ (ns.nodeAt M n).l2Peers) :
    p.2.1 ∈ nodes ∧ p.2.2 ∈ (ns.nodeAt M p.2.1).intfs := by
  rw [l2Peers_nodeAt] at hp
  exact absurd hp (List.not_mem_nil)

def topology (M : Layout) (ns : Nodes) : Topology where
  nodes := M.order (ns.decls.map fun d => M.node d.name)
  node := ns.nodeAt M
  intf i := ((ns.heap M).lookup i).getD noIntf
  peer_mem := ns.no_peers M _

end Nodes

/-! ### Links -/

structure NamedLink extends Topology.Link where
  name1 : Text
  name2 : Text
deriving DecidableEq

namespace NamedLink

def normalize (l : NamedLink) : NamedLink :=
  if l.node1 > l.node2 then ⟨⟨l.node2, l.intf2, l.node1, l.intf1⟩, l.name2, l.name1⟩ else l

def between (M : Layout) (node1 : NodeDecl) (intf1 : NamedIntf) (node2 : NodeDecl)
    (intf2 : NamedIntf) : NamedLink where
  node1 := M.node node1.name
  intf1 := M.intf node1.name intf1.name
  node2 := M.node node2.name
  intf2 := M.intf node2.name intf2.name
  name1 := intf1.name
  name2 := intf2.name

end NamedLink

def parseLink (M : Layout) (ns : Nodes) (cfg : LinkTbl) : Except Text NamedLink := do
  let node1Name ← require "Missing node1" cfg.node1
  let intf1Name ← require "Missing intf1" cfg.intf1
  let node2Name ← require "Missing node2" cfg.node2
  let intf2Name ← require "Missing intf2" cfg.intf2
  let node1 ← ns.find node1Name
  let node2 ← ns.find node2Name
  let intf1 ← node1.getInterface intf1Name
  let intf2 ← node2.getInterface intf2Name
  let link := NamedLink.between M node1 intf1 node2 intf2
  -- a node is not linked to itself
  reject (link.node1 = link.node2)
    ("Invalid link: ".toList ++ node1.name ++ ":".toList ++ intf1.name ++ " --- ".toList ++
      node2.name ++ ":".toList ++ intf2.name)
  return link.normalize

/-- `add_peer` of a node of the network. -/
def addPeer (t : Topology) (n : NodePtr) (i : IntfPtr) (intfName : Text)
    (peer : NodePtr × IntfPtr) : Except Text Topology :=
  match t.addPeer n i peer with
  | some t => .ok t
  | none => .error ("Two peers on interface: ".toList ++ intfName)

/-- `add_link`, which ignores links that are given again. -/
def addLink (st : Topology × List Topology.Link) (l : NamedLink) :
    Except Text (Topology × List Topology.Link) :=
  if l.toLink ∈ st.2 then .ok st
  else do
    let t ← addPeer st.1 l.node1 l.intf1 l.name1 (l.node2, l.intf2)
    let t ← addPeer t l.node2 l.intf2 l.name2 (l.node1, l.intf1)
    return (t, l.toLink :: st.2)

/-! ### The network -/

structure ParsedNetwork where
  nodes : Nodes
  topology : Topology
  links : List Topology.Link

/-- `parse_network`, up to the loop that populates the L2 LANs. -/
def parseNetwork (H : DockerHost) (M : Layout) (cfg : NetworkTbl) : Except Text ParsedNetwork := do
  let nodes ← (cfg.nodes.getD []).foldlM (fun ns cfg =>
    parseNodeDecl H M.unset cfg >>= ns.addNode) Nodes.empty
  let (topology, links) ← (cfg.links.getD []).foldlM (fun st cfg =>
    parseLink M nodes cfg >>= addLink st) (nodes.topology M, [])
  return ⟨nodes, topology, links⟩

end ConfigParser

end Neo
