import Neo.Network.RoutingTable
import Neo.Lib.Collect
import Mathlib.Data.List.Lex

/-! Nodes, interfaces and L2 LANs, and the lookup of next hops. Nodes and interfaces are objects
at addresses; sets of next hops are in the order of those addresses. -/

namespace Neo

/-- A `Node *` that is not null. -/
abbrev NodePtr := Nat

/-- An `Interface *` that is not null. -/
abbrev IntfPtr := Nat

instance lawfulBEq_intfPtr : LawfulBEq (NodePtr × IntfPtr) := inferInstance

structure Interface where
  name : IntfName
  ipv4 : IPInterface
  isSwitchport : Bool

namespace Interface

def isL2 (i : Interface) : Bool := i.isSwitchport

def addr (i : Interface) : IPv4Address := i.ipv4.addr

end Interface

structure Node where
  intfs : List IntfPtr
  rib : RoutingTable
  rib_ranked : Ordered.WeakSorted Route.lt rib
  /-- Peers by the names of the node's interfaces. -/
  l2Peers : List (IntfName × NodePtr × IntfPtr)
  isEmulated : Bool

structure L2Lan where
  l2Endpoints : List (NodePtr × IntfPtr)
  l3Endpoints : List (IPv4Address × NodePtr × IntfPtr)

namespace L2Lan

/-- `l3_endpoints[addr] = peer`. -/
def setL3Endpoint (lan : L2Lan) (addr : IPv4Address) (peer : NodePtr × IntfPtr) : L2Lan :=
  { lan with l3Endpoints := (addr, peer) :: lan.l3Endpoints.filter fun ep => ep.1 ≠ addr }

def findL3Endpoint (lan : L2Lan) (dst : IPv4Address) : Option (NodePtr × IntfPtr) :=
  lan.l3Endpoints.lookup dst

end L2Lan

structure Topology where
  nodes : List NodePtr
  node : NodePtr → Node
  intf : IntfPtr → Interface
  peer_mem : ∀ n p, p ∈ (node n).l2Peers → p.2.1 ∈ nodes ∧ p.2.2 ∈ (node p.2.1).intfs

namespace Topology

variable (t : Topology)

def intfsL2 (n : NodePtr) : List IntfPtr := (t.node n).intfs.filter fun i => (t.intf i).isL2

def intfsL3 (n : NodePtr) : List IntfPtr := (t.node n).intfs.filter fun i => !(t.intf i).isL2

def hasIp (n : NodePtr) (addr : IPv4Address) : Bool :=
  (t.intfsL3 n).any fun i => (t.intf i).addr = addr

def getPeer (n : NodePtr) (name : IntfName) : Option (NodePtr × IntfPtr) :=
  (t.node n).l2Peers.lookup name

/-- `collect_intfs`; `none` where the fuel runs out. -/
def collectIntfs : Nat → NodePtr → L2Lan → Option L2Lan
  | 0, _, _ => none
  | fuel + 1, n, lan => (t.intfsL2 n).foldlM (fun lan i =>
      if (n, i) ∈ lan.l2Endpoints then some lan
      else
        let lan := { lan with l2Endpoints := (n, i) :: lan.l2Endpoints }
        match t.getPeer n (t.intf i).name with
        | none => some lan
        | some peer =>
          -- a host or router ends the search, a switch continues it
          if !(t.intf peer.2).isL2 then some (lan.setL3Endpoint (t.intf peer.2).addr peer)
          else if peer ∈ lan.l2Endpoints then some lan
          else collectIntfs fuel peer.1 lan) lan

/-- A LAN that the constructor of `L2_LAN` built. -/
def BuildsLan (lan : L2Lan) : Prop := ∃ fuel n, t.collectIntfs fuel n ⟨[], []⟩ = some lan

end Topology

structure Network extends Topology where
  l2Lan : NodePtr → IntfPtr → L2Lan
  lan_built : ∀ n i, toTopology.BuildsLan (l2Lan n i)

/-- `FIB_IPNH`. Both interfaces are null where the node itself accepts. -/
structure FibIpnh where
  l3Node : NodePtr
  l3Intf : Option IntfPtr
  l2Node : NodePtr
  l2Intf : Option IntfPtr
deriving DecidableEq

namespace FibIpnh

/-- The four pointers in the order `operator<` compares them, null being the least. -/
def key (h : FibIpnh) : List Nat :=
  [h.l3Node, h.l3Intf.elim 0 (· + 1), h.l2Node, h.l2Intf.elim 0 (· + 1)]

def lt (a b : FibIpnh) : Prop := a.key < b.key

instance : DecidableRel lt := fun a b => inferInstanceAs (Decidable (a.key < b.key))

theorem key_injective : Function.Injective key := by
  rintro ⟨n₁, i₁, n₂, i₂⟩ ⟨m₁, j₁, m₂, j₂⟩ h
  simp only [key, List.cons.injEq, and_true] at h
  obtain ⟨rfl, hi, rfl, hj⟩ := h
  have hopt : Function.Injective fun o : Option IntfPtr => o.elim 0 (· + 1) := by
    rintro (_ | _) (_ | _) hab <;> simp_all
  rw [hopt hi, hopt hj]

instance : IsTrans FibIpnh lt := ⟨fun a b c => @lt_trans (List Nat) _ a.key b.key c.key⟩

instance : Std.Trichotomous lt := ⟨fun _ _ hab hba =>
  key_injective (le_antisymm (not_lt.mp hba) (not_lt.mp hab))⟩

instance : Std.Irrefl lt := ⟨fun a => lt_irrefl (a := a.key)⟩

def accept (n : NodePtr) : FibIpnh := ⟨n, none, n, none⟩

end FibIpnh

namespace Network

variable (net : Network)

/-- `get_ipnh`; `none` where the next hop does not exist. -/
def getIpnh (n : NodePtr) (egressIntf : IntfName) (dst : IPv4Address) : Option FibIpnh :=
  match net.getPeer n egressIntf with
  | none => none
  | some (l2Node, l2Intf) =>
    if !(net.intf l2Intf).isL2 then some ⟨l2Node, some l2Intf, l2Node, some l2Intf⟩
    else ((net.l2Lan l2Node l2Intf).findL3Endpoint dst).map fun (l3Node, l3Intf) =>
      ⟨l3Node, some l3Intf, l2Node, some l2Intf⟩

def routeItems (n : NodePtr) (rib : RoutingTable) (dst : IPv4Address) :
    List (IPv4Address ⊕ Option FibIpnh) :=
  (rib.lookup dst).map fun r =>
    if r.egressIntf = 0 then .inl r.nextHop
    else .inr (if net.hasIp n dst then some (.accept n) else net.getIpnh n r.egressIntf dst)

/-- `get_ipnhs` over a table. A middlebox has none. -/
def getIpnhs (n : NodePtr) (rib : RoutingTable) (dst : IPv4Address) : Option (List FibIpnh) :=
  if (net.node n).isEmulated then some []
  else (Collect.collect FibIpnh.lt (net.routeItems n rib) (rib.length + 2) dst []).map Prod.fst

end Network

end Neo
