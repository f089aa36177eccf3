import Mathlib.Data.List.MinMax
import Neo.Ip
import Neo.Lib.FirstHop

/-! The synthesis of networks from graphs. Every link gets a subnet, and every node gets rules that
send each subnet the way of a search of its own. -/

namespace Neo

/-- `ipaddress.IPv4Address` of a number; `none` where it raises an error. -/
def ipv4Address (n : Nat) : Option IPv4Address :=
  if n < 2 ^ 32 then some (BitVec.ofNat 32 n) else none

/-- `ipaddress.ip_network`; `none` where it raises an error. -/
def ipNetwork (addr : IPv4Address) (prefixLength : Nat) : Option IPNetwork :=
  if h : prefixLength ≤ 32 ∧ addr &&& hostMask prefixLength = 0#32 then
    some ⟨⟨addr, prefixLength, h.1⟩, h.2⟩
  else none

structure SetOrder (α : Type) where
  iter : List α → List α
  perm : ∀ l, (iter l).Perm l

/-- `ipaddress.collapse_addresses`, which covers the same addresses. -/
structure Collapse where
  collapse : List IPNetwork → List IPNetwork
  exact : ∀ nets a, (∃ n ∈ collapse nets, n.contains a = true) ↔ ∃ n ∈ nets, n.contains a = true

structure NetSynthesizer (α : Type) where
  nodes : List α
  neighbors : α → List α
  subnets : List ((α × α) × IPNetwork)
  nodeToInterfaces : α → List (String × IPv4Address)
  interfaceToNode : IPv4Address → Option α
  interfaceLinks : IPv4Address → Option IPv4Address
  links : List (α × String × α × String)
  subnet : Nat

namespace NetSynthesizer

variable {α : Type} [DecidableEq α]

def empty : NetSynthesizer α :=
  ⟨[], fun _ => [], [], fun _ => [], fun _ => none, fun _ => none, [], 0⟩

variable (s : NetSynthesizer α)

def addNode (n : α) : NetSynthesizer α :=
  { s with nodes := if n ∈ s.nodes then s.nodes else s.nodes ++ [n] }

def addNeighbor (n m : α) : NetSynthesizer α :=
  let ms := if m ∈ s.neighbors n then s.neighbors n else s.neighbors n ++ [m]
  { s with neighbors := Function.update s.neighbors n ms }

def nextIntf (n : α) : String := "eth" ++ toString (s.nodeToInterfaces n).length

def addInterface (n : α) (name : String) (ip : IPv4Address) : NetSynthesizer α :=
  { s with
    nodeToInterfaces := Function.update s.nodeToInterfaces n (s.nodeToInterfaces n ++ [(name, ip)])
    interfaceToNode := Function.update s.interfaceToNode ip (some n) }

def addInterfaceLink (ip₁ ip₂ : IPv4Address) : NetSynthesizer α :=
  if s.interfaceLinks ip₁ = none then
    { s with interfaceLinks :=
        Function.update (Function.update s.interfaceLinks ip₁ (some ip₂)) ip₂ (some ip₁) }
  else s

def addSubnet (n m : α) : Option (NetSynthesizer α) := do
  let addr ← ipv4Address s.subnet
  let ip₁ ← ipv4Address (s.subnet + 1)
  let ip₂ ← ipv4Address (s.subnet + 2)
  -- a /30 network has the addresses for two interfaces
  let net ← ipNetwork addr 30
  let if₁ := s.nextIntf n
  let if₂ := s.nextIntf m
  let s' := ((s.addInterface n if₁ ip₁).addInterface m if₂ ip₂).addInterfaceLink ip₁ ip₂
  return { s' with
    subnets := s.subnets ++ [((n, m), net)]
    links := s.links ++ [(n, if₁, m, if₂)]
    subnet := s.subnet + 4 }

def hasSubnet (n m : α) : Bool := s.subnets.any fun e => e.1 = (n, m)

def addLink (s : NetSynthesizer α) (link : α × α) : Option (NetSynthesizer α) :=
  if link.1 = link.2 then some s
  else
    let s := (s.addNode link.1).addNode link.2
    let s := (s.addNeighbor link.1 link.2).addNeighbor link.2 link.1
    if s.hasSubnet link.1 link.2 || s.hasSubnet link.2 link.1 then some s
    else s.addSubnet link.1 link.2

/-- The network of some links; `none` where there are more links than subnets. -/
def ofLinks (links : List (α × α)) : Option (NetSynthesizer α) := links.foldlM addLink empty

def getDstInterface (src dst : α) : Option IPv4Address :=
  (s.nodeToInterfaces src).findSome? fun i => do
    let di ← s.interfaceLinks i.2
    let dn ← s.interfaceToNode di
    if dn = dst then some di else none

def subnetToParent (src : α) (parent : α → Option α) : List (IPNetwork × α) :=
  s.subnets.filterMap fun e =>
    if e.1.1 ≠ src ∧ e.1.2 ≠ src then (parent e.1.1).map fun p => (e.2, p) else none

def parentToSubnet (m : List (IPNetwork × α)) : List (α × List IPNetwork) :=
  (m.map Prod.snd).eraseDups.map fun p => (p, (m.filter fun e => e.2 = p).map Prod.fst)

variable (C : Collapse) (O : SetOrder α)

def bfsParent (src : α) : Option (α → Option α) :=
  if src ∈ s.nodes then FirstHop.firstHops (fun n => O.iter (s.neighbors n)) s.nodes.length src
  else none

def synthesizeRules (src : α) : Option (List (IPNetwork × Option IPv4Address)) :=
  (s.bfsParent O src).map fun parent =>
    (parentToSubnet (s.subnetToParent src parent)).flatMap fun p =>
      (C.collapse p.2).map fun net => (net, s.getDstInterface src p.1)

inductive Via
  | link
  | nextHop (di : Option IPv4Address)

def table (n : α) : Option (List (IPNetwork × Via)) :=
  (s.synthesizeRules C O n).map fun rules =>
    ((s.nodeToInterfaces n).map fun i => ((⟨i.2, 30, by omega⟩ : IPInterface).network, .link)) ++
      rules.map fun r => (r.1, .nextHop r.2)

structure Longest (tbl : List (IPNetwork × Via)) (x : IPv4Address) (e : IPNetwork × Via) :
    Prop where
  mem : e ∈ tbl
  contains : e.1.contains x = true
  le : ∀ e' ∈ tbl, e'.1.contains x = true → e'.1.prefixLength ≤ e.1.prefixLength

/-- A packet to an address is sent to a next hop, which is at the other end of a link. -/
def Hop (x : IPv4Address) (n m : α) : Prop :=
  ∃ tbl, s.table C O n = some tbl ∧ ∃ net di, Longest tbl x (net, .nextHop (some di)) ∧
    (∃ i ∈ s.nodeToInterfaces n, s.interfaceLinks i.2 = some di) ∧
    s.interfaceToNode di = some m

/-- A packet to an address takes a way without repetitions to an end of a link, and no other. -/
def Delivers (x : IPv4Address) (n : α) (ends : α × α) : Prop :=
  ∃ path : List α, path.head? = some n ∧ path.IsChain (s.Hop C O x) ∧ path.Nodup ∧
    (∃ m ∈ path.getLast?, m = ends.1 ∨ m = ends.2) ∧
    ∀ run : List α, run.head? = some n → run.IsChain (s.Hop C O x) → run <+: path

/-! ### What the links build -/

variable {s}

theorem ipv4Address_eq_some {n : Nat} {a : IPv4Address} (h : ipv4Address n = some a) :
    n < 2 ^ 32 ∧ a = BitVec.ofNat 32 n := by
  rw [ipv4Address] at h
  split at h
  · rename_i hlt
    exact ⟨hlt, (Option.some.inj h).symm⟩
  · exact absurd h (by simp)

theorem ipNetwork_eq_some {addr : IPv4Address} {prefixLength : Nat} {net : IPNetwork}
    (h : ipNetwork addr prefixLength = some net) :
    net.addr = addr ∧ net.prefixLength = prefixLength := by
  rw [ipNetwork] at h
  split at h
  · obtain rfl := Option.some.inj h
    exact ⟨rfl, rfl⟩
  · exact absurd h (by simp)

@[simp] theorem mem_addNeighbor {n m k l : α} :
    l ∈ (s.addNeighbor n m).neighbors k ↔ l ∈ s.neighbors k ∨ k = n ∧ l = m := by
  dsimp only [addNeighbor]
  by_cases hk : k = n
  · subst hk
    rw [Function.update_self]
    split
    · rename_i hm
      exact ⟨.inl, fun h => h.elim id fun h => h.2 ▸ hm⟩
    · simp
  · rw [Function.update_of_ne hk]
    simp [hk]

theorem nodup_addNeighbor {n m k : α} (h : (s.neighbors k).Nodup) :
    ((s.addNeighbor n m).neighbors k).Nodup := by
  dsimp only [addNeighbor]
  by_cases hk : k = n
  · subst hk
    rw [Function.update_self]
    split
    · exact h
    · rename_i hm
      exact List.nodup_append.mpr ⟨h, List.nodup_singleton m, fun a ha b hb hab => hm (by
        rw [List.mem_singleton] at hb
        rw [← hb, ← hab]
        exact ha)⟩
  · rw [Function.update_of_ne hk]
    exact h

@[simp] theorem mem_addNode {n m : α} : m ∈ (s.addNode n).nodes ↔ m ∈ s.nodes ∨ m = n := by
  dsimp only [addNode]
  split
  · rename_i hn
    exact ⟨.inl, fun h => h.elim id fun h => h ▸ hn⟩
  · simp

/-- The subnets have the multiples of four in order as their addresses, and their interfaces are
at the ends of the links. -/
structure Built (s : NetSynthesizer α) : Prop where
  subnet : s.subnet = 4 * s.subnets.length
  ne : ∀ e ∈ s.subnets, e.1.1 ≠ e.1.2
  net : ∀ i e, s.subnets[i]? = some e → e.2.prefixLength = 30 ∧ e.2.addr.toNat = 4 * i
  neighbor : ∀ n m, m ∈ s.neighbors n ↔ ∃ e ∈ s.subnets, e.1 = (n, m) ∨ e.1 = (m, n)
  nodup : ∀ n, (s.neighbors n).Nodup
  node : ∀ n m, m ∈ s.neighbors n → m ∈ s.nodes
  intf : ∀ n a, (∃ i ∈ s.nodeToInterfaces n, i.2 = a) ↔
    ∃ e ∈ s.subnets, e.1.1 = n ∧ a = e.2.addr + 1 ∨ e.1.2 = n ∧ a = e.2.addr + 2
  toNode : ∀ e ∈ s.subnets, s.interfaceToNode (e.2.addr + 1) = some e.1.1 ∧
    s.interfaceToNode (e.2.addr + 2) = some e.1.2
  toLink : ∀ e ∈ s.subnets, s.interfaceLinks (e.2.addr + 1) = some (e.2.addr + 2) ∧
    s.interfaceLinks (e.2.addr + 2) = some (e.2.addr + 1)
  fresh : ∀ a, s.interfaceLinks a ≠ none → a.toNat < s.subnet

omit [DecidableEq α] in
theorem built_empty : Built (empty : NetSynthesizer α) := by
  constructor <;> simp [empty]

structure Extends (s s' : NetSynthesizer α) (n m : α) (net : IPNetwork) : Prop where
  prefixLength : net.prefixLength = 30
  addr : net.addr.toNat = s.subnet
  lt : s.subnet + 2 < 2 ^ 32
  nodes : s'.nodes = s.nodes
  neighbors : s'.neighbors = s.neighbors
  subnets : s'.subnets = s.subnets ++ [((n, m), net)]
  intf : ∀ k a, (∃ i ∈ s'.nodeToInterfaces k, i.2 = a) ↔
    (∃ i ∈ s.nodeToInterfaces k, i.2 = a) ∨ n = k ∧ a = net.addr + 1 ∨ m = k ∧ a = net.addr + 2
  toNode : s'.interfaceToNode = Function.update (Function.update s.interfaceToNode
    (net.addr + 1) (some n)) (net.addr + 2) (some m)
  toLink : s.interfaceLinks (net.addr + 1) = none → s'.interfaceLinks =
    Function.update (Function.update s.interfaceLinks (net.addr + 1) (some (net.addr + 2)))
      (net.addr + 2) (some (net.addr + 1))
  subnet : s'.subnet = s.subnet + 4

theorem mem_addInterface {n k : α} {name : String} {ip a : IPv4Address} :
    (∃ i ∈ (s.addInterface n name ip).nodeToInterfaces k, i.2 = a) ↔
      (∃ i ∈ s.nodeToInterfaces k, i.2 = a) ∨ n = k ∧ a = ip := by
  dsimp only [addInterface]
  by_cases hk : k = n
  · subst hk
    simp [Function.update_self, or_and_right, exists_or, eq_comm]
  · simp [Function.update_of_ne hk, Ne.symm hk]

theorem extends_of_addSubnet {s' : NetSynthesizer α} {n m : α} (h : s.addSubnet n m = some s') :
    ∃ net, Extends s s' n m net := by
  simp only [addSubnet, Option.bind_eq_bind, Option.bind_eq_some_iff] at h
  obtain ⟨addr, haddr, ip₁, hip₁, ip₂, hip₂, net, hnet, hs⟩ := h
  obtain rfl := (Option.some.inj hs).symm
  obtain ⟨hlt, rfl⟩ := ipv4Address_eq_some haddr
  obtain ⟨-, rfl⟩ := ipv4Address_eq_some hip₁
  obtain ⟨hlt₂, rfl⟩ := ipv4Address_eq_some hip₂
  obtain ⟨hnetaddr, hlen⟩ := ipNetwork_eq_some hnet
  have hone : BitVec.ofNat 32 (s.subnet + 1) = net.addr + 1 := by
    rw [hnetaddr, BitVec.ofNat_add]
    rfl
  have htwo : BitVec.ofNat 32 (s.subnet + 2) = net.addr + 2 := by
    rw [hnetaddr, BitVec.ofNat_add]
    rfl
  refine ⟨net, hlen, ?_, hlt₂, ?_, ?_, rfl, fun k a => ?_, ?_, fun hnone => ?_, rfl⟩
  · rw [hnetaddr, BitVec.toNat_ofNat, Nat.mod_eq_of_lt hlt]
  · dsimp only [addInterfaceLink]
    split <;> rfl
  · dsimp only [addInterfaceLink]
    split <;> rfl
  · rw [hone, htwo]
    have hlink : ∀ t : NetSynthesizer α, (t.addInterfaceLink (net.addr + 1)
        (net.addr + 2)).nodeToInterfaces = t.nodeToInterfaces := by
      intro t
      rw [addInterfaceLink]
      split <;> rfl
    dsimp only
    rw [hlink, mem_addInterface, mem_addInterface, or_assoc]
  · rw [hone, htwo]
    dsimp only [addInterfaceLink]
    split <;> rfl
  · rw [hone, htwo]
    -- the new interfaces are not linked yet, so `addInterfaceLink` links them
    have hnone' : ((s.addInterface n (s.nextIntf n) (net.addr + 1)).addInterface m (s.nextIntf m)
        (net.addr + 2)).interfaceLinks (net.addr + 1) = none := hnone
    dsimp only [addInterfaceLink]
    rw [if_pos hnone']
    rfl

omit [DecidableEq α] in
theorem Built.addr_lt (h : Built s) {e : (α × α) × IPNetwork} (he : e ∈ s.subnets) :
    e.2.addr.toNat % 4 = 0 ∧ e.2.addr.toNat + 4 ≤ s.subnet := by
  obtain ⟨i, hi⟩ := List.mem_iff_getElem?.mp he
  have hlt := (List.getElem?_eq_some_iff.mp hi).1
  have hsubnet := h.subnet
  rw [(h.net i e hi).2]
  omega

theorem toNat_add_intf {a : IPv4Address} (h : a.toNat + 2 < 2 ^ 32) :
    (a + 1).toNat = a.toNat + 1 ∧ (a + 2).toNat = a.toNat + 2 := by
  have hone : (1 : IPv4Address).toNat = 1 := rfl
  have htwo : (2 : IPv4Address).toNat = 2 := rfl
  rw [BitVec.toNat_add, BitVec.toNat_add, hone, htwo]
  exact ⟨Nat.mod_eq_of_lt (by omega), Nat.mod_eq_of_lt h⟩

omit [DecidableEq α] in
theorem Built.toNat_intf (h : Built s) {e : (α × α) × IPNetwork} (he : e ∈ s.subnets) :
    (e.2.addr + 1).toNat = e.2.addr.toNat + 1 ∧ (e.2.addr + 2).toNat = e.2.addr.toNat + 2 := by
  have hmod := (h.addr_lt he).1
  have hlt := e.2.addr.isLt
  exact toNat_add_intf (by omega)

omit [DecidableEq α] in
theorem Built.extend {s₁ s' : NetSynthesizer α} {n m : α} {net : IPNetwork}
    (h : Built s) (hext : Extends s₁ s' n m net) (hnm : n ≠ m)
    (hsubnets : s₁.subnets = s.subnets) (hsubnet : s₁.subnet = s.subnet)
    (hintf : s₁.nodeToInterfaces = s.nodeToInterfaces)
    (htoNode : s₁.interfaceToNode = s.interfaceToNode)
    (htoLink : s₁.interfaceLinks = s.interfaceLinks) (hnodup : ∀ k, (s₁.neighbors k).Nodup)
    (hneighbor : ∀ k l, l ∈ s₁.neighbors k ↔
      l ∈ s.neighbors k ∨ k = n ∧ l = m ∨ k = m ∧ l = n)
    (hnode : ∀ k l, l ∈ s₁.neighbors k → l ∈ s₁.nodes) : Built s' := by
  have hnet : net.addr.toNat = s.subnet := hext.addr.trans hsubnet
  have hmem : ∀ e, e ∈ s'.subnets ↔ e ∈ s.subnets ∨ e = ((n, m), net) := fun e => by
    rw [hext.subnets, hsubnets, List.mem_append, List.mem_singleton]
  have hlt := hext.lt
  rw [hsubnet] at hlt
  obtain ⟨hone, htwo⟩ := toNat_add_intf (a := net.addr) (by omega)
  rw [hnet] at hone htwo
  have hnone : s.interfaceLinks (net.addr + 1) = none := by
    by_contra hsome
    have := h.fresh _ hsome
    omega
  -- the addresses of the earlier subnets are not touched by the updates of the maps
  have hfar : ∀ a : IPv4Address, a.toNat < s.subnet → a ≠ net.addr + 1 ∧ a ≠ net.addr + 2 := by
    intro a ha
    refine ⟨fun heq => ?_, fun heq => ?_⟩
    · rw [heq, hone] at ha
      omega
    · rw [heq, htwo] at ha
      omega
  have hold : ∀ e ∈ s.subnets, (e.2.addr + 1).toNat < s.subnet ∧
      (e.2.addr + 2).toNat < s.subnet := by
    intro e he
    have hle := (h.addr_lt he).2
    rw [(h.toNat_intf he).1, (h.toNat_intf he).2]
    omega
  have htwoOne : net.addr + 1 ≠ net.addr + 2 := fun heq => by
    rw [heq] at hone
    omega
  constructor
  case subnet =>
    rw [hext.subnet, hsubnet, h.subnet, hext.subnets, hsubnets, List.length_append,
      List.length_singleton]
    omega
  case ne =>
    intro e he
    rcases (hmem e).mp he with he | rfl
    · exact h.ne e he
    · exact hnm
  case net =>
    intro i e hi
    rw [hext.subnets, hsubnets] at hi
    -- the new network is the last one of the list
    rcases Nat.lt_or_ge i s.subnets.length with hlt | hge
    · rw [List.getElem?_append_left hlt] at hi
      exact h.net i e hi
    · rw [List.getElem?_append_right hge, List.getElem?_singleton] at hi
      split at hi
      · obtain rfl := Option.some.inj hi
        have hsub := h.subnet
        exact ⟨hext.prefixLength, hnet.trans (by omega)⟩
      · exact absurd hi (by simp)
  case neighbor =>
    intro k l
    rw [hext.neighbors, hneighbor, h.neighbor]
    constructor
    · rintro (⟨e, he, hor⟩ | ⟨rfl, rfl⟩ | ⟨rfl, rfl⟩)
      · exact ⟨e, (hmem e).mpr (.inl he), hor⟩
      · exact ⟨_, (hmem _).mpr (.inr rfl), .inl rfl⟩
      · exact ⟨_, (hmem _).mpr (.inr rfl), .inr rfl⟩
    · rintro ⟨e, he, hor⟩
      rcases (hmem e).mp he with he | rfl
      · exact .inl ⟨e, he, hor⟩
      · simp only [Prod.mk.injEq] at hor
        exact .inr (hor.imp (fun hp => ⟨hp.1.symm, hp.2.symm⟩) fun hp => ⟨hp.2.symm, hp.1.symm⟩)
  case nodup => exact fun k => hext.neighbors ▸ hnodup k
  case node =>
    intro k l hl
    rw [hext.nodes]
    exact hnode k l (hext.neighbors ▸ hl)
  case intf =>
    intro k a
    rw [hext.intf, hintf, h.intf]
    constructor
    · rintro (⟨e, he, hor⟩ | hor)
      · exact ⟨e, (hmem e).mpr (.inl he), hor⟩
      · exact ⟨_, (hmem _).mpr (.inr rfl), hor⟩
    · rintro ⟨e, he, hor⟩
      rcases (hmem e).mp he with he | rfl
      · exact .inl ⟨e, he, hor⟩
      · exact .inr hor
  case toNode =>
    intro e he
    rw [hext.toNode, htoNode]
    rcases (hmem e).mp he with he | rfl
    · obtain ⟨h₁, h₂⟩ := hfar _ (hold e he).1
      obtain ⟨h₃, h₄⟩ := hfar _ (hold e he).2
      rw [Function.update_of_ne h₂, Function.update_of_ne h₁, Function.update_of_ne h₄,
        Function.update_of_ne h₃]
      exact h.toNode e he
    · rw [Function.update_of_ne htwoOne, Function.update_self, Function.update_self]
      exact ⟨rfl, rfl⟩
  case toLink =>
    intro e he
    rw [hext.toLink (htoLink ▸ hnone), htoLink]
    rcases (hmem e).mp he with he | rfl
    · obtain ⟨h₁, h₂⟩ := hfar _ (hold e he).1
      obtain ⟨h₃, h₄⟩ := hfar _ (hold e he).2
      rw [Function.update_of_ne h₂, Function.update_of_ne h₁, Function.update_of_ne h₄,
        Function.update_of_ne h₃]
      exact h.toLink e he
    · rw [Function.update_of_ne htwoOne, Function.update_self, Function.update_self]
      exact ⟨rfl, rfl⟩
  case fresh =>
    intro a ha
    rw [hext.toLink (htoLink ▸ hnone), htoLink] at ha
    rw [hext.subnet, hsubnet]
    by_cases h₂ : a = net.addr + 2
    · rw [h₂, htwo]
      omega
    · by_cases h₁ : a = net.addr + 1
      · rw [h₁, hone]
        omega
      · rw [Function.update_of_ne h₂, Function.update_of_ne h₁] at ha
        have := h.fresh a ha
        omega

theorem Built.addLink (h : Built s) {link : α × α} {s' : NetSynthesizer α}
    (hlink : s.addLink link = some s') : Built s' := by
  obtain ⟨n, m⟩ := link
  rw [NetSynthesizer.addLink] at hlink
  split at hlink
  · exact Option.some.inj hlink ▸ h
  rename_i hnm
  dsimp only at hlink hnm
  set s₁ := (((s.addNode n).addNode m).addNeighbor n m).addNeighbor m n with hs₁
  have hneighbor : ∀ k l, l ∈ s₁.neighbors k ↔
      l ∈ s.neighbors k ∨ k = n ∧ l = m ∨ k = m ∧ l = n := by
    intro k l
    rw [hs₁, mem_addNeighbor, mem_addNeighbor, or_assoc]
    rfl
  have hnodup : ∀ k, (s₁.neighbors k).Nodup := fun k =>
    nodup_addNeighbor (nodup_addNeighbor (h.nodup k))
  have hnode : ∀ k l, l ∈ s₁.neighbors k → l ∈ s₁.nodes := by
    intro k l hl
    have hnodes : l ∈ s₁.nodes ↔ (l ∈ s.nodes ∨ l = n) ∨ l = m := by
      rw [← mem_addNode, ← mem_addNode]
      rfl
    rw [hnodes]
    rcases (hneighbor k l).mp hl with hl | ⟨-, hl⟩ | ⟨-, hl⟩
    · exact .inl (.inl (h.node k l hl))
    · exact .inr hl
    · exact .inl (.inr hl)
  split at hlink
  · rename_i hhas
    obtain rfl := Option.some.inj hlink
    -- the link is known, and the neighbors are
    have hold : ∃ e ∈ s.subnets, e.1 = (n, m) ∨ e.1 = (m, n) := by
      rcases (Bool.or_eq_true ..).mp hhas with hhas | hhas
      · obtain ⟨e, he, heq⟩ := List.any_eq_true.mp hhas
        exact ⟨e, he, .inl (of_decide_eq_true heq)⟩
      · obtain ⟨e, he, heq⟩ := List.any_eq_true.mp hhas
        exact ⟨e, he, .inr (of_decide_eq_true heq)⟩
    have hsame : ∀ k l, l ∈ s₁.neighbors k ↔ l ∈ s.neighbors k := by
      intro k l
      rw [hneighbor]
      refine ⟨?_, .inl⟩
      rintro (hl | ⟨rfl, rfl⟩ | ⟨rfl, rfl⟩)
      · exact hl
      · exact (h.neighbor _ _).mpr hold
      · exact (h.neighbor _ _).mpr (hold.imp fun e he => ⟨he.1, he.2.symm⟩)
    exact ⟨h.subnet, h.ne, h.net, fun k l => (hsame k l).trans (h.neighbor k l), hnodup, hnode,
      h.intf, h.toNode, h.toLink, h.fresh⟩
  · obtain ⟨net, hext⟩ := extends_of_addSubnet hlink
    exact h.extend hext hnm rfl rfl rfl rfl rfl hnodup hneighbor hnode

theorem Built.foldlM (h : Built s) {links : List (α × α)} {s' : NetSynthesizer α}
    (hlinks : links.foldlM NetSynthesizer.addLink s = some s') : Built s' := by
  induction links generalizing s with
  | nil => exact Option.some.inj hlinks ▸ h
  | cons link links ih =>
    rw [List.foldlM_cons] at hlinks
    obtain ⟨s₁, hs₁, hrest⟩ := Option.bind_eq_some_iff.mp hlinks
    exact ih (h.addLink hs₁) hrest

theorem built_ofLinks {links : List (α × α)} (h : ofLinks links = some s) : Built s :=
  built_empty.foldlM h

/-! ### The subnets at a node -/

theorem contains_network (i : IPInterface) : i.network.contains i.addr = true := by
  have hor : i.network.broadcastAddr = i.addr ||| hostMask i.prefixLength := by
    apply BitVec.eq_of_getElem_eq
    intro k hk
    simp only [IPNetwork.broadcastAddr, IPInterface.network, BitVec.getElem_or,
      BitVec.getElem_and, BitVec.getElem_not]
    cases i.addr[k] <;> cases (hostMask i.prefixLength)[k] <;> rfl
  have hle : i.network.addr ≤ i.addr := by
    rw [BitVec.le_def]
    exact (BitVec.toNat_and ..).trans_le Nat.and_le_left
  rw [IPNetwork.contains, hor]
  simp only [Bool.and_eq_true, decide_eq_true_eq]
  exact ⟨hle, le_or_hostMask _ _⟩

omit [DecidableEq α] in
theorem Built.prefixLength (h : Built s) {e : (α × α) × IPNetwork} (he : e ∈ s.subnets) :
    e.2.prefixLength = 30 := by
  obtain ⟨i, hi⟩ := List.mem_iff_getElem?.mp he
  exact (h.net i e hi).1

omit [DecidableEq α] in
theorem Built.eq_of_contains (h : Built s) {e e' : (α × α) × IPNetwork} (he : e ∈ s.subnets)
    (he' : e' ∈ s.subnets) {x : IPv4Address} (hx : e.2.contains x = true)
    (hx' : e'.2.contains x = true) : e = e' := by
  obtain ⟨i, hi⟩ := List.mem_iff_getElem?.mp he
  obtain ⟨j, hj⟩ := List.mem_iff_getElem?.mp he'
  have hnet := IPNetwork.eq_of_contains hx hx' ((h.prefixLength he).trans (h.prefixLength he').symm)
  have hij : i = j := by
    have hi' := (h.net i e hi).2
    have hj' := (h.net j e' hj).2
    rw [hnet] at hi'
    omega
  rw [hij] at hi
  exact Option.some.inj (hi.symm.trans hj)

omit [DecidableEq α] in
theorem Built.contains_intf (h : Built s) {e : (α × α) × IPNetwork} (he : e ∈ s.subnets) :
    e.2.contains (e.2.addr + 1) = true ∧ e.2.contains (e.2.addr + 2) = true := by
  have hmod := (h.addr_lt he).1
  obtain ⟨hone, htwo⟩ := h.toNat_intf he
  rw [IPNetwork.contains_iff_div, IPNetwork.contains_iff_div, h.prefixLength he, hone, htwo]
  omega

def connected (i : String × IPv4Address) : IPNetwork := (⟨i.2, 30, by omega⟩ : IPInterface).network

omit [DecidableEq α] in
theorem Built.connected_iff (h : Built s) {n : α} {net : IPNetwork} :
    (∃ i ∈ s.nodeToInterfaces n, connected i = net) ↔
      ∃ e ∈ s.subnets, (e.1.1 = n ∨ e.1.2 = n) ∧ e.2 = net := by
  have hconnected : ∀ e ∈ s.subnets, ∀ i : String × IPv4Address, e.2.contains i.2 = true →
      connected i = e.2 := fun e he i hi =>
    IPNetwork.eq_of_contains (contains_network _) hi (h.prefixLength he).symm
  constructor
  · rintro ⟨i, hi, rfl⟩
    obtain ⟨e, he, hor⟩ := (h.intf n i.2).mp ⟨i, hi, rfl⟩
    obtain ⟨hone, htwo⟩ := h.contains_intf he
    rcases hor with ⟨hn, hi⟩ | ⟨hn, hi⟩
    · exact ⟨e, he, .inl hn, (hconnected e he i (hi ▸ hone)).symm⟩
    · exact ⟨e, he, .inr hn, (hconnected e he i (hi ▸ htwo)).symm⟩
  · rintro ⟨e, he, hn | hn, rfl⟩
    · obtain ⟨i, hi, haddr⟩ := (h.intf n (e.2.addr + 1)).mpr ⟨e, he, .inl ⟨hn, rfl⟩⟩
      exact ⟨i, hi, hconnected e he i (haddr ▸ (h.contains_intf he).1)⟩
    · obtain ⟨i, hi, haddr⟩ := (h.intf n (e.2.addr + 2)).mpr ⟨e, he, .inr ⟨hn, rfl⟩⟩
      exact ⟨i, hi, hconnected e he i (haddr ▸ (h.contains_intf he).2)⟩

/-! ### The rules -/

theorem Built.getDstInterface (h : Built s) {n p : α} (hp : p ∈ s.neighbors n) :
    ∃ di, s.getDstInterface n p = some di ∧ s.interfaceToNode di = some p ∧
      ∃ i ∈ s.nodeToInterfaces n, s.interfaceLinks i.2 = some di := by
  set f : String × IPv4Address → Option IPv4Address := fun i => do
    let di ← s.interfaceLinks i.2
    let dn ← s.interfaceToNode di
    if dn = p then some di else none with hf
  have hsome : ∃ i ∈ s.nodeToInterfaces n, (f i).isSome = true := by
    obtain ⟨e, he, hor⟩ := (h.neighbor n p).mp hp
    obtain ⟨hnode₁, hnode₂⟩ := h.toNode e he
    obtain ⟨hlink₁, hlink₂⟩ := h.toLink e he
    rcases hor with heq | heq
    · obtain ⟨i, hi, haddr⟩ := (h.intf n (e.2.addr + 1)).mpr ⟨e, he, .inl ⟨by rw [heq], rfl⟩⟩
      exact ⟨i, hi, by simp only [hf, haddr, hlink₁, hnode₂, heq, Option.bind_eq_bind,
        Option.bind_some, if_true, Option.isSome_some]⟩
    · obtain ⟨i, hi, haddr⟩ := (h.intf n (e.2.addr + 2)).mpr ⟨e, he, .inr ⟨by rw [heq], rfl⟩⟩
      exact ⟨i, hi, by simp only [hf, haddr, hlink₂, hnode₁, heq, Option.bind_eq_bind,
        Option.bind_some, if_true, Option.isSome_some]⟩
  obtain ⟨di, hdi⟩ := Option.isSome_iff_exists.mp (List.findSome?_isSome_iff.mpr hsome)
  obtain ⟨i, hi, hfi⟩ := List.exists_of_findSome?_eq_some hdi
  simp only [hf, Option.bind_eq_bind, Option.bind_eq_some_iff, Option.ite_none_right_eq_some] at hfi
  obtain ⟨d, hlink, dn, hnode, rfl, heq⟩ := hfi
  obtain rfl := Option.some.inj heq
  exact ⟨_, hdi, hnode, i, hi, hlink⟩

theorem mem_subnetToParent {n p : α} {parent : α → Option α} {net : IPNetwork} :
    (net, p) ∈ s.subnetToParent n parent ↔
      ∃ e ∈ s.subnets, e.1.1 ≠ n ∧ e.1.2 ≠ n ∧ parent e.1.1 = some p ∧ e.2 = net := by
  simp only [subnetToParent, List.mem_filterMap]
  refine exists_congr fun e => and_congr_right fun _ => ?_
  by_cases hne : e.1.1 ≠ n ∧ e.1.2 ≠ n
  · rw [if_pos hne, Option.map_eq_some_iff]
    simp only [Prod.mk.injEq]
    exact ⟨fun ⟨q, hq, hnet, hqp⟩ => ⟨hne.1, hne.2, hqp ▸ hq, hnet⟩,
      fun ⟨_, _, hq, hnet⟩ => ⟨p, hq, hnet, rfl⟩⟩
  · rw [if_neg hne]
    exact ⟨fun h => absurd h (by simp), fun h => absurd ⟨h.1, h.2.1⟩ hne⟩

theorem exists_rule_iff {C : Collapse} {n : α} {m : List (IPNetwork × α)} {x : IPv4Address}
    {di : Option IPv4Address} :
    (∃ net, (net, di) ∈ (parentToSubnet m).flatMap (fun p =>
      (C.collapse p.2).map fun net => (net, s.getDstInterface n p.1)) ∧ net.contains x = true) ↔
      ∃ net p, (net, p) ∈ m ∧ net.contains x = true ∧ s.getDstInterface n p = di := by
  have hgroup : ∀ p, (∃ net ∈ C.collapse ((m.filter fun e => e.2 = p).map Prod.fst),
      net.contains x = true) ↔ ∃ net, (net, p) ∈ m ∧ net.contains x = true := by
    intro p
    rw [C.exact]
    simp
  simp only [parentToSubnet, List.mem_flatMap, List.mem_map, List.mem_eraseDups]
  constructor
  · rintro ⟨net, ⟨q, ⟨p, -, rfl⟩, net', hnet', heq⟩, hx⟩
    obtain ⟨rfl, rfl⟩ := Prod.mk.inj heq
    obtain ⟨k, hk, hkx⟩ := (hgroup p).mp ⟨net', hnet', hx⟩
    exact ⟨k, p, hk, hkx, rfl⟩
  · rintro ⟨net, p, hmem, hx, rfl⟩
    obtain ⟨k, hk, hkx⟩ := (hgroup p).mpr ⟨net, hmem, hx⟩
    exact ⟨k, ⟨_, ⟨p, ⟨_, hmem, rfl⟩, rfl⟩, k, hk, rfl⟩, hkx⟩

/-! ### The hops -/

def graph (s : NetSynthesizer α) : SimpleGraph α := SimpleGraph.fromRel fun n m => m ∈ s.neighbors n

omit [DecidableEq α] in
theorem Built.graph_adj (h : Built s) {n m : α} : s.graph.Adj n m ↔ m ∈ s.neighbors n := by
  have hsymm : n ∈ s.neighbors m ↔ m ∈ s.neighbors n := by
    rw [h.neighbor, h.neighbor]
    exact exists_congr fun e => and_congr_right fun _ => or_comm
  have hne : m ∈ s.neighbors n → n ≠ m := by
    rintro hm rfl
    obtain ⟨e, he, heq⟩ := (h.neighbor n n).mp hm
    exact h.ne e he (by rcases heq with heq | heq <;> rw [heq])
  rw [graph, SimpleGraph.fromRel_adj, hsymm, or_self]
  exact ⟨And.right, fun hm => ⟨hne hm, hm⟩⟩

variable {C : Collapse} {O : SetOrder α}

theorem Built.bfsParent (h : Built s) {n : α} (hn : n ∈ s.nodes) :
    ∃ parent, s.bfsParent O n = some parent ∧
      FirstHop.firstHops (fun n => O.iter (s.neighbors n)) s.nodes.length n = some parent := by
  rw [NetSynthesizer.bfsParent, if_pos hn]
  have hsome : (FirstHop.firstHops (fun n => O.iter (s.neighbors n)) s.nodes.length n).isSome
      = true := by
    refine FirstHop.firstHops_isSome (U := s.nodes.toFinset) (fun k l hl => ?_) ?_
      (List.toFinset_card_le _)
    · exact List.mem_toFinset.mpr (h.node k l ((O.perm _).mem_iff.mp hl))
    · exact (O.perm _).nodup_iff.mpr (h.nodup n)
  obtain ⟨parent, hparent⟩ := Option.isSome_iff_exists.mp hsome
  exact ⟨parent, hparent, hparent⟩

theorem mem_table (h : Built s) {n : α} {tbl : List (IPNetwork × Via)} {parent : α → Option α}
    (hparent : s.bfsParent O n = some parent) (htbl : s.table C O n = some tbl)
    {x : IPv4Address} {via : Via} :
    (∃ net, (net, via) ∈ tbl ∧ net.contains x = true) ↔
      via = .link ∧ (∃ e ∈ s.subnets, (e.1.1 = n ∨ e.1.2 = n) ∧ e.2.contains x = true) ∨
      ∃ e ∈ s.subnets, e.1.1 ≠ n ∧ e.1.2 ≠ n ∧ e.2.contains x = true ∧
        ∃ p, parent e.1.1 = some p ∧ via = .nextHop (s.getDstInterface n p) := by
  rw [table, synthesizeRules, hparent, Option.map_some, Option.map_some, Option.some_inj] at htbl
  subst htbl
  have hsplit : ∀ l₁ l₂ : List (IPNetwork × Via),
      (∃ net, (net, via) ∈ l₁ ++ l₂ ∧ net.contains x = true) ↔
        (∃ net, (net, via) ∈ l₁ ∧ net.contains x = true) ∨
          ∃ net, (net, via) ∈ l₂ ∧ net.contains x = true := fun l₁ l₂ => by
    simp only [List.mem_append, or_and_right, exists_or]
  rw [hsplit]
  simp only [List.mem_map, Prod.mk.injEq]
  refine or_congr ?_ ?_
  · constructor
    · rintro ⟨net, ⟨i, hi, rfl, rfl⟩, hx⟩
      obtain ⟨e, he, hn, heq⟩ := h.connected_iff.mp ⟨i, hi, rfl⟩
      exact ⟨rfl, e, he, hn, heq ▸ hx⟩
    · rintro ⟨rfl, e, he, hn, hx⟩
      obtain ⟨i, hi, heq⟩ := h.connected_iff.mpr ⟨e, he, hn, rfl⟩
      exact ⟨e.2, ⟨i, hi, heq, rfl⟩, hx⟩
  · constructor
    · rintro ⟨net, ⟨r, hr, rfl, rfl⟩, hx⟩
      obtain ⟨k, p, hk, hkx, hdi⟩ := exists_rule_iff.mp ⟨r.1, hr, hx⟩
      obtain ⟨e, he, hne₁, hne₂, hp, rfl⟩ := mem_subnetToParent.mp hk
      exact ⟨e, he, hne₁, hne₂, hkx, p, hp, by rw [hdi]⟩
    · rintro ⟨e, he, hne₁, hne₂, hx, p, hp, rfl⟩
      obtain ⟨net, hnet, hnetx⟩ := (exists_rule_iff (C := C)).mpr
        ⟨e.2, p, mem_subnetToParent.mpr ⟨e, he, hne₁, hne₂, hp, rfl⟩, hx, rfl⟩
      exact ⟨net, ⟨_, hnet, rfl, rfl⟩, hnetx⟩

theorem Built.exists_table (h : Built s) {n : α} (hn : n ∈ s.nodes) :
    ∃ parent tbl, FirstHop.firstHops (fun n => O.iter (s.neighbors n)) s.nodes.length n =
      some parent ∧ s.bfsParent O n = some parent ∧ s.table C O n = some tbl := by
  obtain ⟨parent, hparent, hhops⟩ := h.bfsParent (O := O) hn
  obtain ⟨tbl, htbl⟩ : ∃ tbl, s.table C O n = some tbl :=
    ⟨_, by rw [table, synthesizeRules, hparent, Option.map_some, Option.map_some]⟩
  exact ⟨parent, tbl, hhops, hparent, htbl⟩

variable {x : IPv4Address} {e : (α × α) × IPNetwork} {n : α}

theorem Built.not_hop (h : Built s) (he : e ∈ s.subnets) (hx : e.2.contains x = true)
    (hend : n = e.1.1 ∨ n = e.1.2) (m : α) : ¬s.Hop C O x n m := by
  rintro ⟨tbl, htbl, net, di, hlongest, -⟩
  obtain ⟨rules, hrules, -⟩ := Option.map_eq_some_iff.mp htbl
  obtain ⟨parent, hparent, -⟩ := Option.map_eq_some_iff.mp hrules
  have hvia := (mem_table h hparent htbl).mp ⟨net, hlongest.mem, hlongest.contains⟩
  rcases hvia with ⟨hlink, -⟩ | ⟨e', he', hne₁, hne₂, hx', -⟩
  · exact absurd hlink (by simp)
  · obtain rfl := h.eq_of_contains he he' hx hx'
    exact hend.elim (fun hn => hne₁ hn.symm) fun hn => hne₂ hn.symm

theorem Built.exists_hop (h : Built s) (he : e ∈ s.subnets) (hx : e.2.contains x = true)
    (hn₁ : n ≠ e.1.1) (hn₂ : n ≠ e.1.2) (hreach : s.graph.Reachable n e.1.1) :
    ∃ p, s.graph.Reachable p e.1.1 ∧ s.graph.dist p e.1.1 < s.graph.dist n e.1.1 ∧
      ∀ m, s.Hop C O x n m ↔ m = p := by
  have hnode : n ∈ s.nodes := by
    obtain ⟨w⟩ := hreach
    cases w with
    | nil => exact absurd rfl hn₁
    | cons hadj _ => exact h.node _ _ (h.graph_adj.mp hadj.symm)
  obtain ⟨parent, tbl, hhops, hparent, htbl⟩ := h.exists_table (C := C) (O := O) hnode
  have hadj : ∀ u v, v ∈ O.iter (s.neighbors u) ↔ s.graph.Adj u v := fun u v => by
    rw [(O.perm _).mem_iff, h.graph_adj]
  obtain ⟨p, hp, hnp, hpreach, hdist⟩ := FirstHop.exists_firstHop hadj hhops hreach hn₁.symm
  obtain ⟨di, hdi, hnodeDi, hlink⟩ := h.getDstInterface (h.graph_adj.mp hnp)
  -- whatever matches is a rule to this next hop
  have hvia : ∀ net via, (net, via) ∈ tbl → net.contains x = true →
      via = .nextHop (some di) := by
    intro net via hmem hnet
    rcases (mem_table h hparent htbl).mp ⟨net, hmem, hnet⟩ with ⟨-, e', he', hend, hx'⟩ |
      ⟨e', he', -, -, hx', q, hq, hvia⟩
    · obtain rfl := h.eq_of_contains he he' hx hx'
      exact (hend.elim (fun hn => hn₁ hn.symm) fun hn => hn₂ hn.symm).elim
    · obtain rfl := h.eq_of_contains he he' hx hx'
      obtain rfl := Option.some.inj (hp.symm.trans hq)
      rw [hvia, hdi]
  refine ⟨p, hpreach, hdist, fun m => ⟨?_, ?_⟩⟩
  · rintro ⟨tbl', htbl', net, di', hlongest, -, hm⟩
    obtain rfl := Option.some.inj (htbl.symm.trans htbl')
    have heq := hvia net _ hlongest.mem hlongest.contains
    simp only [Via.nextHop.injEq, Option.some.injEq] at heq
    rw [heq, hnodeDi] at hm
    exact (Option.some.inj hm).symm
  · rintro rfl
    obtain ⟨net, hmem, hnet⟩ := (mem_table (C := C) h hparent htbl).mpr
      (.inr ⟨e, he, hn₁.symm, hn₂.symm, hx, m, hp, rfl⟩)
    -- some entry is the longest of those that match
    have hfilter : (net, _) ∈ tbl.filter fun l => l.1.contains x := List.mem_filter.mpr ⟨hmem, hnet⟩
    obtain ⟨l, hl⟩ : ∃ l, (tbl.filter fun l => l.1.contains x).argmax (fun l => l.1.prefixLength) =
        some l := by
      rw [← Option.ne_none_iff_exists', ne_eq, List.argmax_eq_none]
      exact List.ne_nil_of_mem hfilter
    have hmax : ∀ l' ∈ tbl.filter (fun l => l.1.contains x), l'.1.prefixLength ≤ l.1.prefixLength :=
      fun l' hl' => List.le_of_mem_argmax (f := fun l => l.1.prefixLength) hl' hl
    obtain ⟨hltbl, hlx⟩ := List.mem_filter.mp (List.argmax_mem hl)
    obtain ⟨lnet, lvia⟩ := l
    obtain rfl := hvia lnet lvia hltbl hlx
    exact ⟨tbl, htbl, lnet, di, ⟨hltbl, hlx, fun l' hl' hlx' =>
      hmax l' (List.mem_filter.mpr ⟨hl', hlx'⟩)⟩, hlink, hnodeDi⟩

theorem Built.delivers (h : Built s) (he : e ∈ s.subnets) (hx : e.2.contains x = true)
    (hreach : s.graph.Reachable n e.1.1) :
    ∃ path : List α, path.head? = some n ∧ path.IsChain (s.Hop C O x) ∧ path.Nodup ∧
      (∃ m ∈ path.getLast?, m = e.1.1 ∨ m = e.1.2) ∧
      (∀ run : List α, run.head? = some n → run.IsChain (s.Hop C O x) → run <+: path) ∧
      ∀ m ∈ path, s.graph.dist m e.1.1 ≤ s.graph.dist n e.1.1 := by
  induction hd : s.graph.dist n e.1.1 using Nat.strong_induction_on generalizing n with
  | _ d ih =>
  by_cases hend : n = e.1.1 ∨ n = e.1.2
  · refine ⟨[n], rfl, List.isChain_singleton n, List.nodup_singleton n, ⟨n, rfl, hend⟩, ?_, ?_⟩
    · intro run hhead hchain
      match run with
      | [] => exact absurd hhead (by simp)
      | [k] =>
        obtain rfl := Option.some.inj hhead
        exact List.prefix_rfl
      | k :: m :: rest =>
        obtain rfl := Option.some.inj hhead
        exact absurd (List.isChain_cons_cons.mp hchain).1 (h.not_hop he hx hend m)
    · intro m hm
      rw [List.mem_singleton.mp hm, hd]
  · rw [not_or] at hend
    -- the only hop from here leads to a node that is nearer to the subnet
    obtain ⟨p, hpreach, hdist, hhop⟩ := h.exists_hop (C := C) (O := O) he hx hend.1 hend.2 hreach
    rw [hd] at hdist
    obtain ⟨path, hhead, hchain, hnodup, hlast, hruns, hle⟩ := ih _ hdist hpreach rfl
    have hnot : n ∉ path := fun hmem => by
      have := hle n hmem
      omega
    match path, hhead with
    | k :: rest, hhead =>
      obtain rfl := Option.some.inj hhead
      refine ⟨n :: k :: rest, rfl, List.isChain_cons_cons.mpr ⟨(hhop k).mpr rfl, hchain⟩,
        List.nodup_cons.mpr ⟨hnot, hnodup⟩, ?_, ?_, ?_⟩
      · rwa [List.getLast?_cons_cons]
      · intro run hrun hchain'
        match run with
        | [] => exact absurd hrun (by simp)
        | [m] =>
          obtain rfl := Option.some.inj hrun
          exact ⟨k :: rest, rfl⟩
        | m :: l :: run =>
          obtain rfl := Option.some.inj hrun
          obtain ⟨hml, hchain'⟩ := List.isChain_cons_cons.mp hchain'
          obtain rfl := (hhop l).mp hml
          exact (List.prefix_cons_inj m).mpr (hruns _ rfl hchain')
      · intro m hm
        rcases List.mem_cons.mp hm with rfl | hm
        · exact hd.le
        · have := hle m hm
          omega

/-- From every node that reaches the first end of a link, a packet to an address of its subnet
visits no node twice and comes to an end of the link. -/
theorem delivers_of_reachable (C : Collapse) (O : SetOrder α) (links : List (α × α))
    (h : ofLinks links = some s) (n : α) (e : (α × α) × IPNetwork) (he : e ∈ s.subnets)
    (hreach : Relation.ReflTransGen (fun k m => m ∈ s.neighbors k) n e.1.1) (x : IPv4Address)
    (hx : e.2.contains x = true) : s.Delivers C O x n e.1 := by
  have hbuilt := built_ofLinks h
  have hgraph : s.graph.Reachable n e.1.1 := by
    rw [SimpleGraph.reachable_iff_reflTransGen]
    exact Relation.ReflTransGen.mono (fun _ _ => hbuilt.graph_adj.mpr) _ _ hreach
  obtain ⟨path, hhead, hchain, hnodup, hlast, hruns, -⟩ :=
    hbuilt.delivers (C := C) (O := O) he hx hgraph
  exact ⟨path, hhead, hchain, hnodup, hlast, hruns⟩

def lineLinks : List (String × String) := [("a", "b"), ("b", "b"), ("b", "a"), ("b", "c")]

def line : NetSynthesizer String := (ofLinks lineLinks).get (by decide)

theorem delivers_line :
    line.Delivers ⟨fun nets => nets, fun _ _ => Iff.rfl⟩ ⟨fun l => l, fun _ => .refl _⟩ 6#32 "a"
      ("b", "c") := by
  exact delivers_of_reachable _ _ lineLinks (Option.some_get _).symm "a"
    (("b", "c"), ⟨⟨4#32, 30, by decide⟩, by decide⟩) (by decide) (.single (by decide)) 6#32
    (by decide)

end NetSynthesizer

end Neo
