import Neo.Invariant.SetConns
import Neo.Plankton
import Mathlib.Data.Prod.Lex
import Mathlib.Data.Set.Lattice
import Mathlib.Order.CompletePartialOrder

/-! Specifications of connections. An invariant first adds the destinations of all its
specifications as classes, and then combines source nodes, classes and ports. -/

namespace Neo

def EqClassMgr.addrs (m : EqClassMgr) (e : EcPtr) : Set IPv4Address := {a | ∃ r ∈ m.ranges e, a ∈ r}

namespace EqClassMgr.Added

variable {calls : Set EcCall} {m : EqClassMgr}

theorem mem_addrs (h : Added calls m) {x y : IPv4Address} {e : EcPtr} (he : m.findEc x = some e) :
    y ∈ m.addrs e ↔ m.findEc y = some e := by
  obtain ⟨L, hL⟩ := h.live
  exact (hL.findEc_iff (hL.findEc_mem he)).symm

end EqClassMgr.Added

/-- The values of `enum proto`. -/
def Proto.num : Proto → Nat
  | .tcp => 0
  | .udp => 1
  | .icmpEcho => 2

namespace Connection

/-- What `operator<` compares, in order. -/
def key (c : Connection) : Nat ×ₗ Nat ×ₗ Nat ×ₗ Nat ×ₗ Nat :=
  toLex (c.protocol.num, toLex (c.srcNode, toLex (c.dstIpEc,
    toLex (c.srcPort.toNat, c.dstPort.toNat))))

/-- `operator<` of connections. The address and the numbers of real packets are not compared. -/
def lt (a b : Connection) : Prop := a.key < b.key

instance : DecidableRel lt := fun a b => inferInstanceAs (Decidable (a.key < b.key))

instance : IsTrans Connection lt := ⟨fun _ _ _ (h : _ < _) (h' : _ < _) => h.trans h'⟩

theorem key_eq_of_equiv {a b : Connection} (h : Ordered.Equiv lt a b) : a.key = b.key :=
  le_antisymm (not_lt.mp h.2) (not_lt.mp h.1)

end Connection

/-- `ConnSpec`. The destination is read as a network. -/
structure ConnSpec where
  protocol : Proto
  srcNodes : List NodePtr
  dstIp : IPRange
  srcPort : BitVec 16
  dstPorts : List (BitVec 16)
  ownedDstOnly : Bool
  isNetwork : ∃ net : IPNetwork, dstIp = net.range

namespace ConnSpec

/-- `update_inv_ecs`. The only `add_ec` that takes a range is the one for networks, to which the
range is converted. -/
def updateInvEcs (A : Allocator) (m : EqClassMgr) (spec : ConnSpec) : Option EqClassMgr := do
  let net ← spec.dstIp.toNetwork
  m.addEc A (.ofNetwork net) false

/-- The destination ports, where `ports` are those of the class manager. -/
def allDstPorts (ports : List (BitVec 16)) (spec : ConnSpec) : List (BitVec 16) :=
  if spec.dstPorts = [] then
    if spec.protocol = .tcp ∨ spec.protocol = .udp then ports else [0#16]
  else spec.dstPorts

def conn (spec : ConnSpec) (srcNode : NodePtr) (dstIpEc : EcPtr) (dstPort : BitVec 16) :
    Connection where
  protocol := spec.protocol
  srcNode := srcNode
  dstIpEc := dstIpEc
  srcPort := spec.srcPort
  dstPort := dstPort
  srcIp := 0#32
  seq := 0#32
  ack := 0#32

def computeConnections (ports : List (BitVec 16)) (m : EqClassMgr) (spec : ConnSpec) :
    List Connection :=
  let dstIpEcs := m.getOverlappedEcs (.ofRange spec.dstIp) spec.ownedDstOnly
  Ordered.ofList Connection.lt (spec.srcNodes.flatMap fun srcNode =>
    dstIpEcs.flatMap fun dstIpEc =>
      (spec.allDstPorts ports).map fun dstPort => spec.conn srcNode dstIpEc dstPort)

end ConnSpec

/-- `compute_conn_matrix` with the specifications: the invariant's own, or the single one of each
sub-invariant. -/
def Invariant.computeConnMatrixOf (A : Allocator) (ports : List (BitVec 16))
    (specs : List ConnSpec) (inv : Invariant Connection) (m : EqClassMgr) :
    Option (EqClassMgr × Invariant Connection) := do
  let m ← specs.foldlM (ConnSpec.updateInvEcs A) m
  return (m, inv.computeConnMatrix (specs.map (·.computeConnections ports m)))

namespace ConnSpec

variable {spec : ConnSpec} {specs : List ConnSpec} {ports : List (BitVec 16)} {m : EqClassMgr}
  {calls : Set EqClassMgr.EcCall}

/-- The destination ECs of the connections cover the destination once, and every source node,
destination address and destination port belong to exactly one connection. -/
structure Covers (m : EqClassMgr) (ports : List (BitVec 16)) (spec : ConnSpec)
    (conns : List Connection) : Prop where
  nodup : conns.Nodup
  disjoint : {e | ∃ c ∈ conns, c.dstIpEc = e}.PairwiseDisjoint m.addrs
  union : ⋃ c ∈ conns, m.addrs c.dstIpEc = spec.dstIp.toSet
  unique : ∀ n ∈ spec.srcNodes, ∀ a ∈ spec.dstIp, ∀ p ∈ spec.allDstPorts ports,
    ∃! c, c ∈ conns ∧ c.srcNode = n ∧ a ∈ m.addrs c.dstIpEc ∧ c.dstPort = p

def everything : IPRange := ⟨0#32, 0xFFFFFFFF#32, by decide⟩

theorem mem_everything (x : IPv4Address) : x ∈ everything := by
  constructor
  · show 0#32 ≤ x
    bv_omega
  · show x ≤ 0xFFFFFFFF#32
    bv_omega

/-- The range that `update_inv_ecs` adds: of all addresses only the first. -/
def addedRange (spec : ConnSpec) : IPRange :=
  if spec.dstIp = everything then .ofAddr 0#32 else spec.dstIp

theorem range_eq_everything {net : IPNetwork} :
    net.range = everything ↔ net.prefixLength = 0 := by
  have hub := net.toNat_broadcastAddr
  constructor
  · intro h
    have hlb : net.addr = 0#32 := congrArg IPRange.lb h
    have hall : net.broadcastAddr = 0xFFFFFFFF#32 := congrArg IPRange.ub h
    by_contra hne
    have hlt : 2 ^ (32 - net.prefixLength) ≤ 2 ^ 31 := by
      apply Nat.pow_le_pow_right (by decide)
      omega
    rw [hall, hlb] at hub
    simp only [BitVec.toNat_ofNat] at hub
    omega
  · intro h
    have hmod := net.addr_mod
    have hlt := net.addr.isLt
    rw [h] at hmod hub
    have hzero : net.addr.toNat = 0 := by omega
    rw [hzero] at hub
    have hlb : net.addr = 0#32 := BitVec.eq_of_toNat_eq hzero
    have hall : net.broadcastAddr = 0xFFFFFFFF#32 := BitVec.eq_of_toNat_eq hub
    show (⟨net.addr, net.broadcastAddr, _⟩ : IPRange) = _
    simp only [hlb, hall]
    rfl

theorem updateInvEcs_eq (A : Allocator) (m : EqClassMgr) (spec : ConnSpec) :
    spec.updateInvEcs A m = m.addEc A spec.addedRange false := by
  obtain ⟨net, hnet⟩ := spec.isNetwork
  have hconv := IPRange.ofNetwork_toNetwork net
  rw [updateInvEcs, hnet]
  obtain ⟨raw, hraw, hrange⟩ := Option.map_eq_some_iff.mp hconv
  rw [hraw, Option.bind_eq_bind, Option.bind_some, hrange]
  simp only [addedRange, hnet, range_eq_everything]

/-- The calls of `add_ec` that the specifications make. -/
def addedCalls (specs : List ConnSpec) : List EqClassMgr.EcCall :=
  specs.map fun spec => ⟨spec.addedRange, false⟩

theorem foldlM_updateInvEcs (A : Allocator) (specs : List ConnSpec) :
    ∀ m : EqClassMgr, specs.foldlM (updateInvEcs A) m = m.addEcs A (addedCalls specs) := by
  induction specs with
  | nil => exact fun m => rfl
  | cons spec specs ih =>
    intro m
    rw [List.foldlM_cons, updateInvEcs_eq]
    exact congrArg ((m.addEc A spec.addedRange false).bind ·) (funext ih)

theorem mem_computeConnections {c : Connection} :
    c ∈ spec.computeConnections ports m ↔ ∃ n ∈ spec.srcNodes,
      ∃ e ∈ m.getOverlappedEcs (.ofRange spec.dstIp) spec.ownedDstOnly,
        ∃ p ∈ spec.allDstPorts ports, c = spec.conn n e p := by
  have hinj : ∀ n n' e e' p p', (spec.conn n e p).key = (spec.conn n' e' p').key →
      n = n' ∧ e = e' ∧ p = p' := by
    intro n n' e e' p p' hkey
    simp only [Connection.key, conn, toLex_inj, Prod.mk.injEq] at hkey
    exact ⟨hkey.2.1, hkey.2.2.1, BitVec.eq_of_toNat_eq hkey.2.2.2.2⟩
  have hmem : ∀ c, (c ∈ spec.srcNodes.flatMap fun n =>
      (m.getOverlappedEcs (.ofRange spec.dstIp) spec.ownedDstOnly).flatMap fun e =>
        (spec.allDstPorts ports).map fun p => spec.conn n e p) ↔ ∃ n ∈ spec.srcNodes,
          ∃ e ∈ m.getOverlappedEcs (.ofRange spec.dstIp) spec.ownedDstOnly,
            ∃ p ∈ spec.allDstPorts ports, c = spec.conn n e p := by
    intro c
    simp only [List.mem_flatMap, List.mem_map, eq_comm]
  unfold computeConnections
  rw [Ordered.mem_ofList_of_injective, hmem]
  intro b hb c hc hequiv
  obtain ⟨n, -, e, -, p, -, rfl⟩ := (hmem b).mp hb
  obtain ⟨n', -, e', -, p', -, rfl⟩ := (hmem c).mp hc
  obtain ⟨rfl, rfl, rfl⟩ := hinj _ _ _ _ _ _ (Connection.key_eq_of_equiv hequiv)
  rfl

theorem nodup_computeConnections : (spec.computeConnections ports m).Nodup := by
  have hsorted : (spec.computeConnections ports m).Pairwise Connection.lt :=
    Ordered.sorted_ofList _
  apply hsorted.imp
  intro a b hlt heq
  rw [heq] at hlt
  exact lt_irrefl b.key hlt

theorem addrs_subset (h : m.Added calls) (hcall : ⟨spec.addedRange, false⟩ ∈ calls) {e : EcPtr}
    {x y : IPv4Address} (hx : x ∈ spec.dstIp) (hxe : m.findEc x = some e)
    (hye : m.findEc y = some e) : y ∈ spec.dstIp := by
  by_cases hall : spec.dstIp = everything
  · rw [hall]
    exact mem_everything y
  · have hadded : spec.addedRange = spec.dstIp := if_neg hall
    have hsame := (h.findEc_eq_iff x y).mp (hxe.trans hye.symm) _ hcall
    rw [hadded] at hsame
    exact hsame.mp hx

theorem mem_overlappedEcs (h : m.Added calls) (howned : spec.ownedDstOnly = false) {e : EcPtr} :
    e ∈ m.getOverlappedEcs (.ofRange spec.dstIp) spec.ownedDstOnly ↔
      ∃ x ∈ spec.dstIp, m.findEc x = some e := by
  rw [h.mem_getOverlappedEcs, howned]
  simp

theorem meets_dstIp (h : m.Added calls) (howned : spec.ownedDstOnly = false) {c : Connection}
    (hc : c ∈ spec.computeConnections ports m) :
    ∃ x ∈ spec.dstIp, m.findEc x = some c.dstIpEc := by
  obtain ⟨n, -, e, he, p, -, rfl⟩ := mem_computeConnections.mp hc
  exact (mem_overlappedEcs h howned).mp he

theorem isSome_of_covers (h : m.Added calls) (howned : spec.ownedDstOnly = false)
    (hcovers : Covers m ports spec (spec.computeConnections ports m)) :
    spec.srcNodes ≠ [] ∧ spec.allDstPorts ports ≠ [] ∧ ∀ x ∈ spec.dstIp, (m.findEc x).isSome := by
  have hall : ∀ x ∈ spec.dstIp, ∃ c ∈ spec.computeConnections ports m,
      x ∈ m.addrs c.dstIpEc := by
    intro x hx
    have hx' : x ∈ spec.dstIp.toSet := hx
    rw [← hcovers.union] at hx'
    simpa only [Set.mem_iUnion, exists_prop] using hx'
  obtain ⟨c₀, hc₀, -⟩ := hall _ spec.dstIp.lb_mem
  obtain ⟨n, hn, e, -, p, hp, -⟩ := mem_computeConnections.mp hc₀
  refine ⟨List.ne_nil_of_mem hn, List.ne_nil_of_mem hp, ?_⟩
  intro x hx
  obtain ⟨c, hc, hxc⟩ := hall x hx
  obtain ⟨y, -, hye⟩ := meets_dstIp h howned hc
  rw [(h.mem_addrs hye).mp hxc]
  rfl

theorem covers_of_isSome (h : m.Added calls) (hcall : ⟨spec.addedRange, false⟩ ∈ calls)
    (howned : spec.ownedDstOnly = false) (hnodes : spec.srcNodes ≠ [])
    (hports : spec.allDstPorts ports ≠ []) (hsome : ∀ x ∈ spec.dstIp, (m.findEc x).isSome) :
    Covers m ports spec (spec.computeConnections ports m) := by
  refine ⟨nodup_computeConnections, ?_, ?_, ?_⟩
  · rintro _ ⟨c, hc, rfl⟩ _ ⟨c', hc', rfl⟩ hne
    obtain ⟨x, -, hx⟩ := meets_dstIp h howned hc
    obtain ⟨x', -, hx'⟩ := meets_dstIp h howned hc'
    refine Set.disjoint_left.mpr fun a ha ha' => ?_
    have hsame := ((h.mem_addrs hx).mp ha).symm.trans ((h.mem_addrs hx').mp ha')
    exact hne (Option.some.inj hsame)
  · apply Set.ext
    intro a
    simp only [Set.mem_iUnion, exists_prop, IPRange.mem_toSet]
    constructor
    · rintro ⟨c, hc, ha⟩
      obtain ⟨x, hx, hxe⟩ := meets_dstIp h howned hc
      exact addrs_subset h hcall hx hxe ((h.mem_addrs hxe).mp ha)
    · intro ha
      obtain ⟨e, he⟩ := Option.isSome_iff_exists.mp (hsome a ha)
      obtain ⟨n, hn⟩ := List.exists_mem_of_ne_nil _ hnodes
      obtain ⟨p, hp⟩ := List.exists_mem_of_ne_nil _ hports
      refine ⟨spec.conn n e p, mem_computeConnections.mpr ⟨n, hn, e, ?_, p, hp, rfl⟩, ?_⟩
      · exact (mem_overlappedEcs h howned).mpr ⟨a, ha, he⟩
      · exact (h.mem_addrs he).mpr he
  · -- the source node, the class of the address and the port determine the connection
    intro n hn a ha p hp
    obtain ⟨e, he⟩ := Option.isSome_iff_exists.mp (hsome a ha)
    have hec := (mem_overlappedEcs h howned).mpr ⟨a, ha, he⟩
    have hmem : spec.conn n e p ∈ spec.computeConnections ports m :=
      mem_computeConnections.mpr ⟨n, hn, e, hec, p, hp, rfl⟩
    refine ⟨spec.conn n e p, ⟨hmem, rfl, (h.mem_addrs he).mpr he, rfl⟩, ?_⟩
    rintro c ⟨hc, rfl, hac, rfl⟩
    obtain ⟨n', -, e', he', p', -, rfl⟩ := mem_computeConnections.mp hc
    obtain ⟨x, -, hxe⟩ := (mem_overlappedEcs h howned).mp he'
    have hae : m.findEc a = some e' := (h.mem_addrs hxe).mp hac
    obtain rfl := Option.some.inj (hae.symm.trans he)
    rfl

theorem covers_iff_isSome (h : m.Added calls) (hcall : ⟨spec.addedRange, false⟩ ∈ calls)
    (howned : spec.ownedDstOnly = false) :
    Covers m ports spec (spec.computeConnections ports m) ↔
      spec.srcNodes ≠ [] ∧ spec.allDstPorts ports ≠ [] ∧
        ∀ x ∈ spec.dstIp, (m.findEc x).isSome := by
  constructor
  · exact isSome_of_covers h howned
  · rintro ⟨hnodes, hports, hsome⟩
    exact covers_of_isSome h hcall howned hnodes hports hsome

/-- The addresses that are in classes after the specifications have been added to a history of
calls. Of a specification with all addresses only the first counts. -/
def Covered (history : List EqClassMgr.EcCall) (specs : List ConnSpec) (x : IPv4Address) : Prop :=
  x = 0#32 ∨ (∃ c ∈ history, x ∈ c.range) ∨
    ∃ spec ∈ specs, spec.dstIp ≠ everything ∧ x ∈ spec.dstIp

/-- After any history of calls and for any specifications, the connections of one cover its
destination if and only if it has a source node and a port and, where its destination is the
network of all addresses, all of them are in classes otherwise. -/
theorem covers_iff (A : Allocator) (history : List EqClassMgr.EcCall) (specs : List ConnSpec)
    (ports : List (BitVec 16)) (inv : Invariant Connection) :
    ∃ m₀ m, EqClassMgr.reset.addEcs A history = some m₀ ∧
      inv.computeConnMatrixOf A ports specs m₀ =
        some (m, inv.computeConnMatrix (specs.map (·.computeConnections ports m))) ∧
      ∀ spec ∈ specs, spec.ownedDstOnly = false →
        (Covers m ports spec (spec.computeConnections ports m) ↔
          spec.srcNodes ≠ [] ∧ spec.allDstPorts ports ≠ [] ∧
            (spec.dstIp = everything → ∀ x, Covered history specs x)) := by
  obtain ⟨m₀, hm₀, h₀⟩ := EqClassMgr.added_reset.addEcs A history
  obtain ⟨m, hm, h⟩ := h₀.addEcs A (addedCalls specs)
  refine ⟨m₀, m, hm₀, ?_, ?_⟩
  · unfold Invariant.computeConnMatrixOf
    rw [foldlM_updateInvEcs, hm]
    rfl
  · intro spec hspec howned
    have hcall : ⟨spec.addedRange, false⟩ ∈
        {c | c ∈ addedCalls specs} ∪ ({c | c ∈ history} ∪ ∅) :=
      .inl (List.mem_map.mpr ⟨spec, hspec, rfl⟩)
    rw [covers_iff_isSome h hcall howned]
    apply and_congr_right
    intro _
    apply and_congr_right
    intro _
    have hsome : ∀ x, (m.findEc x).isSome ↔ (∃ spec' ∈ specs, x ∈ spec'.addedRange) ∨
        ∃ c ∈ history, x ∈ c.range := by
      intro x
      rw [h.findEc_isSome]
      simp [addedCalls, or_and_right, exists_or]
    by_cases hall : spec.dstIp = everything
    · -- the whole address space adds the range of 0.0.0.0 only
      have hzero : spec.addedRange = .ofAddr 0#32 := if_pos hall
      simp only [hall, mem_everything, true_implies, hsome]
      apply forall_congr'
      intro x
      constructor
      · rintro (⟨spec', hspec', hx⟩ | hx)
        · by_cases hall' : spec'.dstIp = everything
          · rw [addedRange, if_pos hall', IPRange.mem_ofAddr] at hx
            exact .inl hx
          · rw [addedRange, if_neg hall'] at hx
            exact .inr (.inr ⟨spec', hspec', hall', hx⟩)
        · exact .inr (.inl hx)
      · rintro (rfl | hx | ⟨spec', hspec', hall', hx⟩)
        · refine .inl ⟨spec, hspec, ?_⟩
          rw [hzero, IPRange.mem_ofAddr]
        · exact .inr hx
        · refine .inl ⟨spec', hspec', ?_⟩
          rwa [addedRange, if_neg hall']
    · have hadded : spec.addedRange = spec.dstIp := if_neg hall
      refine iff_of_true ?_ (fun h => absurd h hall)
      intro x hx
      exact (hsome x).mpr (.inl ⟨spec, hspec, hadded ▸ hx⟩)

def toEverything : ConnSpec where
  protocol := .udp
  srcNodes := [0]
  dstIp := everything
  srcPort := 100#16
  dstPorts := [80#16]
  ownedDstOnly := false
  isNetwork := ⟨⟨⟨0#32, 0, by decide⟩, by decide⟩, by decide⟩

def siteCall : EqClassMgr.EcCall := ⟨⟨0x0A000000#32, 0x0A0000FF#32, by decide⟩, false⟩

/-- No connection to 11.0.0.1 is verified, which belongs to the destination. -/
theorem not_covers : ¬ ∀ (A : Allocator) (history : List EqClassMgr.EcCall)
    (specs : List ConnSpec) (ports : List (BitVec 16)) (inv inv' : Invariant Connection)
    (m₀ m : EqClassMgr), EqClassMgr.reset.addEcs A history = some m₀ →
      inv.computeConnMatrixOf A ports specs m₀ = some (m, inv') →
        ∀ spec ∈ specs, spec.ownedDstOnly = false → spec.srcNodes ≠ [] →
          spec.allDstPorts ports ≠ [] →
            Covers m ports spec (spec.computeConnections ports m) := by
  intro h
  have hrun : ((EqClassMgr.reset.addEcs .next [siteCall]).bind fun m₀ =>
      ((Invariant.withCorrelated Connection 0).computeConnMatrixOf .next [] [toEverything] m₀).map
        fun r => (toEverything.computeConnections [] r.1).all fun c =>
          (r.1.ranges c.dstIpEc).all fun range =>
            !decide (0x0B000001#32 ∈ range.toIPRange)) = some true := by
    decide +kernel
  obtain ⟨m₀, hm₀, hrun⟩ := Option.bind_eq_some_iff.mp hrun
  obtain ⟨⟨m, inv'⟩, hm, hnone⟩ := Option.map_eq_some_iff.mp hrun
  have hcovers := h _ _ _ _ _ _ _ _ hm₀ hm toEverything (List.mem_singleton.mpr rfl) rfl
    (by decide) (by decide)
  have hmem : 0x0B000001#32 ∈ toEverything.dstIp.toSet := mem_everything _
  rw [← hcovers.union] at hmem
  simp only [Set.mem_iUnion, exists_prop] at hmem
  obtain ⟨c, hc, range, hrange, hin⟩ := hmem
  have hc' := List.all_eq_true.mp hnone c hc
  have hrange' := List.all_eq_true.mp hc' range hrange
  rw [Bool.not_eq_true', decide_eq_false_iff_not] at hrange'
  exact hrange' hin

end ConnSpec

end Neo
