import Neo.Lib.SimplePath
import Neo.Process.Termination

/-! The data plane of one address: which nodes pass packets for it on, accept or discard them. It
is given by the routes of the nodes alone. The next hops of a class are those of each of its
addresses. -/

namespace Neo

def Topology.sourceAddr (t : Topology) (n : NodePtr) (h : FibIpnh) : Option IPv4Address :=
  match h.l2Intf with
  | some l2Intf => (t.getPeer h.l2Node (t.intf l2Intf).name).bind fun egress =>
      if (t.intf egress.2).isL2 then none else some (t.intf egress.2).addr
  | none => t.loopbackAddr n

namespace Network

variable (net : Network) (a : IPv4Address)

/-- Packets for the address that are at a node are sent to a next hop: the node is connected to it
for an address to which the next hops of routes lead. -/
def SendsTo (n : NodePtr) (h : FibIpnh) : Prop :=
  (net.node n).isEmulated = false ∧
    ∃ x, Relation.ReflTransGen (Forwards (net.node n).rib) a x ∧ Connects net n (net.node n).rib x h

def Accepts (n : NodePtr) : Prop := ∃ h, net.SendsTo a n h ∧ h.l3Node = n

def Discards (n : NodePtr) : Prop := ∀ h, ¬ net.SendsTo a n h

def PassesOn (n n' : NodePtr) : Prop := n' ≠ n ∧ ∃ h, net.SendsTo a n h ∧ h.l3Node = n'

def Reaches : NodePtr → NodePtr → Prop := Relation.ReflTransGen (net.PassesOn a)

/-- A node accepts packets for the address that another one sends with a source address. They do
not come back to the sender, since there they would leave for the same next hop again. -/
def Receives (src : NodePtr) (srcIp : IPv4Address) (n : NodePtr) : Prop :=
  ∃ h, net.SendsTo a src h ∧ net.sourceAddr src h = some srcIp ∧
    (h.l3Node = src ∧ n = src ∨ h.l3Node ≠ src ∧ net.Accepts a n ∧
      Relation.ReflTransGen (fun u v => net.PassesOn a u v ∧ v ≠ src) h.l3Node n)

variable {net a}

theorem sendsTo_iff {n : NodePtr} {h : FibIpnh} : net.SendsTo a n h ↔
    ∃ nhs, net.getIpnhs n (net.node n).rib a = some nhs ∧ h ∈ nhs := by
  obtain ⟨nhs, hget, -, hmem⟩ := getIpnhs_spec_closure net n (net.node n).rib_ranked a
  rw [SendsTo, ← hmem]
  constructor
  · exact fun hh => ⟨nhs, hget, hh⟩
  · rintro ⟨nhs', hget', hh⟩
    obtain rfl := Option.some.inj (hget.symm.trans hget')
    exact hh

theorem l3Node_mem_of_sendsTo {n : NodePtr} (hn : n ∈ net.nodes) {h : FibIpnh}
    (hh : net.SendsTo a n h) : h.l3Node ∈ net.nodes := by
  obtain ⟨-, x, -, r, -, -, -, hconn⟩ := hh
  split_ifs at hconn
  · exact hconn ▸ hn
  · exact getIpnh_mem hconn

theorem PassesOn.mem {n n' : NodePtr} (hn : n ∈ net.nodes) (h : net.PassesOn a n n') :
    n' ∈ net.nodes := by
  obtain ⟨-, hop, hsends, rfl⟩ := h
  exact l3Node_mem_of_sendsTo hn hsends

end Network

namespace Plankton

variable {P : Plankton} {a : IPv4Address} {ec : EcPtr} {n : NodePtr}

theorem getIpnhs_of_findEc {b : IPv4Address} (ha : P.ecs.findEc a = some ec)
    (hb : P.ecs.findEc b = some ec) (hn : n ∈ P.network.nodes) :
    P.network.getIpnhs n (P.network.node n).rib a =
      P.network.getIpnhs n (P.network.node n).rib b := by
  obtain ⟨calls, mbs, hadded, -⟩ := P.added
  obtain ⟨L, hL⟩ := hadded.live
  obtain ⟨range, hr, har⟩ := (hL.findEc_iff (hL.findEc_mem ha)).mp ha
  obtain ⟨range', hr', hbr⟩ := (hL.findEc_iff (hL.findEc_mem hb)).mp hb
  exact OpenflowProcess.getIpnhs_uniform (uniform_of_isEc ⟨a, ha⟩) hn hr har hr' hbr
    fun r hmem => .inl hmem

theorem mem_nextHops (ha : P.ecs.findEc a = some ec) (hn : n ∈ P.network.nodes) {h : FibIpnh} :
    h ∈ P.nextHops ec n ↔ P.network.SendsTo a n h := by
  obtain ⟨b, hrep, hb⟩ := representativeAddr_of_isEc ⟨a, ha⟩
  obtain ⟨nhs, hnhs⟩ := P.network.getIpnhs_isSome n (P.network.node n).rib b
  have hsame := getIpnhs_of_findEc ha hb hn
  rw [Network.sendsTo_iff, nextHops, hrep, Option.bind_some, hsame, hnhs]
  simp

theorem nextHops_eq_nil (ha : P.ecs.findEc a = some ec) (hn : n ∈ P.network.nodes) :
    P.nextHops ec n = [] ↔ P.network.Discards a n := by
  rw [List.eq_nil_iff_forall_not_mem]
  exact forall_congr' fun _ => not_congr (mem_nextHops ha hn)

theorem accepts_iff (ha : P.ecs.findEc a = some ec) (hn : n ∈ P.network.nodes) :
    P.network.Accepts a n ↔ ∃ h ∈ P.nextHops ec n, h.l3Node = n :=
  exists_congr fun _ => and_congr_left fun _ => (mem_nextHops ha hn).symm

theorem passesOn_iff (ha : P.ecs.findEc a = some ec) (hn : n ∈ P.network.nodes) {n' : NodePtr} :
    P.network.PassesOn a n n' ↔ P.PassesTo ec n n' := by
  unfold Network.PassesOn PassesTo
  rw [and_iff_right hn]
  apply and_congr_right
  intro _
  exact exists_congr fun h => and_congr_left fun _ => (mem_nextHops ha hn).symm

theorem sourceAddr_hasIp (hnet : P.network.ModelOnly) (hlinked : P.network.Linked)
    (hsend : P.network.CanSend n) {h : FibIpnh} (hh : h ∈ P.nextHops ec n) :
    ∃ x, P.network.sourceAddr n h = some x ∧ P.network.hasIp n x = true := by
  unfold Topology.sourceAddr
  rcases nextHops_cases (hnet n) hh with ⟨rfl, x, hx⟩ | ⟨r, hr, hegress, x, hx⟩
  · exact Network.loopbackAddr_hasIp hsend hx
  · obtain ⟨l2Intf, hl2, i, hi, hname, hpeer⟩ := Network.getIpnh_peer hlinked hx
    have hl3 : (P.network.intf i).isL2 = false := by
      by_contra hport
      exact (hsend i hi (by simpa using hport)).2 r hr hegress hname.symm
    refine ⟨(P.network.intf i).addr, ?_, Topology.hasIp_iff.mpr ⟨i, hi, hl3, rfl⟩⟩
    simp [hl2, hpeer, hl3]

theorem mem_of_passesTo {Q : NodePtr → Prop} {u : NodePtr} (ha : P.ecs.findEc a = some ec)
    (hu : u ∈ P.network.nodes)
    (h : Relation.ReflTransGen (fun u v => P.PassesTo ec u v ∧ Q v) u n) :
    n ∈ P.network.nodes := by
  induction h with
  | refl => exact hu
  | tail _ hstep ih => exact ((passesOn_iff ha ih).mpr hstep.1).mem ih

theorem reflTransGen_passesOn {Q : NodePtr → Prop} {u : NodePtr}
    (ha : P.ecs.findEc a = some ec) (hu : u ∈ P.network.nodes) :
    Relation.ReflTransGen (fun u v => P.network.PassesOn a u v ∧ Q v) u n ↔
      Relation.ReflTransGen (fun u v => P.PassesTo ec u v ∧ Q v) u n := by
  constructor
  · intro h
    induction h with
    | refl => exact .refl
    | tail _ hstep ih =>
      exact ih.tail ⟨(passesOn_iff ha (mem_of_passesTo ha hu ih)).mp hstep.1, hstep.2⟩
  · refine Relation.ReflTransGen.mono ?_ _ _
    rintro v w ⟨hvw, hw⟩
    exact ⟨(passesOn_iff ha hvw.1).mpr hvw, hw⟩

theorem reaches_iff {u : NodePtr} (ha : P.ecs.findEc a = some ec) (hu : u ∈ P.network.nodes) :
    P.network.Reaches a u n ↔ Relation.ReflTransGen (P.PassesTo ec) u n := by
  have h := reflTransGen_passesOn (n := n) (Q := fun _ => True) ha hu
  simp only [and_true] at h
  exact h

theorem receives_iff {src : NodePtr} {x : IPv4Address} (ha : P.ecs.findEc a = some ec)
    (hsrc : src ∈ P.network.nodes) : P.network.Receives a src x n ↔
      ∃ h ∈ P.nextHops ec src, P.network.sourceAddr src h = some x ∧
        (h.l3Node = src ∧ n = src ∨ h.l3Node ≠ src ∧ (∃ h' ∈ P.nextHops ec n, h'.l3Node = n) ∧
          Relation.ReflTransGen (fun u v => P.PassesTo ec u v ∧ v ≠ src) h.l3Node n) := by
  unfold Network.Receives
  refine exists_congr fun h => ?_
  rw [← mem_nextHops ha hsrc]
  refine and_congr_right fun hh => and_congr_right fun _ => or_congr_right ?_
  refine and_congr_right fun _ => ?_
  have hmem : h.l3Node ∈ P.network.nodes :=
    Network.l3Node_mem_of_sendsTo hsrc ((mem_nextHops ha hsrc).mp hh)
  rw [reflTransGen_passesOn ha hmem]
  refine and_congr_left fun hway => ?_
  exact accepts_iff ha (mem_of_passesTo ha hmem hway)

end Plankton

end Neo
