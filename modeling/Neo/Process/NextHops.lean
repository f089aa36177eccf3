import Neo.Lib.Rank
import Neo.Process.InstallUpdate
import Neo.Model

/-! The next hops of the classes in a network without updates: what `update_fib` writes never
changes, and a node passes packets of a class on to certain others. -/

namespace Neo

namespace EqClassMgr.Added

variable {calls : Set EcCall} {m : EqClassMgr}

theorem representativeAddr (h : Added calls m) {x : IPv4Address} {e : EcPtr}
    (hx : m.findEc x = some e) :
    ∃ a, EqClass.representativeAddr (m.ranges e) = some a ∧ m.findEc a = some e := by
  obtain ⟨L, hL⟩ := h.live
  have heL : e ∈ L := hL.findEc_mem hx
  obtain ⟨range, hrange, -⟩ := (hL.findEc_iff heL).mp hx
  obtain ⟨first, rest, hcons⟩ := List.exists_cons_of_ne_nil (List.ne_nil_of_mem hrange)
  refine ⟨first.lb, ?_, ?_⟩
  · rw [hcons]
    rfl
  · apply (hL.findEc_iff heL).mpr
    exact ⟨first, hcons ▸ List.mem_cons_self .., first.toIPRange.lb_mem⟩

end EqClassMgr.Added

namespace Plankton

variable {P : Plankton} {ec : EcPtr} {n : NodePtr} {h : FibIpnh}

def IsEc (P : Plankton) (ec : EcPtr) : Prop := ∃ a, P.ecs.findEc a = some ec

theorem added (P : Plankton) : ∃ (calls : Set EqClassMgr.EcCall) (mbs : List MiddleboxEcs),
    P.ecs.Added calls ∧ ∀ c ∈ EqClassMgr.initialCalls P.openflow mbs, c ∈ calls := by
  obtain ⟨A, mbs, further, h⟩ := P.ecs_added
  rw [EqClassMgr.computeInitialEcs_eq] at h
  obtain ⟨m, hm, hrest⟩ := Option.bind_eq_some_iff.mp h
  obtain ⟨m₁, hm₁, h₁⟩ :=
    EqClassMgr.added_reset.addEcs A (EqClassMgr.initialCalls P.openflow mbs)
  obtain rfl := Option.some.inj (hm₁.symm.trans hm)
  obtain ⟨m₂, hm₂, h₂⟩ := h₁.addEcs A further
  obtain rfl := Option.some.inj (hm₂.symm.trans hrest)
  exact ⟨_, mbs, h₂, fun c hc => .inr (.inl hc)⟩

theorem findEc_isSome_of_hasIp (hn : n ∈ P.network.nodes) {a : IPv4Address}
    (ha : P.network.hasIp n a = true) : (P.ecs.findEc a).isSome := by
  obtain ⟨calls, mbs, hadded, hcalls⟩ := P.added
  rw [hadded.findEc_isSome]
  refine ⟨_, hcalls _ (EqClassMgr.mem_initialCalls_of_hasIp P.openflow mbs hn ha), ?_⟩
  exact IPRange.mem_ofAddr.mpr rfl

theorem representativeAddr_of_isEc (hec : P.IsEc ec) :
    ∃ a, EqClass.representativeAddr (P.ecs.ranges ec) = some a ∧ P.ecs.findEc a = some ec := by
  obtain ⟨calls, mbs, hadded, -⟩ := P.added
  obtain ⟨x, hx⟩ := hec
  exact hadded.representativeAddr hx

theorem uniform_of_isEc (hec : P.IsEc ec) : EqClass.Uniform P.openflow (P.ecs.ranges ec) := by
  obtain ⟨calls, mbs, hadded, hcalls⟩ := P.added
  obtain ⟨L, hL⟩ := hadded.live
  obtain ⟨x, hx⟩ := hec
  exact hadded.uniform hcalls hL hx

def nextHops (P : Plankton) (ec : EcPtr) (n : NodePtr) : List FibIpnh :=
  ((EqClass.representativeAddr (P.ecs.ranges ec)).bind fun a =>
    P.network.getIpnhs n (P.network.node n).rib a).getD []

theorem updateFib_of_noUpdates (hof : P.openflow.updates = []) (hec : P.IsEc ec)
    (st : OpenflowUpdateState) :
    ∃ fib, P.openflow.updateFib st (P.ecs.ranges ec) = some fib ∧
      ∀ n ∈ P.network.nodes, fib n = some (P.nextHops ec n) := by
  obtain ⟨a, ha, -⟩ := representativeAddr_of_isEc hec
  have hbase : ∀ n ∈ P.network.nodes,
      (P.network.getIpnhs n (P.network.node n).rib a).isSome := by
    intro n _
    exact Option.isSome_iff_exists.mpr (P.network.getIpnhs_isSome n _ a)
  refine ⟨fun n => if n ∈ P.network.nodes then
    P.network.getIpnhs n (P.network.node n).rib a else none, ?_, ?_⟩
  · unfold OpenflowProcess.updateFib OpenflowProcess.fibFor
    rw [ha, Option.bind_some, OpenflowProcess.foldlM_setIpnhs P.network.nodes hbase,
      Option.bind_some, hof]
    rfl
  · intro n hn
    obtain ⟨nhs, hnhs⟩ := Option.isSome_iff_exists.mp (hbase n hn)
    show (if n ∈ P.network.nodes then _ else none) = _
    rw [if_pos hn, nextHops, ha, Option.bind_some, hnhs]
    rfl

theorem nextHops_cases (hn : (P.network.node n).isEmulated = false) (hh : h ∈ P.nextHops ec n) :
    (h = .accept n ∧ ∃ a, P.network.hasIp n a = true) ∨
      ∃ r ∈ (P.network.node n).rib, r.egressIntf ≠ 0 ∧
        ∃ a, P.network.getIpnh n r.egressIntf a = some h := by
  unfold nextHops at hh
  cases ha : EqClass.representativeAddr (P.ecs.ranges ec) with
  | none => simp [ha] at hh
  | some a =>
    obtain ⟨nhs, hnhs, -, hmem⟩ := Network.getIpnhs_spec n hn (P.network.node n).rib a
    rw [ha, Option.bind_some, hnhs, Option.getD_some] at hh
    obtain ⟨x, -, hyields⟩ := (hmem h).mp hh
    obtain ⟨r, hr, hitem⟩ := List.mem_map.mp hyields
    split_ifs at hitem with hintf hip
    · obtain rfl := Option.some.inj (Sum.inr.inj hitem)
      exact .inl ⟨rfl, x, hip⟩
    · exact .inr ⟨r, Network.mem_of_mem_lookup hr, hintf, x, Sum.inr.inj hitem⟩

theorem l3Node_mem (hn : n ∈ P.network.nodes) (hemu : (P.network.node n).isEmulated = false)
    (hh : h ∈ P.nextHops ec n) : h.l3Node ∈ P.network.nodes := by
  rcases nextHops_cases hemu hh with ⟨rfl, -⟩ | ⟨r, -, -, a, ha⟩
  · exact hn
  · exact Network.getIpnh_mem ha

/-- Packets of the class are passed on from a node to another one. -/
def PassesTo (P : Plankton) (ec : EcPtr) (n n' : NodePtr) : Prop :=
  n ∈ P.network.nodes ∧ n' ≠ n ∧ ∃ h ∈ P.nextHops ec n, h.l3Node = n'

def LoopFree (P : Plankton) : Prop := ∀ ec, P.IsEc ec → Acyclic (P.PassesTo ec)

end Plankton

end Neo
