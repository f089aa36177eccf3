import Neo.Invariant.EndToEnd
import Neo.ConnSpec

/-! The verdicts on all connections of a specification against the routes of the nodes. Though one
address of each class is verified, what is found is what any address of the destination meets. -/

namespace Neo

namespace ConnSpec

variable {net : Network} {spec : ConnSpec} {specs : List ConnSpec} {ports : List (BitVec 16)}

/-- The classes of a network once the destinations of specifications have been added. -/
def ecs (A : Allocator) (of : OpenflowProcess net.toTopology) (mbs : List MiddleboxEcs)
    (specs : List ConnSpec) : EqClassMgr :=
  ((EqClassMgr.reset.computeInitialEcs A of mbs).bind fun m =>
    specs.foldlM (updateInvEcs A) m).getD .reset

theorem ecs_added (A : Allocator) (of : OpenflowProcess net.toTopology)
    (mbs : List MiddleboxEcs) (specs : List ConnSpec) :
    ∃ A' mbs' further, (EqClassMgr.reset.computeInitialEcs A' of mbs').bind
      (·.addEcs A' further) = some (ecs A of mbs specs) := by
  obtain ⟨m, hm, -⟩ := EqClassMgr.computeInitialEcs_sound A of mbs (addedCalls specs)
  refine ⟨A, mbs, addedCalls specs, ?_⟩
  unfold ecs
  rw [show specs.foldlM (updateInvEcs A) = fun m => m.addEcs A (addedCalls specs) from
    funext (foldlM_updateInvEcs A specs), hm]
  rfl

def plankton (A : Allocator) (of : OpenflowProcess net.toTopology) (mbs : List MiddleboxEcs)
    (specs : List ConnSpec) : Plankton where
  network := net
  openflow := of
  ecs := ecs A of mbs specs
  ecs_added := ecs_added A of mbs specs

theorem findEc_isSome (A : Allocator) (of : OpenflowProcess net.toTopology)
    (mbs : List MiddleboxEcs) (hspec : spec ∈ specs) (hall : spec.dstIp ≠ everything)
    {x : IPv4Address} (hx : x ∈ spec.dstIp) :
    ((plankton A of mbs specs).ecs.findEc x).isSome = true := by
  obtain ⟨m₀, hm₀, h₀⟩ := EqClassMgr.added_reset.addEcs A (EqClassMgr.initialCalls of mbs)
  obtain ⟨m, hm, h⟩ := h₀.addEcs A (addedCalls specs)
  have hecs : (plankton A of mbs specs).ecs = m := by
    show ((EqClassMgr.reset.computeInitialEcs A of mbs).bind _).getD _ = m
    rw [EqClassMgr.computeInitialEcs_eq, hm₀, Option.bind_some, foldlM_updateInvEcs, hm]
    rfl
  rw [hecs, h.findEc_isSome]
  refine ⟨⟨spec.addedRange, false⟩, .inl (List.mem_map.mpr ⟨spec, hspec, rfl⟩), ?_⟩
  rw [addedRange, if_neg hall]
  exact hx

theorem exists_conn_iff (A : Allocator) (of : OpenflowProcess net.toTopology)
    (mbs : List MiddleboxEcs) (hspec : spec ∈ specs) (hall : spec.dstIp ≠ everything)
    (howned : spec.ownedDstOnly = false) (hports : spec.allDstPorts ports ≠ [])
    {V : Connection → Prop} {D : NodePtr → IPv4Address → Prop}
    (hV : ∀ src ∈ spec.srcNodes, ∀ a ec p, (plankton A of mbs specs).ecs.findEc a = some ec →
      (V (spec.conn src ec p) ↔ D src a)) :
    (∃ conn ∈ spec.computeConnections ports (plankton A of mbs specs).ecs, V conn) ↔
      ∃ src ∈ spec.srcNodes, ∃ a ∈ spec.dstIp, D src a := by
  obtain ⟨calls, mbs', hadded, -⟩ := (plankton A of mbs specs).added
  constructor
  · rintro ⟨conn, hconn, hviolated⟩
    obtain ⟨src, hmem, ec, hec, p, -, rfl⟩ := mem_computeConnections.mp hconn
    obtain ⟨a, ha, hfind⟩ := (mem_overlappedEcs hadded howned).mp hec
    exact ⟨src, hmem, a, ha, (hV src hmem a ec p hfind).mp hviolated⟩
  · rintro ⟨src, hmem, a, ha, hbad⟩
    obtain ⟨ec, hfind⟩ := Option.isSome_iff_exists.mp (findEc_isSome A of mbs hspec hall ha)
    obtain ⟨p, hp⟩ := List.exists_mem_of_ne_nil _ hports
    exact ⟨spec.conn src ec p, mem_computeConnections.mpr
      ⟨src, hmem, ec, (mem_overlappedEcs hadded howned).mpr ⟨a, ha, hfind⟩, p, hp, rfl⟩,
      (hV src hmem a ec p hfind).mpr hbad⟩

/-- The verification of a specification finds a violation if and only if some address of its
destination is not reached from some source node as it should be. -/
theorem violated_iff_destination (A : Allocator) (of : OpenflowProcess net.toTopology)
    (mbs : List MiddleboxEcs) (hnet : net.ModelOnly) (hlinked : net.Linked)
    (hof : of.updates = []) (hspec : spec ∈ specs) (hall : spec.dstIp ≠ everything)
    (howned : spec.ownedDstOnly = false) (hudp : spec.protocol ≠ .tcp)
    (hports : spec.allDstPorts ports ≠ [])
    (hsrc : ∀ n ∈ spec.srcNodes, n ∈ net.nodes ∧ net.CanSend n) (targetNodes : List NodePtr)
    (reachable : Bool) :
    (∃ conn ∈ spec.computeConnections ports (plankton A of mbs specs).ecs, ∃ s t tr,
      (plankton A of mbs specs).initModel
        (Reachability.invariants targetNodes reachable conn) = some s ∧
      Run ((plankton A of mbs specs).step (Reachability.invariants targetNodes reachable conn))
        s tr t ∧ t.choiceCount = 0 ∧ t.violated = true) ↔
    ∃ src ∈ spec.srcNodes, ∃ a ∈ spec.dstIp, ∃ n, net.Reaches a src n ∧ if reachable then
      net.Discards a n ∨ net.Accepts a n ∧ n ∉ targetNodes
    else net.Accepts a n ∧ n ∈ targetNodes := by
  apply exists_conn_iff A of mbs hspec hall howned hports
  intro src hmem a ec p ha
  exact Reachability.violated_iff_dataPlane hnet hlinked hof
    ⟨(hsrc src hmem).1, ⟨a, ha⟩, rfl, (hsrc src hmem).2⟩ hudp ha targetNodes reachable

def toPair : ConnSpec where
  protocol := .udp
  srcNodes := [0]
  dstIp := ⟨0x0A000000#32, 0x0A000001#32, by decide⟩
  srcPort := 100#16
  dstPorts := [80#16]
  ownedDstOnly := false
  isNetwork := ⟨IPInterface.network ⟨0x0A000000#32, 31, by decide⟩, by decide⟩

def pairOpenflow : OpenflowProcess (Plankton.pair false).toTopology := Plankton.noUpdates _

theorem violated_toPair :
    ∃ conn ∈ toPair.computeConnections [] (plankton .next pairOpenflow [] [toPair]).ecs, ∃ s t tr,
      (plankton .next pairOpenflow [] [toPair]).initModel
        (Reachability.invariants [1] true conn) = some s ∧
      Run ((plankton .next pairOpenflow [] [toPair]).step
        (Reachability.invariants [1] true conn)) s tr t ∧ t.choiceCount = 0 ∧
        t.violated = true := by
  have hsend : (Plankton.pair false).CanSend 0 := by
    intro i hi hl2
    obtain rfl := List.mem_singleton.mp hi
    exact absurd hl2 (by decide)
  have haccepts : (Plankton.pair false).Accepts 0x0A000000#32 0 := by
    have hnhs : (Plankton.pair false).getIpnhs 0 ((Plankton.pair false).node 0).rib 0x0A000000#32 =
        some [.accept 0] := by
      decide +kernel
    exact ⟨.accept 0, Network.sendsTo_iff.mpr ⟨_, hnhs, List.mem_singleton_self _⟩, rfl⟩
  apply (violated_iff_destination .next pairOpenflow [] (Plankton.pair_modelOnly false)
    (Plankton.pair_linked false) rfl (List.mem_singleton_self toPair) (by decide) rfl (by decide)
    (by decide) _ [1] true).mpr
  · exact ⟨0, List.mem_singleton_self 0, 0x0A000000#32, by decide, 0, .refl,
      .inr ⟨haccepts, by decide⟩⟩
  · intro n hn
    obtain rfl := List.mem_singleton.mp hn
    exact ⟨List.mem_cons_self .., hsend⟩

end ConnSpec

end Neo
