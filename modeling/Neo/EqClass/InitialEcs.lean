import Neo.EqClass.Partition
import Neo.Process.UpdateFib

/-! The classes of a network. Every interface address and every network of a route is added, so
a class is uniform: no route splits it, and addresses that some node owns are alone in theirs. -/

namespace Neo

structure MiddleboxEcs where
  ecIpPrefixes : List IPNetwork
  ecIpAddrs : List IPv4Address

namespace EqClassMgr

def EcCall.ofNetwork (net : IPNetwork) : EcCall := ⟨net.range, false⟩

def EcCall.ofAddr (addr : IPv4Address) (owned : Bool) : EcCall := ⟨.ofAddr addr, owned⟩

def nodeCalls (t : Topology) (n : NodePtr) : List EcCall :=
  (Ordered.ofList (· < ·) ((t.intfsL3 n).map fun i => (t.intf i).addr)).map
      (fun addr => .ofAddr addr true) ++
    (t.node n).rib.map fun route => .ofNetwork route.network

/-- The calls of `compute_initial_ecs` in order. -/
def initialCalls {t : Topology} (of : OpenflowProcess t) (mbs : List MiddleboxEcs) :
    List EcCall :=
  t.nodes.flatMap (nodeCalls t) ++
    of.updates.flatMap (fun update => update.2.map fun route => .ofNetwork route.network) ++
    mbs.flatMap fun mb =>
      mb.ecIpPrefixes.map .ofNetwork ++ mb.ecIpAddrs.map fun addr => .ofAddr addr false

def computeInitialEcs (A : Allocator) {t : Topology} (of : OpenflowProcess t)
    (mbs : List MiddleboxEcs) (m : EqClassMgr) : Option EqClassMgr := do
  let m ← t.nodes.foldlM (fun m n => do
    let addrs := Ordered.ofList (· < ·) ((t.intfsL3 n).map fun i => (t.intf i).addr)
    let m ← addrs.foldlM (fun m addr => m.addEcAddr A addr true) m
    (t.node n).rib.foldlM (fun m route => m.addEcNetwork A route.network) m) m
  -- the networks of the updates, and what the middleboxes name
  let m ← of.updates.foldlM (fun m update =>
    update.2.foldlM (fun m route => m.addEcNetwork A route.network) m) m
  mbs.foldlM (fun m mb => do
    let m ← mb.ecIpPrefixes.foldlM (fun m net => m.addEcNetwork A net) m
    mb.ecIpAddrs.foldlM (fun m addr => m.addEcAddr A addr false) m) m

theorem addEcs_append (A : Allocator) (l l' : List EcCall) (m : EqClassMgr) :
    m.addEcs A (l ++ l') = (m.addEcs A l).bind (·.addEcs A l') := List.foldlM_append

theorem addEcs_flatMap (A : Allocator) {α : Type} (f : α → List EcCall) (l : List α) :
    ∀ m : EqClassMgr, m.addEcs A (l.flatMap f) = l.foldlM (fun m a => m.addEcs A (f a)) m := by
  induction l with
  | nil => exact fun _ => rfl
  | cons a l ih =>
    intro m
    rw [List.flatMap_cons, addEcs_append, List.foldlM_cons]
    exact Option.bind_congr fun m' _ => ih m'

theorem addEcs_map (A : Allocator) {α : Type} (f : α → EcCall) (l : List α) (m : EqClassMgr) :
    m.addEcs A (l.map f) = l.foldlM (fun m a => m.addEc A (f a).range (f a).owned) m :=
  List.foldlM_map

theorem computeInitialEcs_eq (A : Allocator) {t : Topology} (of : OpenflowProcess t)
    (mbs : List MiddleboxEcs) (m : EqClassMgr) :
    m.computeInitialEcs A of mbs = m.addEcs A (initialCalls of mbs) := by
  simp only [initialCalls, nodeCalls, addEcs_append, addEcs_flatMap, addEcs_map, Option.bind_assoc]
  rfl

section Calls
variable {net : Network} (of : OpenflowProcess net.toTopology) (mbs : List MiddleboxEcs)

theorem mem_initialCalls_of_hasIp {n : NodePtr} (hn : n ∈ net.nodes) {a : IPv4Address}
    (ha : net.hasIp n a = true) : EcCall.ofAddr a true ∈ initialCalls of mbs := by
  have hmem : a ∈ (net.intfsL3 n).map fun i => (net.intf i).addr := by
    simpa [Topology.hasIp] using ha
  have hcall : EcCall.ofAddr a true ∈ nodeCalls net.toTopology n := by
    apply List.mem_append_left
    exact List.mem_map_of_mem (Ordered.mem_ofList.mpr hmem)
  apply List.mem_append_left
  apply List.mem_append_left
  exact List.mem_flatMap.mpr ⟨n, hn, hcall⟩

theorem mem_initialCalls_of_knows {n : NodePtr} (hn : n ∈ net.nodes) {r : Route}
    (hr : of.Knows n r) : EcCall.ofNetwork r.network ∈ initialCalls of mbs := by
  apply List.mem_append_left
  rcases hr with hr | hr
  · apply List.mem_append_left
    apply List.mem_flatMap.mpr
    exact ⟨n, hn, List.mem_append_right _ (List.mem_map_of_mem hr)⟩
  · apply List.mem_append_right
    apply List.mem_flatMap.mpr
    unfold OpenflowProcess.updatesOf at hr
    cases hlookup : of.updates.lookup n with
    | none => simp [hlookup] at hr
    | some updates =>
      obtain ⟨l₁, l₂, hl, -⟩ := List.lookup_eq_some_iff.mp hlookup
      rw [hlookup] at hr
      exact ⟨(n, updates), by simp [hl], List.mem_map_of_mem hr⟩

end Calls

theorem Added.uniform {net : Network} {of : OpenflowProcess net.toTopology}
    {mbs : List MiddleboxEcs} {calls : Set EcCall} {m : EqClassMgr} (h : Added calls m)
    (hcalls : ∀ c ∈ initialCalls of mbs, c ∈ calls) {L : Set EcPtr} (hL : Live m L) {e : EcPtr}
    {x : IPv4Address} (hx : m.findEc x = some e) : EqClass.Uniform of (m.ranges e) := by
  have heL : e ∈ L := hL.findEc_mem hx
  have hsame : ∀ range ∈ m.ranges e, ∀ a ∈ range.toIPRange, ∀ range' ∈ m.ranges e,
      ∀ b ∈ range'.toIPRange, m.findEc a = m.findEc b := by
    intro range hr a ha range' hr' b hb
    have hae := (hL.findEc_iff heL).mpr ⟨range, hr, ha⟩
    have hbe := (hL.findEc_iff heL).mpr ⟨range', hr', hb⟩
    exact hae.trans hbe.symm
  refine ⟨?_, ?_, ?_⟩
  · obtain ⟨range, hr, -⟩ := (hL.findEc_iff heL).mp hx
    exact List.ne_nil_of_mem hr
  · intro n hn r hr range hrange a ha range' hrange' b hb
    have hab := (h.findEc_eq_iff a b).mp (hsame range hrange a ha range' hrange' b hb)
      (.ofNetwork r.network) (hcalls _ (mem_initialCalls_of_knows of mbs hn hr))
    rw [Bool.eq_iff_iff, IPNetwork.contains_iff, IPNetwork.contains_iff]
    exact hab
  · intro range hrange a ha range' hrange' b hb
    have hab := (h.findEc_eq_iff a b).mp (hsame range hrange a ha range' hrange' b hb)
    have hone : ∀ n ∈ net.nodes, ∀ c, net.hasIp n c = true → (a = c ↔ b = c) := by
      intro n hn c hc
      have := hab (.ofAddr c true) (hcalls _ (mem_initialCalls_of_hasIp of mbs hn hc))
      simpa [EcCall.ofAddr] using this
    by_cases heq : a = b
    · exact .inl heq
    · refine .inr ⟨fun n hn => ?_, fun n hn => ?_⟩
      · rw [Bool.eq_false_iff]
        intro hip
        exact heq ((hone n hn a hip).mp rfl).symm
      · rw [Bool.eq_false_iff]
        intro hip
        exact heq ((hone n hn b hip).mpr rfl)

/-- Addresses of one class have the same next hops at every node, whatever updates are installed;
no update splits a class; and the FIB of a class is that of each of its addresses. -/
theorem computeInitialEcs_sound (A : Allocator) {net : Network}
    (of : OpenflowProcess net.toTopology) (mbs : List MiddleboxEcs) (further : List EcCall) :
    ∃ m, (reset.computeInitialEcs A of mbs).bind (·.addEcs A further) = some m ∧
      (∀ e a b, m.findEc a = some e → m.findEc b = some e → ∀ n ∈ net.nodes,
        (net.node n).isEmulated = false → ∀ num ≤ (of.updatesOf n).length, ∃ rib nhs,
          applyUpdates RoutingTable.update (m.ranges e) (net.node n).rib
            ((of.updatesOf n).take num) = some rib ∧
          net.getIpnhs n rib a = some nhs ∧ net.getIpnhs n rib b = some nhs) ∧
      (∀ e a, m.findEc a = some e → ∀ p ∈ of.updates, ∀ u ∈ p.2, ∃ relevant,
        u.relevantToEc (m.ranges e) = some relevant ∧
        (relevant = true ↔ ∀ b, m.findEc b = some e → u.network.contains b = true)) ∧
      ∀ e a, m.findEc a = some e → ∀ st, of.Legal st → ∃ fib,
        of.updateFib st (m.ranges e) = some fib ∧ of.fibFor st (m.ranges e) a = some fib := by
  obtain ⟨m, hm, h⟩ := added_reset.addEcs A (initialCalls of mbs ++ further)
  rw [Set.union_empty] at h
  obtain ⟨L, hL⟩ := h.live
  have hU : ∀ e a, m.findEc a = some e → EqClass.Uniform of (m.ranges e) := fun e a ha =>
    h.uniform (fun c hc => List.mem_append_left _ hc) hL ha
  have hrange : ∀ e a, m.findEc a = some e → ∃ range ∈ m.ranges e, a ∈ range.toIPRange :=
    fun e a ha => (hL.findEc_iff (hL.findEc_mem ha)).mp ha
  refine ⟨m, ?_, ?_, ?_, ?_⟩
  · rw [addEcs_append] at hm
    rw [computeInitialEcs_eq]
    exact hm
  · intro e a b ha hb n hn hemu num hnum
    obtain ⟨range, hr, har⟩ := hrange e a ha
    obtain ⟨range', hr', hbr⟩ := hrange e b hb
    have hrib := OpenflowProcess.applyUpdates_take (hU e a ha) hn hr har RoutingTable.update num
    obtain ⟨nhs, hnhs⟩ := net.getIpnhs_isSome n
      (OpenflowProcess.installedRib RoutingTable.update net n (of.updatesOf n) num a) a
    refine ⟨_, nhs, hrib, hnhs, ?_⟩
    rwa [← OpenflowProcess.getIpnhs_uniform (hU e a ha) hn hr har hr' hbr
      OpenflowProcess.knows_installedRib]
  · intro e a ha p hp u hu
    obtain ⟨range, hr, har⟩ := hrange e a ha
    have hresp := (hU e a ha).respects p.1 (of.node_mem p hp).1 u
      (OpenflowProcess.knows_of_mem hp hu)
    refine ⟨u.network.contains a, hresp.relevantToEc hr har, ?_, ?_⟩
    · intro hc b hb
      obtain ⟨range', hr', hbr⟩ := hrange e b hb
      rwa [← hresp range hr a har range' hr' b hbr]
    · intro hall
      exact hall a ha
  · intro e a ha st hst
    obtain ⟨range, hr, har⟩ := hrange e a ha
    obtain ⟨fib, hfib, -⟩ := OpenflowProcess.fibFor_spec (hU e a ha) hst a
    refine ⟨fib, ?_, hfib⟩
    rwa [OpenflowProcess.updateFib_eq_fibFor (hU e a ha) hst hr har]

end EqClassMgr

end Neo
