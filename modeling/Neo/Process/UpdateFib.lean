import Neo.Process.Openflow
import Neo.Network.Ipnhs

/-! What `update_fib` computes. A class that no network splits is looked up like any single one
of its addresses, and the entry of a node depends only on how many of its own updates are
installed. -/

namespace Neo

def Route.Respects (route : Route) (ec : EqClass) : Prop :=
  ∀ range ∈ ec, ∀ a ∈ range.toIPRange, ∀ range' ∈ ec, ∀ b ∈ range'.toIPRange,
    route.network.contains a = route.network.contains b

def OpenflowProcess.Knows {net : Network} (of : OpenflowProcess net.toTopology) (n : NodePtr)
    (r : Route) : Prop := r ∈ (net.node n).rib ∨ r ∈ of.updatesOf n

/-- The class has addresses, no network of a route splits it, and several addresses of it are no
interface's. -/
structure EqClass.Uniform {net : Network} (of : OpenflowProcess net.toTopology) (ec : EqClass) :
    Prop where
  nonempty : ec ≠ []
  respects : ∀ n ∈ net.nodes, ∀ r, of.Knows n r → r.Respects ec
  owned : ∀ range ∈ ec, ∀ a ∈ range.toIPRange, ∀ range' ∈ ec, ∀ b ∈ range'.toIPRange,
    a = b ∨ net.Unowned a ∧ net.Unowned b

def EqClass.ofAddr (a : IPv4Address) : EqClass := [.ofRange (.ofAddr a)]

theorem EqClass.uniform_ofAddr {net : Network} (of : OpenflowProcess net.toTopology)
    (a : IPv4Address) : EqClass.Uniform of (.ofAddr a) := by
  have hmem : ∀ range ∈ EqClass.ofAddr a, ∀ x ∈ range.toIPRange, x = a := by
    intro range hr x hx
    obtain rfl := List.mem_singleton.mp hr
    exact IPRange.mem_ofAddr.mp hx
  refine ⟨List.cons_ne_nil _ _, ?_, ?_⟩
  · intro n hn r hr range hrange x hx range' hrange' y hy
    rw [hmem range hrange x hx, hmem range' hrange' y hy]
  · intro range hrange x hx range' hrange' y hy
    exact .inl ((hmem range hrange x hx).trans (hmem range' hrange' y hy).symm)

namespace Route

variable {route : Route} {ec : EqClass}

theorem relevantToEc_eq_of_forall (hne : ec ≠ []) {b : Bool}
    (h : ∀ range ∈ ec, route.network.containsRange range.toIPRange = b) :
    route.relevantToEc ec = some b := by
  have key : ∀ rest : EqClass, (∀ range ∈ rest, range ∈ ec) →
      rest.foldlM route.relevantToRange (some b) = some (some b) := by
    intro rest
    induction rest with
    | nil => exact fun _ => rfl
    | cons range rest ih =>
      intro hsub
      rw [List.foldlM_cons]
      have hb := h range (hsub range (List.mem_cons_self ..))
      simp only [relevantToRange, hb, ne_eq, not_true_eq_false, if_false]
      exact ih fun q hq => hsub q (List.mem_cons_of_mem _ hq)
  cases ec with
  | nil => exact absurd rfl hne
  | cons range rest =>
    rw [relevantToEc, List.foldlM_cons]
    have hb := h range (List.mem_cons_self ..)
    have hrest := key rest fun q hq => List.mem_cons_of_mem _ hq
    simp only [relevantToRange, hb, Option.bind_eq_bind, Option.bind_some, hrest]
    rfl

theorem Respects.relevantToEc (h : route.Respects ec) {range : ECRange} (hr : range ∈ ec)
    {a : IPv4Address} (ha : a ∈ range.toIPRange) :
    route.relevantToEc ec = some (route.network.contains a) := by
  apply relevantToEc_eq_of_forall (List.ne_nil_of_mem hr)
  intro q hq
  rw [Bool.eq_iff_iff, IPNetwork.containsRange_iff]
  constructor
  · intro hall
    have hlb := IPNetwork.contains_iff.mpr (hall q.lb q.toIPRange.lb_mem)
    rwa [h range hr a ha q hq q.lb q.toIPRange.lb_mem]
  · intro hc x hx
    apply IPNetwork.contains_iff.mp
    rwa [← h range hr a ha q hq x hx]

end Route

theorem applyUpdates_eq {add : RoutingTable → Route → RoutingTable} {ec : EqClass}
    {relevant : Route → Bool} {installed : List Route}
    (h : ∀ u ∈ installed, u.relevantToEc ec = some (relevant u)) (rib : RoutingTable) :
    applyUpdates add ec rib installed = some ((installed.filter relevant).foldl add rib) := by
  unfold applyUpdates
  induction installed generalizing rib with
  | nil => rfl
  | cons u us ih =>
    rw [List.foldlM_cons, h u (List.mem_cons_self ..), List.filter_cons]
    have ih' := ih fun v hv => h v (List.mem_cons_of_mem _ hv)
    cases hu : relevant u with
    | true => exact ih' (add rib u)
    | false => exact ih' rib

theorem mem_of_mem_foldl {add : RoutingTable → Route → RoutingTable}
    (hadd : ∀ tbl r q, q ∈ add tbl r → q = r ∨ q ∈ tbl) {us : List Route} {rib : RoutingTable}
    {q : Route} (h : q ∈ us.foldl add rib) : q ∈ rib ∨ q ∈ us := by
  induction us generalizing rib with
  | nil => exact .inl h
  | cons u us ih =>
    rcases ih h with hq | hq
    · rcases hadd rib u q hq with rfl | hq
      · exact .inr (List.mem_cons_self ..)
      · exact .inl hq
    · exact .inr (List.mem_cons_of_mem _ hq)

namespace Network

theorem getIpnhs_isSome (net : Network) (n : NodePtr) (rib : RoutingTable) (dst : IPv4Address) :
    ∃ nhs, net.getIpnhs n rib dst = some nhs := by
  cases hn : (net.node n).isEmulated with
  | true => exact ⟨[], by simp [getIpnhs, hn]⟩
  | false =>
    obtain ⟨nhs, hnhs, -⟩ := getIpnhs_spec n hn rib dst
    exact ⟨nhs, hnhs⟩

end Network

namespace OpenflowProcess

variable {net : Network} (of : OpenflowProcess net.toTopology)

def Legal (st : OpenflowUpdateState) : Prop :=
  List.Forall₂ (fun p num => num ≤ p.2.length) of.updates st

def installed (st : OpenflowUpdateState) (n : NodePtr) : Nat :=
  (((of.updates.map Prod.fst).zip st).lookup n).getD 0

/-- The entry of a node: its own next hops where those with the updates are empty. -/
def nodeNextHops (net : Network) (n : NodePtr) (updates : List Route) (numInstalled : Nat)
    (ec : EqClass) (addr : IPv4Address) : Option (List FibIpnh) :=
  (installedNextHops net n updates numInstalled ec addr).bind fun nextHops =>
    if nextHops = [] then net.getIpnhs n (net.node n).rib addr else some nextHops

variable {of}

theorem lookup_of_pairwise {β : Type*} {l : List (NodePtr × β)}
    (hl : l.Pairwise fun p q => p.1 < q.1) {n : NodePtr} {b : β} (h : (n, b) ∈ l) :
    l.lookup n = some b := by
  obtain ⟨l₁, l₂, rfl⟩ := List.append_of_mem h
  apply List.lookup_eq_some_iff.mpr
  refine ⟨l₁, l₂, rfl, fun q hq => ?_⟩
  have hlt := (List.pairwise_append.mp hl).2.2 q hq (n, b) (List.mem_cons_self ..)
  simpa using hlt.ne'

theorem updatesOf_of_mem {p : NodePtr × List Route} (h : p ∈ of.updates) :
    of.updatesOf p.1 = p.2 := by
  rw [updatesOf, lookup_of_pairwise of.sorted h]
  rfl

theorem exists_mem_zip {st : OpenflowUpdateState} (hst : of.Legal st)
    {p : NodePtr × List Route} (hp : p ∈ of.updates) :
    ∃ num, (p, num) ∈ of.updates.zip st := by
  obtain ⟨i, hi, rfl⟩ := List.getElem_of_mem hp
  have hi' : i < st.length := by rwa [← hst.length_eq]
  refine ⟨st[i], List.mem_iff_getElem.mpr ⟨i, ?_, ?_⟩⟩
  · simp [hi, hi']
  · simp

theorem installed_of_mem {st : OpenflowUpdateState} (hst : of.Legal st)
    {p : NodePtr × List Route} {num : Nat} (h : (p, num) ∈ of.updates.zip st) :
    of.installed st p.1 = num := by
  have hkeys : ((of.updates.map Prod.fst).zip st).map Prod.fst = of.updates.map Prod.fst :=
    List.map_fst_zip (by rw [List.length_map, hst.length_eq])
  have hsorted : ((of.updates.map Prod.fst).zip st).Pairwise fun p q => p.1 < q.1 := by
    rw [← List.pairwise_map, hkeys, List.pairwise_map]
    exact of.sorted
  have hmem : (p.1, num) ∈ (of.updates.map Prod.fst).zip st := by
    rw [List.zip_map_left]
    exact List.mem_map_of_mem h
  rw [installed, lookup_of_pairwise hsorted hmem]
  rfl

theorem updatesOf_of_notMem {n : NodePtr} (h : ∀ p ∈ of.updates, p.1 ≠ n) :
    of.updatesOf n = [] := by
  have hnone : of.updates.lookup n = none := by
    apply List.lookup_eq_none_iff.mpr
    intro p hp
    simpa using (h p hp).symm
  rw [updatesOf, hnone]
  rfl

theorem installed_of_notMem {st : OpenflowUpdateState} {n : NodePtr}
    (h : ∀ p ∈ of.updates, p.1 ≠ n) : of.installed st n = 0 := by
  have hnone : ((of.updates.map Prod.fst).zip st).lookup n = none := by
    apply List.lookup_eq_none_iff.mpr
    intro p hp
    obtain ⟨q, hq, hqp⟩ := List.mem_map.mp (List.of_mem_zip hp).1
    simpa using hqp ▸ (h q hq).symm
  rw [installed, hnone]
  rfl

theorem installed_le {st : OpenflowUpdateState} (hst : of.Legal st) (n : NodePtr) :
    of.installed st n ≤ (of.updatesOf n).length := by
  by_cases hup : ∃ p ∈ of.updates, p.1 = n
  · obtain ⟨p, hp, rfl⟩ := hup
    obtain ⟨num, hzip⟩ := exists_mem_zip hst hp
    rw [installed_of_mem hst hzip, updatesOf_of_mem hp]
    exact List.forall₂_zip hst hzip
  · have hnot : ∀ p ∈ of.updates, p.1 ≠ n := fun p hp hpn => hup ⟨p, hp, hpn⟩
    rw [installed_of_notMem hnot]
    exact Nat.zero_le _

theorem foldlM_setIpnhs {f : NodePtr → Option (List FibIpnh)} (l : List NodePtr)
    (hf : ∀ n ∈ l, (f n).isSome) (fib : FIB) :
    l.foldlM (fun (fib : FIB) n => (f n).map (fib.setIpnhs n)) fib =
      some fun n => if n ∈ l then f n else fib n := by
  induction l generalizing fib with
  | nil => simp
  | cons m l ih =>
    obtain ⟨nhs, hm⟩ := Option.isSome_iff_exists.mp (hf m (List.mem_cons_self ..))
    rw [List.foldlM_cons, hm]
    apply (ih (fun n hn => hf n (List.mem_cons_of_mem _ hn)) _).trans
    apply congrArg some
    funext n
    by_cases hnl : n ∈ l
    · simp [hnl]
    · by_cases hnm : n = m
      · subst hnm
        simp [hnl, FIB.setIpnhs, hm]
      · simp [hnl, hnm, FIB.setIpnhs]

theorem installedEntries_spec (ec : EqClass) (addr : IPv4Address)
    {l : List (NodePtr × List Route)} {st : OpenflowUpdateState}
    (hst : List.Forall₂ (fun p num => num ≤ p.2.length) l st)
    (hsorted : l.Pairwise fun p q => p.1 < q.1)
    (hsome : ∀ p ∈ l, ∀ num ≤ p.2.length,
      ∃ nhs, installedNextHops net p.1 p.2 num ec addr = some nhs) :
    ∃ entries, installedEntries net ec addr l st = some entries ∧ ∀ fib : FIB,
      (∀ n, (∀ p ∈ l, p.1 ≠ n) →
        entries.foldl (fun fib e => fib.setIpnhs e.1 e.2) fib n = fib n) ∧
      ∀ p num, (p, num) ∈ l.zip st →
        entries.foldl (fun fib e => fib.setIpnhs e.1 e.2) fib p.1 =
          (installedNextHops net p.1 p.2 num ec addr).bind fun nhs =>
            if nhs = [] then fib p.1 else some nhs := by
  induction hst with
  | nil => exact ⟨[], rfl, fun fib => ⟨fun _ _ => rfl, by simp⟩⟩
  | @cons q k l st hk hst ih =>
    obtain ⟨hlt, hsorted⟩ := List.pairwise_cons.mp hsorted
    obtain ⟨nhs, hnhs⟩ := hsome q (List.mem_cons_self ..) k hk
    obtain ⟨entries, hentries, hfold⟩ := ih hsorted fun p hp => hsome p (List.mem_cons_of_mem _ hp)
    refine ⟨if nhs = [] then entries else (q.1, nhs) :: entries, ?_, fun fib => ⟨?_, ?_⟩⟩
    · rw [installedEntries, hnhs, Option.bind_some, hentries]
      rfl
    · intro n hn
      have hnq : n ≠ q.1 := (hn q (List.mem_cons_self ..)).symm
      have hrest := fun fib => (hfold fib).1 n fun p hp => hn p (List.mem_cons_of_mem _ hp)
      split_ifs
      · exact hrest fib
      · rw [List.foldl_cons, hrest, FIB.setIpnhs, if_neg hnq]
    · intro p num hp
      rw [List.zip_cons_cons, List.mem_cons] at hp
      rcases hp with hp | hp
      · -- the head: no later entry is for the same node
        obtain ⟨rfl, rfl⟩ := Prod.mk.inj hp
        have hrest := fun fib => (hfold fib).1 p.1 fun q hq => (hlt q hq).ne'
        rw [hnhs, Option.bind_some]
        split_ifs
        · exact hrest fib
        · rw [List.foldl_cons, hrest, FIB.setIpnhs, if_pos rfl]
      · -- an entry of another node does not matter to this one
        have hne : p.1 ≠ q.1 := (hlt p (List.of_mem_zip hp).1).ne'
        split_ifs
        · exact (hfold fib).2 p num hp
        · rw [List.foldl_cons, (hfold _).2 p num hp, FIB.setIpnhs, if_neg hne]

/-- The table of a node with the first updates installed that contain an address. -/
def installedRib (add : RoutingTable → Route → RoutingTable) (net : Network) (n : NodePtr)
    (updates : List Route) (numInstalled : Nat) (addr : IPv4Address) : RoutingTable :=
  ((updates.take numInstalled).filter fun u => u.network.contains addr).foldl add (net.node n).rib

theorem knows_of_mem {p : NodePtr × List Route} (hp : p ∈ of.updates) {r : Route}
    (hr : r ∈ p.2) : of.Knows p.1 r := .inr (by rwa [updatesOf_of_mem hp])

theorem mem_installedRib {add : RoutingTable → Route → RoutingTable}
    (hadd : ∀ tbl r q, q ∈ add tbl r → q = r ∨ q ∈ tbl) {n : NodePtr} {num : Nat}
    {addr : IPv4Address} {r : Route}
    (h : r ∈ installedRib add net n (of.updatesOf n) num addr) : of.Knows n r := by
  refine (mem_of_mem_foldl hadd h).imp_right fun hr => ?_
  exact List.mem_of_mem_take (List.mem_filter.mp hr).1

section Uniform
variable {ec : EqClass} {range : ECRange} {addr : IPv4Address} {n : NodePtr}

theorem applyUpdates_take (hU : ec.Uniform of) (hn : n ∈ net.nodes) (hr : range ∈ ec)
    (ha : addr ∈ range.toIPRange) (add : RoutingTable → Route → RoutingTable) (num : Nat) :
    applyUpdates add ec (net.node n).rib ((of.updatesOf n).take num) =
      some (installedRib add net n (of.updatesOf n) num addr) := by
  apply applyUpdates_eq
  intro u hu
  exact (hU.respects n hn u (.inr (List.mem_of_mem_take hu))).relevantToEc hr ha

theorem installedNextHops_eq (hU : ec.Uniform of) (hn : n ∈ net.nodes) (hr : range ∈ ec)
    (ha : addr ∈ range.toIPRange) {num : Nat} (hnum : num ≤ (of.updatesOf n).length)
    (a : IPv4Address) :
    installedNextHops net n (of.updatesOf n) num ec a =
      net.getIpnhs n (installedRib RoutingTable.update net n (of.updatesOf n) num addr) a := by
  rw [installedNextHops, if_pos hnum, applyUpdates_take hU hn hr ha, Option.bind_some]

theorem nodeNextHops_isSome (hU : ec.Uniform of) (hn : n ∈ net.nodes) (num : Nat)
    (hnum : num ≤ (of.updatesOf n).length) (a : IPv4Address) :
    ∃ nhs, nodeNextHops net n (of.updatesOf n) num ec a = some nhs := by
  obtain ⟨range, hr⟩ := List.exists_mem_of_ne_nil ec hU.nonempty
  obtain ⟨nhs, hnhs⟩ := net.getIpnhs_isSome n
    (installedRib RoutingTable.update net n (of.updatesOf n) num range.lb) a
  rw [nodeNextHops, installedNextHops_eq hU hn hr range.toIPRange.lb_mem hnum, hnhs,
    Option.bind_some]
  split_ifs
  · exact net.getIpnhs_isSome n _ a
  · exact ⟨nhs, rfl⟩

theorem fibFor_spec (hU : ec.Uniform of) {st : OpenflowUpdateState} (hst : of.Legal st)
    (a : IPv4Address) :
    ∃ fib, of.fibFor st ec a = some fib ∧ ∀ n, fib n = if n ∈ net.nodes then
      nodeNextHops net n (of.updatesOf n) (of.installed st n) ec a else none := by
  obtain ⟨range, hr⟩ := List.exists_mem_of_ne_nil ec hU.nonempty
  have hbase : ∀ n ∈ net.nodes, (net.getIpnhs n (net.node n).rib a).isSome := fun n _ =>
    Option.isSome_iff_exists.mpr (net.getIpnhs_isSome n _ a)
  obtain ⟨entries, hentries, hfold⟩ := installedEntries_spec ec a hst of.sorted
    fun p hp num hnum => by
      rw [← updatesOf_of_mem hp] at hnum ⊢
      rw [installedNextHops_eq hU (of.node_mem p hp).1 hr range.toIPRange.lb_mem hnum]
      exact net.getIpnhs_isSome p.1 _ a
  unfold fibFor
  rw [foldlM_setIpnhs net.nodes hbase, Option.bind_some, hentries]
  refine ⟨_, rfl, fun n => ?_⟩
  dsimp only
  by_cases hup : ∃ p ∈ of.updates, p.1 = n
  · -- a node with updates: its entry is decided by the second loop
    obtain ⟨p, hp, rfl⟩ := hup
    obtain ⟨num, hzip⟩ := exists_mem_zip hst hp
    have hnode := (of.node_mem p hp).1
    rw [(hfold _).2 p num hzip, if_pos hnode, if_pos hnode, installed_of_mem hst hzip,
      updatesOf_of_mem hp, nodeNextHops]
  · have hnot : ∀ p ∈ of.updates, p.1 ≠ n := fun p hp hpn => hup ⟨p, hp, hpn⟩
    rw [(hfold _).1 n hnot]
    split_ifs with hn
    · rw [nodeNextHops, updatesOf_of_notMem hnot, installed_of_notMem hnot, installedNextHops,
        if_pos (Nat.zero_le _)]
      obtain ⟨nhs, hnhs⟩ := net.getIpnhs_isSome n (net.node n).rib a
      simp only [List.take_nil, applyUpdates, List.foldlM_nil, Option.pure_def, Option.bind_some,
        hnhs]
      split_ifs with h
      · rw [h]
      · rfl
    · rfl

theorem getIpnhs_uniform (hU : ec.Uniform of) (hn : n ∈ net.nodes) {range' : ECRange}
    {b : IPv4Address} (hr : range ∈ ec) (ha : addr ∈ range.toIPRange) (hr' : range' ∈ ec)
    (hb : b ∈ range'.toIPRange) {rib : RoutingTable} (hrib : ∀ r ∈ rib, of.Knows n r) :
    net.getIpnhs n rib addr = net.getIpnhs n rib b := by
  apply Network.getIpnhs_eq hn
  · intro r hmem
    exact hU.respects n hn r (hrib r hmem) range hr addr ha range' hr' b hb
  · exact hU.owned range hr addr ha range' hr' b hb

theorem knows_installedRib {num : Nat} :
    ∀ r ∈ installedRib RoutingTable.update net n (of.updatesOf n) num addr, of.Knows n r := by
  intro r hr
  apply mem_installedRib _ hr
  intro tbl r q hq
  exact (RoutingTable.mem_update.mp hq).imp_right And.left

theorem updateFib_eq_fibFor (hU : ec.Uniform of) {st : OpenflowUpdateState} (hst : of.Legal st)
    (hr : range ∈ ec) (ha : addr ∈ range.toIPRange) :
    of.updateFib st ec = of.fibFor st ec addr := by
  obtain ⟨first, rest, rfl⟩ := List.exists_cons_of_ne_nil hU.nonempty
  have hfirst : first ∈ first :: rest := List.mem_cons_self ..
  obtain ⟨fib, hfib, hnode⟩ := fibFor_spec hU hst first.lb
  obtain ⟨fib', hfib', hnode'⟩ := fibFor_spec hU hst addr
  have hupdate : of.updateFib st (first :: rest) = of.fibFor st (first :: rest) first.lb := rfl
  rw [hupdate, hfib, hfib']
  apply congrArg some
  funext m
  rw [hnode, hnode']
  split_ifs with hm
  · have hnum := installed_le hst m
    unfold nodeNextHops
    rw [installedNextHops_eq hU hm hr ha hnum, installedNextHops_eq hU hm hr ha hnum,
      getIpnhs_uniform hU hm hfirst first.toIPRange.lb_mem hr ha knows_installedRib,
      getIpnhs_uniform hU hm hfirst first.toIPRange.lb_mem hr ha fun r h => .inl h]
  · rfl

end Uniform

end OpenflowProcess

end Neo
