import Neo.Process.NextHops
import Neo.Process.ModelOnly
import Neo.EarlyEnd
import Mathlib.Tactic.IntervalCases
import Mathlib.Algebra.Order.BigOperators.Group.Finset

/-! Where packets are not passed on in circles the loop ends. What a connection still has to do is
measured by the phases that remain and, within a phase, by the nodes that can still be reached. -/

namespace Neo

namespace Network

def Linked (net : Network) : Prop :=
  ∀ n name n' i', net.getPeer n name = some (n', i') →
    ∃ i ∈ (net.node n).intfs, (net.intf i).name = name ∧
      net.getPeer n' (net.intf i').name = some (n, i)

/-- No switchport of a node is its loopback interface or the egress interface of a route. -/
def CanSend (net : Network) (n : NodePtr) : Prop :=
  ∀ i ∈ (net.node n).intfs, (net.intf i).isL2 = true →
    (net.intf i).name ≠ Topology.loName ∧
      ∀ r ∈ (net.node n).rib, r.egressIntf ≠ 0 → r.egressIntf ≠ (net.intf i).name

variable {net : Network} {n : NodePtr}

theorem loopbackAddr_hasIp (hsend : net.CanSend n) {x : IPv4Address}
    (hx : net.hasIp n x = true) : ∃ a, net.loopbackAddr n = some a ∧ net.hasIp n a = true := by
  unfold Topology.loopbackAddr
  split
  · next lo hlo =>
    have hmem : lo ∈ (net.node n).intfs := List.mem_of_find?_eq_some hlo
    have hname : (net.intf lo).name = Topology.loName := by
      simpa using List.find?_some hlo
    have hl3 : (net.intf lo).isL2 = false := by
      by_contra hl2
      exact (hsend lo hmem (by simpa using hl2)).1 hname
    refine ⟨(net.intf lo).addr, by simp [hl3], ?_⟩
    exact Topology.hasIp_iff.mpr ⟨lo, hmem, hl3, rfl⟩
  · by_cases hlocal : net.hasIp n 0x7F000001#32 = true
    · rw [if_pos hlocal]
      exact ⟨_, rfl, hlocal⟩
    · rw [if_neg hlocal]
      cases haddrs : net.l3Addrs n with
      | nil =>
        have hmem := Topology.mem_l3Addrs.mpr hx
        simp [haddrs] at hmem
      | cons a rest =>
        refine ⟨a, rfl, Topology.mem_l3Addrs.mp ?_⟩
        rw [haddrs]
        exact List.mem_cons_self ..

theorem getIpnh_peer (hlinked : net.Linked) {egressIntf : IntfName} {a : IPv4Address} {h : FibIpnh}
    (hh : net.getIpnh n egressIntf a = some h) :
    ∃ l2Intf, h.l2Intf = some l2Intf ∧ ∃ i ∈ (net.node n).intfs,
      (net.intf i).name = egressIntf ∧
        net.getPeer h.l2Node (net.intf l2Intf).name = some (n, i) := by
  unfold getIpnh at hh
  split at hh
  · simp at hh
  · next l2Node l2Intf hpeer =>
    have hends := hlinked n egressIntf l2Node l2Intf hpeer
    split_ifs at hh with hl2
    · obtain rfl := Option.some.inj hh
      exact ⟨l2Intf, rfl, hends⟩
    · obtain ⟨⟨l3Node, l3Intf⟩, -, rfl⟩ := Option.map_eq_some_iff.mp hh
      exact ⟨l2Intf, rfl, hends⟩

end Network

namespace Model

variable {P : Plankton} {m m' : Model} {ec : EcPtr} {h : FibIpnh} {candidates : Candidates}
  {results : List InjectionResult}

theorem firstSrcIp_hasIp (hnet : P.network.ModelOnly) (hlinked : P.network.Linked)
    (hsend : P.network.CanSend m.cur.pktLocation) (hc : m.cur.candidates = some candidates)
    (hh : candidates[m.choice]? = some h) (hmem : h ∈ P.nextHops ec m.cur.pktLocation) :
    ∃ a, m.firstSrcIp P = some a ∧ P.network.hasIp m.cur.pktLocation a = true := by
  unfold firstSrcIp
  rw [hc, Option.bind_eq_bind, Option.bind_some, hh, Option.bind_eq_bind, Option.bind_some]
  rcases Plankton.nextHops_cases (hnet _) hmem with ⟨rfl, x, hx⟩ | ⟨r, hr, hegress, x, hx⟩
  · obtain ⟨a, ha, hown⟩ := Network.loopbackAddr_hasIp hsend hx
    refine ⟨a, ?_, hown⟩
    simp [FibIpnh.accept, assert, ha]
  · obtain ⟨l2Intf, hl2, i, hi, hname, hpeer⟩ := Network.getIpnh_peer hlinked hx
    have hl3 : (P.network.intf i).isL2 = false := by
      by_contra hport
      exact (hsend i hi (by simpa using hport)).2 r hr hegress hname.symm
    refine ⟨(P.network.intf i).addr, ?_, Topology.hasIp_iff.mpr ⟨i, hi, hl3, rfl⟩⟩
    simp [hl2, hpeer, hl3, assert]

end Model

namespace ProtoState

def remaining (x : ProtoState) : Nat :=
  if x ≤ psTcpTerm3 then psTcpTerm3 - x
  else if x ≤ psUdpRep then psUdpRep - x
  else psIcmpEchoRep - x

theorem remaining_succ : ∀ x < 15, 1 ≤ x → isLast x = false →
    remaining (x + 1) + 1 = remaining x ∧ x + 1 < 15 ∧ isFirst (x + 1) = false := by
  decide

end ProtoState

namespace ConnState

/-- The first packet of a connection that has not left its source. -/
def AtSource (c : ConnState) : Prop :=
  c.protoState.isFirst = true ∧ (c.fwdMode = .firstCollect ∨ c.fwdMode = .firstForward)

end ConnState

namespace Plankton

variable {P : Plankton} {c : ConnState} {ec : EcPtr}

/-- The candidates of a packet that is about to be forwarded: some of the next hops, and only one
where a choice was made before. -/
structure HasCandidates (P : Plankton) (c : ConnState) (candidates : Candidates) : Prop where
  stored : c.candidates = some candidates
  ne_nil : candidates ≠ []
  mem : ∀ ec, c.dstIpEc = some ec → ∀ h ∈ candidates, h ∈ P.nextHops ec c.pktLocation
  unchosen : 1 < candidates.length → c.pathChoices.getChoice c.dstIpEc c.pktLocation = none

structure Sends (P : Plankton) (c : ConnState) : Prop where
  dstIpEc : ∃ ec, P.IsEc ec ∧ c.dstIpEc = some ec ∧
    ∀ n ∈ P.network.nodes, c.fib n = some (P.nextHops ec n)
  pktLocation : c.pktLocation ∈ P.network.nodes
  srcNode : c.srcNode ∈ P.network.nodes
  protoState : 1 ≤ c.protoState ∧ c.protoState < 15
  choices : ∀ ec n h, c.pathChoices.getChoice (some ec) n = some h → h ∈ P.nextHops ec n
  unset : c.AtSource → c.srcIp = 0#32 ∧ P.network.CanSend c.pktLocation
  known : ¬ c.AtSource → (P.ecs.findEc c.srcIp).isSome
  fwdMode : c.fwdMode ≠ .chooseInjRes ∧ c.fwdMode ≠ .dropped
  ready : c.AboutToForward → ∃ candidates, P.HasCandidates c candidates

/-- A connection that can be forwarded, or is not executable any more. -/
def OnTrack (P : Plankton) (c : ConnState) : Prop :=
  c.executable = 0 ∨ c.executable = 2 ∧ P.Sends c

theorem sends_firstCollect (hdst : ∃ ec, P.IsEc ec ∧ c.dstIpEc = some ec ∧
      ∀ n ∈ P.network.nodes, c.fib n = some (P.nextHops ec n))
    (hmode : c.fwdMode = .firstCollect) (hloc : c.pktLocation ∈ P.network.nodes)
    (hsrc : c.srcNode ∈ P.network.nodes) (hps : 1 ≤ c.protoState ∧ c.protoState < 15)
    (hchoices : ∀ ec n h, c.pathChoices.getChoice (some ec) n = some h → h ∈ P.nextHops ec n)
    (hfirst : c.protoState.isFirst = false) (hknown : (P.ecs.findEc c.srcIp).isSome) :
    P.Sends c where
  dstIpEc := hdst
  pktLocation := hloc
  srcNode := hsrc
  protoState := hps
  choices := hchoices
  unset := by
    intro hat
    simp [ConnState.AtSource, hfirst] at hat
  known := fun _ => hknown
  fwdMode := by simp [hmode]
  ready := by
    intro hforward
    simp [ConnState.AboutToForward, hmode] at hforward

noncomputable def distance (P : Plankton) (c : ConnState) : Nat :=
  c.dstIpEc.elim 0 fun ec => reachRank (P.PassesTo ec) P.network.nodes.toFinset c.pktLocation

def modeWork : FwdMode → Nat → Nat
  | .firstCollect, d | .collectNhops, d => 2 * d + 2
  | .firstForward, d | .forwardPacket, d => 2 * d + 1
  | .chooseInjRes, _ | .accepted, _ | .dropped, _ => 0

noncomputable def effort (P : Plankton) (c : ConnState) : Nat :=
  if c.isFinished then 0
  else if c.executable = 0 then 1
  else 2 + (c.protoState.remaining * (2 * P.network.nodes.toFinset.card + 3) +
    modeWork c.fwdMode (P.distance c))

theorem effort_of_frozen (h : c.executable = 0) : P.effort c ≤ 1 := by
  unfold effort
  split_ifs <;> simp

theorem effort_of_executable (h : c.executable = 2) :
    P.effort c = 2 + (c.protoState.remaining * (2 * P.network.nodes.toFinset.card + 3) +
      modeWork c.fwdMode (P.distance c)) := by
  have hfinished : c.isFinished = false := by
    simp [ConnState.isFinished, h]
  rw [effort, hfinished, if_neg Bool.false_ne_true, if_neg (by simp [h])]

theorem distance_le (P : Plankton) (c : ConnState) :
    P.distance c ≤ P.network.nodes.toFinset.card := by
  unfold distance
  cases c.dstIpEc with
  | none => exact Nat.zero_le _
  | some ec => exact reachRank_le _ _ _

theorem modeWork_lt (P : Plankton) (mode : FwdMode) (c : ConnState) :
    modeWork mode (P.distance c) < 2 * P.network.nodes.toFinset.card + 3 := by
  have hle := P.distance_le c
  cases mode <;> simp only [modeWork] <;> omega

theorem effort_lt_of_work {c' : ConnState} (h : c.executable = 2) (h' : c'.executable = 2)
    (hps : c'.protoState = c.protoState)
    (hwork : modeWork c'.fwdMode (P.distance c') < modeWork c.fwdMode (P.distance c)) :
    P.effort c' < P.effort c := by
  rw [effort_of_executable h, effort_of_executable h', hps]
  exact Nat.add_lt_add_left (Nat.add_lt_add_left hwork _) _

theorem effort_lt_of_phase {c' : ConnState} (h : c.executable = 2) (h' : c'.executable = 2)
    (hps : c'.protoState.remaining + 1 = c.protoState.remaining) : P.effort c' < P.effort c := by
  have hmode := P.modeWork_lt c'.fwdMode c'
  rw [effort_of_executable h, effort_of_executable h', ← hps]
  generalize 2 * P.network.nodes.toFinset.card + 3 = phase at hmode ⊢
  rw [Nat.succ_mul]
  omega

theorem distance_lt (hloop : P.LoopFree) (hec : P.IsEc ec) {c' : ConnState}
    (hdst : c.dstIpEc = some ec) (hdst' : c'.dstIpEc = some ec)
    (hpass : P.PassesTo ec c.pktLocation c'.pktLocation)
    (hmem : c'.pktLocation ∈ P.network.nodes) : P.distance c' < P.distance c := by
  unfold distance
  rw [hdst, hdst']
  apply (hloop ec hec).rank_lt hpass
  exact List.mem_toFinset.mpr hmem

end Plankton

namespace Model

variable {P : Plankton} {m m' : Model} {results : List InjectionResult}

def Advanced (P : Plankton) (m m' : Model) : Prop :=
  ∃ c k, m' = (m.setCur c).setChoiceCount k ∧ P.OnTrack c ∧ P.effort c < P.effort m.cur ∧ 0 < k ∧
    (c.executable = 2 → c.AboutToForward → ∀ candidates, c.candidates = some candidates →
      k = candidates.length)

theorem advanced_of_frozen {c : ConnState} {k : Nat} (hexec : m.cur.executable = 2) (hk : 0 < k)
    (hc : c.executable = 0) : Advanced P m ((m.setCur c).setChoiceCount k) := by
  refine ⟨c, k, rfl, .inl hc, ?_, hk, ?_⟩
  · have hle := Plankton.effort_of_frozen (P := P) hc
    rw [Plankton.effort_of_executable hexec]
    omega
  · intro h
    simp [hc] at h

theorem hasCandidates_chooseCandidates (hm : P.Sends m.cur) {ec : EcPtr}
    (hec : m.cur.dstIpEc = some ec) {nextHops : List FibIpnh}
    (hnext : nextHops = P.nextHops ec m.cur.pktLocation) (hne : nextHops ≠ []) (mode : FwdMode) :
    P.HasCandidates { m.cur with
      candidates := some (m.chooseCandidates nextHops)
      fwdMode := mode } (m.chooseCandidates nextHops) := by
  refine ⟨rfl, chooseCandidates_ne_nil hne, ?_, ?_⟩
  · intro ec' hec' h hh
    obtain rfl := Option.some.inj (hec.symm.trans hec')
    exact hnext ▸ chooseCandidates_subset nextHops h hh
  · intro hlen
    show m.cur.pathChoices.getChoice m.cur.dstIpEc m.cur.pktLocation = none
    cases hchoice : m.cur.pathChoices.getChoice m.cur.dstIpEc m.cur.pktLocation with
    | none => rfl
    | some choice =>
      have hmem : choice ∈ nextHops := by
        rw [hec] at hchoice
        exact hnext ▸ hm.choices ec _ choice hchoice
      unfold chooseCandidates at hlen
      rw [hchoice] at hlen
      dsimp only at hlen
      split_ifs at hlen with hmulti
      · simp at hlen
      · exact absurd ⟨hlen, hmem⟩ hmulti

theorem collectNextHops_eq (hnet : P.network.ModelOnly) {nextHops : List FibIpnh}
    (hfib : m.cur.fib m.cur.pktLocation = some nextHops) :
    m.collectNextHops P results = some (if nextHops = [] then m.dropCur else
      (m.setCur { m.cur with
        candidates := some (m.chooseCandidates nextHops)
        fwdMode := .forwardPacket }).setChoiceCount (m.chooseCandidates nextHops).length) := by
  unfold collectNextHops
  rw [if_neg (by simp [hnet m.cur.pktLocation]), hfib, Option.bind_eq_bind, Option.bind_some]
  by_cases hnil : nextHops = []
  · rw [if_pos hnil, if_pos (List.isEmpty_iff.mpr hnil)]
    rfl
  · rw [if_neg hnil, if_neg (by simpa using hnil)]
    rfl

theorem advanced_collect (hm : P.Sends m.cur) (hexec : m.cur.executable = 2) {ec : EcPtr}
    (hec : m.cur.dstIpEc = some ec) {nextHops : List FibIpnh}
    (hnext : nextHops = P.nextHops ec m.cur.pktLocation) (hne : nextHops ≠ []) {mode : FwdMode}
    (hmode : m.cur.fwdMode = .firstCollect ∧ mode = .firstForward ∨
      m.cur.fwdMode = .collectNhops ∧ mode = .forwardPacket) :
    Advanced P m ((m.setCur { m.cur with
      candidates := some (m.chooseCandidates nextHops)
      fwdMode := mode }).setChoiceCount (m.chooseCandidates nextHops).length) := by
  have hcandidates := hasCandidates_chooseCandidates hm hec hnext hne mode
  have hsource : ConnState.AtSource { m.cur with
      candidates := some (m.chooseCandidates nextHops), fwdMode := mode } ↔ m.cur.AtSource := by
    unfold ConnState.AtSource
    rcases hmode with ⟨h, rfl⟩ | ⟨h, rfl⟩ <;> simp [h]
  refine ⟨_, _, rfl, .inr ⟨hexec, ?_⟩, ?_, List.length_pos_iff.mpr hcandidates.ne_nil, ?_⟩
  · refine ⟨hm.dstIpEc, hm.pktLocation, hm.srcNode, hm.protoState, hm.choices, ?_, ?_, ?_, ?_⟩
    · exact fun h => hm.unset (hsource.mp h)
    · exact fun h => hm.known fun h' => h (hsource.mpr h')
    · rcases hmode with ⟨-, rfl⟩ | ⟨-, rfl⟩ <;> simp
    · exact fun _ => ⟨_, hcandidates⟩
  · have hwork : Plankton.modeWork mode (P.distance m.cur) <
        Plankton.modeWork m.cur.fwdMode (P.distance m.cur) := by
      rcases hmode with ⟨h, rfl⟩ | ⟨h, rfl⟩ <;> simp [h, Plankton.modeWork]
    exact Plankton.effort_lt_of_work hexec hexec rfl hwork
  · intro _ _ candidates hc
    exact congrArg List.length (Option.some.inj hc)

theorem collectNextHops_advanced (hnet : P.network.ModelOnly) (hm : P.Sends m.cur)
    (hexec : m.cur.executable = 2) (hmode : m.cur.fwdMode = .collectNhops)
    (hcount : 0 < m.choiceCount) :
    ∃ m', m.collectNextHops P results = some m' ∧ Advanced P m m' := by
  obtain ⟨ec, -, hec, hfib⟩ := hm.dstIpEc
  refine ⟨_, collectNextHops_eq hnet (hfib _ hm.pktLocation), ?_⟩
  split_ifs with hnil
  · exact advanced_of_frozen (k := m.choiceCount) hexec hcount rfl
  · exact advanced_collect hm hexec hec rfl hnil (.inr ⟨hmode, rfl⟩)

theorem firstCollect_advanced (hnet : P.network.ModelOnly) (hm : P.Sends m.cur)
    (hexec : m.cur.executable = 2) (hmode : m.cur.fwdMode = .firstCollect)
    (hcount : 0 < m.choiceCount) :
    ∃ m', m.firstCollect P results = some m' ∧ Advanced P m m' := by
  obtain ⟨ec, -, hec, hfib⟩ := hm.dstIpEc
  unfold firstCollect
  rw [collectNextHops_eq hnet (hfib _ hm.pktLocation), Option.bind_eq_bind, Option.bind_some]
  refine ⟨_, rfl, ?_⟩
  split_ifs with hnil
  · rw [dropCur, cur_setCur, setCur_setCur]
    exact advanced_of_frozen (k := m.choiceCount) hexec hcount rfl
  · have hset : ∀ c c' k, ((m.setCur c).setChoiceCount k).setCur c' =
        (m.setCur c').setChoiceCount k := by
      intro c c' k
      show ((m.setCur c).setCur c').setChoiceCount k = _
      rw [setCur_setCur]
    rw [hset, cur_setChoiceCount, cur_setCur]
    exact advanced_collect hm hexec hec rfl hnil (.inl ⟨hmode, rfl⟩)

theorem rememberChoice_spec (hm : P.Sends m.cur) {candidates : Candidates}
    (hc : P.HasCandidates m.cur candidates) {h : FibIpnh} (hh : h ∈ candidates) :
    ∃ choices, m.rememberChoice candidates h = some choices ∧
      ∀ ec n h', choices.getChoice (some ec) n = some h' → h' ∈ P.nextHops ec n := by
  unfold rememberChoice
  split_ifs with hmulti
  · have hnone := hc.unchosen hmulti
    rw [Choices.addChoice, if_neg (by simp [hnone])]
    refine ⟨_, rfl, ?_⟩
    intro ec n h' hchoice
    rw [Choices.getChoice, List.lookup_cons] at hchoice
    split at hchoice
    · next hkey =>
      have hkey' : (some ec, n) = (m.cur.dstIpEc, m.cur.pktLocation) := by simpa using hkey
      obtain ⟨hec, rfl⟩ := Prod.mk.inj hkey'
      obtain rfl := Option.some.inj hchoice
      exact hc.mem ec hec.symm h hh
    · exact hm.choices ec n h' hchoice
  · exact ⟨_, rfl, hm.choices⟩

theorem forwardPacket_eq {candidates : Candidates} {h : FibIpnh} {choices : Choices}
    (hc : m.cur.candidates = some candidates) (hh : candidates[m.choice]? = some h)
    (hchoices : m.rememberChoice candidates h = some choices) :
    m.forwardPacket P = some (if h.l3Node = m.cur.pktLocation then
      (m.setCur { m.cur with pathChoices := choices }).deliver
    else (m.setCur { m.cur with pathChoices := choices }).moveTo P h) := by
  unfold forwardPacket
  rw [hc, Option.bind_eq_bind, Option.bind_some, hh, Option.bind_eq_bind, Option.bind_some,
    hchoices, Option.bind_eq_bind, Option.bind_some]
  dsimp only
  rw [cur_setCur]
  rfl

theorem forwardPacket_advanced (hnet : P.network.ModelOnly) (hloop : P.LoopFree)
    (hm : P.Sends m.cur) (hexec : m.cur.executable = 2) (hmode : m.cur.AboutToForward)
    {candidates : Candidates} (hc : P.HasCandidates m.cur candidates)
    (hchoice : m.choice < candidates.length) {srcIp : IPv4Address}
    (hsrc : (P.ecs.findEc srcIp).isSome) :
    ∃ m', (m.setCur { m.cur with srcIp := srcIp }).forwardPacket P = some m' ∧
      Advanced P m m' := by
  obtain ⟨ec, hec, hdst, hfib⟩ := hm.dstIpEc
  have hget := List.getElem?_eq_getElem hchoice
  have hmem : candidates[m.choice] ∈ candidates := List.getElem_mem hchoice
  generalize candidates[m.choice] = h at hget hmem
  obtain ⟨choices, hchoices, hrecorded⟩ := rememberChoice_spec hm hc hmem
  have hnext := hc.mem ec hdst h hmem
  have hforward : (m.setCur { m.cur with srcIp := srcIp }).forwardPacket P =
      some (if h.l3Node = m.cur.pktLocation then
        (m.setCur { m.cur with srcIp := srcIp, pathChoices := choices }).deliver
      else (m.setCur { m.cur with srcIp := srcIp, pathChoices := choices }).moveTo P h) := by
    have hstored : (m.setCur { m.cur with srcIp := srcIp }).cur.candidates = some candidates := by
      rw [cur_setCur]
      exact hc.stored
    have hremember : (m.setCur { m.cur with srcIp := srcIp }).rememberChoice candidates h =
        some choices := by
      rw [← hchoices]
      unfold rememberChoice
      rw [cur_setCur]
    rw [forwardPacket_eq hstored hget hremember, cur_setCur, setCur_setCur]
  refine ⟨_, hforward, ?_⟩
  -- either the packet is delivered here, or it goes to a node nearer to where it ends
  by_cases hhere : h.l3Node = m.cur.pktLocation
  · rw [if_pos hhere, deliver, cur_setCur, setCur_setCur]
    refine ⟨_, 1, rfl, .inr ⟨hexec, ?_⟩, ?_, Nat.one_pos, ?_⟩
    · refine ⟨hm.dstIpEc, hm.pktLocation, hm.srcNode, hm.protoState, hrecorded, ?_, ?_, ?_, ?_⟩
      · exact fun hat => by simp [ConnState.AtSource] at hat
      · exact fun _ => hsrc
      · simp
      · exact fun hforward => by simp [ConnState.AboutToForward] at hforward
    · refine Plankton.effort_lt_of_work hexec ?_ rfl ?_
      · exact hexec
      · rcases hmode with hmode | hmode <;> simp [hmode, Plankton.modeWork]
    · exact fun _ hforward => by simp [ConnState.AboutToForward] at hforward
  · have hnode : h.l3Node ∈ P.network.nodes := Plankton.l3Node_mem hm.pktLocation (hnet _) hnext
    have hpass : P.PassesTo ec m.cur.pktLocation h.l3Node :=
      ⟨hm.pktLocation, hhere, h, hnext, rfl⟩
    simp only [if_neg hhere, moveTo, cur_setCur, setCur_setCur, hnet h.l3Node, Bool.false_and,
      Bool.false_eq_true, if_false]
    refine ⟨_, 1, rfl, .inr ⟨hexec, ?_⟩, ?_, Nat.one_pos, ?_⟩
    · refine ⟨hm.dstIpEc, hnode, hm.srcNode, hm.protoState, hrecorded, ?_, ?_, ?_, ?_⟩
      · exact fun hat => by simp [ConnState.AtSource] at hat
      · exact fun _ => hsrc
      · simp
      · exact fun hforward => by simp [ConnState.AboutToForward] at hforward
    · refine Plankton.effort_lt_of_work hexec ?_ rfl ?_
      · exact hexec
      · have hcloser : ∀ d d' : Nat, d' < d → 2 * d' + 2 < 2 * d + 1 := by
          intro d d' hd
          omega
        rcases hmode with hmode | hmode <;>
          · rw [hmode]
            apply hcloser
            exact Plankton.distance_lt hloop hec hdst hdst hpass hnode
    · exact fun _ hforward => by simp [ConnState.AboutToForward] at hforward

theorem firstForward_advanced (hnet : P.network.ModelOnly) (hlinked : P.network.Linked)
    (hloop : P.LoopFree) (hm : P.Sends m.cur) (hexec : m.cur.executable = 2)
    (hmode : m.cur.fwdMode = .firstForward) {candidates : Candidates}
    (hc : P.HasCandidates m.cur candidates) (hchoice : m.choice < candidates.length) :
    ∃ m', m.firstForward P = some m' ∧ Advanced P m m' := by
  unfold firstForward
  split_ifs with hunset
  · have hsend := (hm.unset ⟨hunset.1, .inr hmode⟩).2
    obtain ⟨ec, -, hdst, -⟩ := hm.dstIpEc
    have hget := List.getElem?_eq_getElem hchoice
    have hmem := hc.mem ec hdst _ (List.getElem_mem hchoice)
    obtain ⟨a, ha, hown⟩ := firstSrcIp_hasIp hnet hlinked hsend hc.stored hget hmem
    rw [ha, Option.bind_eq_bind, Option.bind_some]
    apply forwardPacket_advanced hnet hloop hm hexec (.inl hmode) hc hchoice
    exact Plankton.findEc_isSome_of_hasIp hm.pktLocation hown
  · have hsource : ¬ m.cur.AtSource := by
      intro hat
      exact hunset ⟨hat.1, (hm.unset hat).1⟩
    have hself : m.setCur { m.cur with srcIp := m.cur.srcIp } = m := setCur_cur
    have hforward := forwardPacket_advanced hnet hloop hm hexec (.inl hmode) hc hchoice
      (hm.known hsource)
    rwa [hself] at hforward

theorem turnAround_eq (hof : P.openflow.updates = []) {ec : EcPtr} (hec : P.IsEc ec)
    (hdst : m.cur.dstIpEc = some ec) (hknown : (P.ecs.findEc m.cur.srcIp).isSome) :
    ∃ srcIp dstIpEc fib, (P.ecs.findEc srcIp).isSome ∧ P.IsEc dstIpEc ∧
      (∀ n ∈ P.network.nodes, fib n = some (P.nextHops dstIpEc n)) ∧
      m.turnAround P = some (m.setCur { m.cur with
        srcIp := srcIp
        dstIpEc := some dstIpEc
        srcNode := m.cur.pktLocation
        srcPort := m.cur.dstPort
        dstPort := m.cur.srcPort
        fib := fib }) := by
  obtain ⟨srcIp, hsrc, hsrcEc⟩ := Plankton.representativeAddr_of_isEc hec
  obtain ⟨dstIpEc, hdstEc⟩ := Option.isSome_iff_exists.mp hknown
  have hisEc : P.IsEc dstIpEc := ⟨m.cur.srcIp, hdstEc⟩
  obtain ⟨fib, hfib, hnext⟩ :=
    Plankton.updateFib_of_noUpdates hof hisEc m.openflowUpdateState
  refine ⟨srcIp, dstIpEc, fib, by simp [hsrcEc], hisEc, hnext, ?_⟩
  unfold turnAround
  rw [hdst, Option.bind_eq_bind, Option.bind_some, hsrc, Option.bind_eq_bind, Option.bind_some,
    hdstEc, Option.bind_some]
  unfold updateFib
  rw [cur_setCur, Option.bind_eq_bind, Option.bind_some]
  show ((P.openflow.updateFib m.openflowUpdateState _).bind _) = _
  rw [hfib, Option.bind_some, setCur_setCur]
  rfl

theorem getPayloadFromModel_isSome {ec : EcPtr} (hec : P.IsEc ec)
    (hdst : m.cur.dstIpEc = some ec) : ∃ payload, m.getPayloadFromModel P = some payload := by
  obtain ⟨addr, haddr, -⟩ := Plankton.representativeAddr_of_isEc hec
  unfold getPayloadFromModel
  split_ifs
  · refine ⟨some (Payload.request addr m.cur.dstPort), ?_⟩
    simp [hdst, haddr]
  · exact ⟨_, rfl⟩
  · exact ⟨_, rfl⟩

theorem advanced_phase {c : ConnState} (hexec : m.cur.executable = 2) (hcount : 0 < m.choiceCount)
    (hc : P.Sends c) (hcexec : c.executable = 2) (hmode : c.fwdMode = .firstCollect)
    (hphase : c.protoState.remaining + 1 = m.cur.protoState.remaining) :
    Advanced P m (m.setCur c) := by
  refine ⟨c, m.choiceCount, rfl, .inr ⟨hcexec, hc⟩, ?_, hcount, ?_⟩
  · exact Plankton.effort_lt_of_phase hexec hcexec hphase
  · intro _ hforward
    simp [ConnState.AboutToForward, hmode] at hforward

theorem phaseTransition_sends (hnet : P.network.ModelOnly) (hof : P.openflow.updates = [])
    (hm : P.Sends m.cur) (hmode : m.cur.fwdMode = .accepted) {next : ProtoState}
    (changeDirection : Bool) (hle : 1 ≤ next ∧ next < 15) (hfirst : next.isFirst = false) :
    ∃ c, m.phaseTransition P next changeDirection = some (m.setCur c) ∧ P.Sends c ∧
      c.executable = m.cur.executable ∧ c.fwdMode = .firstCollect ∧ c.protoState = next := by
  obtain ⟨ec, hec, hdst, hfib⟩ := hm.dstIpEc
  have hsource : ¬ m.cur.AtSource := by
    simp [ConnState.AtSource, hmode]
  have hknown := hm.known hsource
  unfold phaseTransition
  dsimp only
  rw [if_neg (by simp [hnet _])]
  -- a packet in the other direction is sent from where it was received, another one from the source
  cases changeDirection with
  | true =>
    rw [if_pos rfl]
    obtain ⟨srcIp, dstIpEc, fib, hsrc, hisEc, hnexts, hturn⟩ :=
      turnAround_eq (m := m.setCur { m.cur with
        seq := (m.nextSeqAck true).1
        ack := (m.nextSeqAck true).2
        protoState := next }) hof hec (by simpa using hdst) (by simpa using hknown)
    rw [hturn, Option.bind_eq_bind, Option.bind_some, cur_setCur, setCur_setCur]
    obtain ⟨payload, hpayload⟩ := getPayloadFromModel_isSome hisEc
      (m := m.setCur { m.cur with
        seq := (m.nextSeqAck true).1
        ack := (m.nextSeqAck true).2
        protoState := next
        srcIp := srcIp
        dstIpEc := some dstIpEc
        srcNode := m.cur.pktLocation
        srcPort := m.cur.dstPort
        dstPort := m.cur.srcPort
        fib := fib }) (by rw [cur_setCur])
    rw [hpayload, Option.bind_eq_bind, Option.bind_some, cur_setCur, setCur_setCur]
    refine ⟨_, rfl, ?_, rfl, rfl, rfl⟩
    apply Plankton.sends_firstCollect
    · exact ⟨dstIpEc, hisEc, rfl, hnexts⟩
    · rfl
    · exact hm.pktLocation
    · exact hm.pktLocation
    · exact hle
    · exact hm.choices
    · exact hfirst
    · exact hsrc
  | false =>
    rw [if_neg Bool.false_ne_true, Option.bind_eq_bind, Option.bind_some, sendAgain, cur_setCur,
      setCur_setCur]
    obtain ⟨payload, hpayload⟩ := getPayloadFromModel_isSome hec
      (m := m.setCur { m.cur with
        seq := (m.nextSeqAck false).1
        ack := (m.nextSeqAck false).2
        protoState := next
        pktLocation := m.cur.srcNode }) (by simpa using hdst)
    rw [hpayload, Option.bind_eq_bind, Option.bind_some, cur_setCur, setCur_setCur]
    refine ⟨_, rfl, ?_, rfl, rfl, rfl⟩
    apply Plankton.sends_firstCollect
    · exact ⟨ec, hec, hdst, hfib⟩
    · rfl
    · exact hm.srcNode
    · exact hm.srcNode
    · exact hle
    · exact hm.choices
    · exact hfirst
    · exact hknown

theorem phaseTransition_advanced (hnet : P.network.ModelOnly) (hof : P.openflow.updates = [])
    (hm : P.Sends m.cur) (hexec : m.cur.executable = 2) (hmode : m.cur.fwdMode = .accepted)
    (hcount : 0 < m.choiceCount) {next : ProtoState} (changeDirection : Bool)
    (hnext : next.remaining + 1 = m.cur.protoState.remaining) (hle : 1 ≤ next ∧ next < 15)
    (hfirst : next.isFirst = false) :
    ∃ m', m.phaseTransition P next changeDirection = some m' ∧ Advanced P m m' := by
  obtain ⟨c, h, hc, hsame, hcollect, rfl⟩ :=
    phaseTransition_sends hnet hof hm hmode changeDirection hle hfirst
  exact ⟨_, h, advanced_phase hexec hcount hc (hsame.trans hexec) hcollect hnext⟩

theorem accepted_eq (hle : 1 ≤ m.cur.protoState ∧ m.cur.protoState < 15) :
    (m.cur.protoState.isLast = true ∧
        m.accepted P = some (m.setCur { m.cur with executable := 0 })) ∨
      m.cur.protoState.isLast = false ∧ ∃ changeDirection,
        m.accepted P = m.phaseTransition P (m.cur.protoState + 1) changeDirection := by
  obtain ⟨hpos, hlt⟩ := hle
  unfold accepted
  split
  case h_12 heq | h_13 heq | h_14 heq => exact .inl ⟨by rw [heq]; rfl, rfl⟩
  case h_15 =>
    generalize m.cur.protoState = x at *
    interval_cases x <;> contradiction
  all_goals
    next heq =>
      rw [heq]
      exact .inr ⟨rfl, _, rfl⟩

theorem accepted_advanced (hnet : P.network.ModelOnly) (hof : P.openflow.updates = [])
    (hm : P.Sends m.cur) (hexec : m.cur.executable = 2) (hmode : m.cur.fwdMode = .accepted)
    (hcount : 0 < m.choiceCount) : ∃ m', m.accepted P = some m' ∧ Advanced P m m' := by
  obtain ⟨hpos, hlt⟩ := hm.protoState
  rcases accepted_eq ⟨hpos, hlt⟩ with ⟨-, h⟩ | ⟨hlast, changeDirection, h⟩
  · refine ⟨_, h, ?_⟩
    exact advanced_of_frozen (k := m.choiceCount) hexec hcount rfl
  · obtain ⟨hnext, hlt', hfirst⟩ := ProtoState.remaining_succ _ hlt hpos hlast
    rw [h]
    exact phaseTransition_advanced hnet hof hm hexec hmode hcount changeDirection hnext
      ⟨Nat.le_add_left 1 _, hlt'⟩ hfirst

theorem execForwarding_advanced (results : List InjectionResult) (hnet : P.network.ModelOnly)
    (hof : P.openflow.updates = []) (hlinked : P.network.Linked) (hloop : P.LoopFree)
    (hm : P.Sends m.cur) (hexec : m.cur.executable = 2) (hchoice : m.choice < m.choiceCount)
    (hcount : m.cur.AboutToForward → ∀ candidates, m.cur.candidates = some candidates →
      m.choiceCount = candidates.length) :
    ∃ m', m.execForwarding P results = some m' ∧ Advanced P m m' := by
  have hpos : 0 < m.choiceCount := Nat.zero_lt_of_lt hchoice
  have hready : m.cur.AboutToForward → ∃ candidates, P.HasCandidates m.cur candidates ∧
      m.choice < candidates.length := by
    intro hmode
    obtain ⟨candidates, hc⟩ := hm.ready hmode
    exact ⟨candidates, hc, hcount hmode candidates hc.stored ▸ hchoice⟩
  unfold execForwarding
  split
  · next hmode => exact firstCollect_advanced hnet hm hexec hmode hpos
  · next hmode =>
    obtain ⟨candidates, hc, hlt⟩ := hready (.inl hmode)
    exact firstForward_advanced hnet hlinked hloop hm hexec hmode hc hlt
  · next hmode => exact collectNextHops_advanced hnet hm hexec hmode hpos
  · next hmode => exact absurd hmode hm.fwdMode.1
  · next hmode =>
    obtain ⟨candidates, hc, hlt⟩ := hready (.inr hmode)
    have hself : m.setCur { m.cur with srcIp := m.cur.srcIp } = m := setCur_cur
    have hsource : ¬ m.cur.AtSource := by
      simp [ConnState.AtSource, hmode]
    have hforward := forwardPacket_advanced hnet hloop hm hexec (.inr hmode) hc hlt
      (hm.known hsource)
    rwa [hself] at hforward
  · next hmode => exact accepted_advanced hnet hof hm hexec hmode hpos
  · next hmode => exact absurd hmode hm.fwdMode.2

end Model

namespace Plankton

variable {P : Plankton} {m m' : Model} {results : List InjectionResult}

def turn (P : Plankton) (m : Model) (l : Label) : Option Model :=
  if l.choice < m.choiceCount then P.control l.results (m.setChoice l.choice) else none

/-- The control state between two turns: a connection that can be forwarded is in charge, or the
next one is to be chosen. -/
structure OnCourse (P : Plankton) (m : Model) : Prop where
  onTrack : ∀ i < m.numConns, P.OnTrack (m.connState i)
  conn : m.conn < m.numConns
  control : (m.processId = .forwarding ∧ m.cur.executable = 2 ∧ 0 < m.choiceCount ∧
      (m.cur.AboutToForward → ∀ candidates, m.cur.candidates = some candidates →
        m.choiceCount = candidates.length)) ∨
    m.processId = .chooseConn ∧ m.updateChoiceCount = m

noncomputable def potential (P : Plankton) (m : Model) : Nat :=
  2 * (∑ i ∈ Finset.range m.numConns, P.effort (m.connState i)) +
    if m.processId = .chooseConn then 1 else 0

theorem sum_effort_lt {c : ConnState} {i : Nat} (hi : i < m.numConns)
    (hlt : P.effort c < P.effort (m.connState i)) :
    ∑ j ∈ Finset.range m.numConns, P.effort ((m.setSlot i c).connState j) <
      ∑ j ∈ Finset.range m.numConns, P.effort (m.connState j) := by
  apply Finset.sum_lt_sum
  · intro j _
    rw [Model.setSlot_connState]
    split_ifs with hij
    · exact hij ▸ hlt.le
    · exact le_rfl
  · refine ⟨i, Finset.mem_range.mpr hi, ?_⟩
    rw [Model.setSlot_connState, if_pos rfl]
    exact hlt

end Plankton

namespace Model

variable {P : Plankton} {m : Model}

theorem updateChoiceCount_setChoiceCount (m : Model) (n : Nat) :
    (m.setChoiceCount n).updateChoiceCount = m.updateChoiceCount := rfl

theorem updateChoiceCount_updateChoiceCount (m : Model) :
    m.updateChoiceCount.updateChoiceCount = m.updateChoiceCount := by
  obtain ⟨n, hn, -⟩ := updateChoiceCount_cases m
  have hself := updateChoiceCount_setChoiceCount m n
  rwa [← hn] at hself

theorem execChooseConn_forwardable {conn : Nat} {rest : List Nat}
    (h₂ : m.connMap 2 = conn :: rest) (hzero : m.choice = 0)
    (hready : (m.connState conn).AboutToForward →
      ∃ candidates, P.HasCandidates (m.connState conn) candidates) :
    ∃ k, 0 < k ∧ ((m.connState conn).AboutToForward → ∀ candidates,
        (m.connState conn).candidates = some candidates → k = candidates.length) ∧
      m.execChooseConn = some ((m.setConn conn).setChoiceCount k) := by
  have hpick : (do assert (m.choice == 0); return m.setConn conn : Option Model) =
      some (m.setConn conn) := by
    simp [hzero, assert]
  unfold execChooseConn pickConn
  rw [h₂]
  dsimp only
  rw [hpick, Option.bind_eq_bind, Option.bind_some, cur_setConn]
  by_cases hmode : (m.connState conn).fwdMode = .forwardPacket ∨
      (m.connState conn).fwdMode = .firstForward
  · obtain ⟨candidates, hc⟩ := hready hmode.symm
    refine ⟨candidates.length, List.length_pos_iff.mpr hc.ne_nil, ?_, ?_⟩
    · intro _ candidates' hc'
      rw [Option.some.inj (hc.stored.symm.trans hc')]
    · rw [if_pos hmode, hc.stored]
      rfl
  · refine ⟨1, Nat.one_pos, fun h => absurd h.symm hmode, ?_⟩
    rw [if_neg hmode]
    rfl

theorem execChooseConn_leftOver {conn : Nat} {rest : List Nat} (h₂ : m.connMap 2 = [])
    (h₁ : m.connMap 1 = []) (h₀ : m.connMap 0 = conn :: rest) (hzero : m.choice = 0)
    (hfinished : (m.connState conn).isFinished = false)
    (hexec : (m.connState conn).executable = 0) :
    m.execChooseConn = some ((m.setSlot conn { m.connState conn with
      fwdMode := .dropped }).setConn conn |>.setChoiceCount 1) := by
  have hlive : (m.connState conn).fwdMode ≠ .dropped ∧
      ¬((m.connState conn).fwdMode = .accepted ∧
        (m.connState conn).protoState.isLast = true) := by
    simpa [ConnState.isFinished, hexec] using hfinished
  have hpick : (do
      assert (m.choice == 0)
      let m := m.setConn conn
      if m.cur.fwdMode ≠ .dropped ∧ ¬(m.cur.fwdMode = .accepted ∧ m.cur.protoState.isLast) then
        return m.setCur { m.cur with fwdMode := .dropped }
      else return m : Option Model) =
      some ((m.setConn conn).setCur { m.connState conn with fwdMode := .dropped }) := by
    rw [hzero]
    exact if_pos hlive
  unfold execChooseConn pickConn
  rw [h₂, h₁, h₀]
  dsimp only at hpick ⊢
  rw [hpick, Option.bind_eq_bind, Option.bind_some, cur_setCur, if_neg (by simp)]
  rfl

theorem execChooseConn_onTrack (hm : ∀ i < m.numConns, P.OnTrack (m.connState i))
    (hcount : m.updateChoiceCount.choiceCount = m.choiceCount)
    (hchoice : m.choice < m.choiceCount) :
    (∃ i < m.numConns, (m.connState i).executable = 2 ∧ ∃ k, 0 < k ∧
        ((m.connState i).AboutToForward → ∀ candidates,
          (m.connState i).candidates = some candidates → k = candidates.length) ∧
        m.execChooseConn = some ((m.setConn i).setChoiceCount k)) ∨
      ∃ i < m.numConns, (m.connState i).isFinished = false ∧ (m.connState i).executable = 0 ∧
        m.execChooseConn = some ((m.setSlot i { m.connState i with
          fwdMode := .dropped }).setConn i |>.setChoiceCount 1) := by
  -- no connection waits for the openflow process
  have hnone : m.connMap 1 = [] := by
    rw [List.eq_nil_iff_forall_not_mem]
    intro i hi
    obtain ⟨hlt, -, hexec⟩ := mem_connMap.mp hi
    rcases hm i hlt with h | ⟨h, -⟩
    · simp [h] at hexec
    · simp [h] at hexec
  unfold updateChoiceCount at hcount
  rw [hnone] at hcount
  cases h₂ : m.connMap 2 with
  | cons conn rest =>
    obtain ⟨hlt, -, hexec⟩ := mem_connMap.mp (h₂ ▸ List.mem_cons_self ..)
    rw [h₂, if_pos (by simp)] at hcount
    have hzero : m.choice = 0 := by
      have hone : 1 = m.choiceCount := hcount
      omega
    have hsends := ((hm conn hlt).resolve_left (by simp [hexec])).2
    exact .inl ⟨conn, hlt, hexec, execChooseConn_forwardable h₂ hzero hsends.ready⟩
  | nil =>
    rw [h₂, if_neg (by simp), if_neg (by simp)] at hcount
    cases h₀ : m.connMap 0 with
    | nil =>
      rw [h₀, if_neg (by simp)] at hcount
      have hcount' : 0 = m.choiceCount := hcount
      omega
    | cons conn rest =>
      obtain ⟨hlt, hfinished, hexec⟩ := mem_connMap.mp (h₀ ▸ List.mem_cons_self ..)
      rw [h₀, if_pos (by simp)] at hcount
      have hzero : m.choice = 0 := by
        have hone : 1 = m.choiceCount := hcount
        omega
      exact .inr ⟨conn, hlt, hfinished, hexec,
        execChooseConn_leftOver h₂ hnone h₀ hzero hfinished hexec⟩

theorem checkToSwitchProcess_frozen (h : m.cur.executable = 0) :
    m.checkToSwitchProcess P = some (m.setProcessId .chooseConn).updateChoiceCount := by
  unfold checkToSwitchProcess
  rw [if_pos (by simp [h])]

theorem checkToSwitchProcess_forwarding (hof : P.openflow.updates = [])
    (hp : m.processId = .forwarding) (h : m.cur.executable = 2) :
    m.checkToSwitchProcess P = some m := by
  have hnone : P.openflow.hasUpdates m.cur.pktLocation m.openflowUpdateState = some false := by
    simp [OpenflowProcess.hasUpdates, OpenflowProcess.nodeOrder, hof]
  unfold checkToSwitchProcess
  rw [if_neg (by simp [h]), hp]
  dsimp only
  split_ifs with hmode
  · rw [hnone]
    rfl
  · rfl

theorem checkToSwitchProcess_chosen (hp : m.processId = .chooseConn) (h : m.cur.executable = 2) :
    m.checkToSwitchProcess P = some (m.setProcessId .forwarding) := by
  unfold checkToSwitchProcess
  rw [if_neg (by simp [h]), hp]

end Model

namespace Plankton

variable {P : Plankton} {m m' : Model} {l : Label}

theorem control_forwarding {results : List InjectionResult} (hp : m.processId = .forwarding) :
    P.control results m = (m.execForwarding P results).bind (Model.checkToSwitchProcess P) := by
  unfold control
  rw [hp]
  rfl

theorem control_chooseConn {results : List InjectionResult} (hp : m.processId = .chooseConn) :
    P.control results m = m.execChooseConn.bind (Model.checkToSwitchProcess P) := by
  unfold control
  rw [hp]
  rfl

theorem potential_lt_of_sum (hnum : m'.numConns = m.numConns)
    (hsum : ∑ j ∈ Finset.range m.numConns, P.effort (m'.connState j) <
      ∑ j ∈ Finset.range m.numConns, P.effort (m.connState j)) :
    P.potential m' < P.potential m := by
  unfold potential
  rw [hnum]
  split_ifs <;> omega

theorem onCourse_chooseConn (hm : ∀ i < m.numConns, P.OnTrack (m.connState i))
    (hconn : m.conn < m.numConns) {m' : Model}
    (hm' : m' = (m.setProcessId .chooseConn).updateChoiceCount) :
    P.OnCourse m' ∧ m'.numConns = m.numConns ∧ m'.connState = m.connState := by
  have hsame := Model.updateChoiceCount_updateChoiceCount (m.setProcessId .chooseConn)
  rw [← hm'] at hsame
  obtain ⟨n, hn, -⟩ := Model.updateChoiceCount_cases (m.setProcessId .chooseConn)
  rw [← hm'] at hn
  have hnum : m'.numConns = m.numConns := by
    rw [hn]
    rfl
  have hslots : m'.connState = m.connState := by
    rw [hn]
    rfl
  refine ⟨⟨?_, ?_, .inr ⟨?_, hsame⟩⟩, hnum, hslots⟩
  · rw [hnum, hslots]
    exact hm
  · rw [hn]
    exact hconn
  · rw [hn]
    rfl

theorem turn_forwarding (hnet : P.network.ModelOnly) (hof : P.openflow.updates = [])
    (hlinked : P.network.Linked) (hloop : P.LoopFree)
    (hm : ∀ i < m.numConns, P.OnTrack (m.connState i)) (hconn : m.conn < m.numConns)
    (hp : m.processId = .forwarding) (hexec : m.cur.executable = 2)
    (hcount : m.cur.AboutToForward → ∀ candidates, m.cur.candidates = some candidates →
      m.choiceCount = candidates.length) (hlt : l.choice < m.choiceCount) :
    ∃ m', P.turn m l = some m' ∧ P.OnCourse m' ∧ P.potential m' < P.potential m := by
  have hsends : P.Sends m.cur := by
    rcases hm m.conn hconn with hfrozen | ⟨-, hsends⟩
    · exact absurd (hexec.symm.trans hfrozen) (by decide)
    · exact hsends
  obtain ⟨m₁, h₁, c, k, hm₁, hc, hless, hk, hcandidates⟩ :=
    Model.execForwarding_advanced (m := m.setChoice l.choice) l.results hnet hof
      hlinked hloop hsends hexec hlt hcount
  have hturn : P.turn m l = m₁.checkToSwitchProcess P := by
    have hp' : (m.setChoice l.choice).processId = .forwarding := hp
    unfold turn
    rw [if_pos hlt, control_forwarding hp', h₁, Option.bind_some]
  have hslots : ∀ i, m₁.connState i = (m.setSlot m.conn c).connState i := by
    intro i
    rw [hm₁]
    rfl
  have hon : ∀ i < m₁.numConns, P.OnTrack (m₁.connState i) := by
    intro i hi
    rw [hslots, Model.setSlot_connState]
    split_ifs
    · exact hc
    · apply hm
      rw [hm₁] at hi
      exact hi
  have hconn₁ : m₁.conn < m₁.numConns := by
    rw [hm₁]
    exact hconn
  have hnum : m₁.numConns = m.numConns := by
    rw [hm₁]
    rfl
  have hcur : m₁.cur = c := by
    rw [hm₁, Model.cur_setChoiceCount, Model.cur_setCur]
  have hsum := sum_effort_lt hconn hless
  simp only [← hslots] at hsum
  rw [hturn]
  -- a connection that comes to an end hands over to the choice of another one
  rcases hc with hfrozen | ⟨hexec', hsends'⟩
  · refine ⟨_, Model.checkToSwitchProcess_frozen (by rw [hcur, hfrozen]), ?_⟩
    obtain ⟨hcourse, hnum', hslots'⟩ := onCourse_chooseConn hon hconn₁ rfl
    refine ⟨hcourse, ?_⟩
    apply potential_lt_of_sum (hnum'.trans hnum)
    rw [hslots']
    exact hsum
  · have hp₁ : m₁.processId = .forwarding := by
      rw [hm₁]
      exact hp
    refine ⟨m₁, ?_, ⟨hon, hconn₁, .inl ⟨hp₁, by rw [hcur, hexec'], ?_, ?_⟩⟩, ?_⟩
    · exact Model.checkToSwitchProcess_forwarding hof hp₁ (by rw [hcur, hexec'])
    · rw [hm₁]
      exact hk
    · rw [hcur, hm₁]
      exact hcandidates hexec'
    · exact potential_lt_of_sum hnum hsum

theorem chooseConn_onCourse (hm : ∀ i < m.numConns, P.OnTrack (m.connState i))
    (hp : m.processId = .chooseConn) (hcount : m.updateChoiceCount.choiceCount = m.choiceCount)
    (hchoice : m.choice < m.choiceCount) :
    ∃ m', m.execChooseConn.bind (Model.checkToSwitchProcess P) = some m' ∧ P.OnCourse m' ∧
      P.potential m' < P.potential m := by
  rcases Model.execChooseConn_onTrack hm hcount hchoice with
    ⟨i, hi, hexec, k, hk, hcandidates, h⟩ | ⟨i, hi, hfinished, hexec, h⟩
  · rw [h, Option.bind_some]
    refine ⟨_, Model.checkToSwitchProcess_chosen hp hexec, ⟨hm, hi, .inl ⟨rfl, hexec, hk, ?_⟩⟩, ?_⟩
    · exact hcandidates
    · unfold potential
      rw [if_neg (by simp), if_pos hp]
      exact Nat.lt_succ_self _
  · -- all connections are frozen: the first one is dropped and has no effort left
    rw [h, Option.bind_some]
    generalize hm₁ : ((m.setSlot i { m.connState i with fwdMode := .dropped }).setConn
      i).setChoiceCount 1 = m₁
    have hslots : ∀ j, m₁.connState j =
        (m.setSlot i { m.connState i with fwdMode := .dropped }).connState j := by
      intro j
      rw [← hm₁]
      rfl
    have hnum : m₁.numConns = m.numConns := by
      rw [← hm₁]
      rfl
    have hconn : m₁.conn = i := by
      rw [← hm₁]
      rfl
    have hfrozen : m₁.cur.executable = 0 := by
      rw [Model.cur, hconn, hslots, Model.setSlot_connState, if_pos rfl]
      exact hexec
    have hon : ∀ j < m₁.numConns, P.OnTrack (m₁.connState j) := by
      intro j hj
      rw [hslots, Model.setSlot_connState]
      split_ifs
      · exact .inl hexec
      · exact hm j (hnum ▸ hj)
    have hless :
        P.effort { m.connState i with fwdMode := .dropped } < P.effort (m.connState i) := by
      have hleft : P.effort (m.connState i) = 1 := by
        rw [effort, hfinished, if_neg Bool.false_ne_true, if_pos hexec]
      have hdone : P.effort { m.connState i with fwdMode := .dropped } = 0 := by
        apply if_pos
        simp [ConnState.isFinished, hexec]
      rw [hleft, hdone]
      exact Nat.one_pos
    have hsum := sum_effort_lt hi hless
    simp only [← hslots] at hsum
    obtain ⟨hcourse, hnum', hslots'⟩ := onCourse_chooseConn hon (by rw [hconn, hnum]; exact hi) rfl
    refine ⟨_, Model.checkToSwitchProcess_frozen hfrozen, hcourse, ?_⟩
    apply potential_lt_of_sum (hnum'.trans hnum)
    rw [hslots']
    exact hsum

theorem turn_onCourse (hnet : P.network.ModelOnly) (hof : P.openflow.updates = [])
    (hlinked : P.network.Linked) (hloop : P.LoopFree) (hm : P.OnCourse m)
    (hlt : l.choice < m.choiceCount) :
    ∃ m', P.turn m l = some m' ∧ P.OnCourse m' ∧ P.potential m' < P.potential m := by
  rcases hm.control with ⟨hp, hexec, -, hcount⟩ | ⟨hp, hcount⟩
  · exact turn_forwarding hnet hof hlinked hloop hm.onTrack hm.conn hp hexec hcount hlt
  · have hp' : (m.setChoice l.choice).processId = .chooseConn := hp
    have hcount' : (m.setChoice l.choice).updateChoiceCount.choiceCount =
        (m.setChoice l.choice).choiceCount := by
      have hset : (m.setChoice l.choice).updateChoiceCount =
          m.updateChoiceCount.setChoice l.choice := by
        have hmap : ∀ e, (m.setChoice l.choice).connMap e = m.connMap e := fun _ => rfl
        unfold Model.updateChoiceCount
        rw [hmap, hmap, hmap]
        split_ifs <;> rfl
      rw [hset, hcount]
    unfold turn
    rw [if_pos hlt, control_chooseConn hp']
    exact chooseConn_onCourse hm.onTrack hp' hcount' hlt

theorem allFinished_of_onCourse (hm : P.OnCourse m) (h : m.choiceCount = 0) : m.AllFinished := by
  rcases hm.control with ⟨-, -, hpos, -⟩ | ⟨-, hcount⟩
  · exact absurd h hpos.ne'
  · obtain ⟨n, hn, hfinished⟩ := Model.updateChoiceCount_cases m
    apply Model.allFinished_of_isFinished
    apply hfinished
    rw [hcount] at hn
    rw [hn] at h
    exact h

theorem run_onCourse (hnet : P.network.ModelOnly) (hof : P.openflow.updates = [])
    (hlinked : P.network.Linked) (hloop : P.LoopFree) {s t : Model} {tr : List (Link Model Label)}
    (h : Run P.turn s tr t) (hs : P.OnCourse s) :
    P.OnCourse t ∧ tr.length + P.potential t ≤ P.potential s := by
  induction h with
  | nil s => exact ⟨hs, by simp⟩
  | @cons s s' t l tr hstep _ ih =>
    have hlt : l.choice < s.choiceCount := by
      by_contra hge
      unfold turn at hstep
      rw [if_neg hge] at hstep
      simp at hstep
    obtain ⟨s₁, hturn, hcourse, hless⟩ := turn_onCourse hnet hof hlinked hloop hs hlt
    obtain rfl := Option.some.inj (hturn.symm.trans hstep)
    obtain ⟨ht, hlen⟩ := ih hcourse
    refine ⟨ht, ?_⟩
    rw [List.length_cons]
    omega

structure Sendable (P : Plankton) (c : Connection) : Prop where
  srcNode : c.srcNode ∈ P.network.nodes
  dstIpEc : P.IsEc c.dstIpEc
  srcIp : c.srcIp = 0#32
  canSend : P.network.CanSend c.srcNode

theorem init_isSome (hof : P.openflow.updates = []) {c : Connection} (hc : P.IsEc c.dstIpEc)
    (i : Nat) (m : Model) : (c.init P i m).isSome := by
  obtain ⟨fib, hfib, -⟩ := updateFib_of_noUpdates hof hc m.openflowUpdateState
  have hpayload : ∀ s : Model, s.cur.protoState = c.firstProtoState →
      s.getPayloadFromModel P = some none := by
    intro s hs
    unfold Model.getPayloadFromModel Connection.firstProtoState at *
    rw [hs]
    cases c.protocol <;> rfl
  unfold Connection.init
  dsimp only
  rw [hpayload _ (by rw [Model.cur_setCur]), Option.bind_eq_bind, Option.bind_some]
  unfold Model.updateFib
  simp only [Model.cur_setCur, Model.setCur_setCur]
  rw [Option.bind_eq_bind, Option.bind_eq_bind, Option.bind_some]
  show ((P.openflow.updateFib m.openflowUpdateState _).bind _).bind _ |>.isSome
  rw [hfib]
  rfl

theorem initFrom_isSome (hof : P.openflow.updates = []) {cs : List Connection}
    (hcs : ∀ c ∈ cs, P.IsEc c.dstIpEc) :
    ∀ (i : Nat) (m : Model), (Connection.initFrom P cs i m).isSome := by
  induction cs with
  | nil => exact fun _ _ => rfl
  | cons c cs ih =>
    intro i m
    obtain ⟨m₁, h₁⟩ := Option.isSome_iff_exists.mp
      (init_isSome hof (hcs c (List.mem_cons_self ..)) i m)
    rw [Connection.initFrom, h₁, Option.bind_some]
    exact ih (fun d hd => hcs d (List.mem_cons_of_mem _ hd)) (i + 1) m₁

theorem onTrack_of_starts (hof : P.openflow.updates = []) {c : Connection}
    (hc : P.Sendable c) {st : OpenflowUpdateState} {s : ConnState} (hs : c.Starts P st s) :
    P.OnTrack s := by
  obtain ⟨fib, hfib, hnext⟩ := updateFib_of_noUpdates hof hc.dstIpEc st
  obtain rfl := Option.some.inj (hfib.symm.trans hs.fib)
  have hfirst : s.protoState.isFirst = true ∧ 1 ≤ s.protoState ∧ s.protoState < 15 := by
    rw [hs.protoState, Connection.firstProtoState]
    cases c.protocol <;> decide
  refine .inr ⟨hs.executable, ⟨c.dstIpEc, hc.dstIpEc, hs.dstIpEc, hnext⟩, ?_, ?_, hfirst.2, ?_,
    ?_, ?_, ?_, ?_⟩
  · rw [hs.pktLocation]
    exact hc.srcNode
  · rw [hs.srcNode]
    exact hc.srcNode
  · intro ec n h hchoice
    rw [hs.pathChoices] at hchoice
    simp [Choices.getChoice] at hchoice
  · intro _
    rw [hs.srcIp, hs.pktLocation]
    exact ⟨hc.srcIp, hc.canSend⟩
  · intro hsource
    exact absurd ⟨hfirst.1, .inl hs.fwdMode⟩ hsource
  · simp [hs.fwdMode]
  · intro hforward
    simp [ConnState.AboutToForward, hs.fwdMode] at hforward

theorem onCourse_initModel (hof : P.openflow.updates = []) {policy : Policy} {conn : Connection}
    {conns : List Connection} {s : Model} (hconns : ∀ c ∈ conn :: conns, P.Sendable c)
    (hs : P.initModel (.single ⟨policy, conn :: conns⟩) = some s) : P.OnCourse s := by
  obtain ⟨hp, hcount, m₀, -, hstarts⟩ := initModel_single hs
  have hslot : ∀ i < s.numConns, P.OnTrack (s.connState i) := by
    intro i hi
    rw [hstarts.numConns] at hi
    have hget := List.getElem?_eq_getElem hi
    exact onTrack_of_starts hof (hconns _ (List.getElem_mem hi)) (hstarts.slot i _ hget)
  have hcur := hstarts.cur (c := conn) rfl
  refine ⟨hslot, ?_, .inl ⟨hp, hcur.executable, ?_, ?_⟩⟩
  · rw [hstarts.conn, hstarts.numConns]
    exact Nat.succ_pos _
  · rw [hcount]
    exact Nat.one_pos
  · intro hforward
    simp [ConnState.AboutToForward, hcur.fwdMode] at hforward

/-- Every run ends, after a number of turns that is known at the start, and then all connections
are finished; no turn fails before. -/
theorem terminates (hnet : P.network.ModelOnly) (hlinked : P.network.Linked)
    (hof : P.openflow.updates = []) (hloop : P.LoopFree) (policy : Policy) (conn : Connection)
    (conns : List Connection) (hconns : ∀ c ∈ conn :: conns, P.Sendable c) :
    ∃ s, P.initModel (.single ⟨policy, conn :: conns⟩) = some s ∧
      ∃ N, ∀ tr t, Run P.turn s tr t → tr.length ≤ N ∧
        (∀ l : Label, l.choice < t.choiceCount → (P.turn t l).isSome) ∧
        (t.choiceCount = 0 → t.AllFinished) := by
  obtain ⟨m₁, h₁⟩ := Option.isSome_iff_exists.mp
    (initFrom_isSome hof (fun c hc => (hconns c hc).dstIpEc) 0 (P.initOpenflow .zero))
  have hinit : (P.initModel (.single ⟨policy, conn :: conns⟩)).isSome := by
    unfold initModel Invariants.init CheckedInvariant.init
    rw [Option.isSome_map]
    show ((Connection.initFrom P (conn :: conns) 0 (P.initOpenflow .zero)).bind _).isSome
    rw [h₁]
    cases policy <;> rfl
  obtain ⟨s, hs⟩ := Option.isSome_iff_exists.mp hinit
  have hcourse : P.OnCourse s := onCourse_initModel hof hconns hs
  refine ⟨s, hs, P.potential s, ?_⟩
  intro tr t hrun
  obtain ⟨ht, hlen⟩ := run_onCourse hnet hof hlinked hloop hrun hcourse
  refine ⟨le_trans (Nat.le_add_right _ _) hlen, ?_, allFinished_of_onCourse ht⟩
  intro l hlt
  obtain ⟨m', hm', -⟩ := turn_onCourse hnet hof hlinked hloop ht hlt
  rw [hm']
  rfl

theorem loopFree_of_direct
    (h : ∀ ec ∈ P.ecs.allRanges.map ECRange.ec, ∀ n ∈ P.network.nodes,
      ∀ h ∈ P.nextHops ec n, h.l3Node ≠ n →
        ∀ h' ∈ P.nextHops ec h.l3Node, h'.l3Node = h.l3Node) : P.LoopFree := by
  intro ec hec a hcycle
  obtain ⟨x, hx⟩ := hec
  have hmem : ec ∈ P.ecs.allRanges.map ECRange.ec := by
    obtain ⟨range, hfind, rfl⟩ := Option.map_eq_some_iff.mp hx
    exact List.mem_map_of_mem (Ordered.mem_of_find hfind)
  obtain ⟨b, hab, hba⟩ := Relation.TransGen.head'_iff.mp hcycle
  obtain ⟨ha, hne, hop, hhop, rfl⟩ := hab
  rcases hba.cases_head with heq | ⟨c, ⟨-, hne', hop', hhop', rfl⟩, -⟩
  · exact hne heq
  · exact hne' (h ec hmem a ha hop hhop hne hop' hhop')

/-! Two nodes. The interface of the first may be a switchport, with a route that leaves through it
to the second. -/

section Pair

def pairIntf (isSwitchport : Bool) : IntfPtr → Interface
  | 10 => ⟨2, ⟨0x0A000000#32, 31, by decide⟩, isSwitchport⟩
  | _ => ⟨2, ⟨0x0A000001#32, 31, by decide⟩, false⟩

def pairNode (isSwitchport : Bool) : NodePtr → Node
  | 0 => ⟨[10], [connectedRoute (pairIntf isSwitchport 10)],
      by cases isSwitchport <;> unfold Ordered.WeakSorted <;> decide, [(2, 1, 11)], false⟩
  | 1 => ⟨[11], [connectedRoute (pairIntf isSwitchport 11)],
      by cases isSwitchport <;> unfold Ordered.WeakSorted <;> decide, [(2, 0, 10)], false⟩
  | _ => ⟨[], [], Route.weakSorted_nil, [], false⟩

def pair (isSwitchport : Bool) : Network where
  nodes := [0, 1]
  node := pairNode isSwitchport
  intf := pairIntf isSwitchport
  peer_mem n p hp := by
    rcases n with _ | _ | n <;> simp [pairNode] at hp ⊢
    · subst hp; simp
    · subst hp; simp
  l2Lan _ _ := if isSwitchport then ⟨[(0, 10)], [(0x0A000001#32, 1, 11)]⟩ else ⟨[], []⟩
  lan_built _ _ := ⟨1, 0, by cases isSwitchport <;> rfl⟩

def pairPlankton (isSwitchport : Bool) : Plankton := .ofNetwork (pair isSwitchport) (noUpdates _)

def pairConn (isSwitchport : Bool) (protocol : Proto) : Connection where
  protocol := protocol
  srcNode := 0
  dstIpEc := ((pairPlankton isSwitchport).ecs.findEc 0x0A000001#32).getD 0
  srcPort := 100#16
  dstPort := 80#16
  srcIp := 0#32
  seq := 0#32
  ack := 0#32

end Pair

theorem pair_modelOnly (isSwitchport : Bool) : (pair isSwitchport).ModelOnly := by
  intro n
  rcases n with _ | _ | n <;> rfl

theorem pair_linked (isSwitchport : Bool) : (pair isSwitchport).Linked := by
  intro n name n' i' hpeer
  have hmem : (name, n', i') ∈ (pairNode isSwitchport n).l2Peers := by
    obtain ⟨l₁, l₂, hl, -⟩ := List.lookup_eq_some_iff.mp hpeer
    have hl' : (pairNode isSwitchport n).l2Peers = _ := hl
    rw [hl']
    simp
  rcases n with _ | _ | n
  · obtain ⟨rfl, rfl, rfl⟩ : name = 2 ∧ n' = 1 ∧ i' = 11 := by
      simpa [pairNode] using hmem
    exact ⟨10, List.mem_singleton_self 10, rfl, rfl⟩
  · obtain ⟨rfl, rfl, rfl⟩ : name = 2 ∧ n' = 0 ∧ i' = 10 := by
      simpa [pairNode] using hmem
    exact ⟨11, List.mem_singleton_self 11, rfl, rfl⟩
  · simp [pairNode] at hmem

theorem pairPlankton_loopFree (isSwitchport : Bool) : (pairPlankton isSwitchport).LoopFree := by
  apply loopFree_of_direct
  cases isSwitchport <;> decide +kernel

theorem pairConn_isEc (isSwitchport : Bool) (protocol : Proto) :
    (pairPlankton isSwitchport).IsEc (pairConn isSwitchport protocol).dstIpEc := by
  have hsome : ((pairPlankton isSwitchport).ecs.findEc 0x0A000001#32).isSome = true := by
    cases isSwitchport <;> decide +kernel
  obtain ⟨ec, hec⟩ := Option.isSome_iff_exists.mp hsome
  refine ⟨0x0A000001#32, ?_⟩
  rw [pairConn, hec]
  rfl

theorem terminates_pair : ∃ s, (pairPlankton false).initModel (.single ⟨.waypoint [] true,
      [pairConn false .tcp, pairConn false .udp]⟩) = some s ∧
    ∃ N, ∀ tr t, Run (pairPlankton false).turn s tr t → tr.length ≤ N ∧
      (∀ l : Label, l.choice < t.choiceCount → ((pairPlankton false).turn t l).isSome) ∧
      (t.choiceCount = 0 → t.AllFinished) := by
  have hsend : (pair false).CanSend 0 := by
    intro i hi hl2
    obtain rfl := List.mem_singleton.mp hi
    exact absurd hl2 (by decide)
  have hconn : ∀ protocol, (pairPlankton false).Sendable (pairConn false protocol) :=
    fun protocol => ⟨List.mem_cons_self .., pairConn_isEc false protocol, rfl, hsend⟩
  apply terminates (pair_modelOnly false) (pair_linked false) rfl (pairPlankton_loopFree false)
  intro c hc
  rcases List.mem_cons.mp hc with rfl | hc
  · exact hconn .tcp
  · obtain rfl := List.mem_singleton.mp hc
    exact hconn .udp

/-- The address of a switchport cannot be taken: the first packet is never forwarded. -/
theorem not_terminates : ¬ ∀ (P : Plankton) (policy : Policy) (conn : Connection)
    (conns : List Connection), P.network.ModelOnly → P.network.Linked → P.openflow.updates = [] →
      P.LoopFree → (∀ c ∈ conn :: conns, c.srcNode ∈ P.network.nodes ∧ P.IsEc c.dstIpEc ∧
        c.srcIp = 0#32) →
      ∃ s, P.initModel (.single ⟨policy, conn :: conns⟩) = some s ∧
        ∃ N, ∀ tr t, Run P.turn s tr t → tr.length ≤ N ∧
          (∀ l : Label, l.choice < t.choiceCount → (P.turn t l).isSome) ∧
          (t.choiceCount = 0 → t.AllFinished) := by
  intro h
  have hconn : ∀ c ∈ [pairConn true .udp], c.srcNode ∈ (pairPlankton true).network.nodes ∧
      (pairPlankton true).IsEc c.dstIpEc ∧ c.srcIp = 0#32 := by
    intro c hc
    obtain rfl := List.mem_singleton.mp hc
    exact ⟨List.mem_cons_self .., pairConn_isEc true .udp, rfl⟩
  obtain ⟨s, hs, N, hruns⟩ := h (pairPlankton true) (.waypoint [] true) (pairConn true .udp) []
    (pair_modelOnly true) (pair_linked true) rfl (pairPlankton_loopFree true) hconn
  have hrun : (((pairPlankton true).initModel (.single ⟨.waypoint [] true,
      [pairConn true .udp]⟩)).bind fun s => (execute (pairPlankton true).turn s [go]).map fun r =>
        (r.2.choiceCount, ((pairPlankton true).turn r.2 go).isSome)) = some (1, false) := by
    decide +kernel
  rw [hs, Option.bind_some] at hrun
  obtain ⟨⟨tr, t⟩, hexec, hr⟩ := Option.map_eq_some_iff.mp hrun
  obtain ⟨hcount, hstuck⟩ := Prod.mk.inj hr
  obtain ⟨-, hgoes, -⟩ := hruns tr t (run_of_execute hexec)
  have hnext := hgoes go (by rw [hcount]; exact Nat.one_pos)
  exact absurd (hnext.symm.trans hstuck) (by decide)

end Plankton

end Neo
