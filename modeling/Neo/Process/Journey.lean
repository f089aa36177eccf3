import Neo.Process.DataPlane

/-! The way of a packet through the data plane of its class. Where there is one connection, its
packet can take every path that meets no node twice. -/

namespace Neo

namespace ConnState

def InFlight (c : ConnState) : Prop :=
  c.fwdMode = .firstForward ∨ c.fwdMode = .collectNhops ∨ c.fwdMode = .forwardPacket

structure SamePhase (ec : EcPtr) (c c' : ConnState) : Prop where
  protoState : c'.protoState = c.protoState
  txNode : c'.txNode = c.txNode
  srcNode : c'.srcNode = c.srcNode
  choices : ∀ e ≠ ec, ∀ n, c'.pathChoices.getChoice (some e) n = c.pathChoices.getChoice (some e) n

theorem SamePhase.trans {ec : EcPtr} {c c' c'' : ConnState} (h : SamePhase ec c c')
    (h' : SamePhase ec c' c'') : SamePhase ec c c'' where
  protoState := h'.protoState.trans h.protoState
  txNode := h'.txNode.trans h.txNode
  srcNode := h'.srcNode.trans h.srcNode
  choices e he n := (h'.choices e he n).trans (h.choices e he n)

theorem samePhase_refl (ec : EcPtr) (c : ConnState) : SamePhase ec c c :=
  ⟨rfl, rfl, rfl, fun _ _ _ => rfl⟩

end ConnState

def choose (i : Nat) : Label := ⟨i, [], none⟩

namespace Model

variable {P : Plankton} {m m' : Model} {ec : EcPtr} {n : NodePtr} {h : FibIpnh}
  {met : Set NodePtr} {mode : FwdMode} {srcIp : IPv4Address} {l : Label}
  {results : List InjectionResult}

structure Lone (m : Model) : Prop where
  conn : m.conn = 0
  numConns : m.numConns = 1
  processId : m.processId = .forwarding
  executable : m.cur.executable = 2

structure Arrived (P : Plankton) (ec : EcPtr) (met : Set NodePtr) (n : NodePtr) (m : Model) : Prop
    extends m.Lone where
  choiceCount : m.choiceCount = 1
  mode : m.cur.fwdMode = .firstCollect ∨ m.cur.fwdMode = .collectNhops
  pktLocation : m.cur.pktLocation = n
  mem : n ∈ P.network.nodes
  dstIpEc : m.cur.dstIpEc = some ec
  fib : ∀ k ∈ P.network.nodes, m.cur.fib k = some (P.nextHops ec k)
  unmet : ∀ k ∉ met, m.cur.pathChoices.getChoice (some ec) k = none

def LeavesWith (P : Plankton) (m : Model) (h : FibIpnh) (srcIp : IPv4Address) : Prop :=
  if m.cur.fwdMode = .firstCollect ∧ m.cur.protoState.isFirst = true ∧ m.cur.srcIp = 0#32 then
    P.network.sourceAddr m.cur.pktLocation h = some srcIp
  else srcIp = m.cur.srcIp

theorem LeavesWith.of_later (hlater : m.cur.fwdMode = .collectNhops ∨
    m.cur.protoState.isFirst = false) (h : FibIpnh) : LeavesWith P m h m.cur.srcIp := by
  unfold LeavesWith
  rw [if_neg]
  rintro ⟨hfirst, hps, -⟩
  rcases hlater with hmode | hmode
  · simp [hmode] at hfirst
  · simp [hmode] at hps

def forwardMode : FwdMode → FwdMode
  | .firstCollect => .firstForward
  | _ => .forwardPacket

def offering (m : Model) (nextHops : List FibIpnh) : Model :=
  ((m.setChoice 0).setCur { m.cur with
    candidates := some nextHops
    fwdMode := forwardMode m.cur.fwdMode }).setChoiceCount nextHops.length

theorem firstSrcIp_eq (hnet : P.network.ModelOnly) {candidates : Candidates}
    (hc : m.cur.candidates = some candidates) (hh : candidates[m.choice]? = some h)
    (hmem : h ∈ P.nextHops ec m.cur.pktLocation) :
    m.firstSrcIp P = P.network.sourceAddr m.cur.pktLocation h := by
  unfold firstSrcIp Topology.sourceAddr
  rw [hc, Option.bind_eq_bind, Option.bind_some, hh, Option.bind_eq_bind, Option.bind_some]
  rcases Plankton.nextHops_cases (hnet _) hmem with ⟨rfl, -⟩ | ⟨r, -, -, x, hx⟩
  · simp [FibIpnh.accept, assert]
  · -- over an interface the next hop has an L2 interface
    have hl2 : ∃ i, h.l2Intf = some i := by
      unfold Network.getIpnh at hx
      split at hx
      · simp at hx
      · next l2Node l2Intf _ =>
        split_ifs at hx
        · exact ⟨l2Intf, by rw [← Option.some.inj hx]⟩
        · obtain ⟨ep, -, rfl⟩ := Option.map_eq_some_iff.mp hx
          exact ⟨l2Intf, rfl⟩
    obtain ⟨i, hi⟩ := hl2
    rw [hi]
    cases hpeer : P.network.getPeer h.l2Node (P.network.intf i).name with
    | none => simp [hpeer]
    | some egress => cases hl3 : (P.network.intf egress.2).isL2 <;> simp [hpeer, hl3, assert]

theorem chooseCandidates_unmet
    (hchoice : m.cur.pathChoices.getChoice m.cur.dstIpEc m.cur.pktLocation = none)
    (nextHops : List FibIpnh) : m.chooseCandidates nextHops = nextHops := by
  unfold chooseCandidates
  rw [hchoice]

theorem setCur_of_setChoiceCount (m : Model) (c c' : ConnState) (k : Nat) :
    ((m.setCur c).setChoiceCount k).setCur c' = (m.setCur c').setChoiceCount k := by
  show ((m.setCur c).setCur c').setChoiceCount k = _
  rw [setCur_setCur]

def starvedMode : FwdMode → FwdMode
  | .firstCollect => .firstForward
  | _ => .dropped

theorem execForwarding_collect (hnet : P.network.ModelOnly) {nextHops : List FibIpnh}
    (hfib : m.cur.fib m.cur.pktLocation = some nextHops)
    (hmode : m.cur.fwdMode = .firstCollect ∨ m.cur.fwdMode = .collectNhops) :
    m.execForwarding P results = some (if nextHops = [] then
      m.setCur { m.cur with fwdMode := starvedMode m.cur.fwdMode, executable := 0 }
    else (m.setCur { m.cur with
      candidates := some (m.chooseCandidates nextHops)
      fwdMode := forwardMode m.cur.fwdMode }).setChoiceCount
        (m.chooseCandidates nextHops).length) := by
  have hcollect : m.collectNextHops P results = _ := collectNextHops_eq hnet hfib
  unfold execForwarding
  rcases hmode with hmode | hmode
  · rw [hmode]
    dsimp only
    rw [firstCollect, hcollect, Option.bind_eq_bind, Option.bind_some]
    split_ifs
    · rw [dropCur, cur_setCur, setCur_setCur]
      rfl
    · rw [setCur_of_setChoiceCount, cur_setChoiceCount, cur_setCur]
      rfl
  · rw [hmode]
    exact hcollect

theorem Arrived.execForwarding_offer (hm : Arrived P ec met n m) (hnet : P.network.ModelOnly)
    (hmet : n ∉ met) (hne : P.nextHops ec n ≠ []) :
    (m.setChoice 0).execForwarding P results = some (m.offering (P.nextHops ec n)) := by
  have hfib : (m.setChoice 0).cur.fib (m.setChoice 0).cur.pktLocation =
      some (P.nextHops ec n) := by
    rw [cur_setChoice, hm.pktLocation]
    exact hm.fib n hm.mem
  have hcandidates : (m.setChoice 0).chooseCandidates (P.nextHops ec n) = P.nextHops ec n := by
    apply chooseCandidates_unmet
    rw [cur_setChoice, hm.dstIpEc, hm.pktLocation]
    exact hm.unmet n hmet
  rw [execForwarding_collect hnet hfib hm.mode, if_neg hne, hcandidates]
  rfl

theorem Arrived.turn_collect (hm : Arrived P ec met n m) (hnet : P.network.ModelOnly)
    (hof : P.openflow.updates = []) (hmet : n ∉ met) (hne : P.nextHops ec n ≠ [])
    (hl : l.choice = 0) : P.turn m l = some (m.offering (P.nextHops ec n)) := by
  have hlone : (m.offering (P.nextHops ec n)).cur.executable = 2 := by
    rw [offering, cur_setChoiceCount, cur_setCur]
    exact hm.executable
  have hp : (m.setChoice 0).processId = .forwarding := hm.processId
  unfold Plankton.turn
  rw [hl, if_pos (by rw [hm.choiceCount]; exact Nat.one_pos), Plankton.control_forwarding hp,
    hm.execForwarding_offer hnet hmet hne, Option.bind_some]
  exact checkToSwitchProcess_forwarding hof hm.processId hlone

def choicesWith (m : Model) (nextHops : List FibIpnh) (h : FibIpnh) : Choices :=
  if nextHops.length > 1 then ((m.cur.dstIpEc, m.cur.pktLocation), h) :: m.cur.pathChoices
  else m.cur.pathChoices

theorem getChoice_choicesWith {nextHops : List FibIpnh} {e : Option EcPtr} {k : NodePtr}
    (hne : (e, k) ≠ (m.cur.dstIpEc, m.cur.pktLocation)) :
    (m.choicesWith nextHops h).getChoice e k = m.cur.pathChoices.getChoice e k := by
  unfold choicesWith
  split_ifs
  · rw [Choices.getChoice, List.lookup_cons, beq_false_of_ne hne]
    rfl
  · rfl

def taken (P : Plankton) (m : Model) (nextHops : List FibIpnh) (i : Nat) (h : FibIpnh)
    (srcIp : IPv4Address) : Model :=
  let m' := ((m.offering nextHops).setChoice i).setCur { m.cur with
    candidates := some nextHops
    fwdMode := forwardMode m.cur.fwdMode
    srcIp := srcIp
    pathChoices := m.choicesWith nextHops h }
  if h.l3Node = m.cur.pktLocation then m'.deliver else m'.moveTo P h

theorem cur_offering (m : Model) (nextHops : List FibIpnh) :
    (m.offering nextHops).cur = { m.cur with
      candidates := some nextHops
      fwdMode := forwardMode m.cur.fwdMode } := by
  rw [offering, cur_setChoiceCount, cur_setCur]

theorem Arrived.forwardPacket_take (hm : Arrived P ec met n m) (hmet : n ∉ met) {i : Nat}
    (hi : (P.nextHops ec n)[i]? = some h) (srcIp : IPv4Address) :
    (((m.offering (P.nextHops ec n)).setChoice i).setCur { (m.offering (P.nextHops ec n)).cur with
      srcIp := srcIp }).forwardPacket P = some (m.taken P (P.nextHops ec n) i h srcIp) := by
  have hremember : (((m.offering (P.nextHops ec n)).setChoice i).setCur
      { (m.offering (P.nextHops ec n)).cur with srcIp := srcIp }).rememberChoice
        (P.nextHops ec n) h = some (m.choicesWith (P.nextHops ec n) h) := by
    have hnone : m.cur.pathChoices.getChoice m.cur.dstIpEc m.cur.pktLocation = none := by
      rw [hm.dstIpEc, hm.pktLocation]
      exact hm.unmet n hmet
    unfold rememberChoice choicesWith
    rw [cur_setCur, cur_offering]
    dsimp only
    split_ifs
    · rw [Choices.addChoice, hnone]
      rfl
    · rfl
  have hstored : (((m.offering (P.nextHops ec n)).setChoice i).setCur
      { (m.offering (P.nextHops ec n)).cur with srcIp := srcIp }).cur.candidates =
        some (P.nextHops ec n) := by
    rw [cur_setCur, cur_offering]
  rw [forwardPacket_eq hstored hi hremember, cur_setCur, setCur_setCur, cur_offering]
  rfl

theorem Arrived.execForwarding_take (hm : Arrived P ec met n m) (hnet : P.network.ModelOnly)
    (hmet : n ∉ met) {i : Nat} (hi : (P.nextHops ec n)[i]? = some h)
    (hsrc : m.LeavesWith P h srcIp) :
    ((m.offering (P.nextHops ec n)).setChoice i).execForwarding P results =
      some (m.taken P (P.nextHops ec n) i h srcIp) := by
  have hforward := hm.forwardPacket_take hmet hi srcIp
  have hcur := m.cur_offering (P.nextHops ec n)
  have hself : srcIp = m.cur.srcIp → ((m.offering (P.nextHops ec n)).setChoice i).setCur
      { (m.offering (P.nextHops ec n)).cur with srcIp := srcIp } =
        (m.offering (P.nextHops ec n)).setChoice i := by
    rintro rfl
    rw [cur_offering, ← cur_offering, ← cur_setChoice, setCur_cur]
  unfold execForwarding
  rw [cur_setChoice, hcur]
  unfold LeavesWith at hsrc
  rcases hm.mode with hmode | hmode
  · rw [hmode] at hsrc ⊢
    dsimp only [forwardMode]
    unfold firstForward
    rw [cur_setChoice, hcur]
    dsimp only
    -- the first packet of a connection without a source address takes that of its egress
    split_ifs with hunset
    · rw [if_pos ⟨rfl, hunset.1, hunset.2⟩] at hsrc
      have hmem : h ∈ P.nextHops ec
          ((m.offering (P.nextHops ec n)).setChoice i).cur.pktLocation := by
        rw [cur_setChoice, hcur]
        rw [← hm.pktLocation] at hi
        exact List.mem_of_getElem? hi
      have hsourced : ((m.offering (P.nextHops ec n)).setChoice i).firstSrcIp P = some srcIp := by
        rw [firstSrcIp_eq hnet (by rw [cur_setChoice, hcur]) hi hmem, cur_setChoice, hcur]
        exact hsrc
      rw [hsourced, Option.bind_eq_bind, Option.bind_some]
      rw [hcur] at hforward
      exact hforward
    · rw [if_neg fun hall => hunset ⟨hall.2.1, hall.2.2⟩] at hsrc
      rwa [hself hsrc] at hforward
  · rw [if_neg (by simp [hmode])] at hsrc
    rw [hmode]
    dsimp only [forwardMode]
    rwa [hself hsrc] at hforward

theorem taken_here {nextHops : List FibIpnh} {i : Nat} (hh : h.l3Node = m.cur.pktLocation) :
    m.taken P nextHops i h srcIp = (((m.offering nextHops).setChoice i).setCur { m.cur with
      candidates := some nextHops
      srcIp := srcIp
      pathChoices := m.choicesWith nextHops h
      rxNode := if m.cur.protoState.isFirst then some m.cur.pktLocation else m.cur.rxNode
      fwdMode := .accepted }).setChoiceCount 1 := by
  unfold taken
  rw [if_pos hh, deliver, cur_setCur, setCur_setCur]

theorem taken_away (hnet : P.network.ModelOnly) {nextHops : List FibIpnh} {i : Nat}
    (hh : h.l3Node ≠ m.cur.pktLocation) :
    m.taken P nextHops i h srcIp = (((m.offering nextHops).setChoice i).setCur { m.cur with
      candidates := some nextHops
      srcIp := srcIp
      pathChoices := m.choicesWith nextHops h
      pktLocation := h.l3Node
      ingressIntf := h.l3Intf
      fwdMode := .collectNhops }).setChoiceCount 1 := by
  unfold taken
  simp only [if_neg hh, moveTo, cur_setCur, setCur_setCur, hnet h.l3Node, Bool.false_and,
    Bool.false_eq_true, if_false]

theorem Arrived.turn_take (hm : Arrived P ec met n m) (hnet : P.network.ModelOnly)
    (hof : P.openflow.updates = []) (hmet : n ∉ met)
    (hl : (P.nextHops ec n)[l.choice]? = some h) (hsrc : m.LeavesWith P h srcIp) :
    P.turn (m.offering (P.nextHops ec n)) l =
      some (m.taken P (P.nextHops ec n) l.choice h srcIp) := by
  have hlt : l.choice < (m.offering (P.nextHops ec n)).choiceCount :=
    (List.getElem?_eq_some_iff.mp hl).1
  have hp : ((m.offering (P.nextHops ec n)).setChoice l.choice).processId = .forwarding :=
    hm.processId
  have htaken : (m.taken P (P.nextHops ec n) l.choice h srcIp).processId = .forwarding ∧
      (m.taken P (P.nextHops ec n) l.choice h srcIp).cur.executable = 2 := by
    by_cases hh : h.l3Node = m.cur.pktLocation
    · rw [taken_here hh, cur_setChoiceCount, cur_setCur]
      exact ⟨hm.processId, hm.executable⟩
    · rw [taken_away hnet hh, cur_setChoiceCount, cur_setCur]
      exact ⟨hm.processId, hm.executable⟩
  unfold Plankton.turn
  rw [if_pos hlt, Plankton.control_forwarding hp, hm.execForwarding_take hnet hmet hl hsrc,
    Option.bind_some]
  exact checkToSwitchProcess_forwarding hof htaken.1 htaken.2

structure DeliveredAt (P : Plankton) (ec : EcPtr) (n : NodePtr) (m : Model) : Prop
    extends m.Lone where
  choiceCount : m.choiceCount = 1
  mode : m.cur.fwdMode = .accepted
  pktLocation : m.cur.pktLocation = n
  mem : n ∈ P.network.nodes
  dstIpEc : m.cur.dstIpEc = some ec

theorem samePhase_taken (hm : Arrived P ec met n m) (hnet : P.network.ModelOnly)
    {nextHops : List FibIpnh} {i : Nat} :
    ConnState.SamePhase ec m.cur (m.taken P nextHops i h srcIp).cur := by
  have hchoices : ∀ e ≠ ec, ∀ k, (m.choicesWith nextHops h).getChoice (some e) k =
      m.cur.pathChoices.getChoice (some e) k := by
    intro e he k
    apply getChoice_choicesWith
    rw [hm.dstIpEc]
    exact fun heq => he (Option.some.inj (Prod.mk.inj heq).1)
  by_cases hh : h.l3Node = m.cur.pktLocation
  · rw [taken_here hh, cur_setChoiceCount, cur_setCur]
    exact ⟨rfl, rfl, rfl, hchoices⟩
  · rw [taken_away hnet hh, cur_setChoiceCount, cur_setCur]
    exact ⟨rfl, rfl, rfl, hchoices⟩

theorem Arrived.inFlight_offering (hm : Arrived P ec met n m) (nextHops : List FibIpnh) :
    (m.offering nextHops).cur.InFlight ∧
      ConnState.SamePhase ec m.cur (m.offering nextHops).cur := by
  rw [cur_offering]
  refine ⟨?_, rfl, rfl, rfl, fun _ _ _ => rfl⟩
  rcases hm.mode with hmode | hmode
  · exact .inl (by rw [hmode]; rfl)
  · exact .inr (.inr (by rw [hmode]; rfl))

theorem Arrived.deliver (hm : Arrived P ec met n m) (hnet : P.network.ModelOnly)
    (hof : P.openflow.updates = []) (hmet : n ∉ met) (hh : h ∈ P.nextHops ec n)
    (hhere : h.l3Node = n) (hsrc : m.LeavesWith P h srcIp) :
    ∃ m₁ m₂ i, P.turn m (choose 0) = some m₁ ∧ P.turn m₁ (choose i) = some m₂ ∧
      m₁.cur.InFlight ∧ ConnState.SamePhase ec m.cur m₁.cur ∧ DeliveredAt P ec n m₂ ∧
      ConnState.SamePhase ec m.cur m₂.cur ∧ m₂.cur.srcIp = srcIp ∧
      m₂.cur.rxNode = if m.cur.protoState.isFirst then some n else m.cur.rxNode := by
  obtain ⟨i, hi⟩ := List.mem_iff_getElem?.mp hh
  have hne : P.nextHops ec n ≠ [] := List.ne_nil_of_mem hh
  have hloc : h.l3Node = m.cur.pktLocation := hhere.trans hm.pktLocation.symm
  obtain ⟨hflight, hphase⟩ := hm.inFlight_offering (P.nextHops ec n)
  refine ⟨_, _, i, hm.turn_collect hnet hof hmet hne rfl,
    hm.turn_take hnet hof hmet hi hsrc,
    hflight, hphase, ?_, samePhase_taken hm hnet, ?_, ?_⟩
  · rw [taken_here hloc]
    refine ⟨⟨hm.conn, hm.numConns, hm.processId, ?_⟩, rfl, ?_, ?_, hm.mem, ?_⟩
    · rw [cur_setChoiceCount, cur_setCur]
      exact hm.executable
    · rw [cur_setChoiceCount, cur_setCur]
    · rw [cur_setChoiceCount, cur_setCur]
      exact hm.pktLocation
    · rw [cur_setChoiceCount, cur_setCur]
      exact hm.dstIpEc
  · rw [taken_here hloc, cur_setChoiceCount, cur_setCur]
  · rw [taken_here hloc, cur_setChoiceCount, cur_setCur, hm.pktLocation]

theorem Arrived.move (hm : Arrived P ec met n m) (hnet : P.network.ModelOnly)
    (hof : P.openflow.updates = []) (hmet : n ∉ met) (hh : h ∈ P.nextHops ec n)
    (haway : h.l3Node ≠ n) (hsrc : m.LeavesWith P h srcIp) :
    ∃ m₁ m₂ i, P.turn m (choose 0) = some m₁ ∧ P.turn m₁ (choose i) = some m₂ ∧
      m₁.cur.InFlight ∧ ConnState.SamePhase ec m.cur m₁.cur ∧
      Arrived P ec (insert n met) h.l3Node m₂ ∧ m₂.cur.fwdMode = .collectNhops ∧
      ConnState.SamePhase ec m.cur m₂.cur ∧ m₂.cur.srcIp = srcIp ∧
      m₂.cur.rxNode = m.cur.rxNode := by
  obtain ⟨i, hi⟩ := List.mem_iff_getElem?.mp hh
  have hne : P.nextHops ec n ≠ [] := List.ne_nil_of_mem hh
  have hloc : h.l3Node ≠ m.cur.pktLocation := hm.pktLocation ▸ haway
  obtain ⟨hflight, hphase⟩ := hm.inFlight_offering (P.nextHops ec n)
  refine ⟨_, _, i, hm.turn_collect hnet hof hmet hne rfl,
    hm.turn_take hnet hof hmet hi hsrc,
    hflight, hphase, ?_, ?_, samePhase_taken hm hnet, ?_, ?_⟩
  · rw [taken_away hnet hloc]
    refine ⟨⟨hm.conn, hm.numConns, hm.processId, ?_⟩, rfl, .inr ?_, ?_, ?_, ?_, ?_, ?_⟩
    · rw [cur_setChoiceCount, cur_setCur]
      exact hm.executable
    · rw [cur_setChoiceCount, cur_setCur]
    · rw [cur_setChoiceCount, cur_setCur]
    · exact Plankton.l3Node_mem hm.mem (hnet _) hh
    · rw [cur_setChoiceCount, cur_setCur]
      exact hm.dstIpEc
    · rw [cur_setChoiceCount, cur_setCur]
      exact hm.fib
    · intro k hk
      rw [cur_setChoiceCount, cur_setCur]
      have hkn : k ≠ n := fun heq => hk (heq ▸ Set.mem_insert n met)
      have hkey : (some ec, k) ≠ (m.cur.dstIpEc, m.cur.pktLocation) := by
        rw [hm.pktLocation]
        exact fun heq => hkn (Prod.mk.inj heq).2
      exact (getChoice_choicesWith hkey).trans
        (hm.unmet k fun hmem => hk (Set.mem_insert_of_mem n hmem))
  · rw [taken_away hnet hloc, cur_setChoiceCount, cur_setCur]
  · rw [taken_away hnet hloc, cur_setChoiceCount, cur_setCur]
  · rw [taken_away hnet hloc, cur_setChoiceCount, cur_setCur]

theorem Arrived.journey (hnet : P.network.ModelOnly) (hof : P.openflow.updates = [])
    {n' : NodePtr} (hpath : SimplePath (P.PassesTo ec) met n n') :
    ∀ {m : Model}, Arrived P ec met n m →
      m.cur.fwdMode = .collectNhops ∨ m.cur.protoState.isFirst = false →
      ∃ tr m' met', Run P.turn m tr m' ∧
        (∀ l ∈ tr, l.after.cur.InFlight ∧ ConnState.SamePhase ec m.cur l.after.cur) ∧
        Arrived P ec met' n' m' ∧ n' ∉ met' ∧ ConnState.SamePhase ec m.cur m'.cur ∧
        (m'.cur.fwdMode = .collectNhops ∨ m'.cur.protoState.isFirst = false) ∧
        m'.cur.srcIp = m.cur.srcIp ∧ m'.cur.rxNode = m.cur.rxNode := by
  induction hpath with
  | @nil met n hn =>
    intro m hm hlater
    exact ⟨[], m, met, .nil m, by simp, hm, hn, ConnState.samePhase_refl ec m.cur, hlater, rfl, rfl⟩
  | @cons met n k n' hn hpass _ ih =>
    intro m hm hlater
    obtain ⟨-, haway, h, hh, rfl⟩ := hpass
    have hsrc := LeavesWith.of_later (P := P) hlater h
    obtain ⟨m₁, m₂, i, h₁, h₂, hflight, hphase₁, hm₂, hmode, hphase₂, hip, hrx⟩ :=
      hm.move hnet hof hn hh haway hsrc
    obtain ⟨tr, m', met', hrun, hall, hm', hmet', hphase', hlater', hip', hrx'⟩ :=
      ih hm₂ (.inl hmode)
    refine ⟨_ :: _ :: tr, m', met', .cons h₁ (.cons h₂ hrun), ?_, hm', hmet',
      hphase₂.trans hphase', hlater', hip'.trans hip, hrx'.trans hrx⟩
    intro l hl
    rcases List.mem_cons.mp hl with rfl | hl
    · exact ⟨hflight, hphase₁⟩
    · rcases List.mem_cons.mp hl with rfl | hl
      · exact ⟨.inr (.inl hmode), hphase₂⟩
      · exact ⟨(hall l hl).1, hphase₂.trans (hall l hl).2⟩

structure Lost (m : Model) : Prop where
  conn : m.conn = 0
  numConns : m.numConns = 1
  mode : m.cur.fwdMode = .dropped

theorem connMap_of_lone (hconn : m.conn = 0) (hnum : m.numConns = 1) (e : Fin 3) :
    m.connMap e = if m.cur.isFinished = false ∧ m.cur.executable = e then [0] else [] := by
  have hslot : m.connState 0 = m.cur := by rw [cur, hconn]
  unfold connMap
  rw [hnum, List.range_one, List.filter_singleton, hslot]
  simp

theorem turn_leftOver (hconn : m.conn = 0) (hnum : m.numConns = 1)
    (hp : m.processId = .chooseConn) (hcount : m.choiceCount = 1) (hexec : m.cur.executable = 0)
    (hmode : m.cur.fwdMode = .firstForward) (hl : l.choice = 0) :
    ∃ m', P.turn m l = some m' ∧ m'.conn = 0 ∧ m'.numConns = 1 ∧
      m'.cur = { m.cur with fwdMode := .dropped } := by
  have hslot : m.connState 0 = m.cur := by rw [cur, hconn]
  have hlive : m.cur.isFinished = false := by simp [ConnState.isFinished, hexec, hmode]
  have hmap := fun e => connMap_of_lone (m := m.setChoice 0) hconn hnum e
  simp only [cur_setChoice, hlive, hexec, true_and] at hmap
  have hpick := execChooseConn_leftOver (m := m.setChoice 0)
    (by rw [hmap]; rfl) (by rw [hmap]; rfl) ((hmap 0).trans (if_pos rfl)) rfl
    (by rw [setChoice_connState, hslot]; exact hlive)
    (by rw [setChoice_connState, hslot]; exact hexec)
  generalize hm₁ : (((m.setChoice 0).setSlot 0 { (m.setChoice 0).connState 0 with
    fwdMode := .dropped }).setConn 0).setChoiceCount 1 = m₁ at hpick
  have hcur : m₁.cur = { m.cur with fwdMode := .dropped } := by
    rw [← hm₁, cur_setChoiceCount, cur_setConn, setSlot_connState, if_pos rfl,
      setChoice_connState, hslot]
  obtain ⟨k, hk, -⟩ := updateChoiceCount_cases (m₁.setProcessId .chooseConn)
  have hp' : (m.setChoice 0).processId = .chooseConn := hp
  refine ⟨(m₁.setProcessId .chooseConn).setChoiceCount k, ?_, ?_, ?_, ?_⟩
  · unfold Plankton.turn
    rw [hl, if_pos (hcount ▸ Nat.one_pos), Plankton.control_chooseConn hp', hpick,
      Option.bind_some, checkToSwitchProcess_frozen (by rw [hcur]; exact hexec), hk]
  · rw [← hm₁]
    rfl
  · rw [← hm₁]
    exact hnum
  · rw [cur_setChoiceCount, cur_setProcessId, hcur]

theorem Arrived.turn_starve (hm : Arrived P ec met n m) (hnet : P.network.ModelOnly)
    (hnil : P.nextHops ec n = []) (hl : l.choice = 0) :
    P.turn m l = some ((((m.setChoice 0).setCur { m.cur with
      fwdMode := starvedMode m.cur.fwdMode
      executable := 0 }).setProcessId .chooseConn).updateChoiceCount) := by
  have hfib : (m.setChoice 0).cur.fib (m.setChoice 0).cur.pktLocation = some [] := by
    rw [cur_setChoice, hm.pktLocation, ← hnil]
    exact hm.fib n hm.mem
  have hp : (m.setChoice 0).processId = .forwarding := hm.processId
  unfold Plankton.turn
  rw [hl, if_pos (hm.choiceCount ▸ Nat.one_pos), Plankton.control_forwarding hp,
    execForwarding_collect hnet hfib hm.mode, if_pos rfl, Option.bind_some,
    checkToSwitchProcess_frozen (by rw [cur_setCur])]
  rfl

theorem Arrived.lose (hm : Arrived P ec met n m) (hnet : P.network.ModelOnly)
    (hnil : P.nextHops ec n = []) :
    ∃ tr l, Run P.turn m (tr ++ [l]) l.after ∧
      (∀ k ∈ tr, k.after.cur.InFlight ∧ ConnState.SamePhase ec m.cur k.after.cur) ∧
      Lost l.after ∧ ConnState.SamePhase ec m.cur l.after.cur := by
  rcases hm.mode with hmode | hmode
  · have hturn := hm.turn_starve (l := choose 0) hnet hnil rfl
    rw [hmode] at hturn
    dsimp only [starvedMode] at hturn
    generalize hm₁ : ((m.setChoice 0).setCur { m.cur with
      fwdMode := .firstForward
      executable := 0 }).setProcessId .chooseConn = m₁ at hturn
    have hcur : m₁.cur = { m.cur with fwdMode := .firstForward, executable := 0 } := by
      rw [← hm₁, cur_setProcessId, cur_setCur]
    have hconn : m₁.conn = 0 := by
      rw [← hm₁]
      exact hm.conn
    have hnum : m₁.numConns = 1 := by
      rw [← hm₁]
      exact hm.numConns
    -- the connection is not finished, so there is one choice
    have hcount : m₁.updateChoiceCount = m₁.setChoiceCount 1 := by
      have hmap := connMap_of_lone hconn hnum
      simp only [hcur] at hmap
      unfold updateChoiceCount
      rw [hmap, hmap, hmap]
      rfl
    rw [hcount] at hturn
    obtain ⟨m₂, h₂, hconn₂, hnum₂, hcur₂⟩ := turn_leftOver (P := P) (l := choose 0)
      (m := m₁.setChoiceCount 1) hconn hnum (by rw [← hm₁]; rfl) rfl
      (by rw [cur_setChoiceCount, hcur]) (by rw [cur_setChoiceCount, hcur]) rfl
    have hlost : Lost m₂ := ⟨hconn₂, hnum₂, by rw [hcur₂]⟩
    have hphase : ConnState.SamePhase ec (m₁.setChoiceCount 1).cur m₂.cur := by
      rw [hcur₂]
      exact ⟨rfl, rfl, rfl, fun _ _ _ => rfl⟩
    have hphase₁ : ConnState.SamePhase ec m.cur (m₁.setChoiceCount 1).cur := by
      rw [cur_setChoiceCount, hcur]
      exact ⟨rfl, rfl, rfl, fun _ _ _ => rfl⟩
    refine ⟨[⟨m, choose 0, m₁.setChoiceCount 1⟩], ⟨m₁.setChoiceCount 1, choose 0, m₂⟩,
      .cons hturn (.cons h₂ (.nil m₂)), ?_, hlost, hphase₁.trans hphase⟩
    intro k hk
    obtain rfl := List.mem_singleton.mp hk
    refine ⟨.inl ?_, hphase₁⟩
    rw [cur_setChoiceCount, hcur]
  · have hturn := hm.turn_starve (l := choose 0) hnet hnil rfl
    rw [hmode] at hturn
    dsimp only [starvedMode] at hturn
    obtain ⟨k, hk, -⟩ := updateChoiceCount_cases (((m.setChoice 0).setCur { m.cur with
      fwdMode := .dropped
      executable := 0 }).setProcessId .chooseConn)
    rw [hk] at hturn
    refine ⟨[], ⟨m, choose 0, _⟩, .cons hturn (.nil _), by simp, ⟨hm.conn, hm.numConns, ?_⟩, ?_⟩
    · rw [cur_setChoiceCount, cur_setProcessId, cur_setCur]
    · rw [cur_setChoiceCount, cur_setProcessId, cur_setCur]
      exact ⟨rfl, rfl, rfl, fun _ _ _ => rfl⟩

end Model

end Neo
