import Neo.Process.Journey

/-! Where the packet of a lone connection can get. At a node it leaves for one next hop only,
whenever it comes there, so what is delivered has not met a node twice. -/

namespace Neo

namespace Plankton

variable {P : Plankton} {ec : EcPtr} {choices : Choices} {n n' n'' : NodePtr} {h h' : FibIpnh}

def Settled (P : Plankton) (ec : EcPtr) (choices : Choices) (n : NodePtr) (h : FibIpnh) : Prop :=
  h ∈ P.nextHops ec n ∧ (P.nextHops ec n = [h] ∨ choices.getChoice (some ec) n = some h)

def Leads (P : Plankton) (ec : EcPtr) (choices : Choices) (n n' : NodePtr) : Prop :=
  n ∈ P.network.nodes ∧ n' ≠ n ∧ ∃ h, P.Settled ec choices n h ∧ h.l3Node = n'

theorem Settled.unique (hh : P.Settled ec choices n h) (hh' : P.Settled ec choices n h') :
    h = h' := by
  obtain ⟨hmem, hone | hchoice⟩ := hh
  · exact (List.mem_singleton.mp (hone ▸ hh'.1)).symm
  · obtain ⟨hmem', hone' | hchoice'⟩ := hh'
    · exact List.mem_singleton.mp (hone' ▸ hmem)
    · exact Option.some.inj (hchoice.symm.trans hchoice')

theorem Leads.passesTo (hl : P.Leads ec choices n n') : P.PassesTo ec n n' := by
  obtain ⟨hn, hne, h, hh, rfl⟩ := hl
  exact ⟨hn, hne, h, hh.1, rfl⟩

def LeavesAs (P : Plankton) (c : ConnState) (src : NodePtr) (h : FibIpnh)
    (srcIp : IPv4Address) : Prop :=
  if c.protoState.isFirst = true ∧ c.srcIp = 0#32 then P.network.sourceAddr src h = some srcIp
  else srcIp = c.srcIp

def ReceivesAs (P : Plankton) (ec : EcPtr) (c : ConnState) (src : NodePtr)
    (srcIp : IPv4Address) (n : NodePtr) : Prop :=
  ∃ h ∈ P.nextHops ec src, P.LeavesAs c src h srcIp ∧
    (h.l3Node = src ∧ n = src ∨ h.l3Node ≠ src ∧ (∃ h' ∈ P.nextHops ec n, h'.l3Node = n) ∧
      Relation.ReflTransGen (fun u v => P.PassesTo ec u v ∧ v ≠ src) h.l3Node n)

theorem ReceivesAs.reaches {c : ConnState} {src : NodePtr} {x : IPv4Address}
    (hsrc : src ∈ P.network.nodes) (h : P.ReceivesAs ec c src x n) :
    Relation.ReflTransGen (P.PassesTo ec) src n ∧ ∃ h ∈ P.nextHops ec n, h.l3Node = n := by
  obtain ⟨h, hh, -, ⟨hhere, rfl⟩ | ⟨haway, haccepts, hway⟩⟩ := h
  · exact ⟨.refl, h, hh, hhere⟩
  · refine ⟨.head ⟨hsrc, haway, h, hh, rfl⟩ ?_, haccepts⟩
    exact Relation.ReflTransGen.mono (fun _ _ h => h.1) _ _ hway

theorem exists_receivesAs {c : ConnState} {src : NodePtr}
    (hleaves : ∀ h ∈ P.nextHops ec src, ∃ x, P.LeavesAs c src h x)
    (hway : Relation.ReflTransGen (P.PassesTo ec) src n)
    (haccepts : ∃ h ∈ P.nextHops ec n, h.l3Node = n) : ∃ x, P.ReceivesAs ec c src x n := by
  cases simplePath_iff.mpr hway with
  | nil =>
    obtain ⟨h, hh, hhere⟩ := haccepts
    obtain ⟨x, hx⟩ := hleaves h hh
    exact ⟨x, h, hh, hx, .inl ⟨hhere, rfl⟩⟩
  | @cons _ _ k _ _ hpass hrest =>
    obtain ⟨-, haway, h, hh, rfl⟩ := hpass
    obtain ⟨x, hx⟩ := hleaves h hh
    refine ⟨x, h, hh, hx, .inr ⟨haway, haccepts, ?_⟩⟩
    simpa using hrest.reflTransGen

theorem avoids_of_settled {src t : NodePtr} (hsrc : P.Settled ec choices src h)
    (haway : h.l3Node ≠ src) (ht : P.Settled ec choices t h') (hhere : h'.l3Node = t)
    (hway : Relation.ReflTransGen (P.Leads ec choices) src t) :
    Relation.ReflTransGen (fun u v => P.PassesTo ec u v ∧ v ≠ src) h.l3Node t := by
  cases simplePath_iff.mpr hway with
  | nil =>
    rw [ht.unique hsrc] at hhere
    exact absurd hhere haway
  | @cons _ _ b _ hnot hleads hrest =>
    obtain ⟨-, -, k, hk, rfl⟩ := hleads
    rw [hsrc.unique hk]
    refine Relation.ReflTransGen.mono ?_ _ _ hrest.reflTransGen
    rintro u v ⟨huv, hv⟩
    exact ⟨huv.passesTo, fun heq => hv (heq ▸ Set.mem_insert _ _)⟩

end Plankton

namespace Model

variable {P : Plankton} {m m' : Model} {ec : EcPtr} {src n : NodePtr} {h : FibIpnh}
  {c : ConnState} {l : Label}

theorem settled_of_taken (hec : m.cur.dstIpEc = some ec) {choices : Choices}
    (hh : h ∈ m.chooseCandidates (P.nextHops ec m.cur.pktLocation))
    (hrem : m.rememberChoice (m.chooseCandidates (P.nextHops ec m.cur.pktLocation)) h =
      some choices) :
    P.Settled ec choices m.cur.pktLocation h ∧
      (∀ n k, P.Settled ec m.cur.pathChoices n k → P.Settled ec choices n k) ∧
      ∀ e ≠ ec, ∀ n, choices.getChoice (some e) n = m.cur.pathChoices.getChoice (some e) n := by
  have hmem := chooseCandidates_subset _ _ hh
  unfold rememberChoice at hrem
  split_ifs at hrem with hmulti
  · unfold Choices.addChoice at hrem
    split_ifs at hrem with hsome
    obtain rfl := Option.some.inj hrem
    rw [Option.not_isSome_iff_eq_none, hec] at hsome
    -- a choice is recorded for this class at this node, and the others stay
    have hother : ∀ e k, (some e, k) ≠ (some ec, m.cur.pktLocation) →
        Choices.getChoice (((m.cur.dstIpEc, m.cur.pktLocation), h) :: m.cur.pathChoices)
          (some e) k = m.cur.pathChoices.getChoice (some e) k := by
      intro e k hne
      rw [Choices.getChoice, List.lookup_cons, hec, beq_false_of_ne hne]
      rfl
    refine ⟨⟨hmem, .inr ?_⟩, ?_, ?_⟩
    · rw [Choices.getChoice, List.lookup_cons, hec, beq_self_eq_true]
    · rintro k j ⟨hj, hone | hchoice⟩
      · exact ⟨hj, .inl hone⟩
      · refine ⟨hj, .inr ?_⟩
        rw [hother ec k]
        · exact hchoice
        · intro heq
          rw [(Prod.mk.inj heq).2, hsome] at hchoice
          simp at hchoice
    · intro e he k
      apply hother
      exact fun heq => he (Option.some.inj (Prod.mk.inj heq).1)
  · obtain rfl := Option.some.inj hrem
    refine ⟨⟨hmem, ?_⟩, fun _ _ hk => hk, fun _ _ _ => rfl⟩
    obtain ⟨k, hk⟩ := List.length_eq_one_iff.mp
      (le_antisymm (Nat.not_lt.mp hmulti) (List.length_pos_of_mem hh))
    rw [hk] at hh
    obtain rfl := List.mem_singleton.mp hh
    unfold chooseCandidates at hk
    rw [hec] at hk
    cases hchoice : m.cur.pathChoices.getChoice (some ec) m.cur.pktLocation with
    | none =>
      rw [hchoice] at hk
      exact .inl hk
    | some choice =>
      rw [hchoice] at hk
      dsimp only at hk
      split_ifs at hk
      · rw [List.singleton_inj] at hk
        exact .inr (congrArg some hk)
      · exact .inl hk

def Offered (P : Plankton) (ec : EcPtr) (m : Model) : Prop :=
  m.cur.candidates = some (m.chooseCandidates (P.nextHops ec m.cur.pktLocation))

structure Heading (P : Plankton) (ec : EcPtr) (src : NodePtr) (c : ConnState) (m : Model) :
    Prop where
  conn : m.conn = 0
  numConns : m.numConns = 1
  dstIpEc : m.cur.dstIpEc = some ec
  mem : m.cur.pktLocation ∈ P.network.nodes
  fib : ∀ k ∈ P.network.nodes, m.cur.fib k = some (P.nextHops ec k)
  phase : ConnState.SamePhase ec c m.cur
  rxNode : m.cur.rxNode = c.rxNode
  way : Relation.ReflTransGen (P.Leads ec m.cur.pathChoices) src m.cur.pktLocation

structure Starting (P : Plankton) (ec : EcPtr) (src : NodePtr) (c : ConnState) (m : Model) : Prop
    extends Heading P ec src c m where
  processId : m.processId = .forwarding
  executable : m.cur.executable = 2
  mode : m.cur.fwdMode = .firstCollect ∨ m.cur.fwdMode = .firstForward ∧ Offered P ec m
  pktLocation : m.cur.pktLocation = src
  srcIp : m.cur.srcIp = c.srcIp

structure OnTheWay (P : Plankton) (ec : EcPtr) (src : NodePtr) (c : ConnState) (m : Model) : Prop
    extends Heading P ec src c m where
  processId : m.processId = .forwarding
  executable : m.cur.executable = 2
  mode : m.cur.fwdMode = .collectNhops ∨ m.cur.fwdMode = .forwardPacket ∧ Offered P ec m
  left : ∃ h, P.Settled ec m.cur.pathChoices src h ∧ h.l3Node ≠ src ∧
    P.LeavesAs c src h m.cur.srcIp

structure LeftOver (P : Plankton) (ec : EcPtr) (src : NodePtr) (c : ConnState) (m : Model) : Prop
    extends Heading P ec src c m where
  processId : m.processId = .chooseConn
  executable : m.cur.executable = 0
  mode : m.cur.fwdMode = .firstForward
  choiceCount : m.choiceCount = 1
  starved : P.nextHops ec m.cur.pktLocation = []

structure Landed (P : Plankton) (ec : EcPtr) (src : NodePtr) (c : ConnState) (n : NodePtr)
    (m : Model) : Prop extends DeliveredAt P ec n m where
  phase : ConnState.SamePhase ec c m.cur
  rxNode : m.cur.rxNode = if c.protoState.isFirst then some n else c.rxNode
  received : P.ReceivesAs ec c src m.cur.srcIp n

structure LostAt (P : Plankton) (ec : EcPtr) (src : NodePtr) (c : ConnState) (m : Model) : Prop
    extends Lost m where
  phase : ConnState.SamePhase ec c m.cur
  mem : m.cur.pktLocation ∈ P.network.nodes
  starved : P.nextHops ec m.cur.pktLocation = []
  way : Relation.ReflTransGen (P.PassesTo ec) src m.cur.pktLocation

theorem turn_forwarding_cases (hp : m.processId = .forwarding) (h : P.turn m l = some m') :
    l.choice < m.choiceCount ∧ ∃ m₁, (m.setChoice l.choice).execForwarding P l.results = some m₁ ∧
      m₁.checkToSwitchProcess P = some m' := by
  unfold Plankton.turn at h
  split_ifs at h with hlt
  have hp' : (m.setChoice l.choice).processId = .forwarding := hp
  rw [Plankton.control_forwarding hp', Option.bind_eq_some_iff] at h
  exact ⟨hlt, h⟩

theorem Heading.turn_collect (hm : Heading P ec src c m) (hnet : P.network.ModelOnly)
    (hof : P.openflow.updates = []) (hp : m.processId = .forwarding)
    (hexec : m.cur.executable = 2)
    (hmode : m.cur.fwdMode = .firstCollect ∨ m.cur.fwdMode = .collectNhops)
    (h : P.turn m l = some m') :
    (P.nextHops ec m.cur.pktLocation = [] ∧
      m' = (((m.setChoice l.choice).setCur { m.cur with
        fwdMode := starvedMode m.cur.fwdMode
        executable := 0 }).setProcessId .chooseConn).updateChoiceCount) ∨
    m' = ((m.setChoice l.choice).setCur { m.cur with
      candidates := some (m.chooseCandidates (P.nextHops ec m.cur.pktLocation))
      fwdMode := forwardMode m.cur.fwdMode }).setChoiceCount
        (m.chooseCandidates (P.nextHops ec m.cur.pktLocation)).length := by
  obtain ⟨-, m₁, h₁, hswitch⟩ := turn_forwarding_cases hp h
  have hfib : (m.setChoice l.choice).cur.fib (m.setChoice l.choice).cur.pktLocation =
      some (P.nextHops ec m.cur.pktLocation) := hm.fib _ hm.mem
  rw [execForwarding_collect hnet hfib hmode, Option.some.injEq] at h₁
  split_ifs at h₁ with hnil
  · obtain rfl := h₁
    rw [checkToSwitchProcess_frozen (by rw [cur_setCur])] at hswitch
    exact .inl ⟨hnil, (Option.some.inj hswitch).symm⟩
  · obtain rfl := h₁
    right
    refine Option.some.inj (hswitch.symm.trans (checkToSwitchProcess_forwarding hof hp ?_))
    rw [cur_setChoiceCount, cur_setCur]
    exact hexec

theorem execForwarding_forward (hnet : P.network.ModelOnly) {results : List InjectionResult}
    (hmode : m.cur.AboutToForward) (hc : Offered P ec m)
    (h : m.execForwarding P results = some m') :
    ∃ hop ∈ m.chooseCandidates (P.nextHops ec m.cur.pktLocation), ∃ srcIp choices,
      m.rememberChoice (m.chooseCandidates (P.nextHops ec m.cur.pktLocation)) hop =
        some choices ∧
      (if m.cur.fwdMode = .firstForward ∧ m.cur.protoState.isFirst = true ∧ m.cur.srcIp = 0#32 then
        P.network.sourceAddr m.cur.pktLocation hop = some srcIp else srcIp = m.cur.srcIp) ∧
      m' = if hop.l3Node = m.cur.pktLocation then
        (m.setCur { m.cur with srcIp := srcIp, pathChoices := choices }).deliver
      else (m.setCur { m.cur with srcIp := srcIp, pathChoices := choices }).moveTo P hop := by
  -- what is forwarded once the address is set
  have hforward : ∀ srcIp,
      (m.setCur { m.cur with srcIp := srcIp }).forwardPacket P = some m' →
      ∃ hop, (m.chooseCandidates (P.nextHops ec m.cur.pktLocation))[m.choice]? = some hop ∧
        ∃ choices, m.rememberChoice (m.chooseCandidates (P.nextHops ec m.cur.pktLocation)) hop =
          some choices ∧
        m' = if hop.l3Node = m.cur.pktLocation then
          (m.setCur { m.cur with srcIp := srcIp, pathChoices := choices }).deliver
        else (m.setCur { m.cur with srcIp := srcIp, pathChoices := choices }).moveTo P hop := by
    intro srcIp h
    obtain ⟨candidates, hop, choices, hstored, hget, hrem, hrest⟩ := forwardPacket_cases h
    simp only [cur_setCur, setCur_setCur] at hstored hrest
    obtain rfl := Option.some.inj (hc.symm.trans hstored)
    refine ⟨hop, hget, choices, ?_, ?_⟩
    · rw [← hrem]
      unfold rememberChoice
      rw [cur_setCur]
    · rcases hrest with ⟨hhere, rfl⟩ | ⟨haway, rfl⟩
      · rw [if_pos hhere]
      · rw [if_neg haway]
  unfold execForwarding at h
  rcases hmode with hmode | hmode
  · rw [hmode] at h ⊢
    dsimp only at h
    unfold firstForward at h
    split_ifs at h with hunset
    · rw [Option.bind_eq_bind, Option.bind_eq_some_iff] at h
      obtain ⟨srcIp, hsrc, h⟩ := h
      obtain ⟨hop, hget, choices, hrem, hm'⟩ := hforward srcIp h
      have hmem := List.mem_of_getElem? hget
      refine ⟨hop, hmem, srcIp, choices, hrem, ?_, hm'⟩
      rw [if_pos ⟨rfl, hunset.1, hunset.2⟩]
      rw [firstSrcIp_eq hnet hc hget (chooseCandidates_subset _ _ hmem)] at hsrc
      exact hsrc
    · have hself : m.setCur { m.cur with srcIp := m.cur.srcIp } = m := setCur_cur
      obtain ⟨hop, hget, choices, hrem, hm'⟩ := hforward m.cur.srcIp (by rwa [hself])
      refine ⟨hop, List.mem_of_getElem? hget, m.cur.srcIp, choices, hrem, ?_, hm'⟩
      rw [if_neg fun hall => hunset ⟨hall.2.1, hall.2.2⟩]
  · rw [hmode] at h ⊢
    have hself : m.setCur { m.cur with srcIp := m.cur.srcIp } = m := setCur_cur
    obtain ⟨hop, hget, choices, hrem, hm'⟩ := hforward m.cur.srcIp (by rwa [hself])
    exact ⟨hop, List.mem_of_getElem? hget, m.cur.srcIp, choices, hrem, by simp, hm'⟩

theorem Heading.stays (hm : Heading P ec src c m) (hconn : m'.conn = m.conn)
    (hnum : m'.numConns = m.numConns) {candidates : Option Candidates} {mode : FwdMode}
    {executable : Fin 3} (hcur : m'.cur = { m.cur with
      candidates := candidates
      fwdMode := mode
      executable := executable }) : Heading P ec src c m' where
  conn := hconn.trans hm.conn
  numConns := hnum.trans hm.numConns
  dstIpEc := by rw [hcur]; exact hm.dstIpEc
  mem := by rw [hcur]; exact hm.mem
  fib := by rw [hcur]; exact hm.fib
  phase := by
    rw [hcur]
    exact ⟨hm.phase.protoState, hm.phase.txNode, hm.phase.srcNode, hm.phase.choices⟩
  rxNode := by rw [hcur]; exact hm.rxNode
  way := by rw [hcur]; exact hm.way

theorem offered_of_cur (hcur : m'.cur = { m.cur with
      candidates := some (m.chooseCandidates (P.nextHops ec m.cur.pktLocation))
      fwdMode := forwardMode m.cur.fwdMode }) : Offered P ec m' := by
  unfold Offered chooseCandidates
  rw [hcur]
  rfl

theorem Heading.starve (hm : Heading P ec src c m)
    (hnil : P.nextHops ec m.cur.pktLocation = []) {k : Nat} {mode : FwdMode}
    (hm' : m' = (((m.setChoice k).setCur { m.cur with
      fwdMode := mode
      executable := 0 }).setProcessId .chooseConn).updateChoiceCount) :
    (mode = .firstForward → LeftOver P ec src c m') ∧
      (mode = .dropped → LostAt P ec src c m') := by
  generalize hm₁ : ((m.setChoice k).setCur { m.cur with
    fwdMode := mode
    executable := 0 }).setProcessId .chooseConn = m₁ at hm'
  have hcur₁ : m₁.cur = { m.cur with fwdMode := mode, executable := 0 } := by
    rw [← hm₁, cur_setProcessId, cur_setCur]
  have hconn₁ : m₁.conn = m.conn := by
    rw [← hm₁]
    rfl
  have hnum₁ : m₁.numConns = m.numConns := by
    rw [← hm₁]
    rfl
  obtain ⟨j, hj, -⟩ := updateChoiceCount_cases m₁
  have hcur : m'.cur = { m.cur with fwdMode := mode, executable := 0 } := by
    rw [hm', hj, cur_setChoiceCount, hcur₁]
  have hconn : m'.conn = m.conn := by
    rw [hm', hj]
    exact hconn₁
  have hnum : m'.numConns = m.numConns := by
    rw [hm', hj]
    exact hnum₁
  constructor
  · rintro rfl
    refine ⟨hm.stays hconn hnum hcur, ?_, by rw [hcur], by rw [hcur], ?_, by rwa [hcur]⟩
    · rw [hm', hj, ← hm₁]
      rfl
    · -- the connection is not finished, so there is one choice
      have hmap := connMap_of_lone (hconn₁.trans hm.conn) (hnum₁.trans hm.numConns)
      simp only [hcur₁] at hmap
      rw [hm']
      unfold updateChoiceCount
      rw [hmap, hmap, hmap]
      rfl
  · rintro rfl
    refine ⟨⟨hconn.trans hm.conn, hnum.trans hm.numConns, by rw [hcur]⟩, ?_, ?_, ?_, ?_⟩
    · exact (hm.stays hconn hnum hcur).phase
    · exact (hm.stays hconn hnum hcur).mem
    · rwa [hcur]
    · exact Relation.ReflTransGen.mono (fun _ _ h => h.passesTo) _ _ (hm.stays hconn hnum hcur).way

theorem Heading.forward (hm : Heading P ec src c m) (hnet : P.network.ModelOnly)
    (hof : P.openflow.updates = []) (hp : m.processId = .forwarding)
    (hexec : m.cur.executable = 2) (hmode : m.cur.AboutToForward) (hc : Offered P ec m)
    (hsender : m.cur.fwdMode = .firstForward ∧ m.cur.pktLocation = src ∧ m.cur.srcIp = c.srcIp ∨
      m.cur.fwdMode = .forwardPacket ∧ ∃ h, P.Settled ec m.cur.pathChoices src h ∧
        h.l3Node ≠ src ∧ P.LeavesAs c src h m.cur.srcIp)
    (h : P.turn m l = some m') : OnTheWay P ec src c m' ∨ ∃ n, Landed P ec src c n m' := by
  obtain ⟨-, m₁, h₁, hswitch⟩ := turn_forwarding_cases hp h
  obtain ⟨hop, hhop, srcIp, choices, hrem, hsrc, rfl⟩ :=
    execForwarding_forward (m := m.setChoice l.choice) hnet hmode hc h₁
  obtain ⟨hsettled, hkept, hothers⟩ := settled_of_taken (m := m) hm.dstIpEc hhop hrem
  have hphase : ConnState.SamePhase ec c { m.cur with pathChoices := choices } := by
    refine ⟨hm.phase.protoState, hm.phase.txNode, hm.phase.srcNode, ?_⟩
    exact fun e he n => (hothers e he n).trans (hm.phase.choices e he n)
  have hway : Relation.ReflTransGen (P.Leads ec choices) src m.cur.pktLocation := by
    refine Relation.ReflTransGen.mono ?_ _ _ hm.way
    rintro u v ⟨hu, hne, k, hk, hv⟩
    exact ⟨hu, hne, k, hkept u k hk, hv⟩
  -- the next hop at the sender, and the address with which the packet leaves it
  have hleft : ∃ k, P.Settled ec choices src k ∧ P.LeavesAs c src k srcIp ∧
      (m.cur.pktLocation = src ∧ k = hop ∨ k.l3Node ≠ src) := by
    rcases hsender with ⟨hfirst, hloc, hip⟩ | ⟨hlater, k, hk, haway, hleaves⟩
    · rw [hloc] at hsettled
      refine ⟨hop, hsettled, ?_, .inl ⟨hloc, rfl⟩⟩
      unfold Plankton.LeavesAs
      rw [← hip, ← hm.phase.protoState, ← hloc]
      simpa [hfirst] using hsrc
    · refine ⟨k, hkept src k hk, ?_, .inr haway⟩
      have hsame : srcIp = m.cur.srcIp := by simpa [hlater] using hsrc
      rwa [hsame]
  obtain ⟨k, hk, hleaves, hfirst⟩ := hleft
  by_cases hhere : hop.l3Node = m.cur.pktLocation
  · right
    refine ⟨m.cur.pktLocation, ?_⟩
    rw [cur_setChoice, if_pos hhere, deliver, cur_setCur, setCur_setCur] at hswitch
    have hm' := hswitch.symm.trans (checkToSwitchProcess_forwarding hof hp
      (by rw [cur_setChoiceCount, cur_setCur]; exact hexec))
    obtain rfl := Option.some.inj hm'
    refine ⟨⟨⟨hm.conn, hm.numConns, hp, ?_⟩, rfl, ?_, ?_, hm.mem, ?_⟩, ?_, ?_, ?_⟩
    all_goals rw [cur_setChoiceCount, cur_setCur]
    · exact hexec
    · exact hm.dstIpEc
    · exact ⟨hphase.protoState, hphase.txNode, hphase.srcNode, hphase.choices⟩
    · rw [← hm.phase.protoState, ← hm.rxNode]
    · refine ⟨k, hk.1, hleaves, ?_⟩
      rcases hfirst with ⟨hloc, rfl⟩ | haway
      · exact .inl ⟨hhere.trans hloc, hloc⟩
      · refine .inr ⟨haway, ⟨hop, hsettled.1, hhere⟩, ?_⟩
        exact Plankton.avoids_of_settled hk haway hsettled hhere hway
  · left
    rw [cur_setChoice, if_neg hhere] at hswitch
    simp only [moveTo, cur_setCur, setCur_setCur, hnet hop.l3Node, Bool.false_and,
      Bool.false_eq_true, if_false] at hswitch
    have hm' := hswitch.symm.trans (checkToSwitchProcess_forwarding hof hp
      (by rw [cur_setChoiceCount, cur_setCur]; exact hexec))
    obtain rfl := Option.some.inj hm'
    refine ⟨⟨hm.conn, hm.numConns, ?_, ?_, ?_, ?_, ?_, ?_⟩, hp, ?_, .inl ?_, ?_⟩
    all_goals rw [cur_setChoiceCount, cur_setCur]
    · exact hm.dstIpEc
    · exact Plankton.l3Node_mem hm.mem (hnet _) hsettled.1
    · exact hm.fib
    · exact ⟨hphase.protoState, hphase.txNode, hphase.srcNode, hphase.choices⟩
    · exact hm.rxNode
    · exact hway.tail ⟨hm.mem, hhere, hop, hsettled, rfl⟩
    · exact hexec
    · refine ⟨k, hk, ?_, hleaves⟩
      rcases hfirst with ⟨hloc, rfl⟩ | haway
      · exact hloc ▸ hhere
      · exact haway

def Flying (P : Plankton) (ec : EcPtr) (src : NodePtr) (c : ConnState) (m : Model) : Prop :=
  Starting P ec src c m ∨ OnTheWay P ec src c m ∨ LeftOver P ec src c m

theorem Starting.turn (hm : Starting P ec src c m) (hnet : P.network.ModelOnly)
    (hof : P.openflow.updates = []) (h : P.turn m l = some m') :
    Flying P ec src c m' ∧ m'.cur.InFlight ∨ ∃ n, Landed P ec src c n m' := by
  -- the next hops are collected, or one of them is taken
  rcases hm.mode with hmode | ⟨hmode, hc⟩
  · left
    rcases hm.turn_collect hnet hof hm.processId hm.executable (.inl hmode) h with
      ⟨hnil, hm'⟩ | hm'
    · rw [hmode] at hm'
      have hleft := (hm.starve hnil hm').1 rfl
      exact ⟨.inr (.inr hleft), .inl hleft.mode⟩
    · have hcur : m'.cur = { m.cur with
          candidates := some (m.chooseCandidates (P.nextHops ec m.cur.pktLocation))
          fwdMode := forwardMode m.cur.fwdMode } := by
        rw [hm', cur_setChoiceCount, cur_setCur]
      have hfirst : m'.cur.fwdMode = .firstForward := by
        rw [hcur, hmode]
        rfl
      have hstays : Heading P ec src c m' := by
        apply hm.stays _ _ hcur
        · rw [hm']
          rfl
        · rw [hm']
          rfl
      refine ⟨.inl ⟨hstays, ?_, ?_, .inr ⟨hfirst, offered_of_cur hcur⟩, ?_, ?_⟩, .inl hfirst⟩
      · rw [hm']
        exact hm.processId
      · rw [hcur]
        exact hm.executable
      · rw [hcur]
        exact hm.pktLocation
      · rw [hcur]
        exact hm.srcIp
  · rcases hm.forward hnet hof hm.processId hm.executable (.inl hmode) hc
      (.inl ⟨hmode, hm.pktLocation, hm.srcIp⟩) h with hway | hlanded
    · left
      refine ⟨.inr (.inl hway), ?_⟩
      rcases hway.mode with hmode | ⟨hmode, -⟩
      · exact .inr (.inl hmode)
      · exact .inr (.inr hmode)
    · exact .inr hlanded

theorem OnTheWay.turn (hm : OnTheWay P ec src c m) (hnet : P.network.ModelOnly)
    (hof : P.openflow.updates = []) (h : P.turn m l = some m') :
    Flying P ec src c m' ∧ m'.cur.InFlight ∨ (∃ n, Landed P ec src c n m') ∨
      LostAt P ec src c m' := by
  rcases hm.mode with hmode | ⟨hmode, hc⟩
  · rcases hm.turn_collect hnet hof hm.processId hm.executable (.inr hmode) h with
      ⟨hnil, hm'⟩ | hm'
    · rw [hmode] at hm'
      exact .inr (.inr ((hm.starve hnil hm').2 rfl))
    · left
      have hcur : m'.cur = { m.cur with
          candidates := some (m.chooseCandidates (P.nextHops ec m.cur.pktLocation))
          fwdMode := forwardMode m.cur.fwdMode } := by
        rw [hm', cur_setChoiceCount, cur_setCur]
      have hforward : m'.cur.fwdMode = .forwardPacket := by
        rw [hcur, hmode]
        rfl
      have hstays : Heading P ec src c m' := by
        apply hm.stays _ _ hcur
        · rw [hm']
          rfl
        · rw [hm']
          rfl
      refine ⟨.inr (.inl ⟨hstays, ?_, ?_, .inr ⟨hforward, offered_of_cur hcur⟩, ?_⟩),
        .inr (.inr hforward)⟩
      · rw [hm']
        exact hm.processId
      · rw [hcur]
        exact hm.executable
      · rw [hcur]
        exact hm.left
  · rcases hm.forward hnet hof hm.processId hm.executable (.inr hmode) hc
      (.inr ⟨hmode, hm.left⟩) h with hway | hlanded
    · left
      refine ⟨.inr (.inl hway), ?_⟩
      rcases hway.mode with hmode | ⟨hmode, -⟩
      · exact .inr (.inl hmode)
      · exact .inr (.inr hmode)
    · exact .inr (.inl hlanded)

theorem LeftOver.turn (hm : LeftOver P ec src c m) (h : P.turn m l = some m') :
    LostAt P ec src c m' := by
  have hl : l.choice = 0 := by
    unfold Plankton.turn at h
    split_ifs at h with hlt
    rw [hm.choiceCount] at hlt
    exact Nat.lt_one_iff.mp hlt
  obtain ⟨m₁, h₁, hconn, hnum, hcur⟩ := turn_leftOver (P := P) hm.conn hm.numConns hm.processId
    hm.choiceCount hm.executable hm.mode hl
  obtain rfl := Option.some.inj (h₁.symm.trans h)
  refine ⟨⟨hconn, hnum, by rw [hcur]⟩, ?_, ?_, ?_, ?_⟩
  all_goals rw [hcur]
  · exact ⟨hm.phase.protoState, hm.phase.txNode, hm.phase.srcNode, hm.phase.choices⟩
  · exact hm.mem
  · exact hm.starved
  · exact Relation.ReflTransGen.mono (fun _ _ h => h.passesTo) _ _ hm.way

theorem Flying.turn (hm : Flying P ec src c m) (hnet : P.network.ModelOnly)
    (hof : P.openflow.updates = []) (h : P.turn m l = some m') :
    Flying P ec src c m' ∧ m'.cur.InFlight ∨ (∃ n, Landed P ec src c n m') ∨
      LostAt P ec src c m' := by
  rcases hm with hm | hm | hm
  · rcases hm.turn hnet hof h with hflying | hlanded
    · exact .inl hflying
    · exact .inr (.inl hlanded)
  · exact hm.turn hnet hof h
  · exact .inr (.inr (hm.turn h))

theorem Flying.phase (hm : Flying P ec src c m) : ConnState.SamePhase ec c m.cur := by
  rcases hm with hm | hm | hm
  · exact hm.phase
  · exact hm.phase
  · exact hm.phase

end Model

end Neo
