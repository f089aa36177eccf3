import Neo.Process.Independence
import Neo.Process.Termination
import Neo.Process.Unoptimized

/-! Connections that are forwarded one after the other in any order. Both schedulers forward a
connection to its end before they choose another one, and what a connection does on its way does
not depend on the others. -/

namespace Neo

/-- The nodes are all modelled, and their tables never change and lead nowhere in circles. -/
structure Plankton.Steady (P : Plankton) : Prop where
  modelOnly : P.network.ModelOnly
  linked : P.network.Linked
  updates : P.openflow.updates = []
  loopFree : P.LoopFree

structure ConnState.Offers (c : ConnState) (choices : Nat) : Prop where
  pos : 0 < choices
  candidates : c.AboutToForward → ∀ candidates, c.candidates = some candidates →
    choices = candidates.length
  single : ¬ c.AboutToForward → choices = 1

namespace Model

variable {P : Plankton} {m m' : Model} {results : List InjectionResult}

theorem execForwarding_choiceCount (hmode : m.cur.fwdMode ≠ .chooseInjRes)
    (h : m.execForwarding P results = some m') (hnet : P.network.ModelOnly)
    (hm : ¬ m.cur.AboutToForward → m.choiceCount = 1) :
    m'.cur.AboutToForward ∨ m'.choiceCount = 1 := by
  -- a packet that is forwarded leaves one choice, collecting hops prepares for forwarding
  have hforward : ∀ {n n' : Model}, n.forwardPacket P = some n' → n'.choiceCount = 1 := by
    intro n n' hn
    obtain ⟨_, _, _, -, -, -, ⟨-, rfl⟩ | ⟨-, rfl⟩⟩ := forwardPacket_cases hn
    · rfl
    · rfl
  unfold execForwarding at h
  split at h
  · obtain ⟨m₁, -, rfl⟩ := firstCollect_cases h
    left
    rw [cur_setCur]
    exact .inl rfl
  · obtain ⟨srcIp, h⟩ := firstForward_cases h
    exact .inr (hforward h)
  · next hcollect =>
    rcases collectNextHops_cases h with ⟨hemu, -⟩ | ⟨-, -, rfl⟩ | ⟨-, nextHops, -, -, rfl⟩
    · simp [hnet m.cur.pktLocation] at hemu
    · right
      apply hm
      simp [ConnState.AboutToForward, hcollect]
    · left
      rw [cur_setChoiceCount, cur_setCur]
      exact .inr rfl
  · next heq => exact absurd heq hmode
  · exact .inr (hforward h)
  · next haccepted =>
    have hone : m.choiceCount = 1 := hm (by simp [ConnState.AboutToForward, haccepted])
    right
    rcases accepted_cases h with ⟨-, rfl⟩ | ⟨-, changeDirection, h⟩
    · exact hone
    · rcases phaseTransition_cases h with ⟨-, rfl⟩ | ⟨c, seq, ack, payload, rfl, -⟩
      · exact hone
      · exact hone
  · next hdropped =>
    right
    obtain rfl := Option.some.inj h
    exact hm (by simp [ConnState.AboutToForward, hdropped])

theorem execForwarding_choice (habout : m.cur.AboutToForward)
    (h : m.execForwarding P results = some m') :
    ∃ candidates, m.cur.candidates = some candidates ∧ m.choice < candidates.length := by
  have hforward : ∃ srcIp, (m.setCur { m.cur with srcIp := srcIp }).forwardPacket P = some m' := by
    unfold execForwarding at h
    rcases habout with hmode | hmode
    · rw [hmode] at h
      exact firstForward_cases h
    · rw [hmode] at h
      have hself : m.setCur { m.cur with srcIp := m.cur.srcIp } = m := setCur_cur
      exact ⟨m.cur.srcIp, hself.symm ▸ h⟩
  obtain ⟨srcIp, hforward⟩ := hforward
  obtain ⟨candidates, nextHop, -, hc, hnext, -⟩ := forwardPacket_cases hforward
  rw [cur_setCur] at hc
  exact ⟨candidates, hc, (List.getElem?_eq_some_iff.mp hnext).1⟩

end Model

namespace Unoptimized

variable {P : Plankton} {n n' : Model}

def Moves (P : Plankton) (st : OpenflowUpdateState) (c c' : ConnState) : Prop :=
  ∃ (results : List InjectionResult) (m m' : Model), m.cur = c ∧ m'.cur = c' ∧ c.executable = 2 ∧
    m.openflowUpdateState = st ∧ (¬ c.AboutToForward → m.choice = 0) ∧
      m.execForwarding P results = some m'

structure UnderWay (P : Plankton) (n : Model) : Prop where
  onTrack : ∀ i < n.numConns, P.OnTrack (n.connState i)
  conn : n.conn < n.numConns
  control : (n.processId = .forwarding ∧ n.cur.executable = 2 ∧ n.cur.Offers n.choiceCount) ∨
    n.processId = .chooseConn

theorem chosenConn_mem {i : Nat} (h : chosenConn n = some i) :
    i ∈ n.connMap 2 ∨ i ∈ n.connMap 1 := by
  unfold chosenConn at h
  split_ifs at h
  · exact .inl (List.mem_of_getElem? h)
  · exact .inr (List.mem_of_getElem? h)

theorem pickConn_onTrack (hn : ∀ i < n.numConns, P.OnTrack (n.connState i))
    (h : pickConn n = some n') :
    ∃ i < n.numConns, ((n.connState i).executable = 2 ∧ n' = n.setConn i) ∨
      (∀ j < n.numConns, (n.connState j).executable = 0) ∧
        n' = (n.setConn i).setCur { n.connState i with fwdMode := .dropped } := by
  unfold pickConn at h
  split_ifs at h with hmap
  · obtain ⟨i, hi, h⟩ := Option.bind_eq_some_iff.mp h
    have hmem : i < n.numConns ∧ (n.connState i).executable ≠ 0 := by
      rcases chosenConn_mem hi with hi | hi
      · obtain ⟨hlt, -, hexec⟩ := Model.mem_connMap.mp hi
        exact ⟨hlt, by rw [hexec]; decide⟩
      · obtain ⟨hlt, -, hexec⟩ := Model.mem_connMap.mp hi
        exact ⟨hlt, by rw [hexec]; decide⟩
    have hexec : (n.connState i).executable = 2 := ((hn i hmem.1).resolve_left hmem.2).1
    refine ⟨i, hmem.1, .inl ⟨hexec, ?_⟩⟩
    -- it is executable already, so that nothing is set
    have hcur : { (n.setConn i).cur with executable := 2 } = (n.setConn i).cur := by
      rw [Model.cur_setConn, ← hexec]
    have hset : (n.setConn i).setCur { (n.setConn i).cur with executable := 2 } = n.setConn i := by
      rw [hcur]
      exact Model.setCur_cur
    exact (Option.some.inj h).symm.trans hset
  · split at h
    · next i rest heq =>
      obtain ⟨hlt, hfinished, hexec⟩ := Model.mem_connMap.mp (heq ▸ List.mem_cons_self ..)
      obtain ⟨-, -, h⟩ := Option.bind_eq_some_iff.mp h
      have hlive : (n.setConn i).cur.fwdMode ≠ .dropped ∧
          ¬((n.setConn i).cur.fwdMode = .accepted ∧
            (n.setConn i).cur.protoState.isLast = true) := by
        rw [Model.cur_setConn]
        simpa [ConnState.isFinished, hexec] using hfinished
      rw [if_pos hlive] at h
      refine ⟨i, hlt, .inr ⟨fun j hj => ?_, (Option.some.inj h).symm⟩⟩
      -- an executable connection would have been chosen first
      rcases hn j hj with hzero | ⟨htwo, -⟩
      · exact hzero
      · have hmem : j ∈ n.connMap 2 := Model.mem_connMap.mpr ⟨hj, by
          simp [ConnState.isFinished, htwo], htwo⟩
        exact absurd (.inl (List.ne_nil_of_mem hmem)) hmap
    · cases h

theorem execChooseConn_onTrack (hn : ∀ i < n.numConns, P.OnTrack (n.connState i))
    (h : execChooseConn n = some n') :
    ∃ i < n.numConns, ((n.connState i).executable = 2 ∧ ∃ k, (n.connState i).Offers k ∧
        n' = (n.setConn i).setChoiceCount k) ∨
      (∀ j < n.numConns, (n.connState j).executable = 0) ∧
        n' = ((n.setConn i).setCur
          { n.connState i with fwdMode := .dropped }).setChoiceCount 1 := by
  unfold execChooseConn at h
  obtain ⟨n₁, hpick, h⟩ := Option.bind_eq_some_iff.mp h
  obtain ⟨i, hi, ⟨hexec, rfl⟩ | ⟨hexec, rfl⟩⟩ := pickConn_onTrack hn hpick
  · refine ⟨i, hi, .inl ⟨hexec, ?_⟩⟩
    have hsends : P.Sends (n.connState i) := by
      rcases hn i hi with hzero | ⟨-, hsends⟩
      · cases hexec.symm.trans hzero
      · exact hsends
    rw [Model.cur_setConn] at h
    split_ifs at h with hmode
    · -- a connection about to be forwarded goes on with the candidates it has stored
      obtain ⟨candidates, hc⟩ := hsends.ready hmode.symm
      rw [hc.stored] at h
      refine ⟨candidates.length, ⟨List.length_pos_iff.mpr hc.ne_nil, ?_, ?_⟩,
        (Option.some.inj h).symm⟩
      · intro _ candidates' hc'
        rw [Option.some.inj (hc.stored.symm.trans hc')]
      · intro hnot
        exact absurd hmode.symm hnot
    · refine ⟨1, ⟨Nat.one_pos, ?_, fun _ => rfl⟩, (Option.some.inj h).symm⟩
      intro hforward
      exact absurd hforward.symm hmode
  · refine ⟨i, hi, .inr ⟨hexec, ?_⟩⟩
    rw [Model.cur_setCur, if_neg (by simp)] at h
    exact (Option.some.inj h).symm

/-- What a step makes of the connections: one of them moves or is dropped. -/
structure Continues (P : Plankton) (n n' : Model) : Prop where
  numConns : n'.numConns = n.numConns
  openflowUpdateState : n'.openflowUpdateState = n.openflowUpdateState
  violated : n'.violated = n.violated
  slot : ∀ i, n'.connState i = n.connState i ∨
    ((∀ j < n.numConns, (n.connState j).executable = 0) ∧ i < n.numConns ∧ i = n'.conn ∧
      n'.connState i = { n.connState i with fwdMode := .dropped }) ∨
    n.processId = .forwarding ∧ i = n.conn ∧ i = n'.conn ∧
      Moves P n.openflowUpdateState (n.connState i) (n'.connState i)

theorem UnderWay.inCharge (hn : UnderWay P n) (hp : n.processId = .forwarding) :
    n.cur.executable = 2 ∧ n.cur.Offers n.choiceCount ∧ n.cur.fwdMode ≠ .chooseInjRes := by
  rcases hn.control with ⟨-, hexec, hoffers⟩ | hchoose
  · refine ⟨hexec, hoffers, ?_⟩
    rcases hn.onTrack n.conn hn.conn with hzero | ⟨-, hsends⟩
    · cases hexec.symm.trans hzero
    · exact hsends.fwdMode.1
  · cases hp.symm.trans hchoose

theorem continues_forwarding {results : List InjectionResult} {choice : Nat} (hn : UnderWay P n)
    (hp : n.processId = .forwarding) (hlt : choice < n.choiceCount)
    (hforward : (n.setChoice choice).execForwarding P results = some n') : Continues P n n' := by
  obtain ⟨hexec, hoffers, hmode⟩ := hn.inCharge hp
  have hsets := Model.execForwarding_setsCur hforward hmode
  have hsame := hsets.sameControl
  refine ⟨hsets.numConns, hsame.openflowUpdateState, hsame.violated, ?_⟩
  intro i
  by_cases hi : i = n.conn
  · right
    right
    subst hi
    refine ⟨hp, rfl, hsame.conn.symm, results, n.setChoice choice, n', rfl, ?_, hexec, rfl, ?_,
      hforward⟩
    · exact congrArg n'.connState hsame.conn
    · intro hnot
      have hone := hoffers.single hnot
      show choice = 0
      omega
  · exact .inl (hsets.connState hi)

theorem underWay_forwarding {results : List InjectionResult} {choice : Nat} (hP : P.Steady)
    (hn : UnderWay P n) (hp : n.processId = .forwarding) (hlt : choice < n.choiceCount)
    (h : control P results (n.setChoice choice) = some n') :
    UnderWay P n' ∧ Continues P n n' := by
  obtain ⟨hexec, hoffers, hmode⟩ := hn.inCharge hp
  have hp' : (n.setChoice choice).processId = .forwarding := hp
  -- the connection in charge takes the same step without the patch
  obtain ⟨m, hturn, hcourse, -⟩ := Plankton.turn_forwarding (l := ⟨choice, results, none⟩)
    hP.modelOnly hP.updates hP.linked hP.loopFree hn.onTrack hn.conn hp hexec hoffers.candidates hlt
  have hcontrol : P.control results (n.setChoice choice) = some m := by
    unfold Plankton.turn at hturn
    rwa [if_pos hlt] at hturn
  have hwidens : Widens m n' := by
    have hrel := control_widens (P := P) (m := n.setChoice choice) results
      fun hchoose => by cases hp'.symm.trans hchoose
    rw [hcontrol, h] at hrel
    cases hrel with
    | some hwidens => exact hwidens
  rw [Plankton.control_forwarding hp'] at hcontrol
  obtain ⟨m₁, hforward, hswitch⟩ := Option.bind_eq_some_iff.mp hcontrol
  have hcontinues : Continues P n m₁ := continues_forwarding hn hp hlt hforward
  have hsame := Model.execForwarding_sameControl hforward
  rcases hcourse.control with ⟨hpm, hexecm, hpos, hcandidates⟩ | ⟨hpm, -⟩
  · -- the connection stays in charge
    obtain rfl : n' = m := hwidens.eq_of_ne (by simp [hpm])
    have hcount := Model.execForwarding_choiceCount (m := n.setChoice choice) hmode hforward
      hP.modelOnly hoffers.single
    obtain rfl : n' = m₁ := by
      have hp₁ : m₁.processId = .forwarding := hsame.processId.trans hp
      have hexec₁ : m₁.cur.executable = 2 := by
        obtain ⟨p, k, rfl⟩ := Model.checkToSwitchProcess_eq hswitch
        exact hexecm
      have hstay := Model.checkToSwitchProcess_forwarding hP.updates hp₁ hexec₁
      exact Option.some.inj (hswitch.symm.trans hstay)
    refine ⟨⟨hcourse.onTrack, hcourse.conn, .inl ⟨hpm, hexecm, hpos, hcandidates, ?_⟩⟩, hcontinues⟩
    exact hcount.resolve_left
  · -- another one is to be chosen
    obtain ⟨p, k, rfl⟩ := Model.checkToSwitchProcess_eq hswitch
    rw [hwidens.eq_setChoiceCount]
    exact ⟨⟨hcourse.onTrack, hcourse.conn, .inr hpm⟩, hcontinues.numConns,
      hcontinues.openflowUpdateState, hcontinues.violated, hcontinues.slot⟩

theorem underWay_dropped {i : Nat} (hn : UnderWay P n) (hi : i < n.numConns)
    (hzero : ∀ j < n.numConns, (n.connState j).executable = 0)
    (hslots : ∀ j, n'.connState j =
      if j = i then { n.connState i with fwdMode := .dropped } else n.connState j)
    (hconn : n'.conn = i) (hp : n'.processId = .chooseConn) (hnum : n'.numConns = n.numConns)
    (hst : n'.openflowUpdateState = n.openflowUpdateState)
    (hviolated : n'.violated = n.violated) : UnderWay P n' ∧ Continues P n n' := by
  constructor
  · refine ⟨fun j hj => ?_, ?_, .inr hp⟩
    · rw [hslots]
      split_ifs
      · exact .inl (hzero i hi)
      · exact hn.onTrack j (hnum ▸ hj)
    · rw [hconn, hnum]
      exact hi
  · refine ⟨hnum, hst, hviolated, fun j => ?_⟩
    rw [hslots]
    by_cases hj : j = i
    · right
      left
      rw [if_pos hj, hj]
      exact ⟨hzero, hi, hconn.symm, rfl⟩
    · left
      rw [if_neg hj]

theorem underWay_chooseConn {results : List InjectionResult} {choice : Nat} (hn : UnderWay P n)
    (hp : n.processId = .chooseConn)
    (h : control P results (n.setChoice choice) = some n') :
    UnderWay P n' ∧ Continues P n n' := by
  have hp' : (n.setChoice choice).processId = .chooseConn := hp
  unfold control at h
  rw [hp'] at h
  obtain ⟨n₁, hexec, hswitch⟩ := Option.bind_eq_some_iff.mp h
  obtain ⟨i, hi, ⟨hexec₂, k, hoffers, rfl⟩ | ⟨hzero, rfl⟩⟩ :=
    execChooseConn_onTrack (n := n.setChoice choice) hn.onTrack hexec
  · have hcur : (((n.setChoice choice).setConn i).setChoiceCount k).cur.executable = 2 := hexec₂
    have hchosen : checkToSwitchProcess P (((n.setChoice choice).setConn i).setChoiceCount k) =
        some ((((n.setChoice choice).setConn i).setChoiceCount k).setProcessId .forwarding) :=
      (if_neg (not_not.mpr hcur)).trans (Model.checkToSwitchProcess_chosen hp hcur)
    obtain rfl := Option.some.inj (hchosen.symm.trans hswitch)
    exact ⟨⟨hn.onTrack, hi, .inl ⟨rfl, hexec₂, hoffers⟩⟩, rfl, rfl, rfl, fun _ => .inl rfl⟩
  · generalize hn₁ : (((n.setChoice choice).setConn i).setCur
      { (n.setChoice choice).connState i with fwdMode := .dropped }).setChoiceCount 1 = n₁
      at hswitch
    have hne : n₁.cur.executable ≠ 2 := by
      rw [← hn₁, Model.cur_setChoiceCount, Model.cur_setCur]
      show ((n.setChoice choice).connState i).executable ≠ 2
      rw [hzero i hi]
      decide
    have hchoose : checkToSwitchProcess P n₁ =
        some (updateChoiceCount (n₁.setProcessId .chooseConn)) := if_pos hne
    obtain rfl := Option.some.inj (hchoose.symm.trans hswitch)
    obtain ⟨k, hk⟩ : ∃ k, updateChoiceCount (n₁.setProcessId .chooseConn) =
        (n₁.setProcessId .chooseConn).setChoiceCount k := by
      unfold updateChoiceCount
      split_ifs
      · exact ⟨_, rfl⟩
      · exact ⟨_, rfl⟩
      · exact ⟨_, rfl⟩
    rw [hk, ← hn₁]
    exact underWay_dropped hn hi hzero (fun _ => rfl) rfl rfl rfl rfl rfl

theorem underWay_control {results : List InjectionResult} {choice : Nat} (hP : P.Steady)
    (hn : UnderWay P n) (hlt : choice < n.choiceCount)
    (h : control P results (n.setChoice choice) = some n') :
    UnderWay P n' ∧ Continues P n n' := by
  rcases hn.control with ⟨hp, -⟩ | hp
  · exact underWay_forwarding hP hn hp hlt h
  · exact underWay_chooseConn hn hp h

variable {c c' : ConnState} {st : OpenflowUpdateState}

theorem Moves.sends (h : Moves P st c c') (hc : P.OnTrack c) : P.Sends c := by
  obtain ⟨-, -, -, -, -, hexec, -⟩ := h
  rcases hc with hzero | ⟨-, hsends⟩
  · cases hexec.symm.trans hzero
  · exact hsends

theorem Moves.advances (hnet : P.network.ModelOnly) (h : Moves P st c c') (hc : P.OnTrack c) :
    ∃ choice, Advances P st choice c c' := by
  have hmode := (h.sends hc).fwdMode.1
  obtain ⟨results, m, m', rfl, rfl, -, rfl, -, hforward⟩ := h
  obtain ⟨c, k, rfl, hadvances⟩ := Model.execForwarding_advances hnet hmode hforward
  refine ⟨m.choice, ?_⟩
  rw [Model.cur_setChoiceCount, Model.cur_setCur]
  exact hadvances

theorem Moves.onTrack (hP : P.Steady) (h : Moves P st c c') (hc : P.OnTrack c) :
    P.OnTrack c' := by
  have hsends := h.sends hc
  obtain ⟨results, m, m', rfl, rfl, hexec, rfl, hchoice, hforward⟩ := h
  -- the choices there were do not matter, so there are as many as there are candidates
  obtain ⟨k, hlt, hcandidates⟩ : ∃ k, m.choice < k ∧ (m.cur.AboutToForward →
      ∀ candidates, m.cur.candidates = some candidates → k = candidates.length) := by
    by_cases habout : m.cur.AboutToForward
    · obtain ⟨candidates, hc, hlt⟩ := Model.execForwarding_choice habout hforward
      refine ⟨candidates.length, hlt, fun _ candidates' hc' => ?_⟩
      rw [Option.some.inj (hc.symm.trans hc')]
    · refine ⟨1, ?_, fun habout' => absurd habout' habout⟩
      rw [hchoice habout]
      exact Nat.one_pos
  obtain ⟨m₁, h₁, c, _, rfl, honTrack, -⟩ := Model.execForwarding_advanced
    (m := m.setChoiceCount k) results hP.modelOnly hP.updates hP.linked hP.loopFree hsends hexec
    hlt hcandidates
  have hview : Model.SameView (m.setChoiceCount k) m := ⟨rfl, rfl, rfl⟩
  have hrel : Option.Rel Model.SameView ((m.setChoiceCount k).execForwarding P results)
      (m.execForwarding P results) :=
    Model.congruence_sameView.execForwarding hview hsends.fwdMode.1
  rw [h₁, hforward] at hrel
  cases hrel with
  | some hview' =>
    rw [← hview'.cur, Model.cur_setChoiceCount, Model.cur_setCur]
    exact honTrack

theorem step_single {inv : CheckedInvariant} {l : Label} (h : step P (.single inv) n l = some n') :
    l.choice < n.choiceCount ∧ ∃ n₁, control P l.results (n.setChoice l.choice) = some n₁ ∧
      n₁.checkPolicy inv.policy = some n' := by
  unfold step at h
  split_ifs at h with hlt
  obtain ⟨n₁, h₁, h⟩ := Option.bind_eq_some_iff.mp h
  obtain ⟨⟨n₂, r⟩, hcheck, hafter⟩ := Option.bind_eq_some_iff.mp h
  obtain ⟨n₃, h₃, h₄⟩ := Option.bind_eq_some_iff.mp (hcheck : (n₁.checkPolicy inv.policy).bind
    (fun n => some (n, false)) = some (n₂, r))
  obtain ⟨rfl, rfl⟩ := Prod.mk.inj (Option.some.inj h₄)
  refine ⟨hlt, n₁, h₁, ?_⟩
  rw [h₃]
  exact hafter

variable {V : Invariants} {l : Label} {t : Model} {tr : List (Link Model Label)}

theorem run_of_choiceCount (h : Run (step P V) n tr t) (hn : n.choiceCount = 0) : t = n := by
  cases h with
  | nil => rfl
  | cons hstep _ =>
    unfold step at hstep
    rw [hn, if_neg (Nat.not_lt_zero _)] at hstep
    cases hstep

variable {m m' : Model}

theorem UnderWay.of_widens (h : Widens m n) (hn : UnderWay P n) : UnderWay P m := by
  cases h with
  | same => exact hn
  | wider hp => exact ⟨hn.onTrack, hn.conn, .inr hp⟩

theorem Continues.of_widens {s : Model} (h : Widens m n) (hn : Continues P s n) :
    Continues P s m := by
  cases h with
  | same => exact hn
  | wider => exact ⟨hn.numConns, hn.openflowUpdateState, hn.violated, hn.slot⟩

/-- A turn of the scheduler without the patch, which the other one could take as well. -/
structure Turn (P : Plankton) (m : Model) (l : Label) (m' : Model) : Prop where
  lt : l.choice < m.choiceCount
  control : P.control l.results (m.setChoice l.choice) = some m'
  onCourse : P.OnCourse m'
  underWay : UnderWay P m'
  continues : Continues P m m'
  stays : m.processId = .forwarding → m'.conn = m.conn
  chooses : m'.processId = .chooseConn → m'.cur.executable ≠ 2
  less : P.potential m' < P.potential m

theorem turn_of_choice (hP : P.Steady) (hcourse : P.OnCourse m) (hm : UnderWay P m)
    (hlt : l.choice < m.choiceCount) (hchoice : m.processId = .chooseConn → l.choice = 0) :
    ∃ m', Turn P m l m' := by
  obtain ⟨m', hturn, hcourse', hless⟩ :=
    Plankton.turn_onCourse hP.modelOnly hP.updates hP.linked hP.loopFree hcourse hlt
  have hcontrol : P.control l.results (m.setChoice l.choice) = some m' := by
    unfold Plankton.turn at hturn
    rwa [if_pos hlt] at hturn
  have hrel := control_widens (P := P) (m := m.setChoice l.choice) l.results
    fun hp _ => hchoice hp
  rw [hcontrol] at hrel
  generalize hcontrol' : control P l.results (m.setChoice l.choice) = x at hrel
  cases hrel with
  | some hwidens =>
    obtain ⟨hn, hcontinues⟩ := underWay_control hP hm hlt hcontrol'
    refine ⟨m', hlt, hcontrol, hcourse', hn.of_widens hwidens, hcontinues.of_widens hwidens, ?_, ?_,
      hless⟩
    · intro hp
      rw [Plankton.control_forwarding (m := m.setChoice l.choice) hp] at hcontrol
      obtain ⟨m₁, hforward, hswitch⟩ := Option.bind_eq_some_iff.mp hcontrol
      obtain ⟨p, k, rfl⟩ := Model.checkToSwitchProcess_eq hswitch
      exact (Model.execForwarding_sameControl hforward).conn
    · obtain ⟨m₁, hswitch, -⟩ := Plankton.control_cases hcontrol
      have hchoose := Model.checkToSwitchProcess_chooseConn hswitch
      obtain ⟨p, k, rfl⟩ := Model.checkToSwitchProcess_eq hswitch
      exact hchoose

theorem exists_turn (hP : P.Steady) (hcourse : P.OnCourse m) (hm : UnderWay P m)
    (hpos : 0 < m.choiceCount) : ∃ l m', Turn P m l m' := by
  obtain ⟨m', hturn⟩ := turn_of_choice (l := ⟨0, [], none⟩) hP hcourse hm hpos fun _ => rfl
  exact ⟨_, m', hturn⟩

theorem choiceCount_pos (hcourse : P.OnCourse m) {i : Nat} (hi : i < m.numConns)
    (hfinished : (m.connState i).isFinished = false) : 0 < m.choiceCount := by
  rcases hcourse.control with ⟨-, -, hpos, -⟩ | ⟨-, hcount⟩
  · exact hpos
  · obtain ⟨k, hk, hall⟩ := Model.updateChoiceCount_cases m
    rw [hcount] at hk
    rw [hk]
    -- no choice is left only where all connections are finished
    apply Nat.pos_of_ne_zero
    intro hzero
    have hdone := hall hzero i hi
    rw [hfinished] at hdone
    cases hdone

theorem control_moves {results : List InjectionResult} {M M' m' : Model}
    (hp : m.processId = .forwarding) (hmode : m.cur.fwdMode ≠ .chooseInjRes) (hM : M.cur = m.cur)
    (hst : M.openflowUpdateState = m.openflowUpdateState)
    (hforward : M.execForwarding P results = some M')
    (h : P.control results (m.setChoice M.choice) = some m') : m'.cur = M'.cur := by
  have hp' : (m.setChoice M.choice).processId = .forwarding := hp
  rw [Plankton.control_forwarding hp'] at h
  obtain ⟨m₁, hforward₁, hswitch⟩ := Option.bind_eq_some_iff.mp h
  obtain ⟨p, k, rfl⟩ := Model.checkToSwitchProcess_eq hswitch
  -- a step reads nothing but the connection, the choice and the OpenFlow state
  have hview : Model.SameView (m.setChoice M.choice) M := ⟨hM.symm, rfl, hst.symm⟩
  have hM₂ : M.cur.fwdMode ≠ .chooseInjRes := by
    rw [hM]
    exact hmode
  have hrel : Option.Rel Model.SameView ((m.setChoice M.choice).execForwarding P results)
      (M.execForwarding P results) := Model.congruence_sameView.execForwarding hview hM₂
  rw [hforward₁, hforward] at hrel
  cases hrel with
  | some hview' => exact hview'.cur

/-- The connection in charge can move as it would in any other state. -/
theorem exists_turn_to (hP : P.Steady) (hcourse : P.OnCourse m) (hm : UnderWay P m)
    (hp : m.processId = .forwarding) (h : Moves P m.openflowUpdateState m.cur c') :
    ∃ l m', Turn P m l m' ∧ m'.cur = c' := by
  obtain ⟨results, M, M', hM, rfl, -, hst, hchoice, hforward⟩ := h
  obtain ⟨-, hoffers, hmode⟩ := hm.inCharge hp
  have hlt : M.choice < m.choiceCount := by
    by_cases habout : m.cur.AboutToForward
    · have habout' : M.cur.AboutToForward := hM ▸ habout
      obtain ⟨candidates, hc, hlt⟩ := Model.execForwarding_choice habout' hforward
      rw [hM] at hc
      rw [hoffers.candidates habout candidates hc]
      exact hlt
    · rw [hchoice habout]
      exact hoffers.pos
  obtain ⟨m', hturn⟩ := turn_of_choice (l := ⟨M.choice, results, none⟩) hP hcourse hm hlt
    fun hchoose => by cases hp.symm.trans hchoose
  exact ⟨_, m', hturn, control_moves hp hmode hM hst hforward hturn.control⟩

end Unoptimized

end Neo
