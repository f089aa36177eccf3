import Neo.Invariant.Loop
import Neo.Invariant.OneRequest
import Neo.Process.OrderFree

/-! Invariants that report a violation in every order: `OneRequest`, and `Loop` where there is more
than one connection. -/

namespace Neo

namespace Plankton

variable {P : Plankton} {c : ConnState} {m : Model} {v : Verdict}

theorem Sends.judged (h : P.Sends c) (executable : Fin 3) (visitedHops : Option VisitedHops) :
    P.Sends { c with executable := executable, visitedHops := visitedHops } where
  dstIpEc := h.dstIpEc
  pktLocation := h.pktLocation
  srcNode := h.srcNode
  protoState := h.protoState
  choices := h.choices
  unset := h.unset
  known := h.known
  fwdMode := h.fwdMode
  ready := by
    intro hforward
    obtain ⟨candidates, hc⟩ := h.ready hforward
    exact ⟨candidates, hc.stored, hc.ne_nil, hc.mem, hc.unchosen⟩

theorem OnTrack.judge (h : ∀ i < m.numConns, P.OnTrack (m.connState i))
    (hexec : v.executable = m.cur.executable) :
    ∀ i < (m.judge v).numConns, P.OnTrack ((m.judge v).connState i) := by
  intro i hi
  rw [Model.judge_connState]
  split_ifs with hconn
  · have hcur : P.OnTrack m.cur := by
      rw [hconn] at hi
      exact h m.conn hi
    rcases hcur with hzero | ⟨htwo, hsends⟩
    · exact .inl (hexec.trans hzero)
    · exact .inr ⟨hexec.trans htwo, hsends.judged _ _⟩
  · exact h i hi

theorem connMap_judge (hexec : v.executable = m.cur.executable) (e : Fin 3) :
    (m.judge v).connMap e = m.connMap e := by
  apply List.filter_congr
  intro i _
  rw [Model.judge_connState]
  split_ifs with hconn
  · subst hconn
    rw [hexec]
    rfl
  · rfl

theorem updateChoiceCount_judge (hexec : v.executable = m.cur.executable)
    (hstopped : v.stopped = false) (h : m.updateChoiceCount = m) :
    (m.judge v).updateChoiceCount = m.judge v := by
  have hset : ∀ k, m.setChoiceCount k = m → (m.judge v).setChoiceCount k = m.judge v := by
    intro k hk
    have hcount : k = m.choiceCount := congrArg Model.choiceCount hk
    rw [hcount, Model.judge_eq, hstopped, if_neg Bool.false_ne_true]
    rfl
  unfold Model.updateChoiceCount at h ⊢
  simp only [connMap_judge hexec]
  split_ifs at h ⊢
  · exact hset _ h
  · exact hset _ h
  · exact hset _ h
  · exact hset _ h

theorem OnCourse.judge (h : P.OnCourse m) (hexec : v.executable = m.cur.executable)
    (hstopped : v.stopped = false) : P.OnCourse (m.judge v) := by
  have hcount : (m.judge v).choiceCount = m.choiceCount := by
    rw [Model.judge_choiceCount, hstopped, if_neg Bool.false_ne_true]
  refine ⟨OnTrack.judge h.onTrack hexec, h.conn, ?_⟩
  rcases h.control with ⟨hp, htwo, hpos, hcandidates⟩ | ⟨hp, hchoose⟩
  · left
    rw [Model.judge_cur, hcount]
    exact ⟨hp, hexec.trans htwo, hpos, hcandidates⟩
  · exact .inr ⟨hp, updateChoiceCount_judge hexec hstopped hchoose⟩

theorem potential_judge (hexec : v.executable = m.cur.executable) :
    P.potential (m.judge v) = P.potential m := by
  have hsum : ∑ i ∈ Finset.range m.numConns, P.effort ((m.judge v).connState i) =
      ∑ i ∈ Finset.range m.numConns, P.effort (m.connState i) := by
    apply Finset.sum_congr rfl
    intro i _
    rw [Model.judge_connState]
    split_ifs with hconn
    · subst hconn
      rw [hexec]
      rfl
    · rfl
  unfold potential
  exact congrArg (fun n => 2 * n + _) hsum

end Plankton

namespace Unoptimized

variable {P : Plankton} {m m' m₁ s : Model} {v : Verdict} {l : Label} {st : OpenflowUpdateState}
  {choice : Nat} {c c' : ConnState} {conns : List Connection} {targetNodes : List NodePtr}

theorem UnderWay.judge (h : UnderWay P m) (hexec : v.executable = m.cur.executable)
    (hstopped : v.stopped = false) : UnderWay P (m.judge v) := by
  refine ⟨Plankton.OnTrack.judge h.onTrack hexec, h.conn, h.control.imp_left ?_⟩
  rintro ⟨hp, htwo, hoffers⟩
  rw [Model.judge_cur, Model.judge_choiceCount, hstopped, if_neg Bool.false_ne_true]
  exact ⟨hp, hexec.trans htwo, hoffers.pos, hoffers.candidates, hoffers.single⟩

theorem Turn.advances (hnet : P.network.ModelOnly) (h : Turn P m l m') (hm : UnderWay P m)
    (hp : m.processId = .forwarding) : ∃ choice,
      Advances P m.openflowUpdateState choice m.cur m'.cur := by
  obtain ⟨-, -, hmode⟩ := hm.inCharge hp
  have hcontrol := h.control
  rw [Plankton.control_forwarding (m := m.setChoice l.choice) hp] at hcontrol
  obtain ⟨m₁, hforward, hswitch⟩ := Option.bind_eq_some_iff.mp hcontrol
  obtain ⟨c, k, rfl, hadvances⟩ := Model.execForwarding_advances
    (m := m.setChoice l.choice) hnet hmode hforward
  obtain ⟨p, k', rfl⟩ := Model.checkToSwitchProcess_eq hswitch
  refine ⟨l.choice, ?_⟩
  rw [Model.cur_setChoiceCount, Model.cur_setProcessId, Model.cur_setChoiceCount, Model.cur_setCur]
  exact hadvances

/-- A connection that is executable is chosen, and its state does not change. -/
theorem Turn.chosen (h : Turn P m l m') (hm : UnderWay P m) (hp : m.processId = .chooseConn)
    {i : Nat} (hi : i < m.numConns) (hexec : (m.connState i).executable = 2) :
    m'.processId = .forwarding ∧ m'.cur.executable = 2 ∧ ∀ j, m'.connState j = m.connState j := by
  have hslots : ∀ j, m'.connState j = m.connState j := by
    intro j
    rcases h.continues.slot j with hsame | ⟨hzero, -⟩ | ⟨hforwarding, -⟩
    · exact hsame
    · cases hexec.symm.trans (hzero i hi)
    · cases hp.symm.trans hforwarding
  have hcontrol := h.control
  rw [Plankton.control_chooseConn (m := m.setChoice l.choice) hp] at hcontrol
  obtain ⟨m₁, hchoose, hswitch⟩ := Option.bind_eq_some_iff.mp hcontrol
  obtain ⟨m₂, hpick, hm₁⟩ := Model.execChooseConn_cases hchoose
  obtain ⟨j, c, rfl, hj, -, hcases⟩ := Model.pickConn_cases hpick
  have hconn : m'.conn = j := by
    obtain ⟨p, k, rfl⟩ := Model.checkToSwitchProcess_eq hswitch
    rcases hm₁ with ⟨-, candidates, -, rfl⟩ | ⟨-, rfl⟩
    · rfl
    · rfl
  have htwo : (m.connState j).executable = 2 := by
    rcases hcases with ⟨-, htwo, -⟩ | ⟨-, hone, -⟩ | ⟨hzero, -⟩
    · exact htwo
    · rcases hm.onTrack j hj with hzero | ⟨htwo, -⟩
      · cases hzero.symm.trans hone
      · exact htwo
    · cases hexec.symm.trans (hzero i hi)
  have hcur : m'.cur.executable = 2 := by
    rw [Model.cur, hconn, hslots]
    exact htwo
  refine ⟨?_, hcur, hslots⟩
  rcases h.underWay.control with ⟨hp', -⟩ | hp'
  · exact hp'
  · exact absurd hcur (h.chooses hp')

theorem advances_firstCollect (h : Advances P st choice c c') (hmode : c.fwdMode = .firstCollect) :
    c'.fwdMode = .firstForward ∧ c'.protoState = c.protoState ∧ c'.hop = c.hop ∧
      c'.visitedHops = c.visitedHops := by
  cases h with
  | collect _ _ _ hmodes =>
    rcases hmodes with ⟨-, rfl⟩ | ⟨hcollect, -⟩
    · exact ⟨rfl, rfl, rfl, rfl⟩
    · cases hmode.symm.trans hcollect
  | starve _ hmodes =>
    rcases hmodes with ⟨-, rfl⟩ | ⟨hcollect, -⟩
    · exact ⟨rfl, rfl, rfl, rfl⟩
    · cases hmode.symm.trans hcollect
  | deliver _ _ _ _ habout | move _ _ _ _ habout =>
    rcases habout with hforward | hforward
    · cases hmode.symm.trans hforward
    · cases hmode.symm.trans hforward
  | last hacc => cases hmode.symm.trans hacc
  | answer _ _ _ _ _ _ hacc => cases hmode.symm.trans hacc
  | again _ _ _ hacc => cases hmode.symm.trans hacc
  | dropped hdropped => cases hmode.symm.trans hdropped

theorem advances_visitedHops (h : Advances P st choice c c') : c'.visitedHops = c.visitedHops := by
  cases h <;> rfl

section Loop

theorem ends_accepts (h : Loop.Ends m) : Accepts m.cur ∨ m.cur.fwdMode = .dropped := by
  unfold Loop.Ends at h
  rw [← requestIsAccepted_iff]
  simp only [Bool.and_eq_true, Bool.or_eq_true, beq_iff_eq] at h
  exact h.1

structure Fresh (c : ConnState) : Prop where
  fwdMode : c.fwdMode = .firstCollect
  isFirst : c.protoState.isFirst = true
  visitedHops : c.visitedHops = none

/-- The connection in charge is not the last executable one, and the others that are executable
have not begun. -/
structure Several (m : Model) : Prop where
  lastHop : ∀ i < m.numConns, ∀ v, (m.connState i).visitedHops = some v → v.lastHop = none
  fresh : ∀ i < m.numConns, (m.connState i).executable = 2 →
    (m.processId = .forwarding ∧ i = m.conn) ∨ Fresh (m.connState i)
  other : ∃ i < m.numConns, i ≠ m.conn ∧ (m.connState i).executable = 2

theorem Several.not_ends (h : Several m) : ¬ Loop.Ends m := by
  obtain ⟨i, hi, hne, hexec⟩ := h.other
  unfold Loop.Ends
  rw [Model.otherExecutableConnsExist_of_executable hi hne hexec, Bool.not_true, Bool.and_false]
  exact Bool.false_ne_true

theorem checkLoop_of_lastHop (hends : ¬ Loop.Ends m)
    (hvis : ∀ v, m.cur.visitedHops = some v → v.lastHop = none) :
    m.checkLoop = some (m.stop true) ∨ ∃ hops, m.checkLoop =
      some (m.judge { m.quiet with visitedHops := some ⟨hops, none⟩ }) := by
  cases hhops : m.cur.visitedHops with
  | none =>
    right
    refine ⟨[m.cur.hop], ?_⟩
    exact Loop.checkLoop_new hends (List.not_mem_nil) (.inr ⟨hhops, rfl⟩)
  | some v =>
    obtain ⟨hops, lastHop⟩ := v
    obtain rfl := hvis _ hhops
    by_cases hseen : m.cur.hop ∈ hops
    · exact .inl (Loop.checkLoop_seen hends hseen hhops)
    · exact .inr ⟨_, Loop.checkLoop_new hends hseen (.inl hhops)⟩

theorem Several.turn (hnet : P.network.ModelOnly) (h : Turn P m l m') (hm : UnderWay P m)
    (hseveral : Several m) (hp : m.processId = .forwarding) : Several m' := by
  have hnum := h.continues.numConns
  have hslot : ∀ i < m.numConns, m'.connState i = m.connState i ∨ i = m.conn := by
    intro i hi
    rcases h.continues.slot i with hsame | ⟨hzero, -⟩ | ⟨-, hconn, -⟩
    · exact .inl hsame
    · cases (hm.inCharge hp).1.symm.trans (hzero m.conn hm.conn)
    · exact .inr hconn
  constructor
  · intro i hi v hv
    rw [hnum] at hi
    rcases hslot i hi with hsame | rfl
    · rw [hsame] at hv
      exact hseveral.lastHop i hi v hv
    · obtain ⟨choice, hadvances⟩ := h.advances hnet hm hp
      have hvis := advances_visitedHops hadvances
      rw [← h.stays hp] at hv
      exact hseveral.lastHop m.conn hi v (hvis.symm.trans hv)
  · intro i hi hexec
    rw [hnum] at hi
    rcases hslot i hi with hsame | rfl
    · rw [hsame] at hexec ⊢
      rcases hseveral.fresh i hi hexec with ⟨-, rfl⟩ | hfresh
      · rw [← hsame] at hexec
        exact .inl (h.inCharge hp hexec)
      · exact .inr hfresh
    · exact .inl (h.inCharge hp hexec)
  · obtain ⟨i, hi, hne, hexec⟩ := hseveral.other
    refine ⟨i, hnum.symm ▸ hi, ?_, ?_⟩
    · rw [h.stays hp]
      exact hne
    · rw [(hslot i hi).resolve_right hne]
      exact hexec

theorem Several.judge {hops : List Hop} (h : Several m)
    (hcharge : m.cur.executable = 2 → m.processId = .forwarding) :
    Several (m.judge { m.quiet with visitedHops := some ⟨hops, none⟩ }) := by
  constructor
  · intro i hi v hv
    rw [Model.judge_connState] at hv
    split_ifs at hv
    · obtain rfl := Option.some.inj hv
      rfl
    · exact h.lastHop i hi v hv
  · intro i hi hexec
    rw [Model.judge_connState] at hexec ⊢
    by_cases hconn : i = m.conn
    · rw [if_pos hconn] at hexec
      exact .inl ⟨hcharge hexec, hconn⟩
    · rw [if_neg hconn] at hexec ⊢
      exact h.fresh i hi hexec
  · obtain ⟨i, hi, hne, hexec⟩ := h.other
    refine ⟨i, hi, hne, ?_⟩
    rw [Model.judge_connState, if_neg hne]
    exact hexec

/-- A connection that has not left its source is reported when it collects its next hops. -/
theorem exists_report (conns : List Connection) (hP : P.Steady) (hcourse : P.OnCourse m)
    (hm : UnderWay P m) (hp : m.processId = .forwarding) (hmode : m.cur.fwdMode = .firstCollect)
    (hfirst : m.cur.protoState.isFirst = true)
    (hvis : m.cur.visitedHops = some ⟨[m.cur.hop], none⟩) :
    ∃ l m', P.step (Loop.invariants conns) m l = some m' ∧ m'.choiceCount = 0 ∧
      m'.violated = true := by
  obtain ⟨l, m₁, hturn⟩ := exists_turn hP hcourse hm (hm.inCharge hp).2.1.pos
  obtain ⟨choice, hadvances⟩ := hturn.advances hP.modelOnly hm hp
  obtain ⟨hmode₁, hps, hhop, hvis₁⟩ := advances_firstCollect hadvances hmode
  have hends : ¬ Loop.Ends m₁ := by
    intro hends
    rcases ends_accepts hends with (⟨hacc, -⟩ | ⟨-, hack⟩) | hdropped
    · cases hmode₁.symm.trans hacc
    · have hnot := isFirst_of_isReqAckOrRep hack
      rw [hps, hfirst] at hnot
      cases hnot
    · cases hmode₁.symm.trans hdropped
  -- the hop was recorded when the connection was chosen
  have hcheck : m₁.checkLoop = some (m₁.stop true) := by
    refine Loop.checkLoop_seen hends ?_ (hvis₁.trans hvis)
    rw [hhop]
    exact List.mem_singleton_self _
  exact ⟨l, _, hturn.step .loop conns hcheck, rfl, rfl⟩

theorem run_of_chosen (conns : List Connection) (hP : P.Steady) (hcourse : P.OnCourse m)
    (hm : UnderWay P m) (hseveral : Several m) (hp : m.processId = .chooseConn) :
    ∃ tr t, Run (P.step (Loop.invariants conns)) m tr t ∧ t.choiceCount = 0 ∧
      t.violated = true := by
  obtain ⟨i, hi, -, hexec⟩ := hseveral.other
  have hpos : 0 < m.choiceCount := by
    apply choiceCount_pos hcourse hi
    simp [ConnState.isFinished, hexec]
  obtain ⟨l, m₁, hturn⟩ := exists_turn hP hcourse hm hpos
  obtain ⟨hp₁, hexec₁, hslots⟩ := hturn.chosen hm hp hi hexec
  have hfresh : Fresh m₁.cur := by
    rw [Model.cur, hslots] at hexec₁ ⊢
    have hlt : m₁.conn < m.numConns := hturn.continues.numConns ▸ hturn.underWay.conn
    rcases hseveral.fresh m₁.conn hlt hexec₁ with ⟨hforwarding, -⟩ | hfresh
    · cases hp.symm.trans hforwarding
    · exact hfresh
  have hends : ¬ Loop.Ends m₁ := by
    intro hends
    rcases ends_accepts hends with (⟨hacc, -⟩ | ⟨hforward, -⟩) | hdropped
    · cases hfresh.fwdMode.symm.trans hacc
    · cases hfresh.fwdMode.symm.trans hforward
    · cases hfresh.fwdMode.symm.trans hdropped
  have hcheck : m₁.checkLoop =
      some (m₁.judge { m₁.quiet with visitedHops := some ⟨[m₁.cur.hop], none⟩ }) :=
    Loop.checkLoop_new hends List.not_mem_nil (.inr ⟨hfresh.visitedHops, rfl⟩)
  obtain ⟨l', m', hstep, hend⟩ := exists_report conns hP
    (hturn.onCourse.judge (v := { m₁.quiet with visitedHops := some ⟨[m₁.cur.hop], none⟩ }) rfl rfl)
    (hturn.underWay.judge rfl rfl) hp₁ (by rw [Model.judge_cur]; exact hfresh.fwdMode)
    (by rw [Model.judge_cur]; exact hfresh.isFirst) (by rw [Model.judge_cur]; rfl)
  exact ⟨_, m', .cons (hturn.step .loop conns hcheck) (.cons hstep (.nil _)), hend⟩

theorem run_of_several (conns : List Connection) (hP : P.Steady) (hcourse : P.OnCourse m)
    (hm : UnderWay P m) (hseveral : Several m) :
    ∃ tr t, Run (P.step (Loop.invariants conns)) m tr t ∧ t.choiceCount = 0 ∧
      t.violated = true := by
  induction hw : P.potential m using Nat.strong_induction_on generalizing m with
  | _ w ih =>
    subst hw
    rcases hm.control with ⟨hp, -, hoffers⟩ | hp
    · obtain ⟨l, m₁, hturn⟩ := exists_turn hP hcourse hm hoffers.pos
      have hseveral₁ := hseveral.turn hP.modelOnly hturn hm hp
      have hlt₁ := hturn.underWay.conn
      -- a new hop is recorded, or it was seen before, which is reported
      rcases checkLoop_of_lastHop hseveral₁.not_ends (hseveral₁.lastHop _ hlt₁) with
        hcheck | ⟨hops, hcheck⟩
      · exact ⟨_, _, .cons (hturn.step .loop conns hcheck) (.nil _), rfl, rfl⟩
      · have hcharge : m₁.cur.executable = 2 → m₁.processId = .forwarding := by
          intro hexec
          rw [Model.cur, hturn.stays hp] at hexec
          exact (hturn.inCharge hp hexec).1
        have hless : P.potential
            (m₁.judge { m₁.quiet with visitedHops := some ⟨hops, none⟩ }) < P.potential m := by
          rw [Plankton.potential_judge rfl]
          exact hturn.less
        obtain ⟨tr, t, hrun, ht⟩ := ih _ hless (hturn.onCourse.judge rfl rfl)
          (hturn.underWay.judge rfl rfl) (hseveral₁.judge hcharge) rfl
        exact ⟨_, t, .cons (hturn.step .loop conns hcheck) hrun, ht⟩
    · exact run_of_chosen conns hP hcourse hm hseveral hp

end Loop

section OneRequest

/-- A request that was counted is not executable any more, but its connection stays in charge for
one more step, after which another one is chosen. -/
structure Counted (P : Plankton) (m : Model) : Prop where
  onTrack : ∀ i < m.numConns, P.OnTrack (m.connState i)
  conn : m.conn < m.numConns
  processId : m.processId = .forwarding
  executable : m.cur.executable = 0
  sends : P.Sends m.cur
  fwdMode : m.cur.fwdMode = .accepted
  isRequest : m.cur.protoState.isRequest = true

theorem isLast_of_isRequest {p : ProtoState} (h : p.isRequest = true) : p.isLast = false := by
  simp only [ProtoState.isRequest, Bool.or_eq_true, beq_iff_eq] at h
  rcases h with (rfl | rfl) | rfl
  · rfl
  · rfl
  · rfl

theorem Counted.control (hP : P.Steady) (hm : Counted P m) : ∃ m' c,
    P.control [] (m.setChoice 0) = some m' ∧ P.OnCourse m' ∧ UnderWay P m' ∧
      m'.cur.fwdMode = .firstCollect ∧ m'.numConns = m.numConns ∧
        m'.connState = (m.setCur c).connState ∧ c.executable = 0 := by
  have hlast := isLast_of_isRequest hm.isRequest
  obtain ⟨hpos, hlt⟩ := hm.sends.protoState
  obtain ⟨-, hlt', hfirst⟩ := ProtoState.remaining_succ _ hlt hpos hlast
  rcases Model.accepted_eq (P := P) (m := m.setChoice 0) ⟨hpos, hlt⟩ with
    ⟨hlast', -⟩ | ⟨-, changeDirection, haccepted⟩
  · cases hlast.symm.trans hlast'
  obtain ⟨c, hphase, -, hexec, hmode, -⟩ := Model.phaseTransition_sends (m := m.setChoice 0)
    hP.modelOnly hP.updates hm.sends hm.fwdMode changeDirection ⟨Nat.le_add_left 1 _, hlt'⟩ hfirst
  have hzero : c.executable = 0 := hexec.trans hm.executable
  have hcontrol : P.control [] (m.setChoice 0) =
      ((m.setChoice 0).setCur c).checkToSwitchProcess P := by
    rw [Plankton.control_forwarding (m := m.setChoice 0) hm.processId]
    have hforward : (m.setChoice 0).execForwarding P [] = some ((m.setChoice 0).setCur c) := by
      unfold Model.execForwarding
      rw [Model.cur_setChoice, hm.fwdMode]
      exact haccepted.trans hphase
    rw [hforward, Option.bind_some]
  rw [Model.checkToSwitchProcess_frozen (by rw [Model.cur_setCur]; exact hzero)] at hcontrol
  have honTrack : ∀ i < m.numConns, P.OnTrack (((m.setChoice 0).setCur c).connState i) := by
    intro i hi
    rw [Model.setCur_connState]
    split_ifs
    · exact .inl hzero
    · exact hm.onTrack i hi
  obtain ⟨hcourse, hnum, hslots⟩ :=
    Plankton.onCourse_chooseConn (m := (m.setChoice 0).setCur c) honTrack hm.conn rfl
  obtain ⟨k, hk, -⟩ := Model.updateChoiceCount_cases
    (((m.setChoice 0).setCur c).setProcessId .chooseConn)
  refine ⟨_, c, hcontrol, hcourse, ⟨hcourse.onTrack, hcourse.conn, ?_⟩, ?_, hnum, hslots, hzero⟩
  · rw [hk]
    exact .inr rfl
  · rw [hk, Model.cur_setChoiceCount, Model.cur_setProcessId, Model.cur_setCur]
    exact hmode

theorem counted_judge (counts : ReachCounts) (hm : UnderWay P m) (hp : m.processId = .forwarding)
    (hmode : m.cur.fwdMode = .accepted) (hrequest : m.cur.protoState.isRequest = true) :
    Counted P (m.judge ⟨0, m.cur.visitedHops, m.violated, counts, false⟩) := by
  have hsends : P.Sends m.cur := by
    rcases hm.onTrack m.conn hm.conn with hzero | ⟨-, hsends⟩
    · cases (hm.inCharge hp).1.symm.trans hzero
    · exact hsends
  refine ⟨?_, hm.conn, hp, ?_, ?_, ?_, ?_⟩
  · intro i hi
    rw [Model.judge_connState]
    split_ifs
    · exact .inl rfl
    · exact hm.onTrack i hi
  · rw [Model.judge_cur]
  · rw [Model.judge_cur]
    exact hsends.judged _ _
  · rw [Model.judge_cur]
    exact hmode
  · rw [Model.judge_cur]
    exact hrequest

theorem potential_of_counted {v : Verdict} (hconn : m.conn < m.numConns)
    (hexec : m.cur.executable = 2) (hnum : m'.numConns = (m.judge v).numConns)
    (hslots : m'.connState = ((m.judge v).setCur c).connState) (hzero : c.executable = 0) :
    P.potential m' < P.potential m := by
  have hslot : ∀ i, m'.connState i = (m.setSlot m.conn c).connState i := by
    intro i
    rw [hslots, Model.setCur_connState, Model.setSlot_connState, Model.judge_conn]
    by_cases hi : i = m.conn
    · rw [if_pos hi, if_pos hi]
    · rw [if_neg hi, if_neg hi, Model.judge_connState, if_neg hi]
  have hless : P.effort c < P.effort m.cur := by
    have hle := Plankton.effort_of_frozen (P := P) hzero
    rw [Plankton.effort_of_executable hexec]
    omega
  have hsum := Plankton.sum_effort_lt hconn hless
  simp only [← hslot] at hsum
  exact Plankton.potential_lt_of_sum hnum hsum

theorem checkOneRequest_cases (targetNodes : List NodePtr) (m : Model) :
    m.checkOneRequest targetNodes = m ∨
      m.cur.fwdMode = .accepted ∧ m.cur.protoState.isRequest = true ∧ ∃ counts b,
        m.checkOneRequest targetNodes = m.countReach b counts := by
  unfold Model.checkOneRequest
  split_ifs with hcount
  · right
    simp only [Bool.and_eq_true, beq_iff_eq] at hcount
    exact ⟨hcount.1.1, hcount.1.2, _, _, rfl⟩
  · exact .inl rfl

/-- Whatever is counted, the run can go on to its end. -/
theorem run_complete (hP : P.Steady) (hcourse : P.OnCourse m) (hm : UnderWay P m) :
    ∃ tr t, Run (P.step (OneRequest.invariants targetNodes conns)) m tr t ∧ t.choiceCount = 0 := by
  induction hw : P.potential m using Nat.strong_induction_on generalizing m with
  | _ w ih =>
    subst hw
    by_cases hend : m.choiceCount = 0
    · exact ⟨[], m, .nil m, hend⟩
    obtain ⟨l, m₁, hturn⟩ := exists_turn hP hcourse hm (Nat.pos_of_ne_zero hend)
    rcases checkOneRequest_cases targetNodes m₁ with hquiet | ⟨hmode, hrequest, counts, b, hcount⟩
    · have hstep := hturn.step (.oneRequest targetNodes) conns (congrArg some hquiet)
      obtain ⟨tr, t, hrun, ht⟩ := ih _ hturn.less hturn.onCourse hturn.underWay rfl
      exact ⟨_, t, .cons hstep hrun, ht⟩
    have hstep := hturn.step (.oneRequest targetNodes) conns
      (congrArg some (hcount.trans (m₁.countReach_eq_judge b counts)))
    cases b with
    | true => exact ⟨_, _, .cons hstep (.nil _), rfl⟩
    | false =>
      rcases hturn.onCourse.control with ⟨hp, hexec, hpos, -⟩ | ⟨hp, -⟩
      · -- the connection that was counted stays in charge for one more step
        have hcounted := counted_judge counts hturn.underWay hp hmode hrequest
        obtain ⟨m₂, c, hcontrol, hcourse₂, hm₂, hmode₂, hnum, hslots, hzero⟩ :=
          hcounted.control hP
        have hquiet : m₂.checkOneRequest targetNodes = m₂ := by
          rcases checkOneRequest_cases targetNodes m₂ with hquiet | ⟨hacc, -⟩
          · exact hquiet
          · cases hmode₂.symm.trans hacc
        have hstep₂ : P.step (OneRequest.invariants targetNodes conns)
            (m₁.judge ⟨0, m₁.cur.visitedHops, m₁.violated, counts, false⟩) ⟨0, [], none⟩ =
              some m₂ :=
          step_of_control hpos hcontrol (congrArg some hquiet)
        have hless : P.potential m₂ < P.potential m :=
          (potential_of_counted hturn.underWay.conn hexec hnum hslots hzero).trans hturn.less
        obtain ⟨tr, t, hrun, ht⟩ := ih _ hless hcourse₂ hm₂ rfl
        exact ⟨_, t, .cons hstep (.cons hstep₂ hrun), ht⟩
      · -- where another connection is to be chosen this one is not executable anyway
        have hzero : m₁.cur.executable = 0 := by
          rcases hturn.underWay.onTrack _ hturn.underWay.conn with hzero | ⟨htwo, -⟩
          · exact hzero
          · exact absurd htwo (hturn.chooses hp)
        have hless : P.potential (m₁.judge
            ⟨0, m₁.cur.visitedHops, false || m₁.violated, counts, false⟩) < P.potential m := by
          rw [Plankton.potential_judge hzero.symm]
          exact hturn.less
        obtain ⟨tr, t, hrun, ht⟩ := ih _ hless (hturn.onCourse.judge hzero.symm rfl)
          (hturn.underWay.judge hzero.symm rfl) rfl
        exact ⟨_, t, .cons hstep hrun, ht⟩

end OneRequest

end Unoptimized

end Neo
