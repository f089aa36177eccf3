import Neo.Process.Addressed
import Neo.Process.Reported

/-! What the two schedulers find. A violation that is found without the patch is found with it; the
converse holds where no order is left out, or where the order does not matter. -/

namespace Neo

namespace Unoptimized

variable {P : Plankton} {V : Invariants} {m m' n s t : Model} {l : Label}
  {tr : List (Link Model Label)}

def FindsViolation (P : Plankton) (V : Invariants) (step : Model → Label → Option Model) : Prop :=
  ∃ s tr t, P.initModel V = some s ∧ Run step s tr t ∧ t.choiceCount = 0 ∧ t.violated = true

def FindsViolationInOrder (P : Plankton) (V : Invariants) : Prop :=
  ∃ s tr t, P.initModel V = some s ∧ Run (step P V) s tr t ∧ (∀ l ∈ tr, InOrder l) ∧
    t.choiceCount = 0 ∧ t.violated = true

/-- Wherever the first executable connection is continued, it is the only one. -/
def NoneSkipped (P : Plankton) (V : Invariants) : Prop :=
  ∀ s tr m, P.initModel V = some s → Run (P.step V) s tr m → m.processId = .chooseConn →
    m.connMap 2 ≠ [] → (m.connMap 2).length + (m.connMap 1).length ≤ 1

theorem Widens.eq_of_end (h : Widens m n) (hend : m.choiceCount = 0 ∨ n.choiceCount = 0) :
    n = m := by
  cases h with
  | same => rfl
  | wider _ _ _ hone hk =>
    rcases hend with hzero | hzero
    · cases hone.symm.trans hzero
    · exact absurd hzero hk.ne'

theorem finds_iff_inOrder : FindsViolation P V (P.step V) ↔ FindsViolationInOrder P V := by
  constructor
  · rintro ⟨s, tr, t, hs, hrun, hend, hviolated⟩
    obtain ⟨tr', t', hrun', hwidens, horder⟩ := run_inOrder hrun
    obtain rfl := hwidens.eq_of_end (.inl hend)
    exact ⟨s, tr', t', hs, hrun', horder, hend, hviolated⟩
  · rintro ⟨s, tr, t, hs, hrun, horder, hend, hviolated⟩
    obtain ⟨tr', t', hrun', hwidens⟩ := run_of_inOrder hrun horder
    obtain rfl := hwidens.eq_of_end (.inr hend)
    exact ⟨s, tr', t, hs, hrun', hend, hviolated⟩

theorem finds_of_finds (h : FindsViolation P V (P.step V)) : FindsViolation P V (step P V) := by
  obtain ⟨s, tr, t, hs, hrun, -, hend⟩ := finds_iff_inOrder.mp h
  exact ⟨s, tr, t, hs, hrun, hend⟩

theorem inOrder_of_single (h : step P V n l = some m') (hp : n.processId = .chooseConn)
    (hmap : n.connMap 2 ≠ []) (hsingle : (n.connMap 2).length + (n.connMap 1).length ≤ 1) :
    l.choice = 0 := by
  have hlt : l.choice < (n.connMap 2).length + (n.connMap 1).length := by
    unfold step at h
    split_ifs at h
    obtain ⟨n₁, hcontrol, -⟩ := Option.bind_eq_some_iff.mp h
    have hp' : (n.setChoice l.choice).processId = .chooseConn := hp
    unfold control at hcontrol
    rw [hp'] at hcontrol
    obtain ⟨n₂, hexec, -⟩ := Option.bind_eq_some_iff.mp hcontrol
    unfold execChooseConn at hexec
    obtain ⟨n₃, hpick, -⟩ := Option.bind_eq_some_iff.mp hexec
    have hmap' : (n.setChoice l.choice).connMap 2 ≠ [] := hmap
    unfold pickConn at hpick
    rw [if_pos (.inl hmap')] at hpick
    obtain ⟨i, hi, -⟩ := Option.bind_eq_some_iff.mp hpick
    unfold chosenConn at hi
    split_ifs at hi with hlt
    · exact Nat.lt_add_right _ hlt
    · obtain ⟨hlt', -⟩ := List.getElem?_eq_some_iff.mp hi
      have hsub : l.choice - (n.connMap 2).length < (n.connMap 1).length := hlt'
      omega
  omega

theorem inOrder_of_noneSkipped (hskip : NoneSkipped P V) (hs : P.initModel V = some s)
    (h : Run (step P V) n tr t) :
    ∀ {tr₀ : List (Link Model Label)} {m : Model}, Run (P.step V) s tr₀ m → Widens m n →
      ∀ l ∈ tr, InOrder l := by
  induction h with
  | nil => simp
  | @cons n n' t l tr hstep _ ih =>
    intro tr₀ m hm hwidens
    have hcount : n = m.setChoiceCount n.choiceCount := hwidens.eq_setChoiceCount
    have hchoice : m.processId = .chooseConn → m.connMap 2 ≠ [] → l.choice = 0 := by
      intro hp hmap
      apply inOrder_of_single hstep
      · rw [hcount]
        exact hp
      · rw [hcount]
        exact hmap
      · rw [hcount]
        exact hskip s tr₀ m hs hm hp hmap
    have hrel := hwidens.step (P := P) (V := V) hchoice
    rw [hstep] at hrel
    generalize hstep' : P.step V m l = m' at hrel
    -- both schedulers take the step, so the runs stay together
    cases hrel with
    | some hafter =>
      intro l' hl'
      rcases List.mem_cons.mp hl' with rfl | hl'
      · intro hp hmap
        dsimp only at hp hmap ⊢
        rw [hcount] at hp hmap
        exact hchoice hp hmap
      · exact ih (hm.append (.cons hstep' (.nil _))) hafter l' hl'

theorem finds_iff_of_noneSkipped (hskip : NoneSkipped P V) :
    FindsViolation P V (P.step V) ↔ FindsViolation P V (step P V) := by
  rw [finds_iff_inOrder]
  constructor
  · rintro ⟨s, tr, t, hs, hrun, -, hend⟩
    exact ⟨s, tr, t, hs, hrun, hend⟩
  · rintro ⟨s, tr, t, hs, hrun, hend⟩
    exact ⟨s, tr, t, hs, hrun, inOrder_of_noneSkipped hskip hs hrun (.nil s) (.same s), hend⟩

structure Alternates (m : Model) : Prop where
  conn : m.conn < m.numConns
  numConns : m.numConns ≤ 2
  executable : ∀ i, (m.connState i).executable ≠ 1
  fwdMode : m.NoneInjected
  process : m.processId = .chooseConn → m.cur.executable ≠ 2

theorem advances_executable {st : OpenflowUpdateState} {choice : Nat} {c c' : ConnState}
    (h : Advances P st choice c c') : c'.executable = c.executable ∨ c'.executable = 0 := by
  cases h with
  | starve | last | dropped => exact .inr rfl
  | collect | deliver | move | answer | again => exact .inl rfl

theorem Alternates.setCur (h : Alternates m) {c : ConnState} (hexec : c.executable ≠ 1) :
    ∀ i, ((m.setCur c).connState i).executable ≠ 1 := by
  intro i
  rw [Model.setCur_connState]
  split_ifs
  · exact hexec
  · exact h.executable i

theorem control_alternates {results : List InjectionResult} (hnet : P.network.ModelOnly)
    (h : P.control results m = some m') (hm : Alternates m) : Alternates m' := by
  have hconn := (Plankton.control_progresses h hm.conn).conn
  have hmode := Plankton.control_noneInjected hnet h hm.fwdMode
  obtain ⟨m₁, hswitch, hstep⟩ := Plankton.control_cases h
  have hprocess := Model.checkToSwitchProcess_chooseConn hswitch
  obtain ⟨p, k, rfl⟩ := Model.checkToSwitchProcess_eq hswitch
  have hnum := Plankton.control_numConns hnet h hm.fwdMode
  have hslots : ∀ i, (m₁.connState i).executable ≠ 1 := by
    -- only an answer of a middlebox would set 1, and there is none
    rcases hstep with ⟨-, h₁⟩ | ⟨-, h₁⟩ | ⟨-, h₁⟩
    · obtain ⟨m₂, h₂, hm₁⟩ := Model.execChooseConn_cases h₁
      obtain ⟨j, c, rfl, -, -, hpick⟩ := Model.pickConn_cases h₂
      have hexec : c.executable ≠ 1 := by
        rcases hpick with ⟨-, hexec, rfl⟩ | ⟨-, hexec, rfl⟩ | ⟨-, rfl⟩
        · exact hm.executable j
        · exact absurd hexec (hm.executable j)
        · exact hm.executable j
      have hall : ∀ i, (((m.setConn j).setCur c).connState i).executable ≠ 1 := by
        intro i
        rw [Model.setCur_connState]
        split_ifs
        · exact hexec
        · exact hm.executable i
      rcases hm₁ with ⟨-, candidates, -, rfl⟩ | ⟨-, rfl⟩
      · exact hall
      · exact hall
    · obtain ⟨c, k, rfl, hadvances⟩ := Model.execForwarding_advances hnet (hm.fwdMode m.conn) h₁
      apply hm.setCur
      rcases advances_executable hadvances with hsame | hzero
      · rw [hsame]
        exact hm.executable m.conn
      · rw [hzero]
        decide
    · rcases Model.execOpenflow_cases h₁ with ⟨-, rfl⟩ | ⟨-, rfl⟩ |
        ⟨_, _, _, _, _, -, -, -, -, -, rfl⟩
      · exact hm.executable
      · exact hm.executable
      · exact hm.setCur (hm.executable m.conn)
  exact ⟨hconn, hnum.trans_le hm.numConns, hslots, hmode, hprocess⟩

theorem starts_alternates {inv : CheckedInvariant} {m₀ : Model} (hinv : inv.Starts P m₀ m)
    (hlen : inv.conns ≠ [] ∧ inv.conns.length ≤ 2) (hrest : ∀ i, (m₀.connState i).executable ≠ 1)
    (hmode : m₀.NoneInjected) : Alternates (m.setProcessId .forwarding) := by
  have hslot : ∀ i, (m.connState i).executable ≠ 1 ∧ (m.connState i).fwdMode ≠ .chooseInjRes := by
    intro i
    rcases Nat.lt_or_ge i inv.conns.length with hlt | hge
    · have hstart := hinv.slot i inv.conns[i] (List.getElem?_eq_getElem hlt)
      rw [hstart.executable, hstart.fwdMode]
      decide
    · rw [hinv.rest i hge]
      exact ⟨hrest i, hmode i⟩
  refine ⟨?_, ?_, fun i => (hslot i).1, fun i => (hslot i).2, fun hchoose => ?_⟩
  · show m.conn < m.numConns
    rw [hinv.conn, hinv.numConns]
    exact List.length_pos_iff.mpr hlen.1
  · show m.numConns ≤ 2
    rw [hinv.numConns]
    exact hlen.2
  · cases hchoose

def AtMostTwo (V : Invariants) : Prop :=
  ∀ k inv, V.current k = some inv → inv.conns ≠ [] ∧ inv.conns.length ≤ 2

theorem step_alternates (hnet : P.network.ModelOnly) (hV : AtMostTwo V)
    (h : P.step V m l = some m') (hm : Alternates m) : Alternates m' := by
  obtain ⟨-, m₁, m₂, r, hcontrol, hcheck, hafter⟩ := Plankton.step_eq_some h
  have hset : Alternates (m.setChoice l.choice) :=
    ⟨hm.conn, hm.numConns, hm.executable, hm.fwdMode, hm.process⟩
  have h₁ : Alternates m₁ := control_alternates hnet hcontrol hset
  obtain ⟨_, v, _, _, hfits, _, hr⟩ := Invariants.checkViolation_cases hcheck
  have hm₂ : m₂ = _ := congrArg Prod.fst hr
  rw [V.conclude_fst] at hm₂
  -- the check may freeze the connection in charge, and makes none executable
  have hexec : v.executable ≠ 1 ∧ (m₁.cur.executable ≠ 2 → v.executable ≠ 2) := by
    rcases hfits.executable with hsame | ⟨hzero, -⟩
    · rw [hsame]
      exact ⟨h₁.executable m₁.conn, id⟩
    · rw [hzero]
      exact ⟨by decide, fun _ => by decide⟩
  have hslots : ∀ i, (m₂.connState i).executable ≠ 1 ∧
      (m₂.connState i).fwdMode ≠ .chooseInjRes := by
    intro i
    have hi : m₂.connState i = (m₁.judge v).connState i := by
      rw [hm₂]
      rfl
    rw [hi, Model.judge_connState]
    split_ifs
    · exact ⟨hexec.1, h₁.fwdMode m₁.conn⟩
    · exact ⟨h₁.executable i, h₁.fwdMode i⟩
  -- a check that asks for the next part starts all connections anew
  cases r with
  | false =>
    obtain rfl := Option.some.inj hafter
    refine ⟨?_, ?_, fun i => (hslots i).1, fun i => (hslots i).2, ?_⟩
    · rw [hm₂]
      exact h₁.conn
    · rw [hm₂]
      exact h₁.numConns
    · intro hp
      have hp₁ : m₁.processId = .chooseConn := by
        rw [hm₂] at hp
        exact hp
      have hcur : m₂.cur = (m₁.judge v).cur := by
        rw [hm₂]
        rfl
      rw [hcur, Model.judge_cur]
      exact hexec.2 (h₁.process hp₁)
  | true =>
    obtain ⟨m₃, h₃, rfl⟩ := Option.map_eq_some_iff.mp (if_pos rfl ▸ hafter : P.reinit V m₂ = _)
    have hrest : ∀ i, ((P.initOpenflow m₂).connState i).executable ≠ 1 ∧
        ((P.initOpenflow m₂).connState i).fwdMode ≠ .chooseInjRes := by
      rw [Plankton.initOpenflow_connState]
      exact hslots
    have hfresh : Alternates (m₃.setProcessId .forwarding) := by
      cases V with
      | single _ => simp [Invariants.reinit] at h₃
      | conditional invs | consistency invs =>
        obtain ⟨inv', hinv', hinit⟩ := Option.bind_eq_some_iff.mp h₃
        exact starts_alternates (CheckedInvariant.starts_of_init hinit) (hV _ inv' hinv')
          (fun i => (hrest i).1) fun i => (hrest i).2
    exact ⟨hfresh.conn, hfresh.numConns, hfresh.executable, hfresh.fwdMode, hfresh.process⟩

theorem noneSkipped_of_atMostTwo (hnet : P.network.ModelOnly) (hV : AtMostTwo V) :
    NoneSkipped P V := by
  intro s tr m hs hrun hp hmap
  have hstart : Alternates s := by
    obtain ⟨hps, -, inv, m₀, hinv, hzero, hstarts⟩ := Plankton.initModel_cases hs
    have hrest : ∀ i, (m₀.connState i).executable ≠ 1 ∧
        (m₀.connState i).fwdMode ≠ .chooseInjRes := by
      intro i
      rw [hzero]
      decide
    have hfresh := starts_alternates hstarts (hV 0 inv hinv) (fun i => (hrest i).1)
      fun i => (hrest i).2
    refine ⟨hfresh.conn, hfresh.numConns, hfresh.executable, hfresh.fwdMode, fun hchoose => ?_⟩
    cases hps.symm.trans hchoose
  have hm : Alternates m :=
    (hrun.invariant Alternates hstart fun _ _ hstep => step_alternates hnet hV hstep).1
  have hone : m.connMap 1 = [] := by
    rw [List.eq_nil_iff_forall_not_mem]
    intro i hi
    exact hm.executable i (Model.mem_connMap.mp hi).2.2
  have hsub : m.connMap 2 ⊆ (List.range m.numConns).erase m.conn := by
    intro i hi
    obtain ⟨hlt, -, hexec⟩ := Model.mem_connMap.mp hi
    have hne : i ≠ m.conn := by
      rintro rfl
      exact hm.process hp hexec
    exact (List.mem_erase_of_ne hne).mpr (List.mem_range.mpr hlt)
  have hnodup : (m.connMap 2).Nodup := List.nodup_range.filter _
  have hlen : (m.connMap 2).length ≤ ((List.range m.numConns).erase m.conn).length :=
    (List.subperm_of_subset hnodup hsub).length_le
  rw [List.length_erase_of_mem (List.mem_range.mpr hm.conn), List.length_range] at hlen
  have htwo := hm.numConns
  rw [hone, List.length_nil]
  omega

theorem underWay_initModel {policy : Policy} {conn : Connection} {conns : List Connection}
    (hcourse : P.OnCourse s) (hs : P.initModel (.single ⟨policy, conn :: conns⟩) = some s) :
    UnderWay P s := by
  obtain ⟨hp, hcount, m₀, -, hstarts⟩ := Plankton.initModel_single hs
  have hcur := hstarts.cur (c := conn) rfl
  refine ⟨hcourse.onTrack, hcourse.conn, .inl ⟨hp, hcur.executable, ?_, ?_, fun _ => hcount⟩⟩
  · rw [hcount]
    exact Nat.one_pos
  · intro hforward
    simp [ConnState.AboutToForward, hcur.fwdMode] at hforward

theorem Watch.undecided_starts {policy : Policy} {conn : Connection} {conns : List Connection}
    {W : Watch P policy (conn :: conns)} {m₀ : Model} {c : ConnState} (hmiss : W.miss c)
    (hs : CheckedInvariant.Starts ⟨policy, conn :: conns⟩ P m₀ s) : W.Undecided s := by
  constructor
  · intro i hi _ hpast
    rw [hs.numConns] at hi
    exact absurd hpast (W.past_starts (hs.slot i _ (List.getElem?_eq_getElem hi)) hmiss)
  · have hcur := hs.slot 0 conn rfl
    refine ⟨0, ?_, W.past_starts hcur hmiss, ?_⟩
    · rw [hs.numConns]
      exact Nat.succ_pos _
    · simp [ConnState.isFinished, hcur.executable]

theorem finds_iff_of_watch {policy : Policy} {conn : Connection} {conns : List Connection}
    (W : Watch P policy (conn :: conns)) (hP : P.Steady)
    (hconns : ∀ c ∈ conn :: conns, P.Sendable c) (hV : V = .single ⟨policy, conn :: conns⟩) :
    FindsViolation P V (P.step V) ↔ FindsViolation P V (step P V) := by
  subst hV
  refine ⟨finds_of_finds, ?_⟩
  rintro ⟨s, tr, t, hs, hrun, -, hviolated⟩
  have hcourse : P.OnCourse s := Plankton.onCourse_initModel hP.updates hconns hs
  have hunderWay : UnderWay P s := underWay_initModel hcourse hs
  obtain ⟨-, -, m₀, -, hstarts⟩ := Plankton.initModel_single hs
  have hunmet : W.Unmet s := W.unmet_starts hstarts
  have hquiet : s.violated = false := hstarts.violated.trans W.initViolated
  rcases W.cases_of_run hP hrun hunderWay hunmet hquiet hviolated with
    ⟨hverdict, i, hi, hmeet⟩ | ⟨hverdict, ⟨c, hmiss⟩, havoids⟩
  · obtain ⟨tr', t', hrun', hend⟩ :=
      W.run_of_canMeet hP hverdict hcourse hunderWay hunmet hi hmeet
    exact ⟨s, tr', t', hs, hrun', hend⟩
  · obtain ⟨tr', t', hrun', hend⟩ := W.run_of_avoids hP hverdict hcourse hunderWay hunmet
      (W.undecided_starts hmiss hstarts) havoids
    exact ⟨s, tr', t', hs, hrun', hend⟩

theorem several_starts {policy : Policy} {conn d : Connection} {conns : List Connection}
    {m₀ : Model} (hzero : ∀ i, m₀.connState i = .zero)
    (hs : CheckedInvariant.Starts ⟨policy, conn :: d :: conns⟩ P m₀ s) : Several s := by
  have hfresh : ∀ i < s.numConns, Fresh (s.connState i) ∧ (s.connState i).executable = 2 := by
    intro i hi
    rw [hs.numConns] at hi
    have hstarts := hs.slot i _ (List.getElem?_eq_getElem hi)
    refine ⟨⟨hstarts.fwdMode, ?_, ?_⟩, hstarts.executable⟩
    · rw [hstarts.protoState]
      exact (firstProtoState_upToReply _).2
    · rw [hs.visitedHops, hzero]
      rfl
  refine ⟨?_, fun i hi _ => .inr (hfresh i hi).1, 1, ?_, ?_, ?_⟩
  · intro i hi v hv
    cases (hfresh i hi).1.visitedHops.symm.trans hv
  · rw [hs.numConns]
    exact Nat.succ_lt_succ (Nat.succ_pos _)
  · rw [hs.conn]
    exact one_ne_zero
  · rw [(hs.slot 1 d rfl).executable]

theorem finds_iff_of_loop {conn : Connection} {conns : List Connection} (hP : P.Steady)
    (hconns : ∀ c ∈ conn :: conns, P.Sendable c) (hV : V = Loop.invariants (conn :: conns)) :
    FindsViolation P V (P.step V) ↔ FindsViolation P V (step P V) := by
  subst hV
  cases conns with
  | nil =>
    apply finds_iff_of_noneSkipped
    apply noneSkipped_of_atMostTwo hP.modelOnly
    intro _ inv hinv
    obtain rfl := Option.some.inj hinv
    exact ⟨List.cons_ne_nil _ _, Nat.le_succ 1⟩
  | cons d conns =>
    refine ⟨finds_of_finds, ?_⟩
    rintro ⟨s, -, -, hs, -, -, -⟩
    have hcourse : P.OnCourse s := Plankton.onCourse_initModel hP.updates hconns hs
    obtain ⟨-, -, m₀, hzero, hstarts⟩ := Plankton.initModel_single hs
    obtain ⟨tr, t, hrun, hend⟩ := run_of_several _ hP hcourse (underWay_initModel hcourse hs)
      (several_starts hzero hstarts)
    exact ⟨s, tr, t, hs, hrun, hend⟩

theorem finds_iff_of_oneRequest {targetNodes : List NodePtr} {conn : Connection}
    {conns : List Connection} (hP : P.Steady) (hconns : ∀ c ∈ conn :: conns, P.Sendable c)
    (hV : V = OneRequest.invariants targetNodes (conn :: conns)) :
    FindsViolation P V (P.step V) ↔ FindsViolation P V (step P V) := by
  subst hV
  refine ⟨finds_of_finds, ?_⟩
  rintro ⟨s, -, -, hs, -, -, -⟩
  have hcourse : P.OnCourse s := Plankton.onCourse_initModel hP.updates hconns hs
  obtain ⟨tr, t, hrun, hend⟩ := run_complete hP hcourse (underWay_initModel hcourse hs)
  exact ⟨s, tr, t, hs, hrun, hend,
    OneRequest.run_violated hrun (OneRequest.violated_initModel hs)⟩

/-- The invariants that find the same in every order. -/
inductive OrderFree (P : Plankton) (conns : List Connection) : Policy → Prop
  | waypoint (targetNodes : List NodePtr) (passThrough : Bool) :
      OrderFree P conns (.waypoint targetNodes passThrough)
  | reachability (targetNodes : List NodePtr) (reachable : Bool) :
      OrderFree P conns (.reachability targetNodes reachable)
  | replyReachability (targetNodes : List NodePtr) (reachable : Bool)
      (hopens : OpensAtTargets P targetNodes conns) :
      OrderFree P conns (.replyReachability targetNodes reachable)
  | loop : OrderFree P conns .loop
  | oneRequest (targetNodes : List NodePtr) : OrderFree P conns (.oneRequest targetNodes)

theorem finds_iff_of_orderFree {policy : Policy} {conn : Connection} {conns : List Connection}
    (hP : P.Steady) (hconns : ∀ c ∈ conn :: conns, P.Sendable c)
    (hfree : OrderFree P (conn :: conns) policy) (hV : V = .single ⟨policy, conn :: conns⟩) :
    FindsViolation P V (P.step V) ↔ FindsViolation P V (step P V) := by
  cases hfree with
  | waypoint targetNodes passThrough =>
    exact finds_iff_of_watch (waypointWatch P targetNodes passThrough _) hP hconns hV
  | reachability targetNodes reachable =>
    exact finds_iff_of_watch (reachabilityWatch P targetNodes reachable _) hP hconns hV
  | replyReachability targetNodes reachable hopens =>
    exact finds_iff_of_watch (replyReachabilityWatch targetNodes reachable _ hopens) hP hconns hV
  | loop => exact finds_iff_of_loop hP hconns hV
  | oneRequest => exact finds_iff_of_oneRequest hP hconns hV

/-- The order in which connections are chosen does not matter: there is no other order, or every
connection comes to an end whatever the others do, and the invariant finds the same in any order. -/
inductive OrderIrrelevant (P : Plankton) (V : Invariants) : Prop
  | noneSkipped (hskip : NoneSkipped P V)
  | atMostTwo (hnet : P.network.ModelOnly) (hV : AtMostTwo V)
  | orderFree {policy : Policy} {conn : Connection} {conns : List Connection} (hP : P.Steady)
      (hconns : ∀ c ∈ conn :: conns, P.Sendable c) (hfree : OrderFree P (conn :: conns) policy)
      (hV : V = .single ⟨policy, conn :: conns⟩)

theorem finds_iff (h : OrderIrrelevant P V) :
    FindsViolation P V (P.step V) ↔ FindsViolation P V (step P V) := by
  cases h with
  | noneSkipped hskip => exact finds_iff_of_noneSkipped hskip
  | atMostTwo hnet hV => exact finds_iff_of_noneSkipped (noneSkipped_of_atMostTwo hnet hV)
  | orderFree hP hconns hfree hV => exact finds_iff_of_orderFree hP hconns hfree hV

/-- What the scheduler without the patch finds is what the other one finds where it continues the
first executable connection; that is all it finds where the order is irrelevant. -/
theorem verdicts_preserved (P : Plankton) (V : Invariants) :
    (FindsViolation P V (P.step V) ↔ FindsViolationInOrder P V) ∧
      (FindsViolation P V (P.step V) → FindsViolation P V (step P V)) ∧
      (OrderIrrelevant P V →
        (FindsViolation P V (P.step V) ↔ FindsViolation P V (step P V))) :=
  ⟨finds_iff_inOrder, finds_of_finds, finds_iff⟩

theorem control_results (hnet : P.network.ModelOnly) (results results' : List InjectionResult) :
    P.control results m = P.control results' m := by
  have hcollect : m.collectNextHops P results = m.collectNextHops P results' := by
    unfold Model.collectNextHops
    rw [if_neg (by simp [hnet m.cur.pktLocation]), if_neg (by simp [hnet m.cur.pktLocation])]
  have hforward : m.execForwarding P results = m.execForwarding P results' := by
    unfold Model.execForwarding Model.firstCollect
    rw [hcollect]
  unfold Plankton.control
  rw [hforward]

theorem step_forced {inv : CheckedInvariant} {l' : Label} (hnet : P.network.ModelOnly)
    (hone : m.choiceCount = 1) (h : P.step (.single inv) m l = some m')
    (h' : P.step (.single inv) m l' = some n) : n = m' := by
  obtain ⟨hlt, m₁, hcontrol, hcheck⟩ := Plankton.step_single h
  obtain ⟨hlt', n₁, hcontrol', hcheck'⟩ := Plankton.step_single h'
  have hzero : l.choice = 0 := by omega
  have hzero' : l'.choice = 0 := by omega
  rw [hzero] at hcontrol
  rw [hzero', control_results hnet l'.results l.results] at hcontrol'
  obtain rfl : n₁ = m₁ := Option.some.inj (hcontrol'.symm.trans hcontrol)
  exact Option.some.inj (hcheck'.symm.trans hcheck)

section Pair

open Plankton (pairPlankton pairConn pair_modelOnly pair_linked pairPlankton_loopFree pairConn_isEc
  go)

def backConn : Connection :=
  { pairConn false .udp with
    srcNode := 1
    dstIpEc := ((pairPlankton false).ecs.findEc 0x0A000000#32).getD 0 }

def pairConns : List Connection :=
  [pairConn false .udp, backConn, { pairConn false .udp with srcPort := 101#16 }]

theorem pairConns_sendable : ∀ c ∈ pairConns, (pairPlankton false).Sendable c := by
  have hsend : ∀ n : NodePtr, n = 0 ∨ n = 1 → (pairPlankton false).network.CanSend n := by
    rintro n (rfl | rfl) i hi hl2
    · obtain rfl := List.mem_singleton.mp hi
      exact absurd hl2 (by decide)
    · obtain rfl := List.mem_singleton.mp hi
      exact absurd hl2 (by decide)
  have hback : (pairPlankton false).IsEc backConn.dstIpEc := by
    have hsome : ((pairPlankton false).ecs.findEc 0x0A000000#32).isSome = true := by
      decide +kernel
    obtain ⟨ec, hec⟩ := Option.isSome_iff_exists.mp hsome
    refine ⟨0x0A000000#32, ?_⟩
    rw [backConn, hec]
    rfl
  have hforth : (pairPlankton false).IsEc (pairConn false .udp).dstIpEc := pairConn_isEc false .udp
  intro c hc
  simp only [pairConns, List.mem_cons, List.not_mem_nil, or_false] at hc
  rcases hc with rfl | rfl | rfl
  · exact ⟨List.mem_cons_self .., hforth, rfl, hsend 0 (.inl rfl)⟩
  · exact ⟨List.mem_cons_of_mem _ (List.mem_cons_self ..), hback, rfl, hsend 1 (.inr rfl)⟩
  · exact ⟨List.mem_cons_self .., hforth, rfl, hsend 0 (.inl rfl)⟩

def exceeds (counts : ReachCounts) : Bool :=
  let a := counts.count (some 0)
  let b := counts.count (some 1)
  decide (3 * (a + b) < 2 * (a - b + (b - a)) ^ 2)

def pairLoad : Invariants := .single ⟨.loadBalance [0, 1] exceeds, pairConns⟩

theorem verdicts_preserved_pair :
    FindsViolation (pairPlankton false) (Waypoint.invariants [1] false pairConns)
        ((pairPlankton false).step (Waypoint.invariants [1] false pairConns)) ↔
      FindsViolation (pairPlankton false) (Waypoint.invariants [1] false pairConns)
        (step (pairPlankton false) (Waypoint.invariants [1] false pairConns)) :=
  (verdicts_preserved _ _).2.2 (.orderFree
    ⟨pair_modelOnly false, pair_linked false, rfl, pairPlankton_loopFree false⟩
    pairConns_sendable (.waypoint [1] false) rfl)

/-- Two datagrams arrive at the second node before one arrives at the first, or the other way
round: only in the first order the dispersion index exceeds its maximum on the way. -/
theorem not_verdicts_preserved : ¬ ∀ (P : Plankton) (V : Invariants),
    FindsViolation P V (P.step V) ↔ FindsViolation P V (step P V) := by
  intro h
  have hrun : (((pairPlankton false).initModel pairLoad).bind fun s =>
      (execute (step (pairPlankton false) pairLoad) s
        (List.replicate 5 go ++ ⟨1, [], none⟩ :: List.replicate 4 go)).map fun r =>
          (r.2.choiceCount, r.2.violated)) = some (0, true) := by
    decide +kernel
  have hfinds :
      FindsViolation (pairPlankton false) pairLoad (step (pairPlankton false) pairLoad) := by
    obtain ⟨s, hs, hrun⟩ := Option.bind_eq_some_iff.mp hrun
    obtain ⟨⟨tr, t⟩, hexec, hr⟩ := Option.map_eq_some_iff.mp hrun
    obtain ⟨hend, hviolated⟩ := Prod.mk.inj hr
    exact ⟨s, tr, t, hs, run_of_execute hexec, hend, hviolated⟩
  obtain ⟨s, tr, t, hs, hrun, hend, hviolated⟩ := (h (pairPlankton false) pairLoad).mpr hfinds
  -- without the patch there is one run only
  have honly : (((pairPlankton false).initModel pairLoad).bind fun s =>
      (execute ((pairPlankton false).step pairLoad) s (List.replicate 20 go)).map fun r =>
        (r.2.choiceCount, r.2.violated, r.1.all fun l => l.before.choiceCount == 1)) =
          some (0, false, true) := by
    decide +kernel
  rw [hs, Option.bind_some] at honly
  obtain ⟨⟨tr', t'⟩, hexec, hr⟩ := Option.map_eq_some_iff.mp honly
  simp only [Prod.mk.injEq] at hr
  obtain ⟨hend', hviolated', hall⟩ := hr
  have hrun' : Run ((pairPlankton false).step pairLoad) s tr' t' := run_of_execute hexec
  have hone : ∀ l ∈ tr', l.before.choiceCount = 1 := by
    simpa using hall
  have hforced : ∀ l ∈ tr', ∀ a s', (pairPlankton false).step pairLoad l.before a = some s' →
      s' = l.after := by
    intro l hl a s' hstep
    exact step_forced (pair_modelOnly false) (hone l hl) (hrun'.link l hl) hstep
  rcases hrun'.forced hforced hrun with ⟨l, hl, rfl⟩ | ⟨tr'', hrest⟩
  · cases hend.symm.trans (hone l hl)
  · obtain ⟨-, rfl⟩ := Plankton.run_of_choiceCount hrest hend'
    cases hviolated.symm.trans hviolated'

end Pair

end Unoptimized

end Neo
