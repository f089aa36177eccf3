import Neo.Process.Frame

/-! The states in which the verification of an invariant starts, first or again: its connections
are set, in order, and nothing else is but the control state. -/

namespace Neo

structure Connection.Starts (c : Connection) (P : Plankton) (st : OpenflowUpdateState)
    (s : ConnState) : Prop where
  executable : s.executable = 2
  protoState : s.protoState = c.firstProtoState
  dstIpEc : s.dstIpEc = some c.dstIpEc
  srcNode : s.srcNode = c.srcNode
  rxNode : s.rxNode = none
  fwdMode : s.fwdMode = .firstCollect
  pktLocation : s.pktLocation = c.srcNode
  candidates : s.candidates = none
  fib : P.openflow.updateFib st (P.ecs.ranges c.dstIpEc) = some s.fib
  txNode : s.txNode = c.srcNode
  srcIp : s.srcIp = c.srcIp
  pathChoices : s.pathChoices = []

namespace Connection

variable {P : Plankton} {m m' : Model}

theorem init_cases {c : Connection} {i : Nat} (h : c.init P i m = some m') :
    ∃ s, m' = m.setSlot i s ∧ c.Starts P m.openflowUpdateState s ∧
      s.visitedHops = (m.connState i).visitedHops := by
  simp only [init, Option.bind_eq_bind, Option.bind_eq_some_iff, Option.pure_def,
    Option.some.injEq] at h
  obtain ⟨payload, -, m₁, hfib, rfl⟩ := h
  obtain ⟨ec, fib, hec, hfib, rfl⟩ := Model.updateFib_cases hfib
  simp only [Model.cur_setCur] at hec
  obtain rfl := Option.some.inj hec
  simp only [Model.cur_setCur, Model.setCur_setCur]
  exact ⟨_, rfl, ⟨rfl, rfl, rfl, rfl, rfl, rfl, rfl, rfl, hfib, rfl, rfl, rfl⟩, rfl⟩

theorem initFrom_cases {cs : List Connection} :
    ∀ {i : Nat} {m m' : Model}, initFrom P cs i m = some m' →
      m' = { m with connState := m'.connState } ∧
      (∀ (j : Nat) (c : Connection), cs[j]? = some c →
        c.Starts P m.openflowUpdateState (m'.connState (i + j))) ∧
      (∀ j, j < i ∨ i + cs.length ≤ j → m'.connState j = m.connState j) ∧
      ∀ j, (m'.connState j).visitedHops = (m.connState j).visitedHops := by
  induction cs with
  | nil =>
    intro i m m' h
    obtain rfl := Option.some.inj h
    exact ⟨rfl, by simp, fun _ _ => rfl, fun _ => rfl⟩
  | cons c cs ih =>
    intro i m m' h
    obtain ⟨m₁, h₁, h⟩ := Option.bind_eq_some_iff.mp h
    obtain ⟨s, rfl, hs, hvis⟩ := init_cases h₁
    obtain ⟨hm', hslot, hrest, hvisited⟩ := ih h
    refine ⟨hm', ?_, ?_, ?_⟩
    · intro j d hd
      cases j with
      | zero =>
        obtain rfl := Option.some.inj hd
        rw [Nat.add_zero, hrest i (.inl (Nat.lt_succ_self i)), Model.setSlot_connState, if_pos rfl]
        exact hs
      | succ j =>
        rw [Nat.add_succ, ← Nat.succ_add]
        exact hslot j d hd
    · intro j hj
      rw [hrest j (by simp at hj; omega), Model.setSlot_connState, if_neg (by simp at hj; omega)]
    · intro j
      rw [hvisited j, Model.setSlot_connState]
      split_ifs with hij
      · rw [hvis, hij]
      · rfl

end Connection

def Policy.initViolated : Policy → Bool
  | .oneRequest _ => true
  | _ => false

structure CheckedInvariant.Starts (inv : CheckedInvariant) (P : Plankton) (m m' : Model) :
    Prop where
  slot : ∀ (i : Nat) (c : Connection), inv.conns[i]? = some c →
    c.Starts P m.openflowUpdateState (m'.connState i)
  rest : ∀ i, inv.conns.length ≤ i → m'.connState i = m.connState i
  visitedHops : ∀ i, (m'.connState i).visitedHops = (m.connState i).visitedHops
  conn : m'.conn = 0
  numConns : m'.numConns = inv.conns.length
  openflowUpdateState : m'.openflowUpdateState = m.openflowUpdateState
  violated : m'.violated = inv.policy.initViolated
  correlatedInvIdx : m'.correlatedInvIdx = m.correlatedInvIdx

namespace CheckedInvariant

variable {P : Plankton} {inv : CheckedInvariant} {m m' : Model}

theorem starts_of_init (h : inv.init P m = some m') : inv.Starts P m m' := by
  simp only [init, Option.bind_eq_bind, Option.bind_eq_some_iff] at h
  obtain ⟨m₁, h₁, h⟩ := h
  obtain ⟨hm₁, hslot, hrest, hvisited⟩ := Connection.initFrom_cases h₁
  simp only [Nat.zero_add, Nat.not_lt_zero, false_or] at hslot hrest
  have hst : m₁.openflowUpdateState = m.openflowUpdateState := congrArg (·.openflowUpdateState) hm₁
  have hidx : m₁.correlatedInvIdx = m.correlatedInvIdx := congrArg (·.correlatedInvIdx) hm₁
  obtain ⟨policy, conns⟩ := inv
  cases policy <;> obtain rfl := Option.some.inj h <;>
    exact ⟨hslot, hrest, hvisited, rfl, rfl, hst, rfl, hidx⟩

theorem Starts.cur (h : inv.Starts P m m') {c : Connection} (hc : inv.conns[0]? = some c) :
    c.Starts P m.openflowUpdateState m'.cur := by
  have := h.slot 0 c hc
  rwa [Model.cur, h.conn]

end CheckedInvariant

namespace Plankton

variable {P : Plankton} {inv : CheckedInvariant} {m s : Model}

theorem initOpenflow_connState (P : Plankton) (m : Model) :
    (P.initOpenflow m).connState = m.connState := by
  unfold initOpenflow
  split_ifs <;> rfl

theorem initOpenflow_correlatedInvIdx (P : Plankton) (m : Model) :
    (P.initOpenflow m).correlatedInvIdx = m.correlatedInvIdx := by
  unfold initOpenflow
  split_ifs <;> rfl

theorem initModel_cases {V : Invariants} (h : P.initModel V = some s) :
    s.processId = .forwarding ∧ s.choiceCount = 1 ∧ ∃ (inv : CheckedInvariant) (m₀ : Model),
      V.current 0 = some inv ∧ (∀ i, m₀.connState i = .zero) ∧ inv.Starts P m₀ s := by
  obtain ⟨m₁, h₁, rfl⟩ := Option.map_eq_some_iff.mp h
  refine ⟨rfl, rfl, ?_⟩
  have hzero : ∀ i, (P.initOpenflow .zero).connState i = .zero := by
    intro i
    rw [initOpenflow_connState]
    rfl
  cases V with
  | single inv =>
    obtain ⟨hslot, hrest, hvisited, hconn, hnum, hst, hviol, hidx⟩ :=
      CheckedInvariant.starts_of_init (h₁ : inv.init P (P.initOpenflow .zero) = some m₁)
    exact ⟨inv, P.initOpenflow .zero, rfl, hzero,
      hslot, hrest, hvisited, hconn, hnum, hst, hviol, hidx⟩
  | conditional invs | consistency invs =>
    obtain ⟨inv, hinv, hinit⟩ := Option.bind_eq_some_iff.mp h₁
    obtain ⟨hslot, hrest, hvisited, hconn, hnum, hst, hviol, hidx⟩ :=
      CheckedInvariant.starts_of_init hinit
    exact ⟨inv, (P.initOpenflow .zero).setCorrelatedInvIdx 0, hinv, hzero,
      hslot, hrest, hvisited, hconn, hnum, hst, hviol, hidx⟩

theorem initModel_single (h : P.initModel (.single inv) = some s) :
    s.processId = .forwarding ∧ s.choiceCount = 1 ∧ ∃ m₀ : Model,
      (∀ i, m₀.connState i = .zero) ∧ inv.Starts P m₀ s := by
  obtain ⟨hp, hcount, inv', m₀, hinv, hzero, hstarts⟩ := initModel_cases h
  obtain rfl := Option.some.inj hinv
  exact ⟨hp, hcount, m₀, hzero, hstarts⟩

theorem initModel_slots {V : Invariants} (Q : ConnState → Prop) (hzero : Q .zero)
    (hstart : ∀ (c : Connection) st s, c.Starts P st s → Q s) (h : P.initModel V = some s) :
    ∀ i, Q (s.connState i) := by
  obtain ⟨-, -, inv, m₀, -, hm₀, hstarts⟩ := initModel_cases h
  intro i
  rcases Nat.lt_or_ge i inv.conns.length with hlt | hge
  · exact hstart _ _ _ (hstarts.slot i inv.conns[i] (List.getElem?_eq_getElem hlt))
  · rw [hstarts.rest i hge, hm₀]
    exact hzero

theorem step_slots {V : Invariants} {l : Label} {m' : Model} (Q : ConnState → Prop)
    (hstart : ∀ (c : Connection) st s, c.Starts P st s → Q s)
    (hjudge : ∀ (c : ConnState) executable visitedHops, Q c →
      Q { c with executable := executable, visitedHops := visitedHops })
    (h : P.step V m l = some m')
    (hcontrol : ∀ m₁, P.control l.results (m.setChoice l.choice) = some m₁ →
      ∀ i, Q (m₁.connState i)) : ∀ i, Q (m'.connState i) := by
  obtain ⟨-, m₁, m₂, r, hstep, hcheck, hafter⟩ := step_eq_some h
  obtain ⟨inv, v, -, -, -, -, hr⟩ := Invariants.checkViolation_cases hcheck
  have hm₂ : m₂.connState = (m₁.judge v).connState := by
    have hfst := V.conclude_fst l.result (m₁.judge v)
    rw [← hr] at hfst
    rw [show m₂ = _ from hfst]
    rfl
  have hjudged : ∀ i, Q (m₂.connState i) := by
    intro i
    rw [hm₂, Model.judge_connState]
    split_ifs with hi
    · exact hjudge _ _ _ (hcontrol m₁ hstep m₁.conn)
    · exact hcontrol m₁ hstep i
  cases r with
  | false => exact Option.some.inj hafter ▸ hjudged
  | true =>
    obtain ⟨m₃, h₃, rfl⟩ := Option.map_eq_some_iff.mp (if_pos rfl ▸ hafter : P.reinit V m₂ = _)
    intro i
    cases V with
    | single _ => simp [Invariants.reinit] at h₃
    | conditional invs | consistency invs =>
      obtain ⟨inv', -, hinit⟩ := Option.bind_eq_some_iff.mp h₃
      have hstarts := CheckedInvariant.starts_of_init hinit
      show Q (m₃.connState i)
      rcases Nat.lt_or_ge i inv'.conns.length with hlt | hge
      · exact hstart _ _ _ (hstarts.slot i inv'.conns[i] (List.getElem?_eq_getElem hlt))
      · rw [hstarts.rest i hge, initOpenflow_connState]
        exact hjudged i

theorem step_single {l : Label} {m' : Model} (h : P.step (.single inv) m l = some m') :
    l.choice < m.choiceCount ∧ ∃ m₁, P.control l.results (m.setChoice l.choice) = some m₁ ∧
      m₁.checkPolicy inv.policy = some m' := by
  obtain ⟨hlt, m₁, m₂, r, hcontrol, hcheck, hafter⟩ := step_eq_some h
  refine ⟨hlt, m₁, hcontrol, ?_⟩
  obtain ⟨m₃, h₃, h₄⟩ := Option.bind_eq_some_iff.mp (hcheck : (m₁.checkPolicy inv.policy).bind
    (fun m => some (m, false)) = some (m₂, r))
  obtain ⟨rfl, rfl⟩ := Prod.mk.inj (Option.some.inj h₄)
  rw [h₃]
  exact hafter

theorem forwards_conn {l : Label} {m' : Model} (h : P.step (.single inv) m l = some m')
    (hf : Forwards m m') : m'.conn = m.conn := by
  obtain ⟨-, m₁, hcontrol, hcheck⟩ := step_single h
  obtain ⟨v, hv, -⟩ := Model.checkPolicy_judges hcheck
  obtain rfl := Option.some.inj (hv.checkPolicy.symm.trans hcheck)
  have hconn : m₁.conn = (m.setChoice l.choice).conn := control_conn hcontrol hf.1
  exact hconn

end Plankton

end Neo
