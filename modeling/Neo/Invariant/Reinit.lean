import Neo.Invariant.Correlated
import Neo.PktHist
import Neo.Process.Alike
import Neo.Process.Independence
import Neo.Process.Progress

/-! Starting the verification of the next one of correlated invariants. Everything its connections
read is as at a fresh start, but for the hops that are recorded in their slots, and for what the
slots behind hold that a middlebox may open. -/

namespace Neo

namespace Connection

variable {P : Plankton} {m m' : Model}

def slot (c : Connection) (P : Plankton) (st : OpenflowUpdateState) : Option ConnState :=
  (P.openflow.updateFib st (P.ecs.ranges c.dstIpEc)).map fun fib =>
    { executable := 2
      protoState := c.firstProtoState
      srcIp := c.srcIp
      dstIpEc := some c.dstIpEc
      srcPort := c.srcPort
      dstPort := c.dstPort
      seq := c.seq
      ack := c.ack
      payload := none
      srcNode := c.srcNode
      txNode := c.srcNode
      rxNode := none
      fwdMode := .firstCollect
      pktLocation := c.srcNode
      ingressIntf := none
      candidates := none
      injResults := none
      fib := fib
      pathChoices := []
      visitedHops := none }

def fillFrom (ss : List ConnState) (i : Nat) (m : Model) : Model :=
  { m with connState := fun j =>
      match if i ≤ j then ss[j - i]? else none with
      | some s => { s with visitedHops := (m.connState j).visitedHops }
      | none => m.connState j }

theorem fillFrom_nil (i : Nat) (m : Model) : fillFrom [] i m = m := by
  have hslots : (fillFrom [] i m).connState = m.connState := by
    funext j
    unfold fillFrom
    dsimp only
    split_ifs <;> rfl
  show { m with connState := (fillFrom [] i m).connState } = m
  rw [hslots]

theorem fillFrom_cons (s : ConnState) (ss : List ConnState) (i : Nat) (m : Model) :
    fillFrom (s :: ss) i m = fillFrom ss (i + 1)
      (m.setSlot i { s with visitedHops := (m.connState i).visitedHops }) := by
  have hslots : (fillFrom (s :: ss) i m).connState = (fillFrom ss (i + 1)
      (m.setSlot i { s with visitedHops := (m.connState i).visitedHops })).connState := by
    funext j
    unfold fillFrom
    dsimp only
    rw [Model.setSlot_connState]
    rcases Nat.lt_trichotomy j i with hlt | rfl | hgt
    · rw [if_neg (by omega), if_neg (by omega), if_neg (by omega)]
    · rw [if_pos (le_refl j), if_neg (by omega), if_pos rfl, Nat.sub_self]
      rfl
    · have hsucc : j - i = j - (i + 1) + 1 := by omega
      rw [if_pos hgt.le, if_pos (Nat.succ_le_of_lt hgt), if_neg hgt.ne', hsucc,
        List.getElem?_cons_succ]
  show { m with connState := (fillFrom (s :: ss) i m).connState } = _
  rw [hslots]
  rfl

theorem init_eq (c : Connection) (P : Plankton) (i : Nat) (m : Model) :
    c.init P i m = (c.slot P m.openflowUpdateState).map fun s =>
      m.setSlot i { s with visitedHops := (m.connState i).visitedHops } := by
  have hpayload : ∀ n : Model, n.cur.protoState = c.firstProtoState →
      n.getPayloadFromModel P = some none := by
    intro n hn
    unfold Model.getPayloadFromModel
    rw [hn, firstProtoState]
    cases c.protocol <;> rfl
  unfold init
  dsimp only
  rw [hpayload _ (by rw [Model.cur_setCur])]
  unfold slot Model.updateFib
  simp only [Model.cur_setCur, Model.setCur_setCur, Option.bind_eq_bind, Option.bind_some]
  show (Option.bind (P.openflow.updateFib m.openflowUpdateState _) _).bind _ = _
  cases P.openflow.updateFib m.openflowUpdateState (P.ecs.ranges c.dstIpEc) with
  | none => rfl
  | some fib =>
    simp only [Option.bind_some, Option.map_some, Option.pure_def, Model.setCur_setCur,
      Model.cur_setCur]
    rfl

theorem initFrom_eq (P : Plankton) (cs : List Connection) :
    ∀ (i : Nat) (m : Model), initFrom P cs i m =
      (cs.mapM fun (c : Connection) => c.slot P m.openflowUpdateState).map fun ss =>
        fillFrom ss i m := by
  induction cs with
  | nil =>
    intro i m
    show some m = some (fillFrom [] i m)
    rw [fillFrom_nil]
  | cons c cs ih =>
    intro i m
    rw [initFrom, init_eq, List.mapM_cons]
    cases c.slot P m.openflowUpdateState with
    | none => rfl
    | some s =>
      rw [Option.map_some, Option.bind_some, ih]
      show Option.map _ (cs.mapM fun (c : Connection) => c.slot P m.openflowUpdateState) = _
      cases cs.mapM fun (c : Connection) => c.slot P m.openflowUpdateState with
      | none => rfl
      | some ss =>
        rw [Option.map_some]
        exact congrArg some (fillFrom_cons s ss i m).symm

end Connection

namespace CheckedInvariant

variable {P : Plankton} {inv : CheckedInvariant} {m : Model}

def setControl (inv : CheckedInvariant) (m : Model) : Model :=
  let m := (m.setConn 0).setNumConns inv.conns.length
  match inv.policy with
  | .oneRequest _ => (m.setViolated true).setReachCounts []
  | .loadBalance _ _ => (m.setViolated false).setReachCounts []
  | _ => m.setViolated false

theorem init_eq (inv : CheckedInvariant) (P : Plankton) (m : Model) :
    inv.init P m =
      (inv.conns.mapM fun (c : Connection) => c.slot P m.openflowUpdateState).map fun ss =>
        inv.setControl (Connection.fillFrom ss 0 m) := by
  unfold init setControl
  rw [Connection.initFrom_eq]
  cases inv.conns.mapM fun (c : Connection) => c.slot P m.openflowUpdateState with
  | none => rfl
  | some ss =>
    rw [Option.map_some, Option.bind_eq_bind, Option.bind_some, Option.map_some]
    dsimp only
    cases inv.policy <;> rfl

end CheckedInvariant

structure FullState where
  model : Model
  pktHist : PacketHistory

namespace Plankton

variable (P : Plankton) (V : Invariants)

def initFull : Option FullState := (P.initModel V).map fun m => ⟨m, .init⟩

def reinitFull (s : FullState) : Option FullState := (P.reinit V s.model).map fun m => ⟨m, .init⟩

def verdictAlong : Model → List Label → Option Bool
  | _, [] => none
  | m, l :: ls =>
    if l.choice < m.choiceCount then
      match P.outcome V m l with
      | some o => some o
      | none => (P.step V m l).bind fun m' => verdictAlong m' ls
    else none

/-- The slots that the verification of an invariant alone, from the state in which it starts, comes
to use: those of its connections, and those that a middlebox opens in some run. -/
def uses (inv : CheckedInvariant) (s₀ : Model) : Set Nat :=
  {j | ∃ tr t, Run (P.step (.single inv)) s₀ tr t ∧ (j < t.numConns ∨ j = t.conn)}

end Plankton

/-- Two states in which an invariant starts agree on all slots that it comes to use, on the control
state, the histories and the counters, and on whatever its check reads. -/
structure Agrees (P : Plankton) (inv : CheckedInvariant) (s s₀ : FullState) : Prop where
  connState : ∀ j ∈ P.uses inv s₀.model, s.model.connState j = s₀.model.connState j
  processId : s.model.processId = s₀.model.processId
  choice : s.model.choice = s₀.model.choice
  choiceCount : s.model.choiceCount = s₀.model.choiceCount
  conn : s.model.conn = s₀.model.conn
  numConns : s.model.numConns = s₀.model.numConns
  pktHist : s.pktHist = s₀.pktHist
  openflowUpdateState : s.model.openflowUpdateState = s₀.model.openflowUpdateState
  violated : s.model.violated = s₀.model.violated
  reachCounts : inv.policy.counts = true → s.model.reachCounts = s₀.model.reachCounts

namespace Plankton

variable {P : Plankton} {V : Invariants} {inv : CheckedInvariant} {m n s : Model}

/-! ### Steps of an invariant, alone or in its place -/

def checked (P : Plankton) (inv : CheckedInvariant) (l : Label) (m : Model) : Option Model :=
  (P.control l.results (m.setChoice l.choice)).bind fun m => m.checkPolicy inv.policy

theorem checked_correlatedInvIdx {l : Label} {m' : Model} (h : P.checked inv l m = some m') :
    m'.correlatedInvIdx = m.correlatedInvIdx := by
  obtain ⟨m₁, hcontrol, hcheck⟩ := Option.bind_eq_some_iff.mp h
  obtain ⟨v, hv, -⟩ := Model.checkPolicy_judges hcheck
  obtain rfl := Option.some.inj (hv.checkPolicy.symm.trans hcheck)
  have hidx : m₁.correlatedInvIdx = (m.setChoice l.choice).correlatedInvIdx :=
    control_correlatedInvIdx hcontrol
  exact hidx

theorem outcome_eq (l : Label) (hinv : V.current m.correlatedInvIdx = some inv) :
    P.outcome V m l = (P.checked inv l m).bind fun m' =>
      if m'.choiceCount = 0 then some m'.violated else none := by
  unfold outcome checked
  cases hcontrol : P.control l.results (m.setChoice l.choice) with
  | none => rfl
  | some m₁ =>
    have hidx : m₁.correlatedInvIdx = (m.setChoice l.choice).correlatedInvIdx :=
      control_correlatedInvIdx hcontrol
    have hinv₁ : V.current m₁.correlatedInvIdx = some inv := by
      rw [hidx]
      exact hinv
    rw [Option.bind_eq_bind, Option.bind_some, Option.bind_some, hinv₁]
    rfl

theorem step_eq_checked {l : Label} (hinv : V.current m.correlatedInvIdx = some inv)
    (hlt : l.choice < m.choiceCount) (hnone : P.outcome V m l = none) :
    P.step V m l = P.checked inv l m := by
  rw [outcome_eq l hinv] at hnone
  unfold step execStep
  rw [if_pos hlt]
  unfold checked at hnone ⊢
  cases hcontrol : P.control l.results (m.setChoice l.choice) with
  | none => rfl
  | some m₁ =>
    rw [hcontrol, Option.bind_some] at hnone
    have hidx : m₁.correlatedInvIdx = (m.setChoice l.choice).correlatedInvIdx :=
      control_correlatedInvIdx hcontrol
    have hinv₁ : V.current m₁.correlatedInvIdx = some inv := by
      rw [hidx]
      exact hinv
    have hcheck : V.checkViolation l.result m₁ =
        (m₁.checkPolicy inv.policy).map (V.conclude l.result) := by
      unfold Invariants.checkViolation
      rw [hinv₁, Option.bind_eq_bind, Option.bind_some]
      cases m₁.checkPolicy inv.policy with
      | none => rfl
      | some m₂ => cases V <;> rfl
    rw [Option.bind_eq_bind, Option.bind_some, Option.bind_some, hcheck]
    cases hpolicy : m₁.checkPolicy inv.policy with
    | none => rfl
    | some m₂ =>
      rw [hpolicy, Option.bind_some] at hnone
      have hcount : m₂.choiceCount ≠ 0 := by
        intro hzero
        rw [if_pos hzero] at hnone
        exact absurd hnone (by simp)
      rw [Option.map_some, V.conclude_of_choiceCount l.result hcount]
      rfl

theorem checked_alike {S : Set Nat} (l : Label) (h : Model.Alike inv.policy S m n)
    (hS : ∀ i < n.numConns, i ∈ S) (hlegal : P.openflow.Legal n.openflowUpdateState) :
    Option.Rel (Model.Alike inv.policy S) (P.checked inv l m) (P.checked inv l n) := by
  have hset : ∀ i < (n.setChoice l.choice).numConns, i ∈ S := hS
  exact rel_bind ((h.setChoice l.choice).control hset hlegal) fun _ _ hxy => hxy.checkPolicy

theorem verdictAlong_eq {s₀ : Model} {i : Nat} (hinv : V.current i = some inv)
    (hs₀ : P.initModel (.single inv) = some s₀) (ls : List Label) :
    ∀ {m n : Model} {tr : List (Link Model Label)}, m.correlatedInvIdx = i →
      Run (P.step (.single inv)) s₀ tr n → Model.Alike inv.policy (P.uses inv s₀) m n →
        P.verdictAlong V m ls = P.verdictAlong (.single inv) n ls := by
  induction ls with
  | nil =>
    intro m n tr _ _ _
    rfl
  | cons l ls ih =>
    intro m n tr hidx hrun h
    have hinv₁ : V.current m.correlatedInvIdx = some inv := hidx ▸ hinv
    have hinv₂ : (Invariants.single inv).current n.correlatedInvIdx = some inv := rfl
    have hlegal : P.openflow.Legal n.openflowUpdateState := (run_legal hs₀ hrun).1
    have hchecked := P.checked_alike l h (fun i hi => ⟨tr, n, hrun, .inl hi⟩) hlegal
    have houtcome : P.outcome V m l = P.outcome (.single inv) n l := by
      rw [outcome_eq l hinv₁, outcome_eq l hinv₂]
      generalize P.checked inv l m = x at hchecked
      generalize P.checked inv l n = y at hchecked
      cases hchecked with
      | none => rfl
      | some hxy =>
        rw [Option.bind_some, Option.bind_some, hxy.choiceCount, hxy.violated]
    unfold verdictAlong
    rw [h.choiceCount, houtcome]
    split
    · next hlt =>
      -- the induction goes on as long as the sub-invariant has no outcome
      cases hnone : P.outcome (.single inv) n l with
      | some o => rfl
      | none =>
        have hstep := step_eq_checked hinv₂ hlt hnone
        dsimp only
        rw [step_eq_checked hinv₁ (h.choiceCount ▸ hlt) (houtcome.trans hnone), hstep]
        generalize hx : P.checked inv l m = x at hchecked
        generalize hy : P.checked inv l n = y at hchecked
        cases hchecked with
        | none => rfl
        | some hxy =>
          have hnext := hrun.append (.cons (hstep.trans hy) (.nil _))
          exact ih ((checked_correlatedInvIdx hx).trans hidx) hnext hxy
    · rfl

theorem mem_uses_of_lt {s₀ : Model} {j : Nat} (hj : j < s₀.numConns) : j ∈ P.uses inv s₀ :=
  ⟨[], s₀, .nil s₀, .inl hj⟩

theorem conn_mem_uses (P : Plankton) (inv : CheckedInvariant) (s₀ : Model) :
    s₀.conn ∈ P.uses inv s₀ := ⟨[], s₀, .nil s₀, .inr rfl⟩

theorem lt_of_mem_uses {s₀ : Model} {j : Nat} (hnet : P.network.ModelOnly)
    (hs₀ : P.initModel (.single inv) = some s₀) (hconns : inv.conns ≠ [])
    (hj : j ∈ P.uses inv s₀) : j < inv.conns.length := by
  obtain ⟨tr, t, hrun, hj⟩ := hj
  obtain ⟨-, -, inv', m₀, hinv', -, hstarts⟩ := initModel_cases hs₀
  obtain rfl := Option.some.inj hinv'
  have hstart : s₀.conn < s₀.numConns ∧ s₀.numConns = inv.conns.length := by
    rw [hstarts.conn, hstarts.numConns]
    exact ⟨List.length_pos_iff.mpr hconns, rfl⟩
  have hall := hrun.invariant (fun m => m.conn < m.numConns ∧ m.numConns = inv.conns.length) hstart
  have ht : t.conn < t.numConns ∧ t.numConns = inv.conns.length := by
    apply (hall ?_).1
    intro l hl hstep hbefore
    obtain ⟨tr₁, tr₂, rfl⟩ := List.append_of_mem hl
    have hnone := run_noneInjected hnet hs₀ hrun.around.1
    obtain ⟨-, m₁, hcontrol, hcheck⟩ := step_single hstep
    have hconn := (control_progresses hcontrol hbefore.1).conn
    have hnum : m₁.numConns = (l.before.setChoice l.act.choice).numConns :=
      control_numConns hnet hcontrol hnone
    obtain ⟨v, hv, -⟩ := Model.checkPolicy_judges hcheck
    rw [← Option.some.inj (hv.checkPolicy.symm.trans hcheck)]
    exact ⟨hconn, hnum.trans hbefore.2⟩
  rcases hj with hj | rfl
  · exact hj.trans_eq ht.2
  · exact ht.1.trans_eq ht.2

end Plankton

namespace Reinit

variable {P : Plankton} {V : Invariants} {inv : CheckedInvariant} {m m₁ m₂ n s : Model}
  {l : Label} {tr : List (Link Model Label)} {ss : List ConnState} {s₀ : FullState}

theorem length_of_mapM {α β : Type*} {f : α → Option β} (l : List α) :
    ∀ {bs : List β}, l.mapM f = some bs → bs.length = l.length := by
  induction l with
  | nil =>
    intro bs h
    obtain rfl := Option.some.inj h
    rfl
  | cons a l ih =>
    intro bs h
    rw [List.mapM_cons] at h
    simp only [Option.bind_eq_bind, Option.bind_eq_some_iff] at h
    obtain ⟨b, -, bs', hbs', h⟩ := h
    obtain rfl := Option.some.inj h
    rw [List.length_cons, List.length_cons, ih hbs']

def started (inv : CheckedInvariant) (ss : List ConnState) (m : Model) : Model :=
  Plankton.startForwarding (inv.setControl (Connection.fillFrom ss 0 m))

theorem started_connState (inv : CheckedInvariant) (ss : List ConnState) (m : Model) (j : Nat) :
    (started inv ss m).connState j = match ss[j]? with
      | some s => { s with visitedHops := (m.connState j).visitedHops }
      | none => m.connState j := by
  have hfill : (started inv ss m).connState = (Connection.fillFrom ss 0 m).connState := by
    unfold started CheckedInvariant.setControl
    dsimp only
    cases inv.policy <;> rfl
  rw [hfill]
  unfold Connection.fillFrom
  dsimp only
  rw [if_pos (Nat.zero_le j), Nat.sub_zero]

theorem started_slot (hlen : ss.length = inv.conns.length) {j : Nat} (hj : j < inv.conns.length) :
    ∃ s : ConnState, ∀ m : Model,
      (started inv ss m).connState j = { s with visitedHops := (m.connState j).visitedHops } := by
  refine ⟨ss[j], ?_⟩
  intro m
  rw [started_connState, List.getElem?_eq_getElem (hlen ▸ hj)]

theorem started_behind (hlen : ss.length = inv.conns.length) {j : Nat}
    (hj : inv.conns.length ≤ j) (m : Model) : (started inv ss m).connState j = m.connState j := by
  rw [started_connState, List.getElem?_eq_none (hlen ▸ hj)]

theorem agrees_iff (hlen : ss.length = inv.conns.length)
    (hst : m.openflowUpdateState = n.openflowUpdateState) (hist : PacketHistory) :
    Agrees P inv ⟨started inv ss m, hist⟩ ⟨started inv ss n, hist⟩ ↔
      (∀ j < inv.conns.length, (m.connState j).visitedHops = (n.connState j).visitedHops) ∧
        ∀ j ∈ P.uses inv (started inv ss n), inv.conns.length ≤ j →
          m.connState j = n.connState j := by
  have hctl : ∀ m : Model, (started inv ss m).conn = 0 ∧
      (started inv ss m).numConns = inv.conns.length ∧
      (started inv ss m).openflowUpdateState = m.openflowUpdateState ∧
      (started inv ss m).violated = inv.policy.initViolated ∧
      (inv.policy.counts = true → (started inv ss m).reachCounts = []) := by
    intro m
    unfold started CheckedInvariant.setControl
    dsimp only
    cases inv.policy with
    | oneRequest | loadBalance => exact ⟨rfl, rfl, rfl, rfl, fun _ => rfl⟩
    | _ => exact ⟨rfl, rfl, rfl, rfl, fun hc => absurd hc Bool.false_ne_true⟩
  obtain ⟨hconn, hnum, hstm, hviol, hcounts⟩ := hctl m
  obtain ⟨hconn', hnum', hstn, hviol', hcounts'⟩ := hctl n
  constructor
  · intro h
    constructor
    · intro j hj
      obtain ⟨s, hs⟩ := started_slot hlen hj
      have hcs := h.connState j (Plankton.mem_uses_of_lt (hnum'.symm ▸ hj))
      dsimp only at hcs
      rw [hs, hs] at hcs
      have hvisited := congrArg ConnState.visitedHops hcs
      exact hvisited
    · intro j hj hle
      have hcs := h.connState j hj
      dsimp only at hcs
      rwa [started_behind hlen hle, started_behind hlen hle] at hcs
  · rintro ⟨hvisited, hbehind⟩
    refine ⟨?_, rfl, rfl, rfl, hconn.trans hconn'.symm, hnum.trans hnum'.symm, rfl, ?_,
      hviol.trans hviol'.symm, fun hc => (hcounts hc).trans (hcounts' hc).symm⟩
    · intro j hj
      dsimp only
      rcases Nat.lt_or_ge j inv.conns.length with hlt | hge
      · obtain ⟨s, hs⟩ := started_slot hlen hlt
        rw [hs, hs, hvisited j hlt]
      · rw [started_behind hlen hge, started_behind hlen hge]
        exact hbehind j hj hge
    · dsimp only
      rw [hstm, hstn, hst]

theorem reinitFull_eq (hcurrent : V.current m.correlatedInvIdx = some inv)
    (hV : ∀ inv', V ≠ .single inv') (hist : PacketHistory) :
    P.reinitFull V ⟨m, hist⟩ =
      (inv.conns.mapM fun (c : Connection) =>
        c.slot P (P.initOpenflow m).openflowUpdateState).map fun ss =>
          ⟨started inv ss (P.initOpenflow m), .init⟩ := by
  have hidx : (P.initOpenflow m).correlatedInvIdx = m.correlatedInvIdx := by
    unfold Plankton.initOpenflow
    split_ifs <;> rfl
  have hreinit : V.reinit P (P.initOpenflow m) = inv.init P (P.initOpenflow m) := by
    unfold Invariants.reinit
    cases V with
    | single inv' => exact absurd rfl (hV inv')
    | conditional invs | consistency invs =>
      rw [hidx]
      show Option.bind _ _ = _
      rw [hcurrent]
      rfl
  unfold Plankton.reinitFull Plankton.reinit
  dsimp only
  rw [hreinit, CheckedInvariant.init_eq, Option.map_map, Option.map_map]
  rfl

theorem initFull_eq (inv : CheckedInvariant) (P : Plankton) :
    P.initFull (.single inv) =
      (inv.conns.mapM fun (c : Connection) =>
        c.slot P (P.initOpenflow .zero).openflowUpdateState).map fun ss =>
          ⟨started inv ss (P.initOpenflow .zero), .init⟩ := by
  unfold Plankton.initFull Plankton.initModel
  show Option.map _ (Option.map _ (inv.init P (P.initOpenflow .zero))) = _
  rw [CheckedInvariant.init_eq, Option.map_map, Option.map_map]
  rfl

structure Finished (P : Plankton) (V : Invariants) (m : Model) : Prop where
  reached : ∃ (s before after : Model) (l : Label) (tr : List (Link Model Label)),
    P.initModel V = some s ∧ Run (P.step V) s tr before ∧
      P.control l.results (before.setChoice l.choice) = some after ∧
      V.checkViolation l.result after = some (m, true)

theorem Finished.legal (h : Finished P V m) : P.openflow.Legal m.openflowUpdateState := by
  obtain ⟨s, before, after, l, tr, hs, hrun, hcontrol, hcheck⟩ := h.reached
  have hbefore := (Plankton.run_legal hs hrun).1
  rw [Plankton.checkViolation_openflowUpdateState hcheck]
  exact Plankton.control_legal hcontrol hbefore

theorem Finished.correlated (h : Finished P V m) (inv : CheckedInvariant) : V ≠ .single inv := by
  rintro rfl
  obtain ⟨s, before, after, l, tr, -, -, -, hcheck⟩ := h.reached
  obtain ⟨inv', v, -, -, -, -, hr⟩ := Invariants.checkViolation_cases hcheck
  exact absurd (Prod.mk.inj hr).2 (by decide)

/-- The next part starts as it would alone if and only if no hops are recorded in the slots of its
connections, and the slots that a middlebox opens in it have not been used; then it has the same
outcome whatever happens. -/
theorem reinit_iff (h : Finished P V m) (hcurrent : V.current m.correlatedInvIdx = some inv)
    (hist : PacketHistory) (h₀ : P.initFull (.single inv) = some s₀) :
    ∃ s, P.reinitFull V ⟨m, hist⟩ = some s ∧
      (Agrees P inv s s₀ ↔ (∀ j < inv.conns.length, (m.connState j).visitedHops = none) ∧
        ∀ j ∈ P.uses inv s₀.model, inv.conns.length ≤ j → m.connState j = .zero) ∧
      (Agrees P inv s s₀ →
        ∀ ls, P.verdictAlong V s.model ls = P.verdictAlong (.single inv) s₀.model ls) := by
  have hst : (P.initOpenflow m).openflowUpdateState =
      (P.initOpenflow .zero).openflowUpdateState := by
    rw [P.initOpenflow_zero, Plankton.initOpenflow_legal h.legal]
  have hs₀ : P.initModel (.single inv) = some s₀.model := by
    obtain ⟨m₀, hm₀, rfl⟩ := Option.map_eq_some_iff.mp h₀
    exact hm₀
  rw [initFull_eq, ← hst] at h₀
  obtain ⟨ss, hss, rfl⟩ := Option.map_eq_some_iff.mp h₀
  have hlen : ss.length = inv.conns.length := length_of_mapM inv.conns hss
  refine ⟨_, by rw [reinitFull_eq hcurrent h.correlated, hss]; rfl, ?_, ?_⟩
  · rw [agrees_iff hlen hst, Plankton.initOpenflow_connState, Plankton.initOpenflow_connState]
    rfl
  · intro hagrees ls
    refine Plankton.verdictAlong_eq hcurrent hs₀ ls ?_ (.nil _) ?_
    · show (started inv ss (P.initOpenflow m)).correlatedInvIdx = _
      unfold started CheckedInvariant.setControl Plankton.initOpenflow
      dsimp only
      cases inv.policy <;> split_ifs <;> rfl
    · refine ⟨hagrees.connState, ?_, Plankton.conn_mem_uses P inv _, hagrees.processId,
        hagrees.choice, hagrees.choiceCount, hagrees.conn, hagrees.numConns,
        hagrees.openflowUpdateState, hagrees.violated, hagrees.reachCounts⟩
      intro i hi
      rw [hagrees.connState i (Plankton.mem_uses_of_lt hi)]

section Site

open Waypoint (sitePlankton siteConn)
open Plankton (go)

def twice (policy : Policy) (c : Connection) : Invariants :=
  .consistency [⟨policy, [c]⟩, ⟨policy, [c]⟩]

def finishedAfter (V : Invariants) (steps : Nat) : Option (Model × Bool) :=
  (sitePlankton.initModel V).bind fun s =>
    (execute (sitePlankton.step V) s (List.replicate steps go)).bind fun r =>
      (sitePlankton.control [] (r.2.setChoice 0)).bind fun m => V.checkViolation none m

theorem finished_of_finishedAfter {V : Invariants} {steps : Nat} {m : Model}
    (h : finishedAfter V steps = some (m, true)) : Finished sitePlankton V m := by
  obtain ⟨s, hs, h⟩ := Option.bind_eq_some_iff.mp h
  obtain ⟨⟨tr, before⟩, hexec, h⟩ := Option.bind_eq_some_iff.mp h
  obtain ⟨after, hcontrol, hcheck⟩ := Option.bind_eq_some_iff.mp h
  exact ⟨s, before, after, go, tr, hs, run_of_execute hexec, hcontrol, hcheck⟩

theorem reinit_waypoint : ∃ m s s₀,
    Finished sitePlankton (twice (.waypoint [2] true) (siteConn .udp)) m ∧
      sitePlankton.initFull (.single ⟨.waypoint [2] true, [siteConn .udp]⟩) = some s₀ ∧
      sitePlankton.reinitFull (twice (.waypoint [2] true) (siteConn .udp)) ⟨m, .init⟩ = some s ∧
      Agrees sitePlankton ⟨.waypoint [2] true, [siteConn .udp]⟩ s s₀ := by
  have hrun : (finishedAfter (twice (.waypoint [2] true) (siteConn .udp)) 9).bind (fun r =>
      (sitePlankton.initFull (.single ⟨.waypoint [2] true, [siteConn .udp]⟩)).map fun _ =>
        (r.2, r.1.correlatedInvIdx, (r.1.connState 0).visitedHops.isNone)) =
          some (true, 1, true) := by
    decide +kernel
  obtain ⟨⟨m, r⟩, hm, hrun⟩ := Option.bind_eq_some_iff.mp hrun
  obtain ⟨s₀, hs₀, hr⟩ := Option.map_eq_some_iff.mp hrun
  simp only [Prod.mk.injEq] at hr
  obtain ⟨rfl, hidx, hnone⟩ := hr
  have hfinished := finished_of_finishedAfter hm
  have hcurrent : (twice (.waypoint [2] true) (siteConn .udp)).current m.correlatedInvIdx =
      some ⟨.waypoint [2] true, [siteConn .udp]⟩ := by
    rw [hidx]
    rfl
  obtain ⟨s, hs, hagrees, -⟩ := reinit_iff hfinished hcurrent .init hs₀
  refine ⟨m, s, s₀, hfinished, hs₀, hs, hagrees.mpr ⟨?_, ?_⟩⟩
  · intro j hj
    obtain rfl : j = 0 := Nat.lt_one_iff.mp hj
    exact Option.isNone_iff_eq_none.mp hnone
  · intro j hj hle
    obtain ⟨s₁, hs₁, rfl⟩ := Option.map_eq_some_iff.mp hs₀
    exact absurd (Plankton.lt_of_mem_uses Independence.site_modelOnly hs₁ (List.cons_ne_nil _ _) hj)
      (Nat.not_lt.mpr hle)

/-- A packet of the second host has no route. A loop is reported the second time only, since the
host is still recorded. -/
theorem not_asFresh : ¬ ∀ (P : Plankton) (V : Invariants) (inv : CheckedInvariant) (m : Model)
    (hist : PacketHistory) (s₀ : FullState),
    Finished P V m → V.current m.correlatedInvIdx = some inv →
      P.initFull (.single inv) = some s₀ →
      ∃ s, P.reinitFull V ⟨m, hist⟩ = some s ∧ Agrees P inv s s₀ ∧
        ∀ ls, P.verdictAlong V s.model ls = P.verdictAlong (.single inv) s₀.model ls := by
  intro h
  let c : Connection := { siteConn .udp with srcNode := 2 }
  have hrun : (finishedAfter (twice .loop c) 1).bind (fun r =>
      (sitePlankton.reinitFull (twice .loop c) ⟨r.1, .init⟩).bind fun s =>
        (sitePlankton.initFull (.single ⟨.loop, [c]⟩)).map fun s₀ =>
          ((r.2, r.1.correlatedInvIdx),
            sitePlankton.verdictAlong (twice .loop c) s.model [go, go],
            sitePlankton.verdictAlong (.single ⟨.loop, [c]⟩) s₀.model [go, go])) =
          some ((true, 1), some true, some false) := by
    decide +kernel
  obtain ⟨⟨m, r⟩, hm, hrun⟩ := Option.bind_eq_some_iff.mp hrun
  obtain ⟨s, hs, hrun⟩ := Option.bind_eq_some_iff.mp hrun
  obtain ⟨s₀, hs₀, hr⟩ := Option.map_eq_some_iff.mp hrun
  simp only [Prod.mk.injEq] at hr
  obtain ⟨⟨rfl, hidx⟩, hplace, halone⟩ := hr
  have hcurrent : (twice .loop c).current m.correlatedInvIdx = some ⟨.loop, [c]⟩ := by
    rw [hidx]
    rfl
  obtain ⟨s', hs', -, hverdict⟩ := h sitePlankton (twice .loop c) ⟨.loop, [c]⟩ m .init s₀
    (finished_of_finishedAfter hm) hcurrent hs₀
  obtain rfl := Option.some.inj (hs.symm.trans hs')
  have hsame := hplace.symm.trans ((hverdict [go, go]).trans halone)
  exact absurd (Option.some.inj hsame) (by decide)

end Site

end Reinit

end Neo
