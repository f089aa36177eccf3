import Neo.Invariant.EndToEnd
import Neo.Invariant.Consistency
import Neo.Invariant.Reinit
import Neo.Process.Schedulers

/-! The verdicts of correlated invariants whose parts send a datagram, or an echo request, each. A
part starts afresh where the one before ends, so what a run can find is decided by the data planes
of the parts alone. -/

namespace Neo

structure Probe where
  targetNodes : List NodePtr
  reachable : Bool
  conn : Connection
  dst : IPv4Address

namespace Probe

def inv (p : Probe) : CheckedInvariant := ⟨.reachability p.targetNodes p.reachable, [p.conn]⟩

structure Fits (P : Plankton) (p : Probe) : Prop where
  sendable : P.Sendable p.conn
  protocol : p.conn.protocol ≠ .tcp
  dst : P.ecs.findEc p.dst = some p.conn.dstIpEc

/-- The data plane of the destination can bring an outcome about. -/
def CanEnd (net : Network) (p : Probe) (violated : Bool) : Prop :=
  Reachability.CanEnd net p.dst p.conn.srcNode p.targetNodes p.reachable violated

def UnderWay (P : Plankton) (p : Probe) (m : Model) : Prop :=
  m.choiceCount ≠ 0 ∧ ∃ s, P.Begins p.conn false s ∧
    Model.Flying P p.conn.dstIpEc p.conn.srcNode s.cur m

theorem underWay_of_begins {P : Plankton} {p : Probe} {m : Model} (h : P.Begins p.conn false m) :
    p.UnderWay P m :=
  ⟨h.arrived.choiceCount ▸ Nat.one_ne_zero, m, h, .inl h.starting⟩

def pair (targetNodes : List NodePtr) : Probe where
  targetNodes := targetNodes
  reachable := true
  conn := Plankton.pairConn false .udp
  dst := 0x0A000001#32

theorem canEnd_pair (targetNodes : List NodePtr) :
    (pair targetNodes).CanEnd (Plankton.pair false) (true != decide (1 ∈ targetNodes)) := by
  have hsends : ∀ n h, (Plankton.pair false).getIpnhs n ((Plankton.pair false).node n).rib
      0x0A000001#32 = some [h] → (Plankton.pair false).SendsTo 0x0A000001#32 n h :=
    fun n h hget => Network.sendsTo_iff.mpr ⟨_, hget, List.mem_singleton_self h⟩
  refine ⟨1, .single ⟨Nat.one_ne_zero, ⟨1, some 11, 1, some 11⟩, hsends 0 _ ?_, rfl⟩,
    .inr ⟨⟨.accept 1, hsends 1 _ ?_, rfl⟩, rfl⟩⟩
  · decide +kernel
  · decide +kernel

def pairProbes : List Probe := [pair [1], pair []]

theorem fits_pairProbes (p : Probe) (hp : p ∈ pairProbes) :
    p.Fits (Plankton.pairPlankton false) := by
  have hfind : (Plankton.pairPlankton false).ecs.findEc 0x0A000001#32 =
      some (Plankton.pairConn false .udp).dstIpEc := by
    decide +kernel
  have hsend : (Plankton.pair false).CanSend 0 := by
    intro i hi hl2
    obtain rfl := List.mem_singleton.mp hi
    exact absurd hl2 (by decide)
  have hsendable : (Plankton.pairPlankton false).Sendable (Plankton.pairConn false .udp) :=
    ⟨List.mem_cons_self .., ⟨_, hfind⟩, rfl, hsend⟩
  simp only [pairProbes, List.mem_cons, List.not_mem_nil, or_false] at hp
  rcases hp with rfl | rfl
  · exact ⟨hsendable, by decide, hfind⟩
  · exact ⟨hsendable, by decide, hfind⟩

end Probe

namespace Model

variable {P : Plankton} {m m' : Model} {ec : EcPtr} {src : NodePtr} {c : ConnState} {l : Label}

theorem Flying.lone (hm : Flying P ec src c m) : m.conn = 0 ∧ m.numConns = 1 := by
  rcases hm with hm | hm | hm
  · exact ⟨hm.conn, hm.numConns⟩
  · exact ⟨hm.conn, hm.numConns⟩
  · exact ⟨hm.conn, hm.numConns⟩

theorem Flying.turn_choiceCount (hm : Flying P ec src c m) (h : P.turn m l = some m')
    (hm' : Flying P ec src c m') (hflight : m'.cur.InFlight) : m'.choiceCount ≠ 0 := by
  intro hzero
  have hforwarding : m.processId = .forwarding → False := by
    intro hp
    unfold Plankton.turn at h
    split_ifs at h with hlt
    have hchooses : (m.setChoice l.choice).ChoosesForwardable := by
      intro hp'
      exact absurd (hp.symm.trans hp') (by decide)
    have hall := Plankton.control_ends h (Nat.zero_lt_of_lt hlt) hchooses hzero
    have hfin : m'.cur.isFinished = true := by
      have := hall 0 (hm'.lone.2 ▸ Nat.one_pos)
      rwa [Model.cur, hm'.lone.1]
    simp only [ConnState.isFinished, Bool.and_eq_true, Bool.or_eq_true, beq_iff_eq] at hfin
    rcases hflight with hmode | hmode | hmode <;> simp [hmode] at hfin
  rcases hm with hm | hm | hm
  · exact hforwarding hm.processId
  · exact hforwarding hm.processId
  · have hlost := (hm.turn h).mode
    rcases hflight with hmode | hmode | hmode <;> simp [hmode] at hlost

end Model

namespace Plankton

variable {P : Plankton} {V : Invariants} {p : Probe} {m m' s : Model} {l : Label} {v : Bool}

def concluded (P : Plankton) (V : Invariants) (result : Option Bool) (m : Model) : Option Model :=
  if (V.conclude result m).2 then P.reinit V (V.conclude result m).1
  else some (V.conclude result m).1

theorem checkViolation_eq {inv : CheckedInvariant} {result : Option Bool}
    (hV : V.current m.correlatedInvIdx = some inv) : V.checkViolation result m =
      (m.checkPolicy inv.policy).map fun m => V.conclude result m := by
  unfold Invariants.checkViolation
  rw [hV, Option.bind_eq_bind, Option.bind_some]
  cases m.checkPolicy inv.policy with
  | none => rfl
  | some m₁ => cases V <;> rfl

theorem step_iff_concluded {inv : CheckedInvariant}
    (hV : V.current m.correlatedInvIdx = some inv) : P.step V m l = some m' ↔
      ∃ m₁ m₂, P.turn m l = some m₁ ∧ m₁.checkPolicy inv.policy = some m₂ ∧
        P.concluded V l.result m₂ = some m' := by
  unfold step turn execStep
  split_ifs
  · rw [Option.bind_eq_bind, Option.bind_eq_some_iff]
    refine exists_congr fun m₁ => ?_
    constructor
    · rintro ⟨hcontrol, h⟩
      have hidx : V.current m₁.correlatedInvIdx = some inv := by
        rw [control_correlatedInvIdx hcontrol]
        exact hV
      rw [checkViolation_eq hidx, Option.bind_eq_bind, Option.bind_eq_some_iff] at h
      obtain ⟨r, hr, h⟩ := h
      obtain ⟨m₂, hcheck, rfl⟩ := Option.map_eq_some_iff.mp hr
      exact ⟨m₂, hcontrol, hcheck, h⟩
    · rintro ⟨m₂, hcontrol, hcheck, h⟩
      have hidx : V.current m₁.correlatedInvIdx = some inv := by
        rw [control_correlatedInvIdx hcontrol]
        exact hV
      refine ⟨hcontrol, ?_⟩
      rw [checkViolation_eq hidx, hcheck, Option.bind_eq_bind]
      exact h
  · simp

theorem concluded_of_choiceCount {result : Option Bool} (h : m.choiceCount ≠ 0) :
    P.concluded V result m = some m := by
  unfold concluded
  rw [Invariants.conclude_of_choiceCount V result h]
  rfl

theorem begins_reinit (hV : ∀ inv, V ≠ .single inv) (hof : P.openflow.updates = [])
    (hp : p.Fits P) (hcur : V.current m.correlatedInvIdx = some p.inv) :
    ∃ s, P.reinit V m = some s ∧ P.Begins p.conn false s ∧
      s.correlatedInvIdx = m.correlatedInvIdx := by
  have hopenflow : P.initOpenflow m = m := if_pos hof
  obtain ⟨m', hm'⟩ := startInv_isSome hof hp.sendable (.reachability p.targetNodes p.reachable) m
  have hreinit : V.reinit P (P.initOpenflow m) = some m' := by
    rw [hopenflow, ← hm']
    cases V with
    | single inv => exact absurd rfl (hV inv)
    | conditional invs | consistency invs =>
      show (Invariants.current _ _).bind _ = _
      rw [hcur]
      rfl
  have hstarts := CheckedInvariant.starts_of_init hm'
  refine ⟨startForwarding m', ?_, begins_of_starts hof hp.sendable hstarts,
    hstarts.correlatedInvIdx⟩
  unfold reinit
  rw [hreinit]
  rfl

theorem begins_first (hV : ∀ inv, V ≠ .single inv) (hof : P.openflow.updates = [])
    (hp : p.Fits P) (hcur : V.current 0 = some p.inv) :
    ∃ s, P.initModel V = some s ∧ P.Begins p.conn false s ∧ s.correlatedInvIdx = 0 := by
  have hopenflow : P.initOpenflow .zero = .zero := if_pos hof
  obtain ⟨m', hm'⟩ := startInv_isSome hof hp.sendable (.reachability p.targetNodes p.reachable)
    (Model.zero.setCorrelatedInvIdx 0)
  have hinit : V.init P (P.initOpenflow .zero) = some m' := by
    rw [hopenflow, ← hm']
    cases V with
    | single inv => exact absurd rfl (hV inv)
    | conditional invs | consistency invs =>
      show ((Invariants.current _ 0).bind fun inv =>
        inv.init P (Model.zero.setCorrelatedInvIdx 0)) = _
      rw [hcur]
      rfl
  have hstarts := CheckedInvariant.starts_of_init hm'
  refine ⟨startForwarding m', ?_, begins_of_starts hof hp.sendable hstarts,
    hstarts.correlatedInvIdx⟩
  unfold initModel
  rw [hinit]
  rfl

theorem choiceCount_of_turn (h : P.turn m l = some m') : m.choiceCount ≠ 0 := by
  unfold turn at h
  split_ifs at h with hlt
  exact Nat.ne_of_gt (Nat.zero_lt_of_lt hlt)

theorem turn_correlatedInvIdx (h : P.turn m l = some m') :
    m'.correlatedInvIdx = m.correlatedInvIdx := by
  unfold turn at h
  split_ifs at h
  have hsame := control_correlatedInvIdx h
  exact hsame

theorem outcome_of_turn {inv : CheckedInvariant} {m₁ m₂ : Model}
    (hV : V.current m.correlatedInvIdx = some inv) (hturn : P.turn m l = some m₁)
    (hcheck : m₁.checkPolicy inv.policy = some m₂) :
    P.outcome V m l = if m₂.choiceCount = 0 then some m₂.violated else none := by
  have hchecked : P.checked inv l m = some m₂ := by
    unfold turn at hturn
    split_ifs at hturn
    unfold checked
    rw [hturn]
    exact hcheck
  rw [outcome_eq l hV, hchecked]
  rfl

theorem step_underWay (hnet : P.network.ModelOnly) (hof : P.openflow.updates = [])
    (hp : p.Fits P) (hcur : V.current m.correlatedInvIdx = some p.inv) (hm : p.UnderWay P m)
    (h : P.step V m l = some m') :
    (p.UnderWay P m' ∧ m'.correlatedInvIdx = m.correlatedInvIdx ∧ P.outcome V m l = none) ∨
      ∃ (v : Bool) (m₁ : Model), p.CanEnd P.network v ∧ m₁.correlatedInvIdx = m.correlatedInvIdx ∧
        P.outcome V m l = some v ∧ P.concluded V l.result (m₁.stop v) = some m' := by
  obtain ⟨-, s, hbegins, hflying⟩ := hm
  obtain ⟨m₁, m₂, hturn, hcheck, hconcluded⟩ := (step_iff_concluded hcur).mp h
  have hreq := hbegins.protoState ▸ firstProtoState_cases hp.protocol
  have hidx := turn_correlatedInvIdx hturn
  have houtcome := outcome_of_turn hcur hturn hcheck
  rcases hflying.turn hnet hof hturn with ⟨hflying', hflight⟩ | hend
  · left
    have hquiet : Quiet (.reachability p.targetNodes p.reachable) s.cur.protoState :=
      Reachability.quiet hreq
    have hcount := hflying.turn_choiceCount hturn hflying' hflight
    obtain rfl : m₂ = m₁ :=
      Option.some.inj (hcheck.symm.trans (hquiet m₁ hflying'.phase.protoState hflight))
    rw [concluded_of_choiceCount hcount] at hconcluded
    obtain rfl := Option.some.inj hconcluded
    exact ⟨⟨hcount, s, hbegins, hflying'⟩, hidx, by rw [houtcome, if_neg hcount]⟩
  · right
    obtain ⟨v, hv, hjudged⟩ :=
      Reachability.canEnd_of_ends hp.sendable hp.protocol hp.dst hbegins hend
    obtain rfl : m₂ = m₁.stop v := (Option.some.inj hcheck).symm.trans hjudged
    exact ⟨v, m₁, hv, hidx, houtcome.trans (if_pos rfl), hconcluded⟩

theorem turn_results (hnet : P.network.ModelOnly) (m : Model) (l : Label) :
    P.turn m l = P.turn m (choose l.choice) := by
  unfold turn
  rw [Unoptimized.control_results hnet l.results []]
  rfl

def Moves (P : Plankton) (V : Invariants) (m m' : Model) : Prop :=
  ∃ choice, P.step V m (choose choice) = some m'

theorem exists_run_of_moves {t : Model} (h : Relation.ReflTransGen (P.Moves V) s t) :
    ∃ tr, Run (P.step V) s tr t := by
  refine Run.exists_of_reflTransGen ?_ h
  intro m m' hmove
  obtain ⟨choice, hstep⟩ := hmove
  exact ⟨_, hstep⟩

theorem exists_outcome (hnet : P.network.ModelOnly) (hlinked : P.network.Linked)
    (hof : P.openflow.updates = []) (hp : p.Fits P)
    (hcur : V.current s.correlatedInvIdx = some p.inv) (hs : P.Begins p.conn false s)
    (hend : p.CanEnd P.network v) :
    ∃ (m : Model) (choice : Nat) (m₁ : Model), Relation.ReflTransGen (P.Moves V) s m ∧
      P.outcome V m (choose choice) = some v ∧ m₁.correlatedInvIdx = s.correlatedInvIdx ∧
      ∀ m', P.concluded V none (m₁.stop v) = some m' → P.step V m (choose choice) = some m' := by
  have hreq := hs.protoState ▸ firstProtoState_cases hp.protocol
  have hquiet : Quiet (.reachability p.targetNodes p.reachable) s.cur.protoState :=
    Reachability.quiet hreq
  obtain ⟨tr, l, hrun, hall, hcheck⟩ :=
    Reachability.exists_turns hnet hlinked hof hp.sendable hp.protocol hp.dst hs hend
  obtain ⟨hbefore, hturn, -⟩ := hrun.around
  have hidx := hbefore.invariant (fun m => m.correlatedInvIdx = s.correlatedInvIdx) rfl
    fun k _ h hk => (turn_correlatedInvIdx h).trans hk
  have hcounts := hbefore.enabled (fun m => m.choiceCount ≠ 0)
    (fun _ _ _ h => choiceCount_of_turn h) (choiceCount_of_turn hturn)
  have hlast : P.turn l.before (choose l.act.choice) = some l.after :=
    turn_results hnet l.before l.act ▸ hturn
  have hjudged : l.after.checkPolicy p.inv.policy = some (l.after.stop v) :=
    congrArg some hcheck
  have hcurLast : V.current l.before.correlatedInvIdx = some p.inv := by
    rw [hidx.1]
    exact hcur
  refine ⟨l.before, l.act.choice, l.after, ?_, ?_, ?_, ?_⟩
  · apply hbefore.reflTransGen
    intro k hk h
    have hcur' : V.current k.before.correlatedInvIdx = some p.inv := by
      rw [(hidx.2 k hk).1]
      exact hcur
    refine ⟨k.act.choice, (step_iff_concluded hcur').mpr ⟨k.after, k.after, ?_, ?_, ?_⟩⟩
    · exact turn_results hnet k.before k.act ▸ h
    · exact hquiet _ (hall k hk).2.protoState (hall k hk).1
    · exact concluded_of_choiceCount (hcounts k hk)
  · exact (outcome_of_turn hcurLast hlast hjudged).trans (if_pos rfl)
  · exact (turn_correlatedInvIdx hlast).trans hidx.1
  · intro m' hm'
    exact (step_iff_concluded hcurLast).mpr ⟨_, _, hlast, hjudged, hm'⟩

/-! ### One part after the other -/

theorem concluded_stop (V : Invariants) (result : Option Bool) (m : Model) (v : Bool) :
    P.concluded V result (m.stop v) = match V.decided result m.correlatedInvIdx v with
      | some b => some (m.stop b)
      | none => P.reinit V ((m.stop v).setCorrelatedInvIdx (m.correlatedInvIdx + 1)) := by
  have hstop : (m.stop v).choiceCount = 0 := rfl
  unfold concluded
  rcases V.conclude_of_stop result hstop with ⟨b, hdecided, hconclude⟩ | ⟨hdecided, hconclude⟩
  · have hdecided : V.decided result m.correlatedInvIdx v = some b := hdecided
    rw [hconclude, hdecided]
    rfl
  · have hdecided : V.decided result m.correlatedInvIdx v = none := hdecided
    rw [hconclude, hdecided]
    rfl

def Correlates (V : Invariants) (probes : List Probe) : Prop :=
  V = .conditional (probes.map Probe.inv) ∨ V = .consistency (probes.map Probe.inv)

theorem Correlates.ne_single {probes : List Probe} (hV : Correlates V probes)
    (inv : CheckedInvariant) : V ≠ .single inv := by
  rcases hV with rfl | rfl <;> exact Invariants.noConfusion

theorem Correlates.current {before after : List Probe}
    (hV : Correlates V (before ++ p :: after)) : V.current before.length = some p.inv := by
  have hget : ((before ++ p :: after).map Probe.inv)[before.length]? = some p.inv := by simp
  rcases hV with rfl | rfl
  · exact hget
  · exact hget

theorem Correlates.current_next {before after : List Probe} {next : Probe}
    (hV : Correlates V (before ++ p :: next :: after)) :
    V.current (before.length + 1) = some next.inv := by
  have hsplit : before ++ p :: next :: after = (before ++ [p]) ++ next :: after := by simp
  have hnext := (hsplit ▸ hV).current
  simpa using hnext

theorem Correlates.lt_of_decided {probes : List Probe} (hV : Correlates V probes)
    {result : Option Bool} {i : Nat} (h : V.decided result i v = none) : i + 1 < probes.length := by
  rcases hV with rfl | rfl
  all_goals
    unfold Invariants.decided at h
    dsimp only at h
    split_ifs at h with hstop hnext
    simpa using hnext

def Verifying (P : Plankton) (R : Probe → Prop) (probes : List Probe) (m : Model) : Prop :=
  ∃ before p after, probes = before ++ p :: after ∧ m.correlatedInvIdx = before.length ∧
    p.UnderWay P m ∧ ∀ q ∈ before, R q

theorem step_verifying {R : Probe → Prop} {probes : List Probe} (hnet : P.network.ModelOnly)
    (hof : P.openflow.updates = []) (hfits : ∀ p ∈ probes, p.Fits P)
    (hV : Correlates V probes) (hm : P.Verifying R probes m) (h : P.step V m l = some m') :
    (P.Verifying R probes m' ∧ P.outcome V m l = none) ∨
      ∃ before p after v, probes = before ++ p :: after ∧ (∀ q ∈ before, R q) ∧
        p.CanEnd P.network v ∧ P.outcome V m l = some v ∧
        ((∃ b, V.decided l.result before.length v = some b ∧ m'.choiceCount = 0 ∧
            m'.violated = b) ∨
          V.decided l.result before.length v = none ∧ (R p → P.Verifying R probes m')) := by
  obtain ⟨before, p, after, rfl, hidx, hunder, hbefore⟩ := hm
  have hp : p.Fits P := hfits p (by simp)
  have hcur : V.current m.correlatedInvIdx = some p.inv := by
    rw [hidx]
    exact hV.current
  rcases step_underWay hnet hof hp hcur hunder h with ⟨hunder', hidx', houtcome⟩ |
    ⟨v, m₁, hv, hidx₁, houtcome, hconcluded⟩
  · exact .inl ⟨⟨before, p, after, rfl, hidx'.trans hidx, hunder', hbefore⟩, houtcome⟩
  · right
    refine ⟨before, p, after, v, rfl, hbefore, hv, houtcome, ?_⟩
    rw [concluded_stop, hidx₁, hidx] at hconcluded
    cases hdecided : V.decided l.result before.length v with
    | some b =>
      rw [hdecided] at hconcluded
      obtain rfl := Option.some.inj hconcluded
      exact .inl ⟨b, rfl, rfl, rfl⟩
    | none =>
      rw [hdecided] at hconcluded
      refine .inr ⟨rfl, fun hR => ?_⟩
      have hlt := hV.lt_of_decided hdecided
      obtain ⟨next, after', rfl⟩ : ∃ next after', after = next :: after' := by
        cases after with
        | nil => simp at hlt
        | cons next after' => exact ⟨next, after', rfl⟩
      have hsplit : before ++ p :: next :: after' = (before ++ [p]) ++ next :: after' := by simp
      obtain ⟨s, hs, hbegins, hidx'⟩ := begins_reinit
        (m := (m₁.stop v).setCorrelatedInvIdx (before.length + 1)) hV.ne_single hof
        (hfits next (by simp)) hV.current_next
      obtain rfl := Option.some.inj (hs.symm.trans hconcluded)
      refine ⟨before ++ [p], next, after', hsplit, ?_, Probe.underWay_of_begins hbegins, ?_⟩
      · rw [hidx']
        simp [Model.setCorrelatedInvIdx]
      · intro q hq
        rcases List.mem_append.mp hq with hq | hq
        · exact hbefore q hq
        · rwa [List.mem_singleton.mp hq]

theorem exists_next {before after : List Probe} {next : Probe} (hnet : P.network.ModelOnly)
    (hlinked : P.network.Linked) (hof : P.openflow.updates = [])
    (hV : Correlates V (before ++ p :: next :: after)) (hp : p.Fits P) (hnext : next.Fits P)
    (hs : P.Begins p.conn false s) (hidx : s.correlatedInvIdx = before.length)
    (hend : p.CanEnd P.network v) (hdecided : V.decided none before.length v = none) :
    ∃ s', Relation.ReflTransGen (P.Moves V) s s' ∧ P.Begins next.conn false s' ∧
      s'.correlatedInvIdx = before.length + 1 := by
  obtain ⟨m, choice, m₁, hmoves, -, hidx₁, hstep⟩ :=
    exists_outcome hnet hlinked hof hp (hidx ▸ hV.current) hs hend
  obtain ⟨s', hs', hbegins, hidx'⟩ := begins_reinit
    (m := (m₁.stop v).setCorrelatedInvIdx (before.length + 1)) hV.ne_single hof hnext
    hV.current_next
  refine ⟨s', hmoves.tail ⟨choice, hstep s' ?_⟩, hbegins, hidx'⟩
  rw [concluded_stop, hidx₁, hidx, hdecided]
  exact hs'

end Plankton

namespace Conditional

variable {P : Plankton} {probes : List Probe}

def CanFail (net : Network) (probes : List Probe) : Prop :=
  ∃ before p after, probes = before ++ p :: after ∧ before ≠ [] ∧
    (∀ q ∈ before, q.CanEnd net false) ∧ p.CanEnd net true

theorem sound {s t : Model} {tr : List (Link Model Label)} (hnet : P.network.ModelOnly)
    (hof : P.openflow.updates = []) (hfits : ∀ p ∈ probes, p.Fits P)
    (h : Run (P.step (.conditional (probes.map Probe.inv))) s tr t)
    (hs : P.Verifying (fun q => q.CanEnd P.network false) probes s) (ht : t.choiceCount = 0)
    (hviolated : t.violated = true) : CanFail P.network probes := by
  induction h with
  | nil s =>
    obtain ⟨_, _, _, _, _, hunder, _⟩ := hs
    exact absurd ht hunder.1
  | @cons s s' t l tr hstep hrest ih =>
    rcases Plankton.step_verifying hnet hof hfits (.inl rfl) hs hstep with ⟨hs', -⟩ |
      ⟨before, p, after, v, hsplit, hbefore, hv, -, ⟨b, hdecided, hcount, hb⟩ | ⟨hdecided, hs'⟩⟩
    · exact ih hs' ht hviolated
    · -- the verdict is a violation only if a later part failed
      obtain ⟨rfl, rfl⟩ := Plankton.run_of_choiceCount hrest hcount
      rw [hviolated] at hb
      unfold Invariants.decided at hdecided
      dsimp only at hdecided
      split_ifs at hdecided with hfailed hnext
      · refine ⟨before, p, after, hsplit, ?_, hbefore, hfailed ▸ hv⟩
        rintro rfl
        rw [← hb] at hdecided
        exact absurd (Option.some.inj hdecided) (by decide)
      · rw [← hb] at hdecided
        exact absurd (Option.some.inj hdecided) (by decide)
    · refine ih (hs' ?_) ht hviolated
      unfold Invariants.decided at hdecided
      dsimp only at hdecided
      split_ifs at hdecided with hfailed hnext
      exact Bool.eq_false_iff.mpr hfailed ▸ hv

theorem complete {p : Probe} {after : List Probe} (hnet : P.network.ModelOnly)
    (hlinked : P.network.Linked) (hof : P.openflow.updates = [])
    (hfits : ∀ p ∈ probes, p.Fits P) (hp : p.CanEnd P.network true) (rest : List Probe) :
    ∀ (done : List Probe) {q : Probe} {s : Model}, done ++ rest ≠ [] →
      probes = done ++ (rest ++ p :: after) → (rest ++ p :: after).head? = some q →
      (∀ r ∈ rest, r.CanEnd P.network false) → P.Begins q.conn false s →
      s.correlatedInvIdx = done.length →
      ∃ t, Relation.ReflTransGen (P.Moves (.conditional (probes.map Probe.inv))) s t ∧
        t.choiceCount = 0 ∧ t.violated = true := by
  induction rest with
  | nil =>
    intro done q s hne hprobes hq _ hs hidx
    obtain rfl : p = q := Option.some.inj hq
    have hcur := (hprobes ▸ Or.inl rfl : Plankton.Correlates (.conditional (probes.map Probe.inv))
      (done ++ p :: after)).current
    -- `p` is the first part that can fail: its outcome decides, as it is not the first of all
    obtain ⟨m, choice, m₁, hmoves, -, hidx₁, hstep⟩ :=
      Plankton.exists_outcome hnet hlinked hof (hfits p (by simp [hprobes]))
        (hidx ▸ hcur) hs hp
    refine ⟨m₁.stop true, hmoves.tail ⟨choice, hstep _ ?_⟩, rfl, rfl⟩
    rw [Plankton.concluded_stop, hidx₁, hidx]
    have hlast : (done.length != 0) = true := by simpa using hne
    show some (m₁.stop (done.length != 0)) = _
    rw [hlast]
  | cons r rest ih =>
    intro done q s hne hprobes hq hrest hs hidx
    obtain rfl : r = q := Option.some.inj hq
    obtain ⟨next, tail, hnext⟩ := List.exists_cons_of_ne_nil
      (List.append_ne_nil_of_right_ne_nil rest (List.cons_ne_nil p after))
    have hsplit : probes = (done ++ [r]) ++ (rest ++ p :: after) := by simp [hprobes]
    have hV : Plankton.Correlates (.conditional (probes.map Probe.inv))
        (done ++ r :: next :: tail) := by
      rw [← hnext, ← List.cons_append, ← hprobes]
      exact .inl rfl
    have hdecided : (Invariants.conditional (probes.map Probe.inv)).decided none done.length false
        = none := by
      have hlt : done.length + 1 < probes.length := by simp [hprobes]
      simp [Invariants.decided, hlt]
    obtain ⟨s', hmoves, hbegins, hidx'⟩ := Plankton.exists_next hnet hlinked hof hV
      (hfits r (by simp [hprobes])) (hfits next (by simp [hsplit, hnext])) hs hidx
      (hrest r (List.mem_cons_self ..)) hdecided
    obtain ⟨t, hmoves', ht⟩ := ih (done ++ [r]) (by simp) hsplit (by rw [hnext]; rfl)
      (fun x hx => hrest x (List.mem_cons_of_mem _ hx)) hbegins (by simp [hidx'])
    exact ⟨t, hmoves.trans hmoves', ht⟩

/-- A conditional invariant whose parts send a datagram, or an echo request, each is violated in
some run if and only if in the data planes of the destinations the first parts, up to a later one,
can hold and that one can fail. -/
theorem violated_iff_canFail (hnet : P.network.ModelOnly) (hlinked : P.network.Linked)
    (hof : P.openflow.updates = []) (hfits : ∀ p ∈ probes, p.Fits P) :
    (∃ s t tr, P.initModel (.conditional (probes.map Probe.inv)) = some s ∧
      Run (P.step (.conditional (probes.map Probe.inv))) s tr t ∧ t.choiceCount = 0 ∧
        t.violated = true) ↔ CanFail P.network probes := by
  constructor
  · rintro ⟨s, t, tr, hs, h, ht, hviolated⟩
    cases probes with
    | nil => simp [Plankton.initModel, Invariants.init, Invariants.current] at hs
    | cons p after =>
      obtain ⟨s', hs', hbegins, hidx⟩ := Plankton.begins_first
        (V := .conditional ((p :: after).map Probe.inv)) (fun _ => Invariants.noConfusion) hof
        (hfits p (List.mem_cons_self ..)) rfl
      obtain rfl := Option.some.inj (hs'.symm.trans hs)
      refine sound hnet hof hfits h ⟨[], p, after, rfl, hidx, ?_, by simp⟩ ht hviolated
      exact Probe.underWay_of_begins hbegins
  · rintro ⟨before, p, after, hsplit, hne, hbefore, hp⟩
    obtain ⟨first, tail, hfirst⟩ := List.exists_cons_of_ne_nil
      (List.append_ne_nil_of_left_ne_nil hne (p :: after))
    have hmem : first ∈ probes := by simp [hsplit, hfirst]
    obtain ⟨s, hs, hbegins, hidx⟩ := Plankton.begins_first
      (V := .conditional (probes.map Probe.inv)) (fun _ => Invariants.noConfusion) hof
      (hfits first hmem) (by rw [hsplit, hfirst]; rfl)
    obtain ⟨t, hmoves, ht, hviolated⟩ := complete hnet hlinked hof hfits hp before []
      (by simpa using hne) hsplit (by rw [hfirst]; rfl) hbefore hbegins hidx
    obtain ⟨tr, hrun⟩ := Plankton.exists_run_of_moves hmoves
    exact ⟨s, t, tr, hs, hrun, ht, hviolated⟩

theorem violated_secondFails : ∃ s t tr,
    (Plankton.pairPlankton false).initModel (.conditional (Probe.pairProbes.map Probe.inv)) =
      some s ∧
    Run ((Plankton.pairPlankton false).step (.conditional (Probe.pairProbes.map Probe.inv)))
      s tr t ∧ t.choiceCount = 0 ∧ t.violated = true := by
  apply (violated_iff_canFail (Plankton.pair_modelOnly false) (Plankton.pair_linked false) rfl
    Probe.fits_pairProbes).mpr
  refine ⟨[Probe.pair [1]], Probe.pair [], [], rfl, List.cons_ne_nil _ _, ?_, Probe.canEnd_pair []⟩
  intro q hq
  rw [List.mem_singleton.mp hq]
  exact Probe.canEnd_pair [1]

end Conditional

namespace Consistency

open Exploration (outcomes Exhaustive)

variable {P : Plankton} {probes : List Probe} {s : Model} {e : Exploration}
  {tr : List (Link Exploration Move)} {v : Bool}

/-- A part that is come to can have an outcome: those before it can have some, too. -/
def Found (net : Network) (probes : List Probe) (v : Bool) : Prop :=
  ∃ before p after, probes = before ++ p :: after ∧
    (∀ q ∈ before, ∃ o, q.CanEnd net o) ∧ p.CanEnd net v

def Possible (m : Model) (choice : Nat) (results : List InjectionResult) : Prop :=
  choice < m.choiceCount ∧ results = []

theorem found_of_outcomes (hnet : P.network.ModelOnly) (hof : P.openflow.updates = [])
    (hfits : ∀ p ∈ probes, p.Fits P)
    (h : Run (Exploration.step P (.consistency (probes.map Probe.inv))) (.start s) tr e)
    (hs : P.Verifying (fun q => ∃ o, q.CanEnd P.network o) probes s)
    (hv : v ∈ outcomes P (.consistency (probes.map Probe.inv)) tr) : Found P.network probes v := by
  have hinv := h.invariant (fun x => ∀ m ∈ x.reached, m.choiceCount ≠ 0 →
    P.Verifying (fun q => ∃ o, q.CanEnd P.network o) probes m) ?_ ?_
  · obtain ⟨l, hl, houtcome⟩ := List.mem_filterMap.mp hv
    obtain ⟨m, m', hm, hnext, -⟩ := Exploration.step_cases (h.link l hl)
    have houtcome : P.outcome (.consistency (probes.map Probe.inv)) m (l.before.label l.act) =
        some v := by
      unfold Exploration.outcomeOf at houtcome
      rwa [hm] at houtcome
    have hcount : m.choiceCount ≠ 0 :=
      Nat.ne_of_gt (Nat.zero_lt_of_lt (Plankton.step_eq_some hnext).1)
    have hm' := (hinv.2 l hl).1 m (List.mem_of_getElem? hm) hcount
    rcases Plankton.step_verifying hnet hof hfits (.inr rfl) hm' hnext with ⟨-, hnone⟩ |
      ⟨before, p, after, o, hsplit, hbefore, ho, hsome, -⟩
    · rw [hnone] at houtcome
      exact absurd houtcome (by simp)
    · obtain rfl := Option.some.inj (hsome.symm.trans houtcome)
      exact ⟨before, p, after, hsplit, hbefore, ho⟩
  · intro m hm _
    rwa [List.mem_singleton.mp hm]
  · intro l _ hstep hbefore m hm hcount
    obtain ⟨m₀, m₁, hm₀, hnext, hafter⟩ := Exploration.step_cases hstep
    rw [hafter] at hm
    rcases List.mem_append.mp hm with hm | hm
    · exact hbefore m hm hcount
    · obtain rfl := List.mem_singleton.mp hm
      have hcount₀ : m₀.choiceCount ≠ 0 :=
        Nat.ne_of_gt (Nat.zero_lt_of_lt (Plankton.step_eq_some hnext).1)
      have hm₀' := hbefore m₀ (List.mem_of_getElem? hm₀) hcount₀
      rcases Plankton.step_verifying hnet hof hfits (.inr rfl) hm₀' hnext with ⟨hm', -⟩ |
        ⟨-, p, -, o, -, -, ho, -, ⟨b, -, hzero, -⟩ | ⟨-, hm'⟩⟩
      · exact hm'
      · exact absurd hzero hcount
      · exact hm' ⟨o, ho⟩

structure Agreeing (P : Plankton) (probes : List Probe) (s : Model) (e : Exploration)
    (tr : List (Link Exploration Move)) : Prop where
  run : Run (Exploration.step P (.consistency (probes.map Probe.inv))) (.start s) tr e
  all : Exhaustive Possible tr e
  equal : ∀ o ∈ outcomes P (.consistency (probes.map Probe.inv)) tr,
    ∀ o' ∈ outcomes P (.consistency (probes.map Probe.inv)) tr, o = o'

theorem mem_of_step {m m' : Model} {choice : Nat} (h : Agreeing P probes s e tr)
    (hm : m ∈ e.reached)
    (hstep : P.step (.consistency (probes.map Probe.inv)) m (choose choice) = some m') :
    m' ∈ e.reached ∧
      ∀ o, P.outcome (.consistency (probes.map Probe.inv)) m (choose choice) = some o →
        o ∈ outcomes P (.consistency (probes.map Probe.inv)) tr := by
  have hmove : Exploration.step P (.consistency (probes.map Probe.inv)) ⟨none, [m]⟩
      ⟨0, choice, []⟩ = some ⟨Exploration.store ⟨none, [m]⟩ (P.outcome
        (.consistency (probes.map Probe.inv)) m (choose choice)), [m, m']⟩ := by
    show (P.step (.consistency (probes.map Probe.inv)) m (choose choice)).bind _ = _
    rw [hstep]
    rfl
  have hpossible : ∀ n, [m][0]? = some n → Possible n choice [] := by
    intro n hn
    obtain rfl := Option.some.inj hn
    exact ⟨(Plankton.step_eq_some hstep).1, rfl⟩
  have hbefore : ∀ n ∈ [m], n ∈ e.reached := by
    intro n hn
    rwa [List.mem_singleton.mp hn]
  obtain ⟨hreached, hfound⟩ := Exploration.mem_of_exhaustive h.run h.all h.equal
    (l := ⟨⟨none, [m]⟩, ⟨0, choice, []⟩, _⟩) hmove hpossible hbefore (by simp)
  exact ⟨hreached m' (by simp), hfound⟩

theorem mem_of_moves {m m' : Model} (h : Agreeing P probes s e tr)
    (hm : m ∈ e.reached)
    (hmoves : Relation.ReflTransGen (P.Moves (.consistency (probes.map Probe.inv))) m m') :
    m' ∈ e.reached := by
  induction hmoves with
  | refl => exact hm
  | tail _ hmove ih =>
    obtain ⟨choice, hstep⟩ := hmove
    exact (mem_of_step h ih hstep).1

theorem begins_reached {p : Probe} (hnet : P.network.ModelOnly) (hlinked : P.network.Linked)
    (hof : P.openflow.updates = []) (hfits : ∀ p ∈ probes, p.Fits P)
    (hs : ∀ q, probes.head? = some q → P.Begins q.conn false s ∧ s.correlatedInvIdx = 0)
    (h : Agreeing P probes s e tr)
    (before : List Probe) {after : List Probe} (hprobes : probes = before ++ p :: after)
    (hbefore : ∀ q ∈ before, ∃ o, q.CanEnd P.network o) :
    ∃ m ∈ e.reached, P.Begins p.conn false m ∧ m.correlatedInvIdx = before.length := by
  induction before using List.reverseRecOn generalizing p after with
  | nil =>
    obtain ⟨hbegins, hidx⟩ := hs p (by rw [hprobes]; rfl)
    exact ⟨s, (Exploration.run_grows h.run).1 s (List.mem_singleton_self s), hbegins, hidx⟩
  | append_singleton before q ih =>
    have hsplit : probes = before ++ q :: p :: after := by simp [hprobes]
    obtain ⟨m, hm, hbegins, hidx⟩ := ih hsplit fun r hr =>
      hbefore r (List.mem_append_left _ hr)
    obtain ⟨o, ho⟩ := hbefore q (by simp)
    have hV : Plankton.Correlates (.consistency (probes.map Probe.inv))
        (before ++ q :: p :: after) := by
      rw [← hsplit]
      exact .inr rfl
    have hdecided : (Invariants.consistency (probes.map Probe.inv)).decided none before.length o
        = none := by
      have hlt : before.length + 1 < probes.length := by simp [hsplit]
      simp [Invariants.decided, hlt]
    obtain ⟨s', hmoves, hbegins', hidx'⟩ := Plankton.exists_next hnet hlinked hof hV
      (hfits q (by simp [hsplit])) (hfits p (by simp [hsplit])) hbegins hidx ho hdecided
    exact ⟨s', mem_of_moves h hm hmoves, hbegins', by simp [hidx']⟩

theorem mem_outcomes (hnet : P.network.ModelOnly) (hlinked : P.network.Linked)
    (hof : P.openflow.updates = []) (hfits : ∀ p ∈ probes, p.Fits P)
    (hs : ∀ q, probes.head? = some q → P.Begins q.conn false s ∧ s.correlatedInvIdx = 0)
    (h : Agreeing P probes s e tr)
    (hv : Found P.network probes v) :
    v ∈ outcomes P (.consistency (probes.map Probe.inv)) tr := by
  obtain ⟨before, p, after, hsplit, hbefore, hp⟩ := hv
  obtain ⟨m, hm, hbegins, hidx⟩ :=
    begins_reached hnet hlinked hof hfits hs h before hsplit hbefore
  have hV : Plankton.Correlates (.consistency (probes.map Probe.inv))
      (before ++ p :: after) := by
    rw [← hsplit]
    exact .inr rfl
  obtain ⟨m₁, choice, m₂, hmoves, houtcome, hidx₂, hstep⟩ :=
    Plankton.exists_outcome hnet hlinked hof (hfits p (by simp [hsplit]))
      (hidx ▸ hV.current) hbegins hp
  have hm₁ := mem_of_moves h hm hmoves
  have hgoes : ∃ m', P.concluded (.consistency (probes.map Probe.inv)) none (m₂.stop v) =
      some m' := by
    rw [Plankton.concluded_stop, hidx₂, hidx]
    cases hdecided : (Invariants.consistency (probes.map Probe.inv)).decided none before.length v
      with
    | some b => exact ⟨_, rfl⟩
    | none =>
      have hlt := hV.lt_of_decided hdecided
      obtain ⟨next, after', rfl⟩ : ∃ next after', after = next :: after' := by
        cases after with
        | nil => simp at hlt
        | cons next after' => exact ⟨next, after', rfl⟩
      obtain ⟨s', hs', -⟩ := Plankton.begins_reinit
        (m := (m₂.stop v).setCorrelatedInvIdx (before.length + 1)) hV.ne_single hof
        (hfits next (by simp [hsplit])) hV.current_next
      exact ⟨s', hs'⟩
  obtain ⟨m', hm'⟩ := hgoes
  exact (mem_of_step h hm₁ (hstep m' hm')).2 v houtcome

/-- An exhaustive exploration of a consistency invariant whose parts send a datagram, or an echo
request, each finds a violation if and only if in the data planes of the destinations parts that
are come to can fail, and can hold. -/
theorem violated_iff_found (hnet : P.network.ModelOnly) (hlinked : P.network.Linked)
    (hof : P.openflow.updates = []) (hfits : ∀ p ∈ probes, p.Fits P)
    (hinit : P.initModel (.consistency (probes.map Probe.inv)) = some s)
    (h : Run (Exploration.step P (.consistency (probes.map Probe.inv))) (.start s) tr e)
    (hall : Exhaustive Possible tr e) :
    e.Violated ↔ Found P.network probes true ∧ Found P.network probes false := by
  obtain ⟨p, after, rfl⟩ : ∃ p after, probes = p :: after := by
    cases probes with
    | nil => simp [Plankton.initModel, Invariants.init, Invariants.current] at hinit
    | cons p after => exact ⟨p, after, rfl⟩
  obtain ⟨s', hs', hbegins, hidx⟩ := Plankton.begins_first
    (V := .consistency ((p :: after).map Probe.inv)) (fun _ => Invariants.noConfusion) hof
    (hfits p (List.mem_cons_self ..)) rfl
  obtain rfl := Option.some.inj (hs'.symm.trans hinit)
  have hunder := Probe.underWay_of_begins hbegins
  have hfound : ∀ v ∈ outcomes P (.consistency ((p :: after).map Probe.inv)) tr,
      Found P.network (p :: after) v :=
    fun v hv => found_of_outcomes hnet hof hfits h ⟨[], p, after, rfl, hidx, hunder, by simp⟩ hv
  rw [Exploration.violated_iff h hunder.1]
  constructor
  · rintro ⟨o, ho, o', ho', hne⟩
    cases o with
    | true =>
      obtain rfl : o' = false := by simpa using hne.symm
      exact ⟨hfound _ ho, hfound _ ho'⟩
    | false =>
      obtain rfl : o' = true := by simpa using hne.symm
      exact ⟨hfound _ ho', hfound _ ho⟩
  · rintro ⟨hfails, hholds⟩
    -- were all outcomes equal, no part would stop the exploration, and both would be found
    by_contra hnone
    have hequal : ∀ o ∈ outcomes P (.consistency ((p :: after).map Probe.inv)) tr,
        ∀ o' ∈ outcomes P (.consistency ((p :: after).map Probe.inv)) tr, o = o' := by
      intro o ho o' ho'
      by_contra hne
      exact hnone ⟨o, ho, o', ho', hne⟩
    have hstart : ∀ q, (p :: after).head? = some q →
        P.Begins q.conn false s' ∧ s'.correlatedInvIdx = 0 := by
      intro q hq
      obtain rfl : p = q := Option.some.inj hq
      exact ⟨hbegins, hidx⟩
    have hmem : ∀ v, Found P.network (p :: after) v →
        v ∈ outcomes P (.consistency ((p :: after).map Probe.inv)) tr :=
      fun v hv => mem_outcomes hnet hlinked hof hfits hstart ⟨h, hall, hequal⟩ hv
    exact absurd (hequal _ (hmem _ hfails) _ (hmem _ hholds)) (by decide)

theorem reached_grows {V : Invariants} {e₀ : Exploration}
    (h : Run (Exploration.step P V) e₀ tr e) :
    e₀.reached <+: e.reached ∧ ∀ l ∈ tr, l.before.reached <+: e.reached := by
  induction h with
  | nil e => exact ⟨List.prefix_refl _, by simp⟩
  | @cons e₀ e₁ e a tr hstep _ ih =>
    obtain ⟨m, m', -, -, he₁⟩ := Exploration.step_cases hstep
    have hfirst : e₀.reached <+: e₁.reached := by
      rw [he₁]
      exact List.prefix_append _ _
    have hgrows := hfirst.trans ih.1
    refine ⟨hgrows, fun l hl => ?_⟩
    rcases List.mem_cons.mp hl with rfl | hl
    · exact hgrows
    · exact ih.2 l hl

theorem exhaustive_of_chain {V : Invariants} (h : Run (Exploration.step P V) (.start s) tr e)
    (hacts : tr.map (fun l => l.act) = (List.range tr.length).map fun i => ⟨i, 0, []⟩)
    (hcounts : e.reached.map (fun m => m.choiceCount) = List.replicate tr.length 1 ++ [0]) :
    Exhaustive Possible tr e := by
  have hact : ∀ i (hi : i < tr.length), tr[i].act = ⟨i, 0, []⟩ := by
    intro i hi
    have hget := congrArg (fun l => l[i]?) hacts
    simpa [hi] using hget
  constructor
  · rintro m choice results ⟨l, hl, hm, rfl, rfl⟩
    obtain ⟨n, n', hn, hnext, -⟩ := Exploration.step_cases (h.link l hl)
    obtain rfl := Option.some.inj (hm.symm.trans hn)
    refine ⟨(Plankton.step_eq_some hnext).1, ?_⟩
    obtain ⟨i, hi, rfl⟩ := List.mem_iff_getElem.mp hl
    rw [hact i hi]
  · rintro m hm choice results ⟨hlt, rfl⟩
    obtain ⟨i, hi⟩ := List.mem_iff_getElem?.mp hm
    have hcount : (List.replicate tr.length 1 ++ [0])[i]? = some m.choiceCount := by
      rw [← hcounts, List.getElem?_map, hi]
      rfl
    -- every state but the last one has one choice, which the chain takes
    rcases Nat.lt_or_ge i tr.length with hlen | hlen
    · rw [List.getElem?_append_left (by simpa using hlen), List.getElem?_replicate, if_pos hlen]
        at hcount
      rw [← Option.some.inj hcount] at hlt
      obtain rfl := Nat.lt_one_iff.mp hlt
      have hmem : tr[i] ∈ tr := List.getElem_mem hlen
      obtain ⟨n, -, hn, -⟩ := Exploration.step_cases (h.link tr[i] hmem)
      have hstart : tr[i].act.start = i := by rw [hact i hlen]
      refine ⟨tr[i], hmem, ?_, by rw [hact i hlen], by rw [hact i hlen]⟩
      obtain ⟨later, hlater⟩ := (reached_grows h).2 tr[i] hmem
      have hbound := (List.getElem?_eq_some_iff.mp hn).1
      rw [hstart] at hbound
      rw [← hi, ← hlater, hstart, List.getElem?_append_left hbound]
    · rw [List.getElem?_append_right (by simpa using hlen), List.length_replicate] at hcount
      have hzero : m.choiceCount = 0 := by
        rcases List.getElem?_eq_some_iff.mp hcount with ⟨hi', hval⟩
        simpa using hval.symm
      rw [hzero] at hlt
      exact absurd hlt (Nat.not_lt_zero _)

theorem violated_partsDiffer : ∃ s e tr,
    (Plankton.pairPlankton false).initModel (.consistency (Probe.pairProbes.map Probe.inv)) =
      some s ∧
    Run (Exploration.step (Plankton.pairPlankton false)
      (.consistency (Probe.pairProbes.map Probe.inv))) (.start s) tr e ∧
    Exhaustive Possible tr e ∧ e.Violated := by
  have hrun : (((Plankton.pairPlankton false).initModel
      (.consistency (Probe.pairProbes.map Probe.inv))).bind fun s =>
        (execute (Exploration.step (Plankton.pairPlankton false)
          (.consistency (Probe.pairProbes.map Probe.inv))) (.start s)
          ((List.range 8).map fun i => ⟨i, 0, []⟩)).map fun r =>
            r.2.reached.map fun m => m.choiceCount) =
      some (List.replicate 8 1 ++ [0]) := by
    decide +kernel
  obtain ⟨s, hs, hrun⟩ := Option.bind_eq_some_iff.mp hrun
  obtain ⟨⟨tr, e⟩, hexec, hcounts⟩ := Option.map_eq_some_iff.mp hrun
  have hr := run_of_execute hexec
  have hacts := acts_of_execute hexec
  have hlen : tr.length = 8 := by
    rw [← List.length_map (fun l => l.act), hacts, List.length_map, List.length_range]
  have hall : Exhaustive Possible tr e :=
    exhaustive_of_chain hr (by rw [hacts, hlen]) (by rw [hlen]; exact hcounts)
  refine ⟨s, e, tr, hs, hr, hall, ?_⟩
  apply (violated_iff_found (Plankton.pair_modelOnly false) (Plankton.pair_linked false) rfl
    Probe.fits_pairProbes hs hr hall).mpr
  refine ⟨⟨[Probe.pair [1]], Probe.pair [], [], rfl, ?_, Probe.canEnd_pair []⟩,
    ⟨[], Probe.pair [1], [Probe.pair []], rfl, by simp, Probe.canEnd_pair [1]⟩⟩
  intro q hq
  rw [List.mem_singleton.mp hq]
  exact ⟨_, Probe.canEnd_pair [1]⟩

end Consistency

end Neo
