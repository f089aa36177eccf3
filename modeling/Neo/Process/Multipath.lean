import Neo.Invariant.Correlated
import Neo.Process.Accepted
import Neo.Process.PathChoices

/-! A connection that has chosen one of several next hops at a node takes it again there, as long as
packets are forwarded only from where their next hops were collected. -/

namespace Neo

namespace Choices

variable {choices choices' : Choices} {ec ec' : Option EcPtr} {n n' : NodePtr} {hop hop' : FibIpnh}

theorem addChoice_eq_some (h : choices.addChoice ec n hop = some choices') :
    choices.getChoice ec n = none ∧ choices' = ((ec, n), hop) :: choices := by
  unfold addChoice at h
  split_ifs at h with hsome
  exact ⟨by simpa using hsome, (Option.some.inj h).symm⟩

theorem getChoice_addChoice (h : choices.addChoice ec n hop = some choices') :
    choices'.getChoice ec n = some hop := by
  obtain ⟨-, rfl⟩ := addChoice_eq_some h
  exact List.lookup_cons_self

theorem getChoice_of_addChoice (h : choices.addChoice ec n hop = some choices')
    (hold : choices.getChoice ec' n' = some hop') : choices'.getChoice ec' n' = some hop' := by
  obtain ⟨hnone, rfl⟩ := addChoice_eq_some h
  have hne : (ec', n') ≠ (ec, n) := by
    intro heq
    obtain ⟨rfl, rfl⟩ := Prod.mk.inj heq
    simp [hnone] at hold
  rw [getChoice, List.lookup_cons, beq_false_of_ne hne]
  exact hold

end Choices

namespace OpenflowProcess

variable {net : Network}

theorem installedEntries_mem {ec : EqClass} {addr : IPv4Address} :
    ∀ {updates : List (NodePtr × List Route)} {st : OpenflowUpdateState}
      {entries : List (NodePtr × List FibIpnh)},
      installedEntries net ec addr updates st = some entries →
        ∀ e ∈ entries, ∃ p ∈ updates, p.1 = e.1 := by
  intro updates
  induction updates with
  | nil =>
    intro st entries h
    obtain rfl := Option.some.inj h
    simp
  | cons p updates ih =>
    intro st entries h e he
    cases st with
    | nil => simp [installedEntries] at h
    | cons num st =>
      simp only [installedEntries, Option.bind_eq_some_iff, Option.map_eq_some_iff] at h
      obtain ⟨nextHops, -, rest, hrest, rfl⟩ := h
      split_ifs at he
      · obtain ⟨q, hq, hqe⟩ := ih hrest e he
        exact ⟨q, List.mem_cons_of_mem _ hq, hqe⟩
      · rcases List.mem_cons.mp he with rfl | he
        · exact ⟨p, List.mem_cons_self .., rfl⟩
        · obtain ⟨q, hq, hqe⟩ := ih hrest e he
          exact ⟨q, List.mem_cons_of_mem _ hq, hqe⟩

theorem setIpnhs_of_ne {fib : FIB} {n n' : NodePtr} {nextHops : List FibIpnh} (h : n' ≠ n) :
    fib.setIpnhs n nextHops n' = fib n' := if_neg h

theorem updateFib_emulated {of : OpenflowProcess net.toTopology} {st : OpenflowUpdateState}
    {ec : EqClass} {fib : FIB} {n : NodePtr} (h : of.updateFib st ec = some fib)
    (hn : (net.node n).isEmulated = true) : ∀ nextHops ∈ fib n, nextHops = [] := by
  obtain ⟨addr, -, hfor⟩ := Option.bind_eq_some_iff.mp h
  obtain ⟨base, hbase, hinstalled⟩ := Option.bind_eq_some_iff.mp hfor
  obtain ⟨entries, hentries, hfib⟩ := Option.map_eq_some_iff.mp hinstalled
  have hb : ∀ nextHops ∈ base n, nextHops = [] := by
    refine foldlM_invariant (fun fib : FIB => ∀ nextHops ∈ fib n, nextHops = []) net.nodes ?_
      (by simp) hbase
    intro m _ fib fib' hfib hset
    obtain ⟨nhs, hnhs, rfl⟩ := Option.map_eq_some_iff.mp hset
    intro nextHops hmem
    by_cases hm : n = m
    · subst hm
      rw [Network.getIpnhs, if_pos hn] at hnhs
      rw [FIB.setIpnhs, if_pos rfl, ← Option.some.inj hnhs] at hmem
      exact (Option.some.inj hmem).symm
    · rw [setIpnhs_of_ne hm] at hmem
      exact hfib nextHops hmem
  have hne : ∀ e ∈ entries, n ≠ e.1 := by
    rintro e he rfl
    obtain ⟨p, hp, hpe⟩ := installedEntries_mem hentries e he
    have hmodel := (of.node_mem p hp).2
    rw [hpe] at hmodel
    exact absurd (hmodel.symm.trans hn) Bool.false_ne_true
  rw [← hfib]
  clear hentries hinstalled hfib hbase
  induction entries generalizing base with
  | nil => exact hb
  | cons e entries ih =>
    rw [List.forall_mem_cons] at hne
    refine ih (base.setIpnhs e.1 e.2) ?_ hne.2
    rw [setIpnhs_of_ne hne.1]
    exact hb

theorem isEmulated_of_nodeOrder {of : OpenflowProcess net.toTopology} {n : NodePtr} {i : Nat}
    (h : of.nodeOrder n = some i) : (net.node n).isEmulated = false := by
  obtain ⟨hlt, hn, -⟩ := nodeOrder_eq_some h
  rw [← hn]
  exact (of.node_mem _ (List.getElem_mem hlt)).2

end OpenflowProcess

namespace ConnState

def offered (c : ConnState) (nextHops : List FibIpnh) : Candidates :=
  match c.recorded with
  | some choice => if nextHops.length > 1 ∧ choice ∈ nextHops then [choice] else nextHops
  | none => nextHops

/-- Where there are several next hops, the candidates are among them and the past choice is taken
into account; and only at middleboxes answers are waited for. -/
structure Settled (P : Plankton) (c : ConnState) : Prop where
  forwards : c.AboutToForward → ∀ candidates ∈ c.candidates, ∀ nextHops ∈ c.nextHops,
    1 < nextHops.length → candidates = c.offered nextHops
  collects : c.fwdMode = .firstCollect → c.candidates = none
  injected : c.fwdMode = .chooseInjRes → (P.network.node c.pktLocation).isEmulated = true
  emulated : ∀ n, (P.network.node n).isEmulated = true → ∀ nextHops ∈ c.fib n, nextHops = []

variable {P : Plankton} {c c' : ConnState}

theorem Settled.congr (h : c.Settled P) (hmode : c'.fwdMode = c.fwdMode)
    (hcandidates : c'.candidates = c.candidates) (hec : c'.dstIpEc = c.dstIpEc)
    (hloc : c'.pktLocation = c.pktLocation) (hfib : c'.fib = c.fib)
    (hchoices : c'.pathChoices = c.pathChoices) : c'.Settled P := by
  have hrecorded : c'.recorded = c.recorded := by
    rw [recorded, hchoices, hec, hloc, recorded]
  have hoffered : c'.offered = c.offered := by
    funext nextHops
    rw [offered, hrecorded, offered]
  refine ⟨fun hforward => ?_, fun hcollect => ?_, fun hinjected => ?_, ?_⟩
  · rw [AboutToForward, hmode] at hforward
    rw [hcandidates, nextHops, hfib, hloc, hoffered]
    exact h.forwards hforward
  · rw [hcandidates]
    exact h.collects (hmode ▸ hcollect)
  · rw [hloc]
    exact h.injected (hmode ▸ hinjected)
  · rw [hfib]
    exact h.emulated

theorem Settled.rest (h : c.Settled P) (hfib : c'.fib = c.fib) (hforward : ¬ c'.AboutToForward)
    (hcollect : c'.fwdMode ≠ .firstCollect) (hinjected : c'.fwdMode ≠ .chooseInjRes) :
    c'.Settled P := by
  refine ⟨fun h' => absurd h' hforward, fun h' => absurd h' hcollect,
    fun h' => absurd h' hinjected, ?_⟩
  rw [hfib]
  exact h.emulated

end ConnState

namespace Model

variable {P : Plankton} {m m' : Model} {results : List InjectionResult}

theorem collectNextHops_settled (h : m.collectNextHops P results = some m')
    (hm : m.cur.Settled P) : m'.cur.Settled P := by
  rcases collectNextHops_cases h with ⟨hemu, h⟩ | ⟨-, -, rfl⟩ | ⟨-, nextHops, hfib, -, rfl⟩
  · obtain ⟨-, rfl⟩ := injectPacket_cases h
    rw [cur_setChoiceCount, cur_setCur]
    exact ⟨by simp [ConnState.AboutToForward], by simp, fun _ => hemu, hm.emulated⟩
  · rw [dropCur, cur_setCur]
    exact hm.rest rfl (by simp [ConnState.AboutToForward]) (by simp) (by simp)
  · rw [cur_setChoiceCount, cur_setCur]
    refine ⟨fun _ candidates hc nhs hnhs _ => ?_, by simp, by simp, hm.emulated⟩
    obtain rfl := Option.some.inj hc
    obtain rfl : nextHops = nhs := Option.some.inj (hfib.symm.trans hnhs)
    rfl

theorem firstCollect_settled (h : m.firstCollect P results = some m') (hm : m.cur.Settled P)
    (hmode : m.cur.fwdMode = .firstCollect) : m'.cur.Settled P := by
  obtain ⟨m₁, h₁, rfl⟩ := firstCollect_cases h
  rw [cur_setCur]
  -- the mode is overwritten, also where nothing was collected; then there are no candidates
  have hnone := hm.collects hmode
  have hempty : ∀ c : ConnState, c.candidates = none → c.fib = m.cur.fib →
      ({ c with fwdMode := .firstForward } : ConnState).Settled P := by
    intro c hc hfib
    refine ⟨fun _ candidates hcandidates => ?_, by simp, by simp, ?_⟩
    · rw [show _ = none from hc] at hcandidates
      simp at hcandidates
    · rw [show _ = m.cur.fib from hfib]
      exact hm.emulated
  rcases collectNextHops_cases h₁ with ⟨-, h⟩ | ⟨-, -, rfl⟩ | ⟨-, nextHops, hfib, -, rfl⟩
  · obtain ⟨-, rfl⟩ := injectPacket_cases h
    rw [cur_setChoiceCount, cur_setCur]
    exact hempty _ hnone rfl
  · rw [dropCur, cur_setCur]
    exact hempty _ hnone rfl
  · rw [cur_setChoiceCount, cur_setCur]
    refine ⟨fun _ candidates hc nhs hnhs _ => ?_, by simp, by simp, hm.emulated⟩
    obtain rfl := Option.some.inj hc
    obtain rfl : nextHops = nhs := Option.some.inj (hfib.symm.trans hnhs)
    rfl

theorem forwardPacket_fib (h : m.forwardPacket P = some m') : m'.cur.fib = m.cur.fib := by
  obtain ⟨candidates, nextHop, pathChoices, -, -, -, ⟨-, rfl⟩ | ⟨-, rfl⟩⟩ := forwardPacket_cases h
  · simp [deliver]
  · simp [moveTo]

theorem forwardPacket_settled (h : m.forwardPacket P = some m') (hm : m.cur.Settled P) :
    m'.cur.Settled P := by
  apply hm.rest (forwardPacket_fib h)
  all_goals
    rcases forwardPacket_mode h with hmode | hmode <;> simp [hmode, ConnState.AboutToForward]

theorem accepted_settled (h : m.accepted P = some m') (hm : m.cur.Settled P) :
    m'.cur.Settled P := by
  rcases accepted_cases h with ⟨-, rfl⟩ | ⟨-, changeDirection, h⟩
  · rw [cur_setCur]
    exact hm.congr rfl rfl rfl rfl rfl rfl
  · rcases phaseTransition_cases h with ⟨-, rfl⟩ | ⟨c, seq, ack, payload, rfl, hc⟩
    · rw [cur_setCur]
      exact hm.congr rfl rfl rfl rfl rfl rfl
    · rw [cur_setCur]
      refine ⟨by simp [ConnState.AboutToForward], fun _ => rfl, by simp, ?_⟩
      rcases hc with ⟨-, -, srcIp, dstIpEc, fib, -, hfib, rfl⟩ | ⟨-, -, rfl⟩
      · exact fun n hn => OpenflowProcess.updateFib_emulated hfib hn
      · exact hm.emulated

def AnswersInPlace (P : Plankton) (m : Model) : Prop :=
  m.processId = .forwarding → m.cur.fwdMode = .chooseInjRes →
    ∀ results ∈ m.cur.injResults, ∀ result ∈ results[m.choice]?,
      ∀ pkt ∈ validPackets P m.cur.pktLocation (m, false, false) result.recvPkts,
        ComesFrom (fun n => (P.network.node n).isEmulated = true) (m.connState pkt.conn).place
          (ofConn pkt.conn
            (validPackets P m.cur.pktLocation (m, false, false) result.recvPkts))

instance (m : Model) : Decidable (m.AnswersInPlace P) :=
  inferInstanceAs (Decidable (_ → _ → ∀ _ ∈ _, ∀ _ ∈ _, ∀ _ ∈ _, ComesFrom _ _ _))

theorem settled_of_emulated {c : ConnState} (hmode : c.AboutToForward)
    (hemu : (P.network.node c.pktLocation).isEmulated = true)
    (hfib : ∀ n, (P.network.node n).isEmulated = true → ∀ nextHops ∈ c.fib n, nextHops = []) :
    c.Settled P := by
  refine ⟨fun _ _ _ nextHops hnhs hseveral => ?_, fun hcollect => ?_, fun _ => hemu, hfib⟩
  · rw [hfib c.pktLocation hemu nextHops hnhs] at hseveral
    simp at hseveral
  · rcases hmode with hmode | hmode <;> simp [hmode] at hcollect

theorem foldlM_receivePacket_emulated {mb : NodePtr} {pkts : List Packet}
    {st st' : Model × Bool × Bool} (h : pkts.foldlM (receivePacket P mb) st = some st')
    (hst : ∀ i n, (P.network.node n).isEmulated = true →
      ∀ nextHops ∈ (st.1.connState i).fib n, nextHops = []) :
    ∀ i n, (P.network.node n).isEmulated = true →
      ∀ nextHops ∈ (st'.1.connState i).fib n, nextHops = [] := by
  refine foldlM_invariant (fun st : Model × Bool × Bool => ∀ i n,
    (P.network.node n).isEmulated = true →
      ∀ nextHops ∈ (st.1.connState i).fib n, nextHops = []) pkts ?_ hst h
  intro pkt _ st₁ st₂ hst₁ hreceive i n hn
  rcases receivePacket_filed hreceive with ⟨-, rfl⟩ | ⟨pkt', c', k, -, rfl, hc'⟩
  · exact hst₁ i n hn
  · show ∀ nextHops ∈ ((st₁.1.setSlot pkt'.conn c').connState i).fib n, _
    rw [setSlot_connState]
    split_ifs
    · rcases hc'.fib with hfib | ⟨st, ec, hfib⟩
      · rw [hfib]
        exact hst₁ _ n hn
      · exact OpenflowProcess.updateFib_emulated hfib hn
    · exact hst₁ i n hn

theorem settleCurrent_settled {mb : NodePtr} {explicitDrop cu ou : Bool}
    (h : m.settleCurrent mb explicitDrop cu ou = some m') (hm : m.cur.Settled P)
    (hemu : cu = false → (P.network.node m.cur.pktLocation).isEmulated = true) :
    m'.cur.Settled P := by
  rcases settleCurrent_cases h with rfl | ⟨hcu, rfl⟩ | ⟨-, candidates, -, -, rfl⟩
  · rw [dropCur, cur_setCur]
    exact hm.rest rfl (by simp [ConnState.AboutToForward]) (by simp) (by simp)
  · rw [cur_setChoiceCount, cur_setCur]
    exact settled_of_emulated (.inr rfl) (hemu hcu) hm.emulated
  · exact hm

theorem chooseInjectionResults_settled (h : m.chooseInjectionResults P = some m')
    (hplace : m.AnswersInPlace P) (hp : m.processId = .forwarding)
    (hmode : m.cur.fwdMode = .chooseInjRes) (hm : ∀ i, (m.connState i).Settled P) :
    ∀ i, (m'.connState i).Settled P := by
  simp only [chooseInjectionResults, Option.bind_eq_bind, Option.bind_eq_some_iff] at h
  obtain ⟨results, hresults, result, hresult, hupdate⟩ := h
  have hin := hplace hp hmode results hresults result hresult
  obtain ⟨st, hfold, -, hsettle⟩ := updateModelFromInjectionResult_cases hupdate
  obtain ⟨hfiled, hconn, hcu⟩ := foldlM_receivePacket_filed hfold
  have hfib := foldlM_receivePacket_emulated hfold fun i => (hm i).emulated
  have hmb : (P.network.node m.cur.pktLocation).isEmulated = true := (hm m.conn).injected hmode
  generalize validPackets P m.cur.pktLocation (m, false, false) result.recvPkts = pkts at *
  -- a connection that received something forwards it from a middlebox, where no FIB has next hops
  have hslot : ∀ i, (st.1.connState i).Settled P := by
    intro i
    by_cases hnil : ofConn i pkts = []
    · rw [(hfiled i).rest hnil]
      exact hm i
    · obtain ⟨-, hforward, -⟩ := (hfiled i).last _ (List.getLast?_eq_getLast_of_ne_nil hnil)
      refine settled_of_emulated hforward ?_ (hfib i)
      have hmem := List.getLast_mem hnil
      obtain ⟨hpkt, hi⟩ := List.mem_filter.mp hmem
      have hcomes := hin _ hpkt
      rw [beq_iff_eq.mp hi] at hcomes
      show (P.network.node (st.1.connState i).place.1).isEmulated = true
      rw [(hfiled i).place]
      exact (foldl_place_iff hmb (ofConn i pkts) (m.connState i).place).mpr hcomes
  refine (settleCurrent_setsCur hsettle).slots (settleCurrent_settled hsettle (hslot _) ?_) hslot
  -- the packet that was injected goes on by itself only where it received nothing
  intro hfalse
  rw [hfalse] at hcu
  have hnil : ofConn m.conn pkts = [] := by
    simpa using hcu
  rw [show st.1.cur = m.cur from (congrArg st.1.connState hconn).trans ((hfiled m.conn).rest hnil)]
  exact hmb

theorem execForwarding_settled (h : m.execForwarding P results = some m')
    (hplace : m.AnswersInPlace P) (hp : m.processId = .forwarding)
    (hm : ∀ i, (m.connState i).Settled P) : ∀ i, (m'.connState i).Settled P := by
  by_cases hmode : m.cur.fwdMode = .chooseInjRes
  · unfold execForwarding at h
    rw [hmode] at h
    exact chooseInjectionResults_settled h hplace hp hmode hm
  · refine (execForwarding_setsCur h hmode).slots ?_ hm
    have hcur : m.cur.Settled P := hm m.conn
    unfold execForwarding at h
    split at h
    · next hfirst => exact firstCollect_settled h hcur hfirst
    · next hfirst =>
      obtain ⟨srcIp, h⟩ := firstForward_cases h
      refine forwardPacket_settled h ?_
      rw [cur_setCur]
      exact hcur.congr rfl rfl rfl rfl rfl rfl
    · exact collectNextHops_settled h hcur
    · next heq => exact absurd heq hmode
    · exact forwardPacket_settled h hcur
    · exact accepted_settled h hcur
    · obtain rfl := Option.some.inj h
      rw [cur_setCur]
      exact hcur.congr rfl rfl rfl rfl rfl rfl

end Model

namespace Plankton

open Model

variable {P : Plankton} {V : Invariants} {m m' s t : Model} {results : List InjectionResult}
  {l : Label} {tr : List (Link Model Label)}

theorem control_settled (h : P.control results m = some m') (hplace : m.AnswersInPlace P)
    (hinstalling : m.Installing) (hm : ∀ i, (m.connState i).Settled P) :
    ∀ i, (m'.connState i).Settled P := by
  refine control_slots (ConnState.Settled P) h hm
    (fun c _ hc => hc.congr rfl rfl rfl rfl rfl rfl) ?_
    (fun hp m₁ h₁ => execForwarding_settled h₁ hplace hp hm) ?_
  · intro c hc
    exact hc.rest rfl (by simp [ConnState.AboutToForward]) (by simp) (by simp)
  · intro hp i horder nextHops hcur
    have hmode := hinstalling hp
    refine ⟨fun hforward => ?_, hcur.collects, hcur.injected, fun n hn => ?_⟩
    · rcases hmode with hmode | hmode <;> simp [ConnState.AboutToForward, hmode] at hforward
    · -- updates are installed at nodes of the model only
      have hne : n ≠ m.cur.pktLocation := by
        rintro rfl
        exact absurd ((OpenflowProcess.isEmulated_of_nodeOrder horder).symm.trans hn)
          Bool.false_ne_true
      show ∀ nhs ∈ m.cur.fib.setIpnhs m.cur.pktLocation nextHops n, nhs = []
      rw [OpenflowProcess.setIpnhs_of_ne hne]
      exact hcur.emulated n hn

theorem step_judged (h : P.step V m l = some m') :
    ∃ m₁ v, P.control l.results (m.setChoice l.choice) = some m₁ ∧
      ((m'.connState = (m₁.judge v).connState ∧ m'.conn = m₁.conn ∧ m'.numConns = m₁.numConns ∧
          m'.processId = m₁.processId ∧ m'.correlatedInvIdx = m.correlatedInvIdx) ∨
        m'.correlatedInvIdx = m.correlatedInvIdx + 1 ∧ m'.processId = .forwarding) := by
  obtain ⟨-, m₁, m₂, r, hcontrol, hcheck, hafter⟩ := step_eq_some h
  obtain ⟨inv, v, -, -, -, -, hr⟩ := Invariants.checkViolation_cases hcheck
  have hidx₁ : m₁.correlatedInvIdx = (m.setChoice l.choice).correlatedInvIdx :=
    control_correlatedInvIdx hcontrol
  have hidx : (m₁.judge v).correlatedInvIdx = m.correlatedInvIdx := hidx₁
  refine ⟨m₁, v, hcontrol, ?_⟩
  by_cases hcount : (m₁.judge v).choiceCount = 0
  · rcases V.conclude_of_stop l.result hcount with ⟨b, -, hconclude⟩ | ⟨-, hconclude⟩
    · obtain ⟨rfl, rfl⟩ := Prod.mk.inj (hr.trans hconclude)
      obtain rfl := Option.some.inj hafter
      exact .inl ⟨rfl, rfl, rfl, rfl, hidx⟩
    · obtain ⟨rfl, rfl⟩ := Prod.mk.inj (hr.trans hconclude)
      have hreinit : P.reinit V _ = some m' := if_pos rfl ▸ hafter
      refine .inr ⟨?_, ?_⟩
      · rw [(reinit_control hreinit).2]
        exact congrArg (· + 1) hidx
      · obtain ⟨m₃, -, rfl⟩ := Option.map_eq_some_iff.mp hreinit
        rfl
  · rw [V.conclude_of_choiceCount _ hcount] at hr
    obtain ⟨rfl, rfl⟩ := Prod.mk.inj hr
    obtain rfl := Option.some.inj hafter
    exact .inl ⟨rfl, rfl, rfl, rfl, hidx⟩

structure AllSettled (P : Plankton) (m : Model) : Prop where
  settled : ∀ i, (m.connState i).Settled P
  installing : m.Installing

theorem settled_of_starts {c : Connection} {st : OpenflowUpdateState} {s : ConnState}
    (h : c.Starts P st s) : s.Settled P := by
  refine ⟨fun hmode => ?_, fun _ => h.candidates, by simp [h.fwdMode], fun n hn => ?_⟩
  · rcases hmode with hmode | hmode <;> simp [h.fwdMode] at hmode
  · exact OpenflowProcess.updateFib_emulated h.fib hn

theorem initModel_allSettled (h : P.initModel V = some s) : AllSettled P s := by
  refine ⟨initModel_slots (ConnState.Settled P) ?_ (fun c st s hs => settled_of_starts hs) h, ?_⟩
  · refine ⟨fun hmode => ?_, fun _ => rfl, by simp [ConnState.zero], by simp [ConnState.zero]⟩
    rcases hmode with hmode | hmode <;> simp [ConnState.zero] at hmode
  · intro hp
    simp [(initModel_cases h).1] at hp

theorem step_allSettled (h : P.step V m l = some m')
    (hplace : (m.setChoice l.choice).AnswersInPlace P) (hm : AllSettled P m) :
    AllSettled P m' := by
  refine ⟨step_slots (ConnState.Settled P) (fun c st s hs => settled_of_starts hs)
    (fun c _ _ hc => hc.congr rfl rfl rfl rfl rfl rfl) h fun m₁ h₁ =>
      control_settled h₁ hplace hm.installing hm.settled, ?_⟩
  obtain ⟨m₁, v, hcontrol, ⟨hslots, hconn, -, hp, -⟩ | ⟨-, hp⟩⟩ := step_judged h
  · intro hp'
    have hmode := control_installing hcontrol hm.installing (hp ▸ hp')
    have hcur : m'.cur.fwdMode = m₁.cur.fwdMode := by
      show (m'.connState m'.conn).fwdMode = _
      rw [hslots, hconn, judge_connState, if_pos rfl]
    rwa [hcur]
  · intro hp'
    simp [hp] at hp'

end Plankton

namespace Model

variable {P : Plankton} {m m' : Model} {results : List InjectionResult}

theorem forwardPacket_pathChoices (h : m.forwardPacket P = some m') :
    ∃ candidates nextHop, m.cur.candidates = some candidates ∧
      candidates[m.choice]? = some nextHop ∧
        m.rememberChoice candidates nextHop = some m'.cur.pathChoices := by
  obtain ⟨candidates, nextHop, pathChoices, hc, hn, hp, ⟨-, rfl⟩ | ⟨-, rfl⟩⟩ :=
    forwardPacket_cases h
  · exact ⟨candidates, nextHop, hc, hn, by simpa [deliver] using hp⟩
  · exact ⟨candidates, nextHop, hc, hn, by simpa [moveTo] using hp⟩

theorem execForwarding_pathChoices (h : m.execForwarding P results = some m')
    (hmode : m.cur.AboutToForward) : ∃ candidates nextHop, m.cur.candidates = some candidates ∧
      candidates[m.choice]? = some nextHop ∧
        m.rememberChoice candidates nextHop = some m'.cur.pathChoices := by
  unfold execForwarding at h
  rcases hmode with hmode | hmode
  · rw [hmode] at h
    obtain ⟨srcIp, h⟩ := firstForward_cases h
    have hchoices := forwardPacket_pathChoices h
    simpa [rememberChoice] using hchoices
  · rw [hmode] at h
    exact forwardPacket_pathChoices h

theorem rememberChoice_keeps {candidates : Candidates} {nextHop hop : FibIpnh} {choices : Choices}
    {ec : Option EcPtr} {n : NodePtr} (h : m.rememberChoice candidates nextHop = some choices)
    (hold : m.cur.pathChoices.getChoice ec n = some hop) : choices.getChoice ec n = some hop := by
  unfold rememberChoice at h
  split_ifs at h
  · exact Choices.getChoice_of_addChoice h hold
  · rwa [← Option.some.inj h]

theorem rememberChoice_offered {nextHops : List FibIpnh} {nextHop : FibIpnh} {choices : Choices}
    (hseveral : 1 < nextHops.length) (hmem : nextHop ∈ m.cur.offered nextHops)
    (h : m.rememberChoice (m.cur.offered nextHops) nextHop = some choices) :
    choices.getChoice m.cur.dstIpEc m.cur.pktLocation = some nextHop := by
  have hadds : ∀ candidates : Candidates, 1 < candidates.length →
      m.rememberChoice candidates nextHop = some choices →
        choices.getChoice m.cur.dstIpEc m.cur.pktLocation = some nextHop := by
    intro candidates hlen hremember
    rw [rememberChoice, if_pos hlen] at hremember
    exact Choices.getChoice_addChoice hremember
  unfold ConnState.offered at hmem h
  cases hrecorded : m.cur.recorded with
  | none =>
    rw [hrecorded] at h
    exact hadds _ hseveral h
  | some choice =>
    rw [hrecorded] at hmem h
    dsimp only at hmem h
    split_ifs at hmem h
    · obtain rfl := List.mem_singleton.mp hmem
      exact rememberChoice_keeps h hrecorded
    · exact hadds _ hseveral h

theorem collectNextHops_pathChoices (h : m.collectNextHops P results = some m') :
    m'.cur.pathChoices = m.cur.pathChoices := by
  rcases collectNextHops_cases h with ⟨-, h⟩ | ⟨-, -, rfl⟩ | ⟨-, _, -, -, rfl⟩
  · obtain ⟨-, rfl⟩ := injectPacket_cases h
    simp
  · simp [dropCur]
  · simp

theorem accepted_pathChoices (h : m.accepted P = some m') :
    m'.cur.pathChoices = m.cur.pathChoices := by
  rcases accepted_cases h with ⟨-, rfl⟩ | ⟨-, changeDirection, h⟩
  · rw [cur_setCur]
  · rcases phaseTransition_cases h with ⟨-, rfl⟩ | ⟨c, seq, ack, payload, rfl, hc⟩
    · rw [cur_setCur]
    · rw [cur_setCur]
      rcases hc with ⟨-, -, _, _, _, -, -, rfl⟩ | ⟨-, -, rfl⟩
      · rfl
      · rfl

def KeepsChoices (c c' : ConnState) : Prop :=
  ∀ ec n hop, c.pathChoices.getChoice ec n = some hop → c'.pathChoices.getChoice ec n = some hop

theorem keepsChoices_of_eq {c c' : ConnState} (h : c'.pathChoices = c.pathChoices) :
    KeepsChoices c c' := fun ec n hop hold => by rwa [h]

theorem execForwarding_keepsChoices (h : m.execForwarding P results = some m')
    (hmode : m.cur.fwdMode ≠ .chooseInjRes) : KeepsChoices m.cur m'.cur := by
  by_cases hforward : m.cur.AboutToForward
  · obtain ⟨candidates, nextHop, -, -, hremember⟩ := execForwarding_pathChoices h hforward
    exact fun ec n hop hold => rememberChoice_keeps hremember hold
  · apply keepsChoices_of_eq
    unfold execForwarding at h
    split at h
    · obtain ⟨m₁, h₁, rfl⟩ := firstCollect_cases h
      rw [cur_setCur]
      exact collectNextHops_pathChoices h₁
    · next heq => exact absurd (.inl heq) hforward
    · exact collectNextHops_pathChoices h
    · next heq => exact absurd heq hmode
    · next heq => exact absurd (.inr heq) hforward
    · exact accepted_pathChoices h
    · obtain rfl := Option.some.inj h
      rw [cur_setCur]

theorem preserved_keepsChoices : Preserved P KeepsChoices where
  trans h h' ec n hop hold := h' ec n hop (h ec n hop hold)
  writes _ _ _ _ _ _ := keepsChoices_of_eq rfl
  forwards h hmode := execForwarding_keepsChoices h hmode
  receives _ hnew hc' := keepsChoices_of_eq (by rw [hc'.pathChoices, if_neg (by simp [hnew])])

end Model

namespace Plankton

open Model

variable {P : Plankton} {V : Invariants} {m m' s t : Model} {results : List InjectionResult}
  {l : Label} {tr : List (Link Model Label)}

theorem step_keepsChoices (h : P.step V m l = some m') :
    m'.correlatedInvIdx = m.correlatedInvIdx ∧ Kept KeepsChoices m m' ∨
      m'.correlatedInvIdx = m.correlatedInvIdx + 1 := by
  have hR : Preserved P KeepsChoices := preserved_keepsChoices
  obtain ⟨m₁, v, hcontrol, ⟨hslots, -, hnum, -, hidx⟩ | ⟨hidx, -⟩⟩ := step_judged h
  · have hjudged := hR.kept_trans (control_kept hR hcontrol) (judge_kept hR m₁ v)
    exact .inl ⟨hidx, hnum ▸ hjudged.numConns, fun i hi => hslots ▸ hjudged.slot i hi⟩
  · exact .inr hidx

structure Takes (l : Link Model Label) (i : Nat) (ec : Option EcPtr) (n : NodePtr)
    (nextHops : List FibIpnh) (hop : FibIpnh) : Prop where
  processId : l.before.processId = .forwarding
  conn : l.before.conn = i
  forwards : l.before.cur.AboutToForward
  dstIpEc : l.before.cur.dstIpEc = ec
  pktLocation : l.before.cur.pktLocation = n
  several : 1 < nextHops.length
  nextHops : l.before.cur.nextHops = some nextHops
  taken : ∃ candidates ∈ l.before.cur.candidates, candidates[l.act.choice]? = some hop

instance (l : Link Model Label) (i : Nat) (ec : Option EcPtr) (n : NodePtr)
    (nextHops : List FibIpnh) (hop : FibIpnh) : Decidable (Takes l i ec n nextHops hop) :=
  decidable_of_iff (l.before.processId = .forwarding ∧ l.before.conn = i ∧
      (l.before.cur.fwdMode = .firstForward ∨ l.before.cur.fwdMode = .forwardPacket) ∧
      l.before.cur.dstIpEc = ec ∧ l.before.cur.pktLocation = n ∧ 1 < nextHops.length ∧
      l.before.cur.nextHops = some nextHops ∧
      ∃ candidates ∈ l.before.cur.candidates, candidates[l.act.choice]? = some hop)
    ⟨fun ⟨h₁, h₂, h₃, h₄, h₅, h₆, h₇, h₈⟩ => ⟨h₁, h₂, h₃, h₄, h₅, h₆, h₇, h₈⟩,
      fun ⟨h₁, h₂, h₃, h₄, h₅, h₆, h₇, h₈⟩ => ⟨h₁, h₂, h₃, h₄, h₅, h₆, h₇, h₈⟩⟩

/-- The next hop that a connection has taken is taken again, for the same class at the same node,
where it is still one of several. -/
def Sticks (tr : List (Link Model Label)) : Prop :=
  tr.Pairwise fun l₁ l₂ => ∀ i < l₁.before.numConns,
    l₂.before.correlatedInvIdx = l₁.before.correlatedInvIdx →
      ∀ ec n nextHops₁ nextHops₂ hop₁ hop₂, Takes l₁ i ec n nextHops₁ hop₁ →
        Takes l₂ i ec n nextHops₂ hop₂ → hop₁ ∈ nextHops₂ → hop₂ = hop₁

section Takes

variable {k : Link Model Label} {i : Nat} {ec : Option EcPtr} {n : NodePtr}
  {nextHops : List FibIpnh} {hop hop' : FibIpnh}

theorem Takes.offered (h : Takes k i ec n nextHops hop) (hsettled : k.before.cur.Settled P) :
    k.before.cur.candidates = some (k.before.cur.offered nextHops) ∧
      (k.before.cur.offered nextHops)[k.act.choice]? = some hop := by
  obtain ⟨candidates, hc, htaken⟩ := h.taken
  obtain rfl := hsettled.forwards h.forwards candidates hc nextHops h.nextHops h.several
  exact ⟨hc, htaken⟩

theorem Takes.recorded (h : Takes k i ec n nextHops hop) (hstep : P.step V k.before k.act =
    some k.after) (hsettled : k.before.cur.Settled P)
    (hidx : k.after.correlatedInvIdx = k.before.correlatedInvIdx) :
    (k.after.connState i).pathChoices.getChoice ec n = some hop := by
  obtain ⟨hc, htaken⟩ := h.offered hsettled
  obtain ⟨m₁, v, hcontrol, ⟨hslots, -⟩ | ⟨hidx', -⟩⟩ := step_judged hstep
  · obtain ⟨m₂, hswitch, hrest⟩ := control_cases hcontrol
    obtain ⟨p, j, rfl⟩ := checkToSwitchProcess_eq hswitch
    rcases hrest with ⟨hp, -⟩ | ⟨-, h₂⟩ | ⟨hp, -⟩
    · exact absurd (hp.symm.trans h.processId) (by simp)
    · obtain ⟨candidates, nextHop, hc', hn, hremember⟩ :=
        execForwarding_pathChoices h₂ h.forwards
      obtain rfl := Option.some.inj (hc.symm.trans hc')
      obtain rfl := Option.some.inj (htaken.symm.trans hn)
      have hchoice := rememberChoice_offered (m := k.before.setChoice k.act.choice) h.several
        (List.mem_of_getElem? htaken) hremember
      have hconn : ((m₂.setProcessId p).setChoiceCount j).conn = i :=
        (execForwarding_sameControl h₂).conn.trans h.conn
      rw [hslots, judge_connState, if_pos hconn.symm, ← h.dstIpEc, ← h.pktLocation]
      exact hchoice
    · exact absurd (hp.symm.trans h.processId) (by simp)
  · omega

theorem Takes.eq_of_recorded (h : Takes k i ec n nextHops hop') (hsettled : k.before.cur.Settled P)
    (hchoice : (k.before.connState i).pathChoices.getChoice ec n = some hop)
    (hmem : hop ∈ nextHops) : hop' = hop := by
  obtain ⟨-, htaken⟩ := h.offered hsettled
  have hrecorded : k.before.cur.recorded = some hop := by
    rw [ConnState.recorded, h.dstIpEc, h.pktLocation, ← hchoice, ← h.conn]
    rfl
  rw [ConnState.offered, hrecorded] at htaken
  dsimp only at htaken
  rw [if_pos ⟨h.several, hmem⟩] at htaken
  exact List.mem_singleton.mp (List.mem_of_getElem? htaken)

theorem Takes.sticks {k' : Link Model Label} {nextHops' : List FibIpnh}
    (h : Takes k i ec n nextHops hop) (hstep : P.step V k.before k.act = some k.after)
    (hrun : Run (P.step V) k.after tr k'.before) (hsettled : k.before.cur.Settled P)
    (hsettled' : k'.before.cur.Settled P) (hi : i < k.before.numConns)
    (hidx : k'.before.correlatedInvIdx = k.before.correlatedInvIdx)
    (h' : Takes k' i ec n nextHops' hop') (hmem : hop ∈ nextHops') : hop' = hop := by
  -- the index of the invariant never falls, so it was the same in all states in between
  have hkept := hrun.invariant (fun m => k.before.correlatedInvIdx ≤ m.correlatedInvIdx ∧
    (m.correlatedInvIdx = k.before.correlatedInvIdx → i < m.numConns ∧
      (m.connState i).pathChoices.getChoice ec n = some hop)) ?_ ?_
  · exact h'.eq_of_recorded hsettled' (hkept.1.2 hidx).2 hmem
  · rcases step_keepsChoices hstep with ⟨hsame, hkept⟩ | hnext
    · exact ⟨hsame.ge, fun _ => ⟨hi.trans_le hkept.numConns, h.recorded hstep hsettled hsame⟩⟩
    · exact ⟨by omega, fun _ => by omega⟩
  · rintro l - hstep' ⟨hle, hchoice⟩
    rcases step_keepsChoices hstep' with ⟨hsame, hkept⟩ | hnext
    · rw [hsame]
      refine ⟨hle, fun heq => ?_⟩
      obtain ⟨hlt, hold⟩ := hchoice heq
      exact ⟨hlt.trans_le hkept.numConns, hkept.slot i hlt ec n hop hold⟩
    · exact ⟨by omega, fun _ => by omega⟩

end Takes

theorem sticks_of_allSettled (h : Run (P.step V) s tr t)
    (hsettled : ∀ l ∈ tr, AllSettled P l.before) : Sticks tr := by
  induction h with
  | nil => exact .nil
  | @cons s s' t a tr hstep hrest ih =>
    rw [List.forall_mem_cons] at hsettled
    refine List.Pairwise.cons ?_ (ih hsettled.2)
    intro l hl i hi hidx ec n nextHops₁ nextHops₂ hop₁ hop₂ h₁ h₂ hmem
    obtain ⟨tr₁, tr₂, rfl⟩ := List.append_of_mem hl
    exact h₁.sticks hstep hrest.around.1 (hsettled.1.settled _)
      ((hsettled.2 l hl).settled _) hi hidx h₂ hmem

/-- In a run in which the answers of middleboxes leave packets only at middleboxes, a connection
sticks to its next hops. -/
theorem run_sticks (hs : P.initModel V = some s) (h : Run (P.step V) s tr t)
    (hplace : ∀ l ∈ tr, (l.before.setChoice l.act.choice).AnswersInPlace P) : Sticks tr := by
  have hsettled := h.invariant (AllSettled P) (initModel_allSettled hs)
    fun l hl hstep hm => step_allSettled hstep (hplace l hl) hm
  exact sticks_of_allSettled h fun l hl => (hsettled.2 l hl).1

/-! A host with two ways to `10.9.0.0/16`. One of them is a middlebox. -/

section Twohomed

def twohomedIntf : IntfPtr → Interface
  | 10 => ⟨2, ⟨0x0A000101#32, 24, twentyFour_le⟩, false⟩
  | 20 => ⟨3, ⟨0x0A000201#32, 24, twentyFour_le⟩, false⟩
  | 11 => ⟨2, ⟨0x0A000102#32, 24, twentyFour_le⟩, false⟩
  | _ => ⟨2, ⟨0x0A000202#32, 24, twentyFour_le⟩, false⟩

def twohomedNode : NodePtr → Node
  | 0 => ⟨[10, 20], [⟨starTarget, 0#32, 2, 1⟩, ⟨starTarget, 0#32, 3, 1⟩],
      starRoutes_ranked, [(2, 1, 11), (3, 2, 21)], false⟩
  | 1 => ⟨[11], [⟨starTarget, 0#32, 2, 1⟩], starRoute_ranked, [(2, 0, 10)], true⟩
  | 2 => ⟨[21], [], Route.weakSorted_nil, [(2, 0, 20)], false⟩
  | _ => ⟨[], [], Route.weakSorted_nil, [], false⟩

def twohomed : Network where
  nodes := [0, 1, 2]
  node := twohomedNode
  intf := twohomedIntf
  peer_mem n p hp := by
    rcases n with _ | _ | _ | n <;> simp [twohomedNode] at hp ⊢
    · rcases hp with rfl | rfl <;> simp
    · subst hp; simp
    · subst hp; simp
  l2Lan _ _ := ⟨[], []⟩
  lan_built _ _ := ⟨1, 0, rfl⟩

def twohomedPlankton : Plankton := .ofNetwork twohomed (noUpdates _)

def pingConn : Connection where
  protocol := .icmpEcho
  srcNode := 0
  dstIpEc := (twohomedPlankton.ecs.findEc 0x0A090001#32).getD 0
  srcPort := 0#16
  dstPort := 0#16
  srcIp := 0x0A000101#32
  seq := 0#32
  ack := 0#32

def sentBack (protoState : ProtoState) : Packet where
  intf := some 11
  srcIp := 0x0A000101#32
  dstIp := 0x0A090001#32
  srcPort := 0#16
  dstPort := 0#16
  seq := 0#32
  ack := 0#32
  protoState := protoState
  payload := none
  conn := 0
  isNew := false
  oppositeDir := false
  nextPhase := false

def throughMb (protoState : ProtoState) : List Label :=
  [go, go, go, injectFor [sentBack protoState], go]

theorem sticks_forwardedBack : ∃ s t tr,
    twohomedPlankton.initModel (unchecked [pingConn]) = some s ∧
      Run (twohomedPlankton.step (unchecked [pingConn])) s tr t ∧ t.cur.pktLocation = 1 ∧
        Sticks tr := by
  have hrun : ((twohomedPlankton.initModel (unchecked [pingConn])).bind fun s =>
      (execute (twohomedPlankton.step (unchecked [pingConn])) s
        (throughMb psIcmpEchoReq ++ [go, go, go])).map fun r =>
          (r.2.cur.pktLocation, decide (∀ l ∈ r.1,
            (l.before.setChoice l.act.choice).AnswersInPlace twohomedPlankton))) =
      some (1, true) := by
    decide +kernel
  obtain ⟨s, hs, hrun⟩ := Option.bind_eq_some_iff.mp hrun
  obtain ⟨⟨tr, t⟩, hexec, hr⟩ := Option.map_eq_some_iff.mp hrun
  obtain ⟨hloc, hplace⟩ := Prod.mk.inj hr
  exact ⟨s, t, tr, hs, run_of_execute hexec, hloc,
    run_sticks hs (run_of_execute hexec) (of_decide_eq_true hplace)⟩

def takesBoth : List (Link Model Label) → Bool
  | [_, l₁, _, _, _, l₂] => decide (0 < l₁.before.numConns ∧
      l₂.before.correlatedInvIdx = l₁.before.correlatedInvIdx ∧
      Takes l₁ 0 l₁.before.cur.dstIpEc 0
        [⟨1, some 11, 1, some 11⟩, ⟨2, some 21, 2, some 21⟩] ⟨1, some 11, 1, some 11⟩ ∧
      Takes l₂ 0 l₁.before.cur.dstIpEc 0
        [⟨1, some 11, 1, some 11⟩, ⟨2, some 21, 2, some 21⟩] ⟨0, some 10, 0, some 10⟩)
  | _ => false

/-- The middlebox sends an echo reply where the request was sent, the host is where the packet is
then, and the packet takes the next hop of the middlebox from there. -/
theorem not_sticks : ¬ ∀ (P : Plankton) (V : Invariants) (s t : Model)
    (tr : List (Link Model Label)), P.initModel V = some s → Run (P.step V) s tr t →
      Sticks tr := by
  intro h
  have hrun : ((twohomedPlankton.initModel (unchecked [pingConn])).bind fun s =>
      (execute (twohomedPlankton.step (unchecked [pingConn])) s
        (throughMb psIcmpEchoRep ++ [go])).map fun r => takesBoth r.1) = some true := by
    decide +kernel
  obtain ⟨s, hs, hrun⟩ := Option.bind_eq_some_iff.mp hrun
  obtain ⟨⟨tr, t⟩, hexec, hr⟩ := Option.map_eq_some_iff.mp hrun
  have hsticks := h _ _ s t tr hs (run_of_execute hexec)
  dsimp only at hr
  rw [takesBoth.eq_def] at hr
  split at hr
  · next _ l₁ _ _ _ l₂ =>
    obtain ⟨hnum, hidx, h₁, h₂⟩ := of_decide_eq_true hr
    have hpair := (List.pairwise_cons.mp (List.pairwise_cons.mp hsticks).2).1 l₂ (by simp)
    exact absurd (hpair 0 hnum hidx _ _ _ _ _ _ h₁ h₂ (List.mem_cons_self ..)) (by decide)
  · exact absurd hr Bool.false_ne_true

end Twohomed

end Plankton

end Neo
