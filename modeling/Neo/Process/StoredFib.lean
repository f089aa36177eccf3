import Neo.Process.Installed
import Neo.Process.NextHops
import Neo.Invariant.Reachability

/-! The FIBs that the connections store against the counters of installed updates. An installation
writes the FIB of one connection only, and a connection that has ended keeps the FIB it had. -/

namespace Neo

namespace OpenflowProcess

variable {net : Network} {of : OpenflowProcess net.toTopology} {ec : EqClass}
  {st st' : OpenflowUpdateState} {n : NodePtr} {addr : IPv4Address} {fib : FIB}
  {nextHops : List FibIpnh}

theorem updateFib_installed (hU : ec.Uniform of) (hst : of.Legal st) (hst' : of.Legal st')
    (hn : n ∈ net.nodes) (haddr : ec.representativeAddr = some addr)
    (hinstalled : ∀ n', of.installed st' n' =
      if n' = n then of.installed st n + 1 else of.installed st n')
    (hfib : of.updateFib st ec = some fib)
    (hnext : nodeNextHops net n (of.updatesOf n) (of.installed st n + 1) ec addr = some nextHops) :
    of.updateFib st' ec = some (fib.setIpnhs n nextHops) := by
  obtain ⟨fib₁, hfib₁, hnode₁⟩ := updateFib_apply hU hst haddr
  obtain ⟨fib₂, hfib₂, hnode₂⟩ := updateFib_apply hU hst' haddr
  obtain rfl := Option.some.inj (hfib.symm.trans hfib₁)
  rw [hfib₂]
  apply congrArg some
  funext n'
  rw [hnode₂, hinstalled, FIB.setIpnhs]
  by_cases heq : n' = n
  · subst heq
    rw [if_pos hn, if_pos rfl, if_pos rfl]
    exact hnext
  · rw [if_neg heq, if_neg heq, hnode₁]

theorem updateFib_congr (hU : ec.Uniform of) (hst : of.Legal st) (hst' : of.Legal st')
    (haddr : ec.representativeAddr = some addr)
    (h : ∀ n ∈ net.nodes, nodeNextHops net n (of.updatesOf n) (of.installed st' n) ec addr =
      nodeNextHops net n (of.updatesOf n) (of.installed st n) ec addr) :
    of.updateFib st' ec = of.updateFib st ec := by
  obtain ⟨fib₁, hfib₁, hnode₁⟩ := updateFib_apply hU hst haddr
  obtain ⟨fib₂, hfib₂, hnode₂⟩ := updateFib_apply hU hst' haddr
  rw [hfib₁, hfib₂]
  apply congrArg some
  funext n
  rw [hnode₁, hnode₂]
  split_ifs with hn
  · exact h n hn
  · rfl

end OpenflowProcess

namespace ConnState

/-- Not yet dropped, and not accepted in the last state of its protocol. -/
def Live (c : ConnState) : Prop :=
  c.fwdMode ≠ .dropped ∧ ¬(c.fwdMode = .accepted ∧ c.protoState.isLast = true)

def SameFib (c c' : ConnState) : Prop := c'.dstIpEc = c.dstIpEc ∧ c'.fib = c.fib

theorem SameFib.refl (c : ConnState) : SameFib c c := ⟨rfl, rfl⟩

theorem SameFib.trans {c c' c'' : ConnState} (h : SameFib c c') (h' : SameFib c' c'') :
    SameFib c c'' := ⟨h'.1.trans h.1, h'.2.trans h.2⟩

end ConnState

namespace Plankton

variable {P : Plankton} {st : OpenflowUpdateState} {c c' : ConnState}

/-- The stored FIB is the one `update_fib` computes. -/
def Current (P : Plankton) (st : OpenflowUpdateState) (c : ConnState) : Prop :=
  ∃ ec, P.IsEc ec ∧ c.dstIpEc = some ec ∧
    P.openflow.updateFib st (P.ecs.ranges ec) = some c.fib

theorem Current.sameFib (h : P.Current st c) (hsame : c.SameFib c') : P.Current st c' := by
  obtain ⟨ec, hec, hdst, hfib⟩ := h
  refine ⟨ec, hec, hsame.1.trans hdst, ?_⟩
  rw [hsame.2]
  exact hfib

def Files (P : Plankton) (st : OpenflowUpdateState) (c c' : ConnState) : Prop :=
  P.Current st c' ∨ c.SameFib c' ∧ (c'.Live → c.Live)

theorem files_of_sameFib (hsame : c.SameFib c') (hlive : c'.Live → c.Live) : P.Files st c c' :=
  .inr ⟨hsame, hlive⟩

end Plankton

namespace Model

variable {P : Plankton} {m m' : Model} {results : List InjectionResult}

theorem collectNextHops_sameFib (h : m.collectNextHops P results = some m') :
    m.cur.SameFib m'.cur := by
  rcases collectNextHops_cases h with ⟨-, h⟩ | ⟨-, -, rfl⟩ | ⟨-, nextHops, -, -, rfl⟩
  · obtain ⟨-, rfl⟩ := injectPacket_cases h
    rw [cur_setChoiceCount, cur_setCur]
    exact .refl _
  · rw [dropCur, cur_setCur]
    exact .refl _
  · rw [cur_setChoiceCount, cur_setCur]
    exact .refl _

theorem forwardPacket_sameFib (h : m.forwardPacket P = some m') : m.cur.SameFib m'.cur := by
  obtain ⟨candidates, nextHop, pathChoices, -, -, -, ⟨-, rfl⟩ | ⟨-, rfl⟩⟩ := forwardPacket_cases h
  · simp only [deliver, cur_setChoiceCount, cur_setCur]
    exact .refl _
  · simp only [moveTo, cur_setChoiceCount, cur_setCur]
    exact .refl _

theorem accepted_files (h : m.accepted P = some m') (hmode : m.cur.fwdMode = .accepted) :
    P.Files m.openflowUpdateState m.cur m'.cur := by
  rcases accepted_cases h with ⟨-, rfl⟩ | ⟨hlast, changeDirection, h⟩
  · rw [cur_setCur]
    exact Plankton.files_of_sameFib (.refl _) id
  · have hlive : m.cur.Live := by
      simp [ConnState.Live, hmode, hlast]
    rcases phaseTransition_cases h with ⟨-, rfl⟩ | ⟨c, seq, ack, payload, rfl, hc⟩
    · rw [cur_setCur]
      exact Plankton.files_of_sameFib (.refl _) id
    · rw [cur_setCur]
      rcases hc with ⟨-, -, srcIp, dstIpEc, fib, hfind, hfib, rfl⟩ | ⟨-, -, rfl⟩
      · exact .inl ⟨dstIpEc, ⟨m.cur.srcIp, hfind⟩, rfl, hfib⟩
      · exact Plankton.files_of_sameFib (.refl _) fun _ => hlive

theorem execForwarding_files (h : m.execForwarding P results = some m')
    (hmode : m.cur.fwdMode ≠ .chooseInjRes) : P.Files m.openflowUpdateState m.cur m'.cur := by
  unfold execForwarding at h
  split at h
  · next hm =>
    obtain ⟨m₁, h₁, rfl⟩ := firstCollect_cases h
    have hsame := collectNextHops_sameFib h₁
    rw [cur_setCur]
    exact Plankton.files_of_sameFib hsame fun _ => by simp [ConnState.Live, hm]
  · next hm =>
    obtain ⟨srcIp, h⟩ := firstForward_cases h
    have hsame := forwardPacket_sameFib h
    rw [cur_setCur] at hsame
    exact Plankton.files_of_sameFib hsame fun _ => by simp [ConnState.Live, hm]
  · next hm =>
    exact Plankton.files_of_sameFib (collectNextHops_sameFib h) fun _ => by
      simp [ConnState.Live, hm]
  · next heq => exact absurd heq hmode
  · next hm =>
    exact Plankton.files_of_sameFib (forwardPacket_sameFib h) fun _ => by
      simp [ConnState.Live, hm]
  · next hm => exact accepted_files h hm
  · obtain rfl := Option.some.inj h
    rw [cur_setCur]
    exact Plankton.files_of_sameFib (.refl _) id

theorem settleCurrent_sameFib {mb : NodePtr} {explicitDrop cu ou : Bool}
    (h : m.settleCurrent mb explicitDrop cu ou = some m') (i : Nat) :
    (m.connState i).SameFib (m'.connState i) := by
  by_cases hi : i = m.conn
  · subst hi
    rcases settleCurrent_cases h with rfl | ⟨-, rfl⟩ | ⟨-, candidates, -, -, rfl⟩
    · show m.cur.SameFib (m.dropCur).cur
      rw [dropCur, cur_setCur]
      exact .refl _
    · show m.cur.SameFib (m.setCur _).cur
      rw [cur_setCur]
      exact .refl _
    · exact .refl _
  · rw [(settleCurrent_setsCur h).connState hi]
    exact .refl _

theorem chooseInjectionResults_files (h : m.chooseInjectionResults P = some m') (i : Nat) :
    P.Current m.openflowUpdateState (m'.connState i) ∨
      (m.connState i).SameFib (m'.connState i) := by
  apply chooseInjectionResults_invariant
    (fun m₁ => P.Current m.openflowUpdateState (m₁.connState i) ∨
      (m.connState i).SameFib (m₁.connState i)) h (.inr (.refl _))
  · intro st₁ st₂ pkt hreceive hsame hm
    rcases receivePacket_cases hreceive with rfl | ⟨pkt', c', k, rfl, hc', -⟩
    · exact hm
    · show P.Current _ ((st₁.1.setSlot pkt'.conn c').connState i) ∨
        (m.connState i).SameFib ((st₁.1.setSlot pkt'.conn c').connState i)
      rw [setSlot_connState]
      split_ifs with hi
      · subst hi
        obtain ⟨ec, hfind, hdst, ⟨hold, hfib⟩ | hfib⟩ := hc'.dstIpEc
        · have hkept : (st₁.1.connState pkt'.conn).SameFib c' := ⟨hdst.trans hold.symm, hfib⟩
          exact hm.imp (fun h => h.sameFib hkept) fun h => h.trans hkept
        · rw [hsame.openflowUpdateState] at hfib
          exact .inl ⟨ec, ⟨pkt'.dstIp, hfind⟩, hdst, hfib⟩
      · exact hm
  · intro m₁ explicitDrop cu ou hsame hm hsettle
    have hkept := settleCurrent_sameFib hsettle i
    exact hm.imp (fun h => h.sameFib hkept) fun h => h.trans hkept

theorem execChooseConn_files (h : m.execChooseConn = some m') (i : Nat) :
    P.Files m.openflowUpdateState (m.connState i) (m'.connState i) := by
  obtain ⟨m₁, h₁, hm'⟩ := execChooseConn_cases h
  have hslot : m'.connState i = m₁.connState i := by
    rcases hm' with ⟨-, candidates, -, rfl⟩ | ⟨-, rfl⟩ <;> rfl
  rw [hslot]
  obtain ⟨j, c, rfl, -, -, hc⟩ := pickConn_cases h₁
  show P.Files _ (m.connState i) (((m.setConn j).setCur c).connState i)
  rw [setCur_connState]
  split_ifs with hi
  · have hij : i = j := hi
    subst hij
    rcases hc with ⟨-, -, rfl⟩ | ⟨-, -, rfl⟩ | ⟨-, rfl⟩
    · exact Plankton.files_of_sameFib (.refl _) id
    · exact Plankton.files_of_sameFib (.refl _) id
    · exact Plankton.files_of_sameFib (.refl _) fun h => absurd rfl h.1
  · exact Plankton.files_of_sameFib (.refl _) id

end Model

namespace Plankton

variable {P : Plankton} {V : Invariants} {m m' s t : Model} {results : List InjectionResult}
  {l : Label} {tr : List (Link Model Label)}

/-- A step installs an update, or takes the answer of a middlebox, or leaves the connections that
have ended as they are; only the first changes the counters. -/
theorem control_files (h : P.control results m = some m') :
    (m.processId = .openflow ∧ m.choice ≠ 0 ∧
        ∃ i num ec nextHops, Installs P m m' i num ec nextHops) ∨
      m'.openflowUpdateState = m.openflowUpdateState ∧
        ((m.processId = .forwarding ∧ m.cur.fwdMode = .chooseInjRes ∧
            ∀ i, P.Current m.openflowUpdateState (m'.connState i) ∨
              (m.connState i).SameFib (m'.connState i)) ∨
          m'.numConns = m.numConns ∧
            ∀ i, P.Files m.openflowUpdateState (m.connState i) (m'.connState i)) := by
  have hkept : ∀ i, P.Files m.openflowUpdateState (m.connState i) (m.connState i) :=
    fun i => files_of_sameFib (.refl _) id
  obtain ⟨m₁, hswitch, hrest⟩ := control_cases h
  obtain ⟨p, k, rfl⟩ := Model.checkToSwitchProcess_eq hswitch
  rcases hrest with ⟨-, h₁⟩ | ⟨hp, h₁⟩ | ⟨hp, h₁⟩
  · obtain ⟨i, c, k', hm₁⟩ := execChooseConn_eq h₁
    have hfiles := Model.execChooseConn_files (P := P) h₁
    subst hm₁
    exact .inr ⟨rfl, .inr ⟨rfl, hfiles⟩⟩
  · have hst := (Model.execForwarding_sameControl h₁).openflowUpdateState
    refine .inr ⟨hst, ?_⟩
    -- an answer may change any connection, any other step the one in charge only
    by_cases hmode : m.cur.fwdMode = .chooseInjRes
    · have hanswer : m.chooseInjectionResults P = some m₁ := by
        unfold Model.execForwarding at h₁
        rw [hmode] at h₁
        exact h₁
      have hfiles := Model.chooseInjectionResults_files hanswer
      exact .inl ⟨hp, hmode, hfiles⟩
    · have hsets := Model.execForwarding_setsCur h₁ hmode
      refine .inr ⟨hsets.numConns, ?_⟩
      intro i
      by_cases hi : i = m.conn
      · have hfiles := Model.execForwarding_files h₁ hmode
        rw [Model.cur, Model.cur, (Model.execForwarding_sameControl h₁).conn, ← hi] at hfiles
        exact hfiles
      · show P.Files _ _ (m₁.connState i)
        rw [hsets.connState hi]
        exact hkept i
  · by_cases hchoice : m.choice = 0
    · right
      unfold Model.execOpenflow Model.installUpdate at h₁
      rw [if_pos hchoice] at h₁
      split_ifs at h₁
      · obtain rfl := Option.some.inj h₁
        exact ⟨rfl, .inr ⟨rfl, hkept⟩⟩
      · obtain rfl := Option.some.inj h₁
        exact ⟨rfl, .inr ⟨rfl, hkept⟩⟩
    · rcases Model.execOpenflow_cases h₁ with ⟨-, rfl⟩ | ⟨h₀, -⟩ |
        ⟨i, num, st, ec, nextHops, hi, hnum, hst, hec, hnew, rfl⟩
      · exact .inr ⟨rfl, .inr ⟨rfl, hkept⟩⟩
      · exact absurd h₀ hchoice
      · exact .inl ⟨hp, hchoice, i, num, ec, nextHops, hi, hnum, hst, hec, hnew, fun j => rfl, rfl⟩

/-- In a state every connection that has not ended has the FIB `update_fib` computes, and no node
has more updates installed than there are. -/
structure SeesUpdates (P : Plankton) (m : Model) : Prop where
  current : ∀ i < m.numConns, (m.connState i).Live →
    P.Current m.openflowUpdateState (m.connState i)
  legal : P.openflow.Legal m.openflowUpdateState

/-- The update that the first `k` of a node precede changes nothing that is looked up there for a
class. -/
def Unconcerned (P : Plankton) (n : NodePtr) (k : Nat) (ec : EcPtr) : Prop :=
  ∀ addr u, EqClass.representativeAddr (P.ecs.ranges ec) = some addr →
    (P.openflow.updatesOf n)[k]? = some u →
      OpenflowProcess.LeavesLookups P.network n (P.openflow.updatesOf n) k addr u

/-- It is installed for a class as `update_fib` would. -/
def InstallsRightly (P : Plankton) (n : NodePtr) (k : Nat) (ec : EcPtr) : Prop :=
  ∀ addr u, EqClass.representativeAddr (P.ecs.ranges ec) = some addr →
    (P.openflow.updatesOf n)[k]? = some u →
      OpenflowProcess.InstallsLikeUpdates P.network n (P.openflow.updatesOf n) k addr u ∧
        OpenflowProcess.ResolvesOrNever P.network n (P.openflow.updatesOf n) k addr

/-- In the step a node installs the update that its first `k` precede. -/
def InstallsNext (P : Plankton) (l : Link Model Label) (n : NodePtr) (k : Nat) : Prop :=
  l.before.processId = .openflow ∧ l.act.choice ≠ 0 ∧ n = l.before.cur.pktLocation ∧
    k = P.openflow.installed l.before.openflowUpdateState n

/-- With the step another sub-invariant begins, for which the update is not installed any more. -/
def TakesBack (P : Plankton) (l : Link Model Label) (n : NodePtr) (k : Nat) : Prop :=
  l.after.correlatedInvIdx ≠ l.before.correlatedInvIdx ∧
    (k < P.openflow.installed l.before.openflowUpdateState n ∨ P.InstallsNext l n k)

/-- What is installed in the step is installed rightly for the class of the connection in charge,
and does not concern that of another slot. -/
def InstallsFor (P : Plankton) (l : Link Model Label) (i : Nat) : Prop :=
  ∀ n k, P.InstallsNext l n k → ∀ ec, (l.before.connState i).dstIpEc = some ec →
    if i = l.before.conn then P.InstallsRightly n k ec else P.Unconcerned n k ec

/-- And what is taken back does not concern the class that the slot has then. -/
def Spares (P : Plankton) (l : Link Model Label) (i : Nat) : Prop :=
  P.InstallsFor l i ∧ ∀ n k, P.TakesBack l n k →
    ∀ ec, (l.after.connState i).dstIpEc = some ec → P.Unconcerned n k ec

/-- The slot held a connection that had not ended, and no step since then concerns its class. -/
def UpToDate (P : Plankton) (tr : List (Link Model Label)) (i : Nat) : Prop :=
  ∃ tr₁ l tr₂, tr = tr₁ ++ l :: tr₂ ∧ (i < l.before.numConns ∧ (l.before.connState i).Live) ∧
    ∀ l' ∈ l :: tr₂, P.Spares l' i

/-- What is installed in a step, after the steps of a history, is right for every connection that
has not ended; and where the answer of a middlebox brings a slot to life that keeps its class, the
slot is up to date. -/
structure KeepsFibs (P : Plankton) (tr : List (Link Model Label)) (l : Link Model Label) :
    Prop where
  installs : ∀ i < l.before.numConns, (l.before.connState i).Live → P.InstallsFor l i
  revived : l.before.processId = .forwarding → l.before.cur.fwdMode = .chooseInjRes →
    ∀ i < l.after.numConns, (l.after.connState i).Live →
      ¬(i < l.before.numConns ∧ (l.before.connState i).Live) →
        (l.after.connState i).dstIpEc = (l.before.connState i).dstIpEc → P.UpToDate tr i

theorem UpToDate.append {i : Nat} {l : Link Model Label} {tr : List (Link Model Label)}
    (h : P.UpToDate (tr ++ [l]) i) :
    P.Spares l i ∧ (P.UpToDate tr i ∨ i < l.before.numConns ∧ (l.before.connState i).Live) := by
  obtain ⟨tr₁, l₁, tr₂, htr, hlive, hspares⟩ := h
  rcases List.eq_nil_or_concat tr₂ with rfl | ⟨tr₂, l₂, rfl⟩
  · obtain ⟨rfl, heq⟩ := List.append_inj' htr rfl
    obtain rfl := List.singleton_inj.mp heq
    exact ⟨hspares _ (List.mem_cons_self ..), .inr hlive⟩
  · rw [List.concat_eq_append, ← List.cons_append, ← List.append_assoc] at htr
    obtain ⟨rfl, heq⟩ := List.append_inj' htr rfl
    obtain rfl := List.singleton_inj.mp heq
    rw [List.concat_eq_append] at hspares
    refine ⟨hspares _ (by simp), .inl ⟨tr₁, l₁, tr₂, rfl, hlive, fun l' hl' => ?_⟩⟩
    apply hspares l'
    rcases List.mem_cons.mp hl' with rfl | hl'
    · exact List.mem_cons_self ..
    · simp [hl']

theorem installs_current {i num j : Nat} {ec : EcPtr} {nextHops : List FibIpnh}
    (h : Installs P m m' i num ec nextHops) (hm : P.openflow.Legal m.openflowUpdateState)
    (hcurrent : P.Current m.openflowUpdateState (m.connState j))
    (hright : ∀ ec', (m.connState j).dstIpEc = some ec' →
      if j = m.conn then P.InstallsRightly m.cur.pktLocation num ec'
      else P.Unconcerned m.cur.pktLocation num ec') :
    P.Current m'.openflowUpdateState (m'.connState j) := by
  have hlegal := OpenflowProcess.legal_installUpdateAt hm h.nodeOrder h.counter h.num_lt
    h.installed
  have hnum := OpenflowProcess.installed_of_nodeOrder hm h.nodeOrder h.counter
  have hinstalled := OpenflowProcess.installed_installUpdateAt hm hlegal h.nodeOrder h.installed
  obtain ⟨u, hu⟩ : ∃ u, (P.openflow.updatesOf m.cur.pktLocation)[num]? = some u :=
    ⟨_, List.getElem?_eq_getElem h.num_lt⟩
  obtain ⟨hn, hemu⟩ := OpenflowProcess.node_mem_of_updatesOf (List.mem_of_getElem? hu)
  obtain ⟨ec', hec, hdst, hfib⟩ := hcurrent
  obtain ⟨addr, haddr, -⟩ := representativeAddr_of_isEc hec
  have hU := uniform_of_isEc hec
  have hright := hright ec' hdst
  rw [h.connState]
  split_ifs at hright ⊢ with hj
  · -- the connection in charge
    have hdst' : m.cur.dstIpEc = some ec' := by
      rw [Model.cur, ← hj]
      exact hdst
    obtain rfl := Option.some.inj (h.dstIpEc.symm.trans hdst')
    obtain ⟨hlike, hresolves⟩ := hright addr u haddr hu
    have hagree := (OpenflowProcess.newNextHops_eq_iff hU hn hemu haddr hu hlike).mpr hresolves
    have hfib' : P.openflow.updateFib m.openflowUpdateState (P.ecs.ranges ec) = some m.cur.fib := by
      rw [Model.cur, ← hj]
      exact hfib
    refine ⟨ec, hec, hdst', ?_⟩
    apply OpenflowProcess.updateFib_installed hU hm hlegal hn haddr hinstalled hfib'
    rw [hnum, ← hagree]
    exact h.computed
  · -- another one, which the update does not concern
    refine ⟨ec', hec, hdst, ?_⟩
    rw [← hfib]
    apply OpenflowProcess.updateFib_congr hU hm hlegal haddr
    intro n hn'
    rw [hinstalled]
    split_ifs with heq
    · rw [heq, hnum]
      exact OpenflowProcess.nodeNextHops_succ hU hn haddr hu (hright addr u haddr hu)
    · rfl

theorem installs_live {i num : Nat} {ec : EcPtr} {nextHops : List FibIpnh}
    (h : Installs P m m' i num ec nextHops) (j : Nat) :
    (m'.connState j).Live ↔ (m.connState j).Live := by
  rw [h.connState]
  split_ifs with hj
  · subst hj
    rfl
  · rfl

theorem control_current {i : Nat} (h : P.control results m = some m')
    (hm : P.openflow.Legal m.openflowUpdateState)
    (hcurrent : P.Current m.openflowUpdateState (m.connState i))
    (hright : m.processId = .openflow → m.choice ≠ 0 →
      ∀ ec, (m.connState i).dstIpEc = some ec →
        if i = m.conn then P.InstallsRightly m.cur.pktLocation
          (P.openflow.installed m.openflowUpdateState m.cur.pktLocation) ec
        else P.Unconcerned m.cur.pktLocation
          (P.openflow.installed m.openflowUpdateState m.cur.pktLocation) ec) :
    P.Current m'.openflowUpdateState (m'.connState i) := by
  rcases control_files h with ⟨hp, hchoice, j, num, ec, nextHops, hinst⟩ |
    ⟨hst, ⟨-, -, hfiles⟩ | ⟨-, hfiles⟩⟩
  · have hnum := OpenflowProcess.installed_of_nodeOrder hm hinst.nodeOrder hinst.counter
    have hright := hright hp hchoice
    rw [hnum] at hright
    exact installs_current hinst hm hcurrent hright
  · rw [hst]
    exact (hfiles i).elim id hcurrent.sameFib
  · rw [hst]
    exact (hfiles i).elim id fun hkept => hcurrent.sameFib hkept.1

theorem control_installed {n : NodePtr} {k : Nat}
    (h : P.control l.results (m.setChoice l.choice) = some m')
    (hm : P.openflow.Legal m.openflowUpdateState)
    (hk : k < P.openflow.installed m'.openflowUpdateState n) :
    k < P.openflow.installed m.openflowUpdateState n ∨
      P.InstallsNext ⟨m, l, t⟩ n k := by
  rcases control_files h with ⟨hp, hchoice, j, num, ec, nextHops, hinst⟩ | ⟨hst, -⟩
  · have hlegal := OpenflowProcess.legal_installUpdateAt hm hinst.nodeOrder hinst.counter
      hinst.num_lt hinst.installed
    have hinstalled := OpenflowProcess.installed_installUpdateAt hm hlegal hinst.nodeOrder
      hinst.installed n
    rw [hinstalled] at hk
    split_ifs at hk with hn
    · rcases Nat.lt_succ_iff_lt_or_eq.mp hk with hlt | heq
      · exact .inl (hn ▸ hlt)
      · exact .inr ⟨hp, hchoice, hn, hn ▸ heq⟩
    · exact .inl hk
  · rw [hst] at hk
    exact .inl hk

theorem Current.zeros (h : P.Current st c) (hst : P.openflow.Legal st)
    (hnone : ∀ ec, c.dstIpEc = some ec → ∀ n, ∀ k < P.openflow.installed st n,
      P.Unconcerned n k ec) :
    P.Current (List.replicate P.openflow.updates.length 0) c := by
  obtain ⟨ec, hec, hdst, hfib⟩ := h
  obtain ⟨addr, haddr, -⟩ := representativeAddr_of_isEc hec
  have hU := uniform_of_isEc hec
  refine ⟨ec, hec, hdst, ?_⟩
  rw [← hfib]
  apply OpenflowProcess.updateFib_congr hU hst (OpenflowProcess.legal_zeros _) haddr
  intro n hn
  rw [OpenflowProcess.installed_zeros]
  have hle := OpenflowProcess.installed_le hst n
  exact (OpenflowProcess.nodeNextHops_zero hU hn haddr hle fun k hk u hu =>
    hnone ec hdst n k hk addr u haddr hu).symm

theorem control_live {i : Nat} (h : P.control results m = some m') (hi : i < m'.numConns)
    (hlive : (m'.connState i).Live) :
    (i < m.numConns ∧ (m.connState i).Live) ∨
      P.Current m'.openflowUpdateState (m'.connState i) ∨
      m'.openflowUpdateState = m.openflowUpdateState ∧ m.processId = .forwarding ∧
        m.cur.fwdMode = .chooseInjRes ∧ (m.connState i).SameFib (m'.connState i) := by
  rcases control_files h with ⟨-, -, j, num, ec, nextHops, hinst⟩ |
    ⟨hst, ⟨hp, hmode, hfiles⟩ | ⟨hnum, hfiles⟩⟩
  · exact .inl ⟨hinst.numConns ▸ hi, (installs_live hinst i).mp hlive⟩
  · rw [hst]
    exact .inr ((hfiles i).imp_right fun hsame => ⟨rfl, hp, hmode, hsame⟩)
  · rw [hst]
    rcases hfiles i with hcurrent | ⟨-, hbefore⟩
    · exact .inr (.inl hcurrent)
    · exact .inl ⟨hnum ▸ hi, hbefore hlive⟩

theorem current_of_starts {c : Connection} {st : OpenflowUpdateState} {x : ConnState}
    (hc : P.IsEc c.dstIpEc) (hx : c.Starts P st x) : P.Current st x :=
  ⟨c.dstIpEc, hc, hx.dstIpEc, hx.fib⟩

theorem starts_seesUpdates {inv : CheckedInvariant} (hstarts : inv.Starts P m m')
    (hinv : ∀ c ∈ inv.conns, P.IsEc c.dstIpEc) (hlegal : P.openflow.Legal m'.openflowUpdateState) :
    P.SeesUpdates m' := by
  refine ⟨?_, hlegal⟩
  intro i hi _
  rw [hstarts.numConns] at hi
  rw [hstarts.openflowUpdateState]
  have hget := List.getElem?_eq_getElem hi
  exact current_of_starts (hinv _ (List.getElem_mem hi)) (hstarts.slot i _ hget)

def OfClasses (P : Plankton) (V : Invariants) : Prop :=
  ∀ k inv, V.current k = some inv → ∀ c ∈ inv.conns, P.IsEc c.dstIpEc

theorem step_fibs (h : P.step V m l = some m') (hm : P.openflow.Legal m.openflowUpdateState) :
    ∃ m₁, P.control l.results (m.setChoice l.choice) = some m₁ ∧
      ((m'.correlatedInvIdx = m.correlatedInvIdx ∧
          m'.openflowUpdateState = m₁.openflowUpdateState ∧ m'.numConns = m₁.numConns ∧
            ∀ i, (m₁.connState i).SameFib (m'.connState i) ∧
              ((m'.connState i).Live ↔ (m₁.connState i).Live)) ∨
        m'.correlatedInvIdx ≠ m.correlatedInvIdx ∧
          m'.openflowUpdateState = List.replicate P.openflow.updates.length 0 ∧
          ∃ k inv, V.current k = some inv ∧ m'.numConns = inv.conns.length ∧
            (∀ (i : Nat) (c : Connection), inv.conns[i]? = some c →
              c.Starts P m'.openflowUpdateState (m'.connState i)) ∧
            ∀ i, inv.conns.length ≤ i → (m₁.connState i).SameFib (m'.connState i)) := by
  obtain ⟨-, m₁, m₂, r, hcontrol, hcheck, hafter⟩ := step_eq_some h
  obtain ⟨inv, v, -, -, -, -, hr⟩ := Invariants.checkViolation_cases hcheck
  have hfst := V.conclude_fst l.result (m₁.judge v)
  have hidx := V.conclude_correlatedInvIdx l.result (m₁.judge v)
  rw [← hr] at hfst hidx
  have hbefore : m₁.correlatedInvIdx = (m.setChoice l.choice).correlatedInvIdx :=
    control_correlatedInvIdx hcontrol
  have hconn : m₂.connState = (m₁.judge v).connState := congrArg (·.connState) hfst
  have hnum : m₂.numConns = m₁.numConns := congrArg (·.numConns) hfst
  have hst : m₂.openflowUpdateState = m₁.openflowUpdateState :=
    checkViolation_openflowUpdateState hcheck
  -- the check leaves the class, the FIB and the mode of the connection that is set
  have hslot : ∀ i, (m₁.connState i).SameFib (m₂.connState i) ∧
      ((m₂.connState i).Live ↔ (m₁.connState i).Live) := by
    intro i
    rw [hconn, Model.judge_connState]
    split_ifs with hi
    · subst hi
      exact ⟨.refl _, Iff.rfl⟩
    · exact ⟨.refl _, Iff.rfl⟩
  refine ⟨m₁, hcontrol, ?_⟩
  cases r with
  | false =>
    obtain rfl := Option.some.inj hafter
    exact .inl ⟨hidx.trans hbefore, hst, hnum, hslot⟩
  | true =>
    obtain ⟨m₃, h₃, rfl⟩ := Option.map_eq_some_iff.mp (if_pos rfl ▸ hafter : P.reinit V m₂ = _)
    have hlegal : P.openflow.Legal m₂.openflowUpdateState := by
      rw [hst]
      exact control_legal hcontrol hm
    have hzeros := initOpenflow_legal hlegal
    obtain ⟨k, inv', hinv', hinit⟩ : ∃ k inv', V.current k = some inv' ∧
        inv'.init P (P.initOpenflow m₂) = some m₃ := by
      cases V with
      | single _ => simp [Invariants.reinit] at h₃
      | conditional invs | consistency invs =>
        obtain ⟨inv', hinv', hinit⟩ := Option.bind_eq_some_iff.mp h₃
        exact ⟨_, inv', hinv', hinit⟩
    have hstarts := CheckedInvariant.starts_of_init hinit
    have hst₃ := hstarts.openflowUpdateState
    refine .inr ⟨?_, hst₃.trans hzeros, k, inv', hinv', hstarts.numConns, ?_, ?_⟩
    · have hafter := hstarts.correlatedInvIdx
      rw [initOpenflow_correlatedInvIdx] at hafter
      have hnext : m₂.correlatedInvIdx = m.correlatedInvIdx + 1 :=
        hidx.trans (congrArg (· + 1) hbefore)
      show m₃.correlatedInvIdx ≠ _
      rw [hafter, hnext]
      exact Nat.succ_ne_self _
    · intro i c hc
      show c.Starts P m₃.openflowUpdateState (m₃.connState i)
      rw [hst₃]
      exact hstarts.slot i c hc
    · intro i hi
      show (m₁.connState i).SameFib (m₃.connState i)
      rw [hstarts.rest i hi, initOpenflow_connState]
      exact (hslot i).1

theorem step_current {i : Nat} (hV : P.OfClasses V) (h : P.step V m l = some m')
    (hm : P.openflow.Legal m.openflowUpdateState)
    (hcurrent : P.Current m.openflowUpdateState (m.connState i))
    (hspares : P.Spares ⟨m, l, m'⟩ i) : P.Current m'.openflowUpdateState (m'.connState i) := by
  obtain ⟨hinstalls, htakes⟩ := hspares
  obtain ⟨m₁, hcontrol, ⟨-, hst, -, hslot⟩ |
    ⟨hidx, hst, k, inv, hinv, hnum, hstarts, hrest⟩⟩ := step_fibs h hm
  · rw [hst]
    apply Current.sameFib _ (hslot i).1
    apply control_current hcontrol hm hcurrent
    exact fun hp hchoice => hinstalls _ _ ⟨hp, hchoice, rfl, rfl⟩
  · by_cases hi : i < inv.conns.length
    · have hget := List.getElem?_eq_getElem hi
      exact current_of_starts (hV k inv hinv _ (List.getElem_mem hi)) (hstarts i _ hget)
    · -- the FIB is that of the counters before, which differ from those after in no lookup
      have hsame : (m₁.connState i).SameFib (m'.connState i) := hrest i (Nat.le_of_not_lt hi)
      have h₁ : P.Current m₁.openflowUpdateState (m₁.connState i) := by
        apply control_current hcontrol hm hcurrent
        exact fun hp hchoice => hinstalls _ _ ⟨hp, hchoice, rfl, rfl⟩
      have hm₁ : P.openflow.Legal m₁.openflowUpdateState := control_legal hcontrol hm
      rw [hst]
      apply (h₁.zeros hm₁ _).sameFib hsame
      intro ec hec n k hk
      rw [← hsame.1] at hec
      exact htakes n k ⟨hidx, control_installed hcontrol hm hk⟩ ec hec

theorem step_seesUpdates {tr : List (Link Model Label)} (hV : P.OfClasses V)
    (h : P.step V m l = some m') (hm : P.SeesUpdates m)
    (hdate : ∀ i, P.UpToDate tr i → P.Current m.openflowUpdateState (m.connState i))
    (hkeeps : P.KeepsFibs tr ⟨m, l, m'⟩) : P.SeesUpdates m' := by
  refine ⟨?_, step_legal h hm.legal⟩
  intro i hi hlive
  obtain ⟨m₁, hcontrol, ⟨-, hst, hnum, hslot⟩ |
    ⟨-, -, k, inv, hinv, hnum, hstarts, -⟩⟩ := step_fibs h hm.legal
  · obtain ⟨hsame, hlive₁⟩ := hslot i
    rw [hst]
    apply Current.sameFib _ hsame
    rcases control_live hcontrol (hnum ▸ hi) (hlive₁.mp hlive) with ⟨hi₀, hlive₀⟩ | hcurrent |
      ⟨hst₁, hp, hmode, hkept⟩
    · apply control_current hcontrol hm.legal (hm.current i hi₀ hlive₀)
      exact fun hp hchoice => hkeeps.installs i hi₀ hlive₀ _ _ ⟨hp, hchoice, rfl, rfl⟩
    · exact hcurrent
    · by_cases hbefore : i < m.numConns ∧ (m.connState i).Live
      · rw [hst₁]
        exact (hm.current i hbefore.1 hbefore.2).sameFib hkept
      · have hup := hkeeps.revived hp hmode i hi hlive hbefore (hsame.1.trans hkept.1)
        rw [hst₁]
        exact (hdate i hup).sameFib hkept
  · rw [hnum] at hi
    have hget := List.getElem?_eq_getElem hi
    exact current_of_starts (hV k inv hinv _ (List.getElem_mem hi)) (hstarts i _ hget)

theorem initModel_seesUpdates (hV : P.OfClasses V) (hs : P.initModel V = some s) :
    P.SeesUpdates s := by
  have hlegal : P.openflow.Legal s.openflowUpdateState := by
    rw [initModel_openflowUpdateState hs]
    exact OpenflowProcess.legal_zeros _
  obtain ⟨-, -, inv, m₀, hinv, -, hstarts⟩ := initModel_cases hs
  exact starts_seesUpdates hstarts (hV 0 inv hinv) hlegal

/-- In a run whose steps keep the FIBs right every connection that has not ended sees all updates
that are installed, in every state the run passes. -/
theorem run_seesUpdates (hV : P.OfClasses V) (hs : P.initModel V = some s)
    (h : Run (P.step V) s tr t)
    (hkeeps : ∀ tr₁ l tr₂, tr = tr₁ ++ l :: tr₂ → P.KeepsFibs tr₁ l) :
    P.SeesUpdates t ∧ ∀ l ∈ tr, P.SeesUpdates l.before ∧ P.SeesUpdates l.after := by
  have hrun := h.prefix_invariant (g := []) (fun tr₁ m => P.SeesUpdates m ∧
    ∀ i, P.UpToDate tr₁ i → P.Current m.openflowUpdateState (m.connState i)) ?_ ?_
  · refine ⟨hrun.1.1, fun l hl => ?_⟩
    obtain ⟨tr₁, tr₂, htr⟩ := List.append_of_mem hl
    have hat := hrun.2 tr₁ l tr₂ htr
    exact ⟨hat.1.1, hat.2.1⟩
  · refine ⟨initModel_seesUpdates hV hs, ?_⟩
    rintro i ⟨tr₁, l, tr₂, htr, -⟩
    simp at htr
  · rintro tr₁ l tr₂ htr hstep ⟨hbefore, hdate⟩
    refine ⟨step_seesUpdates hV hstep hbefore hdate (hkeeps tr₁ l tr₂ htr), ?_⟩
    intro i hi
    obtain ⟨hspares, hcases⟩ := UpToDate.append hi
    apply step_current hV hstep hbefore.legal _ hspares
    exact hcases.elim (hdate i) fun hlive => hbefore.current i hlive.1 hlive.2

/-! Connections in the network of the service with two owners. Nothing is checked on the way. -/

section Service

open Reachability

def unchecked (conns : List Connection) : Invariants := .single ⟨.waypoint [] false, conns⟩

def directConn : Connection :=
  { anycastConn .udp with dstIpEc := (anycastPlankton.ecs.findEc 0x0A000002#32).getD 0 }

theorem anycast_ofClasses {conns : List Connection}
    (h : ∀ c ∈ conns, c.dstIpEc = (anycastConn .udp).dstIpEc ∨ c.dstIpEc = directConn.dstIpEc) :
    anycastPlankton.OfClasses (unchecked conns) := by
  have hclass : ∀ a, (anycastPlankton.ecs.findEc a).isSome = true →
      anycastPlankton.IsEc ((anycastPlankton.ecs.findEc a).getD 0) := by
    intro a ha
    obtain ⟨ec, hec⟩ := Option.isSome_iff_exists.mp ha
    refine ⟨a, ?_⟩
    rw [hec]
    rfl
  intro k inv hinv c hc
  obtain rfl := Option.some.inj hinv
  rcases h c hc with heq | heq
  · rw [heq]
    exact hclass 0x0A000909#32 (by decide +kernel)
  · rw [heq]
    exact hclass 0x0A000002#32 (by decide +kernel)

theorem anycast_installsRightly {ec : EcPtr}
    (haddr : EqClass.representativeAddr (anycastPlankton.ecs.ranges ec) = some 0x0A000001#32) :
    anycastPlankton.InstallsRightly 0 0 ec := by
  intro addr u haddr' hu
  obtain rfl := Option.some.inj (haddr.symm.trans haddr')
  obtain rfl := Option.some.inj hu
  have hitems : anycast.routeItems 0 (OpenflowProcess.installedRib RoutingTable.update anycast 0
      [serviceRoute 3] 1 0x0A000001#32) 0x0A000001#32 = [.inr (some (.accept 0))] := by decide
  refine ⟨⟨fun i hi => absurd hi (Nat.not_lt_zero i), .inr ?_⟩, .inl ?_⟩
  · intro x hx hc
    rcases Relation.ReflTransGen.cases_head hx with rfl | ⟨y, hy, -⟩
    · exact absurd hc (by decide)
    · have hnext : .inl y ∈ anycast.routeItems 0 (OpenflowProcess.installedRib
          RoutingTable.update anycast 0 [serviceRoute 3] 1 0x0A000001#32) 0x0A000001#32 := hy
      rw [hitems] at hnext
      simp at hnext
  · exact ⟨_, _, .refl, hitems ▸ List.mem_singleton_self _⟩

theorem directConn_unconcerned : anycastPlankton.Unconcerned 0 0 directConn.dstIpEc := by
  intro addr u haddr hu
  obtain rfl : 0x0A000002#32 = addr := by
    apply Option.some.inj
    rw [← haddr]
    decide +kernel
  obtain rfl := Option.some.inj hu
  exact fun hc => absurd hc (by decide)

theorem run_seesUpdates_direct : ∃ s t tr,
    anycastPlankton.initModel (unchecked [anycastConn .udp, directConn]) = some s ∧
      Run (anycastPlankton.step (unchecked [anycastConn .udp, directConn])) s tr t ∧
        t.choiceCount = 0 ∧ t.openflowUpdateState = [1] ∧ anycastPlankton.SeesUpdates t ∧
          ∀ l ∈ tr, anycastPlankton.SeesUpdates l.before ∧ anycastPlankton.SeesUpdates l.after := by
  -- every installation is one at the sender, for its own address, while the datagram waits
  have hrun : ((anycastPlankton.initModel (unchecked [anycastConn .udp, directConn])).bind fun s =>
      (execute (anycastPlankton.step (unchecked [anycastConn .udp, directConn])) s
        (choosing (List.replicate 7 0 ++ [1] ++ List.replicate 14 0))).map fun r =>
          (r.2.choiceCount, r.2.openflowUpdateState, r.1.all fun l =>
            (l.before.cur.fwdMode != .chooseInjRes) &&
            (l.before.processId != .openflow || l.act.choice == 0 ||
              l.before.numConns == 2 && l.before.conn == 0 && l.before.cur.pktLocation == 0 &&
              anycastPlankton.openflow.installed l.before.openflowUpdateState 0 == 0 &&
              (l.before.cur.dstIpEc.bind fun ec =>
                EqClass.representativeAddr (anycastPlankton.ecs.ranges ec)) ==
                  some 0x0A000001#32 &&
              (l.before.connState 1).dstIpEc == some directConn.dstIpEc))) =
                some (0, [1], true) := by
    decide +kernel
  obtain ⟨s, hs, hrun⟩ := Option.bind_eq_some_iff.mp hrun
  obtain ⟨⟨tr, t⟩, hexec, hr⟩ := Option.map_eq_some_iff.mp hrun
  simp only [Prod.mk.injEq] at hr
  obtain ⟨h₀, hst, hall⟩ := hr
  have hkeeps : ∀ tr₁ l tr₂, tr = tr₁ ++ l :: tr₂ → anycastPlankton.KeepsFibs tr₁ l := by
    intro tr₁ l tr₂ htr
    have hcheck := List.all_eq_true.mp hall l (htr ▸ by simp)
    simp only [Bool.and_eq_true, Bool.or_eq_true, bne_iff_ne, beq_iff_eq] at hcheck
    obtain ⟨hmode, hcheck⟩ := hcheck
    refine ⟨?_, fun _ h => absurd h hmode⟩
    intro i hi _ n k hnext ec hec
    obtain ⟨hp, hchoice, rfl, rfl⟩ := hnext
    obtain ⟨⟨⟨⟨⟨hnum, hconn⟩, hloc⟩, hinst⟩, haddr⟩, hother⟩ :=
      hcheck.resolve_left (by simp [hp, hchoice])
    rw [hconn, hloc, hinst]
    split_ifs with hi₀
    · subst hi₀
      rw [Model.cur, hconn, hec, Option.bind_some] at haddr
      exact anycast_installsRightly haddr
    · obtain rfl : i = 1 := by omega
      obtain rfl := Option.some.inj (hother.symm.trans hec)
      exact directConn_unconcerned
  have hclasses : anycastPlankton.OfClasses (unchecked [anycastConn .udp, directConn]) := by
    apply anycast_ofClasses
    intro c hc
    rcases List.mem_cons.mp hc with rfl | hc
    · exact .inl rfl
    · exact .inr (congrArg Connection.dstIpEc (List.mem_singleton.mp hc))
  have hr := run_of_execute hexec
  exact ⟨s, t, tr, hs, hr, h₀, hst, run_seesUpdates hclasses hs hr hkeeps⟩

/-- The update is installed while the TCP connection is in charge. The UDP connection to the same
address keeps the next hop it had. -/
theorem not_seesUpdates : ¬ ∀ (P : Plankton) (V : Invariants) (s t : Model)
    (tr : List (Link Model Label)), P.OfClasses V → P.initModel V = some s →
      Run (P.step V) s tr t → P.SeesUpdates t := by
  intro h
  have hrun : ((anycastPlankton.initModel
      (unchecked [anycastConn .tcp, anycastConn .udp])).bind fun s =>
        (execute (anycastPlankton.step (unchecked [anycastConn .tcp, anycastConn .udp])) s
          (choosing (List.replicate 7 0 ++ [1]))).map fun r =>
            (r.2.numConns, (r.2.connState 1).fwdMode, (r.2.connState 1).fib 0,
              (r.2.connState 1).dstIpEc.bind fun ec =>
                (anycastPlankton.openflow.updateFib r.2.openflowUpdateState
                  (anycastPlankton.ecs.ranges ec)).bind (· 0))) =
      some (2, .firstCollect, some [⟨1, some 11, 1, some 11⟩],
        some [⟨2, some 21, 2, some 21⟩]) := by
    decide +kernel
  obtain ⟨s, hs, hrun⟩ := Option.bind_eq_some_iff.mp hrun
  obtain ⟨⟨tr, t⟩, hexec, hr⟩ := Option.map_eq_some_iff.mp hrun
  simp only [Prod.mk.injEq] at hr
  obtain ⟨hnum, hmode, hfib, hupdate⟩ := hr
  have hclasses : anycastPlankton.OfClasses (unchecked [anycastConn .tcp, anycastConn .udp]) := by
    apply anycast_ofClasses
    intro c hc
    rcases List.mem_cons.mp hc with rfl | hc
    · exact .inl rfl
    · exact .inl (congrArg Connection.dstIpEc (List.mem_singleton.mp hc))
  have hsees := h _ _ s t tr hclasses hs (run_of_execute hexec)
  obtain ⟨ec, -, hec, hcurrent⟩ := hsees.current 1 (by omega) (by simp [ConnState.Live, hmode])
  rw [hec, Option.bind_some, hcurrent, Option.bind_some, hfib] at hupdate
  exact absurd hupdate (by decide)

end Service

end Plankton

end Neo
