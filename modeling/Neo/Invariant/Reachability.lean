import Neo.EarlyEnd
import Neo.Process.ModelOnly

/-! What `Reachability` reports of one connection between nodes that are not emulated. The node
that decides is the one where the first packet of the connection was delivered. -/

namespace Neo

namespace Reachability

variable {P : Plankton} {targetNodes : List NodePtr} {reachable : Bool} {conn : Connection}
  {m m' m₁ s t : Model} {c c' : ConnState} {l : Label} {results : List InjectionResult}
  {tr : List (Link Model Label)} {st : OpenflowUpdateState}

def invariants (targetNodes : List NodePtr) (reachable : Bool) (conn : Connection) : Invariants :=
  .single ⟨.reachability targetNodes reachable, [conn]⟩

def Delivers (m m' : Model) : Prop :=
  m.processId = .forwarding ∧ m.cur.AboutToForward ∧ m'.cur.fwdMode = .accepted ∧
    m'.cur.protoState.isRequest = true

def Reached (targetNodes : List NodePtr) (tr : List (Link Model Label)) : Prop :=
  ∃ l ∈ tr, Delivers l.before l.after ∧ l.after.cur.pktLocation ∈ targetNodes

/-- The node that receives the request is a target node if and only if the receiver of the first
packet is one. -/
def SameReceiver (targetNodes : List NodePtr) (l : Link Model Label) : Prop :=
  Delivers l.before l.after → l.before.cur.protoState.isFirst = false →
    (l.before.cur.pktLocation ∈ targetNodes ↔ l.before.rxIsTarget targetNodes = true)

def UpToRequest (p : ProtoState) : Prop :=
  p = psTcpInit1 ∨ p = psTcpInit2 ∨ p = psTcpInit3 ∨ p.isRequest = true

theorem UpToRequest.isReqAckOrRep {p : ProtoState} (h : UpToRequest p) :
    p.isReqAckOrRep = false := by
  rcases h with rfl | rfl | rfl | h
  · rfl
  · rfl
  · rfl
  · simp only [ProtoState.isRequest, Bool.or_eq_true, beq_iff_eq] at h
    rcases h with (rfl | rfl) | rfl <;> rfl

theorem UpToRequest.next {p : ProtoState} (h : UpToRequest p) (hreq : p.isRequest = false) :
    UpToRequest (p + 1) := by
  rcases h with rfl | rfl | rfl | h
  · exact .inr (.inl rfl)
  · exact .inr (.inr (.inl rfl))
  · exact .inr (.inr (.inr rfl))
  · simp [hreq] at h

structure PendingConn (c : ConnState) : Prop where
  phase : UpToRequest c.protoState
  chooseInjRes : c.fwdMode ≠ .chooseInjRes
  dropped : c.fwdMode ≠ .dropped
  accepted : c.fwdMode = .accepted → c.protoState.isRequest = false
  executable : c.executable ≠ 1

theorem PendingConn.advances {choice : Nat} (hc : PendingConn c)
    (h : Advances P st choice c c') :
    (c.AboutToForward ∧ c'.fwdMode = .accepted ∧ c'.protoState.isRequest = true ∧
        c'.protoState = c.protoState ∧ c'.pktLocation = c.pktLocation ∧
        c'.rxNode = if c.protoState.isFirst then some c.pktLocation else c.rxNode) ∨
      (c'.fwdMode = .dropped ∧ c'.protoState = c.protoState) ∨ PendingConn c' := by
  have hzero : (0 : Fin 3) ≠ 1 := by decide
  cases h with
  | collect nextHops candidates mode hmode _ _ _ =>
    right; right
    rcases hmode with ⟨-, rfl⟩ | ⟨-, rfl⟩
    · exact ⟨hc.phase, by simp, by simp, by simp, hc.executable⟩
    · exact ⟨hc.phase, by simp, by simp, by simp, hc.executable⟩
  | starve mode hmode _ =>
    right
    rcases hmode with ⟨-, rfl⟩ | ⟨-, rfl⟩
    · exact .inr ⟨hc.phase, by simp, by simp, by simp, hzero⟩
    · exact .inl ⟨rfl, rfl⟩
  | deliver candidates nextHop srcIp choices hmode _ _ _ =>
    cases hreq : c.protoState.isRequest with
    | true => exact .inl ⟨hmode, rfl, rfl, rfl, rfl, rfl⟩
    | false => exact .inr (.inr ⟨hc.phase, by simp, by simp, fun _ => hreq, hc.executable⟩)
  | move candidates nextHop srcIp choices _ _ _ _ =>
    exact .inr (.inr ⟨hc.phase, by simp, by simp, by simp, hc.executable⟩)
  | last hmode hlast =>
    have hreq := hc.accepted hmode
    rcases hc.phase with h | h | h | h
    · simp [h, ProtoState.isLast] at hlast
    · simp [h, ProtoState.isLast] at hlast
    · simp [h, ProtoState.isLast] at hlast
    · simp [hreq] at h
  | answer _ _ _ _ _ _ hmode _ _ _ =>
    have hnext := hc.phase.next (hc.accepted hmode)
    exact .inr (.inr ⟨hnext, by simp, by simp, by simp, hc.executable⟩)
  | again _ _ _ hmode _ =>
    have hnext := hc.phase.next (hc.accepted hmode)
    exact .inr (.inr ⟨hnext, by simp, by simp, by simp, hc.executable⟩)
  | dropped hmode => exact absurd hmode hc.dropped

structure Pending (m : Model) : Prop where
  conn : m.conn = 0
  numConns : m.numConns = 1
  violated : m.violated = false
  cur : PendingConn m.cur
  process : m.processId = .chooseConn → m.cur.executable ≠ 2

theorem Pending.otherExecutableConnsExist (hconn : m.conn = 0) (hnum : m.numConns = 1) :
    m.otherExecutableConnsExist = false := by
  apply Model.otherExecutableConnsExist_eq_false
  intro i hi hne
  omega

theorem pending_initModel (h : P.initModel (invariants targetNodes reachable conn) = some s) :
    Pending s := by
  obtain ⟨hp, -, m₀, -, hstarts⟩ := Plankton.initModel_single h
  obtain ⟨hexec, hps, -, -, -, hmode, -, -, -, -⟩ := hstarts.cur rfl
  refine ⟨hstarts.conn, hstarts.numConns, hstarts.violated, ⟨?_, ?_, ?_, ?_, ?_⟩, by simp [hp]⟩
  · rw [hps, Connection.firstProtoState]
    cases conn.protocol
    · exact .inl rfl
    · exact .inr (.inr (.inr rfl))
    · exact .inr (.inr (.inr rfl))
  · simp [hmode]
  · simp [hmode]
  · simp [hmode]
  · rw [hexec]
    decide

theorem Pending.connState (hm : Pending m) {i : Nat} (hi : i < m.numConns) :
    m.connState i = m.cur := by
  have hnum := hm.numConns
  have hconn := hm.conn
  rw [Model.cur, hconn]
  congr 1
  omega

theorem PendingConn.isLast (hc : PendingConn c) (hmode : c.fwdMode = .accepted) :
    c.protoState.isLast = false := by
  have hreq := hc.accepted hmode
  rcases hc.phase with h | h | h | h
  · simp [h, ProtoState.isLast]
  · simp [h, ProtoState.isLast]
  · simp [h, ProtoState.isLast]
  · simp [hreq] at h

theorem execChooseConn_pending (h : m.execChooseConn = some m') (hm : Pending m)
    (hp : m.processId = .chooseConn) :
    m'.conn = 0 ∧ m'.numConns = 1 ∧ m'.cur.fwdMode = .dropped ∧
      m'.cur.protoState = m.cur.protoState := by
  obtain ⟨m₁, h₁, hm'⟩ := Model.execChooseConn_cases h
  obtain ⟨i, c, rfl, hi, -, hpick⟩ := Model.pickConn_cases h₁
  have hslot := hm.connState hi
  have hc : c = { m.cur with fwdMode := .dropped } := by
    rw [hslot] at hpick
    rcases hpick with ⟨-, hexec, -⟩ | ⟨-, hexec, -⟩ | ⟨-, rfl⟩
    · exact absurd hexec (hm.process hp)
    · exact absurd hexec hm.cur.executable
    · rfl
  have hi0 : i = 0 := by
    have := hm.numConns
    omega
  subst hc hi0
  have hnum : ((m.setConn 0).setCur { m.cur with fwdMode := .dropped }).numConns = 1 := hm.numConns
  rcases hm' with ⟨-, candidates, -, rfl⟩ | ⟨-, rfl⟩
  · exact ⟨rfl, hnum, rfl, rfl⟩
  · exact ⟨rfl, hnum, rfl, rfl⟩

theorem Pending.choosesForwardable (hm : Pending m) : m.ChoosesForwardable := by
  intro hp i hi
  unfold Model.nextConn at hi
  exfalso
  cases h₂ : m.connMap 2 with
  | cons j js =>
    obtain ⟨hj, -, hexec⟩ := Model.mem_connMap.mp (h₂ ▸ List.mem_cons_self ..)
    exact hm.process hp (hm.connState hj ▸ hexec)
  | nil =>
    rw [h₂] at hi
    obtain ⟨hj, -, hexec⟩ := Model.mem_connMap.mp (List.mem_of_getElem? hi)
    exact hm.cur.executable (hm.connState hj ▸ hexec)

theorem control_pending (hnet : P.network.ModelOnly) (h : P.control results m = some m₁)
    (hm : Pending m) (hpos : 0 < m.choiceCount) :
    m₁.conn = 0 ∧ m₁.numConns = 1 ∧ m₁.violated = false ∧
      ((Delivers m m₁ ∧ UpToRequest m₁.cur.protoState ∧ m₁.cur.pktLocation = m.cur.pktLocation ∧
          m₁.cur.rxNode = if m.cur.protoState.isFirst then some m.cur.pktLocation
            else m.cur.rxNode) ∨
        (m₁.cur.fwdMode = .dropped ∧ UpToRequest m₁.cur.protoState) ∨
        Pending m₁ ∧ m₁.choiceCount ≠ 0) := by
  have hviolated := (Plankton.control_violated h).trans hm.violated
  have hends := Plankton.control_ends h hpos hm.choosesForwardable
  obtain ⟨m₂, hswitch, hrest⟩ := Plankton.control_cases h
  have hprocess := Model.checkToSwitchProcess_chooseConn hswitch
  obtain ⟨p, k, rfl⟩ := Model.checkToSwitchProcess_eq hswitch
  -- a connection that stays pending is not finished
  have hgoes : m₂.conn = 0 → m₂.numConns = 1 → PendingConn m₂.cur →
      Pending ((m₂.setProcessId p).setChoiceCount k) ∧
        ((m₂.setProcessId p).setChoiceCount k).choiceCount ≠ 0 := by
    intro hconn hnum hc
    refine ⟨⟨hconn, hnum, hviolated, hc, hprocess⟩, fun h₀ => ?_⟩
    have hfin := Model.allFinished_of_isFinished (hends h₀) 0 (hnum ▸ Nat.one_pos)
    rw [← show ((m₂.setProcessId p).setChoiceCount k).conn = 0 from hconn] at hfin
    rcases hfin with hdropped | ⟨hacc, hlast⟩
    · exact hc.dropped hdropped
    · exact absurd (hlast.symm.trans (hc.isLast hacc)) (by decide)
  rcases hrest with ⟨hp, h₂⟩ | ⟨hp, h₂⟩ | ⟨hp, h₂⟩
  · obtain ⟨hconn, hnum, hdropped, hps⟩ := execChooseConn_pending h₂ hm hp
    exact ⟨hconn, hnum, hviolated, .inr (.inl ⟨hdropped, hps ▸ hm.cur.phase⟩)⟩
  · obtain ⟨c, k', rfl, hadv⟩ := Model.execForwarding_advances hnet hm.cur.chooseInjRes h₂
    refine ⟨hm.conn, hm.numConns, hviolated, ?_⟩
    have hcur : ((m.setCur c).setChoiceCount k').cur = c := Model.cur_setCur m c
    rcases hm.cur.advances hadv with ⟨hmode, hacc, hreq, hps, hloc, hrx⟩ | ⟨hdropped, hps⟩ | hc
    · left
      refine ⟨⟨hp, hmode, ?_, ?_⟩, ?_, ?_, ?_⟩
      · exact (congrArg ConnState.fwdMode hcur).trans hacc
      · exact (congrArg (fun c : ConnState => c.protoState.isRequest) hcur).trans hreq
      · show UpToRequest ((m.setCur c).setChoiceCount k').cur.protoState
        rw [hcur, hps]
        exact hm.cur.phase
      · exact (congrArg ConnState.pktLocation hcur).trans hloc
      · exact (congrArg ConnState.rxNode hcur).trans hrx
    · right
      left
      constructor
      · exact (congrArg ConnState.fwdMode hcur).trans hdropped
      · show UpToRequest ((m.setCur c).setChoiceCount k').cur.protoState
        rw [hcur, hps]
        exact hm.cur.phase
    · refine .inr (.inr (hgoes hm.conn hm.numConns ?_))
      rw [hcur]
      exact hc
  · rcases Model.execOpenflow_cases h₂ with ⟨-, rfl⟩ | ⟨-, rfl⟩ |
      ⟨_, _, _, _, nextHops, -, -, -, -, -, rfl⟩
    · exact ⟨hm.conn, hm.numConns, hviolated, .inr (.inr (hgoes hm.conn hm.numConns hm.cur))⟩
    · exact ⟨hm.conn, hm.numConns, hviolated, .inr (.inr (hgoes hm.conn hm.numConns hm.cur))⟩
    · refine ⟨hm.conn, hm.numConns, hviolated, .inr (.inr (hgoes hm.conn hm.numConns ?_))⟩
      rw [Model.cur_setCur]
      exact ⟨hm.cur.phase, hm.cur.chooseInjRes, hm.cur.dropped, hm.cur.accepted, hm.cur.executable⟩

theorem step_pending (hnet : P.network.ModelOnly)
    (h : P.step (invariants targetNodes reachable conn) m l = some m') (hm : Pending m) :
    (Delivers m m' ∧ m'.choiceCount = 0 ∧
        m'.violated = (reachable != m'.rxIsTarget targetNodes) ∧
        m'.cur.pktLocation = m.cur.pktLocation ∧
        m'.cur.rxNode = if m.cur.protoState.isFirst then some m.cur.pktLocation
          else m.cur.rxNode) ∨
      (¬ Delivers m m' ∧ m'.choiceCount = 0 ∧ m'.violated = reachable) ∨
      ¬ Delivers m m' ∧ m'.choiceCount ≠ 0 ∧ Pending m' := by
  obtain ⟨hlt, m₁, hcontrol, hcheck⟩ := Plankton.step_single h
  have hm₀ : Pending (m.setChoice l.choice) :=
    ⟨hm.conn, hm.numConns, hm.violated, hm.cur, hm.process⟩
  obtain ⟨hconn, hnum, -, hrest⟩ := control_pending hnet hcontrol hm₀ (Nat.zero_lt_of_lt hlt)
  have hothers := Pending.otherExecutableConnsExist hconn hnum
  have hcheck : m₁.checkReachability targetNodes reachable = m' := Option.some.inj hcheck
  unfold Model.checkReachability at hcheck
  rw [hothers] at hcheck
  have hrequest : UpToRequest m₁.cur.protoState → m₁.requestIsAccepted =
      (m₁.cur.fwdMode == .accepted && m₁.cur.protoState.isRequest) := by
    intro hps
    rw [Model.requestIsAccepted, hps.isReqAckOrRep, Bool.and_false, Bool.or_false]
  rcases hrest with ⟨hdel, hps, hloc, hrx⟩ | ⟨hdropped, hps⟩ | ⟨hpending, hne⟩
  · -- the request was accepted: the verdict is about the node that received it
    left
    have hreq : m₁.requestIsAccepted = true := by
      rw [hrequest hps, hdel.2.2.1, hdel.2.2.2]
      rfl
    rw [hreq] at hcheck
    cases hrx' : m₁.rxIsTarget targetNodes with
    | true =>
      rw [hrx'] at hcheck
      obtain rfl : m₁.stop (reachable != true) = m' := hcheck
      refine ⟨hdel, rfl, ?_, hloc, hrx⟩
      show (reachable != true) = (reachable != m₁.rxIsTarget targetNodes)
      rw [hrx']
    | false =>
      rw [hrx'] at hcheck
      obtain rfl : m₁.stop (reachable != false) = m' := hcheck
      refine ⟨hdel, rfl, ?_, hloc, hrx⟩
      show (reachable != false) = (reachable != m₁.rxIsTarget targetNodes)
      rw [hrx']
  · -- the packet was dropped, so nothing will be received
    right
    left
    have hreq : m₁.requestIsAccepted = false := by
      rw [hrequest hps, hdropped]
      rfl
    rw [hreq, hdropped] at hcheck
    obtain rfl : m₁.stop (reachable != false) = m' := hcheck
    refine ⟨fun hdel => ?_, rfl, Bool.bne_false reachable⟩
    exact absurd (hdropped.symm.trans hdel.2.2.1) (by decide)
  · right
    right
    have hreq : m₁.requestIsAccepted = false := by
      rw [hrequest hpending.cur.phase]
      cases hmode : m₁.cur.fwdMode == .accepted with
      | true => exact hpending.cur.accepted (beq_iff_eq.mp hmode)
      | false => rfl
    have hdrop : (m₁.cur.fwdMode == .dropped) = false :=
      beq_eq_false_iff_ne.mpr hpending.cur.dropped
    rw [hreq, hdrop] at hcheck
    obtain rfl : m₁ = m' := hcheck
    refine ⟨fun hdel => ?_, hne, hpending⟩
    exact absurd (hdel.2.2.2.symm.trans (hpending.cur.accepted hdel.2.2.1)) (by decide)

theorem run_ends (hnet : P.network.ModelOnly)
    (h : Run (P.step (invariants targetNodes reachable conn)) s tr t) (hs : Pending s)
    (hpos : s.choiceCount ≠ 0) (ht : t.choiceCount = 0) :
    ((∀ l ∈ tr, ¬ Delivers l.before l.after) ∧ t.violated = reachable) ∨
      ∃ init l, tr = init ++ [l] ∧ (∀ k ∈ init, ¬ Delivers k.before k.after) ∧
        Delivers l.before l.after ∧
        t.violated = (reachable != l.after.rxIsTarget targetNodes) ∧
        l.after.cur.pktLocation = l.before.cur.pktLocation ∧
        l.after.cur.rxNode = if l.before.cur.protoState.isFirst then
          some l.before.cur.pktLocation else l.before.cur.rxNode := by
  induction h with
  | nil => exact absurd ht hpos
  | @cons s s' t a tr hstep hrest ih =>
    have hlast : s'.choiceCount = 0 → tr = [] ∧ t = s' := by
      intro h₀
      cases hrest with
      | nil => exact ⟨rfl, rfl⟩
      | cons hstep' _ => exact absurd (h₀ ▸ (Plankton.step_eq_some hstep').1) (Nat.not_lt_zero _)
    rcases step_pending hnet hstep hs with ⟨hdel, h₀, hviol, hloc, hrx⟩ | ⟨hnot, h₀, hviol⟩ |
      ⟨hnot, hne, hpending⟩
    · obtain ⟨rfl, rfl⟩ := hlast h₀
      exact .inr ⟨[], _, rfl, by simp, hdel, hviol, hloc, hrx⟩
    · obtain ⟨rfl, rfl⟩ := hlast h₀
      exact .inl ⟨by simpa using hnot, hviol⟩
    · rcases ih hpending hne ht with ⟨hall, hviol⟩ | ⟨init, l, rfl, hall, hrest⟩
      · exact .inl ⟨List.forall_mem_cons.mpr ⟨hnot, hall⟩, hviol⟩
      · exact .inr ⟨_ :: init, l, rfl, List.forall_mem_cons.mpr ⟨hnot, hall⟩, hrest⟩

/-- The verdict of a complete run is right if and only if the request and the first packet are
received alike. -/
theorem reached_iff (hnet : P.network.ModelOnly)
    (hs : P.initModel (invariants targetNodes reachable conn) = some s)
    (h : Run (P.step (invariants targetNodes reachable conn)) s tr t) (ht : t.choiceCount = 0) :
    (t.violated = true ↔ ¬ (reachable = true ↔ Reached targetNodes tr)) ↔
      ∀ l ∈ tr, SameReceiver targetNodes l := by
  have hpos : s.choiceCount ≠ 0 := by
    rw [(Plankton.initModel_single hs).2.1]
    exact one_ne_zero
  rcases run_ends hnet h (pending_initModel hs) hpos ht with ⟨hall, hviol⟩ |
    ⟨init, l, rfl, hall, hdel, hviol, hloc, hrx⟩
  · have hnot : ¬ Reached targetNodes tr := fun ⟨l, hl, hdel, _⟩ => hall l hl hdel
    have hsame : ∀ l ∈ tr, SameReceiver targetNodes l := fun l hl hdel => absurd hdel (hall l hl)
    simp only [hviol, hnot, iff_false, not_not, true_iff]
    exact hsame
  · have hreached : Reached targetNodes (init ++ [l]) ↔ l.before.cur.pktLocation ∈ targetNodes := by
      constructor
      · rintro ⟨k, hk, hdel', hmem⟩
        rcases List.mem_append.mp hk with hk | hk
        · exact absurd hdel' (hall k hk)
        · rw [List.mem_singleton] at hk
          exact hloc ▸ hk ▸ hmem
      · intro hmem
        exact ⟨l, by simp, hdel, hloc.symm ▸ hmem⟩
    have hsame : (∀ k ∈ init ++ [l], SameReceiver targetNodes k) ↔
        (l.after.rxIsTarget targetNodes = true ↔ l.before.cur.pktLocation ∈ targetNodes) := by
      -- only the last step delivers
      have hone : (∀ k ∈ init ++ [l], SameReceiver targetNodes k) ↔ SameReceiver targetNodes l := by
        constructor
        · exact fun hk => hk l (by simp)
        · intro hl k hk
          rcases List.mem_append.mp hk with hk | hk
          · exact fun hdel' => absurd hdel' (hall k hk)
          · rw [List.mem_singleton] at hk
            exact hk ▸ hl
      rw [hone, Model.rxIsTarget, hrx]
      cases hfirst : l.before.cur.protoState.isFirst with
      | true =>
        have hl : SameReceiver targetNodes l := fun _ h => by simp [hfirst] at h
        simp [hl]
      | false =>
        have hl : SameReceiver targetNodes l ↔ (l.before.cur.pktLocation ∈ targetNodes ↔
            l.before.rxIsTarget targetNodes = true) := by
          simp [SameReceiver, hdel, hfirst]
        rw [hl, Model.rxIsTarget]
        exact iff_comm
    rw [hsame, hreached, hviol]
    cases reachable <;> cases l.after.rxIsTarget targetNodes <;> simp

/-! A sender with two neighbours that own the same address. Its table prefers the first one, an
update the second one. -/

section Anycast

open Plankton (connectedRoute)

def anycastIntf : IntfPtr → Interface
  | 10 => ⟨2, ⟨0x0A000001#32, 24, twentyFour_le⟩, false⟩
  | 11 => ⟨2, ⟨0x0A000002#32, 24, twentyFour_le⟩, false⟩
  | 20 => ⟨3, ⟨0x0A000101#32, 24, twentyFour_le⟩, false⟩
  | 21 => ⟨2, ⟨0x0A000102#32, 24, twentyFour_le⟩, false⟩
  | _ => ⟨4, ⟨0x0A000909#32, 32, by decide⟩, false⟩

def serviceRoute (egressIntf : IntfName) : Route :=
  ⟨IPInterface.network ⟨0x0A000909#32, 32, by decide⟩, 0#32, egressIntf, 1⟩

def anycastNode : NodePtr → Node
  | 0 => ⟨[10, 20], [serviceRoute 2, connectedRoute (anycastIntf 10),
      connectedRoute (anycastIntf 20)], by unfold Ordered.WeakSorted; decide,
      [(2, 1, 11), (3, 2, 21)], false⟩
  | 1 => ⟨[11, 12], [connectedRoute (anycastIntf 12), connectedRoute (anycastIntf 11)],
      by unfold Ordered.WeakSorted; decide, [(2, 0, 10)], false⟩
  | 2 => ⟨[21, 22], [connectedRoute (anycastIntf 22), connectedRoute (anycastIntf 21)],
      by unfold Ordered.WeakSorted; decide, [(2, 0, 20)], false⟩
  | _ => ⟨[], [], Route.weakSorted_nil, [], false⟩

def anycast : Network where
  nodes := [0, 1, 2]
  node := anycastNode
  intf := anycastIntf
  peer_mem n p hp := by
    rcases n with _ | _ | _ | n <;> simp [anycastNode] at hp ⊢
    · rcases hp with rfl | rfl <;> simp
    · subst hp; simp
    · subst hp; simp
  l2Lan _ _ := ⟨[], []⟩
  lan_built _ _ := ⟨1, 0, rfl⟩

def anycastPlankton : Plankton := .ofNetwork anycast
  { updates := [(0, [serviceRoute 3])]
    sorted := List.pairwise_singleton ..
    node_mem := by simp [anycast, anycastNode] }

theorem anycast_modelOnly : anycastPlankton.network.ModelOnly := by
  intro n
  show (anycastNode n).isEmulated = false
  rcases n with _ | _ | _ | n <;> rfl

def anycastConn (protocol : Proto) : Connection where
  protocol := protocol
  srcNode := 0
  dstIpEc := (anycastPlankton.ecs.findEc 0x0A000909#32).getD 0
  srcPort := 100#16
  dstPort := 80#16
  srcIp := 0#32
  seq := 0#32
  ack := 0#32

def choosing (choices : List Nat) : List Label := choices.map fun choice => ⟨choice, [], none⟩

end Anycast

theorem verdict_datagram : ∃ s t tr,
    anycastPlankton.initModel (invariants [1] true (anycastConn .udp)) = some s ∧
      Run (anycastPlankton.step (invariants [1] true (anycastConn .udp))) s tr t ∧
        (t.violated = true ↔ ¬ (true = true ↔ Reached [1] tr)) := by
  have hrun : ((anycastPlankton.initModel (invariants [1] true (anycastConn .udp))).bind fun s =>
      (execute (anycastPlankton.step (invariants [1] true (anycastConn .udp))) s
        (choosing [0, 0, 0, 0])).map fun r =>
          (r.2.choiceCount, r.1.all fun l => l.before.cur.protoState.isFirst)) =
        some (0, true) := by
    decide +kernel
  obtain ⟨s, hs, hrun⟩ := Option.bind_eq_some_iff.mp hrun
  obtain ⟨⟨tr, t⟩, hexec, hr⟩ := Option.map_eq_some_iff.mp hrun
  obtain ⟨h₀, hall⟩ := Prod.mk.inj hr
  have hsame : ∀ l ∈ tr, SameReceiver [1] l := by
    intro l hl _ hfirst
    have := List.all_eq_true.mp hall l hl
    simp [hfirst] at this
  have hr := run_of_execute hexec
  exact ⟨s, t, tr, hs, hr, (reached_iff anycast_modelOnly hs hr h₀).mpr hsame⟩

/-- The update is installed between the first packet and the request, which is delivered at the
second neighbour, a target, while the first one counts as the receiver. -/
theorem not_verdict : ¬ ∀ (P : Plankton) (targetNodes : List NodePtr) (reachable : Bool)
    (conn : Connection) (s t : Model) (tr : List (Link Model Label)), P.network.ModelOnly →
      P.initModel (invariants targetNodes reachable conn) = some s →
        Run (P.step (invariants targetNodes reachable conn)) s tr t → t.choiceCount = 0 →
          (t.violated = true ↔ ¬ (reachable = true ↔ Reached targetNodes tr)) := by
  intro h
  have hrun : ((anycastPlankton.initModel (invariants [2] true (anycastConn .tcp))).bind fun s =>
      (execute (anycastPlankton.step (invariants [2] true (anycastConn .tcp))) s
        (choosing (List.replicate 17 0 ++ [1, 0, 0, 0, 0]))).bind fun r =>
          r.1.getLast?.map fun l => ((r.2.choiceCount, r.2.violated), (l.before.processId,
            l.before.cur.fwdMode), l.after.cur.fwdMode, l.after.cur.protoState,
            l.after.cur.pktLocation)) =
              some ((0, true), (.forwarding, .forwardPacket), .accepted, psTcpL7Req, 2) := by
    decide +kernel
  obtain ⟨s, hs, hrun⟩ := Option.bind_eq_some_iff.mp hrun
  obtain ⟨⟨tr, t⟩, hexec, hrun⟩ := Option.bind_eq_some_iff.mp hrun
  obtain ⟨l, hlast, hr⟩ := Option.map_eq_some_iff.mp hrun
  simp only [Prod.mk.injEq] at hr
  obtain ⟨⟨h₀, hviol⟩, ⟨hp, hbefore⟩, hafter, hps, hloc⟩ := hr
  have hreached : Reached [2] tr := by
    refine ⟨l, List.mem_of_getLast? hlast, ⟨hp, .inr hbefore, hafter, ?_⟩, ?_⟩
    · rw [hps]
      rfl
    · rw [hloc]
      exact List.mem_singleton_self 2
  have hverdict := (h anycastPlankton [2] true (anycastConn .tcp) s t tr anycast_modelOnly hs
    (run_of_execute hexec) h₀).mp hviol
  exact hverdict ⟨fun _ => hreached, fun _ => rfl⟩

end Reachability

end Neo
