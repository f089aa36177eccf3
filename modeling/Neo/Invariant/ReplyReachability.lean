import Neo.Invariant.OneRequest
import Neo.Process.Progress

/-! What `ReplyReachability` reports. A request that is accepted elsewhere is judged only while no
other connection is executable, and forgotten otherwise: its reply then counts as reached. -/

namespace Neo

namespace ReplyReachability

open Waypoint (sitePlankton siteConn)
open Model (Rests Follows)

variable {P : Plankton} {targetNodes : List NodePtr} {reachable : Bool} {conn : Connection}
  {conns : List Connection} {m m₁ m' s t : Model} {tr : List (Link Model Label)}

def invariants (targetNodes : List NodePtr) (reachable : Bool) (conn : Connection)
    (conns : List Connection) : Invariants :=
  .single ⟨.replyReachability targetNodes reachable, conn :: conns⟩

def ConcludesReached (P : Plankton) (targetNodes : List NodePtr) (reachable : Bool)
    (l : Link Model Label) : Prop :=
  ∃ m₁, P.control l.act.results (l.before.setChoice l.act.choice) = some m₁ ∧
    (m₁.setChoiceCount 1).checkReplyReachability targetNodes reachable =
      m₁.stop (reachable != true)

def RequestedAt (targetNodes : List NodePtr) (tr : List (Link Model Label)) (i : Nat) : Prop :=
  ∃ l ∈ tr, (l.before.connState i).getsAccepted (l.after.connState i) = true ∧
    l.before.cur.pktLocation ∈ targetNodes

def SentFirst (conns : List Connection) (tr : List (Link Model Label)) (i : Nat) (n : NodePtr) :
    Prop :=
  (∃ c, conns[i]? = some c ∧ n = c.srcNode) ∨
    ∃ l ∈ tr, l.before.numConns ≤ i ∧ i < l.after.numConns ∧ n = l.before.cur.pktLocation

def upToReply (p : ProtoState) : Bool :=
  (decide (psTcpInit1 ≤ p) && decide (p ≤ psTcpL7Rep)) ||
    (decide (psUdpReq ≤ p) && decide (p ≤ psIcmpEchoRep))

/-- The request is accepted at another node than demanded, which is reported at once. -/
def JudgedWrong (targetNodes : List NodePtr) (m : Model) : Prop :=
  m.beforeReply = true ∧ m.requestIsAccepted = true ∧ m.rxIsTarget targetNodes = false ∧
    m.otherExecutableConnsExist = false

instance : DecidablePred (JudgedWrong targetNodes) := fun _ => inferInstanceAs (Decidable (_ ∧ _))

/-- Before a step and before its check: no wrong acceptance is passed over, no middlebox takes a
connection past its reply, and every connection that is chosen to be forwarded has a next hop. -/
@[mk_iff] structure PassesOverNone (targetNodes : List NodePtr) (m m₁ : Model) : Prop where
  request : ∀ i < m₁.numConns, (m.connState i).getsAccepted (m₁.connState i) = true →
    m.cur.pktLocation ∈ targetNodes ∨ i = m₁.conn ∧ JudgedWrong targetNodes m₁
  reply : m₁.cur.fwdMode = .accepted → m₁.cur.protoState.isReply = true →
    m₁.cur.pktLocation ≠ m₁.cur.txNode → m₁.otherExecutableConnsExist = false
  answer : m.processId = .forwarding ∧ m.cur.fwdMode = .chooseInjRes →
    ∀ i < m₁.numConns, upToReply (m₁.connState i).protoState = true
  next : m.ChoosesForwardable

instance : Decidable (PassesOverNone targetNodes m m₁) :=
  decidable_of_iff _ (passesOverNone_iff targetNodes m m₁).symm

/-- Whenever the reply is said to be reached, the request was accepted by a target node and the
reply delivered at the original sender; and where this is never said, there is a violation at the
end if the reply should be reached. -/
def Sound (P : Plankton) (targetNodes : List NodePtr) (reachable : Bool) (conns : List Connection)
    (tr : List (Link Model Label)) (t : Model) : Prop :=
  (∀ pre l post, tr = pre ++ l :: post → ConcludesReached P targetNodes reachable l →
    RequestedAt targetNodes (pre ++ [l]) l.after.conn ∧
      l.after.cur.pktLocation = l.after.cur.txNode ∧
      SentFirst conns (pre ++ [l]) l.after.conn l.after.cur.txNode) ∧
  (t.choiceCount = 0 → reachable = true →
    (∀ l ∈ tr, ¬ ConcludesReached P targetNodes reachable l) → t.violated = true)

theorem lt_of_upToReply {p : Nat} (h : upToReply p = true) : p < 15 := by
  simp only [upToReply, Bool.or_eq_true, Bool.and_eq_true, decide_eq_true_eq] at h
  rcases h with ⟨-, h⟩ | ⟨-, h⟩
  · exact h.trans_lt (by decide)
  · exact h.trans_lt (by decide)

theorem beforeReply_or_isReply (h : upToReply m.cur.protoState = true) :
    m.beforeReply = true ∨ m.cur.protoState.isReply = true := by
  unfold Model.beforeReply
  generalize m.cur.protoState = p at *
  have hall : ∀ p < 15, upToReply p = true →
      (p.isTcp && decide (p < psTcpL7Rep) || p.isUdp && decide (p < psUdpRep) ||
        p.isIcmpEcho && decide (p < psIcmpEchoRep)) = true ∨ p.isReply = true := by
    decide
  exact hall p (lt_of_upToReply h) h

theorem beforeReply_of_isReply (h : m.cur.protoState.isReply = true) : m.beforeReply = false := by
  unfold Model.beforeReply
  generalize m.cur.protoState = p at *
  simp only [ProtoState.isReply, Bool.or_eq_true, beq_iff_eq] at h
  rcases h with (rfl | rfl) | rfl <;> decide

theorem upToReply_succ {p : ProtoState} (h : upToReply p = true) (hreply : p.isReply = false) :
    upToReply (p + 1) = true := by
  have hall : ∀ p < 15, upToReply p = true → p.isReply = false → upToReply (p + 1) = true := by
    decide
  exact hall p (lt_of_upToReply h) h hreply

def Replied (m : Model) : Prop :=
  m.cur.protoState.isReply = true ∧ m.cur.fwdMode = .accepted ∧ m.cur.pktLocation = m.cur.txNode

instance : DecidablePred Replied := fun _ => inferInstanceAs (Decidable (_ ∧ _))

theorem check_cases (targetNodes : List NodePtr) (reachable : Bool) (m : Model) :
    (Replied m ∧ m.checkReplyReachability targetNodes reachable = m.stop (reachable != true)) ∨
    ¬ Replied m ∧
      (m.checkReplyReachability targetNodes reachable = m.stop reachable ∨
        m.checkReplyReachability targetNodes reachable = m ∧
          ¬ JudgedWrong targetNodes m ∧
          (m.otherExecutableConnsExist = false →
            (m.beforeReply = true → m.cur.fwdMode ≠ .dropped) ∧
            (m.cur.protoState.isReply = true →
              m.cur.fwdMode ≠ .accepted ∧ m.cur.fwdMode ≠ .dropped))) := by
  unfold Model.checkReplyReachability
  by_cases hbefore : m.beforeReply
  · have hreply : m.cur.protoState.isReply = false := by
      by_contra hreply
      rw [beforeReply_of_isReply (by simpa using hreply)] at hbefore
      exact Bool.false_ne_true hbefore
    have hnot : ¬ Replied m := by
      intro h
      exact absurd (hreply.symm.trans h.1) Bool.false_ne_true
    rw [if_pos hbefore]
    refine .inr ⟨hnot, ?_⟩
    split_ifs with hwrong
    · exact .inl rfl
    · refine .inr ⟨rfl, ?_, ?_⟩
      · intro ⟨_, hacc, hrx, hother⟩
        simp [hacc, hrx, hother] at hwrong
      · intro hother
        refine ⟨fun _ hmode => ?_, fun h => ?_⟩
        · simp [hmode, hother] at hwrong
        · exact absurd (hreply.symm.trans h) Bool.false_ne_true
  · -- from the reply on
    have hnotWrong : ¬ JudgedWrong targetNodes m := fun h => hbefore h.1
    rw [if_neg hbefore]
    by_cases hreply : m.cur.protoState.isReply
    · rw [if_pos hreply]
      by_cases hreached : m.cur.fwdMode == .accepted && m.cur.pktLocation == m.cur.txNode
      · rw [if_pos hreached]
        simp only [Bool.and_eq_true, beq_iff_eq] at hreached
        exact .inl ⟨⟨hreply, hreached⟩, rfl⟩
      · rw [if_neg hreached]
        have hnot : ¬ Replied m := by
          intro h
          simp [h.2] at hreached
        refine .inr ⟨hnot, ?_⟩
        split_ifs with hwrong
        · left
          cases reachable <;> rfl
        · refine .inr ⟨rfl, hnotWrong, fun hother => ⟨fun h => absurd h hbefore, fun _ => ?_⟩⟩
          constructor
          · intro hmode
            have hloc : m.cur.pktLocation ≠ m.cur.txNode := fun h => hnot ⟨hreply, hmode, h⟩
            simp [hmode, hother, hloc] at hwrong
          · intro hmode
            simp [hmode, hother] at hwrong
    · rw [if_neg hreply]
      refine .inr ⟨fun h => hreply h.1, .inr ⟨rfl, hnotWrong, fun _ => ?_⟩⟩
      exact ⟨fun h => absurd h hbefore, fun h => absurd h hreply⟩

theorem concludes_iff (m : Model) :
    (m.setChoiceCount 1).checkReplyReachability targetNodes reachable =
      m.stop (reachable != true) ↔ Replied m := by
  have hreplied : Replied (m.setChoiceCount 1) ↔ Replied m := Iff.rfl
  rcases check_cases targetNodes reachable (m.setChoiceCount 1) with ⟨h, hcheck⟩ | ⟨hnot, hrest⟩
  · rw [hcheck]
    exact iff_of_true rfl (hreplied.mp h)
  · apply iff_of_false _ (hreplied.not.mp hnot)
    intro hcheck
    rcases hrest with h | ⟨h, -⟩
    · have hviolated := congrArg Model.violated (h.symm.trans hcheck)
      have hne : reachable ≠ (reachable != true) := by cases reachable <;> decide
      exact hne hviolated
    · have hcount := congrArg Model.choiceCount (h.symm.trans hcheck)
      exact absurd hcount one_ne_zero

theorem RequestedAt.append {i : Nat} (h : RequestedAt targetNodes tr i)
    (tr' : List (Link Model Label)) : RequestedAt targetNodes (tr ++ tr') i := by
  obtain ⟨l, hl, hacc⟩ := h
  exact ⟨l, List.mem_append_left _ hl, hacc⟩

theorem SentFirst.append {i : Nat} {n : NodePtr} (h : SentFirst conns tr i n)
    (tr' : List (Link Model Label)) : SentFirst conns (tr ++ tr') i n := by
  rcases h with hc | ⟨l, hl, hi⟩
  · exact .inl hc
  · exact .inr ⟨l, List.mem_append_left _ hl, hi⟩

structure Unanswered (targetNodes : List NodePtr) (conns : List Connection)
    (tr : List (Link Model Label)) (m : Model) : Prop where
  conn : m.conn < m.numConns
  phase : ∀ i < m.numConns, upToReply (m.connState i).protoState = true
  answered : ∀ i < m.numConns, (m.connState i).fwdMode = .accepted →
    (m.connState i).protoState.isReply = false
  beyond : ∀ i, m.numConns ≤ i → (m.connState i).requestAccepted = false
  requested : ∀ i < m.numConns, (m.connState i).requestAccepted = true →
    RequestedAt targetNodes tr i
  sent : ∀ i < m.numConns, SentFirst conns tr i (m.connState i).txNode

theorem unanswered_initModel
    (h : P.initModel (invariants targetNodes reachable conn conns) = some s) :
    Unanswered targetNodes (conn :: conns) [] s := by
  obtain ⟨-, -, m₀, hzero, hstarts⟩ := Plankton.initModel_single h
  have hnum : s.numConns = (conn :: conns).length := hstarts.numConns
  have hslot : ∀ i < s.numConns, ∃ c, (conn :: conns)[i]? = some c ∧
      c.Starts P m₀.openflowUpdateState (s.connState i) := by
    intro i hi
    have hlt : i < (conn :: conns).length := hnum ▸ hi
    have hc : (conn :: conns)[i]? = some (conn :: conns)[i] := List.getElem?_eq_getElem hlt
    exact ⟨_, hc, hstarts.slot i _ hc⟩
  have hfirst : ∀ c : Connection, upToReply c.firstProtoState = true ∧
      c.firstProtoState.isReqAckOrRep = false := by
    intro c
    unfold Connection.firstProtoState
    cases c.protocol
    · decide
    · decide
    · decide
  refine ⟨?_, ?_, ?_, ?_, ?_, ?_⟩
  · rw [hstarts.conn, hnum]
    exact Nat.succ_pos _
  · intro i hi
    obtain ⟨c, -, hc⟩ := hslot i hi
    rw [hc.protoState]
    exact (hfirst c).1
  · intro i hi hmode
    obtain ⟨c, -, hc⟩ := hslot i hi
    simp [hc.fwdMode] at hmode
  · intro i hi
    rw [hstarts.rest i (hnum ▸ hi), hzero]
    rfl
  · intro i hi hacc
    obtain ⟨c, -, hc⟩ := hslot i hi
    unfold ConnState.requestAccepted at hacc
    rw [hc.protoState, (hfirst c).2, hc.fwdMode] at hacc
    simp at hacc
  · intro i hi
    obtain ⟨c, hget, hc⟩ := hslot i hi
    exact .inl ⟨c, hget, hc.txNode⟩

structure Unchecked (targetNodes : List NodePtr) (conns : List Connection)
    (tr : List (Link Model Label)) (m₁ : Model) : Prop where
  conn : m₁.conn < m₁.numConns
  phase : ∀ i < m₁.numConns, upToReply (m₁.connState i).protoState = true
  answered : ∀ i < m₁.numConns, i ≠ m₁.conn → (m₁.connState i).fwdMode = .accepted →
    (m₁.connState i).protoState.isReply = false
  beyond : ∀ i, m₁.numConns ≤ i → (m₁.connState i).requestAccepted = false
  requested : ∀ i < m₁.numConns, (m₁.connState i).requestAccepted = true →
    RequestedAt targetNodes tr i ∨ i = m₁.conn ∧ JudgedWrong targetNodes m₁
  sent : ∀ i < m₁.numConns, SentFirst conns tr i (m₁.connState i).txNode

theorem control_unchecked {a : Label} (m' : Model)
    (h : P.control a.results (m.setChoice a.choice) = some m₁)
    (hm : Unanswered targetNodes conns tr m)
    (hpass : PassesOverNone targetNodes (m.setChoice a.choice) m₁)
    (hstate : m'.connState = m₁.connState) (hnum : m'.numConns = m₁.numConns) :
    Unchecked targetNodes conns (tr ++ [⟨m, a, m'⟩]) m₁ := by
  have hp := Plankton.control_progresses h hm.conn
  have hmem : (⟨m, a, m'⟩ : Link Model Label) ∈ tr ++ [⟨m, a, m'⟩] :=
    List.mem_append_right _ (List.mem_singleton.mpr rfl)
  refine ⟨hp.conn, ?_, ?_, ?_, ?_, ?_⟩
  · intro i hi
    -- only an answer of a middlebox moves a connection that is not in charge
    by_cases hanswer : m.processId = .forwarding ∧ m.cur.fwdMode = .chooseInjRes
    · exact hpass.answer hanswer i hi
    · obtain ⟨hsame, hfollows⟩ := hp.follows hanswer
      have hi' : i < m.numConns := hsame ▸ hi
      rcases hfollows i with hps | ⟨hmode, -, hps⟩
      · rw [hps]
        exact hm.phase i hi'
      · rw [hps]
        exact upToReply_succ (hm.phase i hi') (hm.answered i hi' hmode)
  · intro i hi hne hmode
    obtain ⟨hbefore, hps⟩ := hp.rests i hne hmode
    rw [hps]
    rcases Nat.lt_or_ge i m.numConns with hlt | hge
    · exact hm.answered i hlt hbefore
    · -- a slot that is not used yet holds no reply
      have hnone := hm.beyond i hge
      simp only [ConnState.requestAccepted, ProtoState.isReqAckOrRep, Bool.or_eq_false_iff] at hnone
      exact hnone.2.2
  · intro i hi
    rw [hp.beyond i hi]
    exact hm.beyond i (hp.numConns.trans hi)
  · intro i hi hacc
    by_cases hbefore : (m.connState i).requestAccepted = true
    · left
      have hlt : i < m.numConns := by
        by_contra hge
        rw [hm.beyond i (not_lt.mp hge)] at hbefore
        exact Bool.false_ne_true hbefore
      exact (hm.requested i hlt hbefore).append _
    · have hgets : (m.connState i).getsAccepted (m₁.connState i) = true := by
        simp [ConnState.getsAccepted, hbefore, hacc]
      apply (hpass.request i hi hgets).imp_left
      intro htarget
      refine ⟨_, hmem, ?_, htarget⟩
      rw [hstate]
      exact hgets
  · intro i hi
    rcases Nat.lt_or_ge i m.numConns with hlt | hge
    · rw [hp.txNode i hlt]
      exact (hm.sent i hlt).append _
    · rw [hp.added i hge hi]
      exact .inr ⟨_, hmem, hge, hnum.symm ▸ hi, rfl⟩

theorem Unchecked.requested_of_replied (hu : Unchecked targetNodes conns tr m₁)
    (hreplied : Replied m₁) : RequestedAt targetNodes tr m₁.conn := by
  have hacc : m₁.cur.requestAccepted = true := by
    simp [ConnState.requestAccepted, ProtoState.isReqAckOrRep, hreplied.1]
  apply (hu.requested m₁.conn hu.conn hacc).resolve_right
  rintro ⟨-, hwrong⟩
  have hbefore := hwrong.1
  rw [beforeReply_of_isReply hreplied.1] at hbefore
  exact Bool.false_ne_true hbefore

def Silent (m : Model) : Prop :=
  m.otherExecutableConnsExist = false →
    (m.beforeReply = true → m.cur.fwdMode ≠ .dropped) ∧
    (m.cur.protoState.isReply = true → m.cur.fwdMode ≠ .accepted ∧ m.cur.fwdMode ≠ .dropped)

theorem Unchecked.not_finished (hu : Unchecked targetNodes conns tr m₁) (hsilent : Silent m₁) :
    ¬ ∀ i < m₁.numConns, (m₁.connState i).isFinished = true := by
  intro hfin
  have hother : m₁.otherExecutableConnsExist = false := by
    apply Model.otherExecutableConnsExist_eq_false
    intro i hi _
    have hi' := hfin i hi
    simp only [ConnState.isFinished, Bool.and_eq_true, beq_iff_eq] at hi'
    exact hi'.1
  obtain ⟨hdropped, haccepted⟩ := hsilent hother
  have hphase := hu.phase m₁.conn hu.conn
  rcases beforeReply_or_isReply hphase with hbefore | hreply
  · rcases Model.allFinished_of_isFinished hfin m₁.conn hu.conn with hmode | ⟨-, hlast⟩
    · exact hdropped hbefore hmode
    · -- the last state up to the reply is that of the reply
      have hall : ∀ p < 15, ProtoState.isLast p = true → upToReply p = true →
          ProtoState.isReply p = true := by
        decide
      have hreply := hall _ (lt_of_upToReply hphase) hlast hphase
      rw [beforeReply_of_isReply hreply] at hbefore
      exact Bool.false_ne_true hbefore
  · rcases Model.allFinished_of_isFinished hfin m₁.conn hu.conn with hmode | ⟨hmode, -⟩
    · exact (haccepted hreply).2 hmode
    · exact (haccepted hreply).1 hmode

theorem Unchecked.unanswered (hu : Unchecked targetNodes conns tr m₁) (hsilent : Silent m₁)
    (hnot : ¬ Replied m₁) (hwrong : ¬ JudgedWrong targetNodes m₁)
    (hpass : PassesOverNone targetNodes m m₁) : Unanswered targetNodes conns tr m₁ := by
  refine ⟨hu.conn, hu.phase, ?_, hu.beyond, ?_, hu.sent⟩
  · intro i hi hmode
    by_cases hcur : i = m₁.conn
    · subst hcur
      by_contra hreply
      have hreply' : (m₁.connState m₁.conn).protoState.isReply = true := by simpa using hreply
      have hloc : m₁.cur.pktLocation ≠ m₁.cur.txNode :=
        fun hloc => hnot ⟨hreply', hmode, hloc⟩
      have hother := hpass.reply hmode hreply' hloc
      exact ((hsilent hother).2 hreply').1 hmode
    · exact hu.answered i hi hcur hmode
  · intro i hi hacc
    apply (hu.requested i hi hacc).resolve_right
    rintro ⟨-, hjudged⟩
    exact hwrong hjudged

/-- What the check says after a step ends the run or lets it go on. -/
theorem step_cases {a : Label}
    (h : P.step (invariants targetNodes reachable conn conns) m a = some m')
    (hm : Unanswered targetNodes (conn :: conns) tr m)
    (hpass : ∀ m₁, P.control a.results (m.setChoice a.choice) = some m₁ →
      PassesOverNone targetNodes (m.setChoice a.choice) m₁) :
    (ConcludesReached P targetNodes reachable ⟨m, a, m'⟩ ∧ m'.choiceCount = 0 ∧
      RequestedAt targetNodes (tr ++ [⟨m, a, m'⟩]) m'.conn ∧
      m'.cur.pktLocation = m'.cur.txNode ∧
      SentFirst (conn :: conns) (tr ++ [⟨m, a, m'⟩]) m'.conn m'.cur.txNode) ∨
    ¬ ConcludesReached P targetNodes reachable ⟨m, a, m'⟩ ∧
      ((m'.choiceCount = 0 ∧ m'.violated = reachable) ∨
        (m'.choiceCount ≠ 0 ∧ Unanswered targetNodes (conn :: conns) (tr ++ [⟨m, a, m'⟩]) m')) := by
  obtain ⟨hlt, m₁, hcontrol, hcheck⟩ := Plankton.step_single h
  have hpos : 0 < (m.setChoice a.choice).choiceCount := Nat.zero_lt_of_lt hlt
  have hpass₁ := hpass m₁ hcontrol
  have hconcludes : ConcludesReached P targetNodes reachable ⟨m, a, m'⟩ ↔ Replied m₁ := by
    rw [← concludes_iff m₁]
    constructor
    · rintro ⟨m₂, hm₂, hconcludes⟩
      obtain rfl := Option.some.inj (hcontrol.symm.trans hm₂)
      exact hconcludes
    · exact fun hconcludes => ⟨m₁, hcontrol, hconcludes⟩
  obtain rfl := Option.some.inj hcheck
  rw [hconcludes]
  rcases check_cases targetNodes reachable m₁ with ⟨hreplied, hstop⟩ | ⟨hnot, hstop | hquiet⟩
  · left
    rw [hstop]
    have hu := control_unchecked (m₁.stop (reachable != true)) hcontrol hm hpass₁ rfl rfl
    exact ⟨hreplied, rfl, hu.requested_of_replied hreplied, hreplied.2.2, hu.sent m₁.conn hu.conn⟩
  · rw [hstop]
    exact .inr ⟨hnot, .inl ⟨rfl, rfl⟩⟩
  · obtain ⟨hsame, hwrong, hsilent⟩ := hquiet
    rw [hsame]
    have hu := control_unchecked m₁ hcontrol hm hpass₁ rfl rfl
    refine .inr ⟨hnot, .inr ⟨fun h₀ => ?_, hu.unanswered hsilent hnot hwrong hpass₁⟩⟩
    exact hu.not_finished hsilent (Plankton.control_ends hcontrol hpos hpass₁.next h₀)

theorem run_sound {s t : Model} {tr : List (Link Model Label)}
    (h : Run (P.step (invariants targetNodes reachable conn conns)) s tr t) :
    ∀ {pre : List (Link Model Label)}, Unanswered targetNodes (conn :: conns) pre s →
      s.choiceCount ≠ 0 →
      (∀ l ∈ tr, ∀ m₁, P.control l.act.results (l.before.setChoice l.act.choice) = some m₁ →
        PassesOverNone targetNodes (l.before.setChoice l.act.choice) m₁) →
      (∀ mid l post, tr = mid ++ l :: post → ConcludesReached P targetNodes reachable l →
        RequestedAt targetNodes (pre ++ mid ++ [l]) l.after.conn ∧
          l.after.cur.pktLocation = l.after.cur.txNode ∧
          SentFirst (conn :: conns) (pre ++ mid ++ [l]) l.after.conn l.after.cur.txNode) ∧
      (t.choiceCount = 0 → reachable = true →
        (∀ l ∈ tr, ¬ ConcludesReached P targetNodes reachable l) → t.violated = true) := by
  induction h with
  | nil s =>
    intro pre _ hs _
    exact ⟨fun mid l post htr => by simp at htr, fun h₀ => absurd h₀ hs⟩
  | @cons s s' t a tr hstep hrest ih =>
    intro pre hs _ hpass
    obtain ⟨hpass₀, hpass⟩ := List.forall_mem_cons.mp hpass
    rcases step_cases hstep hs hpass₀ with ⟨hconc, h₀, hrequested⟩ | ⟨hnot, hgoes⟩
    · -- nothing follows a step that ends the run
      cases hrest with
      | cons hstep' _ => exact absurd (Plankton.step_eq_some hstep').1 (by simp [h₀])
      | nil =>
        refine ⟨fun mid l post htr _ => ?_, fun _ _ hnone => ?_⟩
        · obtain ⟨rfl, rfl, rfl⟩ : mid = [] ∧ l = ⟨s, a, s'⟩ ∧ post = [] := by
            cases mid with
            | nil =>
              obtain ⟨rfl, rfl⟩ := List.cons.inj htr
              exact ⟨rfl, rfl, rfl⟩
            | cons x xs => simp at htr
          rw [List.append_nil]
          exact hrequested
        · exact absurd hconc (hnone _ (List.mem_cons_self ..))
    · -- a step that concludes comes later, since this one does not
      have hhead : ∀ mid l post, (⟨s, a, s'⟩ :: tr : List (Link Model Label)) = mid ++ l :: post →
          ConcludesReached P targetNodes reachable l →
            ∃ mid', mid = ⟨s, a, s'⟩ :: mid' ∧ tr = mid' ++ l :: post := by
        intro mid l post htr hconc
        cases mid with
        | nil =>
          obtain ⟨rfl, -⟩ := List.cons.inj htr
          exact absurd hconc hnot
        | cons x xs =>
          obtain ⟨rfl, htail⟩ := List.cons.inj htr
          exact ⟨xs, rfl, htail⟩
      rcases hgoes with ⟨h₀, hviolated⟩ | ⟨hne, hs'⟩
      · cases hrest with
        | cons hstep' _ => exact absurd (Plankton.step_eq_some hstep').1 (by simp [h₀])
        | nil =>
          refine ⟨fun mid l post htr hconc => ?_, fun _ hreachable _ => ?_⟩
          · obtain ⟨mid', -, htr'⟩ := hhead mid l post htr hconc
            simp at htr'
          · rw [hviolated, hreachable]
      · obtain ⟨hsound, hend⟩ := ih hs' hne hpass
        refine ⟨fun mid l post htr hconc => ?_, fun h₀ hreachable hnone => ?_⟩
        · obtain ⟨mid', rfl, htr'⟩ := hhead mid l post htr hconc
          have := hsound mid' l post htr' hconc
          simpa using this
        · exact hend h₀ hreachable fun l hl => hnone l (List.mem_cons_of_mem _ hl)

/-- In a run whose steps pass over nothing the verdict is sound. -/
theorem replied_of_passesOverNone
    (hs : P.initModel (invariants targetNodes reachable conn conns) = some s)
    (h : Run (P.step (invariants targetNodes reachable conn conns)) s tr t)
    (hpass : ∀ l ∈ tr, ∀ m₁,
      P.control l.act.results (l.before.setChoice l.act.choice) = some m₁ →
        PassesOverNone targetNodes (l.before.setChoice l.act.choice) m₁) :
    Sound P targetNodes reachable (conn :: conns) tr t := by
  have hcount : s.choiceCount ≠ 0 := by
    rw [(Plankton.initModel_single hs).2.1]
    exact one_ne_zero
  exact run_sound h (unanswered_initModel hs) hcount hpass

theorem replied_datagram : ∃ s t tr,
    sitePlankton.initModel (invariants [1] true (siteConn .udp) []) = some s ∧
      Run (sitePlankton.step (invariants [1] true (siteConn .udp) [])) s tr t ∧
        t.choiceCount = 0 ∧ Sound sitePlankton [1] true [siteConn .udp] tr t := by
  have hrun : ((sitePlankton.initModel (invariants [1] true (siteConn .udp) [])).bind fun s =>
      (execute (sitePlankton.step (invariants [1] true (siteConn .udp) [])) s
        (List.replicate 9 Plankton.go)).map fun r =>
          (r.2.choiceCount, r.1.all fun l =>
            (sitePlankton.control l.act.results (l.before.setChoice l.act.choice)).all fun m₁ =>
              decide (PassesOverNone [1] (l.before.setChoice l.act.choice) m₁))) =
                some (0, true) := by
    decide +kernel
  obtain ⟨s, hs, hrun⟩ := Option.bind_eq_some_iff.mp hrun
  obtain ⟨⟨tr, t⟩, hexec, hr⟩ := Option.map_eq_some_iff.mp hrun
  obtain ⟨h₀, hall⟩ := Prod.mk.inj hr
  have hr := run_of_execute hexec
  refine ⟨s, t, tr, hs, hr, h₀, replied_of_passesOverNone hs hr fun l hl m₁ hm₁ => ?_⟩
  have hl' := List.all_eq_true.mp hall l hl
  rw [hm₁] at hl'
  exact of_decide_eq_true hl'

def otherConn : Connection :=
  { siteConn .udp with dstIpEc := (sitePlankton.ecs.findEc 0x0A000102#32).getD 0 }

/-- Only the second host should accept requests. The first one accepts a request while the
connection to the second is executable, and its reply counts as reached. -/
theorem not_replied : ¬ ∀ (P : Plankton) (targetNodes : List NodePtr) (reachable : Bool)
    (conn : Connection) (conns : List Connection) (s t : Model) (tr : List (Link Model Label)),
    P.initModel (invariants targetNodes reachable conn conns) = some s →
      Run (P.step (invariants targetNodes reachable conn conns)) s tr t →
        Sound P targetNodes reachable (conn :: conns) tr t := by
  intro h
  have hrun : ((sitePlankton.initModel
      (invariants [2] true (siteConn .udp) [otherConn])).bind fun s =>
      (execute (sitePlankton.step (invariants [2] true (siteConn .udp) [otherConn])) s
        (List.replicate 9 Plankton.go)).bind fun r =>
          r.1.getLast?.bind fun l =>
            (sitePlankton.control l.act.results (l.before.setChoice l.act.choice)).map fun m₁ =>
              ((decide (Replied m₁), l.after.conn), r.1.any fun l' =>
                (l'.before.connState 0).getsAccepted (l'.after.connState 0) &&
                  decide (l'.before.cur.pktLocation ∈ [2]))) = some ((true, 0), false) := by
    decide +kernel
  obtain ⟨s, hs, hrun⟩ := Option.bind_eq_some_iff.mp hrun
  obtain ⟨⟨tr, t⟩, hexec, hrun⟩ := Option.bind_eq_some_iff.mp hrun
  obtain ⟨l, hlast, hrun⟩ := Option.bind_eq_some_iff.mp hrun
  obtain ⟨m₁, hcontrol, hr⟩ := Option.map_eq_some_iff.mp hrun
  simp only [Prod.mk.injEq, decide_eq_true_eq] at hr
  obtain ⟨⟨hreplied, hconn⟩, hnone⟩ := hr
  obtain ⟨pre, rfl⟩ := List.getLast?_eq_some_iff.mp hlast
  have hconc : ConcludesReached sitePlankton [2] true l :=
    ⟨m₁, hcontrol, (concludes_iff m₁).mpr hreplied⟩
  obtain ⟨⟨l', hl', hgets, htarget⟩, -⟩ :=
    (h _ _ _ _ _ s t _ hs (run_of_execute hexec)).1 pre l [] rfl hconc
  have hl'' := List.any_eq_false.mp hnone l' hl'
  rw [hconn] at hgets
  simp [hgets, htarget] at hl''

end ReplyReachability

end Neo
