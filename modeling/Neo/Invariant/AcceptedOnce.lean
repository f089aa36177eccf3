import Neo.Invariant.Correlated
import Neo.Invariant.Waypoint
import Neo.Process.Accepted

/-! What `LoadBalance` and `OneRequest` count: accepted first packets and accepted requests, by the
node that received the first packet. The check comes after every step, so an accepted packet that
stays accepted is counted again. -/

namespace Neo

namespace ProtoState

/-- The states of first packets, or those of requests: at most one of each protocol. -/
structure OncePerProto (q : ProtoState → Bool) : Prop where
  state : ∀ ps, q ps = true →
    ps = psTcpInit1 ∨ ps = psTcpL7Req ∨ ps = psUdpReq ∨ ps = psIcmpEchoReq
  single : ∀ ps ps', q ps = true → q ps' = true → ps.toProto = ps'.toProto → ps = ps'

theorem oncePerProto_isFirst : OncePerProto isFirst where
  state ps h := by
    simp only [isFirst, Bool.or_eq_true, beq_iff_eq] at h
    tauto
  single ps ps' h h' := by
    simp only [isFirst, Bool.or_eq_true, beq_iff_eq] at h h'
    rcases h with (rfl | rfl) | rfl <;> rcases h' with (rfl | rfl) | rfl <;> decide

theorem oncePerProto_isRequest : OncePerProto isRequest where
  state ps h := by
    simp only [isRequest, Bool.or_eq_true, beq_iff_eq] at h
    tauto
  single ps ps' h h' := by
    simp only [isRequest, Bool.or_eq_true, beq_iff_eq] at h h'
    rcases h with (rfl | rfl) | rfl <;> rcases h' with (rfl | rfl) | rfl <;> decide

end ProtoState

open ProtoState (OncePerProto oncePerProto_isFirst oncePerProto_isRequest)

namespace ConnState

def AcceptedAt (q : ProtoState → Bool) (n : NodePtr) (c : ConnState) : Prop :=
  c.fwdMode = .accepted ∧ q c.protoState = true ∧ c.pktLocation = n

instance (q : ProtoState → Bool) (n : NodePtr) (c : ConnState) : Decidable (c.AcceptedAt q n) :=
  inferInstanceAs (Decidable (_ ∧ _ ∧ _))

def Passed (q : ProtoState → Bool) (c : ConnState) : Prop :=
  ∃ ps, q ps = true ∧ ps < c.protoState ∧ ps.toProto = c.protoState.toProto

variable {q : ProtoState → Bool} {n : NodePtr} {c c' : ConnState}

theorem Passed.onwards (h : c.Passed q) (h' : Onwards c c') : c'.Passed q := by
  obtain ⟨ps, hps, hlt, hproto⟩ := h
  exact ⟨ps, hps, hlt.trans_le h'.1, hproto.trans h'.2.symm⟩

theorem Passed.eq_false (h : c.Passed q) (hq : OncePerProto q) : q c.protoState = false := by
  obtain ⟨ps, hps, hlt, hproto⟩ := h
  rw [Bool.eq_false_iff]
  exact fun hc => hlt.ne (hq.single ps c.protoState hps hc hproto)

end ConnState

/-- The policies that count, with the states in which an accepted packet is counted and the target
nodes. -/
inductive Policy.Tallies : Policy → (ProtoState → Bool) → List NodePtr → Prop
  | loadBalance (T : List NodePtr) (exceeds : ReachCounts → Bool) :
      Tallies (.loadBalance T exceeds) ProtoState.isFirst T
  | oneRequest (T : List NodePtr) : Tallies (.oneRequest T) ProtoState.isRequest T

theorem Policy.Tallies.oncePerProto {pol : Policy} {q : ProtoState → Bool} {T : List NodePtr}
    (h : pol.Tallies q T) : OncePerProto q := by
  cases h
  · exact oncePerProto_isFirst
  · exact oncePerProto_isRequest

namespace Model

variable {P : Plankton} {pol : Policy} {q : ProtoState → Bool} {T : List NodePtr} {n : NodePtr}
  {m m' : Model}

theorem count_countReach (b : Bool) :
    (m.countReach b (m.cur.rxNode :: m.reachCounts)).reachCounts.count (some n) =
      m.reachCounts.count (some n) + if m.cur.rxNode = some n then 1 else 0 := by
  rw [countReach_eq_judge, judge_reachCounts, List.count_cons]
  simp only [beq_iff_eq]

theorem checkPolicy_counts (hpol : pol.Tallies q T) (h : m.checkPolicy pol = some m')
    (hn : n ∈ T) : m'.reachCounts.count (some n) = m.reachCounts.count (some n) +
      if m.cur.fwdMode = .accepted ∧ q m.cur.protoState = true ∧ m.cur.rxNode = some n then 1
      else 0 := by
  cases hpol with
  | loadBalance T exceeds =>
    obtain rfl := Option.some.inj h
    unfold checkLoadBalance
    by_cases hcounted : m.cur.fwdMode = .accepted ∧ m.cur.protoState.isFirst = true
    · rw [if_pos (by simpa using hcounted), count_countReach]
      simp [hcounted]
    · rw [if_neg (by simpa using hcounted), if_neg fun h => hcounted ⟨h.1, h.2.1⟩]
      rfl
  | oneRequest T =>
    obtain rfl := Option.some.inj h
    unfold checkOneRequest
    by_cases hcounted : m.cur.fwdMode = .accepted ∧ m.cur.protoState.isRequest = true
    · by_cases htarget : m.rxIsTarget T = true
      · rw [if_pos (by simpa [htarget] using hcounted), count_countReach]
        simp [hcounted]
      · have hother : m.cur.rxNode ≠ some n := by
          intro hrx
          simp [rxIsTarget, hrx, hn] at htarget
        rw [if_neg (by simp [htarget])]
        simp [hother]
    · rw [if_neg (by simp only [Bool.and_eq_true, beq_iff_eq]; tauto),
        if_neg fun h => hcounted ⟨h.1, h.2.1⟩]
      rfl

theorem accepted_once (hq : OncePerProto q) (h : m.accepted P = some m')
    (hps : q m.cur.protoState = true) :
    ((P.network.node m.cur.pktLocation).isEmulated = true ∧
        m' = m.setCur { m.cur with executable := 0 }) ∨
      (P.network.node m.cur.pktLocation).isEmulated = false ∧ m'.cur.fwdMode = .firstCollect ∧
        m'.cur.protoState = m.cur.protoState + 1 := by
  have hphase : m.phaseTransition P (m.cur.protoState + 1) true = some m' := by
    unfold accepted at h
    rcases hq.state _ hps with heq | heq | heq | heq
    all_goals
      rw [heq] at h ⊢
      exact h
  rcases phaseTransition_cases hphase with ⟨hemu, rfl⟩ | ⟨c, seq, ack, payload, rfl, hc⟩
  · exact .inl ⟨hemu, rfl⟩
  · rw [cur_setCur]
    rcases hc with ⟨-, hemu, -⟩ | ⟨hfalse, -⟩
    · exact .inr ⟨hemu, rfl, rfl⟩
    · simp at hfalse

inductive Outcome (P : Plankton) (q : ProtoState → Bool) (m m' : Model) : Prop
  /-- No packet of such a state is accepted. -/
  | uncounted : ¬ (m'.cur.fwdMode = .accepted ∧ q m'.cur.protoState = true) →
      (m.processId = .forwarding → q m.cur.protoState = true → ¬ m.Delivers ∧
        (m.cur.fwdMode = .accepted → (P.network.node m.cur.pktLocation).isEmulated = false ∧
          m'.conn = m.conn ∧ m'.cur.protoState = m.cur.protoState + 1)) → Outcome P q m m'
  /-- One is delivered. -/
  | delivered : m.processId = .forwarding → m'.processId = .forwarding → m'.conn = m.conn →
      q m.cur.protoState = true → m.Delivers → Delivered m.cur m'.cur → Outcome P q m m'
  /-- One stays accepted, by a middlebox. -/
  | frozen : m.processId = .forwarding → m'.conn = m.conn → q m.cur.protoState = true →
      m.cur.fwdMode = .accepted → (P.network.node m.cur.pktLocation).isEmulated = true →
        m'.cur = { m.cur with executable := 0 } → Outcome P q m m'

end Model

namespace Plankton

open Model ConnState

variable {P : Plankton} {q : ProtoState → Bool} {n : NodePtr} {m m' : Model}
  {results : List InjectionResult}

theorem control_turn (hq : OncePerProto q) (h : P.control results m = some m')
    (hp : m.processId = .forwarding) (hmode : m.cur.fwdMode = .accepted)
    (hps : q m.cur.protoState = true) :
    ((P.network.node m.cur.pktLocation).isEmulated = true ∧
        m'.cur = { m.cur with executable := 0 }) ∨
      (P.network.node m.cur.pktLocation).isEmulated = false ∧ m'.cur.fwdMode = .firstCollect ∧
        m'.cur.protoState = m.cur.protoState + 1 := by
  obtain ⟨m₁, hswitch, hrest⟩ := control_cases h
  obtain ⟨p, k, rfl⟩ := checkToSwitchProcess_eq hswitch
  rcases hrest with ⟨hp', -⟩ | ⟨-, h₁⟩ | ⟨hp', -⟩
  · simp [hp] at hp'
  · unfold execForwarding at h₁
    rw [hmode] at h₁
    rcases accepted_once hq h₁ hps with ⟨hemu, rfl⟩ | hnext
    · exact .inl ⟨hemu, if_pos rfl⟩
    · exact .inr hnext
  · simp [hp] at hp'

theorem control_delivers (h : P.control results m = some m') (hp : m.processId = .forwarding)
    (hdelivers : m.Delivers) : Delivered m.cur m'.cur := by
  obtain ⟨m₁, hswitch, hrest⟩ := control_cases h
  obtain ⟨p, k, rfl⟩ := checkToSwitchProcess_eq hswitch
  rcases hrest with ⟨hp', -⟩ | ⟨-, h₁⟩ | ⟨hp', -⟩
  · simp [hp] at hp'
  · rcases execForwarding_delivers h₁ hdelivers.1 with ⟨-, hdelivered⟩ | ⟨hnot, -⟩
    · exact hdelivered
    · exact absurd hdelivers hnot
  · simp [hp] at hp'

theorem control_reachCounts (h : P.control results m = some m') :
    m'.reachCounts = m.reachCounts := by
  have hsets : ∀ {m₁ m₂ : Model}, SetsCur m₁ m₂ → m₂.reachCounts = m₁.reachCounts := by
    rintro m₁ _ ⟨c, k, rfl⟩
    rfl
  obtain ⟨m₁, hswitch, hrest⟩ := control_cases h
  obtain ⟨p, k, rfl⟩ := checkToSwitchProcess_eq hswitch
  show m₁.reachCounts = m.reachCounts
  rcases hrest with ⟨-, h₁⟩ | ⟨-, h₁⟩ | ⟨-, h₁⟩
  · obtain ⟨i, c, k, rfl⟩ := execChooseConn_eq h₁
    rfl
  · by_cases hmode : m.cur.fwdMode = .chooseInjRes
    · unfold execForwarding at h₁
      rw [hmode] at h₁
      apply chooseInjectionResults_invariant (fun m₂ => m₂.reachCounts = m.reachCounts) h₁ rfl
      · intro st st' pkt hreceive _ hst
        rcases receivePacket_filed hreceive with ⟨-, rfl⟩ | ⟨pkt', c', k, -, rfl, -⟩
        · exact hst
        · exact hst
      · intro m₂ explicitDrop cu ou _ hm₂ hsettle
        exact (hsets (settleCurrent_setsCur hsettle)).trans hm₂
    · exact hsets (execForwarding_setsCur h₁ hmode)
  · rcases execOpenflow_cases h₁ with ⟨-, rfl⟩ | ⟨-, rfl⟩ | ⟨_, _, _, _, _, -, -, -, -, -, rfl⟩
    · rfl
    · rfl
    · rfl

theorem control_outcome (hq : OncePerProto q) (h : P.control results m = some m') (hm : m.AtRest) :
    Outcome P q m m' := by
  by_cases hcounted : m'.cur.fwdMode = .accepted ∧ q m'.cur.protoState = true
  · obtain ⟨hmode, hps⟩ := hcounted
    have hslot : (m'.connState m'.conn).fwdMode = .accepted := hmode
    rcases control_accepted h hm hslot with ⟨hne, -⟩ |
      ⟨hp, hconn, -, ⟨hdelivers, hdelivered, hp'⟩ | ⟨hbefore, hcur⟩⟩
    · exact absurd rfl hne
    · rw [hdelivered.protoState] at hps
      exact .delivered hp hp' hconn.symm hps hdelivers hdelivered
    · rw [hcur] at hps
      rcases control_turn hq h hp hbefore hps with ⟨hemu, -⟩ | ⟨-, hnext, -⟩
      · exact .frozen hp hconn.symm hps hbefore hemu hcur
      · simp [hmode] at hnext
  · refine .uncounted hcounted fun hp hps => ⟨fun hdelivers => ?_, fun hmode => ?_⟩
    · have hdelivered := control_delivers h hp hdelivers
      exact hcounted ⟨hdelivered.fwdMode, by rwa [hdelivered.protoState]⟩
    · rcases control_turn hq h hp hmode hps with ⟨-, hcur⟩ | ⟨hemu, -, hnext⟩
      · exact absurd (by rw [hcur]; exact ⟨hmode, hps⟩) hcounted
      · exact ⟨hemu, control_conn h hp, hnext⟩

end Plankton

section Tally

variable {P : Plankton} {pol : Policy} {q : ProtoState → Bool} {T : List NodePtr} {n : NodePtr}
  {conns : List Connection} {tr : List (Link Model Label)} {m m₁ m' s t : Model} {l : Label}

def WasAccepted (q : ProtoState → Bool) (n : NodePtr) (tr : List (Link Model Label)) (i : Nat) :
    Prop := ∃ l ∈ tr, (l.after.connState i).AcceptedAt q n

instance (q : ProtoState → Bool) (n : NodePtr) (tr : List (Link Model Label)) (i : Nat) :
    Decidable (WasAccepted q n tr i) := inferInstanceAs (Decidable (∃ _ ∈ _, _))

def acceptedConns (q : ProtoState → Bool) (n : NodePtr) (tr : List (Link Model Label))
    (m : Model) : Finset Nat := (Finset.range m.numConns).filter (WasAccepted q n tr)

/-- After each step of a run the count of a node is the number of the connections of which a packet
was accepted there. -/
def CountedOnce (q : ProtoState → Bool) (n : NodePtr) (tr : List (Link Model Label)) : Prop :=
  ∀ tr₁ l tr₂, tr = tr₁ ++ l :: tr₂ →
    l.after.reachCounts.count (some n) = (acceptedConns q n (tr₁ ++ [l]) l.after).card

/-- The forwarding process goes on with a packet that a middlebox has accepted at the node, or a
request is delivered, and exactly one of where it is and where the first packet was received is the
node. -/
def Miscounts (P : Plankton) (q : ProtoState → Bool) (n : NodePtr) (m : Model) : Prop :=
  m.processId = .forwarding ∧ q m.cur.protoState = true ∧
    (m.cur.fwdMode = .accepted ∧ m.cur.pktLocation = n ∧ (P.network.node n).isEmulated = true ∨
      m.Delivers ∧ m.cur.protoState.isFirst = false ∧
        ¬ (m.cur.rxNode = some n ↔ m.cur.pktLocation = n))

instance (P : Plankton) (q : ProtoState → Bool) (n : NodePtr) (m : Model) :
    Decidable (Miscounts P q n m) := inferInstanceAs (Decidable (_ ∧ _ ∧ (_ ∨ _)))

/-- The count is right so far: what is accepted now is known, and what was accepted is past its
state, or the forwarding process is about to take it on. -/
structure Tallied (q : ProtoState → Bool) (n : NodePtr) (tr : List (Link Model Label)) (m : Model) :
    Prop where
  conn : m.conn < m.numConns
  atRest : m.AtRest
  counts : m.reachCounts.count (some n) = (acceptedConns q n tr m).card
  known : ∀ i, (m.connState i).AcceptedAt q n → WasAccepted q n tr i
  past : ∀ i, WasAccepted q n tr i → i < m.numConns ∧ ((m.connState i).Passed q ∨
    m.processId = .forwarding ∧ m.conn = i ∧ m.cur.AcceptedAt q n)
  receiver : m.processId = .forwarding → m.cur.fwdMode = .accepted →
    q m.cur.protoState = true → (m.cur.rxNode = some n ↔ m.cur.pktLocation = n)

theorem wasAccepted_append {k : Link Model Label} {i : Nat} :
    WasAccepted q n (tr ++ [k]) i ↔
      WasAccepted q n tr i ∨ (k.after.connState i).AcceptedAt q n := by
  simp [WasAccepted, or_and_right, exists_or]

theorem mem_acceptedConns {i : Nat} :
    i ∈ acceptedConns q n tr m ↔ i < m.numConns ∧ WasAccepted q n tr i := by
  rw [acceptedConns, Finset.mem_filter, Finset.mem_range]

open Model ConnState Plankton

theorem Tallied.setChoice (h : Tallied q n tr m) (choice : Nat) :
    Tallied q n tr (m.setChoice choice) :=
  ⟨h.conn, ⟨h.atRest.installing, h.atRest.executable, h.atRest.accepted⟩, h.counts, h.known,
    h.past, h.receiver⟩

theorem judge_acceptedAt {v : Verdict} {i : Nat} :
    ((m₁.judge v).connState i).AcceptedAt q n ↔ (m₁.connState i).AcceptedAt q n := by
  rw [judge_connState]
  split_ifs with hi
  · rw [hi]
    rfl
  · rfl

theorem Tallied.of_other {results : List InjectionResult} (h : Tallied q n tr m)
    (hcontrol : P.control results m = some m₁) {i : Nat} (hi : i ≠ m₁.conn)
    (haccepted : (m₁.connState i).AcceptedAt q n) : WasAccepted q n tr i := by
  rcases control_accepted hcontrol h.atRest haccepted.1 with ⟨-, hsame⟩ | ⟨-, -, hset, -⟩
  · exact h.known i (hsame ▸ haccepted)
  · exact absurd hset.symm hi

theorem mem_acceptedConns_step {results : List InjectionResult} {k : Link Model Label}
    {v : Verdict} (h : Tallied q n tr m) (hcontrol : P.control results m = some m₁)
    (hk : k.after = m₁.judge v) {i : Nat} :
    i ∈ acceptedConns q n (tr ++ [k]) k.after ↔
      i ∈ acceptedConns q n tr m ∨ i = m₁.conn ∧ m₁.cur.AcceptedAt q n := by
  have hprogress := control_progresses hcontrol h.conn
  rw [mem_acceptedConns, mem_acceptedConns, wasAccepted_append, hk, judge_acceptedAt,
    judge_numConns]
  constructor
  · rintro ⟨hlt, hwas | haccepted⟩
    · exact .inl ⟨(h.past i hwas).1, hwas⟩
    · by_cases hi : i = m₁.conn
      · subst hi
        exact .inr ⟨rfl, haccepted⟩
      · have hwas := h.of_other hcontrol hi haccepted
        exact .inl ⟨(h.past i hwas).1, hwas⟩
  · rintro (⟨hlt, hwas⟩ | ⟨rfl, haccepted⟩)
    · exact ⟨hlt.trans_le hprogress.numConns, .inl hwas⟩
    · exact ⟨hprogress.conn, .inr haccepted⟩

theorem card_acceptedConns_step {results : List InjectionResult} {k : Link Model Label}
    {v : Verdict} (h : Tallied q n tr m) (hcontrol : P.control results m = some m₁)
    (hk : k.after = m₁.judge v) :
    (acceptedConns q n (tr ++ [k]) k.after).card = (acceptedConns q n tr m).card +
      if m₁.cur.AcceptedAt q n ∧ m₁.conn ∉ acceptedConns q n tr m then 1 else 0 := by
  split_ifs with hnew
  · have hinsert : acceptedConns q n (tr ++ [k]) k.after =
        insert m₁.conn (acceptedConns q n tr m) := by
      ext i
      rw [mem_acceptedConns_step h hcontrol hk, Finset.mem_insert]
      have haccepted := hnew.1
      tauto
    rw [hinsert, Finset.card_insert_of_notMem hnew.2]
  · have hsame : acceptedConns q n (tr ++ [k]) k.after = acceptedConns q n tr m := by
      ext i
      rw [mem_acceptedConns_step h hcontrol hk]
      constructor
      · rintro (hi | ⟨rfl, haccepted⟩)
        · exact hi
        · exact not_not.mp fun hnot => hnew ⟨haccepted, hnot⟩
      · exact .inl
    rw [hsame, Nat.add_zero]

theorem counts_step_iff {results : List InjectionResult} {k : Link Model Label} {v : Verdict}
    (hpol : pol.Tallies q T) (hn : n ∈ T) (h : Tallied q n tr m)
    (hcontrol : P.control results m = some m₁) (hcheck : m₁.checkPolicy pol = some k.after)
    (hk : k.after = m₁.judge v) :
    k.after.reachCounts.count (some n) = (acceptedConns q n (tr ++ [k]) k.after).card ↔
      ((m₁.cur.fwdMode = .accepted ∧ q m₁.cur.protoState = true ∧ m₁.cur.rxNode = some n) ↔
        m₁.cur.AcceptedAt q n ∧ m₁.conn ∉ acceptedConns q n tr m) := by
  rw [checkPolicy_counts hpol hcheck hn, control_reachCounts hcontrol, h.counts,
    card_acceptedConns_step h hcontrol hk, Nat.add_left_cancel_iff]
  split_ifs with hcount hnew hnew
  · exact iff_of_true rfl (iff_of_true hcount hnew)
  · exact iff_of_false (by decide) fun heq => hnew (heq.mp hcount)
  · exact iff_of_false (by decide) fun heq => hcount (heq.mpr hnew)
  · exact iff_of_true rfl (iff_of_false hcount hnew)

theorem counts_iff_not_miscounts {results : List InjectionResult} (hq : OncePerProto q)
    (h : Tallied q n tr m) (hcontrol : P.control results m = some m₁) :
    ((m₁.cur.fwdMode = .accepted ∧ q m₁.cur.protoState = true ∧ m₁.cur.rxNode = some n) ↔
      m₁.cur.AcceptedAt q n ∧ m₁.conn ∉ acceptedConns q n tr m) ↔ ¬ Miscounts P q n m := by
  rcases control_outcome hq hcontrol h.atRest with ⟨hnot, hrest⟩ |
    ⟨hp, -, hconn, hps, hdelivers, hdelivered⟩ | ⟨hp, hconn, hps, hmode, hemu, hcur⟩
  · -- neither changes, and a connection that is accepted at a middlebox would still be so
    refine iff_of_true (iff_of_false ?_ ?_) ?_
    · exact fun hcounted => hnot ⟨hcounted.1, hcounted.2.1⟩
    · exact fun haccepted => hnot ⟨haccepted.1.1, haccepted.1.2.1⟩
    · rintro ⟨hp, hps, ⟨hmode, rfl, hemu⟩ | ⟨hdelivers, -⟩⟩
      · exact absurd (((hrest hp hps).2 hmode).1.symm.trans hemu) Bool.false_ne_true
      · exact (hrest hp hps).1 hdelivers
  · have hforward : m.cur.fwdMode ≠ .accepted := by
      rcases hdelivers.1 with hmode | hmode <;> simp [hmode]
    -- a connection whose packet is delivered was not accepted before
    have hfresh : m₁.conn ∉ acceptedConns q n tr m := by
      rw [mem_acceptedConns, hconn]
      rintro ⟨-, hwas⟩
      rcases (h.past m.conn hwas).2 with hpassed | ⟨-, -, haccepted⟩
      · have hfalse : q m.cur.protoState = false := hpassed.eq_false hq
        exact absurd (hfalse.symm.trans hps) Bool.false_ne_true
      · exact hforward haccepted.1
    have hmis : Miscounts P q n m ↔ m.cur.protoState.isFirst = false ∧
        ¬ (m.cur.rxNode = some n ↔ m.cur.pktLocation = n) := by
      constructor
      · rintro ⟨-, -, ⟨hmode, -⟩ | ⟨-, hwhere⟩⟩
        · exact absurd hmode hforward
        · exact hwhere
      · exact fun hwhere => ⟨hp, hps, .inr ⟨hdelivers, hwhere⟩⟩
    rw [hmis, AcceptedAt, hdelivered.fwdMode, hdelivered.protoState, hdelivered.pktLocation,
      hdelivered.rxNode, hps]
    cases hfirst : m.cur.protoState.isFirst <;> simp [hfresh]
  · have hreceiver := h.receiver hp hmode hps
    rw [AcceptedAt, hcur]
    by_cases hloc : m.cur.pktLocation = n
    · -- it is counted once more, but was accepted there already
      have hknown : m₁.conn ∈ acceptedConns q n tr m := by
        rw [hconn]
        exact mem_acceptedConns.mpr ⟨h.conn, h.known m.conn ⟨hmode, hps, hloc⟩⟩
      refine iff_of_false (fun hsame => ?_) (not_not.mpr ⟨hp, hps, .inl ⟨hmode, hloc, hloc ▸ hemu⟩⟩)
      exact (hsame.mp ⟨hmode, hps, hreceiver.mpr hloc⟩).2 hknown
    · refine iff_of_true (iff_of_false ?_ ?_) ?_
      · exact fun hcounted => hloc (hreceiver.mp hcounted.2.2)
      · exact fun haccepted => hloc haccepted.1.2.2
      · rintro ⟨-, -, ⟨-, hloc', -⟩ | ⟨⟨hforward, -⟩, -⟩⟩
        · exact hloc hloc'
        · rcases hforward with h' | h' <;> simp [hmode] at h'

theorem Tallied.past_step {results : List InjectionResult} (hq : OncePerProto q)
    (h : Tallied q n tr m) (hcontrol : P.control results m = some m₁)
    (hnot : ¬ Miscounts P q n m) {i : Nat} (hi : WasAccepted q n tr i) :
    i < m₁.numConns ∧ (m₁.connState i).Passed q := by
  obtain ⟨hlt, hpast⟩ := h.past i hi
  have hkept := control_kept preserved_onwards hcontrol
  have honwards := hkept.slot i hlt
  refine ⟨hlt.trans_le hkept.numConns, ?_⟩
  rcases hpast with hpassed | ⟨hp, rfl, hmode, hps, hloc⟩
  · exact hpassed.onwards honwards
  · rcases control_outcome hq hcontrol h.atRest with ⟨-, hrest⟩ |
      ⟨-, -, -, -, hdelivers, -⟩ | ⟨-, -, -, -, hemu, -⟩
    · -- the forwarding process takes the connection to the next state
      obtain ⟨-, hconn, hnext⟩ := (hrest hp hps).2 hmode
      have hslot : m₁.connState m.conn = m₁.cur := congrArg m₁.connState hconn.symm
      rw [hslot] at honwards ⊢
      exact ⟨_, hps, hnext.symm ▸ Nat.lt_succ_self _, honwards.2.symm⟩
    · rcases hdelivers.1 with h' | h' <;> simp [hmode] at h'
    · exact absurd ⟨hp, hps, .inl ⟨hmode, hloc, hloc ▸ hemu⟩⟩ hnot

theorem Tallied.step {results : List InjectionResult} {k : Link Model Label} {v : Verdict}
    (hq : OncePerProto q) (h : Tallied q n tr m) (hcontrol : P.control results m = some m₁)
    (hfits : v.Fits m₁) (hk : k.after = m₁.judge v) (hnot : ¬ Miscounts P q n m)
    (hcounts : k.after.reachCounts.count (some n) =
      (acceptedConns q n (tr ++ [k]) k.after).card) : Tallied q n (tr ++ [k]) k.after := by
  have hprogress := control_progresses hcontrol h.conn
  have hatRest := control_atRest hcontrol h.atRest
  have hpassed : ∀ {i}, (m₁.connState i).Passed q → ((m₁.judge v).connState i).Passed q := by
    intro i hpassed
    rw [judge_connState]
    split_ifs with hi
    · rw [hi] at hpassed
      exact hpassed
    · exact hpassed
  refine ⟨?_, ?_, hcounts, fun i hi => ?_, fun i hi => ?_, ?_⟩
  · rw [hk]
    exact hprogress.conn
  · rw [hk]
    exact hatRest.judge hfits
  · exact wasAccepted_append.mpr (.inr hi)
  · rw [hk]
    have hold : WasAccepted q n tr i → i < m₁.numConns ∧ ((m₁.judge v).connState i).Passed q :=
      fun hwas => (h.past_step hq hcontrol hnot hwas).imp_right hpassed
    rcases wasAccepted_append.mp hi with hwas | haccepted
    · exact (hold hwas).imp_right .inl
    · rw [hk, judge_acceptedAt] at haccepted
      by_cases hset : i = m₁.conn
      · subst hset
        have hcur : m₁.cur.AcceptedAt q n := haccepted
        rcases control_outcome hq hcontrol h.atRest with ⟨hnone, -⟩ |
          ⟨-, hp, -, -, -, -⟩ | ⟨hp, -, hps, hmode, hemu, hsame⟩
        · exact absurd ⟨hcur.1, hcur.2.1⟩ hnone
        · exact ⟨hprogress.conn, .inr ⟨hp, rfl, judge_acceptedAt.mpr haccepted⟩⟩
        · rw [hsame] at hcur
          exact absurd ⟨hp, hps, .inl ⟨hmode, hcur.2.2, hcur.2.2 ▸ hemu⟩⟩ hnot
      · exact (hold (h.of_other hcontrol hset haccepted)).imp_right .inl
  · rw [hk, judge_cur]
    intro hp hmode hps
    rcases control_outcome hq hcontrol h.atRest with ⟨hnone, -⟩ |
      ⟨hp, -, -, hps', hdelivers, hdelivered⟩ | ⟨hp, -, hps, hmode, -, hsame⟩
    · exact absurd ⟨hmode, hps⟩ hnone
    · show m₁.cur.rxNode = some n ↔ m₁.cur.pktLocation = n
      rw [hdelivered.rxNode, hdelivered.pktLocation]
      -- the first packet sets the receiver; a later one is received there, or is miscounted
      by_cases hfirst : m.cur.protoState.isFirst = true
      · rw [if_pos hfirst, Option.some.injEq]
      · rw [if_neg hfirst]
        by_contra hwhere
        exact hnot ⟨hp, hps', .inr ⟨hdelivers, by simpa using hfirst, hwhere⟩⟩
    · show m₁.cur.rxNode = some n ↔ m₁.cur.pktLocation = n
      rw [hsame]
      exact h.receiver hp hmode hps

theorem initModel_reachCounts (hpol : pol.Tallies q T)
    (hs : P.initModel (.single ⟨pol, conns⟩) = some s) : s.reachCounts = [] := by
  obtain ⟨m₁, h₁, rfl⟩ := Option.map_eq_some_iff.mp hs
  obtain ⟨m₂, -, hinit⟩ := Option.bind_eq_some_iff.mp
    (h₁ : CheckedInvariant.init ⟨pol, conns⟩ P (P.initOpenflow .zero) = some m₁)
  cases hpol
  · obtain rfl := Option.some.inj hinit
    rfl
  · obtain rfl := Option.some.inj hinit
    rfl

theorem initModel_tallied {conn : Connection} (hpol : pol.Tallies q T)
    (hs : P.initModel (.single ⟨pol, conn :: conns⟩) = some s) : Tallied q n [] s := by
  have hmode := initModel_fwdMode hs
  obtain ⟨-, -, m₀, -, hstarts⟩ := initModel_single hs
  refine ⟨?_, initModel_atRest hs, ?_, fun i hi => ?_, fun i hi => ?_, fun _ hcur => ?_⟩
  · rw [hstarts.conn, hstarts.numConns]
    exact Nat.succ_pos _
  · rw [initModel_reachCounts hpol hs, List.count_nil, eq_comm, Finset.card_eq_zero]
    ext i
    simp [mem_acceptedConns, WasAccepted]
  · exact absurd ((hmode i).symm.trans hi.1) (by decide)
  · simp [WasAccepted] at hi
  · exact absurd ((hmode s.conn).symm.trans hcur) (by decide)

theorem noConns_control {results : List InjectionResult} (hp : m.processId = .forwarding)
    (hcur : m.cur = .zero) (hnum : m.numConns = 0) (h : P.control results m = some m₁) :
    m₁.choiceCount = 0 ∧ m₁.numConns = 0 ∧ m₁.cur.fwdMode = .firstForward := by
  obtain ⟨m₂, hswitch, hrest⟩ := control_cases h
  have hm₂ : m₂.cur.executable = 0 ∧ m₂.cur.fwdMode = .firstForward ∧ m₂.numConns = 0 := by
    rcases hrest with ⟨hp', -⟩ | ⟨-, h₂⟩ | ⟨hp', -⟩
    · exact absurd (hp.symm.trans hp') (by decide)
    · unfold execForwarding at h₂
      rw [hcur] at h₂
      obtain ⟨m₃, h₃, rfl⟩ := firstCollect_cases h₂
      rcases collectNextHops_cases h₃ with ⟨-, hinject⟩ | ⟨-, hfib, -⟩ | ⟨-, _, hfib, -⟩
      · obtain ⟨-, rfl⟩ := injectPacket_cases hinject
        rw [cur_setCur, cur_setChoiceCount, cur_setCur, hcur]
        exact ⟨rfl, rfl, hnum⟩
      · rw [hcur] at hfib
        exact absurd hfib (by simp [ConnState.zero])
      · rw [hcur] at hfib
        exact absurd hfib (by simp [ConnState.zero])
    · exact absurd (hp.symm.trans hp') (by decide)
  obtain ⟨hexec, hmode, hnum₂⟩ := hm₂
  rcases checkToSwitchProcess_cases hswitch with ⟨-, rfl⟩ | ⟨htwo, -⟩
  · have hend : (m₂.setProcessId .chooseConn).updateChoiceCount =
        (m₂.setProcessId .chooseConn).setChoiceCount 0 := by
      simp [updateChoiceCount, connMap, hnum₂]
    rw [hend]
    exact ⟨rfl, hnum₂, hmode⟩
  · exact absurd (hexec.symm.trans htwo) (by decide)

theorem noConns_step (hpol : pol.Tallies q T) (hn : n ∈ T)
    (hs : P.initModel (.single ⟨pol, []⟩) = some s)
    (h : P.step (.single ⟨pol, []⟩) s l = some m') :
    m'.choiceCount = 0 ∧ m'.numConns = 0 ∧ m'.reachCounts.count (some n) = 0 := by
  obtain ⟨hp, -, m₀, hzero, hstarts⟩ := initModel_single hs
  obtain ⟨-, m₁, hcontrol, hcheck⟩ := step_single h
  have hcur : s.cur = .zero := (hstarts.rest s.conn (Nat.zero_le _)).trans (hzero _)
  obtain ⟨hend, hnum, hmode⟩ :=
    noConns_control (m := s.setChoice l.choice) hp hcur hstarts.numConns hcontrol
  have hcount := checkPolicy_counts hpol hcheck hn
  have hinit : s.reachCounts = [] := initModel_reachCounts hpol hs
  have hnone := (control_reachCounts hcontrol).trans hinit
  obtain ⟨v, hv, -⟩ := checkPolicy_judges hcheck
  obtain rfl := Option.some.inj (hcheck.symm.trans hv.checkPolicy)
  refine ⟨?_, hnum, ?_⟩
  · rw [judge_choiceCount, hend]
    split_ifs <;> rfl
  · rw [hcount, hnone, if_neg]
    · rfl
    · rintro ⟨haccepted, -⟩
      exact absurd (hmode.symm.trans haccepted) (by decide)

theorem noConns_countedOnce_iff (hpol : pol.Tallies q T) (hn : n ∈ T)
    (hs : P.initModel (.single ⟨pol, []⟩) = some s)
    (h : Run (P.step (.single ⟨pol, []⟩)) s tr t) :
    CountedOnce q n tr ↔ ∀ l ∈ tr, ¬ Miscounts P q n (l.before.setChoice l.act.choice) := by
  cases h with
  | nil => simp [CountedOnce]
  | @cons _ s' _ a tr hstep hrest =>
    obtain ⟨hcount, hnum, hreach⟩ := noConns_step hpol hn hs hstep
    obtain ⟨rfl, -⟩ := run_of_choiceCount hrest hcount
    refine iff_of_true ?_ ?_
    · intro tr₁ l tr₂ htr
      obtain ⟨rfl, rfl, rfl⟩ : tr₁ = [] ∧ l = ⟨s, a, s'⟩ ∧ tr₂ = [] := by
        simpa [eq_comm] using List.singleton_eq_append_iff.mp htr
      rw [hreach, eq_comm, Finset.card_eq_zero]
      ext i
      simp [mem_acceptedConns, hnum]
    · intro l hl
      obtain rfl := List.mem_singleton.mp hl
      have hmode := initModel_fwdMode hs s.conn
      rintro ⟨-, -, ⟨haccepted, -⟩ | ⟨⟨hforward, -⟩, -⟩⟩
      · exact absurd (hmode.symm.trans haccepted) (by decide)
      · rcases hforward with h' | h'
        · exact absurd (hmode.symm.trans h') (by decide)
        · exact absurd (hmode.symm.trans h') (by decide)

theorem Tallied.step_iff {conn : Connection} {k : Link Model Label} (hpol : pol.Tallies q T)
    (hn : n ∈ T) (h : Tallied q n tr k.before)
    (hstep : P.step (.single ⟨pol, conn :: conns⟩) k.before k.act = some k.after) :
    (k.after.reachCounts.count (some n) = (acceptedConns q n (tr ++ [k]) k.after).card ↔
        ¬ Miscounts P q n (k.before.setChoice k.act.choice)) ∧
      (¬ Miscounts P q n (k.before.setChoice k.act.choice) → Tallied q n (tr ++ [k]) k.after) := by
  obtain ⟨-, m₁, hcontrol, hcheck⟩ := step_single hstep
  obtain ⟨v, hv, hfits⟩ := checkPolicy_judges hcheck
  have hk : k.after = m₁.judge v := Option.some.inj (hcheck.symm.trans hv.checkPolicy)
  have hq := hpol.oncePerProto
  have h' := h.setChoice k.act.choice
  have hiff := (counts_step_iff hpol hn h' hcontrol hcheck hk).trans
    (counts_iff_not_miscounts hq h' hcontrol)
  exact ⟨hiff, fun hnot => h'.step hq hcontrol hfits hk hnot (hiff.mpr hnot)⟩

/-- The count of a node is always right if and only if no step miscounts. -/
theorem countedOnce_iff (hpol : pol.Tallies q T) (hn : n ∈ T)
    (hs : P.initModel (.single ⟨pol, conns⟩) = some s)
    (h : Run (P.step (.single ⟨pol, conns⟩)) s tr t) :
    CountedOnce q n tr ↔ ∀ l ∈ tr, ¬ Miscounts P q n (l.before.setChoice l.act.choice) := by
  cases conns with
  | nil => exact noConns_countedOnce_iff hpol hn hs h
  | cons conn conns =>
    have hall := h.forall_prefix_iff
      (D := fun g m => m.reachCounts.count (some n) = (acceptedConns q n g m).card)
      (fun g l hl hg => (Tallied.step_iff hpol hn hg hl).1)
      (fun g l hl hg => (Tallied.step_iff hpol hn hg hl).2) (initModel_tallied hpol hs)
    simpa [CountedOnce] using hall

end Tally

namespace LoadBalance

open Plankton
open Waypoint (sitePlankton siteConn)

def invariants (targetNodes : List NodePtr) (conns : List Connection) : Invariants :=
  .single ⟨.loadBalance targetNodes fun _ => false, conns⟩

theorem countedOnce_delivered : ∃ s t tr,
    sitePlankton.initModel (invariants [1] [siteConn .udp]) = some s ∧
      Run (sitePlankton.step (invariants [1] [siteConn .udp])) s tr t ∧
        t.reachCounts = [some 1] ∧ CountedOnce ProtoState.isFirst 1 tr := by
  have hrun : ((sitePlankton.initModel (invariants [1] [siteConn .udp])).bind fun s =>
      (execute (sitePlankton.step (invariants [1] [siteConn .udp])) s
        (List.replicate 6 go)).map fun r => (r.2.reachCounts, decide (∀ l ∈ r.1,
          ¬ Miscounts sitePlankton ProtoState.isFirst 1 (l.before.setChoice l.act.choice)))) =
      some ([some 1], true) := by
    decide +kernel
  obtain ⟨s, hs, hrun⟩ := Option.bind_eq_some_iff.mp hrun
  obtain ⟨⟨tr, t⟩, hexec, hr⟩ := Option.map_eq_some_iff.mp hrun
  obtain ⟨hcounts, hnone⟩ := Prod.mk.inj hr
  exact ⟨s, t, tr, hs, run_of_execute hexec, hcounts,
    (countedOnce_iff (.loadBalance [1] _) (List.mem_singleton.mpr rfl) hs
      (run_of_execute hexec)).mpr (of_decide_eq_true hnone)⟩

/-- The datagram is assumed to be delivered at the middlebox, and is counted when it is accepted and
when the connection is frozen. -/
theorem not_countedOnce : ¬ ∀ (P : Plankton) (pol : Policy) (q : ProtoState → Bool)
    (T : List NodePtr) (n : NodePtr) (conns : List Connection) (s t : Model)
    (tr : List (Link Model Label)), pol.Tallies q T → n ∈ T →
      P.initModel (.single ⟨pol, conns⟩) = some s → Run (P.step (.single ⟨pol, conns⟩)) s tr t →
        CountedOnce q n tr := by
  intro h
  have hrun : ((gatewayPlankton.initModel (invariants [1] [datagramConn 100])).bind fun s =>
      (execute (gatewayPlankton.step (invariants [1] [datagramConn 100])) s
        (gatewayLabels ⟨[gatewayQuery], false⟩ ++ [go, go])).bind fun r =>
          r.1.getLast?.map fun l => (l.after.reachCounts.count (some 1),
            (acceptedConns ProtoState.isFirst 1 r.1 l.after).card)) = some (2, 1) := by
    decide +kernel
  obtain ⟨s, hs, hrun⟩ := Option.bind_eq_some_iff.mp hrun
  obtain ⟨⟨tr, t⟩, hexec, hrun⟩ := Option.bind_eq_some_iff.mp hrun
  obtain ⟨l, hlast, hr⟩ := Option.map_eq_some_iff.mp hrun
  obtain ⟨htwo, hone⟩ := Prod.mk.inj hr
  have htr : tr.dropLast ++ [l] = tr := List.dropLast_append_getLast? l hlast
  have hcount := h _ _ _ [1] 1 _ s t tr (.loadBalance [1] fun _ => false)
    (List.mem_singleton.mpr rfl) hs (run_of_execute hexec) tr.dropLast l [] htr.symm
  rw [htr] at hcount
  exact absurd (htwo.symm.trans (hcount.trans hone)) (by decide)

end LoadBalance

end Neo
