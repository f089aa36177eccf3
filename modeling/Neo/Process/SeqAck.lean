import Neo.Process.Onward
import Neo.Process.Termination

/-! Sequence and acknowledgement numbers. They count what the two ends of a connection sent in
earlier phases, and a middlebox may pass a packet on only with the same numbers. -/

namespace Neo

namespace ProtoState

def fromClient (x : ProtoState) : Bool :=
  x == psTcpInit1 || x == psTcpInit3 || x == psTcpL7Req || x == psTcpL7RepA || x == psTcpTerm2

structure Precedes (x y : ProtoState) (changeDirection : Bool) : Prop where
  request : y.isRequestDir = true →
    (if changeDirection then x.isReplyDir else x.isRequestDir) = true
  reply : y.isReplyDir = true → (if changeDirection then x.isRequestDir else x.isReplyDir) = true

end ProtoState

abbrev Phases := List (ProtoState × Option Payload)

namespace Phases

def units (phase : ProtoState × Option Payload) : Nat :=
  Payload.size phase.2 + if phase.1.hasSyn || phase.1.hasFin then 1 else 0

def sentBy (client : Bool) (earlier : Phases) : Nat :=
  ((earlier.filter fun phase => phase.1.fromClient == client).map units).sum

theorem sentBy_concat (client : Bool) (earlier : Phases) (phase : ProtoState × Option Payload) :
    sentBy client (earlier ++ [phase]) =
      sentBy client earlier + if phase.1.fromClient = client then units phase else 0 := by
  unfold sentBy
  rw [List.filter_append, List.map_append, List.sum_append, List.filter_singleton]
  cases h : phase.1.fromClient == client
  · have hne : phase.1.fromClient ≠ client := by simpa using h
    simp [hne]
  · have heq : phase.1.fromClient = client := by simpa using h
    simp [heq]

def record (i : Nat) (earlier : Phases) (l : Link Model Label) : Phases :=
  let c := l.before.connState i
  let c' := l.after.connState i
  if c'.protoState.isFirst then []
  else if c'.protoState = c.protoState then earlier
  else earlier ++ [(c.protoState, c.payload)]

theorem record_of_first {i : Nat} {l : Link Model Label}
    (h : (l.after.connState i).protoState.isFirst = true) (earlier : Phases) :
    record i earlier l = [] := if_pos h

theorem record_of_same {i : Nat} {l : Link Model Label} {earlier : Phases}
    (h : (l.after.connState i).protoState = (l.before.connState i).protoState)
    (hfirst : (l.before.connState i).protoState.isFirst = true → earlier = []) :
    record i earlier l = earlier := by
  unfold record
  by_cases hf : (l.after.connState i).protoState.isFirst = true
  · rw [if_pos hf]
    rw [h] at hf
    exact (hfirst hf).symm
  · rw [if_neg hf, if_pos h]

theorem record_of_ne {i : Nat} {l : Link Model Label}
    (h : (l.after.connState i).protoState ≠ (l.before.connState i).protoState)
    (hfirst : (l.after.connState i).protoState.isFirst = false) (earlier : Phases) :
    record i earlier l =
      earlier ++ [((l.before.connState i).protoState, (l.before.connState i).payload)] := by
  unfold record
  rw [if_neg (by rw [hfirst]; exact Bool.false_ne_true), if_neg h]

def ofRun (i : Nat) (tr : List (Link Model Label)) : Phases := tr.foldl (record i) []

end Phases

namespace ConnState

variable {c c' : ConnState}

structure Counts (c : ConnState) (earlier : Phases) : Prop where
  seq : c.seq = BitVec.ofNat 32 (earlier.sentBy c.protoState.fromClient)
  ack : c.ack = BitVec.ofNat 32 (earlier.sentBy !c.protoState.fromClient)

def Bare (c : ConnState) : Prop :=
  (c.protoState.hasSyn || c.protoState.hasFin) = true → c.payload = none

structure Ledger (earlier : Phases) (c : ConnState) : Prop where
  opened : c.protoState.isFirst = true → earlier = []
  counts : c.protoState.isTcp = true → c.Counts earlier
  bare : c.protoState.isTcp = true → c.Bare

theorem Ledger.samePacket {earlier : Phases} (h : Ledger earlier c) (hc : SamePacket c c') :
    Ledger earlier c' := by
  refine ⟨fun hfirst => h.opened (hc.protoState ▸ hfirst), fun htcp => ?_, fun htcp => ?_⟩
  · have htcp' : c.protoState.isTcp = true := hc.protoState ▸ htcp
    obtain ⟨hseq, hack, -⟩ := hc.packet htcp'
    obtain ⟨hcseq, hcack⟩ := h.counts htcp'
    refine ⟨?_, ?_⟩
    · rw [hseq, hc.protoState]
      exact hcseq
    · rw [hack, hc.protoState]
      exact hcack
  · have htcp' : c.protoState.isTcp = true := hc.protoState ▸ htcp
    obtain ⟨-, -, hpayload⟩ := hc.packet htcp'
    intro hflag
    rw [hpayload]
    apply h.bare htcp'
    rwa [← hc.protoState]

structure NextPacket (c c' : ConnState) : Prop where
  protoState : c'.protoState ≠ c.protoState
  notFirst : c'.protoState.isFirst = false
  ledger : ∀ earlier, Ledger earlier c → Ledger (earlier ++ [(c.protoState, c.payload)]) c'

theorem Ledger.seqAfter {earlier : Phases} (h : Ledger earlier c)
    (htcp : c.protoState.isTcp = true) :
    Packet.seqAfter c.protoState c.payload c.seq = BitVec.ofNat 32
      (earlier.sentBy c.protoState.fromClient + Phases.units (c.protoState, c.payload)) := by
  rw [(h.counts htcp).seq, BitVec.ofNat_add]
  unfold Packet.seqAfter Phases.units
  by_cases hflag : (c.protoState.hasSyn || c.protoState.hasFin) = true
  · rw [h.bare htcp hflag]
    simp [Payload.size, hflag]
  · simp only [hflag]
    by_cases hsize : Payload.size c.payload > 0
    · simp [hsize]
    · have hzero : Payload.size c.payload = 0 := by omega
      simp [hzero]

end ConnState

namespace Model

open ConnState

variable {P : Plankton} {m m' : Model}

theorem getPayloadFromModel_cases {payload : Option Payload}
    (h : m.getPayloadFromModel P = some payload) :
    payload = none ∨ m.cur.protoState = psTcpL7Req ∨ m.cur.protoState = psTcpL7Rep := by
  unfold getPayloadFromModel at h
  by_cases hreq : m.cur.protoState = psTcpL7Req
  · exact .inr (.inl hreq)
  · by_cases hrep : m.cur.protoState = psTcpL7Rep
    · exact .inr (.inr hrep)
    · rw [if_neg hreq, if_neg hrep] at h
      exact .inl (Option.some.inj h).symm

def nextSender (m : Model) (changeDirection : Bool) : NodePtr :=
  if changeDirection then m.cur.pktLocation else m.cur.srcNode

theorem phaseTransition_packet {next : ProtoState} {changeDirection : Bool}
    (h : m.phaseTransition P next changeDirection = some m') :
    ((P.network.node (m.nextSender changeDirection)).isEmulated = true ∧
      m' = m.setCur { m.cur with executable := 0 }) ∨
    (P.network.node (m.nextSender changeDirection)).isEmulated = false ∧
      m'.cur.protoState = next ∧ (m'.cur.seq, m'.cur.ack) = m.nextSeqAck changeDirection ∧
      (m'.cur.payload = none ∨ next = psTcpL7Req ∨ next = psTcpL7Rep) := by
  -- both branches write the packet in the same way
  have hpacket : ∀ {m₁ : Model} {payload : Option Payload} {c : ConnState},
      (m₁.cur.protoState = next ∧ (m₁.cur.seq, m₁.cur.ack) = m.nextSeqAck changeDirection) →
      m₁.getPayloadFromModel P = some payload → c.protoState = m₁.cur.protoState →
      (c.seq, c.ack) = (m₁.cur.seq, m₁.cur.ack) → c.payload = payload →
      c.protoState = next ∧ (c.seq, c.ack) = m.nextSeqAck changeDirection ∧
        (c.payload = none ∨ next = psTcpL7Req ∨ next = psTcpL7Rep) := by
    intro m₁ payload c hm₁ hget hps hnumbers hpayload
    have hcases := getPayloadFromModel_cases hget
    rw [hm₁.1] at hcases
    exact ⟨hps.trans hm₁.1, hnumbers.trans hm₁.2, by rwa [hpayload]⟩
  unfold phaseTransition at h
  simp only at h
  unfold nextSender
  split_ifs at h ⊢ with hdir hemu hemu
  · exact .inl ⟨hemu, (Option.some.inj h).symm⟩
  · simp only [Option.bind_eq_bind, Option.bind_eq_some_iff, Option.pure_def,
      Option.some.injEq] at h
    obtain ⟨m₁, h₁, payload, hget, rfl⟩ := h
    obtain ⟨srcIp, dstIpEc, fib, -, -, rfl⟩ := turnAround_cases h₁
    refine .inr ⟨by simpa using hemu, ?_⟩
    apply hpacket ⟨?_, ?_⟩ hget
    · simp
    · simp
    · simp
    · simp
    · simp
  · exact .inl ⟨hemu, (Option.some.inj h).symm⟩
  · simp only [Option.bind_eq_bind, Option.bind_eq_some_iff, Option.pure_def,
      Option.some.injEq] at h
    obtain ⟨m₁, rfl, payload, hget, rfl⟩ := h
    refine .inr ⟨by simpa using hemu, ?_⟩
    apply hpacket ⟨?_, ?_⟩ hget
    · simp
    · simp
    · simp
    · simp [sendAgain]
    · simp [sendAgain]

theorem accepted_turns (h : m.accepted P = some m') :
    m' = m.setCur { m.cur with executable := 0 } ∨ ∃ changeDirection,
      m.phaseTransition P (m.cur.protoState + 1) changeDirection = some m' ∧
      (m.cur.protoState + 1).isFirst = false ∧
      (m.cur.protoState + 1).isTcp = m.cur.protoState.isTcp ∧
      m.cur.protoState.Precedes (m.cur.protoState + 1) changeDirection ∧
      (m.cur.protoState.isTcp = true → (P.network.node m.cur.pktLocation).isEmulated = false →
        (m.cur.protoState + 1).fromClient = (m.cur.protoState.fromClient != changeDirection)) := by
  unfold accepted at h
  split at h
  case h_12 | h_13 | h_14 => exact .inl (Option.some.inj h).symm
  case h_15 => simp at h
  case h_7 heq =>
    rw [heq]
    -- the end that terminates the connection depends on the receiver
    have hturns : ∀ dir, psTcpL7RepA.Precedes psTcpTerm1 dir :=
      fun dir => ⟨fun h => absurd h (by decide), fun h => absurd h (by decide)⟩
    refine .inr ⟨_, h, by decide, by decide, hturns _, fun _ hemu => ?_⟩
    rw [hemu]
    decide
  case h_10 heq | h_11 heq =>
    rw [heq]
    refine .inr ⟨_, h, by decide, by decide, ⟨by decide, by decide⟩, fun htcp => ?_⟩
    exact absurd htcp (by decide)
  all_goals
    next heq =>
      rw [heq]
      exact .inr ⟨_, h, by decide, by decide, ⟨by decide, by decide⟩, fun _ _ => by decide⟩

theorem nextSeqAck_counts {earlier : Phases} (h : m.cur.Ledger earlier)
    (htcp : m.cur.protoState.isTcp = true) {c : ConnState} {changeDirection : Bool}
    (hnumbers : (c.seq, c.ack) = m.nextSeqAck changeDirection)
    (hclient : c.protoState.fromClient = (m.cur.protoState.fromClient != changeDirection)) :
    c.Counts (earlier ++ [(m.cur.protoState, m.cur.payload)]) := by
  obtain ⟨hseq, hack⟩ := h.counts htcp
  unfold nextSeqAck at hnumbers
  rw [if_pos htcp, h.seqAfter htcp, hack] at hnumbers
  cases changeDirection with
  | false =>
    obtain ⟨hcseq, hcack⟩ := Prod.mk.inj hnumbers
    rw [Bool.bne_false] at hclient
    refine ⟨?_, ?_⟩
    · rw [hcseq, hclient, Phases.sentBy_concat, if_pos rfl]
    · rw [hcack, hclient, Phases.sentBy_concat, if_neg (by simp), Nat.add_zero]
  | true =>
    obtain ⟨hcseq, hcack⟩ := Prod.mk.inj hnumbers
    rw [Bool.bne_true] at hclient
    refine ⟨?_, ?_⟩
    · rw [hcseq, hclient, Phases.sentBy_concat, if_neg (by simp), Nat.add_zero]
    · rw [hcack, hclient, Bool.not_not, Phases.sentBy_concat, if_pos rfl]

theorem accepted_packet (h : m.accepted P = some m')
    (hloc : (P.network.node m.cur.pktLocation).isEmulated = false) :
    SamePacket m.cur m'.cur ∨ NextPacket m.cur m'.cur := by
  have hfrozen : SamePacket m.cur (m.setCur { m.cur with executable := 0 }).cur := by
    rw [cur_setCur]
    exact ⟨rfl, fun _ => ⟨rfl, rfl, rfl⟩, fun h => ⟨h, rfl⟩⟩
  rcases accepted_turns h with rfl | ⟨changeDirection, hnext, hfirst, htcp, -, hclient⟩
  · exact .inl hfrozen
  · rcases phaseTransition_packet hnext with ⟨-, rfl⟩ | ⟨-, hps, hnumbers, hpayload⟩
    · exact .inl hfrozen
    · refine .inr ⟨?_, hps ▸ hfirst, fun earlier hm => ⟨?_, ?_, ?_⟩⟩
      · rw [hps]
        exact Nat.succ_ne_self _
      · intro hfirst'
        rw [hps, hfirst] at hfirst'
        exact absurd hfirst' Bool.false_ne_true
      · intro htcp'
        rw [hps, htcp] at htcp'
        apply nextSeqAck_counts hm htcp' hnumbers
        rw [hps]
        exact hclient htcp' hloc
      · intro _ hflag
        rcases hpayload with hnone | hreq | hrep
        · exact hnone
        · rw [hps, hreq] at hflag
          exact absurd hflag (by decide)
        · rw [hps, hrep] at hflag
          exact absurd hflag (by decide)

end Model

namespace Connection

variable {P : Plankton} {m m' : Model}

structure Opens (c : Connection) (s : ConnState) : Prop where
  protoState : s.protoState = c.firstProtoState
  seq : s.seq = c.seq
  ack : s.ack = c.ack
  payload : s.payload = none

theorem init_opens {c : Connection} {i : Nat} (h : c.init P i m = some m') :
    c.Opens (m'.connState i) := by
  simp only [init, Option.bind_eq_bind, Option.bind_eq_some_iff, Option.pure_def,
    Option.some.injEq] at h
  obtain ⟨payload, hpayload, m₁, hfib, rfl⟩ := h
  obtain ⟨ec, fib, -, -, rfl⟩ := Model.updateFib_cases hfib
  have hnone : payload = none := by
    rcases Model.getPayloadFromModel_cases hpayload with hnone | hreq | hrep
    · exact hnone
    · rw [Model.cur_setCur] at hreq
      unfold firstProtoState at hreq
      cases hproto : c.protocol <;> simp [hproto] at hreq
    · rw [Model.cur_setCur] at hrep
      unfold firstProtoState at hrep
      cases hproto : c.protocol <;> simp [hproto] at hrep
  have hself : ∀ (m₁ : Model) (s : ConnState) (j : Nat), m₁.conn = i →
      ((m₁.setCur s).setConn j).connState i = s := fun _ _ _ hm₁ => if_pos hm₁.symm
  rw [hself _ _ _ rfl]
  refine ⟨?_, ?_, ?_, ?_⟩
  · simp
  · simp
  · simp
  · simpa using hnone

theorem initFrom_opens {cs : List Connection} :
    ∀ {i : Nat} {m m' : Model}, initFrom P cs i m = some m' →
      ∀ (j : Nat) (c : Connection), cs[j]? = some c → c.Opens (m'.connState (i + j)) := by
  induction cs with
  | nil => simp
  | cons c cs ih =>
    intro i m m' h j d hd
    obtain ⟨m₁, h₁, h⟩ := Option.bind_eq_some_iff.mp h
    cases j with
    | zero =>
      obtain rfl := Option.some.inj hd
      obtain ⟨-, -, hrest, -⟩ := initFrom_cases h
      rw [Nat.add_zero, hrest i (.inl (Nat.lt_succ_self i))]
      exact init_opens h₁
    | succ j =>
      rw [Nat.add_succ, ← Nat.succ_add]
      exact ih h j d hd

def Constructed (c : Connection) : Prop := c.seq = 0 ∧ c.ack = 0

theorem ledger_of_opens {c : Connection} (hc : c.Constructed) {s : ConnState} (h : c.Opens s) :
    s.Ledger [] := by
  refine ⟨fun _ => rfl, fun _ => ⟨?_, ?_⟩, fun _ _ => h.payload⟩
  · rw [h.seq, hc.1]
    rfl
  · rw [h.ack, hc.2]
    rfl

end Connection

theorem CheckedInvariant.init_opens {P : Plankton} {inv : CheckedInvariant} {m m' : Model}
    (h : inv.init P m = some m') {i : Nat} {c : Connection} (hc : inv.conns[i]? = some c) :
    c.Opens (m'.connState i) := by
  simp only [init, Option.bind_eq_bind, Option.bind_eq_some_iff] at h
  obtain ⟨m₁, h₁, h⟩ := h
  have hopens := Connection.initFrom_opens h₁ i c hc
  rw [Nat.zero_add] at hopens
  obtain ⟨policy, conns⟩ := inv
  cases policy <;> obtain rfl := Option.some.inj h <;> exact hopens

namespace Plankton

open Model ConnState

variable {P : Plankton} {V : Invariants} {m m' s t : Model} {tr : List (Link Model Label)}
  {results : List InjectionResult} {i : Nat}

/-- The packets of a connection are sent and received by nodes of the model: what is delivered is
not delivered to a middlebox, and no middlebox opens the connection or goes on to a phase. -/
structure BetweenModels (P : Plankton) (i : Nat) (results : List InjectionResult) (m : Model) :
    Prop where
  delivered : m.processId = .forwarding → m.conn = i → m.cur.fwdMode = .accepted →
    (P.network.node m.cur.pktLocation).isEmulated = false
  answered : m.processId = .forwarding → m.cur.fwdMode = .chooseInjRes →
    ∀ m', P.control results m = some m' → (i < m'.numConns → i < m.numConns) ∧
      (m'.connState i).protoState = (m.connState i).protoState

theorem control_packet (h : P.control results m = some m') (hends : P.BetweenModels i results m)
    (hi : i < m'.numConns) : i < m.numConns ∧ (SamePacket (m.connState i) (m'.connState i) ∨
      NextPacket (m.connState i) (m'.connState i)) := by
  rcases control_moves h hi with ⟨hp, hinjected, hanswer⟩ | ⟨hi₀, hmoves | ⟨hcur, hp, hmode, hturn⟩⟩
  · -- the answer of a middlebox leaves the phase, and so the packet
    obtain ⟨hnum, hps⟩ := hends.answered hp hinjected _ h
    refine ⟨hnum hi, ?_⟩
    rcases hanswer (hnum hi) with hsame | hlt
    · exact .inl hsame
    · exact absurd hps hlt.ne'
  · exact ⟨hi₀, .inl hmoves.toSamePacket⟩
  · obtain ⟨m₁, haccepted, hself⟩ := hturn
    have hloc := hends.delivered hp hcur.symm hmode
    refine ⟨hi₀, ?_⟩
    rw [hself, hcur]
    exact accepted_packet haccepted hloc

def ConstructedConns (V : Invariants) : Prop :=
  ∀ k inv, V.current k = some inv → ∀ c ∈ inv.conns, c.Constructed

theorem init_ledger {inv : CheckedInvariant} (hV : ∀ c ∈ inv.conns, c.Constructed)
    (h : inv.init P m = some m') (hi : i < m'.numConns) :
    (m'.connState i).protoState.isFirst = true ∧ (m'.connState i).Ledger [] := by
  have hlt : i < inv.conns.length := by
    rw [← (CheckedInvariant.starts_of_init h).numConns]
    exact hi
  have hopens := CheckedInvariant.init_opens h (List.getElem?_eq_getElem hlt)
  refine ⟨?_, Connection.ledger_of_opens (hV _ (List.getElem_mem hlt)) hopens⟩
  rw [hopens.protoState]
  unfold Connection.firstProtoState
  cases inv.conns[i].protocol <;> rfl

theorem initModel_ledger (hV : ConstructedConns V) (h : P.initModel V = some s)
    (hi : i < s.numConns) : (s.connState i).Ledger [] := by
  obtain ⟨m₁, h₁, rfl⟩ := Option.map_eq_some_iff.mp h
  obtain ⟨inv, hinv, hinit⟩ := Option.bind_eq_some_iff.mp h₁
  exact (init_ledger (hV _ inv hinv) hinit hi).2

theorem step_ledger {l : Link Model Label} {earlier : Phases} (hV : ConstructedConns V)
    (h : P.step V l.before l.act = some l.after)
    (hends : P.BetweenModels i l.act.results (l.before.setChoice l.act.choice))
    (hm : i < l.before.numConns → (l.before.connState i).Ledger earlier)
    (hi : i < l.after.numConns) : (l.after.connState i).Ledger (Phases.record i earlier l) := by
  obtain ⟨-, m₁, m₂, r, hcontrol, hcheck, hafter⟩ := step_eq_some h
  obtain ⟨hnum, hmoves⟩ := checkViolation_moves (P := P) hcheck
  have hchecked : ∀ i, SamePacket (m₁.connState i) (m₂.connState i) :=
    fun i => (hmoves i).toSamePacket
  cases r with
  | true =>
    obtain ⟨m₃, h₃, hm₃⟩ := Option.map_eq_some_iff.mp (if_pos rfl ▸ hafter : P.reinit V m₂ = _)
    have hopened : (l.after.connState i).protoState.isFirst = true ∧
        (l.after.connState i).Ledger [] := by
      rw [← hm₃] at hi ⊢
      cases V with
      | single _ => simp [Invariants.reinit] at h₃
      | conditional invs | consistency invs =>
        obtain ⟨inv, hinv, hinit⟩ := Option.bind_eq_some_iff.mp h₃
        have hfresh := init_ledger (i := i) (hV _ inv hinv) hinit hi
        exact hfresh
    rw [Phases.record_of_first hopened.1]
    exact hopened.2
  | false =>
    have hm₂ : m₂ = l.after := Option.some.inj hafter
    rw [hm₂] at hnum hchecked
    obtain ⟨hi₀, hpacket⟩ := control_packet hcontrol hends (hnum ▸ hi)
    have hledger := hm hi₀
    rcases hpacket with hsame | hnext
    · have hsame' := hsame.trans (hchecked i)
      rw [Phases.record_of_same hsame'.protoState hledger.opened]
      exact hledger.samePacket hsame'
    · have hps := (hchecked i).protoState
      rw [Phases.record_of_ne (hps ▸ hnext.protoState) (hps ▸ hnext.notFirst)]
      exact (hnext.ledger earlier hledger).samePacket (hchecked i)

theorem run_ledger (hV : ConstructedConns V) (hs : P.initModel V = some s)
    (h : Run (P.step V) s tr t)
    (hends : ∀ l ∈ tr, P.BetweenModels i l.act.results (l.before.setChoice l.act.choice))
    (hi : i < t.numConns) : (t.connState i).Ledger (Phases.ofRun i tr) := by
  have hall := h.foldl_invariant (Phases.record i)
    (fun earlier m => i < m.numConns → (m.connState i).Ledger earlier)
    (initModel_ledger hV hs) fun l hl hstep earlier hm =>
      step_ledger hV hstep (hends l hl) hm
  exact hall hi

end Plankton

namespace Model

open ConnState

variable {P : Plankton} {m m' m₁ m₂ : Model}

def Asks (m : Model) (oppositeDir : Bool) (seq ack : BitVec 32) : Prop :=
  ∀ pkt : Packet, pkt.conn = m.conn → pkt.isNew = false → pkt.nextPhase = true →
    pkt.oppositeDir = oppositeDir → pkt.protoState.isTcp = true →
      (pkt.checkSeqAck m = some () ↔ pkt.seq = seq ∧ pkt.ack = ack)

theorem asks_nextSeqAck {changeDirection : Bool} {seq ack : BitVec 32}
    (htcp : m.cur.protoState.isTcp = true) (h : (seq, ack) = m.nextSeqAck changeDirection) :
    m.Asks changeDirection seq ack := by
  intro pkt hconn hnew hphase hdir hpkt
  have hcur : (m.connState pkt.conn).protoState.isTcp = true := by
    rw [hconn]
    exact htcp
  have hset : m.setConn pkt.conn = m := by
    rw [hconn]
    rfl
  rw [checkSeqAck_next hnew hphase hpkt hcur, hset, hdir, ← h, Prod.mk.injEq]

theorem phaseTransition_asks {next : ProtoState} {changeDirection : Bool}
    (htcp : m.cur.protoState.isTcp = true)
    (hsender : (P.network.node (m.nextSender changeDirection)).isEmulated = false)
    (h : m.phaseTransition P next changeDirection = some m') :
    m.Asks changeDirection m'.cur.seq m'.cur.ack := by
  rcases phaseTransition_packet h with ⟨hemu, -⟩ | ⟨-, -, hnumbers, -⟩
  · exact absurd (hsender.symm.trans hemu) Bool.false_ne_true
  · exact asks_nextSeqAck htcp hnumbers

theorem accepted_asks (htcp : m.cur.protoState.isTcp = true) (h : m.accepted P = some m')
    (hnext : m'.cur.protoState ≠ m.cur.protoState) : ∃ changeDirection,
      m.phaseTransition P m'.cur.protoState changeDirection = some m' ∧
        m.Asks changeDirection m'.cur.seq m'.cur.ack := by
  rcases accepted_turns h with rfl | ⟨changeDirection, hturn, -⟩
  · simp at hnext
  · rcases phaseTransition_packet hturn with ⟨-, rfl⟩ | ⟨-, hps, hnumbers, -⟩
    · simp at hnext
    · rw [hps]
      exact ⟨changeDirection, hturn, asks_nextSeqAck htcp hnumbers⟩

theorem merged_asks (hreq : m.cur.protoState = psTcpL7Req)
    (h₁ : m.phaseTransition P psTcpL7ReqA true = some m₁)
    (hsender₁ : (P.network.node (m.nextSender true)).isEmulated = false)
    (hsame : SamePacket m₁.cur m₂.cur)
    (h₂ : m₂.phaseTransition P psTcpL7Rep false = some m')
    (hsender₂ : (P.network.node (m₂.nextSender false)).isEmulated = false) :
    m.Asks true m'.cur.seq m'.cur.ack := by
  have htcp : m.cur.protoState.isTcp = true := by
    rw [hreq]
    decide
  rcases phaseTransition_packet h₁ with ⟨hemu, -⟩ | ⟨-, hps₁, hnumbers₁, hpayload₁⟩
  · exact absurd (hsender₁.symm.trans hemu) Bool.false_ne_true
  · rcases phaseTransition_packet h₂ with ⟨hemu, -⟩ | ⟨-, -, hnumbers₂, -⟩
    · exact absurd (hsender₂.symm.trans hemu) Bool.false_ne_true
    · have htcp₁ : m₁.cur.protoState.isTcp = true := by
        rw [hps₁]
        decide
      have hnone : m₁.cur.payload = none := hpayload₁.resolve_right (by decide)
      obtain ⟨hseq, hack, hpayload⟩ := hsame.packet htcp₁
      -- an acknowledgement without data leaves the numbers
      have hsecond : m₂.nextSeqAck false = (m₁.cur.seq, m₁.cur.ack) := by
        unfold nextSeqAck
        rw [hsame.protoState, hps₁, hseq, hack, hpayload, hnone]
        rfl
      apply asks_nextSeqAck htcp
      rw [hnumbers₂, hsecond, hnumbers₁]

end Model

namespace Plankton

open Model ConnState

/-- The numbers of a TCP connection between nodes of the model count what its ends have sent, of
any payloads; and those of a transition are the ones that are asked of a received packet, also
where the reply comes without an acknowledgement of the request before it. -/
theorem numbers_count {P : Plankton} {V : Invariants} {s t : Model}
    {tr : List (Link Model Label)} {i : Nat} (hV : ConstructedConns V)
    (hs : P.initModel V = some s) (h : Run (P.step V) s tr t)
    (hends : ∀ l ∈ tr, P.BetweenModels i l.act.results (l.before.setChoice l.act.choice))
    (hi : i < t.numConns) (htcp : (t.connState i).protoState.isTcp = true) :
    (t.connState i).Counts (Phases.ofRun i tr) ∧
    (∀ (m m' : Model) (earlier : Phases), m.cur.Ledger earlier →
      (P.network.node m.cur.pktLocation).isEmulated = false → m.accepted P = some m' →
        m'.cur.protoState ≠ m.cur.protoState →
          m'.cur.Ledger (earlier ++ [(m.cur.protoState, m.cur.payload)])) ∧
    (∀ m m' : Model, m.cur.protoState.isTcp = true → m.accepted P = some m' →
      m'.cur.protoState ≠ m.cur.protoState → ∃ changeDirection,
        m.phaseTransition P m'.cur.protoState changeDirection = some m' ∧
          m.Asks changeDirection m'.cur.seq m'.cur.ack) ∧
    (∀ (m m' : Model) (next : ProtoState) (changeDirection : Bool),
      m.cur.protoState.isTcp = true →
        (P.network.node (m.nextSender changeDirection)).isEmulated = false →
          m.phaseTransition P next changeDirection = some m' →
            m.Asks changeDirection m'.cur.seq m'.cur.ack) ∧
    ∀ m m₁ m₂ m' : Model, m.cur.protoState = psTcpL7Req →
      m.phaseTransition P psTcpL7ReqA true = some m₁ →
        (P.network.node (m.nextSender true)).isEmulated = false → SamePacket m₁.cur m₂.cur →
          m₂.phaseTransition P psTcpL7Rep false = some m' →
            (P.network.node (m₂.nextSender false)).isEmulated = false →
              m.Asks true m'.cur.seq m'.cur.ack := by
  refine ⟨(run_ledger hV hs h hends hi).counts htcp, ?_, ?_, ?_, ?_⟩
  · intro m m' earlier hm hloc haccepted hnext
    rcases accepted_packet haccepted hloc with hsame | hpacket
    · exact absurd hsame.protoState hnext
    · exact hpacket.ledger earlier hm
  · intro m m' htcp haccepted hnext
    exact accepted_asks htcp haccepted hnext
  · intro m m' next changeDirection htcp hsender hturn
    exact phaseTransition_asks htcp hsender hturn
  · intro m m₁ m₂ m' hreq h₁ hsender₁ hsame h₂ hsender₂
    exact merged_asks hreq h₁ hsender₁ hsame h₂ hsender₂

theorem pair_constructed : ConstructedConns (unchecked [pairConn false .tcp]) := by
  intro k inv hinv c hc
  obtain rfl := Option.some.inj hinv
  obtain rfl := List.mem_singleton.mp hc
  exact ⟨rfl, rfl⟩

theorem numbers_count_request : ∃ s t tr,
    (pairPlankton false).initModel (unchecked [pairConn false .tcp]) = some s ∧
      Run ((pairPlankton false).step (unchecked [pairConn false .tcp])) s tr t ∧
        (t.connState 0).protoState = psTcpL7ReqA ∧ (t.connState 0).ack = 38#32 ∧
          (t.connState 0).Counts (Phases.ofRun 0 tr) := by
  have hrun : (((pairPlankton false).initModel (unchecked [pairConn false .tcp])).bind fun s =>
      (execute ((pairPlankton false).step (unchecked [pairConn false .tcp])) s
        (List.replicate 20 go)).map fun r => (r.2.numConns, (r.2.connState 0).protoState,
          (r.2.connState 0).ack, r.1.all fun l => decide (l.before.cur.fwdMode ≠ .chooseInjRes))) =
      some (1, psTcpL7ReqA, 38#32, true) := by
    decide +kernel
  obtain ⟨s, hs, hrun⟩ := Option.bind_eq_some_iff.mp hrun
  obtain ⟨⟨tr, t⟩, hexec, hr⟩ := Option.map_eq_some_iff.mp hrun
  simp only [Prod.mk.injEq] at hr
  obtain ⟨hnum, hps, hack, hmodes⟩ := hr
  have hends : ∀ l ∈ tr, (pairPlankton false).BetweenModels 0 l.act.results
      (l.before.setChoice l.act.choice) := by
    intro l hl
    have hmode := of_decide_eq_true (List.all_eq_true.mp hmodes l hl)
    exact ⟨fun _ _ _ => pair_modelOnly false _, fun _ hinjected => absurd hinjected hmode⟩
  have hcounts := numbers_count pair_constructed hs (run_of_execute hexec) hends
    (hnum ▸ Nat.one_pos) (by rw [hps]; decide)
  exact ⟨s, t, tr, hs, run_of_execute hexec, hps, hack, hcounts.1⟩

end Plankton

end Neo
