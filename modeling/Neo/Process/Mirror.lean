import Neo.Process.SeqAck

/-! Changes of direction. The destination of a packet is a class of addresses, and the next packet
in the opposite direction comes from its representative; so a flow that turns around twice is the
same again where its source represents a class. -/

namespace Neo

namespace EqClassMgr.Added

variable {calls : Set EcCall} {m : EqClassMgr}

theorem representativeAddr_zero (h : Added calls m) {e : EcPtr} (he : m.findEc 0 = some e) :
    EqClass.representativeAddr (m.ranges e) = some 0 := by
  obtain ⟨L, hL⟩ := h.live
  obtain ⟨range, hrange, hzero⟩ := (hL.findEc_iff (hL.findEc_mem he)).mp he
  have hlb : range.lb = 0 := by
    have hle : range.lb ≤ 0 := hzero.1
    exact BitVec.eq_of_toNat_eq (Nat.le_zero.mp hle)
  obtain ⟨first, rest, hcons⟩ := List.exists_cons_of_ne_nil (List.ne_nil_of_mem hrange)
  have hsorted := hL.classSorted e
  rw [hcons] at hrange hsorted ⊢
  rcases List.mem_cons.mp hrange with rfl | hrest
  · exact congrArg some hlb
  · have hlt : first.ub < range.lb := (List.pairwise_cons.mp hsorted).1 range hrest
    rw [hlb] at hlt
    exact absurd hlt (BitVec.not_lt_zero)

end EqClassMgr.Added

namespace Plankton

variable {P : Plankton}

def representative (P : Plankton) (a : IPv4Address) : Option IPv4Address :=
  (P.ecs.findEc a).bind fun ec => EqClass.representativeAddr (P.ecs.ranges ec)

def Represented (P : Plankton) (a : IPv4Address) : Prop := ∀ b, P.representative a = some b → b = a

theorem represented_iff {a b : IPv4Address} (h : P.representative a = some b) :
    P.Represented a ↔ b = a := by
  constructor
  · exact fun ha => ha b h
  · rintro hb c hc
    exact (Option.some.inj (hc.symm.trans h)).trans hb

theorem represented_zero : P.Represented 0 := by
  intro b hb
  obtain ⟨calls, mbs, hadded, -⟩ := P.added
  obtain ⟨ec, hec, hrep⟩ := Option.bind_eq_some_iff.mp hb
  exact Option.some.inj (hrep.symm.trans (hadded.representativeAddr_zero hec))

theorem represented_of_owned {a : IPv4Address} (ha : P.Owned a) : P.Represented a := by
  obtain ⟨n, hn, hip⟩ := ha
  intro b hb
  obtain ⟨calls, mbs, hadded, hcalls⟩ := P.added
  obtain ⟨ec, hec, hrep⟩ := Option.bind_eq_some_iff.mp hb
  obtain ⟨c, hc, hfind⟩ := hadded.representativeAddr hec
  obtain rfl := Option.some.inj (hrep.symm.trans hc)
  have hsame := (hadded.findEc_eq_iff b a).mp (hfind.trans hec.symm) _
    (hcalls _ (EqClassMgr.mem_initialCalls_of_hasIp P.openflow mbs hn hip))
  exact IPRange.mem_ofAddr.mp (hsame.mpr (IPRange.mem_ofAddr.mpr rfl))

theorem represented_of_representative {ec : EcPtr} (hec : P.IsEc ec) {a : IPv4Address}
    (ha : EqClass.representativeAddr (P.ecs.ranges ec) = some a) :
    P.ecs.findEc a = some ec ∧ P.Represented a := by
  obtain ⟨b, hb, hfind⟩ := representativeAddr_of_isEc hec
  obtain rfl := Option.some.inj (hb.symm.trans ha)
  refine ⟨hfind, fun c hc => ?_⟩
  obtain ⟨ec', hec', hrep⟩ := Option.bind_eq_some_iff.mp hc
  obtain rfl := Option.some.inj (hec'.symm.trans hfind)
  exact Option.some.inj (hrep.symm.trans hb)

end Plankton

namespace Ends

variable {P : Plankton} {e e₁ e₂ : Ends}

def mirror (P : Plankton) (e : Ends) : Option Ends := do
  let ec ← e.dstIpEc
  let srcIp ← EqClass.representativeAddr (P.ecs.ranges ec)
  let dstIpEc ← P.ecs.findEc e.srcIp
  return {
    srcIp := srcIp
    dstIpEc := some dstIpEc
    srcPort := e.dstPort
    dstPort := e.srcPort }

theorem mirror_eq_some : e.mirror P = some e₁ ↔ ∃ ec dstIpEc, e.dstIpEc = some ec ∧
    EqClass.representativeAddr (P.ecs.ranges ec) = some e₁.srcIp ∧
    P.ecs.findEc e.srcIp = some dstIpEc ∧ e₁.dstIpEc = some dstIpEc ∧ e₁.srcPort = e.dstPort ∧
    e₁.dstPort = e.srcPort := by
  simp only [mirror, Option.bind_eq_bind, Option.bind_eq_some_iff, Option.pure_def,
    Option.some.injEq]
  constructor
  · rintro ⟨ec, hec, srcIp, hsrc, dstIpEc, hdst, rfl⟩
    exact ⟨ec, dstIpEc, hec, hsrc, hdst, rfl, rfl, rfl⟩
  · rintro ⟨ec, dstIpEc, hec, hsrc, hdst, hdst', hsrcPort, hdstPort⟩
    refine ⟨ec, hec, e₁.srcIp, hsrc, dstIpEc, hdst, ?_⟩
    rw [← hdst', ← hsrcPort, ← hdstPort]

def Goes (P : Plankton) (e e' : Ends) (changeDirection : Bool) : Prop :=
  if changeDirection then e.mirror P = some e' else e' = e

def Classed (P : Plankton) (e : Ends) : Prop := ∃ ec, P.IsEc ec ∧ e.dstIpEc = some ec

theorem mirror_mirror (he : e.Classed P) (h₁ : e.mirror P = some e₁) (h₂ : e₁.mirror P = some e₂) :
    P.representative e.srcIp = some e₂.srcIp ∧ e₂ = { e with srcIp := e₂.srcIp } := by
  obtain ⟨ec, hec, hdst⟩ := he
  obtain ⟨ec', dstIpEc, hdst', hsrc, hfind, hdst₁, hsrcPort₁, hdstPort₁⟩ := mirror_eq_some.mp h₁
  obtain rfl := Option.some.inj (hdst.symm.trans hdst')
  obtain ⟨ec₁, dstIpEc₂, hec₁, hsrc₂, hfind₂, hdst₂, hsrcPort₂, hdstPort₂⟩ := mirror_eq_some.mp h₂
  obtain rfl := Option.some.inj (hdst₁.symm.trans hec₁)
  have hback := (Plankton.represented_of_representative hec hsrc).1
  obtain rfl := Option.some.inj (hback.symm.trans hfind₂)
  constructor
  · exact Option.bind_eq_some_iff.mpr ⟨dstIpEc, hfind, hsrc₂⟩
  · obtain ⟨srcIp, dst, srcPort, dstPort⟩ := e₂
    simp only at hdst₂ hsrcPort₂ hdstPort₂ ⊢
    rw [hdst₂, hsrcPort₂, hdstPort₂, hsrcPort₁, hdstPort₁, ← hdst]

structure Paired (P : Plankton) (e : Ends) : Prop where
  classed : e.Classed P
  represented : P.Represented e.srcIp

theorem Paired.mirror (he : e.Paired P) (h : e.mirror P = some e₁) : e₁.Paired P := by
  obtain ⟨ec, hec, hdst⟩ := he.classed
  obtain ⟨ec', dstIpEc, hdst', hsrc, hfind, hdst₁, -, -⟩ := mirror_eq_some.mp h
  obtain rfl := Option.some.inj (hdst.symm.trans hdst')
  exact ⟨⟨dstIpEc, ⟨_, hfind⟩, hdst₁⟩, (Plankton.represented_of_representative hec hsrc).2⟩

inductive Turns (P : Plankton) (e e' : Ends) : Bool → Prop
  | same : (e'.srcIp = e.srcIp ∨ ∃ ec, P.ecs.findEc e.srcIp = some ec ∧
      P.ecs.findEc e'.srcIp = some ec) → e'.dstIpEc = e.dstIpEc → e'.srcPort = e.srcPort →
      e'.dstPort = e.dstPort → Turns P e e' false
  | opposite {ec} : P.ecs.findEc e.srcIp = some ec → e'.dstIpEc = some ec →
      P.ecs.findEc e'.srcIp = e.dstIpEc → e'.srcPort = e.dstPort → e'.dstPort = e.srcPort →
      Turns P e e' true

theorem turns_refl (e : Ends) : Turns P e e false := .same (.inl rfl) rfl rfl rfl

theorem Turns.opposite_trans {cd : Bool} (ec : EcPtr) (h : Turns P e e₁ cd)
    (hsrc : P.ecs.findEc e₁.srcIp = some ec) (hdst : e₂.dstIpEc = some ec)
    (hback : P.ecs.findEc e₂.srcIp = e₁.dstIpEc) (hsrcPort : e₂.srcPort = e₁.dstPort)
    (hdstPort : e₂.dstPort = e₁.srcPort) : Turns P e e₂ (!cd) := by
  cases h with
  | same hsame hdst₁ hsrcPort₁ hdstPort₁ =>
    have hclass : P.ecs.findEc e.srcIp = some ec := by
      rcases hsame with hsame | ⟨ec', hec', hec₁⟩
      · rw [← hsame]
        exact hsrc
      · rw [hec', ← hec₁, hsrc]
    exact .opposite hclass hdst (hback.trans hdst₁) (hsrcPort.trans hdstPort₁)
      (hdstPort.trans hsrcPort₁)
  | opposite hclass hdst₁ hback₁ hsrcPort₁ hdstPort₁ =>
    refine .same (.inr ⟨_, hclass, hback.trans hdst₁⟩) ?_ (hsrcPort.trans hdstPort₁)
      (hdstPort.trans hsrcPort₁)
    rw [hdst, ← hsrc, hback₁]

theorem Turns.goes {cd : Bool} (h : Turns P e e₁ cd) (he : e.Paired P)
    (h₁ : P.Represented e₁.srcIp) : e.Goes P e₁ cd := by
  obtain ⟨srcIp, dst, srcPort, dstPort⟩ := e₁
  cases h with
  | same hsame hdst hsrcPort hdstPort =>
    simp only at hsame hdst hsrcPort hdstPort h₁
    have hsrc : srcIp = e.srcIp := by
      rcases hsame with hsame | ⟨ec, hec, hec₁⟩
      · exact hsame
      · obtain ⟨a, ha, -⟩ := Plankton.representativeAddr_of_isEc ⟨_, hec⟩
        have ha₀ := he.represented a (Option.bind_eq_some_iff.mpr ⟨ec, hec, ha⟩)
        have ha₁ := h₁ a (Option.bind_eq_some_iff.mpr ⟨ec, hec₁, ha⟩)
        exact ha₁.symm.trans ha₀
    show Ends.mk srcIp dst srcPort dstPort = e
    rw [hsrc, hdst, hsrcPort, hdstPort]
  | opposite hclass hdst hback hsrcPort hdstPort =>
    simp only at hdst hback hsrcPort hdstPort h₁
    obtain ⟨ec, hec, hdst₀⟩ := he.classed
    obtain ⟨a, ha, -⟩ := Plankton.representativeAddr_of_isEc hec
    have hsrc := h₁ a (Option.bind_eq_some_iff.mpr ⟨ec, hback.trans hdst₀, ha⟩)
    show e.mirror P = _
    rw [mirror_eq_some]
    exact ⟨ec, _, hdst₀, hsrc ▸ ha, hclass, hdst, hsrcPort, hdstPort⟩

theorem Paired.mirror_mirror (he : e.Paired P) (h₁ : e.mirror P = some e₁)
    (h₂ : e₁.mirror P = some e₂) : e₂ = e := by
  obtain ⟨hrep, hends⟩ := Ends.mirror_mirror he.classed h₁ h₂
  rw [hends, he.represented _ hrep]

end Ends

namespace ConnState

variable {P : Plankton} {c c' c'' : ConnState}

structure SameFlow (P : Plankton) (c c' : ConnState) (changeDirection : Bool) : Prop where
  precedes : c.protoState.Precedes c'.protoState changeDirection
  ends : c.ends.Goes P c'.ends changeDirection

theorem sameFlow_of_same (hps : c'.protoState = c.protoState) (hends : c'.ends = c.ends) :
    SameFlow P c c' false := by
  refine ⟨?_, hends⟩
  rw [hps]
  exact ⟨id, id⟩

end ConnState

namespace Model

open ConnState

variable {P : Plankton} {m m' : Model}

theorem turnAround_ends (h : m.turnAround P = some m') :
    m.cur.ends.mirror P = some m'.cur.ends := by
  simp only [turnAround, Option.bind_eq_bind, Option.bind_eq_some_iff] at h
  obtain ⟨ec, hec, srcIp, hsrc, dstIpEc, hdst, h⟩ := h
  obtain ⟨_, fib, -, -, rfl⟩ := updateFib_cases h
  rw [cur_setCur, cur_setCur]
  exact Ends.mirror_eq_some.mpr ⟨ec, dstIpEc, hec, hsrc, hdst, rfl, rfl, rfl⟩

theorem phaseTransition_ends {next : ProtoState} {changeDirection : Bool}
    (h : m.phaseTransition P next changeDirection = some m')
    (hemu : (P.network.node (m.nextSender changeDirection)).isEmulated = false) :
    m'.cur.protoState = next ∧ m.cur.ends.Goes P m'.cur.ends changeDirection := by
  unfold phaseTransition at h
  unfold nextSender at hemu
  unfold Ends.Goes
  simp only at h
  rw [if_neg (by simp [hemu])] at h
  split_ifs at h ⊢ with hdir
  · simp only [Option.bind_eq_bind, Option.bind_eq_some_iff, Option.pure_def,
      Option.some.injEq] at h
    obtain ⟨m₁, h₁, payload, -, rfl⟩ := h
    have hmirror := turnAround_ends h₁
    obtain ⟨srcIp, dstIpEc, fib, -, -, rfl⟩ := turnAround_cases h₁
    simp only [cur_setCur] at hmirror ⊢
    exact ⟨trivial, hmirror⟩
  · simp only [Option.bind_eq_bind, Option.bind_eq_some_iff, Option.pure_def,
      Option.some.injEq] at h
    obtain ⟨m₁, rfl, payload, -, rfl⟩ := h
    simp only [sendAgain, cur_setCur]
    exact ⟨trivial, rfl⟩

theorem dstHas_iff {f : Flow} {ec : EcPtr} (hec : P.IsEc ec) (hf : f.dstIpEc = some ec)
    {a : IPv4Address} : f.dstHas P a = true ↔ P.ecs.findEc a = some ec := by
  obtain ⟨calls, mbs, hadded, -⟩ := P.added
  obtain ⟨L, hL⟩ := hadded.live
  obtain ⟨x, hx⟩ := hec
  rw [hL.findEc_iff (hL.findEc_mem hx)]
  unfold Flow.dstHas EqClass.contains
  rw [hf, Option.any_some, List.any_eq_true]
  simp only [decide_eq_true_eq]
  rfl

theorem receivePacket_turns {mb : NodePtr} {st st' : Model × Bool × Bool} {pkt : Packet}
    (h : receivePacket P mb st pkt = some st') (hst : P.Addressed st.1) {i : Nat}
    (hi : i < st.1.numConns) {e : Ends} {cd : Bool} (he : e.Turns P (st.1.connState i).ends cd) :
    ∃ cd', e.Turns P (st'.1.connState i).ends cd' := by
  rcases receivePacket_checks h i with
    heq | ⟨pkt₁, pkt₂, hidentify, hprocess, hconn, -, ⟨ec, hec, hflow⟩, hpkt⟩
  · rw [heq]
    exact ⟨cd, he⟩
  · obtain ⟨protoState, nextPhase, rfl, -⟩ := processProtoState_cases hprocess
    obtain ⟨ec₀, hec₀, hdst₀⟩ := hst.classed i hi
    rw [Packet.identifyConn_eq pkt hst] at hidentify
    -- no connection owns the packet that opens one, and then its slot is the next free one
    cases howner : st.1.flows.owner P pkt with
    | none =>
      rw [howner] at hidentify
      obtain ⟨-, -, hnew⟩ := Option.bind_eq_some_iff.mp hidentify
      obtain rfl := Option.some.inj hnew
      rcases hpkt with ⟨-, hlast⟩ | ⟨hknown, -⟩
      · exact absurd hi (hlast ▸ lt_irrefl _)
      · exact absurd hknown Bool.true_eq_false_eq_False
    | some p =>
      obtain ⟨j, opposite⟩ := p
      rw [howner] at hidentify
      obtain rfl := Option.some.inj hidentify
      have hj : j = i := hconn
      have hdirection := FlowTable.direction_of_owner howner
      rw [hj] at hdirection
      have hhas : ∀ a, (st.1.flows.flow i).dstHas P a = true ↔ P.ecs.findEc a = some ec₀ :=
        fun a => dstHas_iff hec₀ hdst₀
      have hsrcIp : (st'.1.connState i).srcIp = pkt.srcIp := congrArg Flow.srcIp hflow
      have hdstIpEc : (st'.1.connState i).dstIpEc = some ec := congrArg Flow.dstIpEc hflow
      have hsrcPort : (st'.1.connState i).srcPort = pkt.srcPort := congrArg Flow.srcPort hflow
      have hdstPort : (st'.1.connState i).dstPort = pkt.dstPort := congrArg Flow.dstPort hflow
      have hfind : P.ecs.findEc pkt.dstIp = some ec := hec
      unfold Flow.direction at hdirection
      split_ifs at hdirection with _ hsame hopposite
      · obtain ⟨hsrc, hdst, hsport, hdport⟩ := hsame
        rw [hhas] at hdst
        have hends : (st'.1.connState i).ends = (st.1.connState i).ends := by
          unfold ConnState.ends
          rw [hsrcIp, hdstIpEc, hsrcPort, hdstPort, hsrc, hsport, hdport, ← hfind, hdst, hdst₀]
          rfl
        rw [hends]
        exact ⟨cd, he⟩
      · obtain ⟨hsrc, hdst, hsport, hdport⟩ := hopposite
        rw [hhas] at hdst
        refine ⟨!cd, he.opposite_trans ec ?_ hdstIpEc ?_ ?_ ?_⟩
        · rw [← hfind, hsrc]
          rfl
        · show P.ecs.findEc (st'.1.connState i).srcIp = (st.1.connState i).dstIpEc
          rw [hsrcIp, hdst, hdst₀]
        · exact hsrcPort.trans hdport
        · exact hdstPort.trans hsport

theorem chooseInjectionResults_turns (h : m.chooseInjectionResults P = some m')
    (hm : P.Addressed m) {i : Nat} (hi : i < m.numConns) :
    ∃ cd, (m.connState i).ends.Turns P (m'.connState i).ends cd := by
  obtain ⟨pkts, st, explicitDrop, hfold, hsettle⟩ := chooseInjectionResults_cases h
  have hst : P.Addressed st.1 ∧ i < st.1.numConns ∧
      ∃ cd, (m.connState i).ends.Turns P (st.1.connState i).ends cd := by
    refine foldlM_invariant (fun st => P.Addressed st.1 ∧ i < st.1.numConns ∧
      ∃ cd, (m.connState i).ends.Turns P (st.1.connState i).ends cd) pkts ?_
      ⟨hm, hi, false, Ends.turns_refl _⟩ hfold
    intro pkt _ st st' ⟨haddressed, hlt, cd, hturns⟩ hreceive
    refine ⟨receivePacket_addressed hreceive haddressed, ?_,
      receivePacket_turns hreceive haddressed hlt hturns⟩
    exact hlt.trans_le (receivePacket_samePacket hreceive hlt).1
  rw [(settleCurrent_keeps hsettle i).2]
  exact hst.2.2

theorem accepted_precedes (h : m.accepted P = some m') :
    m' = m.setCur { m.cur with executable := 0 } ∨
    m'.cur.protoState.isFirst = false ∧ ∃ changeDirection,
      SameFlow P m.cur m'.cur changeDirection := by
  rcases accepted_turns h with rfl | ⟨changeDirection, hnext, hfirst, -, hprecedes, -⟩
  · exact .inl rfl
  · rcases phaseTransition_packet hnext with ⟨-, rfl⟩ | ⟨hemu, hps, -⟩
    · exact .inl rfl
    · have hends := (phaseTransition_ends hnext hemu).2
      refine .inr ⟨hps ▸ hfirst, changeDirection, ?_, hends⟩
      rw [hps]
      exact hprecedes

end Model

namespace Ends

variable {P : Plankton} {opening : Ends} {c c' : ConnState}

def record (i : Nat) (opening : Ends) (l : Link Model Label) : Ends :=
  if (l.after.connState i).protoState.isFirst then (l.after.connState i).ends else opening

def ofRun (i : Nat) (s : Model) (tr : List (Link Model Label)) : Ends :=
  tr.foldl (record i) (s.connState i).ends

/-- The packets in the direction of requests have the ends of the first one, and those in the
direction of replies the mirrored ones. -/
structure OneFlow (P : Plankton) (opening : Ends) (c : ConnState) : Prop where
  request : c.protoState.isRequestDir = true → c.ends = opening
  reply : c.protoState.isReplyDir = true → opening.mirror P = some c.ends
  either : c.ends = opening ∨ opening.mirror P = some c.ends

theorem OneFlow.paired (h : OneFlow P opening c) (hopening : opening.Paired P) :
    c.ends.Paired P := by
  rcases h.either with hends | hends
  · rw [hends]
    exact hopening
  · exact hopening.mirror hends

theorem OneFlow.sameFlow (h : OneFlow P opening c) (hopening : opening.Paired P)
    {changeDirection : Bool} (hc : ConnState.SameFlow P c c' changeDirection) :
    OneFlow P opening c' := by
  obtain ⟨⟨hrequest, hreply⟩, hends⟩ := hc
  cases changeDirection with
  | false =>
    simp only [Ends.Goes, Bool.false_eq_true, if_false] at hrequest hreply hends
    refine ⟨fun hc => ?_, fun hc => ?_, ?_⟩
    · rw [hends]
      exact h.request (hrequest hc)
    · rw [hends]
      exact h.reply (hreply hc)
    · rw [hends]
      exact h.either
  | true =>
    simp only [Ends.Goes, if_true] at hrequest hreply hends
    refine ⟨fun hc => ?_, fun hc => ?_, ?_⟩
    · exact hopening.mirror_mirror (h.reply (hrequest hc)) hends
    · rw [← h.request (hreply hc)]
      exact hends
    · rcases h.either with hsame | hmirror
      · rw [hsame] at hends
        exact .inr hends
      · exact .inl (hopening.mirror_mirror hmirror hends)

end Ends

namespace Plankton

open Model ConnState

variable {P : Plankton} {V : Invariants} {m m' s t : Model} {tr : List (Link Model Label)}
  {results : List InjectionResult} {opening : Ends} {c c' : ConnState} {i : Nat}

/-- An answer of a middlebox does not open the connection anew, or opens it at a node with its first
packet. Its packets come from addresses that represent their classes, and where they go on or turn
around their states say so. -/
def KeepsFlow (P : Plankton) (i : Nat) (results : List InjectionResult) (m : Model) : Prop :=
  m.processId = .forwarding → m.cur.fwdMode = .chooseInjRes →
    ∀ m', P.control results m = some m' → i < m'.numConns →
      P.Represented (m'.connState i).srcIp ∧
      if i < m.numConns then
        ((m'.connState i).protoState.isFirst = true →
          (m'.connState i).protoState = (m.connState i).protoState) ∧
        ((∃ changeDirection, (m.connState i).ends.Goes P (m'.connState i).ends changeDirection) →
          ∃ changeDirection, SameFlow P (m.connState i) (m'.connState i) changeDirection)
      else (m'.connState i).protoState.isFirst = true ∧
        (m'.connState i).pktLocation ∈ P.network.nodes

/-- The connections are as they are configured: the source address is not known, and the source
is a node. -/
def ConfiguredConns (P : Plankton) (V : Invariants) : Prop :=
  ∀ k inv, V.current k = some inv → ∀ c ∈ inv.conns, c.srcIp = 0 ∧ c.srcNode ∈ P.network.nodes

structure Flows (P : Plankton) (opening : Ends) (c : ConnState) : Prop extends
    Ends.OneFlow P opening c where
  opening : opening.Paired P
  source : c.protoState.isFirst = true → c.Early → c.pktLocation ∈ P.network.nodes

theorem not_isReplyDir_of_isFirst {x : ProtoState} (h : x.isFirst = true) :
    x.isReplyDir = false := by
  simp only [ProtoState.isFirst, Bool.or_eq_true, beq_iff_eq, or_assoc] at h
  rcases h with rfl | rfl | rfl
  · rfl
  · rfl
  · rfl

theorem flows_of_first (hfirst : c.protoState.isFirst = true) (hends : c.ends.Paired P)
    (hsource : c.Early → c.pktLocation ∈ P.network.nodes) : P.Flows c.ends c := by
  refine ⟨⟨fun _ => rfl, fun hreply => ?_, .inl rfl⟩, hends, fun _ => hsource⟩
  rw [not_isReplyDir_of_isFirst hfirst] at hreply
  exact absurd hreply Bool.false_ne_true

theorem Flows.moves (h : P.Flows opening c) (hc : Moves P c c') :
    P.Flows (if c'.protoState.isFirst then c'.ends else opening) c' := by
  obtain ⟨srcIp, hends, hsrc⟩ := hc.ends
  have hpaired := h.toOneFlow.paired h.opening
  split_ifs with hfirst
  · rw [hc.protoState] at hfirst
    apply flows_of_first (hc.protoState ▸ hfirst)
    · refine ⟨?_, ?_⟩
      · rw [hends]
        exact hpaired.classed
      · rw [hends]
        rcases hsrc with rfl | ⟨-, hearly, howned⟩
        · exact hpaired.represented
        · exact represented_of_owned (howned (h.source hfirst hearly))
    · intro hearly
      obtain ⟨hearly', hloc⟩ := hc.early hearly
      rw [hloc]
      exact h.source hfirst hearly'
  · have hsame : c'.ends = c.ends := by
      rcases hsrc with rfl | ⟨hfirst', -⟩
      · exact hends
      · rw [hc.protoState] at hfirst
        exact absurd hfirst' hfirst
    refine ⟨h.toOneFlow.sameFlow h.opening (sameFlow_of_same hc.protoState hsame), h.opening, ?_⟩
    exact fun hfirst' => absurd hfirst' hfirst

theorem Flows.sameFlow (h : P.Flows opening c) {changeDirection : Bool}
    (hc : SameFlow P c c' changeDirection)
    (hsource : c'.protoState.isFirst = true → c'.Early → c'.pktLocation ∈ P.network.nodes) :
    P.Flows (if c'.protoState.isFirst then c'.ends else opening) c' := by
  have hflow := h.toOneFlow.sameFlow h.opening hc
  split_ifs with hfirst
  · exact flows_of_first hfirst (hflow.paired h.opening) (hsource hfirst)
  · exact ⟨hflow, h.opening, hsource⟩

theorem control_answer (h : P.control results m = some m') (hp : m.processId = .forwarding)
    (hmode : m.cur.fwdMode = .chooseInjRes) : ∃ m₁, m.chooseInjectionResults P = some m₁ ∧
      m'.connState = m₁.connState := by
  obtain ⟨m₁, hswitch, hrest⟩ := control_cases h
  obtain ⟨p, k, rfl⟩ := checkToSwitchProcess_eq hswitch
  rcases hrest with ⟨hp', -⟩ | ⟨-, h₁⟩ | ⟨hp', -⟩
  · exact absurd (hp.symm.trans hp') (by simp)
  · unfold execForwarding at h₁
    rw [hmode] at h₁
    exact ⟨m₁, h₁, rfl⟩
  · exact absurd (hp.symm.trans hp') (by simp)

theorem control_flows (h : P.control results m = some m') (hm : P.Addressed m)
    (hkeeps : P.KeepsFlow i results m) (hi : i < m'.numConns)
    (hflows : i < m.numConns → P.Flows opening (m.connState i)) :
    P.Flows (if (m'.connState i).protoState.isFirst then (m'.connState i).ends else opening)
      (m'.connState i) := by
  rcases control_moves h hi with ⟨hp, hmode, hpacket⟩ | ⟨hi₀, hmoves | ⟨hcur, -, hmode, hturn⟩⟩
  · obtain ⟨hrep, hstate⟩ := hkeeps hp hmode m' h hi
    split_ifs at hstate with hi₀
    · obtain ⟨hfirst, hstate⟩ := hstate
      have hflow := hflows hi₀
      obtain ⟨m₁, hanswer, hself⟩ := control_answer h hp hmode
      have hgoes : ∃ cd, (m.connState i).ends.Goes P (m'.connState i).ends cd := by
        obtain ⟨cd, hturns⟩ := chooseInjectionResults_turns hanswer hm hi₀
        rw [← hself] at hturns
        exact ⟨cd, hturns.goes (hflow.toOneFlow.paired hflow.opening) hrep⟩
      obtain ⟨cd, hsame⟩ := hstate hgoes
      apply hflow.sameFlow hsame
      -- a packet of the first phase has not moved
      intro hfirst' hearly
      rcases hpacket hi₀ with hpacket | hlt
      · obtain ⟨hearly', hloc⟩ := hpacket.early hearly
        rw [hloc]
        exact hflow.source (hpacket.protoState ▸ hfirst') hearly'
      · exact absurd (hfirst hfirst') hlt.ne'
    · obtain ⟨hfirst, hloc⟩ := hstate
      rw [if_pos hfirst]
      exact flows_of_first hfirst ⟨(control_addressed h hm).classed i hi, hrep⟩ fun _ => hloc
  · exact (hflows hi₀).moves hmoves
  · obtain ⟨m₁, haccepted, hself⟩ := hturn
    have hflow := hflows hi₀
    have hslot : m.connState i = m.cur := congrArg m.connState hcur
    rw [hslot] at hflow
    rw [hself]
    rcases accepted_precedes haccepted with rfl | ⟨hfirst, cd, hsame⟩
    · have hsame : SameFlow P m.cur { m.cur with executable := 0 } false :=
        sameFlow_of_same rfl rfl
      rw [cur_setCur]
      apply hflow.sameFlow hsame
      intro _ hearly
      simp [Early, hmode] at hearly
    · apply hflow.sameFlow hsame
      intro hfirst'
      rw [hfirst] at hfirst'
      exact absurd hfirst' Bool.false_ne_true

theorem init_flows {inv : CheckedInvariant} (hinv : ∀ c ∈ inv.conns, P.IsEc c.dstIpEc)
    (hconf : ∀ c ∈ inv.conns, c.srcIp = 0 ∧ c.srcNode ∈ P.network.nodes)
    (h : inv.Starts P m m') (hi : i < m'.numConns) :
    (m'.connState i).protoState.isFirst = true ∧
      P.Flows (m'.connState i).ends (m'.connState i) := by
  rw [h.numConns] at hi
  have hstarts := h.slot i _ (List.getElem?_eq_getElem hi)
  obtain ⟨hzero, hsrc⟩ := hconf _ (List.getElem_mem hi)
  have hfirst : (m'.connState i).protoState.isFirst = true := by
    rw [hstarts.protoState]
    unfold Connection.firstProtoState
    cases inv.conns[i].protocol <;> rfl
  refine ⟨hfirst, flows_of_first hfirst ⟨⟨_, hinv _ (List.getElem_mem hi), hstarts.dstIpEc⟩, ?_⟩ ?_⟩
  · show P.Represented (m'.connState i).srcIp
    rw [hstarts.srcIp, hzero]
    exact represented_zero
  · intro _
    rw [hstarts.pktLocation]
    exact hsrc

theorem step_flows {l : Link Model Label} (hV : P.OfClasses V) (hconf : P.ConfiguredConns V)
    (h : P.step V l.before l.act = some l.after) (haddressed : P.Addressed l.before)
    (hkeeps : P.KeepsFlow i l.act.results (l.before.setChoice l.act.choice))
    (hm : i < l.before.numConns → P.Flows opening (l.before.connState i))
    (hi : i < l.after.numConns) : P.Flows (Ends.record i opening l) (l.after.connState i) := by
  obtain ⟨-, m₁, m₂, r, hcontrol, hcheck, hafter⟩ := step_eq_some h
  obtain ⟨hnum, hmoves⟩ := checkViolation_moves (P := P) hcheck
  unfold Ends.record
  cases r with
  | true =>
    obtain ⟨m₃, h₃, hm₃⟩ := Option.map_eq_some_iff.mp (if_pos rfl ▸ hafter : P.reinit V m₂ = _)
    have hopened : (l.after.connState i).protoState.isFirst = true ∧
        P.Flows (l.after.connState i).ends (l.after.connState i) := by
      rw [← hm₃] at hi ⊢
      cases V with
      | single _ => simp [Invariants.reinit] at h₃
      | conditional invs | consistency invs =>
        obtain ⟨inv, hinv, hinit⟩ := Option.bind_eq_some_iff.mp h₃
        have hfresh := init_flows (i := i) (hV _ inv hinv) (hconf _ inv hinv)
          (CheckedInvariant.starts_of_init hinit) hi
        exact hfresh
    rw [if_pos hopened.1]
    exact hopened.2
  | false =>
    have hm₂ : m₂ = l.after := Option.some.inj hafter
    rw [hm₂] at hnum hmoves
    have haddressed' : P.Addressed (l.before.setChoice l.act.choice) :=
      ⟨haddressed.conn, haddressed.classed, haddressed.legal⟩
    have hflow := control_flows hcontrol haddressed' hkeeps (hnum ▸ hi) hm
    have hchecked := hflow.moves (hmoves i)
    rw [(hmoves i).protoState] at hchecked ⊢
    split_ifs at hchecked ⊢ with hfirst
    · exact hchecked
    · exact hchecked

theorem run_flows (hV : P.OfClasses V) (hconns : V.HasConns) (hconf : P.ConfiguredConns V)
    (hs : P.initModel V = some s) (h : Run (P.step V) s tr t)
    (hkeeps : ∀ l ∈ tr, P.KeepsFlow i l.act.results (l.before.setChoice l.act.choice))
    (hi : i < t.numConns) : P.Flows (Ends.ofRun i s tr) (t.connState i) := by
  obtain ⟨-, -, inv, m₀, hinv, -, hstarts⟩ := initModel_cases hs
  have hall := h.foldl_invariant (Ends.record i)
    (fun opening m => P.Addressed m ∧ (i < m.numConns → P.Flows opening (m.connState i)))
    ⟨run_addressed hV hconns hs (.nil s), fun hi =>
      (init_flows (hV 0 inv hinv) (hconf 0 inv hinv) hstarts hi).2⟩
    fun l hl hstep opening hm => ⟨step_addressed hV hconns hstep hm.1, fun hi =>
      step_flows hV hconf hstep hm.1 (hkeeps l hl) hm.2 hi⟩
  exact hall.2 hi

/-- Two changes of direction restore the destination and the ports of every connection, and replace
the source by the representative of its class: so they restore it exactly if it is that one, as the
unknown address and the addresses of nodes are. In every run a connection keeps its flow, where the
answers of middleboxes do. -/
theorem direction_changes {P : Plankton} {V : Invariants} {s t : Model}
    {tr : List (Link Model Label)} {i : Nat} (hV : P.OfClasses V) (hconns : V.HasConns)
    (hs : P.initModel V = some s) (h : Run (P.step V) s tr t) (hi : i < t.numConns) :
    (∀ (m₁ m₂ m₃ : Model) (next₁ next₂ : ProtoState),
      (t.setConn i).phaseTransition P next₁ true = some m₁ →
        (P.network.node (t.connState i).pktLocation).isEmulated = false →
          m₂.cur.ends = m₁.cur.ends → m₂.phaseTransition P next₂ true = some m₃ →
            (P.network.node m₂.cur.pktLocation).isEmulated = false →
              m₃.cur.dstIpEc = (t.connState i).dstIpEc ∧
              m₃.cur.srcPort = (t.connState i).srcPort ∧
              m₃.cur.dstPort = (t.connState i).dstPort ∧
              P.representative (t.connState i).srcIp = some m₃.cur.srcIp ∧
              (m₃.cur.srcIp = (t.connState i).srcIp ↔ P.Represented (t.connState i).srcIp)) ∧
    (∀ a, a = 0 ∨ P.Owned a → P.Represented a) ∧
    (P.ConfiguredConns V →
      (∀ l ∈ tr, P.KeepsFlow i l.act.results (l.before.setChoice l.act.choice)) →
        (Ends.ofRun i s tr).OneFlow P (t.connState i)) := by
  refine ⟨?_, ?_, ?_⟩
  · intro m₁ m₂ m₃ next₁ next₂ h₁ hemu₁ hsame h₂ hemu₂
    have hclassed : (t.connState i).ends.Classed P := (run_addressed hV hconns hs h).classed i hi
    have hmirror₁ : (t.connState i).ends.mirror P = some m₁.cur.ends :=
      (phaseTransition_ends h₁ hemu₁).2
    have hmirror₂ : m₂.cur.ends.mirror P = some m₃.cur.ends := (phaseTransition_ends h₂ hemu₂).2
    rw [hsame] at hmirror₂
    obtain ⟨hrep, hends⟩ := Ends.mirror_mirror hclassed hmirror₁ hmirror₂
    exact ⟨congrArg Ends.dstIpEc hends, congrArg Ends.srcPort hends, congrArg Ends.dstPort hends,
      hrep, (represented_iff hrep).symm⟩
  · rintro a (rfl | ha)
    · exact represented_zero
    · exact represented_of_owned ha
  · intro hconf hkeeps
    exact (run_flows hV hconns hconf hs h hkeeps hi).toOneFlow

theorem direction_changes_request : ∃ s t tr,
    (pairPlankton false).initModel (unchecked [pairConn false .tcp]) = some s ∧
      Run ((pairPlankton false).step (unchecked [pairConn false .tcp])) s tr t ∧
        (t.connState 0).protoState = psTcpL7ReqA ∧
          (Ends.ofRun 0 s tr).mirror (pairPlankton false) = some (t.connState 0).ends := by
  have hrun : (((pairPlankton false).initModel (unchecked [pairConn false .tcp])).bind fun s =>
      (execute ((pairPlankton false).step (unchecked [pairConn false .tcp])) s
        (List.replicate 20 go)).map fun r => (r.2.numConns, (r.2.connState 0).protoState,
          r.1.all fun l => decide (l.before.cur.fwdMode ≠ .chooseInjRes))) =
      some (1, psTcpL7ReqA, true) := by
    decide +kernel
  obtain ⟨s, hs, hrun⟩ := Option.bind_eq_some_iff.mp hrun
  obtain ⟨⟨tr, t⟩, hexec, hr⟩ := Option.map_eq_some_iff.mp hrun
  simp only [Prod.mk.injEq] at hr
  obtain ⟨hnum, hps, hmodes⟩ := hr
  have hV : (pairPlankton false).OfClasses (unchecked [pairConn false .tcp]) := by
    intro k inv hinv c hc
    obtain rfl := Option.some.inj hinv
    obtain rfl := List.mem_singleton.mp hc
    exact pairConn_isEc false .tcp
  have hconf : (pairPlankton false).ConfiguredConns (unchecked [pairConn false .tcp]) := by
    intro k inv hinv c hc
    obtain rfl := Option.some.inj hinv
    obtain rfl := List.mem_singleton.mp hc
    exact ⟨rfl, List.mem_cons_self ..⟩
  have hkeeps : ∀ l ∈ tr, (pairPlankton false).KeepsFlow 0 l.act.results
      (l.before.setChoice l.act.choice) := by
    intro l hl _ hmode
    exact absurd hmode (of_decide_eq_true (List.all_eq_true.mp hmodes l hl))
  obtain ⟨-, -, hflow⟩ := direction_changes (i := 0) hV unchecked_hasConns hs
    (run_of_execute hexec) (hnum ▸ Nat.one_pos)
  have hreply := (hflow hconf hkeeps).reply (by rw [hps]; decide)
  exact ⟨s, t, tr, hs, run_of_execute hexec, hps, hreply⟩

def gatewayOpening : Packet :=
  { gatewayAnswer 0x02 with
    srcIp := 0x0A00004D#32
    srcPort := 5000#16
    dstPort := 80#16
    ack := 0#32 }

/-- The packets of the connection that the middlebox opens get another source. -/
theorem not_direction_changes : ¬ ∀ (P : Plankton) (V : Invariants) (s t m₁ m₂ m₃ : Model)
    (tr : List (Link Model Label)) (i : Nat) (next₁ next₂ : ProtoState), P.OfClasses V →
      V.HasConns → P.initModel V = some s → Run (P.step V) s tr t → i < t.numConns →
        (t.setConn i).phaseTransition P next₁ true = some m₁ →
          (P.network.node (t.connState i).pktLocation).isEmulated = false →
            m₂.cur.ends = m₁.cur.ends → m₂.phaseTransition P next₂ true = some m₃ →
              (P.network.node m₂.cur.pktLocation).isEmulated = false →
                m₃.cur.ends = (t.connState i).ends := by
  intro h
  have hrun : ((gatewayPlankton.initModel (unchecked [gatewayConn])).bind fun s =>
      (execute (gatewayPlankton.step (unchecked [gatewayConn])) s
        (gatewayInjection ⟨[gatewayOpening], false⟩ ++ List.replicate 7 go)).bind fun r =>
          ((r.2.setConn 1).phaseTransition gatewayPlankton psTcpInit2 true).bind fun m₁ =>
            (m₁.phaseTransition gatewayPlankton psTcpInit3 true).map fun m₃ =>
              (r.2.numConns, (r.2.connState 1).pktLocation, m₁.cur.pktLocation,
                decide (m₃.cur.srcIp = (r.2.connState 1).srcIp))) = some (2, 0, 0, false) := by
    decide +kernel
  obtain ⟨s, hs, hrun⟩ := Option.bind_eq_some_iff.mp hrun
  obtain ⟨⟨tr, t⟩, hexec, hrun⟩ := Option.bind_eq_some_iff.mp hrun
  obtain ⟨m₁, h₁, hrun⟩ := Option.bind_eq_some_iff.mp hrun
  obtain ⟨m₃, h₃, hr⟩ := Option.map_eq_some_iff.mp hrun
  simp only [Prod.mk.injEq] at hr
  obtain ⟨hnum, hloc, hloc₁, hsrc⟩ := hr
  have hnode : (gatewayPlankton.network.node 0).isEmulated = false := rfl
  have hends := h gatewayPlankton (unchecked [gatewayConn]) s t m₁ m₁ m₃ tr 1 psTcpInit2 psTcpInit3
    gateway_ofClasses unchecked_hasConns hs (run_of_execute hexec) (hnum ▸ Nat.one_lt_two) h₁
    (hloc ▸ hnode) rfl h₃ (hloc₁ ▸ hnode)
  exact of_decide_eq_false hsrc (congrArg Ends.srcIp hends)

end Plankton

end Neo
