import Neo.Process.Addressed

/-! Of each connection only its flow matters for the packets that are received. A table of flows
says which packets fit, and what they leave there. -/

namespace Neo

namespace Packet

/-- A packet as it is read from a frame: of TCP with its flags, of UDP or of an echo. -/
structure FromWire (pkt : Packet) : Prop where
  intf : pkt.intf ≠ none
  protoState : (∃ flags < 0x800, pkt.protoState = 0x800 + flags) ∨ pkt.protoState = psUdpReq ∨
    pkt.protoState = psIcmpEchoReq ∨ pkt.protoState = psIcmpEchoRep

def hasData (pkt : Packet) : Bool := 0 < Payload.size pkt.payload

inductive Opens (pkt : Packet) : ProtoState → Prop
  | syn : pkt.protoState = 0x800 + thSyn → pkt.seq = 0 → pkt.ack = 0 → Opens pkt psTcpInit1
  | datagram : pkt.protoState = psUdpReq → Opens pkt psUdpReq
  | echo : pkt.protoState = psIcmpEchoReq → Opens pkt psIcmpEchoReq

end Packet

inductive AckMeans : (opposite data : Bool) → (old new : ProtoState) → Prop
  | init {data} : AckMeans true data psTcpInit2 psTcpInit3
  | initAgain : AckMeans false false psTcpInit3 psTcpInit3
  | req : AckMeans false true psTcpInit3 psTcpL7Req
  | reqAgain : AckMeans false true psTcpL7Req psTcpL7Req
  | reqAck : AckMeans true false psTcpL7Req psTcpL7ReqA
  | reqAckAgain : AckMeans false false psTcpL7ReqA psTcpL7ReqA
  | rep : AckMeans false true psTcpL7ReqA psTcpL7Rep
  | repAtOnce : AckMeans true true psTcpL7Req psTcpL7Rep
  | repAgain : AckMeans false true psTcpL7Rep psTcpL7Rep
  | repAck : AckMeans true false psTcpL7Rep psTcpL7RepA
  | repAckAgain : AckMeans false false psTcpL7RepA psTcpL7RepA
  | term {data} : AckMeans true data psTcpTerm2 psTcpTerm3
  | termAgain : AckMeans false false psTcpTerm3 psTcpTerm3

inductive FinMeans : (opposite : Bool) → (old new : ProtoState) → Prop
  | init {opposite} : FinMeans opposite psTcpInit3 psTcpTerm1
  | reqAck {opposite} : FinMeans opposite psTcpL7ReqA psTcpTerm1
  | repAck {opposite} : FinMeans opposite psTcpL7RepA psTcpTerm1
  | again : FinMeans false psTcpTerm1 psTcpTerm1
  | answer : FinMeans true psTcpTerm1 psTcpTerm2
  | answerAgain : FinMeans false psTcpTerm2 psTcpTerm2

/-- The state a packet carries on a connection in a given state. -/
inductive Packet.Carries (pkt : Packet) (opposite : Bool) (old : ProtoState) : ProtoState → Prop
  | syn : pkt.protoState = 0x800 + thSyn → Carries pkt opposite old psTcpInit1
  | synAck : pkt.protoState = 0x800 + (thSyn + thAck) → Carries pkt opposite old psTcpInit2
  | ack {new} : pkt.protoState = 0x800 + thAck ∨ pkt.protoState = 0x800 + (thPush + thAck) →
      AckMeans opposite pkt.hasData old new → Carries pkt opposite old new
  | fin {new} : pkt.protoState = 0x800 + (thFin + thAck) → FinMeans opposite old new →
      Carries pkt opposite old new
  | datagram : pkt.protoState = psUdpReq → opposite = false → Carries pkt opposite old old
  | answer : pkt.protoState = psUdpReq → opposite = true → old = psUdpReq →
      Carries pkt opposite old psUdpRep
  | echo {new} : pkt.protoState = new → new.isIcmpEcho = true → Carries pkt opposite old new

/-- What matters of a connection for the packets that are received. -/
structure Flow where
  srcIp : IPv4Address
  dstIpEc : Option EcPtr
  srcPort : BitVec 16
  dstPort : BitVec 16
  protoState : ProtoState
  seq : BitVec 32
  ack : BitVec 32
  payload : Option Payload

def ConnState.flow (c : ConnState) : Flow where
  srcIp := c.srcIp
  dstIpEc := c.dstIpEc
  srcPort := c.srcPort
  dstPort := c.dstPort
  protoState := c.protoState
  seq := c.seq
  ack := c.ack
  payload := c.payload

def Packet.flow (pkt : Packet) (protoState : ProtoState) (ec : EcPtr) : Flow where
  srcIp := pkt.srcIp
  dstIpEc := some ec
  srcPort := pkt.srcPort
  dstPort := pkt.dstPort
  protoState := protoState
  seq := pkt.seq
  ack := pkt.ack
  payload := pkt.payload

namespace Flow

variable (P : Plankton) (f : Flow) (pkt : Packet)

def dstHas (addr : IPv4Address) : Bool :=
  f.dstIpEc.any fun ec => EqClass.contains (P.ecs.ranges ec) addr

def direction : Option Bool :=
  if pkt.protoState.toProto ≠ f.protoState.toProto then none
  else if pkt.srcIp = f.srcIp ∧ f.dstHas P pkt.dstIp ∧ pkt.srcPort = f.srcPort ∧
      pkt.dstPort = f.dstPort then some false
  else if pkt.dstIp = f.srcIp ∧ f.dstHas P pkt.srcIp ∧ pkt.dstPort = f.srcPort ∧
      pkt.srcPort = f.dstPort then some true
  else none

theorem proto_of_direction {P : Plankton} {f : Flow} {pkt : Packet} {opposite : Bool}
    (h : f.direction P pkt = some opposite) : pkt.protoState.toProto = f.protoState.toProto := by
  unfold direction at h
  by_contra hne
  rw [if_pos hne] at h
  simp at h

def nextSeq : BitVec 32 := Packet.seqAfter f.protoState f.payload f.seq

def Expects (opposite : Bool) (new : ProtoState) : Prop :=
  if new = f.protoState then pkt.seq = f.seq ∧ pkt.ack = f.ack ∧ pkt.payload = f.payload
  else if opposite then pkt.seq = f.ack ∧ pkt.ack = f.nextSeq
  else pkt.seq = f.nextSeq ∧ pkt.ack = f.ack

end Flow

structure FlowTable where
  flow : Nat → Flow
  numConns : Nat
  conn : Nat

def Model.flows (m : Model) : FlowTable := ⟨fun i => (m.connState i).flow, m.numConns, m.conn⟩

namespace FlowTable

variable (P : Plankton) (t : FlowTable)

/-- The connection that a packet belongs to: the one that is set, or else the first. -/
def owner (pkt : Packet) : Option (Nat × Bool) :=
  (t.conn :: List.range t.numConns).findSome? fun i =>
    ((t.flow i).direction P pkt).map fun opposite => (i, opposite)

def setFlow (i : Nat) (f : Flow) : FlowTable := { t with flow := Function.update t.flow i f }

theorem direction_of_owner {P : Plankton} {t : FlowTable} {pkt : Packet} {i : Nat} {opposite : Bool}
    (h : t.owner P pkt = some (i, opposite)) : (t.flow i).direction P pkt = some opposite := by
  obtain ⟨j, -, hj⟩ := List.exists_of_findSome?_eq_some h
  obtain ⟨opposite', hdir, heq⟩ := Option.map_eq_some_iff.mp hj
  obtain ⟨rfl, rfl⟩ := Prod.mk.inj heq
  exact hdir

inductive Takes (pkt : Packet) : FlowTable → Prop
  | opens {new ec} : t.owner P pkt = none → t.numConns < Packet.maxConns → pkt.Opens new →
      P.ecs.findEc pkt.dstIp = some ec →
      Takes pkt { t.setFlow t.numConns (pkt.flow new ec) with numConns := t.numConns + 1 }
  | late {i opposite new} : t.owner P pkt = some (i, opposite) →
      pkt.Carries opposite (t.flow i).protoState new → new < (t.flow i).protoState → Takes pkt t
  | goesOn {i opposite new ec} : t.owner P pkt = some (i, opposite) →
      pkt.Carries opposite (t.flow i).protoState new → (t.flow i).protoState ≤ new →
      (new.isTcp = true → (t.flow i).Expects pkt opposite new) →
      P.ecs.findEc pkt.dstIp = some ec → Takes pkt (t.setFlow i (pkt.flow new ec))

inductive TakesAll : FlowTable → List Packet → Prop
  | nil (t₀ : FlowTable) : TakesAll t₀ []
  | cons {t₀ t₁ : FlowTable} {pkt : Packet} {pkts : List Packet} :
      Takes P t₀ pkt t₁ → TakesAll t₁ pkts → TakesAll t₀ (pkt :: pkts)

end FlowTable

namespace Packet

variable {P : Plankton} {m : Model} {pkt pkt' : Packet}

def ofConn (pkt : Packet) (isNew opposite : Bool) (conn : Nat) : Packet :=
  { pkt with isNew := isNew, oppositeDir := opposite, conn := conn }

theorem opens_ofConn {isNew opposite : Bool} {conn : Nat} {new : ProtoState} :
    (pkt.ofConn isNew opposite conn).Opens new ↔ pkt.Opens new := by
  constructor
  · intro h
    cases h with
    | syn hps hseq hack => exact .syn hps hseq hack
    | datagram hps => exact .datagram hps
    | echo hps => exact .echo hps
  · intro h
    cases h with
    | syn hps hseq hack => exact .syn hps hseq hack
    | datagram hps => exact .datagram hps
    | echo hps => exact .echo hps

theorem carries_ofConn {isNew opposite' opposite : Bool} {conn : Nat} {old new : ProtoState} :
    (pkt.ofConn isNew opposite' conn).Carries opposite old new ↔ pkt.Carries opposite old new := by
  constructor
  · intro h
    cases h with
    | syn hps => exact .syn hps
    | synAck hps => exact .synAck hps
    | ack hps hmeans => exact .ack hps hmeans
    | fin hps hmeans => exact .fin hps hmeans
    | datagram hps hopp => exact .datagram hps hopp
    | answer hps hopp hold => exact .answer hps hopp hold
    | echo hps hecho => exact .echo hps hecho
  · intro h
    cases h with
    | syn hps => exact .syn hps
    | synAck hps => exact .synAck hps
    | ack hps hmeans => exact .ack hps hmeans
    | fin hps hmeans => exact .fin hps hmeans
    | datagram hps hopp => exact .datagram hps hopp
    | answer hps hopp hold => exact .answer hps hopp hold
    | echo hps hecho => exact .echo hps hecho

theorem FromWire.ofConn (h : pkt.FromWire) (isNew opposite : Bool) (conn : Nat) :
    (pkt.ofConn isNew opposite conn).FromWire := ⟨h.intf, h.protoState⟩

theorem FromWire.isEmpty_eq (h : pkt.FromWire) : pkt.isEmpty = false := by
  have hintf : (pkt.intf == none) = false := beq_eq_false_iff_ne.mpr h.intf
  simp [isEmpty, hintf]

theorem isFlags_add {flags : Nat} (h : flags < 0x800) :
    ProtoState.isFlags (0x800 + flags) = true := by
  have hbit : (2 ^ 11 + flags).testBit 11 = true := by
    rw [Nat.testBit_two_pow_add_eq, Nat.testBit_lt_two_pow h]
    rfl
  have hand : (0x800 + flags) &&& 0x800 ≠ 0 := by
    intro hzero
    have hfalse := congrArg (Nat.testBit · 11) hzero
    simp only [Nat.testBit_and, Nat.zero_testBit, Bool.and_eq_false_iff] at hfalse
    rcases hfalse with hfalse | hfalse
    · exact absurd (hbit.symm.trans hfalse) (by decide)
    · exact absurd hfalse (by decide)
  simpa [ProtoState.isFlags] using hand

theorem convertAck_eq_some {old new : ProtoState} :
    pkt.convertAck old = some new ↔ AckMeans pkt.oppositeDir pkt.hasData old new := by
  have hdata : pkt.hasData = decide (0 < Payload.size pkt.payload) := rfl
  generalize ho : pkt.oppositeDir = opposite
  generalize hd : pkt.hasData = data
  constructor
  · intro h
    unfold convertAck at h
    dsimp only at h
    split at h
    all_goals
      cases opposite <;> cases data <;>
        simp_all [assert, Nat.pos_iff_ne_zero] <;> subst h <;> constructor
  · intro h
    cases h <;> simp_all [convertAck, assert, Nat.pos_iff_ne_zero]

theorem convertFin_eq_some {old new : ProtoState} :
    pkt.convertFin old = some new ↔ FinMeans pkt.oppositeDir old new := by
  generalize ho : pkt.oppositeDir = opposite
  constructor
  · intro h
    unfold convertFin at h
    split at h
    all_goals
      cases opposite <;> simp_all [assert] <;> subst h <;> constructor
  · intro h
    cases h <;> simp_all [convertFin, assert]

theorem convertFlags_eq_some {old new : ProtoState} {flags : Nat}
    (h : pkt.protoState = 0x800 + flags) :
    pkt.convertFlags flags old = some new ↔ pkt.Carries pkt.oppositeDir old new := by
  have hflags : ∀ {k}, pkt.protoState = 0x800 + k → flags = k := by
    intro k hk
    exact Nat.add_left_cancel (h.symm.trans hk)
  constructor
  · intro hconv
    unfold convertFlags at hconv
    split_ifs at hconv with hsyn hsynAck hack hfin
    · obtain rfl := Option.some.inj hconv
      exact .syn (hsyn ▸ h)
    · obtain rfl := Option.some.inj hconv
      exact .synAck (hsynAck ▸ h)
    · apply Carries.ack
      · exact hack.imp (fun hflag => by rw [h, hflag]) fun hflag => by rw [h, hflag]
      · exact convertAck_eq_some.mp hconv
    · exact .fin (hfin ▸ h) (convertFin_eq_some.mp hconv)
  · intro hcarries
    cases hcarries with
    | syn hps =>
      rw [hflags hps]
      rfl
    | synAck hps =>
      rw [hflags hps]
      rfl
    | ack hps hmeans =>
      rcases hps with hps | hps
      · rw [hflags hps]
        exact convertAck_eq_some.mpr hmeans
      · rw [hflags hps]
        exact convertAck_eq_some.mpr hmeans
    | fin hps hmeans =>
      rw [hflags hps]
      exact convertFin_eq_some.mpr hmeans
    | datagram hps | answer hps =>
      -- the codes of the flags start behind those of the phases
      rw [h] at hps
      exact absurd hps (by show (2048 + flags : Nat) ≠ 11; omega)
    | echo hps hecho =>
      rw [← hps, h] at hecho
      simp only [ProtoState.isIcmpEcho, Bool.and_eq_true, decide_eq_true_eq] at hecho
      have hle : (2048 + flags : Nat) ≤ 14 := hecho.2
      omega

theorem carries_datagram {opposite : Bool} {old new : ProtoState} (h : pkt.protoState = psUdpReq) :
    pkt.Carries opposite old new ↔
      (opposite = false ∧ new = old) ∨ opposite = true ∧ old = psUdpReq ∧ new = psUdpRep := by
  constructor
  · intro hcarries
    cases hcarries with
    | syn hps | synAck hps | fin hps => exact absurd (h.symm.trans hps) (by decide)
    | ack hps => rcases hps with hps | hps <;> exact absurd (h.symm.trans hps) (by decide)
    | datagram _ hopp => exact .inl ⟨hopp, rfl⟩
    | answer _ hopp hold => exact .inr ⟨hopp, hold, rfl⟩
    | echo hps hecho =>
      rw [← hps, h] at hecho
      exact absurd hecho (by decide)
  · intro hcase
    rcases hcase with ⟨hopp, rfl⟩ | ⟨hopp, hold, rfl⟩
    · exact .datagram h hopp
    · exact .answer h hopp hold

theorem carries_echo {opposite : Bool} {old new : ProtoState}
    (h : pkt.protoState = psIcmpEchoReq ∨ pkt.protoState = psIcmpEchoRep) :
    pkt.Carries opposite old new ↔ new = pkt.protoState := by
  constructor
  · intro hcarries
    cases hcarries with
    | syn hps | synAck hps | fin hps | datagram hps | answer hps =>
      rw [hps] at h
      exact absurd h (by decide)
    | ack hps =>
      rcases hps with hps | hps <;> rw [hps] at h <;> exact absurd h (by decide)
    | echo hps => exact hps.symm
  · intro hnew
    apply Carries.echo hnew.symm
    rcases h with h | h <;> rw [hnew, h] <;> rfl

theorem convertProtoState_known {old : ProtoState} (h : pkt.FromWire) (hnew : pkt.isNew = false) :
    pkt.convertProtoState old = some pkt' ↔
      ∃ new, pkt.Carries pkt.oppositeDir old new ∧ pkt' = { pkt with protoState := new } := by
  rcases h.protoState with ⟨flags, hlt, hps⟩ | hudp | hecho
  · have hconv : pkt.convertProtoState old =
        (pkt.convertFlags flags old).bind fun new => some { pkt with protoState := new } := by
      unfold convertProtoState
      rw [hps, if_pos (isFlags_add hlt), hnew, Nat.add_sub_cancel_left]
      rfl
    rw [hconv, Option.bind_eq_some_iff]
    apply exists_congr
    intro new
    rw [convertFlags_eq_some hps, Option.some.injEq, eq_comm (a := pkt')]
  · -- a datagram: the direction tells the request from the reply
    have hconv : pkt.convertProtoState old =
        if pkt.oppositeDir then
          (assert (old + 1 == psUdpRep)).bind fun _ => some { pkt with protoState := old + 1 }
        else some { pkt with protoState := old } := by
      unfold convertProtoState
      rw [hudp, if_neg (by decide), if_pos (by decide), hnew]
      rfl
    rw [hconv]
    simp only [carries_datagram hudp]
    cases hopp : pkt.oppositeDir with
    | false => simp [eq_comm]
    | true =>
      simp only [if_true, Option.bind_eq_some_iff, assert_eq_some, beq_iff_eq, reduceCtorEq,
        false_and, true_and, false_or, Option.some.injEq]
      constructor
      · intro ⟨_, hold, heq⟩
        obtain rfl : old = psUdpReq := Nat.succ.inj hold
        exact ⟨_, ⟨rfl, rfl⟩, heq.symm⟩
      · intro ⟨new, ⟨hold, hnew'⟩, heq⟩
        subst hold hnew'
        exact ⟨(), rfl, heq.symm⟩
  · have hconv : pkt.convertProtoState old = some pkt := by
      unfold convertProtoState
      rcases hecho with hecho | hecho
      · rw [hecho, if_neg (by decide), if_neg (by decide), if_pos (by decide), hnew]
        rfl
      · rw [hecho, if_neg (by decide), if_neg (by decide), if_pos (by decide), hnew]
        rfl
    rw [hconv]
    simp only [carries_echo hecho, exists_eq_left]
    exact ⟨fun heq => (Option.some.inj heq).symm, fun heq => congrArg some heq.symm⟩

def inState (pkt : Packet) (new : ProtoState) (nextPhase : Bool) : Packet :=
  { pkt with protoState := new, nextPhase := nextPhase }

theorem processProtoState_known (h : pkt.FromWire) (hnew : pkt.isNew = false) :
    pkt.processProtoState m = some pkt' ↔
      ∃ new, pkt.Carries pkt.oppositeDir (m.connState pkt.conn).protoState new ∧
        pkt' = if new = (m.connState pkt.conn).protoState then pkt.inState new false
          else if (m.connState pkt.conn).protoState < new then pkt.inState new true
          else pkt.inState psInvalid pkt.nextPhase := by
  have hnot : ¬ pkt.isNew = true := by
    simp [hnew]
  simp only [processProtoState, Option.bind_eq_bind, Option.bind_eq_some_iff,
    convertProtoState_known h hnew]
  constructor
  · rintro ⟨pkt₁, ⟨new, hcarries, heq⟩, hstate⟩
    subst heq
    refine ⟨new, hcarries, ?_⟩
    dsimp only at hstate
    rw [if_neg hnot] at hstate
    split_ifs at hstate ⊢
    all_goals exact (Option.some.inj hstate).symm
  · rintro ⟨new, hcarries, heq⟩
    refine ⟨_, ⟨new, hcarries, rfl⟩, ?_⟩
    dsimp only
    rw [if_neg hnot, heq]
    split_ifs
    all_goals rfl

theorem checkSeqAck_known (m : Model) (pkt : Packet) (new : ProtoState) (hnew : pkt.isNew = false) :
    ((pkt.inState new (decide (new ≠ (m.connState pkt.conn).protoState))).checkSeqAck m).isSome =
        true ↔
      (new.isTcp = true → (m.connState pkt.conn).flow.Expects pkt pkt.oppositeDir new) := by
  have hassert : ∀ p : Bool, (assert p).isSome = true ↔ p = true := by
    intro p
    cases p <;> simp [assert]
  unfold checkSeqAck
  by_cases htcp : new.isTcp = true
  · simp only [inState, htcp, Bool.not_true, Bool.false_eq_true, if_false, hnew, true_imp_iff]
    unfold Flow.Expects
    by_cases hsame : new = (m.connState pkt.conn).protoState
    · simp [hsame, hassert, ConnState.flow, and_assoc]
    · cases hopp : pkt.oppositeDir <;>
        simp [hsame, hassert, ConnState.flow, Flow.nextSeq]
  · simp [inState, htcp]

theorem checkSeqAck_notTcp (h : pkt.protoState.isTcp = false) :
    (pkt.checkSeqAck m).isSome = true := by
  simp [checkSeqAck, h]

theorem processProtoState_first (new : ProtoState) (hnew : pkt.isNew = true)
    (h : pkt.convertProtoState (m.connState pkt.conn).protoState =
      some { pkt with protoState := new }) (hfirst : new.isFirst = true) :
    pkt.processProtoState m = some (pkt.inState new false) := by
  simp only [processProtoState, Option.bind_eq_bind, h, Option.bind_some]
  rw [if_pos hnew, hfirst]
  rfl

theorem processProtoState_none
    (h : pkt.convertProtoState (m.connState pkt.conn).protoState = none) :
    pkt.processProtoState m = none := by
  simp only [processProtoState, Option.bind_eq_bind, h, Option.bind_none]

theorem processProtoState_flags {flags : Nat} (hlt : flags < 0x800)
    (hps : pkt.protoState = 0x800 + flags) (hnew : pkt.isNew = true) :
    pkt.processProtoState m =
      if flags = thSyn then some (pkt.inState psTcpInit1 false) else none := by
  have hconv : pkt.convertProtoState (m.connState pkt.conn).protoState =
      (assert (flags == thSyn)).bind fun _ =>
        (pkt.convertFlags flags (m.connState pkt.conn).protoState).bind fun new =>
          some { pkt with protoState := new } := by
    unfold convertProtoState
    rw [hps, if_pos (isFlags_add hlt), hnew, Nat.add_sub_cancel_left]
    rfl
  split_ifs with hsyn
  · apply processProtoState_first psTcpInit1 hnew
    · rw [hconv, hsyn]
      rfl
    · rfl
  · apply processProtoState_none
    rw [hconv, beq_eq_false_iff_ne.mpr hsyn]
    rfl

theorem checkSeqAck_syn (hnew : pkt.isNew = true) :
    ((pkt.inState psTcpInit1 false).checkSeqAck m).isSome = true ↔ pkt.seq = 0 ∧ pkt.ack = 0 := by
  have htcp : ProtoState.isTcp psTcpInit1 = true := by
    decide
  unfold checkSeqAck
  simp only [inState, htcp, hnew]
  by_cases hzero : pkt.seq = 0 ∧ pkt.ack = 0
  · simp [hzero, assert]
  · simp only [assert, Bool.and_eq_true, beq_iff_eq]
    simp

theorem opens_flags_iff {flags : Nat} {new : ProtoState} (hlt : flags < 0x800)
    (hps : pkt.protoState = 0x800 + flags) :
    pkt.Opens new ↔ flags = thSyn ∧ pkt.seq = 0 ∧ pkt.ack = 0 ∧ new = psTcpInit1 := by
  -- a state that still holds flags is none of the states that are no flags
  have hne : ∀ p, ProtoState.isFlags p = false → pkt.protoState ≠ p := fun p hp heq => by
    rw [← heq, hps, isFlags_add hlt] at hp
    exact absurd hp (by decide)
  constructor
  · intro hopens
    cases hopens with
    | syn hps' hseq hack => exact ⟨Nat.add_left_cancel (hps.symm.trans hps'), hseq, hack, rfl⟩
    | datagram hps' => exact absurd hps' (hne _ (by decide))
    | echo hps' => exact absurd hps' (hne _ (by decide))
  · rintro ⟨rfl, hseq, hack, rfl⟩
    exact .syn hps hseq hack

theorem processProtoState_new (pkt' : Packet) (h : pkt.FromWire) (hnew : pkt.isNew = true) :
    (pkt.processProtoState m = some pkt' ∧ (pkt'.checkSeqAck m).isSome = true) ↔
      ∃ new, pkt.Opens new ∧ pkt' = pkt.inState new false := by
  rcases h.protoState with ⟨flags, hlt, hps⟩ | hudp | hreq | hrep
  · rw [processProtoState_flags hlt hps hnew]
    simp only [opens_flags_iff hlt hps]
    constructor
    · rintro ⟨heq, hsome⟩
      split_ifs at heq with hsyn
      obtain rfl := Option.some.inj heq
      obtain ⟨hseq, hack⟩ := (checkSeqAck_syn hnew).mp hsome
      exact ⟨_, ⟨hsyn, hseq, hack, rfl⟩, rfl⟩
    · rintro ⟨new, ⟨hsyn, hseq, hack, rfl⟩, rfl⟩
      exact ⟨if_pos hsyn, (checkSeqAck_syn hnew).mpr ⟨hseq, hack⟩⟩
  · -- a datagram, and after it an echo request: both open a connection whatever they carry
    have hstate := processProtoState_first (m := m) psUdpReq hnew
      (by
        unfold convertProtoState
        rw [hudp, if_neg (by decide), if_pos (by decide), hnew]
        rfl) rfl
    rw [hstate]
    constructor
    · intro ⟨heq, _⟩
      exact ⟨_, .datagram hudp, (Option.some.inj heq).symm⟩
    · intro ⟨new, hopens, heq⟩
      subst heq
      cases hopens with
      | datagram =>
        have hudp' : ProtoState.isTcp psUdpReq = false := by
          decide
        exact ⟨rfl, checkSeqAck_notTcp hudp'⟩
      | syn hps' | echo hps' => exact absurd (hudp.symm.trans hps') (by decide)
  · have hstate := processProtoState_first (m := m) psIcmpEchoReq hnew
      (by
        unfold convertProtoState
        have hself : { pkt with protoState := psIcmpEchoReq } = pkt := by
          rw [← hreq]
        rw [hself, hreq, if_neg (by decide), if_neg (by decide), if_pos (by decide), hnew]
        rfl) rfl
    rw [hstate]
    constructor
    · intro ⟨heq, _⟩
      exact ⟨_, .echo hreq, (Option.some.inj heq).symm⟩
    · intro ⟨new, hopens, heq⟩
      subst heq
      cases hopens with
      | echo =>
        have hecho : ProtoState.isTcp psIcmpEchoReq = false := by
          decide
        exact ⟨rfl, checkSeqAck_notTcp hecho⟩
      | syn hps' | datagram hps' => exact absurd (hreq.symm.trans hps') (by decide)
  · -- an assertion keeps an echo reply from opening a connection
    have hnone : pkt.processProtoState m = none := by
      apply processProtoState_none
      unfold convertProtoState
      rw [hrep, if_neg (by decide), if_neg (by decide), if_pos (by decide), hnew]
      rfl
    rw [hnone]
    constructor
    · intro ⟨heq, _⟩
      exact absurd heq (by simp)
    · intro ⟨new, hopens, _⟩
      cases hopens with
      | syn hps' | datagram hps' | echo hps' => exact absurd (hrep.symm.trans hps') (by decide)

theorem isFirst_of_new (hnew : pkt.isNew = true) (h : pkt.processProtoState m = some pkt') :
    pkt'.protoState.isFirst = true := by
  simp only [processProtoState, Option.bind_eq_bind, Option.bind_eq_some_iff] at h
  obtain ⟨pkt₁, h₁, h⟩ := h
  obtain ⟨new, rfl⟩ := Model.convertProtoState_cases h₁
  dsimp only at h
  rw [if_pos hnew] at h
  simp only [Option.bind_eq_some_iff, assert_eq_some] at h
  obtain ⟨-, hfirst, h⟩ := h
  obtain rfl := Option.some.inj h
  exact hfirst

theorem Carries.ne_invalid {opposite : Bool} {old new : ProtoState}
    (h : pkt.Carries opposite old new) (hproto : pkt.protoState.toProto = old.toProto) :
    new ≠ psInvalid := by
  cases h with
  | syn | synAck | answer => decide
  | ack _ hmeans =>
    generalize pkt.hasData = data at hmeans
    cases hmeans <;> decide
  | fin _ hmeans => cases hmeans <;> decide
  | datagram hps =>
    intro hold
    rw [hps, hold] at hproto
    exact absurd hproto (by decide)
  | echo _ hecho =>
    intro hnew
    rw [hnew] at hecho
    exact absurd hecho (by decide)

theorem belongsToConnection_eq {i : Nat} (h : P.Classed (m.connState i)) :
    pkt.belongsToConnection P m i =
      some (((m.connState i).flow.direction P pkt).map fun opposite => !opposite) := by
  obtain ⟨ec, -, hdst⟩ := h
  have hhas : ∀ addr, (m.connState i).flow.dstHas P addr =
      EqClass.contains (P.ecs.ranges ec) addr := by
    intro addr
    simp [Flow.dstHas, ConnState.flow, hdst]
  have hbelongs : pkt.belongsToConnection P m i =
      if pkt.srcIp = (m.connState i).flow.srcIp ∧
          (m.connState i).flow.dstHas P pkt.dstIp = true ∧
          pkt.srcPort = (m.connState i).flow.srcPort ∧
          pkt.dstPort = (m.connState i).flow.dstPort ∧
          pkt.protoState.toProto = (m.connState i).flow.protoState.toProto then some (some true)
      else if pkt.dstIp = (m.connState i).flow.srcIp ∧
          (m.connState i).flow.dstHas P pkt.srcIp = true ∧
          pkt.dstPort = (m.connState i).flow.srcPort ∧
          pkt.srcPort = (m.connState i).flow.dstPort ∧
          pkt.protoState.toProto = (m.connState i).flow.protoState.toProto then some (some false)
      else some none := by
    unfold belongsToConnection
    dsimp only
    rw [hdst, hhas, hhas]
    rfl
  rw [hbelongs, Flow.direction]
  generalize (m.connState i).flow = f
  by_cases hproto : pkt.protoState.toProto = f.protoState.toProto
  · simp only [hproto, and_true, ne_eq, not_true_eq_false, if_false]
    split_ifs
    all_goals rfl
  · simp [hproto]

theorem findConn_eq (hcur : (m.cur.flow).direction P pkt = none) {l : List Nat}
    (h : ∀ i ∈ l, P.Classed (m.connState i)) :
    pkt.findConn P m l = some (l.findSome? fun i =>
      ((m.connState i).flow.direction P pkt).map fun opposite => (i, !opposite)) := by
  induction l with
  | nil => rfl
  | cons i l ih =>
    have htail := ih fun j hj => h j (List.mem_cons_of_mem _ hj)
    rw [findConn, List.findSome?_cons]
    by_cases hi : i = m.conn
    · rw [if_pos hi, htail, hi]
      rw [show (m.connState m.conn).flow.direction P pkt = none from hcur]
      rfl
    · rw [if_neg hi, belongsToConnection_eq (h i (List.mem_cons_self ..))]
      cases (m.connState i).flow.direction P pkt with
      | none => exact htail
      | some opposite => rfl

theorem identifyConn_eq (pkt : Packet) (h : P.Addressed m) :
    pkt.identifyConn P m = match m.flows.owner P pkt with
      | some (i, opposite) => some (pkt.ofConn false opposite i)
      | none =>
        (assert (m.numConns < maxConns)).bind fun _ => some (pkt.ofConn true false m.numConns) := by
  have hall : ∀ i ∈ List.range m.numConns, P.Classed (m.connState i) := by
    intro i hi
    exact h.classed i (List.mem_range.mp hi)
  unfold identifyConn FlowTable.owner
  rw [belongsToConnection_eq (h.classed m.conn h.conn), List.findSome?_cons]
  cases hdir : (m.connState m.conn).flow.direction P pkt with
  | some opposite =>
    have hdir' : (m.flows.flow m.flows.conn).direction P pkt = some opposite := hdir
    rw [hdir']
    cases opposite <;> rfl
  | none =>
    have hdir' : (m.flows.flow m.flows.conn).direction P pkt = none := hdir
    rw [hdir', findConn_eq hdir hall]
    -- the slots are searched in order, and the current one before all of them
    have hscan : ∀ l : List Nat, (l.findSome? fun i =>
        ((m.connState i).flow.direction P pkt).map fun opposite => (i, !opposite)) =
          (l.findSome? fun i => ((m.flows.flow i).direction P pkt).map fun opposite =>
            (i, opposite)).map fun p => (p.1, !p.2) := by
      intro l
      induction l with
      | nil => rfl
      | cons i l ih =>
        rw [List.findSome?_cons, List.findSome?_cons]
        have hflow : (m.flows.flow i).direction P pkt =
            (m.connState i).flow.direction P pkt := rfl
        rw [hflow]
        cases (m.connState i).flow.direction P pkt with
        | none => exact ih
        | some opposite => rfl
    have hnum : m.flows.numConns = m.numConns := rfl
    rw [hscan, hnum]
    generalize ((List.range m.numConns).findSome? fun i =>
      ((m.flows.flow i).direction P pkt).map fun opposite => (i, opposite)) = found
    rcases found with _ | ⟨i, opposite⟩
    · rfl
    · cases opposite <;> rfl

end Packet

end Neo
