import Neo.Emulation.SendPkt

/-! The numbers and ports that an emulation chooses itself are translated, so that the model sees
connections that start from zero and from one port. What the translation has learned is kept for
the other end of a connection, not for the connection; and of the received packets only those are
translated that no other packet comes before. -/

namespace Neo

namespace Offsets

open Packet

def empty : Offsets := ⟨fun _ => none, fun _ => none⟩

structure MbConn where
  ip : IPv4Address
  port : BitVec 16
  peer : EmuPktKey
deriving DecidableEq

def connOf (p : Packet) : MbConn := ⟨p.srcIp, p.srcPort, p.dstIp, p.dstPort⟩

def isSyn (p : Packet) : Bool := p.protoState &&& 0xf7ff == thSyn

def isSynAck (p : Packet) : Bool := p.protoState &&& 0xf7ff == thSyn + thAck

def opens (p : Packet) : Bool := isSyn p && decide (1024 ≤ p.srcPort)

section Translation

variable (t : Topology) (mb : NodePtr)

def ofMb (p : Packet) : Bool := p.protoState.isTcp && t.hasIp mb p.srcIp

/-- The initial number of a connection, given the packets of the middlebox, the last one first. -/
def initialSeq (seen : List Packet) (c : MbConn) : BitVec 32 :=
  ((seen.find? fun q => (isSyn q || isSynAck q) && connOf q == c).map Packet.seq).getD 0

def opened (seen : List Packet) (c : MbConn) : Bool :=
  seen.any fun q => opens q && connOf q == c

def modelPort (seen : List Packet) (c : MbConn) : BitVec 16 :=
  if opened seen c then dynamicPort else c.port

def toModel (seen : List Packet) (p : Packet) : Packet :=
  { p with
    seq := if isSyn p || isSynAck p then 0 else p.seq - initialSeq seen (connOf p)
    srcPort := modelPort (p :: seen) (connOf p) }

def allToModel : List Packet → List Packet → List Packet
  | _, [] => []
  | seen, p :: pkts =>
    if ofMb t mb p then toModel seen p :: allToModel (p :: seen) pkts
    else p :: allToModel seen pkts

def IsOn (seen : List Packet) (p : Packet) (c : MbConn) : Prop :=
  c ∈ seen.map connOf ∧ p.dstIp = c.ip ∧ p.dstPort = modelPort seen c ∧
    (p.srcIp, p.srcPort) = c.peer

def ToMb (seen : List Packet) (p p' : Packet) : Prop :=
  (∀ c, p.protoState.isTcp = true → t.hasIp mb p.dstIp = true → IsOn seen p c →
    p' = { p with ack := p.ack + initialSeq seen c, dstPort := c.port }) ∧
  ((p.protoState.isTcp = true → t.hasIp mb p.dstIp = true → ∀ c, ¬ IsOn seen p c) → p' = p)

inductive Event
  | inject (pkt : Packet)
  | receive (pkts : List Packet)
  | reset

def next (o : Offsets) : Event → Offsets
  | .inject _ => o
  | .receive pkts => (o.updateOffsets t mb pkts).1
  | .reset => empty

def seenAfter : List Packet → Event → List Packet
  | seen, .inject _ => seen
  | seen, .receive pkts => (pkts.filter (ofMb t mb)).reverse ++ seen
  | _, .reset => []

def Translates (o : Offsets) (seen : List Packet) : Event → Prop
  | .inject pkt => ToMb t mb seen pkt (o.applyOffsets t mb pkt)
  | .receive pkts => (o.updateOffsets t mb pkts).2 = allToModel t mb seen pkts
  | .reset => True

def lastSyn (seen : List Packet) (peer : EmuPktKey) : Option Packet :=
  seen.find? fun q => (isSyn q || isSynAck q) && (connOf q).peer == peer

def lastOpen (seen : List Packet) (peer : EmuPktKey) : Option Packet :=
  seen.find? fun q => opens q && (connOf q).peer == peer

/-- The received packets of the middlebox come before all others, and for each that does not say
so itself the number and the port were last learned from its own connection. -/
def Separate : List Packet → List Packet → Prop
  | _, [] => True
  | seen, p :: pkts =>
    if ofMb t mb p then
      (isSyn p = true ∨ isSynAck p = true ∨
        ∀ q ∈ lastSyn seen (connOf p).peer, connOf q = connOf p) ∧
      (isSyn p = true ∨ ∀ q ∈ lastOpen seen (connOf p).peer, connOf q = connOf p) ∧
      Separate (p :: seen) pkts
    else ∀ q ∈ pkts, ofMb t mb q = false

/-- For an event nothing was learned from another connection with the same other end. -/
def Unmixed (seen : List Packet) : Event → Prop
  | .inject pkt => pkt.protoState.isTcp = true → t.hasIp mb pkt.dstIp = true →
    ∀ q, q ∈ lastSyn seen (pkt.srcIp, pkt.srcPort) ∨ q ∈ lastOpen seen (pkt.srcIp, pkt.srcPort) →
      IsOn seen pkt (connOf q) ∧ ∀ c, IsOn seen pkt c → c = connOf q
  | .receive pkts => Separate t mb seen pkts
  | .reset => True

end Translation

structure Learned (o : Offsets) (seen : List Packet) : Prop where
  seq : ∀ peer, o.seqOffsets peer = (lastSyn seen peer).map Packet.seq
  port : ∀ peer, o.portOffsets peer = (lastOpen seen peer).map fun q => q.srcPort - dynamicPort

variable {t : Topology} {mb : NodePtr} {o : Offsets} {seen : List Packet} {p : Packet}

theorem connOf_peer : (connOf p).peer = (p.dstIp, p.dstPort) := rfl

theorem learned_empty : Learned empty [] := ⟨fun _ => rfl, fun _ => rfl⟩

theorem find?_eq_of_peer {f : Packet → Bool} {c : MbConn}
    (h : ∀ q ∈ seen.find? fun q => f q && (connOf q).peer == c.peer, connOf q = c) :
    (seen.find? fun q => f q && connOf q == c) =
      seen.find? fun q => f q && (connOf q).peer == c.peer := by
  induction seen with
  | nil => rfl
  | cons q seen ih =>
    rw [List.find?_cons] at h
    rw [List.find?_cons, List.find?_cons]
    by_cases hq : f q = true ∧ (connOf q).peer = c.peer
    · have hpos : (f q && (connOf q).peer == c.peer) = true := by
        simpa using hq
      rw [hpos] at h ⊢
      have hconn : (f q && connOf q == c) = true := by
        simp [hq.1, h q rfl]
      rw [hconn]
    · have hneg : (f q && (connOf q).peer == c.peer) = false := by
        simpa using hq
      have hneg' : (f q && connOf q == c) = false := by
        refine Bool.eq_false_iff.mpr fun htrue => ?_
        rw [Bool.and_eq_true, beq_iff_eq] at htrue
        exact hq ⟨htrue.1, congrArg MbConn.peer htrue.2⟩
      rw [hneg] at h ⊢
      rw [hneg']
      exact ih h

theorem initialSeq_eq {c : MbConn} (h : Learned o seen)
    (hown : ∀ q ∈ lastSyn seen c.peer, connOf q = c) :
    initialSeq seen c = (o.seqOffsets c.peer).getD 0 := by
  rw [h.seq, initialSeq, find?_eq_of_peer hown]
  rfl

theorem modelPort_add {c : MbConn} (h : Learned o seen)
    (hown : ∀ q ∈ lastOpen seen c.peer, connOf q = c) :
    modelPort seen c + (o.portOffsets c.peer).getD 0 = c.port := by
  have hfind := find?_eq_of_peer hown
  have hopened : opened seen c = (lastOpen seen c.peer).isSome := by
    rw [lastOpen, ← hfind, Bool.eq_iff_iff, List.find?_isSome, opened, List.any_eq_true]
  rw [h.port, modelPort, hopened]
  cases hq : lastOpen seen c.peer with
  | none => simp
  | some q =>
    have hport : q.srcPort = c.port := congrArg MbConn.port (hown q hq)
    simp [hport]

theorem find?_cons_of_not {f : Packet → Bool} (hp : f p = false) (peer : EmuPktKey) :
    ((p :: seen).find? fun q => f q && (connOf q).peer == peer) =
      seen.find? fun q => f q && (connOf q).peer == peer := by
  rw [List.find?_cons, hp, Bool.false_and]

theorem find?_cons_of_pos {f : Packet → Bool} (hp : f p = true) (peer : EmuPktKey) :
    ((p :: seen).find? fun q => f q && (connOf q).peer == peer) =
      if peer = (connOf p).peer then some p
      else seen.find? fun q => f q && (connOf q).peer == peer := by
  rw [List.find?_cons, hp, Bool.true_and]
  by_cases hpeer : peer = (connOf p).peer
  · simp [hpeer]
  · have hne : ((connOf p).peer == peer) = false := beq_eq_false_iff_ne.mpr (Ne.symm hpeer)
    rw [hne, if_neg hpeer]

theorem lastSyn_cons_of_not (hp : ¬ (isSyn p = true ∨ isSynAck p = true)) (peer : EmuPktKey) :
    lastSyn (p :: seen) peer = lastSyn seen peer :=
  find?_cons_of_not (by simpa using hp) peer

theorem lastOpen_cons_of_not (hp : ¬ opens p = true) (peer : EmuPktKey) :
    lastOpen (p :: seen) peer = lastOpen seen peer :=
  find?_cons_of_not (Bool.eq_false_iff.mpr hp) peer

theorem lastSyn_cons (hp : isSyn p = true ∨ isSynAck p = true) (peer : EmuPktKey) :
    lastSyn (p :: seen) peer = if peer = (connOf p).peer then some p else lastSyn seen peer :=
  find?_cons_of_pos (by simpa using hp) peer

theorem lastOpen_cons (hp : opens p = true) (peer : EmuPktKey) :
    lastOpen (p :: seen) peer = if peer = (connOf p).peer then some p else lastOpen seen peer :=
  find?_cons_of_pos hp peer

theorem isSyn_iff : isSyn p = true ↔ p.protoState &&& 0xf7ff = Packet.thSyn := beq_iff_eq

theorem isSynAck_iff :
    isSynAck p = true ↔ p.protoState &&& 0xf7ff = Packet.thSyn + Packet.thAck := beq_iff_eq

theorem opens_iff : opens p = true ↔ isSyn p = true ∧ 1024 ≤ p.srcPort := by
  simp [opens]

theorem not_opened (hport : ¬ 1024 ≤ p.srcPort) : opened seen (connOf p) = false := by
  rw [opened, List.any_eq_false]
  intro q _ hq
  rw [Bool.and_eq_true, beq_iff_eq] at hq
  have hsame : q.srcPort = p.srcPort := congrArg MbConn.port hq.2
  rw [← hsame] at hport
  exact hport (opens_iff.mp hq.1).2

theorem modelPort_cons_of_not (hp : ¬ opens p = true) :
    modelPort (p :: seen) (connOf p) = modelPort seen (connOf p) := by
  have hopened : opened (p :: seen) (connOf p) = opened seen (connOf p) := by
    simp [opened, hp]
  rw [modelPort, modelPort, hopened]

theorem modelPort_cons (hp : opens p = true) :
    modelPort (p :: seen) (connOf p) = dynamicPort := by
  have hopened : opened (p :: seen) (connOf p) = true := by
    simp [opened, hp]
  rw [modelPort, hopened, if_pos rfl]

theorem updateSeq_eq (h : Learned o seen)
    (hown : isSyn p = true ∨ isSynAck p = true ∨
      ∀ q ∈ lastSyn seen (connOf p).peer, connOf q = connOf p) :
    (∀ peer, (o.updateSeq p).1.seqOffsets peer = (lastSyn (p :: seen) peer).map Packet.seq) ∧
      (o.updateSeq p).1.portOffsets = o.portOffsets ∧
      (o.updateSeq p).2 = { p with seq := (toModel seen p).seq } := by
  by_cases hsyn : isSyn p = true ∨ isSynAck p = true
  · have hflags : p.protoState &&& 0xf7ff = Packet.thSyn ∨
        p.protoState &&& 0xf7ff = Packet.thSyn + Packet.thAck :=
      hsyn.imp isSyn_iff.mp isSynAck_iff.mp
    have hor : (isSyn p || isSynAck p) = true := by
      rwa [Bool.or_eq_true]
    simp only [updateSeq, if_pos hflags, toModel, hor, if_true, and_true]
    intro peer
    rw [lastSyn_cons hsyn, Function.update_apply, h.seq, connOf_peer]
    split_ifs
    · rfl
    · rfl
  · have hflags : ¬ (p.protoState &&& 0xf7ff = Packet.thSyn ∨
        p.protoState &&& 0xf7ff = Packet.thSyn + Packet.thAck) :=
      fun hf => hsyn (hf.imp isSyn_iff.mpr isSynAck_iff.mpr)
    have hor : ¬ (isSyn p || isSynAck p) = true := by
      rwa [Bool.or_eq_true]
    have hlast : ∀ q ∈ lastSyn seen (connOf p).peer, connOf q = connOf p := by
      rcases hown with hown | hown | hown
      · exact absurd (.inl hown) hsyn
      · exact absurd (.inr hown) hsyn
      · exact hown
    simp only [updateSeq, if_neg hflags, toModel, if_neg hor, initialSeq_eq h hlast, true_and]
    refine ⟨fun peer => ?_, rfl⟩
    rw [lastSyn_cons_of_not hsyn, h.seq]

theorem updatePort_eq (h : Learned o seen) {o' : Offsets} {n : BitVec 32}
    (ho : o'.portOffsets = o.portOffsets)
    (hown : isSyn p = true ∨ ∀ q ∈ lastOpen seen (connOf p).peer, connOf q = connOf p) :
    (o'.updatePort { p with seq := n }).1.seqOffsets = o'.seqOffsets ∧
      (∀ peer, (o'.updatePort { p with seq := n }).1.portOffsets peer =
        (lastOpen (p :: seen) peer).map fun q => q.srcPort - dynamicPort) ∧
      (o'.updatePort { p with seq := n }).2 =
        { p with seq := n, srcPort := (toModel seen p).srcPort } := by
  by_cases hsyn : isSyn p = true
  · have hflags := isSyn_iff.mp hsyn
    by_cases hport : 1024 ≤ p.srcPort
    · have hopens : opens p = true := opens_iff.mpr ⟨hsyn, hport⟩
      simp only [updatePort, if_pos hflags, if_pos hport, toModel, modelPort_cons hopens, true_and,
        and_true]
      intro peer
      rw [lastOpen_cons hopens, Function.update_apply, ho, h.port, connOf_peer]
      split_ifs
      · rfl
      · rfl
    · -- a port below 1024 is the one of the model
      have hopens : ¬ opens p = true := fun ho => hport (opens_iff.mp ho).2
      have hsame : modelPort seen (connOf p) = p.srcPort := by
        rw [modelPort, not_opened hport]
        rfl
      simp only [updatePort, if_pos hflags, if_neg hport, toModel, modelPort_cons_of_not hopens,
        hsame, true_and, and_true]
      intro peer
      rw [lastOpen_cons_of_not hopens, ho, h.port]
  · have hflags : ¬ p.protoState &&& 0xf7ff = Packet.thSyn := fun hf => hsyn (isSyn_iff.mpr hf)
    have hopens : ¬ opens p = true := fun ho => hsyn (opens_iff.mp ho).1
    have hlast := hown.resolve_left hsyn
    have hadd : modelPort seen (connOf p) + (o.portOffsets (connOf p).peer).getD 0 = p.srcPort :=
      modelPort_add h hlast
    -- subtracting what was learned undoes the move
    have hback : p.srcPort - (o.portOffsets (connOf p).peer).getD 0 =
        modelPort seen (connOf p) := by
      rw [← hadd, BitVec.add_sub_cancel]
    simp only [updatePort, if_neg hflags, toModel, modelPort_cons_of_not hopens, true_and]
    refine ⟨fun peer => ?_, ?_⟩
    · rw [lastOpen_cons_of_not hopens, ho, h.port]
    · rw [ho, ← hback]
      rfl

theorem updateOffsets_of_not {pkts : List Packet} (hp : ofMb t mb p = false) :
    o.updateOffsets t mb (p :: pkts) = (o, p :: pkts) := by
  rw [ofMb, Bool.and_eq_false_iff] at hp
  rcases hp with htcp | hip
  · simp [updateOffsets, htcp]
  · simp [updateOffsets, hip]

theorem updateOffsets_cons {pkts : List Packet} (hp : ofMb t mb p = true) :
    o.updateOffsets t mb (p :: pkts) =
      let s := o.updateSeq p
      let r := s.1.updatePort s.2
      ((r.1.updateOffsets t mb pkts).1, r.2 :: (r.1.updateOffsets t mb pkts).2) := by
  rw [ofMb, Bool.and_eq_true] at hp
  simp [updateOffsets, hp.1, hp.2]

theorem allToModel_of_not : ∀ {pkts : List Packet}, (∀ q ∈ pkts, ofMb t mb q = false) →
    allToModel t mb seen pkts = pkts
  | [], _ => rfl
  | q :: pkts, h => by
    rw [List.forall_mem_cons] at h
    rw [allToModel, h.1, allToModel_of_not h.2]
    rfl

theorem update_eq (h : Learned o seen)
    (hseq : isSyn p = true ∨ isSynAck p = true ∨
      ∀ q ∈ lastSyn seen (connOf p).peer, connOf q = connOf p)
    (hport : isSyn p = true ∨ ∀ q ∈ lastOpen seen (connOf p).peer, connOf q = connOf p) :
    Learned ((o.updateSeq p).1.updatePort (o.updateSeq p).2).1 (p :: seen) ∧
      ((o.updateSeq p).1.updatePort (o.updateSeq p).2).2 = toModel seen p := by
  obtain ⟨hlearn, hkeep, hpkt⟩ := updateSeq_eq h hseq
  obtain ⟨hkeep', hlearn', hpkt'⟩ := updatePort_eq (n := (toModel seen p).seq) h hkeep hport
  rw [hpkt]
  refine ⟨⟨fun peer => ?_, hlearn'⟩, hpkt'⟩
  rw [hkeep', hlearn]

theorem updateOffsets_eq {pkts : List Packet} (h : Learned o seen)
    (hsep : Separate t mb seen pkts) :
    (o.updateOffsets t mb pkts).2 = allToModel t mb seen pkts ∧
      Learned (o.updateOffsets t mb pkts).1 ((pkts.filter (ofMb t mb)).reverse ++ seen) := by
  induction pkts generalizing o seen with
  | nil => exact ⟨rfl, h⟩
  | cons p pkts ih =>
    by_cases hp : ofMb t mb p = true
    · rw [Separate, if_pos hp] at hsep
      obtain ⟨hseq, hport, hrest⟩ := hsep
      obtain ⟨hlearn, hpkt⟩ := update_eq h hseq hport
      obtain ⟨hreturned, hlearn'⟩ := ih hlearn hrest
      rw [updateOffsets_cons hp, allToModel, if_pos hp, List.filter_cons_of_pos hp,
        List.reverse_cons, List.append_assoc]
      refine ⟨?_, hlearn'⟩
      dsimp only
      rw [hpkt, hreturned]
    · -- the source returns here, so nothing behind it may be a packet of the middlebox
      rw [Separate, if_neg hp] at hsep
      have hnone : pkts.filter (ofMb t mb) = [] := by
        rw [List.filter_eq_nil_iff]
        exact fun q hq => Bool.eq_false_iff.mp (hsep q hq)
      rw [updateOffsets_of_not (Bool.eq_false_iff.mpr hp), allToModel, if_neg hp,
        allToModel_of_not hsep, List.filter_cons_of_neg hp, hnone]
      exact ⟨rfl, h⟩

theorem own_of_unmixed {c : MbConn} (htcp : p.protoState.isTcp = true)
    (hip : t.hasIp mb p.dstIp = true) (hun : Unmixed t mb seen (.inject p))
    (hc : IsOn seen p c) :
    (∀ q ∈ lastSyn seen c.peer, connOf q = c) ∧ ∀ q ∈ lastOpen seen c.peer, connOf q = c := by
  have hpeer : (p.srcIp, p.srcPort) = c.peer := hc.2.2.2
  refine ⟨fun q hq => ?_, fun q hq => ?_⟩
  · rw [← hpeer] at hq
    exact ((hun htcp hip q (.inl hq)).2 c hc).symm
  · rw [← hpeer] at hq
    exact ((hun htcp hip q (.inr hq)).2 c hc).symm

theorem applyOffsets_eq (h : Learned o seen) (hun : Unmixed t mb seen (.inject p)) :
    ToMb t mb seen p (o.applyOffsets t mb p) := by
  constructor
  · intro c htcp hip hc
    obtain ⟨hsyn, hopen⟩ := own_of_unmixed htcp hip hun hc
    obtain ⟨-, -, hport, hpeer⟩ := hc
    have hmoved := modelPort_add h hopen
    rw [← hport] at hmoved
    rw [initialSeq_eq h hsyn, ← hmoved, ← hpeer]
    simp [applyOffsets, htcp, hip]
  · -- whatever was learned for this end was learned from a connection the packet would be on
    intro hnone
    unfold applyOffsets
    split_ifs with htcp hip
    · rfl
    · rfl
    rw [Bool.not_eq_true', Bool.not_eq_false] at htcp hip
    have hseq : lastSyn seen (p.srcIp, p.srcPort) = none := by
      rw [Option.eq_none_iff_forall_not_mem]
      exact fun q hq => hnone htcp hip _ (hun htcp hip q (.inl hq)).1
    have hport : lastOpen seen (p.srcIp, p.srcPort) = none := by
      rw [Option.eq_none_iff_forall_not_mem]
      exact fun q hq => hnone htcp hip _ (hun htcp hip q (.inr hq)).1
    simp [h.seq, h.port, hseq, hport]

def step (t : Topology) (mb : NodePtr) (s : Offsets × List Packet) (e : Event) :
    Option (Offsets × List Packet) :=
  some (next t mb s.1 e, seenAfter t mb s.2 e)

theorem learned_next {e : Event} (h : Learned o seen) (hun : Unmixed t mb seen e) :
    Learned (next t mb o e) (seenAfter t mb seen e) := by
  cases e with
  | inject pkt => exact h
  | receive pkts => exact (updateOffsets_eq h hun).2
  | reset => exact learned_empty

theorem translates_of_learned {e : Event} (h : Learned o seen) (hun : Unmixed t mb seen e) :
    Translates t mb o seen e := by
  cases e with
  | inject pkt => exact applyOffsets_eq h hun
  | receive pkts => exact (updateOffsets_eq h hun).1
  | reset => trivial

/-- Numbers and ports are translated as long as nothing is learned from another connection and no
other packet comes before one of the middlebox. -/
theorem translates_of_unmixed {s : Offsets × List Packet}
    {tr : List (Link (Offsets × List Packet) Event)} (h : Run (step t mb) (empty, []) tr s)
    (hun : ∀ l ∈ tr, Unmixed t mb l.before.2 l.act) :
    ∀ l ∈ tr, Translates t mb l.before.1 l.before.2 l.act := by
  have hinv := h.invariant (fun s => Learned s.1 s.2) learned_empty fun l hl hs hlearned => by
    rw [← Option.some.inj hs]
    exact learned_next hlearned (hun l hl)
  exact fun l hl => translates_of_learned (hinv.2 l hl).1 (hun l hl)

def oneBox : Topology where
  nodes := [0]
  node _ := ⟨[1], [], Route.weakSorted_nil, [], true⟩
  intf _ := ⟨1, ⟨0x0A000002#32, 24, twentyFour_le⟩, false⟩
  peer_mem n p hp := by
    simp at hp

def ofBox (srcPort : BitVec 16) (seq : BitVec 32) (flags : ProtoState) : Packet :=
  { Net.cleared with
    intf := some 1
    srcIp := 0x0A000002#32
    dstIp := 0x0A000001#32
    srcPort := srcPort
    dstPort := 80
    seq := seq
    protoState := 0x800 + flags }

def toBox (dstPort : BitVec 16) (ack : BitVec 32) : Packet :=
  { Net.cleared with
    intf := some 1
    srcIp := 0x0A000001#32
    dstIp := 0x0A000002#32
    srcPort := 80
    dstPort := dstPort
    ack := ack
    protoState := psTcpInit2 }

def session : List Event :=
  [.receive [ofBox 50000 1000 thSyn], .inject (toBox dynamicPort 1),
    .receive [ofBox 50000 1001 thAck]]

theorem session_translates :
    ∃ tr s, Run (step oneBox 0) (empty, []) tr s ∧ tr.map Link.act = session ∧
      ∀ l ∈ tr, Translates oneBox 0 l.before.1 l.before.2 l.act := by
  refine ⟨_, _, run_of_execute (l := session) rfl, rfl, translates_of_unmixed
    (run_of_execute (l := session) rfl) ?_⟩
  rw [List.forall_mem_cons, List.forall_mem_cons, List.forall_mem_singleton]
  refine ⟨⟨.inl rfl, .inl rfl, trivial⟩, ?_, ?_⟩
  · intro _ _ q hq
    have hfirst : ofBox 50000 1000 thSyn = q := by
      rcases hq with hq | hq
      · exact Option.some.inj hq
      · exact Option.some.inj hq
    subst hfirst
    exact ⟨⟨List.mem_singleton.mpr rfl, rfl, rfl, rfl⟩, fun c hc => List.mem_singleton.mp hc.1⟩
  · refine ⟨.inr (.inr fun q hq => ?_), .inr fun q hq => ?_, trivial⟩
    · rw [← Option.some.inj hq]
      rfl
    · rw [← Option.some.inj hq]
      rfl

def forwarded : Packet := { ofBox 53 0 0 with srcIp := 0x0A000003#32, protoState := psUdpReq }

/-- Behind a datagram the number of a segment stays that of the middlebox. -/
theorem not_translates :
    ¬ ∀ tr s, Run (step oneBox 0) (empty, []) tr s →
      ∀ l ∈ tr, Translates oneBox 0 l.before.1 l.before.2 l.act := by
  intro h
  have hrun := run_of_execute (f := step oneBox 0) (s := (empty, []))
    (l := [.receive [forwarded, ofBox 50000 1000 thSyn]]) rfl
  have hreturned : (empty.updateOffsets oneBox 0 [forwarded, ofBox 50000 1000 thSyn]).2 =
      allToModel oneBox 0 [] [forwarded, ofBox 50000 1000 thSyn] :=
    h _ _ hrun _ (List.mem_singleton.mpr rfl)
  exact absurd hreturned (by decide)

end Offsets

end Neo
