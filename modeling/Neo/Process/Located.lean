import Neo.Process.Answer
import Neo.Process.ModelOnly

/-! Where the answer of a middlebox leaves the connections whose packets it holds. A packet that
opens a connection is at the middlebox; any other one leaves its connection where it was, or takes
it to the node that the packets came from. -/

namespace Neo

namespace Packet

def identified (P : Plankton) (m : Model) (pkt : Packet) : Option Packet :=
  if pkt.isEmpty then none
  else do
    let pkt ← pkt.identifyConn P m
    let pkt ← pkt.processProtoState m
    if pkt.protoState = psInvalid then none else some pkt

def goesOn (pkt : Packet) : Bool := !pkt.isNew && pkt.nextPhase && !pkt.oppositeDir

def answers (pkt : Packet) : Bool := !pkt.isNew && pkt.nextPhase && pkt.oppositeDir

def place (mb : NodePtr) (pkt : Packet) (c : NodePtr × NodePtr) : NodePtr × NodePtr :=
  if pkt.isNew then (mb, mb)
  else if pkt.nextPhase then if pkt.oppositeDir then (c.1, mb) else (c.2, c.2)
  else c

def mbNextHop (P : Plankton) (mb : NodePtr) (pkt : Packet) : Option FibIpnh :=
  pkt.intf.bind fun intf => P.network.getIpnh mb (P.network.intf intf).name pkt.dstIp

end Packet

def ConnState.place (c : ConnState) : NodePtr × NodePtr := (c.pktLocation, c.srcNode)

namespace Model

def validPackets (P : Plankton) (mb : NodePtr) : Model × Bool × Bool → List Packet → List Packet
  | _, [] => []
  | st, pkt :: pkts => (pkt.identified P st.1).toList ++
    match receivePacket P mb st pkt with
    | some st' => validPackets P mb st' pkts
    | none => []

def ofConn (i : Nat) (pkts : List Packet) : List Packet := pkts.filter fun pkt => pkt.conn == i

variable {P : Plankton} {m m' : Model} {mb : NodePtr} {pkt pkt' : Packet}
  {st st' : Model × Bool × Bool}

structure FiledAs (P : Plankton) (mb : NodePtr) (pkt : Packet) (c c' : ConnState) : Prop where
  place : c'.place = pkt.place mb c.place
  protoState : c'.protoState = pkt.protoState
  executable : c'.executable = 2
  forwards : c'.AboutToForward
  candidates : c'.candidates = some (pkt.mbNextHop P mb).toList
  pathChoices : c'.pathChoices = if pkt.isNew then [] else c.pathChoices
  fib : c'.fib = c.fib ∨ ∃ st ec, P.openflow.updateFib st (P.ecs.ranges ec) = some c'.fib

theorem setPhase_place (m : Model) (mb : NodePtr) (pkt : Packet) :
    ∃ c, m.setPhase mb pkt = (m.setCur c).setNumConns
        (if pkt.isNew then m.numConns + 1 else m.numConns) ∧
      c.place = pkt.place mb m.cur.place ∧ c.protoState = m.cur.protoState ∧
      c.executable = m.cur.executable ∧ c.AboutToForward ∧
      c.pathChoices = (if pkt.isNew then [] else m.cur.pathChoices) ∧ c.fib = m.cur.fib := by
  unfold setPhase Packet.place
  split_ifs
  · exact ⟨_, rfl, rfl, rfl, rfl, .inl rfl, rfl, rfl⟩
  · exact ⟨_, rfl, rfl, rfl, rfl, .inl rfl, rfl, rfl⟩
  · exact ⟨_, rfl, rfl, rfl, rfl, .inl rfl, rfl, rfl⟩
  · exact ⟨_, rfl, rfl, rfl, rfl, .inr rfl, rfl, rfl⟩

theorem setMbNextHop_eq (h : m.setMbNextHop P mb pkt = some m') :
    m' = (m.setCur { m.cur with
      candidates := some (pkt.mbNextHop P mb).toList }).setChoiceCount
        (pkt.mbNextHop P mb).toList.length := by
  simp only [setMbNextHop, Option.bind_eq_bind, Option.bind_eq_some_iff, Option.pure_def,
    Option.some.injEq] at h
  obtain ⟨intf, hintf, rfl⟩ := h
  rw [Packet.mbNextHop, hintf]
  rfl

theorem receivePacket_filed (h : receivePacket P mb st pkt = some st') :
    (pkt.identified P st.1 = none ∧ st' = st) ∨
      ∃ pkt' c' k, pkt.identified P st.1 = some pkt' ∧
        st' = (((st.1.setSlot pkt'.conn c').setNumConns
          (if pkt'.isNew then st.1.numConns + 1 else st.1.numConns)).setChoiceCount k,
            st.2.1 || pkt'.conn == st.1.conn, st.2.2 || pkt'.conn != st.1.conn) ∧
        FiledAs P mb pkt' (st.1.connState pkt'.conn) c' := by
  obtain ⟨m, cu, ou⟩ := st
  unfold receivePacket at h
  unfold Packet.identified
  dsimp only at h ⊢
  split_ifs at h with hempty
  · exact .inl ⟨if_pos hempty, (Option.some.inj h).symm⟩
  · rw [if_neg hempty]
    simp only [Option.bind_eq_bind, Option.bind_eq_some_iff] at h
    obtain ⟨pkt₁, h₁, pkt₂, h₂, h⟩ := h
    rw [h₁, Option.bind_eq_bind, Option.bind_some, h₂, Option.bind_some]
    split_ifs at h with hinv
    · exact .inl ⟨if_pos hinv, (Option.some.inj h).symm⟩
    · simp only [Option.bind_eq_some_iff] at h
      obtain ⟨-, -, m₁, hflow, m₂, hhop, h⟩ := h
      obtain rfl := Option.some.inj h
      obtain ⟨dstIpEc, fib, -, hfib, rfl⟩ := setFlow_cases hflow
      obtain ⟨c, hset, hplace, hps, hexec, hmode, hchoices, hcfib⟩ :=
        setPhase_place ((m.setConn pkt₂.conn).setCur _) mb pkt₂
      rw [hset] at hhop
      obtain rfl := setMbNextHop_eq hhop
      rw [cur_setCur] at hplace hps hexec hchoices hcfib
      have hfib' : c.fib = (m.connState pkt₂.conn).fib ∨
          ∃ st ec, P.openflow.updateFib st (P.ecs.ranges ec) = some c.fib := by
        rw [hcfib]
        exact hfib.imp (fun h => h.2) fun h => ⟨_, _, h⟩
      refine .inr ⟨pkt₂, { c with candidates := some (pkt₂.mbNextHop P mb).toList },
        (pkt₂.mbNextHop P mb).toList.length, if_neg hinv, ?_, hplace, hps, hexec, hmode, rfl,
        hchoices, hfib'⟩
      rw [cur_setNumConns, cur_setCur, setSlot_of_setConn]
      rfl

structure FiledAll (P : Plankton) (mb : NodePtr) (pkts : List Packet) (c c' : ConnState) :
    Prop where
  place : c'.place = pkts.foldl (fun at' pkt => pkt.place mb at') c.place
  last : ∀ pkt ∈ pkts.getLast?, c'.executable = 2 ∧ c'.AboutToForward ∧
    c'.candidates = some (pkt.mbNextHop P mb).toList
  rest : pkts = [] → c' = c

theorem filedAll_nil (c : ConnState) : FiledAll P mb [] c c := ⟨rfl, by simp, fun _ => rfl⟩

theorem FiledAs.cons {pkts : List Packet} {c c₁ c' : ConnState} (h : FiledAs P mb pkt c c₁)
    (hrest : FiledAll P mb pkts c₁ c') : FiledAll P mb (pkt :: pkts) c c' := by
  refine ⟨?_, ?_, by simp⟩
  · rw [List.foldl_cons, ← h.place]
    exact hrest.place
  · intro last hlast
    cases hnil : pkts with
    | nil =>
      rw [hnil] at hlast
      obtain rfl : pkt = last := by simpa using hlast
      rw [hrest.rest hnil]
      exact ⟨h.executable, h.forwards, h.candidates⟩
    | cons p ps =>
      apply hrest.last
      rw [hnil] at hlast ⊢
      simpa [List.getLast?_cons_cons] using hlast

theorem foldlM_receivePacket_filed {pkts : List Packet}
    (h : pkts.foldlM (receivePacket P mb) st = some st') :
    (∀ i, FiledAll P mb (ofConn i (validPackets P mb st pkts)) (st.1.connState i)
      (st'.1.connState i)) ∧ st'.1.conn = st.1.conn ∧
      st'.2.1 = (st.2.1 || !(ofConn st.1.conn (validPackets P mb st pkts)).isEmpty) := by
  induction pkts generalizing st with
  | nil =>
    obtain rfl := Option.some.inj h
    exact ⟨fun i => filedAll_nil _, rfl, by simp [validPackets, ofConn]⟩
  | cons pkt pkts ih =>
    rw [List.foldlM_cons] at h
    obtain ⟨st₁, h₁, h⟩ := Option.bind_eq_some_iff.mp h
    obtain ⟨hfiled, hconn, hcu⟩ := ih h
    rw [validPackets, h₁]
    dsimp only
    rcases receivePacket_filed h₁ with ⟨hid, rfl⟩ | ⟨pkt', c', k, hid, rfl, hc'⟩
    · rw [hid]
      exact ⟨hfiled, hconn, hcu⟩
    · rw [hid, Option.toList_some, List.singleton_append]
      refine ⟨fun i => ?_, hconn, ?_⟩
      · -- the packet is filed at its own connection, and no other slot changes
        by_cases hi : pkt'.conn = i
        · subst hi
          have hown : ∀ l, ofConn pkt'.conn (pkt' :: l) = pkt' :: ofConn pkt'.conn l :=
            fun l => List.filter_cons_of_pos (by simp)
          rw [hown]
          apply hc'.cons
          have hslot := hfiled pkt'.conn
          rwa [show (((st.1.setSlot pkt'.conn c').setNumConns _).setChoiceCount k).connState
            pkt'.conn = c' from if_pos rfl] at hslot
        · have hother : ∀ l, ofConn i (pkt' :: l) = ofConn i l :=
            fun l => List.filter_cons_of_neg (by simpa using hi)
          rw [hother]
          have hslot := hfiled i
          rwa [show (((st.1.setSlot pkt'.conn c').setNumConns _).setChoiceCount k).connState
            i = st.1.connState i from if_neg (Ne.symm hi)] at hslot
      · rw [hcu]
        show (st.2.1 || pkt'.conn == st.1.conn || !(ofConn st.1.conn _).isEmpty) = _
        by_cases hcur : pkt'.conn = st.1.conn
        · simp [ofConn, hcur]
        · have hne : (pkt'.conn == st.1.conn) = false := beq_eq_false_iff_ne.mpr hcur
          simp [ofConn, hne]

def TurnsBack (pkts : List Packet) : Prop :=
  ¬ pkts.Pairwise fun p q => ¬ (p.answers = true ∧ q.goesOn = true)

/-- Packets of a connection leave it at such a node: they open it, or go on after an answer, or go
on from such a source node, or do not go on where it is at such a node. -/
def ComesFrom (At : NodePtr → Prop) (place : NodePtr × NodePtr) (pkts : List Packet) : Prop :=
  (∃ p ∈ pkts, p.isNew = true) ∨ TurnsBack pkts ∨
    ((∃ p ∈ pkts, p.goesOn = true) ∧ At place.2) ∨
      ((∀ p ∈ pkts, p.goesOn = false) ∧ At place.1)

instance (pkts : List Packet) : Decidable (TurnsBack pkts) := inferInstanceAs (Decidable (¬ _))

instance (At : NodePtr → Prop) [DecidablePred At] (place : NodePtr × NodePtr)
    (pkts : List Packet) : Decidable (ComesFrom At place pkts) :=
  inferInstanceAs (Decidable (_ ∨ _ ∨ _ ∨ _))

theorem foldl_place_self (pkts : List Packet) :
    pkts.foldl (fun at' pkt => pkt.place mb at') (mb, mb) = (mb, mb) := by
  induction pkts with
  | nil => rfl
  | cons p pkts ih =>
    have hp : p.place mb (mb, mb) = (mb, mb) := by
      unfold Packet.place
      split_ifs
      all_goals rfl
    rw [List.foldl_cons, hp, ih]

theorem turnsBack_cons {p : Packet} {pkts : List Packet} :
    TurnsBack (p :: pkts) ↔
      (p.answers = true ∧ ∃ q ∈ pkts, q.goesOn = true) ∨ TurnsBack pkts := by
  unfold TurnsBack
  rw [List.pairwise_cons, not_and_or]
  refine or_congr_left ?_
  push Not
  exact ⟨fun ⟨q, hq, hp, hgo⟩ => ⟨hp, q, hq, hgo⟩, fun ⟨hp, q, hq, hgo⟩ => ⟨q, hq, hp, hgo⟩⟩

theorem foldl_place_iff {A : NodePtr → Prop} (hmb : A mb) (pkts : List Packet)
    (place : NodePtr × NodePtr) :
    A (pkts.foldl (fun at' pkt => pkt.place mb at') place).1 ↔ ComesFrom A place pkts := by
  induction pkts generalizing place with
  | nil => simp [ComesFrom, TurnsBack]
  | cons p pkts ih =>
    rw [List.foldl_cons, ComesFrom, turnsBack_cons]
    simp only [List.exists_mem_cons_iff, List.forall_mem_cons]
    cases hnew : p.isNew with
    | true =>
      -- both places are the middlebox from here on
      rw [Packet.place, if_pos hnew, foldl_place_self]
      simp [hmb]
    | false =>
      rw [ih, ComesFrom, Packet.place, hnew, if_neg Bool.false_ne_true]
      have hnone : (∀ q ∈ pkts, q.goesOn = false) ↔ ¬ ∃ q ∈ pkts, q.goesOn = true := by
        simp
      rw [hnone]
      cases hnext : p.nextPhase with
      | false =>
        have hkind : p.goesOn = false ∧ p.answers = false := by
          simp [Packet.goesOn, Packet.answers, hnext]
        simp [hkind]
      | true =>
        cases hopp : p.oppositeDir with
        | false =>
          have hkind : p.goesOn = true ∧ p.answers = false := by
            simp [Packet.goesOn, Packet.answers, hnew, hnext, hopp]
          rw [hkind.1, hkind.2]
          by_cases hgo : ∃ q ∈ pkts, q.goesOn = true
          · simp [hgo]
          · simp [hgo]
        | true =>
          -- only the source node becomes the middlebox, to which a later packet may go back
          have hkind : p.goesOn = false ∧ p.answers = true := by
            simp [Packet.goesOn, Packet.answers, hnew, hnext, hopp]
          rw [hkind.1, hkind.2]
          by_cases hgo : ∃ q ∈ pkts, q.goesOn = true
          · simp [hgo, hmb]
          · simp [hgo]

def EmittedFrom (mb : NodePtr) (c : ConnState) : Prop :=
  (c.pktLocation = mb ∧ c.executable = 2) ∨ (c.fwdMode = .dropped ∧ c.candidates = some [])

def AllEmitted (P : Plankton) (mb : NodePtr) (pkts : List Packet) (m m' : Model) : Prop :=
  ∀ pkt ∈ validPackets P mb (m, false, false) pkts, EmittedFrom mb (m'.connState pkt.conn)

/-- The middlebox has no next hop for the last packet of the connection that is set. -/
def Starves (P : Plankton) (mb : NodePtr) (m : Model) (i : Nat) (pkts : List Packet) : Prop :=
  i = m.conn ∧ ∀ pkt ∈ (ofConn i pkts).getLast?, pkt.mbNextHop P mb = none

instance (P : Plankton) (mb : NodePtr) (m : Model) (i : Nat) (pkts : List Packet) :
    Decidable (Starves P mb m i pkts) := inferInstanceAs (Decidable (_ ∧ _))

theorem updateModelFromInjectionResult_cases {result : InjectionResult}
    (h : m.updateModelFromInjectionResult P mb result = some m') :
    ∃ st, result.recvPkts.foldlM (receivePacket P mb) (m, false, false) = some st ∧
      (result.explicitDrop = true → result.recvPkts = []) ∧
      st.1.settleCurrent mb result.explicitDrop st.2.1 st.2.2 = some m' := by
  simp only [updateModelFromInjectionResult, Option.bind_eq_bind, Option.bind_eq_some_iff,
    assert_eq_some] at h
  obtain ⟨-, hdrop, st, hfold, h⟩ := h
  refine ⟨st, hfold, ?_, h⟩
  intro hexplicit
  simpa [hexplicit] using hdrop

theorem settleCurrent_updated {candidates : Candidates} (explicitDrop ou : Bool)
    (h : m.cur.candidates = some candidates) :
    m.settleCurrent mb explicitDrop true ou = some (if candidates.isEmpty then m.dropCur
      else m.setChoiceCount candidates.length) := by
  simp only [settleCurrent, Bool.not_true, Bool.false_eq_true, if_false, h, Option.bind_eq_bind,
    Option.bind_some]
  split_ifs
  · rfl
  · rfl

theorem FiledAll.emittedFrom {pkts : List Packet} {c c' : ConnState}
    (h : FiledAll P mb pkts c c') (hne : pkts ≠ []) :
    EmittedFrom mb c' ↔ ComesFrom (· = mb) c.place pkts := by
  have hlast := h.last (pkts.getLast hne) (List.getLast?_eq_getLast_of_ne_nil hne)
  have hdropped : c'.fwdMode ≠ .dropped := by
    rcases hlast.2.1 with hmode | hmode
    · simp [hmode]
    · simp [hmode]
  have hplace := foldl_place_iff (A := (· = mb)) rfl pkts c.place
  rw [← h.place] at hplace
  rw [← hplace, EmittedFrom]
  simp [hlast.1, hdropped, ConnState.place]

theorem emittedFrom_of_filed {result : InjectionResult} {i : Nat}
    (h : m.updateModelFromInjectionResult P mb result = some m')
    (hne : ofConn i (validPackets P mb (m, false, false) result.recvPkts) ≠ []) :
    EmittedFrom mb (m'.connState i) ↔
      Starves P mb m i (validPackets P mb (m, false, false) result.recvPkts) ∨
        ComesFrom (· = mb) (m.connState i).place
          (ofConn i (validPackets P mb (m, false, false) result.recvPkts)) := by
  obtain ⟨st, hfold, -, hsettle⟩ := updateModelFromInjectionResult_cases h
  obtain ⟨hfiled, hconn, hcu⟩ := foldlM_receivePacket_filed hfold
  generalize validPackets P mb (m, false, false) result.recvPkts = pkts at *
  have hemitted := (hfiled i).emittedFrom hne
  by_cases hi : i = m.conn
  · -- the connection that is set was updated, and is dropped if its last packet has no next hop
    subst hi
    have hlast := (hfiled m.conn).last ((ofConn m.conn pkts).getLast hne)
      (List.getLast?_eq_getLast_of_ne_nil hne)
    have hcur : st.1.cur = st.1.connState m.conn := congrArg st.1.connState hconn
    have hcu' : st.2.1 = true := by
      rw [hcu]
      simpa using hne
    rw [hcu', settleCurrent_updated _ _ (by rw [hcur]; exact hlast.2.2)] at hsettle
    obtain rfl := Option.some.inj hsettle
    rw [Starves, List.getLast?_eq_getLast_of_ne_nil hne]
    cases hhop : ((ofConn m.conn pkts).getLast hne).mbNextHop P mb with
    | none =>
      have hslot : (st.1.dropCur).connState m.conn = { st.1.cur with
          fwdMode := .dropped, executable := 0 } := if_pos hconn.symm
      have hdropped : EmittedFrom mb ((st.1.dropCur).connState m.conn) := by
        rw [hslot]
        refine .inr ⟨rfl, ?_⟩
        rw [hcur]
        exact hlast.2.2.trans (by rw [hhop]; rfl)
      simpa [hhop] using hdropped
    | some hop => simpa [hhop] using hemitted
  · rw [(settleCurrent_setsCur hsettle).connState (by rwa [hconn]), hemitted]
    simp [Starves, hi]

/-- The connections of valid packets go on from the middlebox, or have no next hop, if and only if
each is left at the middlebox by its packets. -/
theorem emittedFrom_iff {result : InjectionResult}
    (h : m.updateModelFromInjectionResult P mb result = some m') :
    AllEmitted P mb result.recvPkts m m' ↔
    ∀ pkt ∈ validPackets P mb (m, false, false) result.recvPkts,
      Starves P mb m pkt.conn (validPackets P mb (m, false, false) result.recvPkts) ∨
        ComesFrom (· = mb) (m.connState pkt.conn).place
          (ofConn pkt.conn (validPackets P mb (m, false, false) result.recvPkts)) := by
  refine forall₂_congr fun pkt hpkt => emittedFrom_of_filed h ?_
  exact List.ne_nil_of_mem (List.mem_filter.mpr ⟨hpkt, beq_self_eq_true _⟩)

end Model

namespace Plankton

open Model

/-! Two datagrams to the middlebox of the gateway, from ports 100 and 101. -/

section Gateway

def datagramConn (srcPort : BitVec 16) : Connection :=
  { gatewayConn with protocol := .udp, srcPort := srcPort }

def datagrams : Invariants := unchecked [datagramConn 100, datagramConn 101]

def datagramReply (port : BitVec 16) : Packet :=
  { gatewayAnswer 0 with dstPort := port, ack := 0, protoState := psUdpReq }

def injectFor (pkts : List Packet) : Label := ⟨0, [⟨pkts, false⟩], none⟩

def firstInjection : List Label := List.replicate 6 go ++ [injectFor [datagramReply 100]]

def secondInjection (pkts : List Packet) : List Label :=
  firstInjection ++ List.replicate 6 go ++ [injectFor pkts]

theorem emittedFrom_datagramReply : ∃ s t m' tr,
    gatewayPlankton.initModel datagrams = some s ∧
      Run (gatewayPlankton.step datagrams) s tr t ∧ t.cur.fwdMode = .chooseInjRes ∧
        t.updateModelFromInjectionResult gatewayPlankton 1 ⟨[datagramReply 100], false⟩ = some m' ∧
          AllEmitted gatewayPlankton 1 [datagramReply 100] t m' := by
  have hrun : ((gatewayPlankton.initModel datagrams).bind fun s =>
      (execute (gatewayPlankton.step datagrams) s firstInjection).bind fun r =>
        (r.2.updateModelFromInjectionResult gatewayPlankton 1
          ⟨[datagramReply 100], false⟩).map fun _ => (r.2.cur.fwdMode,
            decide (∀ pkt ∈ validPackets gatewayPlankton 1 (r.2, false, false) [datagramReply 100],
              Starves gatewayPlankton 1 r.2 pkt.conn (validPackets gatewayPlankton 1
                (r.2, false, false) [datagramReply 100]) ∨
              ComesFrom (· = 1) (r.2.connState pkt.conn).place (ofConn pkt.conn
                (validPackets gatewayPlankton 1 (r.2, false, false) [datagramReply 100]))))) =
      some (.chooseInjRes, true) := by
    decide +kernel
  obtain ⟨s, hs, hrun⟩ := Option.bind_eq_some_iff.mp hrun
  obtain ⟨⟨tr, t⟩, hexec, hrun⟩ := Option.bind_eq_some_iff.mp hrun
  obtain ⟨m', hm', hr⟩ := Option.map_eq_some_iff.mp hrun
  obtain ⟨hmode, hgood⟩ := Prod.mk.inj hr
  exact ⟨s, t, m', tr, hs, run_of_execute hexec, hmode, hm',
    (emittedFrom_iff hm').mpr (of_decide_eq_true hgood)⟩

/-- The answer to the first datagram is sent again when the second one is injected. The connection
goes on from where it was delivered. -/
theorem not_emittedFrom : ¬ ∀ (P : Plankton) (V : Invariants) (s t m' : Model)
    (tr : List (Link Model Label)) (result : InjectionResult), P.initModel V = some s →
      Run (P.step V) s tr t → t.cur.fwdMode = .chooseInjRes →
        t.updateModelFromInjectionResult P t.cur.pktLocation result = some m' →
          AllEmitted P t.cur.pktLocation result.recvPkts t m' := by
  intro h
  have hrun : ((gatewayPlankton.initModel datagrams).bind fun s =>
      (execute (gatewayPlankton.step datagrams) s
        (secondInjection [datagramReply 101, datagramReply 100])).bind fun r =>
          (r.2.updateModelFromInjectionResult gatewayPlankton 1
            ⟨[datagramReply 101, datagramReply 100], false⟩).map fun m' =>
              (r.2.cur.fwdMode, r.2.cur.pktLocation, (m'.connState 0).pktLocation,
                (m'.connState 0).fwdMode, (validPackets gatewayPlankton 1 (r.2, false, false)
                  [datagramReply 101, datagramReply 100]).any fun pkt => pkt.conn == 0)) =
      some (.chooseInjRes, 1, 0, .forwardPacket, true) := by
    decide +kernel
  obtain ⟨s, hs, hrun⟩ := Option.bind_eq_some_iff.mp hrun
  obtain ⟨⟨tr, t⟩, hexec, hrun⟩ := Option.bind_eq_some_iff.mp hrun
  obtain ⟨m', hm', hr⟩ := Option.map_eq_some_iff.mp hrun
  simp only [Prod.mk.injEq] at hr
  obtain ⟨hmode, hmb, hloc, hfwd, hany⟩ := hr
  obtain ⟨pkt, hpkt, hconn⟩ := List.any_eq_true.mp hany
  rw [← hmb] at hm' hpkt
  rcases h _ _ s t m' tr _ hs (run_of_execute hexec) hmode hm' pkt hpkt with hat | hdropped
  · rw [beq_iff_eq.mp hconn, hloc, hmb] at hat
    exact absurd hat.1 (by decide)
  · rw [beq_iff_eq.mp hconn, hfwd] at hdropped
    exact absurd hdropped.1 (by decide)

end Gateway

end Plankton

end Neo
