import Neo.EarlyEnd
import Neo.Process.FlowTable

/-! Which answers of a middlebox can be processed: those whose packets fit the table of flows one
after the other. -/

namespace Neo

namespace Model

variable {P : Plankton} {m m' : Model} {mb : NodePtr} {pkt : Packet}

theorem setFlow_eq {ec : EcPtr} (h : P.openflow.Legal m.openflowUpdateState)
    (hfind : P.ecs.findEc pkt.dstIp = some ec) :
    ∃ fib, m.setFlow P pkt = some (m.setCur { m.cur with
      executable := 2
      protoState := pkt.protoState
      srcIp := pkt.srcIp
      dstIpEc := some ec
      srcPort := pkt.srcPort
      dstPort := pkt.dstPort
      seq := pkt.seq
      ack := pkt.ack
      payload := pkt.payload
      fib := fib }) := by
  unfold setFlow
  simp only [hfind, Option.bind_eq_bind, Option.bind_some]
  split_ifs with hne
  · have hec : P.IsEc ec := ⟨pkt.dstIp, hfind⟩
    obtain ⟨addr, haddr, -⟩ := Plankton.representativeAddr_of_isEc hec
    obtain ⟨fib, hfib, -⟩ := OpenflowProcess.updateFib_apply (Plankton.uniform_of_isEc hec) h haddr
    refine ⟨fib, ?_⟩
    rw [updateFib, cur_setCur]
    simp only [Option.bind_eq_bind, Option.bind_some, setCur_openflowUpdateState, hfib,
      setCur_setCur]
    rfl
  · exact ⟨m.cur.fib, rfl⟩

theorem setPhase_flow (m : Model) (mb : NodePtr) (pkt : Packet) :
    ∃ c, m.setPhase mb pkt = (m.setCur c).setNumConns
        (if pkt.isNew then m.numConns + 1 else m.numConns) ∧ c.flow = m.cur.flow := by
  unfold setPhase
  split_ifs
  all_goals exact ⟨_, rfl, rfl⟩

theorem file_flows (mb : NodePtr) {ec : EcPtr} (h : P.openflow.Legal m.openflowUpdateState)
    (hintf : pkt.intf ≠ none) (hfind : P.ecs.findEc pkt.dstIp = some ec) :
    ∃ m₁ m₂, (m.setConn pkt.conn).setFlow P pkt = some m₁ ∧
      (m₁.setPhase mb pkt).setMbNextHop P mb pkt = some m₂ ∧
      (m₂.setConn m.conn).flows = { m.flows.setFlow pkt.conn (pkt.flow pkt.protoState ec) with
        numConns := if pkt.isNew then m.numConns + 1 else m.numConns } := by
  obtain ⟨fib, hflow⟩ := setFlow_eq (m := m.setConn pkt.conn) h hfind
  obtain ⟨intf, hintf⟩ := Option.ne_none_iff_exists'.mp hintf
  obtain ⟨c, hphase, hc⟩ := setPhase_flow ((m.setConn pkt.conn).setCur _) mb pkt
  have hhop : ∀ m₁ : Model, ∃ candidates, m₁.setMbNextHop P mb pkt =
      some ((m₁.setCur { m₁.cur with candidates := some candidates }).setChoiceCount
        candidates.length) := by
    intro m₁
    unfold setMbNextHop
    rw [hintf]
    exact ⟨_, rfl⟩
  obtain ⟨candidates, hhop⟩ := hhop _
  refine ⟨_, _, hflow, hhop, ?_⟩
  rw [hphase]
  rw [cur_setCur] at hc
  simp only [flows, FlowTable.setFlow, FlowTable.mk.injEq]
  refine ⟨?_, rfl, rfl⟩
  funext j
  rw [Function.update_apply]
  by_cases hj : j = pkt.conn
  · subst hj
    rw [if_pos rfl]
    simp only [setConn_connState, setChoiceCount_connState, setCur_connState, setNumConns_conn,
      setCur_conn, setConn_conn, if_true, cur_setNumConns, cur_setCur]
    exact hc
  · rw [if_neg hj]
    simp only [setConn_connState, setChoiceCount_connState, setCur_connState, setNumConns_conn,
      setCur_conn, setConn_conn, setNumConns_connState, if_neg hj]

variable {pkt₁ pkt₂ : Packet} {cu ou : Bool} {t' : FlowTable}

theorem receivePacket_eq (hempty : pkt.isEmpty = false) (hid : pkt.identifyConn P m = some pkt₁)
    (hstate : pkt₁.processProtoState m = some pkt₂) :
    receivePacket P mb (m, cu, ou) pkt =
      if pkt₂.protoState = psInvalid then some (m, cu, ou)
      else (pkt₂.checkSeqAck m).bind fun _ => ((m.setConn pkt₂.conn).setFlow P pkt₂).bind fun m₁ =>
        ((m₁.setPhase mb pkt₂).setMbNextHop P mb pkt₂).bind fun m₂ =>
          some (m₂.setConn m.conn, cu || pkt₂.conn == m.conn, ou || pkt₂.conn != m.conn) := by
  unfold receivePacket
  dsimp only
  rw [hempty, hid]
  simp only [Bool.false_eq_true, if_false, Option.bind_eq_bind, Option.bind_some, hstate]
  rfl

theorem receivePacket_file (h : P.openflow.Legal m.openflowUpdateState)
    (hempty : pkt.isEmpty = false) (hid : pkt.identifyConn P m = some pkt₁)
    (hstate : pkt₁.processProtoState m = some pkt₂) (hvalid : pkt₂.protoState ≠ psInvalid)
    (hintf : pkt₂.intf ≠ none) :
    (∃ st', receivePacket P mb (m, cu, ou) pkt = some st' ∧ st'.1.flows = t') ↔
      (pkt₂.checkSeqAck m).isSome = true ∧ ∃ ec, P.ecs.findEc pkt₂.dstIp = some ec ∧
        t' = { m.flows.setFlow pkt₂.conn (pkt₂.flow pkt₂.protoState ec) with
          numConns := if pkt₂.isNew then m.numConns + 1 else m.numConns } := by
  rw [receivePacket_eq hempty hid hstate, if_neg hvalid]
  constructor
  · intro ⟨st', hsome, hflows⟩
    simp only [Option.bind_eq_some_iff] at hsome
    obtain ⟨u, hcheck, m₁, hflow, m₂, hhop, hst'⟩ := hsome
    obtain ⟨ec, -, hfind, -⟩ := setFlow_cases hflow
    obtain ⟨m₁', m₂', hflow', hhop', hflows'⟩ := file_flows mb h hintf hfind
    obtain rfl := Option.some.inj (hflow.symm.trans hflow')
    obtain rfl := Option.some.inj (hhop.symm.trans hhop')
    obtain rfl := Option.some.inj hst'
    refine ⟨by rw [hcheck]; rfl, ec, hfind, ?_⟩
    rw [← hflows, ← hflows']
  · intro ⟨hcheck, ec, hfind, ht'⟩
    obtain ⟨u, hcheck⟩ := Option.isSome_iff_exists.mp hcheck
    obtain ⟨m₁, m₂, hflow, hhop, hflows⟩ := file_flows mb h hintf hfind
    refine ⟨_, by rw [hcheck, Option.bind_some, hflow, Option.bind_some, hhop]; rfl, ?_⟩
    rw [ht', ← hflows]

theorem receivePacket_none (hempty : pkt.isEmpty = false) (h : pkt.identifyConn P m = none ∨
    ∃ pkt₁, pkt.identifyConn P m = some pkt₁ ∧ pkt₁.processProtoState m = none) :
    receivePacket P mb (m, cu, ou) pkt = none := by
  unfold receivePacket
  dsimp only
  rw [hempty]
  rcases h with hid | ⟨pkt₁, hid, hstate⟩
  · rw [hid]
    rfl
  · rw [hid]
    simp [hstate]

theorem receivePacket_new (h : P.Addressed m) (hwire : pkt.FromWire)
    (howner : m.flows.owner P pkt = none) :
    (∃ st', receivePacket P mb (m, cu, ou) pkt = some st' ∧ st'.1.flows = t') ↔
      m.numConns < Packet.maxConns ∧ ∃ new ec, pkt.Opens new ∧ P.ecs.findEc pkt.dstIp = some ec ∧
        t' = { m.flows.setFlow m.numConns (pkt.flow new ec) with numConns := m.numConns + 1 } := by
  have hid := Packet.identifyConn_eq pkt h
  rw [howner] at hid
  dsimp only at hid
  by_cases hlt : m.numConns < Packet.maxConns
  · have hassert : assert (decide (m.numConns < Packet.maxConns)) = some () := by
      simp [assert, hlt]
    rw [hassert, Option.bind_some] at hid
    have hwire₁ := hwire.ofConn true false m.numConns
    have hnew := fun pkt₂ => Packet.processProtoState_new (m := m) pkt₂ hwire₁ rfl
    constructor
    · rintro ⟨st', hsome, hflows⟩
      cases hstate : (pkt.ofConn true false m.numConns).processProtoState m with
      | none =>
        rw [receivePacket_none hwire.isEmpty_eq (.inr ⟨_, hid, hstate⟩)] at hsome
        simp at hsome
      | some pkt₂ =>
        have hfirst := Packet.isFirst_of_new rfl hstate
        have hvalid : pkt₂.protoState ≠ psInvalid := by
          intro hzero
          rw [hzero] at hfirst
          exact absurd hfirst (by decide)
        obtain ⟨_, _, hpkt₂, -⟩ := processProtoState_cases hstate
        have hintf : pkt₂.intf ≠ none := by
          rw [hpkt₂]
          exact hwire.intf
        obtain ⟨hcheck, ec, hfind, ht'⟩ := (receivePacket_file h.legal hwire.isEmpty_eq hid hstate
          hvalid hintf).mp ⟨st', hsome, hflows⟩
        obtain ⟨new, hopens, heq⟩ := (hnew pkt₂).mp ⟨hstate, hcheck⟩
        subst heq
        exact ⟨hlt, new, ec, Packet.opens_ofConn.mp hopens, hfind, ht'⟩
    · rintro ⟨-, new, ec, hopens, hfind, ht'⟩
      obtain ⟨hstate, hcheck⟩ := (hnew _).mpr ⟨new, Packet.opens_ofConn.mpr hopens, rfl⟩
      have hvalid : new ≠ psInvalid := by
        cases hopens <;> decide
      exact (receivePacket_file h.legal hwire.isEmpty_eq hid hstate hvalid hwire.intf).mpr
        ⟨hcheck, ec, hfind, ht'⟩
  · have hassert : assert (decide (m.numConns < Packet.maxConns)) = none := by
      simp [assert, hlt]
    rw [hassert, Option.bind_none] at hid
    rw [receivePacket_none hwire.isEmpty_eq (.inl hid)]
    simp [hlt]

section Known

variable {i : Nat} {opposite : Bool} {new : ProtoState}

theorem processProtoState_goesOn (hwire : pkt.FromWire)
    (hcarries : pkt.Carries opposite (m.connState i).protoState new)
    (hle : (m.connState i).protoState ≤ new) :
    (pkt.ofConn false opposite i).processProtoState m =
      some ((pkt.ofConn false opposite i).inState new
        (decide (new ≠ (m.connState i).protoState))) := by
  apply (Packet.processProtoState_known (hwire.ofConn false opposite i) rfl).mpr
  refine ⟨new, Packet.carries_ofConn.mpr hcarries, ?_⟩
  show _ = if new = (m.connState i).protoState then _ else _
  by_cases hsame : new = (m.connState i).protoState
  · rw [if_pos hsame, decide_eq_false (not_not.mpr hsame)]
  · have hlt : (m.connState i).protoState < new := lt_of_le_of_ne hle (Ne.symm hsame)
    rw [if_neg hsame, decide_eq_true hsame]
    exact (if_pos hlt).symm

theorem receivePacket_late (hwire : pkt.FromWire)
    (hid : pkt.identifyConn P m = some (pkt.ofConn false opposite i))
    (hcarries : pkt.Carries opposite (m.connState i).protoState new)
    (hlt : new < (m.connState i).protoState) :
    receivePacket P mb (m, cu, ou) pkt = some (m, cu, ou) := by
  have hstate : (pkt.ofConn false opposite i).processProtoState m =
      some ((pkt.ofConn false opposite i).inState psInvalid pkt.nextPhase) := by
    apply (Packet.processProtoState_known (hwire.ofConn false opposite i) rfl).mpr
    refine ⟨new, Packet.carries_ofConn.mpr hcarries, ?_⟩
    show _ = if new = (m.connState i).protoState then _ else if (m.connState i).protoState < new
      then _ else _
    rw [if_neg hlt.ne, if_neg (Nat.not_lt.mpr hlt.le)]
    rfl
  rw [receivePacket_eq hwire.isEmpty_eq hid hstate]
  exact if_pos rfl

theorem receivePacket_goesOn (h : P.Addressed m) (hwire : pkt.FromWire)
    (hid : pkt.identifyConn P m = some (pkt.ofConn false opposite i))
    (hproto : pkt.protoState.toProto = (m.connState i).protoState.toProto)
    (hcarries : pkt.Carries opposite (m.connState i).protoState new)
    (hle : (m.connState i).protoState ≤ new) :
    (∃ st', receivePacket P mb (m, cu, ou) pkt = some st' ∧ st'.1.flows = t') ↔
      (new.isTcp = true → (m.connState i).flow.Expects pkt opposite new) ∧
        ∃ ec, P.ecs.findEc pkt.dstIp = some ec ∧
          t' = m.flows.setFlow i (pkt.flow new ec) := by
  have hstate := processProtoState_goesOn hwire hcarries hle
  have hvalid := hcarries.ne_invalid hproto
  have hcheck := Packet.checkSeqAck_known m (pkt.ofConn false opposite i) new rfl
  exact (receivePacket_file h.legal hwire.isEmpty_eq hid hstate hvalid hwire.intf).trans
    (and_congr hcheck Iff.rfl)

theorem receivePacket_known (h : P.Addressed m) (hwire : pkt.FromWire)
    (howner : m.flows.owner P pkt = some (i, opposite)) :
    (∃ st', receivePacket P mb (m, cu, ou) pkt = some st' ∧ st'.1.flows = t') ↔
      ∃ new, pkt.Carries opposite (m.connState i).protoState new ∧
        (new < (m.connState i).protoState ∧ t' = m.flows ∨
          (m.connState i).protoState ≤ new ∧
            (new.isTcp = true → (m.connState i).flow.Expects pkt opposite new) ∧
              ∃ ec, P.ecs.findEc pkt.dstIp = some ec ∧
                t' = m.flows.setFlow i (pkt.flow new ec)) := by
  have hid := Packet.identifyConn_eq pkt h
  rw [howner] at hid
  dsimp only at hid
  have hproto : pkt.protoState.toProto = (m.connState i).protoState.toProto :=
    Flow.proto_of_direction (FlowTable.direction_of_owner howner)
  constructor
  · intro ⟨st', hsome, hflows⟩
    cases hstate : (pkt.ofConn false opposite i).processProtoState m with
    | none =>
      rw [receivePacket_none hwire.isEmpty_eq (.inr ⟨_, hid, hstate⟩)] at hsome
      simp at hsome
    | some pkt₂ =>
      obtain ⟨new, hcarries, -⟩ :=
        (Packet.processProtoState_known (hwire.ofConn false opposite i) rfl).mp hstate
      rw [Packet.carries_ofConn] at hcarries
      refine ⟨new, hcarries, ?_⟩
      rcases Nat.lt_or_ge new (m.connState i).protoState with hlt | hle
      · left
        rw [receivePacket_late hwire hid hcarries hlt] at hsome
        obtain rfl := Option.some.inj hsome
        exact ⟨hlt, hflows.symm⟩
      · right
        exact ⟨hle, (receivePacket_goesOn h hwire hid hproto hcarries hle).mp ⟨st', hsome, hflows⟩⟩
  · intro ⟨new, hcarries, hcase⟩
    rcases hcase with ⟨hlt, rfl⟩ | ⟨hle, hrest⟩
    · exact ⟨_, receivePacket_late hwire hid hcarries hlt, rfl⟩
    · exact (receivePacket_goesOn h hwire hid hproto hcarries hle).mpr hrest

end Known

theorem receivePacket_iff (h : P.Addressed m) (hwire : pkt.FromWire) :
    (∃ st', receivePacket P mb (m, cu, ou) pkt = some st' ∧ st'.1.flows = t') ↔
      m.flows.Takes P pkt t' := by
  cases howner : m.flows.owner P pkt with
  | none =>
    rw [receivePacket_new h hwire howner]
    constructor
    · intro ⟨hlt, new, ec, hopens, hfind, ht'⟩
      subst ht'
      exact .opens howner hlt hopens hfind
    · intro htakes
      cases htakes with
      | opens _ hlt hopens hfind => exact ⟨hlt, _, _, hopens, hfind, rfl⟩
      | late howner' | goesOn howner' => exact absurd (howner.symm.trans howner') (by simp)
  | some p =>
    obtain ⟨i, opposite⟩ := p
    rw [receivePacket_known h hwire howner]
    constructor
    · intro ⟨new, hcarries, hcase⟩
      rcases hcase with ⟨hlt, ht'⟩ | ⟨hle, hexpects, ec, hfind, ht'⟩
      · subst ht'
        exact .late howner hcarries hlt
      · subst ht'
        exact .goesOn howner hcarries hle hexpects hfind
    · intro htakes
      cases htakes with
      | opens howner' => exact absurd (howner.symm.trans howner') (by simp)
      | late howner' hcarries hlt =>
        obtain ⟨rfl, rfl⟩ := Prod.mk.inj (Option.some.inj (howner.symm.trans howner'))
        exact ⟨_, hcarries, .inl ⟨hlt, rfl⟩⟩
      | goesOn howner' hcarries hle hexpects hfind =>
        obtain ⟨rfl, rfl⟩ := Prod.mk.inj (Option.some.inj (howner.symm.trans howner'))
        exact ⟨_, hcarries, .inr ⟨hle, hexpects, _, hfind, rfl⟩⟩

theorem receivePacket_addressed {st st' : Model × Bool × Bool}
    (h : receivePacket P mb st pkt = some st') (hm : P.Addressed st.1) : P.Addressed st'.1 := by
  have hsame := receivePacket_sameControl h
  refine ⟨?_, receivePacket_allClassed h hm.classed, ?_⟩
  · have hnum : st.1.numConns ≤ st'.1.numConns := by
      rcases receivePacket_cases h with rfl | ⟨pkt', c', k, rfl, -⟩
      · exact le_rfl
      · show st.1.numConns ≤ if pkt'.isNew then st.1.numConns + 1 else st.1.numConns
        split_ifs <;> omega
    rw [hsame.conn]
    exact hm.conn.trans_le hnum
  · rw [hsame.openflowUpdateState]
    exact hm.legal

theorem foldlM_receivePacket_iff (mb : NodePtr) (cu ou : Bool) {pkts : List Packet}
    (h : P.Addressed m)
    (hwire : ∀ pkt ∈ pkts, pkt.FromWire) :
    (∃ st', pkts.foldlM (receivePacket P mb) (m, cu, ou) = some st') ↔
      FlowTable.TakesAll P m.flows pkts := by
  induction pkts generalizing m cu ou with
  | nil => exact ⟨fun _ => .nil _, fun _ => ⟨_, rfl⟩⟩
  | cons pkt pkts ih =>
    have hhead := hwire pkt (List.mem_cons_self ..)
    have htail := fun p hp => hwire p (List.mem_cons_of_mem _ hp)
    rw [List.foldlM_cons]
    constructor
    · intro ⟨st', hfold⟩
      obtain ⟨⟨m₁, cu₁, ou₁⟩, hstep, hfold⟩ := Option.bind_eq_some_iff.mp hfold
      have htakes := (receivePacket_iff h hhead).mp ⟨_, hstep, rfl⟩
      have hrest := (ih _ _ (receivePacket_addressed hstep h) htail).mp ⟨st', hfold⟩
      exact .cons htakes hrest
    · intro htakes
      cases htakes with
      | cons hstep hrest =>
        obtain ⟨⟨m₁, cu₁, ou₁⟩, hreceive, rfl⟩ := (receivePacket_iff h hhead).mpr hstep
        obtain ⟨st', hfold⟩ := (ih _ _ (receivePacket_addressed hreceive h) htail).mpr hrest
        exact ⟨st', by rw [hreceive]; exact hfold⟩

theorem foldlM_receivePacket_candidates {pkts : List Packet} {st : Model × Bool × Bool}
    (h : pkts.foldlM (receivePacket P mb) (m, false, false) = some st) :
    st.2.1 = true → st.1.cur.candidates ≠ none := by
  apply foldlM_invariant (fun st : Model × Bool × Bool =>
    st.2.1 = true → st.1.cur.candidates ≠ none) pkts ?_ ?_ h
  · intro pkt _ st₁ st₂ hst₁ hstep
    rcases receivePacket_cases hstep with rfl | ⟨pkt', c', k, rfl, hc', -⟩
    · exact hst₁
    · intro hcu
      show ((st₁.1.setSlot pkt'.conn c').connState st₁.1.conn).candidates ≠ none
      rw [setSlot_connState]
      split_ifs with hconn
      · obtain ⟨candidates, hcandidates⟩ := hc'.candidates
        rw [hcandidates]
        exact Option.some_ne_none _
      · apply hst₁
        have hcu' : (st₁.2.1 || pkt'.conn == st₁.1.conn) = true := hcu
        rw [beq_eq_false_iff_ne.mpr (Ne.symm hconn), Bool.or_false] at hcu'
        exact hcu'
  · intro hfalse
    exact absurd hfalse Bool.false_ne_true

theorem settleCurrent_isSome (mb : NodePtr) (explicitDrop ou : Bool)
    (h : cu = true → m.cur.candidates ≠ none) :
    (m.settleCurrent mb explicitDrop cu ou).isSome = true := by
  unfold settleCurrent
  cases cu with
  | false =>
    rw [if_pos (Bool.not_false)]
    split_ifs <;> rfl
  | true =>
    obtain ⟨candidates, hcandidates⟩ := Option.ne_none_iff_exists'.mp (h rfl)
    simp only [Bool.not_true, Bool.false_eq_true, if_false, hcandidates, Option.bind_eq_bind,
      Option.bind_some]
    split_ifs <;> rfl

theorem updateModelFromInjectionResult_iff {result : InjectionResult} (h : P.Addressed m)
    (hwire : ∀ pkt ∈ result.recvPkts, pkt.FromWire) :
    (m.updateModelFromInjectionResult P mb result).isSome = true ↔
      (result.explicitDrop = true → result.recvPkts = []) ∧
        FlowTable.TakesAll P m.flows result.recvPkts := by
  rw [← foldlM_receivePacket_iff mb false false h hwire]
  unfold updateModelFromInjectionResult
  simp only [Option.bind_eq_bind, Option.isSome_iff_exists, Option.bind_eq_some_iff,
    assert_eq_some]
  constructor
  · intro ⟨m', _, hdrop, st', hfold, _⟩
    refine ⟨?_, st', hfold⟩
    intro hexplicit
    simpa [hexplicit] using hdrop
  · intro ⟨hdrop, st', hfold⟩
    have hsettle := settleCurrent_isSome mb result.explicitDrop st'.2.2
      (foldlM_receivePacket_candidates hfold)
    obtain ⟨m', hm'⟩ := Option.isSome_iff_exists.mp hsettle
    refine ⟨m', (), ?_, st', hfold, hm'⟩
    cases hexplicit : result.explicitDrop with
    | false => rfl
    | true => simp [hdrop hexplicit]

end Model

namespace Plankton

variable {P : Plankton} {V : Invariants} {s t : Model} {tr : List (Link Model Label)}

/-- In every state a verification reaches, an answer can be processed exactly if its packets fit
the connections one after the other, and there are none where the packet was seen to be dropped. -/
theorem answered_iff (hV : P.OfClasses V) (hconns : V.HasConns) (hs : P.initModel V = some s)
    (h : Run (P.step V) s tr t) (mb : NodePtr) (result : InjectionResult)
    (hwire : ∀ pkt ∈ result.recvPkts, pkt.FromWire) :
    (t.updateModelFromInjectionResult P mb result).isSome = true ↔
      (result.explicitDrop = true → result.recvPkts = []) ∧
        FlowTable.TakesAll P t.flows result.recvPkts := by
  have haddressed := run_addressed hV hconns hs h
  exact Model.updateModelFromInjectionResult_iff haddressed hwire

/-! A TCP connection to a middlebox. -/

section Gateway

def gatewayConn : Connection where
  protocol := .tcp
  srcNode := 0
  dstIpEc := (gatewayPlankton.ecs.findEc 0x0A000002#32).getD 0
  srcPort := 100#16
  dstPort := 80#16
  srcIp := 0#32
  seq := 0#32
  ack := 0#32

def gatewayAnswer (flags : Nat) : Packet where
  intf := some 11
  srcIp := 0x0A000002#32
  dstIp := 0x0A000001#32
  srcPort := 80#16
  dstPort := 100#16
  seq := 0#32
  ack := 1#32
  protoState := 0x800 + flags
  payload := none
  conn := 0
  isNew := false
  oppositeDir := false
  nextPhase := false

theorem gatewayAnswer_fromWire {flags : Nat} (h : flags < 0x800) :
    (gatewayAnswer flags).FromWire := ⟨Option.some_ne_none _, .inl ⟨flags, h, rfl⟩⟩

theorem gateway_ofClasses : gatewayPlankton.OfClasses (unchecked [gatewayConn]) := by
  intro k inv hinv c hc
  obtain rfl := Option.some.inj hinv
  rw [List.mem_singleton.mp hc]
  have hfound : (gatewayPlankton.ecs.findEc 0x0A000002#32).isSome = true := by
    decide +kernel
  obtain ⟨ec, hec⟩ := Option.isSome_iff_exists.mp hfound
  refine ⟨0x0A000002#32, ?_⟩
  rw [hec, gatewayConn, hec]
  rfl

theorem unchecked_hasConns {c : Connection} : (unchecked [c]).HasConns := by
  intro k inv hinv
  obtain rfl := Option.some.inj hinv
  exact List.cons_ne_nil _ _

def gatewayInjection (result : InjectionResult) : List Label :=
  [go, go, go, ⟨0, [result], none⟩]

theorem answered_iff_synAck : ∃ s t tr,
    gatewayPlankton.initModel (unchecked [gatewayConn]) = some s ∧
      Run (gatewayPlankton.step (unchecked [gatewayConn])) s tr t ∧
        t.cur.fwdMode = .chooseInjRes ∧
          FlowTable.TakesAll gatewayPlankton t.flows [gatewayAnswer 0x12] := by
  have hrun : ((gatewayPlankton.initModel (unchecked [gatewayConn])).bind fun s =>
      (execute (gatewayPlankton.step (unchecked [gatewayConn])) s
        (gatewayInjection ⟨[gatewayAnswer 0x12], false⟩)).map fun r => (r.2.cur.fwdMode,
          (r.2.updateModelFromInjectionResult gatewayPlankton 1
            ⟨[gatewayAnswer 0x12], false⟩).isSome)) = some (.chooseInjRes, true) := by
    decide +kernel
  obtain ⟨s, hs, hrun⟩ := Option.bind_eq_some_iff.mp hrun
  obtain ⟨⟨tr, t⟩, hexec, hr⟩ := Option.map_eq_some_iff.mp hrun
  obtain ⟨hmode, hsome⟩ := Prod.mk.inj hr
  have hwire : ∀ pkt ∈ [gatewayAnswer 0x12], pkt.FromWire := by
    intro pkt hpkt
    rw [List.mem_singleton.mp hpkt]
    exact gatewayAnswer_fromWire (by decide)
  have hall := (answered_iff gateway_ofClasses unchecked_hasConns hs (run_of_execute hexec) 1
    ⟨[gatewayAnswer 0x12], false⟩ hwire).mp hsome
  exact ⟨s, t, tr, hs, run_of_execute hexec, hmode, hall.2⟩

/-- The middlebox refuses the connection. There is no state of the protocol for the RST flag. -/
theorem not_answered : ¬ ∀ (P : Plankton) (V : Invariants) (s t : Model)
    (tr : List (Link Model Label)) (pkts : List Packet), P.OfClasses V → V.HasConns →
      P.initModel V = some s → Run (P.step V) s tr t → t.processId = .forwarding →
        t.cur.fwdMode = .chooseInjRes → t.cur.injResults = some [⟨pkts, false⟩] →
          (∀ pkt ∈ pkts, pkt.FromWire) →
            (t.updateModelFromInjectionResult P t.cur.pktLocation ⟨pkts, false⟩).isSome = true := by
  intro h
  have hrun : ((gatewayPlankton.initModel (unchecked [gatewayConn])).bind fun s =>
      (execute (gatewayPlankton.step (unchecked [gatewayConn])) s
        (gatewayInjection ⟨[gatewayAnswer 0x14], false⟩)).map fun r =>
          (r.2.processId, r.2.cur.fwdMode, r.2.cur.pktLocation,
            decide (r.2.cur.injResults = some [⟨[gatewayAnswer 0x14], false⟩]),
            (r.2.updateModelFromInjectionResult gatewayPlankton 1
              ⟨[gatewayAnswer 0x14], false⟩).isSome)) =
      some (.forwarding, .chooseInjRes, 1, true, false) := by
    decide +kernel
  obtain ⟨s, hs, hrun⟩ := Option.bind_eq_some_iff.mp hrun
  obtain ⟨⟨tr, t⟩, hexec, hr⟩ := Option.map_eq_some_iff.mp hrun
  simp only [Prod.mk.injEq] at hr
  obtain ⟨hp, hmode, hloc, hresults, hnone⟩ := hr
  have hwire : ∀ pkt ∈ [gatewayAnswer 0x14], pkt.FromWire := by
    intro pkt hpkt
    rw [List.mem_singleton.mp hpkt]
    exact gatewayAnswer_fromWire (by decide)
  have hsome := h _ _ s t tr [gatewayAnswer 0x14] gateway_ofClasses unchecked_hasConns hs
    (run_of_execute hexec) hp hmode (of_decide_eq_true hresults) hwire
  rw [hloc, hnone] at hsome
  exact absurd hsome (by decide)

end Gateway

end Plankton

end Neo
