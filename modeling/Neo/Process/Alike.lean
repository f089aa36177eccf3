import Neo.Process.Congruence
import Neo.Process.Installed
import Neo.Process.NextHops

/-! States that differ only in which of correlated invariants is verified, in reach counts that the
invariant does not read, and in slots that are not used. Every process and the check of the
invariant do the same in both. -/

namespace Neo

def Policy.counts : Policy → Bool
  | .oneRequest _ | .loadBalance _ _ => true
  | _ => false

theorem rel_map {α β γ δ : Type*} {r : α → β → Prop} {q : γ → δ → Prop} {a : Option α}
    {b : Option β} {f : α → γ} {g : β → δ} (h : Option.Rel r a b)
    (hfg : ∀ x y, r x y → q (f x) (g y)) : Option.Rel q (a.map f) (b.map g) := by
  cases h with
  | none => exact .none
  | some hxy => exact .some (hfg _ _ hxy)

theorem rel_foldlM {α β γ : Type*} {r : α → β → Prop} {f : α → γ → Option α}
    {g : β → γ → Option β} (hfg : ∀ x y c, r x y → Option.Rel r (f x c) (g y c)) (l : List γ) :
    ∀ {a : α} {b : β}, r a b → Option.Rel r (l.foldlM f a) (l.foldlM g b) := by
  induction l with
  | nil =>
    intro a b h
    exact .some h
  | cons c l ih =>
    intro a b h
    rw [List.foldlM_cons, List.foldlM_cons]
    exact rel_bind (hfg a b c h) fun x y hxy => ih hxy

namespace ConnState

def bare (c : ConnState) : ConnState :=
  { c with fib := fun _ => none, injResults := none, visitedHops := none }

variable {c c' : ConnState}

theorem eq_of_bare {α : Type*} (f : ConnState → α) (h : c.bare = c'.bare)
    (hf : ∀ d : ConnState, f d.bare = f d) : f c = f c' := by
  rw [← hf c, ← hf c', h]

def withFlow (pkt : Packet) (ec : EcPtr) (fib : FIB) (c : ConnState) : ConnState :=
  { c with
    executable := 2
    protoState := pkt.protoState
    srcIp := pkt.srcIp
    dstIpEc := some ec
    srcPort := pkt.srcPort
    dstPort := pkt.dstPort
    seq := pkt.seq
    ack := pkt.ack
    payload := pkt.payload
    fib := if c.dstIpEc = some ec then c.fib else fib }

def inPhase (mb : NodePtr) (pkt : Packet) (c : ConnState) : ConnState :=
  if pkt.isNew then
    { c with
      srcNode := mb
      txNode := mb
      rxNode := none
      pktLocation := mb
      fwdMode := .firstForward
      ingressIntf := none
      pathChoices := [] }
  else if pkt.nextPhase then
    if pkt.oppositeDir then { c with srcNode := mb, fwdMode := .firstForward, ingressIntf := none }
    else { c with pktLocation := c.srcNode, fwdMode := .firstForward, ingressIntf := none }
  else { c with fwdMode := .forwardPacket }

def filed (mb : NodePtr) (pkt : Packet) (ec : EcPtr) (fib : FIB) (candidates : Candidates)
    (c : ConnState) : ConnState :=
  { (c.withFlow pkt ec fib).inPhase mb pkt with candidates := some candidates }

variable {mb : NodePtr} {pkt : Packet} {ec : EcPtr} {fib : FIB} {candidates : Candidates}

theorem bare_filed (h : c.bare = c'.bare) : (c.filed mb pkt ec fib candidates).bare =
    (c'.filed mb pkt ec fib candidates).bare := by
  have hbare : ∀ d : ConnState, (d.filed mb pkt ec fib candidates).bare =
      (d.bare.filed mb pkt ec fib candidates).bare := by
    intro d
    unfold filed inPhase
    split_ifs <;> rfl
  rw [hbare c, hbare c', h]

theorem bare_filed_of_isNew (hnew : pkt.isNew = true) (c c' : ConnState) :
    (c.filed mb pkt ec fib candidates).bare = (c'.filed mb pkt ec fib candidates).bare := by
  unfold filed inPhase
  rw [if_pos hnew, if_pos hnew]
  rfl

end ConnState

namespace Model

variable {P : Plankton} {pol : Policy} {S : Set Nat} {m n : Model} {results : List InjectionResult}

theorem setFlow_eq_withFlow {st : OpenflowUpdateState} {pkt : Packet} {ec : EcPtr}
    (hst : P.openflow.Legal st) (hfind : P.ecs.findEc pkt.dstIp = some ec) :
    ∃ fib, ∀ m : Model, m.openflowUpdateState = st →
      m.setFlow P pkt = some (m.setCur (m.cur.withFlow pkt ec fib)) := by
  have hec : P.IsEc ec := ⟨pkt.dstIp, hfind⟩
  obtain ⟨addr, haddr, -⟩ := Plankton.representativeAddr_of_isEc hec
  obtain ⟨fib, hfib, -⟩ := OpenflowProcess.updateFib_apply (Plankton.uniform_of_isEc hec) hst haddr
  refine ⟨fib, ?_⟩
  intro m hm
  unfold setFlow ConnState.withFlow
  rw [hfind, Option.bind_eq_bind, Option.bind_some]
  by_cases hsame : m.cur.dstIpEc = some ec
  · rw [if_neg (not_not.mpr hsame)]
    simp only [if_pos hsame]
  · rw [if_pos hsame]
    simp only [if_neg hsame]
    unfold updateFib
    rw [cur_setCur]
    simp only [Option.bind_eq_bind, Option.bind_some, setCur_openflowUpdateState, hm, hfib,
      setCur_setCur]
    rfl

theorem setPhase_eq_inPhase (m : Model) (mb : NodePtr) (pkt : Packet) :
    m.setPhase mb pkt = (m.setCur (m.cur.inPhase mb pkt)).setNumConns
      (if pkt.isNew then m.numConns + 1 else m.numConns) := by
  unfold setPhase ConnState.inPhase
  split_ifs <;> rfl

theorem file_eq {st : OpenflowUpdateState} {pkt : Packet} {ec : EcPtr} {intf : IntfPtr}
    (mb : NodePtr) (hst : P.openflow.Legal st) (hfind : P.ecs.findEc pkt.dstIp = some ec)
    (hintf : pkt.intf = some intf) :
    ∃ fib candidates, ∀ m : Model, m.openflowUpdateState = st →
      (((m.setConn pkt.conn).setFlow P pkt).bind fun m₁ =>
        ((m₁.setPhase mb pkt).setMbNextHop P mb pkt).map fun m₂ => m₂.setConn m.conn) =
      some (((m.setSlot pkt.conn
        ((m.connState pkt.conn).filed mb pkt ec fib candidates)).setNumConns
          (if pkt.isNew then m.numConns + 1 else m.numConns)).setChoiceCount
            candidates.length) := by
  obtain ⟨fib, hflow⟩ := setFlow_eq_withFlow hst hfind
  refine ⟨fib, (P.network.getIpnh mb (P.network.intf intf).name pkt.dstIp).toList, ?_⟩
  intro m hm
  rw [hflow (m.setConn pkt.conn) hm, Option.bind_some, setPhase_eq_inPhase]
  unfold setMbNextHop
  rw [hintf, Option.bind_eq_bind, Option.bind_some, Option.pure_def, Option.map_some,
    cur_setNumConns, cur_setCur, cur_setCur, setSlot_of_setConn]
  rfl

/-- The states agree on all that the processes and the check of a policy read, if the slots they
come to use are in `S`. -/
structure Alike (pol : Policy) (S : Set Nat) (m n : Model) : Prop where
  slot : ∀ i ∈ S, m.connState i = n.connState i
  bare : ∀ i < n.numConns, (m.connState i).bare = (n.connState i).bare
  conn_mem : n.conn ∈ S
  processId : m.processId = n.processId
  choice : m.choice = n.choice
  choiceCount : m.choiceCount = n.choiceCount
  conn : m.conn = n.conn
  numConns : m.numConns = n.numConns
  openflowUpdateState : m.openflowUpdateState = n.openflowUpdateState
  violated : m.violated = n.violated
  reachCounts : pol.counts = true → m.reachCounts = n.reachCounts

namespace Alike

theorem cur (h : Alike pol S m n) : m.cur = n.cur := by
  unfold Model.cur
  rw [h.conn]
  exact h.slot _ h.conn_mem

theorem bare_conn (h : Alike pol S m n) : (m.connState n.conn).bare = (n.connState n.conn).bare :=
  congrArg ConnState.bare (h.slot _ h.conn_mem)

theorem setCur (h : Alike pol S m n) (c : ConnState) :
    Alike pol S (m.setCur c) (n.setCur c) := by
  refine ⟨?_, ?_, h.conn_mem, h.processId, h.choice, h.choiceCount, h.conn, h.numConns,
    h.openflowUpdateState, h.violated, h.reachCounts⟩
  · intro i hi
    rw [setCur_connState, setCur_connState, h.conn, h.slot i hi]
  · intro i hi
    rw [setCur_connState, setCur_connState, h.conn]
    split_ifs
    · rfl
    · exact h.bare i hi

theorem setChoiceCount (h : Alike pol S m n) (k : Nat) :
    Alike pol S (m.setChoiceCount k) (n.setChoiceCount k) :=
  ⟨h.slot, h.bare, h.conn_mem, h.processId, h.choice, rfl, h.conn, h.numConns,
    h.openflowUpdateState, h.violated, h.reachCounts⟩

theorem setChoice (h : Alike pol S m n) (k : Nat) :
    Alike pol S (m.setChoice k) (n.setChoice k) :=
  ⟨h.slot, h.bare, h.conn_mem, h.processId, rfl, h.choiceCount, h.conn, h.numConns,
    h.openflowUpdateState, h.violated, h.reachCounts⟩

theorem setConn (h : Alike pol S m n) {i : Nat} (hi : i ∈ S) :
    Alike pol S (m.setConn i) (n.setConn i) :=
  ⟨h.slot, h.bare, hi, h.processId, h.choice, h.choiceCount, rfl, h.numConns,
    h.openflowUpdateState, h.violated, h.reachCounts⟩

theorem setProcessId (h : Alike pol S m n) (p : Pid) :
    Alike pol S (m.setProcessId p) (n.setProcessId p) :=
  ⟨h.slot, h.bare, h.conn_mem, rfl, h.choice, h.choiceCount, h.conn, h.numConns,
    h.openflowUpdateState, h.violated, h.reachCounts⟩

theorem setOpenflowUpdateState (h : Alike pol S m n) (st : OpenflowUpdateState) :
    Alike pol S (m.setOpenflowUpdateState st) (n.setOpenflowUpdateState st) :=
  ⟨h.slot, h.bare, h.conn_mem, h.processId, h.choice, h.choiceCount, h.conn, h.numConns, rfl,
    h.violated, h.reachCounts⟩

theorem stop (h : Alike pol S m n) (b : Bool) : Alike pol S (m.stop b) (n.stop b) :=
  ⟨h.slot, h.bare, h.conn_mem, h.processId, h.choice, rfl, h.conn, h.numConns,
    h.openflowUpdateState, rfl, h.reachCounts⟩

theorem setReachCounts (h : Alike pol S m n) (counts : ReachCounts) :
    Alike pol S (m.setReachCounts counts) (n.setReachCounts counts) :=
  ⟨h.slot, h.bare, h.conn_mem, h.processId, h.choice, h.choiceCount, h.conn, h.numConns,
    h.openflowUpdateState, h.violated, fun _ => rfl⟩

theorem congruence (pol : Policy) (S : Set Nat) : Congruence (Alike pol S) where
  cur h := h.cur
  choice h := h.choice
  openflowUpdateState h := h.openflowUpdateState
  setCur c h := h.setCur c
  setChoiceCount k h := h.setChoiceCount k

/-! ### The answer of a middlebox -/

theorem belongsToConnection (pkt : Packet) {i : Nat}
    (h : (m.connState i).bare = (n.connState i).bare) :
    pkt.belongsToConnection P m i = pkt.belongsToConnection P n i :=
  ConnState.eq_of_bare (fun c => pkt.belongsToConnection P { m with connState := fun _ => c } i) h
    fun _ => rfl

theorem findConn (h : Alike pol S m n) (pkt : Packet) (l : List Nat)
    (hl : ∀ i ∈ l, i < n.numConns) : pkt.findConn P m l = pkt.findConn P n l := by
  induction l with
  | nil => rfl
  | cons i l ih =>
    unfold Packet.findConn
    rw [ih fun j hj => hl j (List.mem_cons_of_mem _ hj), h.conn,
      belongsToConnection pkt (h.bare i (hl i (List.mem_cons_self ..)))]

theorem identifyConn (h : Alike pol S m n) (pkt : Packet) :
    pkt.identifyConn P m = pkt.identifyConn P n := by
  unfold Packet.identifyConn
  rw [h.conn, h.numConns, belongsToConnection pkt h.bare_conn,
    h.findConn pkt _ fun i hi => List.mem_range.mp hi]

theorem convertProtoState_of_isNew {pkt : Packet} (hnew : pkt.isNew = true)
    (old old' : ProtoState) : pkt.convertProtoState old = pkt.convertProtoState old' := by
  unfold Packet.convertProtoState
  rw [hnew]
  split
  · by_cases hflags : pkt.protoState - 0x800 = Packet.thSyn
    · have hfirst : ∀ old, pkt.convertFlags (pkt.protoState - 0x800) old = some psTcpInit1 := by
        intro old
        unfold Packet.convertFlags
        rw [if_pos hflags]
      dsimp only
      rw [hfirst, hfirst]
    · simp [assert, hflags]
  · rfl

theorem processProtoState_of_isNew {pkt : Packet} (hnew : pkt.isNew = true) (m n : Model) :
    pkt.processProtoState m = pkt.processProtoState n := by
  unfold Packet.processProtoState
  dsimp only
  rw [convertProtoState_of_isNew hnew _ (n.connState pkt.conn).protoState]
  cases hconvert : pkt.convertProtoState (n.connState pkt.conn).protoState with
  | none => rfl
  | some pkt' =>
    obtain ⟨protoState, rfl⟩ := convertProtoState_cases hconvert
    rw [Option.bind_eq_bind, Option.bind_eq_bind, Option.bind_some, Option.bind_some]
    dsimp only
    rw [if_pos hnew, if_pos hnew]

theorem processProtoState {pkt : Packet}
    (h : pkt.isNew = true ∨ (m.connState pkt.conn).bare = (n.connState pkt.conn).bare) :
    pkt.processProtoState m = pkt.processProtoState n := by
  rcases h with hnew | hbare
  · exact processProtoState_of_isNew hnew m n
  · exact ConnState.eq_of_bare
      (fun c => pkt.processProtoState { m with connState := fun _ => c }) hbare fun _ => rfl

theorem checkSeqAck {pkt : Packet}
    (h : pkt.isNew = true ∨ (m.connState pkt.conn).bare = (n.connState pkt.conn).bare) :
    pkt.checkSeqAck m = pkt.checkSeqAck n := by
  rcases h with hnew | hbare
  · unfold Packet.checkSeqAck
    dsimp only
    rw [if_pos hnew, if_pos hnew]
  · exact ConnState.eq_of_bare (fun c => pkt.checkSeqAck { m with connState := fun _ => c }) hbare
      fun _ => rfl

theorem setSlot (h : Alike pol S m n) {i k : Nat} {c c' : ConnState} (hslot : i ∈ S → c = c')
    (hbare : c.bare = c'.bare) (hk : ∀ j < k, j < n.numConns ∨ j = i) :
    Alike pol S ((m.setSlot i c).setNumConns k) ((n.setSlot i c').setNumConns k) := by
  refine ⟨?_, ?_, h.conn_mem, h.processId, h.choice, h.choiceCount, h.conn, rfl,
    h.openflowUpdateState, h.violated, h.reachCounts⟩
  · intro j hj
    show (m.setSlot i c).connState j = (n.setSlot i c').connState j
    rw [setSlot_connState, setSlot_connState]
    split_ifs with hji
    · exact hslot (hji ▸ hj)
    · exact h.slot j hj
  · intro j hj
    show ((m.setSlot i c).connState j).bare = ((n.setSlot i c').connState j).bare
    rw [setSlot_connState, setSlot_connState]
    split_ifs with hji
    · exact hbare
    · exact h.bare j ((hk j hj).resolve_right hji)

theorem file (h : Alike pol S m n) (hlegal : P.openflow.Legal n.openflowUpdateState) (mb : NodePtr)
    {pkt : Packet} (hconn : pkt.isNew = true ∧ pkt.conn = n.numConns ∨
      pkt.isNew = false ∧ (m.connState pkt.conn).bare = (n.connState pkt.conn).bare) :
    Option.Rel (fun x y => Alike pol S x y ∧ y.openflowUpdateState = n.openflowUpdateState)
      (((m.setConn pkt.conn).setFlow P pkt).bind fun m₁ =>
        ((m₁.setPhase mb pkt).setMbNextHop P mb pkt).map fun m₂ => m₂.setConn m.conn)
      (((n.setConn pkt.conn).setFlow P pkt).bind fun n₁ =>
        ((n₁.setPhase mb pkt).setMbNextHop P mb pkt).map fun n₂ => n₂.setConn n.conn) := by
  cases hfind : P.ecs.findEc pkt.dstIp with
  | none =>
    have hnone : ∀ m : Model, m.setFlow P pkt = none := by
      intro m
      unfold Model.setFlow
      rw [hfind]
      rfl
    rw [hnone, hnone]
    exact .none
  | some ec =>
    cases hintf : pkt.intf with
    | none =>
      have hnone : ∀ m : Model, m.setMbNextHop P mb pkt = none := by
        intro m
        unfold Model.setMbNextHop
        rw [hintf]
        rfl
      simp only [hnone, Option.map_none]
      cases (m.setConn pkt.conn).setFlow P pkt <;> cases (n.setConn pkt.conn).setFlow P pkt <;>
        exact .none
    | some intf =>
      -- what is filed depends on the packet and the OpenFlow state only
      obtain ⟨fib, candidates, heq⟩ := file_eq mb hlegal hfind hintf
      rw [heq m h.openflowUpdateState, heq n rfl, h.numConns]
      refine .some ⟨Alike.setChoiceCount (h.setSlot ?_ ?_ ?_) _, rfl⟩
      · intro hmem
        rw [h.slot _ hmem]
      · rcases hconn with ⟨hnew, -⟩ | ⟨-, hbare⟩
        · exact ConnState.bare_filed_of_isNew hnew _ _
        · exact ConnState.bare_filed hbare
      · intro j hj
        rcases hconn with ⟨hnew, hnum⟩ | ⟨hnew, -⟩
        · rw [if_pos hnew] at hj
          omega
        · rw [if_neg (by simp [hnew])] at hj
          exact .inl hj

def Receives (P : Plankton) (pol : Policy) (S : Set Nat) (x y : Model × Bool × Bool) : Prop :=
  Alike pol S x.1 y.1 ∧ P.openflow.Legal y.1.openflowUpdateState ∧ x.2 = y.2

theorem receivePacket (mb : NodePtr) (x y : Model × Bool × Bool) (pkt : Packet)
    (hxy : Receives P pol S x y) :
    Option.Rel (Receives P pol S) (Model.receivePacket P mb x pkt)
      (Model.receivePacket P mb y pkt) := by
  obtain ⟨m, cu, ou⟩ := x
  obtain ⟨n, cu', ou'⟩ := y
  have hsame := hxy
  obtain ⟨h, hlegal, hflags⟩ := hxy
  obtain ⟨rfl, rfl⟩ := Prod.mk.inj hflags
  dsimp only at h hlegal
  unfold Model.receivePacket
  dsimp only
  rw [h.identifyConn]
  split
  · exact .some hsame
  · cases hid : pkt.identifyConn P n with
    | none => exact .none
    | some pkt₁ =>
      -- the slot that is written is that of a connection, or nothing is read from it
      have hconn : pkt₁.isNew = true ∧ pkt₁.conn = n.numConns ∨ pkt₁.isNew = false ∧
          (m.connState pkt₁.conn).bare = (n.connState pkt₁.conn).bare := by
        obtain ⟨isNew, opp, conn, rfl, ⟨hnew, heq | hlt⟩ | ⟨hnew, hnum, -⟩⟩ :=
          identifyConn_cases hid
        · exact .inr ⟨hnew, heq ▸ h.bare_conn⟩
        · exact .inr ⟨hnew, h.bare conn hlt⟩
        · exact .inl ⟨hnew, hnum⟩
      have hread := hconn.imp And.left And.right
      rw [Option.bind_eq_bind, Option.bind_eq_bind, Option.bind_some, Option.bind_some,
        processProtoState hread]
      cases hstate : pkt₁.processProtoState n with
      | none => exact .none
      | some pkt₂ =>
        have hkept : pkt₂.isNew = pkt₁.isNew ∧ pkt₂.conn = pkt₁.conn := by
          obtain ⟨protoState, nextPhase, rfl, -⟩ := processProtoState_cases hstate
          exact ⟨rfl, rfl⟩
        rw [← hkept.1, ← hkept.2] at hconn hread
        rw [Option.bind_some, Option.bind_some]
        split
        · exact .some hsame
        · rw [checkSeqAck hread]
          apply rel_bind_same
          intro _
          have hfiled : Option.Rel (Receives P pol S) _ _ := rel_map (h.file hlegal mb hconn)
            (f := fun m' => (m', cu || pkt₂.conn == n.conn, ou || pkt₂.conn != n.conn))
            (g := fun m' => (m', cu || pkt₂.conn == n.conn, ou || pkt₂.conn != n.conn))
            fun x y hxy => ⟨hxy.1, hxy.2 ▸ hlegal, rfl⟩
          rw [Option.map_bind, Option.map_bind] at hfiled
          rw [h.conn] at hfiled ⊢
          simpa only [Function.comp_def, Option.map_map, Option.map_eq_bind, Option.bind_assoc,
            Option.bind_some, Option.bind_eq_bind, Option.pure_def] using hfiled

theorem settleCurrent (h : Alike pol S m n) (mb : NodePtr) (explicitDrop cu ou : Bool) :
    Option.Rel (Alike pol S) (m.settleCurrent mb explicitDrop cu ou)
      (n.settleCurrent mb explicitDrop cu ou) := by
  have hdrop : Alike pol S m.dropCur n.dropCur := by
    unfold dropCur
    rw [h.cur]
    exact h.setCur _
  unfold Model.settleCurrent
  rw [h.cur]
  split
  · split
    · exact .some hdrop
    · split
      · exact .some ((h.setCur _).setChoiceCount _)
      · exact .some hdrop
  · apply rel_bind_same
    intro candidates
    split
    · exact .some hdrop
    · exact .some (h.setChoiceCount _)

theorem chooseInjectionResults (h : Alike pol S m n)
    (hlegal : P.openflow.Legal n.openflowUpdateState) :
    Option.Rel (Alike pol S) (m.chooseInjectionResults P) (n.chooseInjectionResults P) := by
  unfold Model.chooseInjectionResults updateModelFromInjectionResult
  rw [h.cur, h.choice]
  apply rel_bind_same
  intro results
  apply rel_bind_same
  intro result
  apply rel_bind_same
  intro _
  apply rel_bind (r := Receives P pol S)
  · exact rel_foldlM (receivePacket n.cur.pktLocation) result.recvPkts ⟨h, hlegal, rfl⟩
  · intro x y hxy
    obtain ⟨x, cu, ou⟩ := x
    obtain ⟨y, cu', ou'⟩ := y
    obtain ⟨hxy, -, hflags⟩ := hxy
    obtain ⟨rfl, rfl⟩ := Prod.mk.inj hflags
    exact hxy.settleCurrent n.cur.pktLocation result.explicitDrop cu ou

theorem execForwarding (h : Alike pol S m n)
    (hlegal : P.openflow.Legal n.openflowUpdateState) :
    Option.Rel (Alike pol S) (m.execForwarding P results) (n.execForwarding P results) := by
  by_cases hmode : n.cur.fwdMode = .chooseInjRes
  · unfold Model.execForwarding
    rw [h.cur, hmode]
    exact h.chooseInjectionResults hlegal
  · exact (congruence pol S).execForwarding h hmode

/-! ### The other processes and the check -/

theorem connMap (h : Alike pol S m n) (e : Fin 3) : m.connMap e = n.connMap e := by
  unfold Model.connMap
  rw [h.numConns]
  apply List.filter_congr
  intro i hi
  exact ConnState.eq_of_bare (fun c => !c.isFinished && c.executable == e)
    (h.bare i (List.mem_range.mp hi)) fun _ => rfl

theorem updateChoiceCount (h : Alike pol S m n) :
    Alike pol S m.updateChoiceCount n.updateChoiceCount := by
  unfold Model.updateChoiceCount
  rw [h.connMap, h.connMap, h.connMap]
  split
  · exact h.setChoiceCount _
  · split
    · exact h.setChoiceCount _
    · split
      · exact h.setChoiceCount _
      · exact h.setChoiceCount _

theorem pickConn (h : Alike pol S m n) (hS : ∀ i < n.numConns, i ∈ S) :
    Option.Rel (Alike pol S) m.pickConn n.pickConn := by
  have hmem : ∀ {e : Fin 3} {i : Nat} {l : List Nat}, n.connMap e = l → i ∈ l → i ∈ S := by
    intro e i l hl hi
    rw [← hl] at hi
    exact hS i (List.mem_range.mp (List.mem_filter.mp hi).1)
  unfold Model.pickConn
  rw [h.connMap, h.connMap, h.connMap, h.choice]
  split
  · next hmap =>
    apply rel_bind_same
    intro _
    exact .some (h.setConn (hmem hmap (List.mem_cons_self ..)))
  · next hmap =>
    cases hget : (_ :: _)[n.choice]? with
    | none => exact .none
    | some i =>
      have hi := h.setConn (hmem hmap (List.mem_of_getElem? hget))
      rw [Option.bind_eq_bind, Option.bind_some, Option.bind_some]
      dsimp only
      rw [hi.cur]
      exact .some (hi.setCur _)
  · next hmap =>
    apply rel_bind_same
    intro _
    have hi := h.setConn (hmem hmap (List.mem_cons_self ..))
    dsimp only
    rw [hi.cur]
    split
    · exact .some (hi.setCur _)
    · exact .some hi
  · exact .none

theorem execChooseConn (h : Alike pol S m n) (hS : ∀ i < n.numConns, i ∈ S) :
    Option.Rel (Alike pol S) m.execChooseConn n.execChooseConn := by
  unfold Model.execChooseConn
  apply rel_bind (h.pickConn hS)
  intro x y hxy
  rw [hxy.cur]
  split
  · apply rel_bind_same
    intro candidates
    exact .some (hxy.setChoiceCount _)
  · exact .some (hxy.setChoiceCount _)

theorem execOpenflow (h : Alike pol S m n) :
    Option.Rel (Alike pol S) (m.execOpenflow P) (n.execOpenflow P) := by
  unfold Model.execOpenflow installUpdate
  rw [h.choice, h.cur, h.openflowUpdateState]
  split
  · exact .some h
  · split
    · exact .some (h.setChoiceCount _)
    · apply rel_bind_same
      intro i
      apply rel_bind_same
      intro num
      apply rel_bind_same
      intro st
      have hset := (h.setOpenflowUpdateState st).setChoiceCount
        (if num + 1 < (P.openflow.updatesOf n.cur.pktLocation).length then 2 else 1)
      dsimp only
      rw [hset.cur]
      apply rel_bind_same
      intro ec
      apply rel_bind_same
      intro nextHops
      exact .some (hset.setCur _)

theorem checkToSwitchProcess (h : Alike pol S m n) :
    Option.Rel (Alike pol S) (m.checkToSwitchProcess P) (n.checkToSwitchProcess P) := by
  unfold Model.checkToSwitchProcess
  rw [h.cur, h.processId, h.openflowUpdateState, h.choiceCount]
  split
  · exact .some (h.setProcessId _).updateChoiceCount
  · split
    · exact .some (h.setProcessId _)
    · split
      · apply rel_bind_same
        intro b
        split
        · exact .some ((h.setProcessId _).setChoiceCount _)
        · exact .some h
      · exact .some h
    · split
      · exact .some (h.setProcessId _)
      · exact .some h

theorem control (h : Alike pol S m n) (hS : ∀ i < n.numConns, i ∈ S)
    (hlegal : P.openflow.Legal n.openflowUpdateState) :
    Option.Rel (Alike pol S) (P.control results m) (P.control results n) := by
  unfold Plankton.control
  rw [h.processId]
  split
  · exact rel_bind (h.execChooseConn hS) fun x y hxy => hxy.checkToSwitchProcess
  · exact rel_bind (h.execForwarding hlegal) fun x y hxy => hxy.checkToSwitchProcess
  · exact rel_bind h.execOpenflow fun x y hxy => hxy.checkToSwitchProcess

theorem countReach (h : Alike pol S m n) (b : Bool) (counts : ReachCounts) :
    Alike pol S (m.countReach b counts) (n.countReach b counts) := by
  unfold Model.countReach
  cases b with
  | false =>
    show Alike pol S ((m.setReachCounts counts).setCur { m.cur with executable := 0 }) _
    rw [h.cur]
    exact (h.setReachCounts counts).setCur _
  | true =>
    show Alike pol S (((m.stop true).setReachCounts counts).setCur { m.cur with executable := 0 }) _
    rw [h.cur]
    exact ((h.stop true).setReachCounts counts).setCur _

theorem otherExecutableConnsExist (h : Alike pol S m n) :
    m.otherExecutableConnsExist = n.otherExecutableConnsExist := by
  unfold Model.otherExecutableConnsExist
  rw [h.conn, h.numConns, Bool.eq_iff_iff, List.any_eq_true, List.any_eq_true]
  refine exists_congr fun i => and_congr_right fun hi => ?_
  have hexec := ConnState.eq_of_bare ConnState.executable (h.bare i (List.mem_range.mp hi))
    fun _ => rfl
  rw [hexec]

theorem checkPolicy (h : Alike pol S m n) :
    Option.Rel (Alike pol S) (m.checkPolicy pol) (n.checkPolicy pol) := by
  have hothers := h.otherExecutableConnsExist
  cases pol with
  | reachability T reachable =>
    apply Option.Rel.some
    unfold checkReachability requestIsAccepted rxIsTarget
    rw [h.cur, hothers]
    split
    · exact h.stop _
    · split
      · exact h.stop _
      · exact h
  | replyReachability T reachable =>
    apply Option.Rel.some
    unfold checkReplyReachability beforeReply requestIsAccepted rxIsTarget
    rw [h.cur, hothers]
    split
    · split
      · exact h.stop _
      · exact h
    · split
      · split
        · exact h.stop _
        · split
          · exact h.stop _
          · exact h
      · exact h
  | waypoint T passThrough =>
    apply Option.Rel.some
    unfold checkWaypoint
    rw [h.cur]
    split
    · exact h.stop _
    · exact h
  | loop =>
    show Option.Rel _ m.checkLoop n.checkLoop
    unfold checkLoop requestIsAccepted
    rw [h.cur, hothers]
    split
    · exact .some (h.stop _)
    · split
      · apply rel_bind_same
        intro hops
        exact .some (h.setCur _)
      · split
        · exact .some (h.stop _)
        · split
          · exact .some h
          · apply rel_bind_same
            intro hops
            exact .some (h.setCur _)
  | oneRequest T =>
    apply Option.Rel.some
    unfold checkOneRequest rxIsTarget
    -- the invariants that count reach events are those for which the counts are alike
    rw [h.cur, h.reachCounts rfl]
    split
    · exact h.countReach _ _
    · exact h
  | loadBalance T exceeds =>
    apply Option.Rel.some
    unfold checkLoadBalance rxIsTarget
    rw [h.cur, h.reachCounts rfl]
    split
    · exact h.countReach _ _
    · exact h

end Alike

end Model

end Neo
