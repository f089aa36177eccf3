import Neo.Process.Located

/-! What a step keeps of every connection that is there. A relation between a connection before and
after holds over a step if it holds over what forwarding makes of the connection that is set, over
what a received packet makes of its connection, and over the few fields that others write. -/

namespace Neo

namespace Model

variable {P : Plankton} {R : ConnState → ConnState → Prop} {m m' m'' : Model}
  {results : List InjectionResult}

structure Kept (R : ConnState → ConnState → Prop) (m m' : Model) : Prop where
  numConns : m.numConns ≤ m'.numConns
  slot : ∀ i < m.numConns, R (m.connState i) (m'.connState i)

structure Preserved (P : Plankton) (R : ConnState → ConnState → Prop) : Prop where
  trans : ∀ {c c' c''}, R c c' → R c' c'' → R c c''
  writes : ∀ (c : ConnState) executable fwdMode candidates fib visitedHops, R c { c with
    executable := executable
    fwdMode := fwdMode
    candidates := candidates
    fib := fib
    visitedHops := visitedHops }
  forwards : ∀ {m m' : Model} {results}, m.execForwarding P results = some m' →
    m.cur.fwdMode ≠ .chooseInjRes → R m.cur m'.cur
  receives : ∀ {m : Model} {mb} {pkt pkt' : Packet} {c'},
    pkt.identified P m = some pkt' → pkt'.isNew = false →
    FiledAs P mb pkt' (m.connState pkt'.conn) c' → R (m.connState pkt'.conn) c'

namespace Preserved

theorem refl (hR : Preserved P R) (c : ConnState) : R c c :=
  hR.writes c c.executable c.fwdMode c.candidates c.fib c.visitedHops

theorem kept_refl (hR : Preserved P R) (m : Model) : Kept R m m := ⟨le_rfl, fun _ _ => hR.refl _⟩

theorem kept_trans (hR : Preserved P R) (h : Kept R m m') (h' : Kept R m' m'') : Kept R m m'' where
  numConns := h.numConns.trans h'.numConns
  slot i hi := hR.trans (h.slot i hi) (h'.slot i (hi.trans_le h.numConns))

theorem kept_setCur (hR : Preserved P R) {c : ConnState} {i : Nat} (hc : R (m.connState i) c) :
    Kept R m ((m.setConn i).setCur c) where
  numConns := le_rfl
  slot j _ := by
    rw [setCur_connState]
    split_ifs with hj
    · rw [show j = i from hj]
      exact hc
    · exact hR.refl _

theorem kept_of_setsCur (hR : Preserved P R) (h : SetsCur m m') (hcur : R m.cur m'.cur) :
    Kept R m m' where
  numConns := h.numConns.ge
  slot i _ := by
    by_cases hi : i = m.conn
    · have hslot : m'.connState m.conn = m'.cur := congrArg m'.connState h.sameControl.conn.symm
      rw [hi, hslot]
      exact hcur
    · rw [h.connState hi]
      exact hR.refl _

end Preserved

theorem identified_conn {pkt pkt' : Packet} (h : pkt.identified P m = some pkt')
    (hnew : pkt'.isNew = true) : pkt'.conn = m.numConns := by
  unfold Packet.identified at h
  split_ifs at h
  simp only [Option.bind_eq_bind, Option.bind_eq_some_iff] at h
  obtain ⟨pkt₁, h₁, pkt₂, h₂, h⟩ := h
  split_ifs at h
  obtain rfl := Option.some.inj h
  obtain ⟨isNew, oppositeDir, conn, rfl, hconn⟩ := identifyConn_cases h₁
  obtain ⟨protoState, nextPhase, rfl, -⟩ := processProtoState_cases h₂
  rcases hconn with ⟨rfl, -⟩ | ⟨-, hconn, -⟩
  · exact absurd hnew Bool.false_ne_true
  · exact hconn

theorem receivePacket_kept (hR : Preserved P R) {mb : NodePtr} {st st' : Model × Bool × Bool}
    {pkt : Packet} (h : receivePacket P mb st pkt = some st') : Kept R st.1 st'.1 := by
  rcases receivePacket_filed h with ⟨-, rfl⟩ | ⟨pkt', c', k, hid, rfl, hc'⟩
  · exact hR.kept_refl _
  · refine ⟨?_, fun i hi => ?_⟩
    · show st.1.numConns ≤ if pkt'.isNew then st.1.numConns + 1 else st.1.numConns
      split_ifs <;> omega
    · show R (st.1.connState i) ((st.1.setSlot pkt'.conn c').connState i)
      rw [setSlot_connState]
      split_ifs with hconn
      · subst hconn
        -- a connection that was there is not new
        have hold : pkt'.isNew = false := by
          rw [Bool.eq_false_iff]
          exact fun hnew => hi.ne (identified_conn hid hnew)
        exact hR.receives hid hold hc'
      · exact hR.refl _

theorem settleCurrent_kept (hR : Preserved P R) {mb : NodePtr} {explicitDrop cu ou : Bool}
    (h : m.settleCurrent mb explicitDrop cu ou = some m') : Kept R m m' := by
  apply hR.kept_of_setsCur (settleCurrent_setsCur h)
  rcases settleCurrent_cases h with rfl | ⟨-, rfl⟩ | ⟨-, _, -, -, rfl⟩
  · rw [dropCur, cur_setCur]
    exact hR.writes m.cur 0 .dropped m.cur.candidates m.cur.fib m.cur.visitedHops
  · rw [cur_setChoiceCount, cur_setCur]
    exact hR.writes m.cur 2 .forwardPacket (some [.accept mb]) m.cur.fib m.cur.visitedHops
  · exact hR.refl _

theorem execForwarding_kept (hR : Preserved P R) (h : m.execForwarding P results = some m') :
    Kept R m m' := by
  by_cases hmode : m.cur.fwdMode = .chooseInjRes
  · unfold execForwarding at h
    rw [hmode] at h
    apply chooseInjectionResults_invariant (Kept R m) h (hR.kept_refl m)
    · intro st st' pkt hreceive _ hkept
      exact hR.kept_trans hkept (receivePacket_kept hR hreceive)
    · intro m₁ explicitDrop cu ou _ hkept hsettle
      exact hR.kept_trans hkept (settleCurrent_kept hR hsettle)
  · exact hR.kept_of_setsCur (execForwarding_setsCur h hmode) (hR.forwards h hmode)

theorem execChooseConn_kept (hR : Preserved P R) (h : m.execChooseConn = some m') :
    Kept R m m' := by
  obtain ⟨m₁, h₁, hm'⟩ := execChooseConn_cases h
  obtain ⟨i, c, rfl, -, -, hpick⟩ := pickConn_cases h₁
  have hc : R (m.connState i) c := by
    generalize m.connState i = s at hpick ⊢
    rcases hpick with ⟨-, -, rfl⟩ | ⟨-, -, rfl⟩ | ⟨-, rfl⟩
    · exact hR.refl _
    · exact hR.writes s 2 s.fwdMode s.candidates s.fib s.visitedHops
    · exact hR.writes s s.executable .dropped s.candidates s.fib s.visitedHops
  have hkept := hR.kept_setCur hc
  rcases hm' with ⟨-, candidates, -, rfl⟩ | ⟨-, rfl⟩
  · exact ⟨hkept.numConns, hkept.slot⟩
  · exact ⟨hkept.numConns, hkept.slot⟩

theorem execOpenflow_kept (hR : Preserved P R) (h : m.execOpenflow P = some m') : Kept R m m' := by
  rcases execOpenflow_cases h with ⟨-, rfl⟩ | ⟨-, rfl⟩ |
    ⟨_, _, _, _, nextHops, -, -, -, -, -, rfl⟩
  · exact hR.kept_refl _
  · exact ⟨le_rfl, fun _ _ => hR.refl _⟩
  · have hkept := hR.kept_setCur (m := m) (hR.writes m.cur m.cur.executable m.cur.fwdMode
      m.cur.candidates (m.cur.fib.setIpnhs m.cur.pktLocation nextHops) m.cur.visitedHops)
    exact ⟨hkept.numConns, hkept.slot⟩

theorem judge_kept (hR : Preserved P R) (m : Model) (v : Verdict) : Kept R m (m.judge v) where
  numConns := le_rfl
  slot i _ := by
    rw [judge_connState]
    split_ifs with hi
    · rw [hi]
      exact hR.writes m.cur v.executable m.cur.fwdMode m.cur.candidates m.cur.fib v.visitedHops
    · exact hR.refl _

end Model

namespace Plankton

open Model

variable {P : Plankton} {R : ConnState → ConnState → Prop} {m m' : Model}
  {results : List InjectionResult}

theorem control_kept (hR : Preserved P R) (h : P.control results m = some m') : Kept R m m' := by
  obtain ⟨m₁, hswitch, hrest⟩ := control_cases h
  obtain ⟨p, k, rfl⟩ := checkToSwitchProcess_eq hswitch
  have hkept : Kept R m m₁ := by
    rcases hrest with ⟨-, h₁⟩ | ⟨-, h₁⟩ | ⟨-, h₁⟩
    · exact execChooseConn_kept hR h₁
    · exact execForwarding_kept hR h₁
    · exact execOpenflow_kept hR h₁
  exact ⟨hkept.numConns, hkept.slot⟩

end Plankton

end Neo
