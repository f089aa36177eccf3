import Neo.Process.Progress
import Neo.Process.StoredFib

/-! In every state a verification reaches, the connection that is set is one of the connections,
and each of them has a class of addresses as its destination. -/

namespace Neo

namespace Plankton

variable {P : Plankton} {st : OpenflowUpdateState} {c c' : ConnState}

def Classed (P : Plankton) (c : ConnState) : Prop := ∃ ec, P.IsEc ec ∧ c.dstIpEc = some ec

theorem Classed.sameFib (h : P.Classed c) (hsame : c.SameFib c') : P.Classed c' := by
  obtain ⟨ec, hec, hdst⟩ := h
  exact ⟨ec, hec, hsame.1.trans hdst⟩

theorem Current.classed (h : P.Current st c) : P.Classed c := by
  obtain ⟨ec, hec, hdst, -⟩ := h
  exact ⟨ec, hec, hdst⟩

theorem Files.classed (h : P.Files st c c') (hc : P.Classed c) : P.Classed c' := by
  rcases h with hcurrent | ⟨hsame, -⟩
  · exact hcurrent.classed
  · exact hc.sameFib hsame

end Plankton

namespace Model

variable {P : Plankton} {m m' : Model} {results : List InjectionResult}

def AllClassed (P : Plankton) (m : Model) : Prop := ∀ i < m.numConns, P.Classed (m.connState i)

theorem receivePacket_allClassed {mb : NodePtr} {st st' : Model × Bool × Bool} {pkt : Packet}
    (h : receivePacket P mb st pkt = some st') (hm : st.1.AllClassed P) : st'.1.AllClassed P := by
  rcases receivePacket_cases h with rfl | ⟨pkt', c', k, rfl, hc', hwhere, -⟩
  · exact hm
  · intro i hi
    show P.Classed ((st.1.setSlot pkt'.conn c').connState i)
    rw [setSlot_connState]
    split_ifs with hic
    · obtain ⟨ec, hfind, hdst, -⟩ := hc'.dstIpEc
      exact ⟨ec, ⟨pkt'.dstIp, hfind⟩, hdst⟩
    · apply hm i
      have hi' : i < if pkt'.isNew then st.1.numConns + 1 else st.1.numConns := hi
      rcases hwhere with ⟨hnew, -⟩ | ⟨hnew, hnum, -⟩
      · simpa [hnew] using hi'
      · rw [if_pos hnew] at hi'
        omega

theorem chooseInjectionResults_allClassed (h : m.chooseInjectionResults P = some m')
    (hm : m.AllClassed P) : m'.AllClassed P := by
  apply chooseInjectionResults_invariant (AllClassed P) h hm
  · intro st st' pkt hreceive _ hst
    exact receivePacket_allClassed hreceive hst
  · intro m₁ explicitDrop cu ou _ hm₁ hsettle i hi
    rw [(settleCurrent_setsCur hsettle).numConns] at hi
    exact (hm₁ i hi).sameFib (settleCurrent_sameFib hsettle i)

theorem execForwarding_allClassed (h : m.execForwarding P results = some m')
    (hm : m.AllClassed P) : m'.AllClassed P := by
  by_cases hmode : m.cur.fwdMode = .chooseInjRes
  · have hanswer : m.chooseInjectionResults P = some m' := by
      unfold execForwarding at h
      rwa [hmode] at h
    exact chooseInjectionResults_allClassed hanswer hm
  · have hsets := execForwarding_setsCur h hmode
    intro i hi
    rw [hsets.numConns] at hi
    by_cases hic : i = m.conn
    · have hfiles := execForwarding_files h hmode
      rw [cur, cur, (execForwarding_sameControl h).conn, ← hic] at hfiles
      exact hfiles.classed (hm i hi)
    · rw [hsets.connState hic]
      exact hm i hi

theorem execOpenflow_allClassed (h : m.execOpenflow P = some m') (hm : m.AllClassed P) :
    m'.AllClassed P := by
  rcases execOpenflow_cases h with ⟨-, rfl⟩ | ⟨-, rfl⟩ | ⟨_, _, _, _, _, -, -, -, -, -, rfl⟩
  · exact hm
  · exact hm
  · intro i hi
    obtain ⟨ec, hec, hdst⟩ : P.Classed (m.connState i) := hm i hi
    refine ⟨ec, hec, ?_⟩
    rw [← hdst]
    show (if i = m.conn then _ else m.connState i).dstIpEc = _
    by_cases hic : i = m.conn
    · rw [if_pos hic, hic]
      rfl
    · rw [if_neg hic]

theorem execChooseConn_allClassed (h : m.execChooseConn = some m') (hm : m.AllClassed P) :
    m'.AllClassed P := by
  have hfiles := execChooseConn_files (P := P) h
  obtain ⟨j, c, k, rfl⟩ := Plankton.execChooseConn_eq h
  intro i hi
  exact (hfiles i).classed (hm i hi)

end Model

def Invariants.HasConns (V : Invariants) : Prop := ∀ k inv, V.current k = some inv → inv.conns ≠ []

namespace Plankton

variable {P : Plankton} {V : Invariants} {m m' s t : Model} {results : List InjectionResult}
  {l : Label} {tr : List (Link Model Label)}

structure Addressed (P : Plankton) (m : Model) : Prop where
  conn : m.conn < m.numConns
  classed : m.AllClassed P
  legal : P.openflow.Legal m.openflowUpdateState

theorem control_addressed (h : P.control results m = some m') (hm : P.Addressed m) :
    P.Addressed m' := by
  refine ⟨(control_progresses h hm.conn).conn, ?_, control_legal h hm.legal⟩
  obtain ⟨m₁, hswitch, hrest⟩ := control_cases h
  obtain ⟨p, k, rfl⟩ := Model.checkToSwitchProcess_eq hswitch
  have hclassed : m₁.AllClassed P := by
    rcases hrest with ⟨-, h₁⟩ | ⟨-, h₁⟩ | ⟨-, h₁⟩
    · exact Model.execChooseConn_allClassed h₁ hm.classed
    · exact Model.execForwarding_allClassed h₁ hm.classed
    · exact Model.execOpenflow_allClassed h₁ hm.classed
  exact hclassed

theorem starts_addressed {inv : CheckedInvariant} (hstarts : inv.Starts P m m')
    (hconns : inv.conns ≠ []) (hinv : ∀ c ∈ inv.conns, P.IsEc c.dstIpEc)
    (hlegal : P.openflow.Legal m'.openflowUpdateState) : P.Addressed m' := by
  refine ⟨?_, ?_, hlegal⟩
  · rw [hstarts.conn, hstarts.numConns]
    exact List.length_pos_iff.mpr hconns
  · intro i hi
    rw [hstarts.numConns] at hi
    have hslot := hstarts.slot i _ (List.getElem?_eq_getElem hi)
    exact ⟨_, hinv _ (List.getElem_mem hi), hslot.dstIpEc⟩

theorem step_addressed (hV : P.OfClasses V) (hconns : V.HasConns) (h : P.step V m l = some m')
    (hm : P.Addressed m) : P.Addressed m' := by
  have hlegal := step_legal h hm.legal
  obtain ⟨-, m₁, m₂, r, hcontrol, hcheck, hafter⟩ := step_eq_some h
  have h₁ : P.Addressed m₁ := control_addressed hcontrol ⟨hm.conn, hm.classed, hm.legal⟩
  obtain ⟨inv, v, -, -, -, -, hr⟩ := Invariants.checkViolation_cases hcheck
  have hm₂ : m₂ = _ := congrArg Prod.fst hr
  rw [V.conclude_fst] at hm₂
  cases r with
  | false =>
    obtain rfl := Option.some.inj hafter
    refine ⟨?_, ?_, hlegal⟩
    · rw [hm₂]
      exact h₁.conn
    · intro i hi
      rw [hm₂] at hi ⊢
      show P.Classed ((m₁.judge v).connState i)
      rw [Model.judge_connState]
      split_ifs with hic
      · have hslot := h₁.classed i hi
        rw [hic] at hslot
        exact hslot
      · exact h₁.classed i hi
  | true =>
    obtain ⟨m₃, h₃, rfl⟩ := Option.map_eq_some_iff.mp (if_pos rfl ▸ hafter : P.reinit V m₂ = _)
    have hfresh : P.Addressed m₃ := by
      cases V with
      | single _ => simp [Invariants.reinit] at h₃
      | conditional invs | consistency invs =>
        obtain ⟨inv', hinv', hinit⟩ := Option.bind_eq_some_iff.mp h₃
        exact starts_addressed (CheckedInvariant.starts_of_init hinit) (hconns _ inv' hinv')
          (hV _ inv' hinv') hlegal
    exact ⟨hfresh.conn, hfresh.classed, hfresh.legal⟩

theorem run_addressed (hV : P.OfClasses V) (hconns : V.HasConns) (hs : P.initModel V = some s)
    (h : Run (P.step V) s tr t) : P.Addressed t := by
  have hlegal : P.openflow.Legal s.openflowUpdateState := by
    rw [initModel_openflowUpdateState hs]
    exact OpenflowProcess.legal_zeros _
  obtain ⟨-, -, inv, m₀, hinv, -, hstarts⟩ := initModel_cases hs
  have hstart := starts_addressed hstarts (hconns 0 inv hinv) (hV 0 inv hinv) hlegal
  refine (h.invariant P.Addressed hstart ?_).1
  intro l _ hstep hbefore
  exact step_addressed hV hconns hstep hbefore

end Plankton

end Neo
