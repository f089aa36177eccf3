import Neo.Process.InstallUpdate
import Neo.Started

/-! The counters of installed updates along a run. An installation adds one to the counter of the
node of the packet, which never exceeds the number of updates of that node. -/

namespace Neo

namespace OpenflowProcess

variable {net : Network} {of : OpenflowProcess net.toTopology} {st st' : OpenflowUpdateState}
  {n : NodePtr} {i num : Nat}

theorem legal_zeros (of : OpenflowProcess net.toTopology) :
    of.Legal (List.replicate of.updates.length 0) := by
  apply List.forall₂_iff_get.mpr
  refine ⟨by rw [List.length_replicate], ?_⟩
  intro j _ _
  simp

theorem installed_zeros (n : NodePtr) :
    of.installed (List.replicate of.updates.length 0) n = 0 := by
  by_cases hup : ∃ p ∈ of.updates, p.1 = n
  · obtain ⟨p, hp, rfl⟩ := hup
    obtain ⟨num, hzip⟩ := exists_mem_zip (legal_zeros of) hp
    rw [installed_of_mem (legal_zeros of) hzip]
    exact List.eq_of_mem_replicate (List.of_mem_zip hzip).2
  · exact installed_of_notMem fun p hp hpn => hup ⟨p, hp, hpn⟩

theorem nodeOrder_eq_some (hi : of.nodeOrder n = some i) :
    ∃ h : i < of.updates.length, of.updates[i].1 = n ∧ of.updatesOf n = of.updates[i].2 := by
  obtain ⟨hlt, hn, -⟩ := List.findIdx?_eq_some_iff_getElem.mp hi
  have hn' : of.updates[i].1 = n := by simpa using hn
  exact ⟨hlt, hn', hn' ▸ updatesOf_of_mem (List.getElem_mem hlt)⟩

theorem mem_zip_getElem (hst : of.Legal st) {j : Nat} (hj : j < of.updates.length) :
    ∃ h : j < st.length, (of.updates[j], st[j]) ∈ of.updates.zip st := by
  have hj' : j < st.length := hst.length_eq ▸ hj
  refine ⟨hj', List.mem_iff_getElem.mpr ⟨j, ?_, ?_⟩⟩
  · simp [hj, hj']
  · simp

theorem installed_of_nodeOrder (hst : of.Legal st) (hi : of.nodeOrder n = some i)
    (hnum : st.numOfInstalledUpdates i = some num) : of.installed st n = num := by
  obtain ⟨hlt, hn, -⟩ := nodeOrder_eq_some hi
  obtain ⟨hlt', hmem⟩ := mem_zip_getElem hst hlt
  have hnum' : st[i]? = some num := hnum
  rw [List.getElem?_eq_getElem hlt'] at hnum'
  rw [← hn, installed_of_mem hst hmem]
  exact Option.some.inj hnum'

theorem legal_installUpdateAt (hst : of.Legal st) (hi : of.nodeOrder n = some i)
    (hnum : st.numOfInstalledUpdates i = some num) (hlt : num < (of.updatesOf n).length)
    (h : st.installUpdateAt i = some st') : of.Legal st' := by
  obtain ⟨hi', hn, hup⟩ := nodeOrder_eq_some hi
  obtain ⟨hlen, hall⟩ := List.forall₂_iff_get.mp hst
  unfold OpenflowUpdateState.installUpdateAt at h
  split_ifs at h with hist
  obtain rfl := Option.some.inj h
  have hnum' : st[i] = num := by
    have hget : st[i]? = some num := hnum
    rw [List.getElem?_eq_getElem hist] at hget
    exact Option.some.inj hget
  apply List.forall₂_iff_get.mpr
  refine ⟨by rw [List.length_modify, hlen], ?_⟩
  intro j hj hj'
  rw [List.length_modify] at hj'
  rw [List.get_eq_getElem, List.get_eq_getElem, List.getElem_modify]
  dsimp only
  split_ifs with hij
  · subst hij
    rw [hnum', ← hup]
    exact hlt
  · exact hall j hj hj'

theorem installed_installUpdateAt (hst : of.Legal st) (hst' : of.Legal st')
    (hi : of.nodeOrder n = some i) (h : st.installUpdateAt i = some st') (n' : NodePtr) :
    of.installed st' n' = if n' = n then of.installed st n + 1 else of.installed st n' := by
  obtain ⟨hlt, hn, -⟩ := nodeOrder_eq_some hi
  unfold OpenflowUpdateState.installUpdateAt at h
  split_ifs at h with hist
  obtain rfl := Option.some.inj h
  by_cases hup : ∃ p ∈ of.updates, p.1 = n'
  · obtain ⟨p, hp, rfl⟩ := hup
    obtain ⟨j, hj, rfl⟩ := List.getElem_of_mem hp
    obtain ⟨hj₁, hmem⟩ := mem_zip_getElem hst hj
    obtain ⟨hj₂, hmem'⟩ := mem_zip_getElem hst' hj
    rw [installed_of_mem hst' hmem', installed_of_mem hst hmem, List.getElem_modify]
    by_cases hij : i = j
    · subst hij
      rw [if_pos rfl, if_pos hn, ← hn, installed_of_mem hst hmem]
    · have hne : of.updates[j].1 ≠ n := by
        intro heq
        have hsorted := List.pairwise_iff_getElem.mp of.sorted
        rcases Nat.lt_or_gt_of_ne hij with hlt' | hgt
        · exact absurd (hn.trans heq.symm) (hsorted i j hlt hj hlt').ne
        · exact absurd (heq.trans hn.symm) (hsorted j i hj hlt hgt).ne
      rw [if_neg hij, if_neg hne]
  · have hnot : ∀ p ∈ of.updates, p.1 ≠ n' := fun p hp hpn => hup ⟨p, hp, hpn⟩
    have hne : n' ≠ n := fun heq => hnot _ (List.getElem_mem hlt) (hn.trans heq.symm)
    rw [installed_of_notMem hnot, installed_of_notMem hnot, if_neg hne]

end OpenflowProcess

namespace Plankton

variable {P : Plankton} {V : Invariants} {m m' s t : Model} {results : List InjectionResult}
  {l : Label} {tr : List (Link Model Label)}

/-- What the installation of an update does: the counter goes up, and the entry of the node in the
FIB of the connection is recomputed. -/
structure Installs (P : Plankton) (m m' : Model) (i num : Nat) (ec : EcPtr)
    (nextHops : List FibIpnh) : Prop where
  nodeOrder : P.openflow.nodeOrder m.cur.pktLocation = some i
  counter : m.openflowUpdateState.numOfInstalledUpdates i = some num
  installed : m.openflowUpdateState.installUpdateAt i = some m'.openflowUpdateState
  dstIpEc : m.cur.dstIpEc = some ec
  computed : OpenflowProcess.newNextHops P.network m.cur.pktLocation
    (P.openflow.updatesOf m.cur.pktLocation) num (P.ecs.ranges ec) = some nextHops
  connState : ∀ j, m'.connState j = if j = m.conn then
    { m.cur with fib := m.cur.fib.setIpnhs m.cur.pktLocation nextHops } else m.connState j
  numConns : m'.numConns = m.numConns

theorem Installs.num_lt {i num : Nat} {ec : EcPtr} {nextHops : List FibIpnh}
    (h : Installs P m m' i num ec nextHops) :
    num < (P.openflow.updatesOf m.cur.pktLocation).length := by
  obtain ⟨u, hu, -⟩ := Option.bind_eq_some_iff.mp h.computed
  exact (List.getElem?_eq_some_iff.mp hu).1

theorem control_openflowUpdateState (h : P.control results m = some m') :
    m'.openflowUpdateState = m.openflowUpdateState ∨
      m.processId = .openflow ∧ ∃ i num ec nextHops, Installs P m m' i num ec nextHops := by
  obtain ⟨m₁, hswitch, hrest⟩ := control_cases h
  obtain ⟨p, k, rfl⟩ := Model.checkToSwitchProcess_eq hswitch
  rcases hrest with ⟨-, h₁⟩ | ⟨-, h₁⟩ | ⟨hp, h₁⟩
  · obtain ⟨i, c, k, rfl⟩ := execChooseConn_eq h₁
    exact .inl rfl
  · exact .inl (Model.execForwarding_sameControl h₁).openflowUpdateState
  · rcases Model.execOpenflow_cases h₁ with ⟨-, rfl⟩ | ⟨-, rfl⟩ |
      ⟨i, num, st, ec, nextHops, hi, hnum, hst, hec, hnew, rfl⟩
    · exact .inl rfl
    · exact .inl rfl
    · exact .inr ⟨hp, i, num, ec, nextHops, hi, hnum, hst, hec, hnew, fun j => rfl, rfl⟩

theorem control_legal (h : P.control results m = some m')
    (hm : P.openflow.Legal m.openflowUpdateState) :
    P.openflow.Legal m'.openflowUpdateState := by
  rcases control_openflowUpdateState h with hsame | ⟨-, i, num, ec, nextHops, hinst⟩
  · exact hsame ▸ hm
  · exact OpenflowProcess.legal_installUpdateAt hm hinst.nodeOrder hinst.counter hinst.num_lt
      hinst.installed

theorem initOpenflow_legal (hm : P.openflow.Legal m.openflowUpdateState) :
    (P.initOpenflow m).openflowUpdateState = List.replicate P.openflow.updates.length 0 := by
  unfold initOpenflow
  split_ifs with hnil
  · have hempty : m.openflowUpdateState.length = P.openflow.updates.length := hm.length_eq.symm
    rw [hnil] at hempty ⊢
    exact List.length_eq_zero_iff.mp hempty
  · rfl

theorem initOpenflow_zero (P : Plankton) :
    (P.initOpenflow .zero).openflowUpdateState = List.replicate P.openflow.updates.length 0 := by
  unfold initOpenflow
  split_ifs with hnil
  · rw [hnil]
    rfl
  · rfl

theorem checkViolation_openflowUpdateState {m₁ : Model} {r : Bool}
    (h : V.checkViolation l.result m = some (m₁, r)) :
    m₁.openflowUpdateState = m.openflowUpdateState := by
  obtain ⟨inv, v, -, -, -, -, hr⟩ := Invariants.checkViolation_cases h
  have hfst := V.conclude_fst l.result (m.judge v)
  rw [← hr] at hfst
  rw [show m₁ = _ from hfst]
  rfl

theorem step_legal (h : P.step V m l = some m')
    (hm : P.openflow.Legal m.openflowUpdateState) :
    P.openflow.Legal m'.openflowUpdateState := by
  obtain ⟨-, m₁, m₂, r, hcontrol, hcheck, hafter⟩ := step_eq_some h
  have h₁ : P.openflow.Legal m₁.openflowUpdateState := control_legal hcontrol hm
  have h₂ : P.openflow.Legal m₂.openflowUpdateState := by
    rw [checkViolation_openflowUpdateState hcheck]
    exact h₁
  cases r with
  | false => exact Option.some.inj hafter ▸ h₂
  | true =>
    obtain ⟨m₃, h₃, rfl⟩ := Option.map_eq_some_iff.mp (if_pos rfl ▸ hafter : P.reinit V m₂ = _)
    show P.openflow.Legal m₃.openflowUpdateState
    cases V with
    | single _ => simp [Invariants.reinit] at h₃
    | conditional invs | consistency invs =>
      obtain ⟨inv, -, hinit⟩ := Option.bind_eq_some_iff.mp h₃
      rw [(CheckedInvariant.starts_of_init hinit).openflowUpdateState, initOpenflow_legal h₂]
      exact OpenflowProcess.legal_zeros _

theorem initModel_openflowUpdateState (h : P.initModel V = some s) :
    s.openflowUpdateState = List.replicate P.openflow.updates.length 0 := by
  obtain ⟨m₁, h₁, rfl⟩ := Option.map_eq_some_iff.mp h
  show m₁.openflowUpdateState = _
  rw [← P.initOpenflow_zero]
  cases V with
  | single inv =>
    have hinit : inv.init P (P.initOpenflow .zero) = some m₁ := h₁
    exact (CheckedInvariant.starts_of_init hinit).openflowUpdateState
  | conditional invs | consistency invs =>
    obtain ⟨inv, -, hinit⟩ := Option.bind_eq_some_iff.mp h₁
    exact (CheckedInvariant.starts_of_init hinit).openflowUpdateState

theorem run_legal (hs : P.initModel V = some s) (h : Run (P.step V) s tr t) :
    P.openflow.Legal t.openflowUpdateState ∧
      ∀ l ∈ tr, P.openflow.Legal l.before.openflowUpdateState := by
  have hinit : P.openflow.Legal s.openflowUpdateState := by
    rw [initModel_openflowUpdateState hs]
    exact OpenflowProcess.legal_zeros _
  have hrun := h.invariant (fun m => P.openflow.Legal m.openflowUpdateState) hinit
    fun l _ hstep hbefore => step_legal hstep hbefore
  exact ⟨hrun.1, fun l hl => (hrun.2 l hl).1⟩

end Plankton

end Neo
