import Neo.Invariant.Correlated
import Neo.Process.Located

/-! Whether a step has what it chooses from. The mode, the candidates and the injection results of
a connection are written by different functions; they go together, unless the first next hops are
collected at a middlebox, where `first_collect` overwrites the mode that the injection has set. -/

namespace Neo

structure ConnState.Supplied (S : NodePtr → Prop) (c : ConnState) : Prop where
  candidates : c.executable = 2 → c.AboutToForward → ∃ candidates, c.candidates = some candidates
  injResults : c.executable = 2 → c.fwdMode = .chooseInjRes →
    ∃ results, c.injResults = some results ∧ results ≠ []
  waits : c.executable = 1 → c.fwdMode = .collectNhops
  sources : c.executable = 2 → c.fwdMode = .firstCollect → S c.pktLocation

namespace Model

structure Chooses (m : Model) : Prop where
  candidates : m.processId = .forwarding → m.cur.executable = 2 → m.cur.AboutToForward →
    ∃ candidates, m.cur.candidates = some candidates ∧ ∃ hop, candidates[m.choice]? = some hop
  injResults : m.processId = .forwarding → m.cur.executable = 2 →
    m.cur.fwdMode = .chooseInjRes →
      ∃ results, m.cur.injResults = some results ∧ ∃ result, results[m.choice]? = some result
  conns : m.processId = .chooseConn → ∃ m', m.execChooseConn = some m'

structure Within (m : Model) : Prop where
  candidates : m.cur.AboutToForward → ∀ candidates, m.cur.candidates = some candidates →
    m.choiceCount ≤ candidates.length
  injResults : m.cur.fwdMode = .chooseInjRes → ∀ results, m.cur.injResults = some results →
    m.choiceCount ≤ results.length

structure Ready (S : NodePtr → Prop) (m : Model) : Prop where
  slots : ∀ i, (m.connState i).Supplied S
  executable : m.processId ≠ .chooseConn → m.cur.executable ≠ 1
  forwarding : m.processId = .forwarding → m.cur.executable = 2 → m.Within
  openflow : m.processId = .openflow → m.cur.fwdMode = .collectNhops ∨ m.cur.fwdMode = .firstCollect
  chooseConn : m.processId = .chooseConn →
    m.cur.executable ≠ 2 ∧ m.choiceCount ≤ m.updateChoiceCount.choiceCount

end Model

namespace Plankton

def FirstCollectsAtMb (P : Plankton) (m : Model) : Prop :=
  m.processId = .forwarding ∧ m.cur.executable = 2 ∧ m.cur.fwdMode = .firstCollect ∧
    (P.network.node m.cur.pktLocation).isEmulated = true

instance (P : Plankton) (m : Model) : Decidable (P.FirstCollectsAtMb m) :=
  inferInstanceAs (Decidable (_ ∧ _ ∧ _ ∧ _))

end Plankton

def Invariants.later : Invariants → List CheckedInvariant
  | single _ => []
  | conditional invs | consistency invs => invs.tail

namespace ConnState

variable {S : NodePtr → Prop} {c : ConnState}

theorem supplied_of_fwdMode (hmode : c.fwdMode = .collectNhops ∨ c.fwdMode = .firstCollect ∨
    c.fwdMode = .accepted ∨ c.fwdMode = .dropped)
    (hwaits : c.executable = 1 → c.fwdMode = .collectNhops)
    (hsources : c.fwdMode = .firstCollect → S c.pktLocation) : c.Supplied S := by
  refine ⟨fun _ h => ?_, fun _ h => ?_, hwaits, fun _ => hsources⟩
  · rcases h with h | h <;> simp [h] at hmode
  · simp [h] at hmode

theorem supplied_of_executable (h : c.executable = 0) : c.Supplied S :=
  ⟨fun h₂ => by simp [h] at h₂, fun h₂ => by simp [h] at h₂, fun h₁ => by simp [h] at h₁,
    fun h₂ => by simp [h] at h₂⟩

theorem supplied_of_candidates {candidates : Candidates} (hmode : c.AboutToForward)
    (hexec : c.executable ≠ 1) (h : c.candidates = some candidates) : c.Supplied S := by
  refine ⟨fun _ _ => ⟨candidates, h⟩, fun _ hinj => ?_, fun h₁ => absurd h₁ hexec,
    fun _ hfirst => ?_⟩
  · rcases hmode with hmode | hmode <;> simp [hinj] at hmode
  · rcases hmode with hmode | hmode <;> simp [hfirst] at hmode

theorem Supplied.congr {c' : ConnState} (h : c.Supplied S)
    (hexec : c'.executable = c.executable) (hmode : c'.fwdMode = c.fwdMode)
    (hc : c'.candidates = c.candidates) (hr : c'.injResults = c.injResults)
    (hloc : c'.pktLocation = c.pktLocation) : c'.Supplied S := by
  obtain ⟨hcandidates, hresults, hwaits, hsources⟩ := h
  unfold AboutToForward at hcandidates
  rw [← hexec, ← hmode] at hcandidates hresults hwaits hsources
  rw [← hc] at hcandidates
  rw [← hr] at hresults
  rw [← hloc] at hsources
  exact ⟨hcandidates, hresults, hwaits, hsources⟩

end ConnState

namespace Model

open ConnState

variable {P : Plankton} {S : NodePtr → Prop} {m m' : Model} {results : List InjectionResult}

theorem within_of_fwdMode (hmode : m.cur.fwdMode = .collectNhops ∨
    m.cur.fwdMode = .firstCollect ∨ m.cur.fwdMode = .accepted ∨ m.cur.fwdMode = .dropped) :
    m.Within := by
  refine ⟨fun h => ?_, fun h => ?_⟩
  · rcases h with h | h <;> simp [h] at hmode
  · simp [h] at hmode

theorem within_of_candidates {candidates : Candidates} (hmode : m.cur.AboutToForward)
    (h : m.cur.candidates = some candidates) (hcount : m.choiceCount = candidates.length) :
    m.Within := by
  refine ⟨fun _ cs hcs => ?_, fun hinj => ?_⟩
  · rw [h] at hcs
    rw [hcount, Option.some.inj hcs]
  · rcases hmode with hmode | hmode <;> simp [hinj] at hmode

/-! ### Forwarding -/

structure Restores (S : NodePtr → Prop) (m : Model) : Prop where
  slots : ∀ i, (m.connState i).Supplied S
  within : m.cur.executable = 2 → m.Within

theorem restores_of_setsCur (hm : ∀ i, (m.connState i).Supplied S) (h : SetsCur m m')
    (hcur : m'.cur.Supplied S) (hwithin : m'.cur.executable = 2 → m'.Within) : m'.Restores S := by
  refine ⟨fun i => ?_, hwithin⟩
  by_cases hi : i = m.conn
  · have hslot : m'.connState m.conn = m'.cur := congrArg m'.connState h.sameControl.conn.symm
    rw [hi, hslot]
    exact hcur
  · rw [h.connState hi]
    exact hm i

theorem collectNextHops_restores (hm : ∀ i, (m.connState i).Supplied S)
    (hexec : m.cur.executable ≠ 1) (h : m.collectNextHops P results = some m') :
    m'.Restores S := by
  apply restores_of_setsCur hm (collectNextHops_setsCur h)
  all_goals rcases collectNextHops_cases h with ⟨-, h⟩ | ⟨-, -, rfl⟩ | ⟨-, nextHops, -, -, rfl⟩
  · obtain ⟨hne, rfl⟩ := injectPacket_cases h
    rw [cur_setChoiceCount, cur_setCur]
    exact ⟨fun _ hmode => by simp [AboutToForward] at hmode, fun _ _ => ⟨results, rfl, hne⟩,
      fun h₁ => absurd h₁ hexec, fun _ hmode => by simp at hmode⟩
  · rw [dropCur, cur_setCur]
    exact supplied_of_executable rfl
  · rw [cur_setChoiceCount, cur_setCur]
    exact supplied_of_candidates (.inr rfl) hexec rfl
  · obtain ⟨-, rfl⟩ := injectPacket_cases h
    refine fun _ => ⟨fun hmode => ?_, fun _ rs hrs => ?_⟩
    · simp [AboutToForward] at hmode
    · rw [cur_setChoiceCount, cur_setCur] at hrs
      exact Option.some.inj hrs ▸ le_rfl
  · intro h₂
    simp [dropCur] at h₂
  · exact fun _ => within_of_candidates (.inr (by simp)) (by simp) rfl

theorem firstCollect_restores (hm : ∀ i, (m.connState i).Supplied S)
    (hexec : m.cur.executable ≠ 1)
    (hmb : m.cur.executable = 2 → (P.network.node m.cur.pktLocation).isEmulated = false)
    (h : m.firstCollect P results = some m') : m'.Restores S := by
  obtain ⟨m₁, h₁, rfl⟩ := firstCollect_cases h
  apply restores_of_setsCur hm ((collectNextHops_setsCur h₁).setCur _)
  all_goals rw [cur_setCur]
  all_goals rcases collectNextHops_cases h₁ with ⟨hemu, h₁⟩ | ⟨-, -, rfl⟩ |
    ⟨-, nextHops, -, -, rfl⟩
  · obtain ⟨-, rfl⟩ := injectPacket_cases h₁
    have h₂ : m.cur.executable ≠ 2 := fun h₂ => by simp [hmb h₂] at hemu
    rw [cur_setChoiceCount, cur_setCur]
    exact ⟨fun h => absurd h h₂, fun h => absurd h h₂, fun h => absurd h hexec,
      fun h => absurd h h₂⟩
  · rw [dropCur, cur_setCur]
    exact supplied_of_executable rfl
  · rw [cur_setChoiceCount, cur_setCur]
    exact supplied_of_candidates (.inl rfl) hexec rfl
  · obtain ⟨-, rfl⟩ := injectPacket_cases h₁
    intro h₂
    rw [cur_setChoiceCount, cur_setCur] at h₂
    simp [hmb h₂] at hemu
  · intro h₂
    simp [dropCur] at h₂
  · exact fun _ => within_of_candidates (.inl (by simp)) (by simp) rfl

theorem forwardPacket_restores (hm : ∀ i, (m.connState i).Supplied S)
    (hexec : m.cur.executable ≠ 1) (h : m.forwardPacket P = some m') : m'.Restores S := by
  apply restores_of_setsCur hm (forwardPacket_setsCur h)
  all_goals obtain ⟨candidates, nextHop, pathChoices, -, -, -, ⟨-, rfl⟩ | ⟨-, rfl⟩⟩ :=
    forwardPacket_cases h
  · simp only [deliver, cur_setChoiceCount, cur_setCur]
    exact supplied_of_fwdMode (by simp) (fun h₁ => absurd h₁ hexec) (by simp)
  · simp only [moveTo, cur_setChoiceCount, cur_setCur]
    exact supplied_of_fwdMode (by simp) (fun _ => rfl) (by simp)
  · exact fun _ => within_of_fwdMode (by simp [deliver])
  · exact fun _ => within_of_fwdMode (by simp [moveTo])

theorem firstForward_restores (hm : ∀ i, (m.connState i).Supplied S)
    (hexec : m.cur.executable ≠ 1) (h : m.firstForward P = some m') : m'.Restores S := by
  obtain ⟨srcIp, h⟩ := firstForward_cases h
  refine forwardPacket_restores (fun i => ?_) (by rwa [cur_setCur]) h
  rw [setCur_connState]
  split_ifs
  · exact (hm m.conn).congr rfl rfl rfl rfl rfl
  · exact hm i

theorem accepted_restores (hS : ∀ n, (P.network.node n).isEmulated = false → S n)
    (hm : ∀ i, (m.connState i).Supplied S) (hexec : m.cur.executable ≠ 1)
    (h : m.accepted P = some m') : m'.Restores S := by
  have hfreeze : (m.setCur { m.cur with executable := 0 }).Restores S := by
    apply restores_of_setsCur hm (setsCur_setCur m _)
    · rw [cur_setCur]
      exact supplied_of_executable rfl
    · intro h₂
      simp at h₂
  rcases accepted_cases h with ⟨-, rfl⟩ | ⟨-, changeDirection, h⟩
  · exact hfreeze
  · rcases phaseTransition_cases h with ⟨-, rfl⟩ | ⟨c, seq, ack, payload, rfl, hc⟩
    · exact hfreeze
    · have hc₁ : c.executable = m.cur.executable ∧ S c.pktLocation := by
        rcases hc with ⟨-, hnode, _, _, _, -, -, rfl⟩ | ⟨-, hnode, rfl⟩
        · exact ⟨rfl, hS _ hnode⟩
        · exact ⟨rfl, hS _ hnode⟩
      apply restores_of_setsCur hm (setsCur_setCur m _)
      · rw [cur_setCur]
        refine supplied_of_fwdMode (by simp) (fun h₁ => ?_) fun _ => hc₁.2
        exact absurd (hc₁.1.symm.trans h₁) hexec
      · exact fun _ => within_of_fwdMode (by simp)

theorem receivePacket_supplied {mb : NodePtr} {st st' : Model × Bool × Bool} {pkt : Packet}
    (hm : ∀ i, (st.1.connState i).Supplied S) (hcu : st.2.1 = true → st.1.cur.AboutToForward)
    (h : receivePacket P mb st pkt = some st') :
    (∀ i, (st'.1.connState i).Supplied S) ∧ (st'.2.1 = true → st'.1.cur.AboutToForward) := by
  rcases receivePacket_filed h with ⟨-, rfl⟩ | ⟨pkt', c', k, -, rfl, hc'⟩
  · exact ⟨hm, hcu⟩
  · have hslot : ∀ i, (((st.1.setSlot pkt'.conn c').setNumConns
        (if pkt'.isNew then st.1.numConns + 1 else st.1.numConns)).setChoiceCount k).connState i =
          if i = pkt'.conn then c' else st.1.connState i := fun i => rfl
    refine ⟨fun i => ?_, fun htrue => ?_⟩
    · rw [hslot]
      split_ifs
      · refine supplied_of_candidates hc'.forwards ?_ hc'.candidates
        rw [hc'.executable]
        decide
      · exact hm i
    · show (if st.1.conn = pkt'.conn then c' else st.1.connState st.1.conn).AboutToForward
      split_ifs with hconn
      · exact hc'.forwards
      · refine hcu ?_
        rcases Bool.or_eq_true_iff.mp htrue with htrue | htrue
        · exact htrue
        · exact absurd (beq_iff_eq.mp htrue).symm hconn

theorem chooseInjectionResults_restores (hm : ∀ i, (m.connState i).Supplied S)
    (h : m.chooseInjectionResults P = some m') : m'.Restores S := by
  obtain ⟨pkts, st, explicitDrop, hfold, hsettle⟩ := chooseInjectionResults_cases h
  have hst : (∀ i, (st.1.connState i).Supplied S) ∧ (st.2.1 = true → st.1.cur.AboutToForward) := by
    refine foldlM_invariant (fun st : Model × Bool × Bool => (∀ i, (st.1.connState i).Supplied S) ∧
      (st.2.1 = true → st.1.cur.AboutToForward)) pkts (fun pkt _ st st' hst h => ?_)
        ⟨hm, fun h => absurd h Bool.false_ne_true⟩ hfold
    exact receivePacket_supplied hst.1 hst.2 h
  obtain ⟨hslots, hcu⟩ := hst
  rcases settleCurrent_cases hsettle with rfl | ⟨-, rfl⟩ | ⟨htrue, candidates, hc, -, rfl⟩
  · apply restores_of_setsCur hslots (setsCur_setCur st.1 _)
    · rw [cur_setCur]
      exact supplied_of_executable rfl
    · intro h₂
      simp at h₂
  · apply restores_of_setsCur hslots ((setsCur_setCur st.1 _).setChoiceCount 1)
    · rw [cur_setChoiceCount, cur_setCur]
      exact supplied_of_candidates (.inr rfl) (by simp) rfl
    · have hc : ∀ k, ((st.1.setCur { st.1.cur with
          executable := 2
          fwdMode := .forwardPacket
          candidates := some [.accept m.cur.pktLocation] }).setChoiceCount k).cur.candidates =
            some [.accept m.cur.pktLocation] := fun k => by simp
      exact fun _ => within_of_candidates (.inr (by simp)) (hc 1) rfl
  · exact ⟨hslots, fun _ => within_of_candidates (hcu htrue) hc rfl⟩

theorem execForwarding_restores (hS : ∀ n, (P.network.node n).isEmulated = false → S n)
    (hm : ∀ i, (m.connState i).Supplied S) (hexec : m.cur.executable ≠ 1)
    (hmb : m.cur.executable = 2 → m.cur.fwdMode = .firstCollect →
      (P.network.node m.cur.pktLocation).isEmulated = false)
    (h : m.execForwarding P results = some m') : m'.Restores S := by
  unfold execForwarding at h
  split at h
  · next hmode => exact firstCollect_restores hm hexec (fun h₂ => hmb h₂ hmode) h
  · exact firstForward_restores hm hexec h
  · exact collectNextHops_restores hm hexec h
  · exact chooseInjectionResults_restores hm h
  · exact forwardPacket_restores hm hexec h
  · exact accepted_restores hS hm hexec h
  · obtain rfl := Option.some.inj h
    apply restores_of_setsCur hm (setsCur_setCur m _)
    · rw [cur_setCur]
      exact supplied_of_executable rfl
    · intro h₂
      simp at h₂

/-! ### The other processes -/

theorem pickConn_supplied (hm : ∀ i, (m.connState i).Supplied S) (h : m.pickConn = some m') :
    (∀ i, (m'.connState i).Supplied S) ∧ (m'.cur.AboutToForward → m'.cur.executable = 2) := by
  obtain ⟨i, c, rfl, hlt, -, hpick⟩ := pickConn_cases h
  have hc : c.Supplied S ∧ (c.AboutToForward → c.executable = 2) := by
    have hi := hm i
    rcases hpick with ⟨-, htwo, rfl⟩ | ⟨-, hone, rfl⟩ | ⟨hzero, rfl⟩
    · exact ⟨hi, fun _ => htwo⟩
    · have hmode := hi.waits hone
      refine ⟨supplied_of_fwdMode (.inl hmode) (fun _ => hmode) fun hfirst => ?_, fun _ => rfl⟩
      exact absurd (hmode.symm.trans hfirst) (by decide)
    · refine ⟨supplied_of_executable (hzero i hlt), fun hforward => ?_⟩
      simp [AboutToForward] at hforward
  refine ⟨fun j => ?_, by rw [cur_setCur]; exact hc.2⟩
  rw [setCur_connState]
  split_ifs
  · exact hc.1
  · exact hm j

theorem execChooseConn_restores (hm : ∀ i, (m.connState i).Supplied S)
    (h : m.execChooseConn = some m') : m'.Restores S := by
  obtain ⟨m₁, h₁, hm'⟩ := execChooseConn_cases h
  obtain ⟨hslots, -⟩ := pickConn_supplied hm h₁
  rcases hm' with ⟨hmode, candidates, hcandidates, rfl⟩ | ⟨hmode, rfl⟩
  · exact ⟨hslots, fun _ => within_of_candidates hmode.symm hcandidates rfl⟩
  · refine ⟨hslots, fun hexec => ⟨fun hforward => ?_, fun hinj results hresults => ?_⟩⟩
    · exact absurd (Or.symm hforward) hmode
    · obtain ⟨rs, hrs, hne⟩ := (hslots m₁.conn).injResults hexec hinj
      obtain rfl := Option.some.inj (hrs.symm.trans hresults)
      exact List.length_pos_iff.mpr hne

theorem exists_pickConn {k : Nat} (hk : k < m.updateChoiceCount.choiceCount) :
    ∃ m', (m.setChoice k).pickConn = some m' := by
  have hmap : ∀ e, (m.setChoice k).connMap e = m.connMap e := fun _ => rfl
  unfold updateChoiceCount at hk
  unfold pickConn
  simp only [hmap]
  split_ifs at hk with h₂ h₁ h₀
  · obtain ⟨conn, rest, heq⟩ := List.exists_cons_of_ne_nil h₂
    obtain rfl : k = 0 := Nat.lt_one_iff.mp hk
    rw [heq]
    exact ⟨_, rfl⟩
  · obtain ⟨conn, rest, heq⟩ := List.exists_cons_of_ne_nil h₁
    obtain ⟨next, hget⟩ : ∃ next, (conn :: rest)[k]? = some next :=
      ⟨_, List.getElem?_eq_getElem (heq ▸ hk)⟩
    rw [not_not.mp h₂, heq]
    dsimp only
    rw [setChoice_choice, hget]
    exact ⟨_, rfl⟩
  · obtain ⟨conn, rest, heq⟩ := List.exists_cons_of_ne_nil h₀
    obtain rfl : k = 0 := Nat.lt_one_iff.mp hk
    rw [not_not.mp h₂, not_not.mp h₁, heq]
    dsimp only
    split_ifs <;> exact ⟨_, rfl⟩
  · exact absurd hk (Nat.not_lt_zero k)

theorem exists_execChooseConn (hm : ∀ i, (m.connState i).Supplied S) {k : Nat}
    (hk : k < m.updateChoiceCount.choiceCount) :
    ∃ m', (m.setChoice k).execChooseConn = some m' := by
  obtain ⟨m₁, h₁⟩ := exists_pickConn hk
  obtain ⟨hslots, hexec⟩ := pickConn_supplied (m := m.setChoice k) hm h₁
  unfold execChooseConn
  rw [h₁]
  by_cases hmode : m₁.cur.fwdMode = .forwardPacket ∨ m₁.cur.fwdMode = .firstForward
  · obtain ⟨cs, hcs⟩ := (hslots m₁.conn).candidates (hexec hmode.symm) hmode.symm
    have hcur : m₁.cur.candidates = some cs := hcs
    refine ⟨m₁.setChoiceCount cs.length, ?_⟩
    rw [Option.bind_eq_bind, Option.bind_some, if_pos hmode, hcur]
    rfl
  · refine ⟨m₁.setChoiceCount 1, ?_⟩
    rw [Option.bind_eq_bind, Option.bind_some, if_neg hmode]
    rfl

theorem execOpenflow_restores (hm : ∀ i, (m.connState i).Supplied S)
    (hmode : m.cur.fwdMode = .collectNhops ∨ m.cur.fwdMode = .firstCollect)
    (h : m.execOpenflow P = some m') : m'.Restores S ∧
      (m'.cur.fwdMode = .collectNhops ∨ m'.cur.fwdMode = .firstCollect) := by
  have hslots : (∀ i, (m'.connState i).Supplied S) ∧
      (m'.cur.fwdMode = .collectNhops ∨ m'.cur.fwdMode = .firstCollect) := by
    rcases execOpenflow_cases h with ⟨-, rfl⟩ | ⟨-, rfl⟩ |
      ⟨_, _, _, _, nextHops, -, -, -, -, -, rfl⟩
    · exact ⟨hm, hmode⟩
    · exact ⟨hm, hmode⟩
    · refine ⟨fun i => ?_, by rwa [cur_setCur]⟩
      show ConnState.Supplied S (if i = m.conn then _ else m.connState i)
      split_ifs
      · exact (hm m.conn).congr rfl rfl rfl rfl rfl
      · exact hm i
  obtain ⟨hslots, hmode⟩ := hslots
  exact ⟨⟨hslots, fun _ => within_of_fwdMode (hmode.imp_right .inl)⟩, hmode⟩

theorem updateChoiceCount_congr (h : ∀ e, m'.connMap e = m.connMap e) :
    m'.updateChoiceCount.choiceCount = m.updateChoiceCount.choiceCount := by
  unfold updateChoiceCount
  simp only [h]
  split_ifs <;> rfl

theorem checkToSwitchProcess_ready (hm : m.Restores S)
    (hopenflow : m.processId = .openflow →
      m.cur.fwdMode = .collectNhops ∨ m.cur.fwdMode = .firstCollect)
    (h : m.checkToSwitchProcess P = some m') : m'.Ready S := by
  rcases checkToSwitchProcess_cases h with ⟨hexec, rfl⟩ | ⟨hexec, hrest⟩
  · obtain ⟨n, hn, -⟩ := updateChoiceCount_cases (m.setProcessId .chooseConn)
    rw [hn]
    refine ⟨hm.slots, fun hp => absurd rfl hp, ?_, ?_, fun _ => ?_⟩
    · intro hp
      simp at hp
    · intro hp
      simp at hp
    · refine ⟨hexec, ?_⟩
      have hcount : (m.setProcessId .chooseConn).updateChoiceCount.choiceCount = n := by
        rw [hn]
        rfl
      exact hcount.ge.trans_eq (updateChoiceCount_congr fun _ => rfl)
  · have hone : m.cur.executable ≠ 1 := by
      rw [hexec]
      decide
    have hwithin := hm.within hexec
    rcases hrest with ⟨-, rfl⟩ | ⟨-, hmode, -, rfl⟩ | ⟨hp, rfl⟩ | ⟨hp, -, rfl⟩ | ⟨hp, -, rfl⟩
    · exact ⟨hm.slots, fun _ => hone, fun _ _ => ⟨hwithin.candidates, hwithin.injResults⟩,
        fun hp => by simp at hp, fun hp => by simp at hp⟩
    · exact ⟨hm.slots, fun _ => hone, fun hp => by simp at hp, fun _ => hmode,
        fun hp => by simp at hp⟩
    · exact ⟨hm.slots, fun _ => hone, fun _ _ => hwithin, fun hp' => by simp [hp] at hp',
        fun hp' => by simp [hp] at hp'⟩
    · exact ⟨hm.slots, fun _ => hone, fun _ _ => ⟨hwithin.candidates, hwithin.injResults⟩,
        fun hp => by simp at hp, fun hp => by simp at hp⟩
    · exact ⟨hm.slots, fun _ => hone, fun _ _ => hwithin, fun _ => hopenflow hp,
        fun hp' => by simp [hp] at hp'⟩

/-! ### The check -/

theorem judge_connMap {v : Verdict} (h : v.executable = m.cur.executable) (e : Fin 3) :
    (m.judge v).connMap e = m.connMap e := by
  have hsame : ∀ i, ((m.judge v).connState i).executable = (m.connState i).executable ∧
      ((m.judge v).connState i).isFinished = (m.connState i).isFinished := by
    intro i
    rw [judge_connState]
    split_ifs with hi
    · subst hi
      exact ⟨h, congrArg (fun x => x == 0 && _) h⟩
    · exact ⟨rfl, rfl⟩
  unfold connMap
  refine List.filter_congr fun i _ => ?_
  rw [(hsame i).1, (hsame i).2]

theorem judge_ready {v : Verdict} (hm : m.Ready S) (hv : v.Fits m) : (m.judge v).Ready S := by
  have hcount : (m.judge v).choiceCount ≤ m.choiceCount := by
    rw [judge_choiceCount]
    split_ifs <;> omega
  have hcur : m.cur.Supplied S := hm.slots m.conn
  have hexec : ∀ e, v.executable = e → e ≠ 0 → m.cur.executable = e := by
    intro e he hne
    rcases hv.executable with h | ⟨h, -⟩
    · exact h.symm.trans he
    · exact absurd (he.symm.trans h) hne
  refine ⟨fun i => ?_, fun hp h₁ => ?_, fun hp h₂ => ?_, fun hp => ?_, fun hp => ?_⟩
  · rw [judge_connState]
    split_ifs
    · exact ⟨fun h₂ => hcur.candidates (hexec 2 h₂ (by decide)),
        fun h₂ => hcur.injResults (hexec 2 h₂ (by decide)),
        fun h₁ => hcur.waits (hexec 1 h₁ (by decide)),
        fun h₂ => hcur.sources (hexec 2 h₂ (by decide))⟩
    · exact hm.slots i
  · rw [judge_cur] at h₁
    exact hm.executable hp (hexec 1 h₁ (by decide))
  · rw [judge_cur] at h₂
    obtain ⟨hc, hr⟩ := hm.forwarding hp (hexec 2 h₂ (by decide))
    refine ⟨fun hmode cs hcs => ?_, fun hmode rs hrs => ?_⟩
    · rw [judge_cur] at hmode hcs
      exact hcount.trans (hc hmode cs hcs)
    · rw [judge_cur] at hmode hrs
      exact hcount.trans (hr hmode rs hrs)
  · rw [judge_cur]
    exact hm.openflow hp
  · obtain ⟨h₂, hle⟩ := hm.chooseConn hp
    -- a connection that is not executable any more was not before
    have hsame : v.executable = m.cur.executable := by
      rcases hv.executable with h | ⟨h, hmode⟩
      · exact h
      · have h₁ : m.cur.executable ≠ 1 := fun h₁ => by simp [hcur.waits h₁] at hmode
        rw [h]
        generalize m.cur.executable = e at h₁ h₂
        match e with
        | 0 => rfl
        | 1 => exact absurd rfl h₁
        | 2 => exact absurd rfl h₂
    refine ⟨?_, ?_⟩
    · rw [judge_cur]
      exact hsame ▸ h₂
    · rw [updateChoiceCount_congr (judge_connMap hsame)]
      exact hcount.trans hle

end Model

namespace Plankton

open Model

variable {P : Plankton} {V : Invariants} {S : NodePtr → Prop} {m m' s t : Model} {l : Label}
  {results : List InjectionResult} {tr : List (Link Model Label)}

theorem control_ready (hS : ∀ n, (P.network.node n).isEmulated = false → S n) (hm : m.Ready S)
    (hmb : ¬ P.FirstCollectsAtMb m) (h : P.control results m = some m') : m'.Ready S := by
  obtain ⟨m₁, hswitch, ⟨hp, h₁⟩ | ⟨hp, h₁⟩ | ⟨hp, h₁⟩⟩ := control_cases h
  · refine checkToSwitchProcess_ready (execChooseConn_restores hm.slots h₁) ?_ hswitch
    intro hp'
    obtain ⟨i, c, k, rfl⟩ := execChooseConn_eq h₁
    exact absurd (hp.symm.trans hp') (by decide)
  · have hexec : m.cur.executable ≠ 1 := hm.executable (by rw [hp]; decide)
    have hnode : m.cur.executable = 2 → m.cur.fwdMode = .firstCollect →
        (P.network.node m.cur.pktLocation).isEmulated = false := by
      intro h₂ hmode
      rw [← Bool.not_eq_true]
      exact fun hemu => hmb ⟨hp, h₂, hmode, hemu⟩
    have hrestores := execForwarding_restores hS hm.slots hexec hnode h₁
    refine checkToSwitchProcess_ready hrestores (fun hp' => ?_) hswitch
    rw [(execForwarding_sameControl h₁).processId, hp] at hp'
    exact absurd hp' (by decide)
  · obtain ⟨hrestores, hmode⟩ := execOpenflow_restores hm.slots (hm.openflow hp) h₁
    exact checkToSwitchProcess_ready hrestores (fun _ => hmode) hswitch

theorem conclude_ready {result : Option Bool} (hm : m.Ready S) :
    (V.conclude result m).1.Ready S := by
  have hcount : (V.conclude result m).1.choiceCount ≤ m.choiceCount := by
    by_cases h₀ : m.choiceCount = 0
    · rcases V.conclude_of_stop result h₀ with ⟨b, -, h⟩ | ⟨-, h⟩
      · rw [h]
        exact Nat.zero_le _
      · rw [h]
        exact le_rfl
    · rw [V.conclude_of_choiceCount result h₀]
  rw [V.conclude_fst result m]
  generalize (V.conclude result m).1.choiceCount = k at hcount ⊢
  refine ⟨hm.slots, hm.executable, fun hp h₂ => ?_, hm.openflow, fun hp => ?_⟩
  · obtain ⟨hc, hr⟩ := hm.forwarding hp h₂
    exact ⟨fun hmode cs hcs => hcount.trans (hc hmode cs hcs),
      fun hmode rs hrs => hcount.trans (hr hmode rs hrs)⟩
  · obtain ⟨h₂, hle⟩ := hm.chooseConn hp
    exact ⟨h₂, (hcount.trans hle).trans_eq (updateChoiceCount_congr fun _ => rfl)⟩

/-! ### Runs -/

theorem supplied_of_starts {c : Connection} {st : OpenflowUpdateState} {s : ConnState}
    (h : c.Starts P st s) (hsrc : S c.srcNode) : s.Supplied S := by
  refine ConnState.supplied_of_fwdMode (.inr (.inl h.fwdMode)) (fun h₁ => ?_) fun _ => ?_
  · rw [h.executable] at h₁
    exact absurd h₁ (by decide)
  · rw [h.pktLocation]
    exact hsrc

theorem ready_of_starts {inv : CheckedInvariant} (h : inv.Starts P m m')
    (hp : m'.processId = .forwarding) (hsrc : ∀ c ∈ inv.conns, S c.srcNode)
    (hm : ∀ i, (m.connState i).Supplied S)
    (hnil : inv.conns = [] → (m.connState 0).executable = 0) : m'.Ready S := by
  have hslots : ∀ i, (m'.connState i).Supplied S := by
    intro i
    rcases Nat.lt_or_ge i inv.conns.length with hlt | hge
    · exact supplied_of_starts (h.slot i _ (List.getElem?_eq_getElem hlt))
        (hsrc _ (List.getElem_mem hlt))
    · rw [h.rest i hge]
      exact hm i
  have hcur : m'.cur.executable = 0 ∨ m'.cur.executable = 2 ∧ m'.cur.fwdMode = .firstCollect := by
    cases hconns : inv.conns with
    | nil =>
      left
      rw [cur, h.conn, h.rest 0 (by simp [hconns])]
      exact hnil hconns
    | cons c cs =>
      have hc := h.cur (c := c) (by simp [hconns])
      exact .inr ⟨hc.executable, hc.fwdMode⟩
  refine ⟨hslots, fun _ h₁ => ?_, fun _ h₂ => ?_, fun hp' => ?_, fun hp' => ?_⟩
  · rcases hcur with h₀ | ⟨h₂, -⟩
    · simp [h₀] at h₁
    · simp [h₂] at h₁
  · rcases hcur with h₀ | ⟨-, hmode⟩
    · simp [h₀] at h₂
    · exact within_of_fwdMode (.inr (.inl hmode))
  · simp [hp] at hp'
  · simp [hp] at hp'

theorem initModel_ready (hsrc : ∀ i inv, V.current i = some inv → ∀ c ∈ inv.conns, S c.srcNode)
    (h : P.initModel V = some s) : s.Ready S := by
  obtain ⟨hp, -, inv, m₀, hinv, hzero, hstarts⟩ := initModel_cases h
  refine ready_of_starts hstarts hp (hsrc 0 inv hinv) (fun i => ?_) fun _ => ?_
  · rw [hzero]
    exact ConnState.supplied_of_executable rfl
  · rw [hzero]
    rfl

theorem reinit_cases (h : P.reinit V m = some m') :
    ∃ inv, V.current m.correlatedInvIdx = some inv ∧ (∀ inv', V ≠ .single inv') ∧
      inv.Starts P (P.initOpenflow m) m' ∧ m'.processId = .forwarding := by
  obtain ⟨m₁, h₁, rfl⟩ := Option.map_eq_some_iff.mp h
  have hidx : (P.initOpenflow m).correlatedInvIdx = m.correlatedInvIdx := by
    unfold initOpenflow
    split_ifs <;> rfl
  cases V with
  | single _ => simp [Invariants.reinit] at h₁
  | conditional invs | consistency invs =>
    obtain ⟨inv, hinv, hinit⟩ := Option.bind_eq_some_iff.mp h₁
    rw [hidx] at hinv
    obtain ⟨hslot, hrest, hvisited, hconn, hnum, hst, hviol, hidx'⟩ :=
      CheckedInvariant.starts_of_init hinit
    exact ⟨inv, hinv, fun _ => by simp, ⟨hslot, hrest, hvisited, hconn, hnum, hst, hviol, hidx'⟩,
      rfl⟩

theorem mem_later {inv : CheckedInvariant} {i : Nat} (hV : ∀ inv', V ≠ .single inv')
    (h : V.current (i + 1) = some inv) : inv ∈ V.later := by
  cases V with
  | single inv' => exact absurd rfl (hV inv')
  | conditional invs | consistency invs =>
    have htail : invs.tail[i]? = some inv := List.getElem?_tail.trans h
    exact List.mem_of_getElem? htail

theorem setChoice_ready (hm : m.Ready S) (k : Nat) : (m.setChoice k).Ready S := by
  refine ⟨hm.slots, hm.executable, fun hp h₂ => ?_, hm.openflow, fun hp => ?_⟩
  · exact ⟨(hm.forwarding hp h₂).candidates, (hm.forwarding hp h₂).injResults⟩
  · exact ⟨(hm.chooseConn hp).1,
      (hm.chooseConn hp).2.trans_eq (updateChoiceCount_congr fun _ => rfl)⟩

theorem step_ready (hS : ∀ n, (P.network.node n).isEmulated = false → S n)
    (hsrc : ∀ i inv, V.current i = some inv → ∀ c ∈ inv.conns, S c.srcNode)
    (hV : ∀ inv ∈ V.later, inv.conns ≠ []) (hm : m.Ready S) (hmb : ¬ P.FirstCollectsAtMb m)
    (h : P.step V m l = some m') : m'.Ready S := by
  obtain ⟨-, m₁, m₂, r, hcontrol, hcheck, hafter⟩ := step_eq_some h
  have hm₁ : m₁.Ready S := control_ready hS (setChoice_ready hm l.choice) hmb hcontrol
  obtain ⟨inv, v, -, -, hv, -, hr⟩ := Invariants.checkViolation_cases hcheck
  have hm₂ : (V.conclude l.result (m₁.judge v)).1.Ready S := conclude_ready (judge_ready hm₁ hv)
  rw [← hr] at hm₂
  cases r with
  | false => exact Option.some.inj hafter ▸ hm₂
  | true =>
    -- the next invariant starts, behind the one that was verified
    obtain ⟨inv', hinv', hsingle, hstarts, hp⟩ :=
      reinit_cases ((if_pos rfl).symm.trans hafter)
    have hidx : m₂.correlatedInvIdx = (m₁.judge v).correlatedInvIdx + 1 := by
      by_cases h₀ : (m₁.judge v).choiceCount = 0
      · rcases V.conclude_of_stop l.result h₀ with ⟨b, -, hstop⟩ | ⟨-, hnext⟩
        · exact absurd (congrArg Prod.snd (hr.trans hstop)) (by simp)
        · exact congrArg (·.1.correlatedInvIdx) (hr.trans hnext)
      · exact absurd (congrArg Prod.snd (hr.trans (V.conclude_of_choiceCount l.result h₀)))
          (by simp)
    rw [hidx] at hinv'
    refine ready_of_starts hstarts hp (hsrc _ inv' hinv') (fun i => ?_) fun hnil => ?_
    · rw [initOpenflow_connState]
      exact hm₂.slots i
    · exact absurd hnil (hV inv' (mem_later hsingle hinv'))

theorem chooses_of_ready (hm : m.Ready S) {k : Nat} (hk : k < m.choiceCount) :
    (m.setChoice k).Chooses := by
  refine ⟨fun hp h₂ hmode => ?_, fun hp h₂ hmode => ?_, fun hp => ?_⟩
  · obtain ⟨cs, hcs⟩ := (hm.slots m.conn).candidates h₂ hmode
    have hlt : k < cs.length := hk.trans_le ((hm.forwarding hp h₂).candidates hmode cs hcs)
    exact ⟨cs, hcs, cs[k], List.getElem?_eq_getElem hlt⟩
  · obtain ⟨rs, hrs, -⟩ := (hm.slots m.conn).injResults h₂ hmode
    have hlt : k < rs.length := hk.trans_le ((hm.forwarding hp h₂).injResults hmode rs hrs)
    exact ⟨rs, hrs, rs[k], List.getElem?_eq_getElem hlt⟩
  · exact exists_execChooseConn hm.slots (hk.trans_le (hm.chooseConn hp).2)

/-- In a run in which the first next hops are never collected at a middlebox there always is what a
step chooses from. -/
theorem chooses_of_run (hV : ∀ inv ∈ V.later, inv.conns ≠ []) (hs : P.initModel V = some s)
    (hrun : Run (P.step V) s tr t) (hmb : ∀ l ∈ tr, ¬ P.FirstCollectsAtMb l.before) {k : Nat}
    (hk : k < t.choiceCount) : (t.setChoice k).Chooses := by
  have hready : t.Ready fun _ => True := by
    refine (hrun.invariant (Ready fun _ => True) ?_ fun l hl hstep hm => ?_).1
    · exact initModel_ready (fun _ _ _ _ _ => trivial) hs
    · exact step_ready (fun _ _ => trivial) (fun _ _ _ _ _ => trivial) hV hm (hmb l hl) hstep
  exact chooses_of_ready hready hk

theorem not_firstCollectsAtMb_of_sources
    (hsrc : ∀ i inv, V.current i = some inv → ∀ c ∈ inv.conns,
      (P.network.node c.srcNode).isEmulated = false)
    (hV : ∀ inv ∈ V.later, inv.conns ≠ []) (hs : P.initModel V = some s)
    (hrun : Run (P.step V) s tr t) : ∀ l ∈ tr, ¬ P.FirstCollectsAtMb l.before := by
  let S : NodePtr → Prop := fun n => (P.network.node n).isEmulated = false
  have hnot : ∀ m : Model, m.Ready S → ¬ P.FirstCollectsAtMb m := by
    rintro m hm ⟨-, hexec, hmode, hemu⟩
    have hnode : S m.cur.pktLocation := (hm.slots m.conn).sources hexec hmode
    exact absurd (hnode.symm.trans hemu) (by decide)
  have hready := hrun.invariant (Ready S) (initModel_ready hsrc hs) fun l _ hstep hm =>
    step_ready (fun _ hn => hn) hsrc hV hm (hnot _ hm) hstep
  exact fun l hl => hnot _ (hready.2 l hl).1

theorem control_firstCollectsAtMb (hmb : P.FirstCollectsAtMb m) (hnone : m.cur.candidates = none)
    (h : P.control results m = some m') : m'.processId = .forwarding ∧ m'.cur.executable = 2 ∧
      0 < m'.choiceCount ∧ ∀ k, ¬ (m'.setChoice k).Chooses := by
  obtain ⟨hp, hexec, hmode, hemu⟩ := hmb
  obtain ⟨m₁, hswitch, ⟨hp', -⟩ | ⟨-, h₁⟩ | ⟨hp', -⟩⟩ := control_cases h
  · simp [hp] at hp'
  · unfold execForwarding at h₁
    rw [hmode] at h₁
    obtain ⟨m₂, h₂, rfl⟩ := firstCollect_cases h₁
    rcases collectNextHops_cases h₂ with ⟨-, h₂⟩ | ⟨hnode, -⟩ | ⟨hnode, -⟩
    · obtain ⟨hne, rfl⟩ := injectPacket_cases h₂
      rcases checkToSwitchProcess_cases hswitch with ⟨hexec', -⟩ |
        ⟨-, ⟨hp', -⟩ | ⟨-, hmode', -⟩ | ⟨-, rfl⟩ | ⟨hp', -⟩ | ⟨hp', -⟩⟩
      · simp [hexec] at hexec'
      · simp [hp] at hp'
      · simp at hmode'
      · refine ⟨hp, by simpa using hexec, List.length_pos_iff.mpr hne, fun k hchooses => ?_⟩
        obtain ⟨cs, hcs, -⟩ := hchooses.candidates hp (by simpa using hexec) (.inl (by simp))
        simp [hnone] at hcs
      · simp [hp] at hp'
      · simp [hp] at hp'
    · simp [hnode] at hemu
    · simp [hnode] at hemu
  · simp [hp] at hp'

theorem chooses_gateway : ∃ s t tr, gatewayPlankton.initModel gatewayInvariant = some s ∧
    Run (gatewayPlankton.step gatewayInvariant) s tr t ∧ t.cur.fwdMode = .chooseInjRes ∧
      t.choiceCount = 1 ∧ (t.setChoice 0).Chooses := by
  have hrun : ((gatewayPlankton.initModel gatewayInvariant).bind fun s =>
      (execute (gatewayPlankton.step gatewayInvariant) s
        ((gatewayLabels ⟨[], true⟩).take 4)).map fun r =>
          (r.2.cur.fwdMode, r.2.choiceCount,
            r.1.all fun l => decide (¬ gatewayPlankton.FirstCollectsAtMb l.before))) =
              some (.chooseInjRes, 1, true) := by
    decide +kernel
  obtain ⟨s, hs, hrun⟩ := Option.bind_eq_some_iff.mp hrun
  obtain ⟨⟨tr, t⟩, hexec, hr⟩ := Option.map_eq_some_iff.mp hrun
  simp only [Prod.mk.injEq] at hr
  obtain ⟨hmode, hcount, hall⟩ := hr
  have hmb : ∀ l ∈ tr, ¬ gatewayPlankton.FirstCollectsAtMb l.before := by
    simpa using hall
  exact ⟨s, t, tr, hs, run_of_execute hexec, hmode, hcount,
    chooses_of_run (by simp [gatewayInvariant, Invariants.later]) hs (run_of_execute hexec) hmb
      (hcount ▸ Nat.one_pos)⟩

def mbInvariant : Invariants :=
  .single ⟨.waypoint [0] true, [{ datagramConn 100 with srcNode := 1 }]⟩

/-- After its injection the packet is to be forwarded, but it has no candidates. -/
theorem not_chooses : ¬ ∀ (P : Plankton) (V : Invariants) (s t : Model)
    (tr : List (Link Model Label)), P.initModel V = some s → Run (P.step V) s tr t →
      ∀ k < t.choiceCount, (t.setChoice k).Chooses := by
  intro h
  have hrun : ((gatewayPlankton.initModel mbInvariant).bind fun s =>
      (execute (gatewayPlankton.step mbInvariant) s [injectFor []]).map fun r =>
        (r.2.processId, r.2.cur.executable, r.2.cur.fwdMode, r.2.choiceCount,
          r.2.cur.candidates.isNone)) = some (.forwarding, 2, .firstForward, 1, true) := by
    decide +kernel
  obtain ⟨s, hs, hrun⟩ := Option.bind_eq_some_iff.mp hrun
  obtain ⟨⟨tr, t⟩, hexec, hr⟩ := Option.map_eq_some_iff.mp hrun
  simp only [Prod.mk.injEq] at hr
  obtain ⟨hp, h₂, hmode, hcount, hnone⟩ := hr
  have hchooses := h _ _ s t tr hs (run_of_execute hexec) 0 (hcount ▸ Nat.one_pos)
  obtain ⟨cs, hcs, -⟩ := hchooses.candidates hp h₂ (.inl hmode)
  have hcur : t.cur.candidates = some cs := hcs
  rw [hcur] at hnone
  exact absurd hnone Bool.false_ne_true

end Plankton

end Neo
