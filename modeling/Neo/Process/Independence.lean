import Neo.Invariant.Waypoint
import Neo.Process.Congruence
import Neo.Process.ModelOnly

/-! Connections are independent where no middlebox answers: a step of the forwarding process reads
and writes the connection that is set, so steps of two connections commute. -/

namespace Neo

namespace Model

variable {P : Plankton} {m m' n n' : Model} {results : List InjectionResult}

structure SameView (m n : Model) : Prop where
  cur : m.cur = n.cur
  choice : m.choice = n.choice
  openflowUpdateState : m.openflowUpdateState = n.openflowUpdateState

theorem congruence_sameView : Congruence SameView where
  cur h := h.cur
  choice h := h.choice
  openflowUpdateState h := h.openflowUpdateState
  setCur c h := ⟨by rw [cur_setCur, cur_setCur], h.choice, h.openflowUpdateState⟩
  setChoiceCount _ h := ⟨h.cur, h.choice, h.openflowUpdateState⟩

def forwardConn (P : Plankton) (results : List InjectionResult) (m : Model) (conn choice : Nat) :
    Option Model :=
  ((m.setConn conn).setChoice choice).execForwarding P results

def NoneInjected (m : Model) : Prop := ∀ i, (m.connState i).fwdMode ≠ .chooseInjRes

theorem advances_fwdMode {st : OpenflowUpdateState} {choice : Nat} {c c' : ConnState}
    (h : Advances P st choice c c') (hc : c.fwdMode ≠ .chooseInjRes) :
    c'.fwdMode ≠ .chooseInjRes := by
  cases h with
  | collect nextHops candidates mode hmode => rcases hmode with ⟨-, rfl⟩ | ⟨-, rfl⟩ <;> simp
  | starve mode hmode => rcases hmode with ⟨-, rfl⟩ | ⟨-, rfl⟩ <;> simp
  | deliver | move | answer | again => simp
  | last | dropped => exact hc

theorem NoneInjected.setCur (h : m.NoneInjected) {c : ConnState}
    (hc : c.fwdMode ≠ .chooseInjRes) : (m.setCur c).NoneInjected := by
  intro i
  rw [setCur_connState]
  split_ifs
  · exact hc
  · exact h i

end Model

namespace Plankton

variable {P : Plankton} {V : Invariants} {m m' s : Model} {results : List InjectionResult}
  {tr : List (Link Model Label)}

theorem control_noneInjected (hnet : P.network.ModelOnly) (h : P.control results m = some m')
    (hm : m.NoneInjected) : m'.NoneInjected := by
  obtain ⟨m₁, hswitch, hrest⟩ := control_cases h
  obtain ⟨p, k, rfl⟩ := Model.checkToSwitchProcess_eq hswitch
  show m₁.NoneInjected
  rcases hrest with ⟨-, h₁⟩ | ⟨-, h₁⟩ | ⟨-, h₁⟩
  · obtain ⟨m₂, h₂, hm₁⟩ := Model.execChooseConn_cases h₁
    obtain ⟨j, c, rfl, -, -, hpick⟩ := Model.pickConn_cases h₂
    have hc : c.fwdMode ≠ .chooseInjRes := by
      rcases hpick with ⟨-, -, rfl⟩ | ⟨-, -, rfl⟩ | ⟨-, rfl⟩
      · exact hm j
      · exact hm j
      · simp
    have hset : ((m.setConn j).setCur c).NoneInjected :=
      Model.NoneInjected.setCur (m := m.setConn j) hm hc
    rcases hm₁ with ⟨-, candidates, -, rfl⟩ | ⟨-, rfl⟩
    · exact hset
    · exact hset
  · obtain ⟨c, k, rfl, hadvances⟩ := Model.execForwarding_advances hnet (hm m.conn) h₁
    exact hm.setCur (Model.advances_fwdMode hadvances (hm m.conn))
  · rcases Model.execOpenflow_cases h₁ with ⟨-, rfl⟩ | ⟨-, rfl⟩ |
      ⟨_, _, _, _, _, -, -, -, -, -, rfl⟩
    · exact hm
    · exact hm
    · exact Model.NoneInjected.setCur (m := Model.setChoiceCount _ _) hm (hm m.conn)

theorem control_numConns (hnet : P.network.ModelOnly) (h : P.control results m = some m')
    (hm : m.NoneInjected) : m'.numConns = m.numConns := by
  obtain ⟨m₁, hswitch, hrest⟩ := control_cases h
  obtain ⟨p, k, rfl⟩ := Model.checkToSwitchProcess_eq hswitch
  show m₁.numConns = _
  rcases hrest with ⟨-, h₁⟩ | ⟨-, h₁⟩ | ⟨-, h₁⟩
  · obtain ⟨i, c, k, rfl⟩ := execChooseConn_eq h₁
    rfl
  · obtain ⟨c, k, rfl, -⟩ := Model.execForwarding_advances hnet (hm m.conn) h₁
    rfl
  · rcases Model.execOpenflow_cases h₁ with ⟨-, rfl⟩ | ⟨-, rfl⟩ |
      ⟨_, _, _, _, _, -, -, -, -, -, rfl⟩
    · rfl
    · rfl
    · rfl

theorem run_noneInjected (hnet : P.network.ModelOnly) (hs : P.initModel V = some s)
    (h : Run (P.step V) s tr m) : m.NoneInjected := by
  have hstart : ∀ (c : Connection) st t, c.Starts P st t → t.fwdMode ≠ .chooseInjRes := by
    intro c st t hstarts
    rw [hstarts.fwdMode]
    decide
  have hinit : s.NoneInjected :=
    initModel_slots (fun c => c.fwdMode ≠ .chooseInjRes) (by decide) hstart hs
  apply And.left
  apply h.invariant Model.NoneInjected hinit
  intro l _ hstep hbefore
  apply step_slots (fun c => c.fwdMode ≠ .chooseInjRes) hstart (fun _ _ _ hc => hc) hstep
  intro m₁ hcontrol
  exact control_noneInjected hnet hcontrol hbefore

end Plankton

namespace Independence

variable {P : Plankton} {V : Invariants} {s m : Model} {tr : List (Link Model Label)}

theorem forwardConn_connState {results : List InjectionResult} {c k : Nat} {m' : Model}
    (hm : m.NoneInjected) (h : m.forwardConn P results c k = some m') :
    ∀ j, j ≠ c → m'.connState j = m.connState j := by
  intro j hj
  exact (Model.execForwarding_setsCur h (hm c)).connState hj

theorem forwardConn_congr {n : Model} {results : List InjectionResult} {c k : Nat}
    (hn : n.NoneInjected) (hc : m.connState c = n.connState c)
    (hst : m.openflowUpdateState = n.openflowUpdateState) :
    Option.Rel Model.SameView (m.forwardConn P results c k) (n.forwardConn P results c k) := by
  have hview : Model.SameView ((m.setConn c).setChoice k) ((n.setConn c).setChoice k) :=
    ⟨hc, rfl, hst⟩
  exact Model.congruence_sameView.execForwarding hview (hn c)

theorem forwardConn_after {rs : List InjectionResult} {c d k : Nat} {m' : Model}
    (rs' : List InjectionResult) (l : Nat) (hm : m.NoneInjected) (hne : c ≠ d)
    (h : m.forwardConn P rs c k = some m') :
    Option.Rel Model.SameView (m'.forwardConn P rs' d l) (m.forwardConn P rs' d l) := by
  apply forwardConn_congr hm
  · exact forwardConn_connState hm h d hne.symm
  · exact (Model.execForwarding_sameControl h).openflowUpdateState

theorem forwardConn_conn {results : List InjectionResult} {c k : Nat} {m' : Model}
    (h : m.forwardConn P results c k = some m') : m'.conn = c :=
  (Model.execForwarding_sameControl h).conn

theorem forwardConn_none {rs rs' : List InjectionResult} {c d k l : Nat} {m' : Model}
    (hm : m.NoneInjected) (hne : c ≠ d) (hc : m.forwardConn P rs c k = some m')
    (hd : m.forwardConn P rs' d l = none) : m'.forwardConn P rs' d l = none := by
  have hrel := forwardConn_after rs' l hm hne hc
  rw [hd] at hrel
  generalize m'.forwardConn P rs' d l = x at hrel
  cases hrel
  rfl

theorem forwardConn_both {rs rs' : List InjectionResult} {c d k l : Nat} {m₁ m₂ : Model}
    (hm : m.NoneInjected) (hne : c ≠ d) (hc : m.forwardConn P rs c k = some m₁)
    (hd : m.forwardConn P rs' d l = some m₂) :
    ∃ n, m₁.forwardConn P rs' d l = some n ∧ ∀ j, n.connState j =
      if j = d then m₂.connState d else if j = c then m₁.connState c else m.connState j := by
  have hrel := forwardConn_after rs' l hm hne hc
  rw [hd] at hrel
  cases hn : m₁.forwardConn P rs' d l with
  | none =>
    rw [hn] at hrel
    cases hrel
  | some n =>
    rw [hn] at hrel
    cases hrel with
    | some hview =>
      refine ⟨n, rfl, ?_⟩
      have hd₁ : m₁.connState d = m.connState d := forwardConn_connState hm hc d hne.symm
      have hown : n.connState d = m₂.connState d := by
        have hcur := hview.cur
        unfold Model.cur at hcur
        rwa [forwardConn_conn hn, forwardConn_conn hd] at hcur
      have hmode : (m₁.connState d).fwdMode ≠ .chooseInjRes := hd₁ ▸ hm d
      intro j
      split_ifs with hjd hjc
      · rw [hjd, hown]
      · rw [(Model.execForwarding_setsCur hn hmode).connState hjd, hjc]
        rfl
      · rw [(Model.execForwarding_setsCur hn hmode).connState hjd]
        exact forwardConn_connState hm hc j hjc

/-- In a network without middleboxes, a step for one connection leaves the others as they are, and
steps for two connections commute. -/
theorem independent (hnet : P.network.ModelOnly) (hs : P.initModel V = some s)
    (h : Run (P.step V) s tr m) :
    (∀ rs c k m', m.forwardConn P rs c k = some m' →
      ∀ j, j ≠ c → m'.connState j = m.connState j) ∧
    ∀ rs rs' c d k l, c ≠ d →
      ((m.forwardConn P rs c k).bind fun m' => m'.forwardConn P rs' d l).map Model.connState =
        ((m.forwardConn P rs' d l).bind fun m' => m'.forwardConn P rs c k).map
          Model.connState := by
  have hm : m.NoneInjected := Plankton.run_noneInjected hnet hs h
  refine ⟨fun rs c k m' => forwardConn_connState hm, ?_⟩
  intro rs rs' c d k l hne
  cases hc : m.forwardConn P rs c k with
  | none =>
    cases hd : m.forwardConn P rs' d l with
    | none => rfl
    | some m₂ =>
      rw [Option.bind_none, Option.bind_some, forwardConn_none hm hne.symm hd hc]
  | some m₁ =>
    cases hd : m.forwardConn P rs' d l with
    | none =>
      rw [Option.bind_none, Option.bind_some, forwardConn_none hm hne hc hd]
    | some m₂ =>
      obtain ⟨n, hn, hstate⟩ := forwardConn_both hm hne hc hd
      obtain ⟨n', hn', hstate'⟩ := forwardConn_both hm hne.symm hd hc
      rw [Option.bind_some, Option.bind_some, hn, hn', Option.map_some, Option.map_some]
      apply congrArg some
      funext j
      rw [hstate, hstate']
      by_cases hjd : j = d
      · have hjc : j ≠ c := fun hjc => hne (hjc.symm.trans hjd)
        rw [if_pos hjd, if_neg hjc, if_pos hjd]
      · rw [if_neg hjd, if_neg hjd]

section Site

open Waypoint (site sitePlankton siteConn invariants)

theorem site_modelOnly : site.ModelOnly := by
  intro n
  rcases n with _ | _ | _ | n <;> rfl

theorem independent_site : ∃ s m tr,
    sitePlankton.initModel (invariants [2] true [siteConn .udp, siteConn .tcp]) = some s ∧
      Run (sitePlankton.step (invariants [2] true [siteConn .udp, siteConn .tcp])) s tr m ∧
      ((m.forwardConn sitePlankton [] 0 0).bind fun m' =>
          m'.forwardConn sitePlankton [] 1 0).map Model.connState =
        ((m.forwardConn sitePlankton [] 1 0).bind fun m' =>
          m'.forwardConn sitePlankton [] 0 0).map Model.connState := by
  have hrun : ((sitePlankton.initModel (invariants [2] true [siteConn .udp, siteConn .tcp])).bind
      fun s => (execute (sitePlankton.step (invariants [2] true [siteConn .udp, siteConn .tcp])) s
        (List.replicate 2 Plankton.go)).map fun r => r.2.numConns) = some 2 := by
    decide +kernel
  obtain ⟨s, hs, hrun⟩ := Option.bind_eq_some_iff.mp hrun
  obtain ⟨⟨tr, m⟩, hexec, -⟩ := Option.map_eq_some_iff.mp hrun
  have hr := run_of_execute hexec
  exact ⟨s, m, tr, hs, hr, (independent site_modelOnly hs hr).2 [] [] 0 1 0 0 (by decide)⟩

end Site

end Independence

end Neo
