import Neo.EarlyEnd
import Neo.Process.InstallUpdate
import Neo.Started

/-! What `Waypoint` reports. A run that meets no target node ends with the verdict it starts with,
whatever is demanded. -/

namespace Neo

namespace Waypoint

variable {P : Plankton} {targetNodes : List NodePtr} {passThrough : Bool}
  {conns : List Connection} {m m' s t : Model} {tr : List (Link Model Label)}

def invariants (targetNodes : List NodePtr) (passThrough : Bool) (conns : List Connection) :
    Invariants := .single ⟨.waypoint targetNodes passThrough, conns⟩

def Arrives (targetNodes : List NodePtr) (l : Link Model Label) : Prop :=
  Plankton.Forwards l.before l.after ∧ l.after.cur.pktLocation ∈ targetNodes

/-- The verdict that is demanded after a run: no packet arrived though packets should pass through,
or one arrived though none should. -/
def Demanded (targetNodes : List NodePtr) (passThrough : Bool) (tr : List (Link Model Label)) :
    Prop :=
  if passThrough then ¬ ∃ l ∈ tr, Arrives targetNodes l else ∃ l ∈ tr, Arrives targetNodes l

/-- As long as the run goes on there is no violation and no connection waits at a target node. -/
structure Unmet (targetNodes : List NodePtr) (m : Model) : Prop where
  violated : m.violated = false
  waits : ∀ i, (m.connState i).fwdMode = .collectNhops →
    (m.connState i).pktLocation ∉ targetNodes

theorem unmet_initModel (h : P.initModel (invariants targetNodes passThrough conns) = some s) :
    Unmet targetNodes s := by
  obtain ⟨-, -, m₀, hzero, hstarts⟩ := Plankton.initModel_single h
  refine ⟨hstarts.violated, fun i hi => ?_⟩
  by_cases hlt : i < conns.length
  · have := (hstarts.slot i conns[i] (List.getElem?_eq_getElem hlt)).fwdMode
    simp [hi] at this
  · rw [hstarts.rest i (Nat.le_of_not_lt hlt), hzero] at hi
    simp [ConnState.zero] at hi

/-- A step meets a target node and ends the run, or it leaves all targets unmet. -/
theorem step_cases {l : Label}
    (h : P.step (invariants targetNodes passThrough conns) m l = some m')
    (hm : Unmet targetNodes m) :
    (Arrives targetNodes ⟨m, l, m'⟩ ∧ m'.choiceCount = 0 ∧ m'.violated = !passThrough) ∨
      ¬ Arrives targetNodes ⟨m, l, m'⟩ ∧ Unmet targetNodes m' := by
  obtain ⟨-, m₁, hcontrol, hcheck⟩ := Plankton.step_single h
  have hviolated : m₁.violated = false :=
    (Plankton.control_violated hcontrol).trans hm.violated
  obtain rfl := Option.some.inj hcheck
  by_cases hmet : m₁.cur.fwdMode = .collectNhops ∧ m₁.cur.pktLocation ∈ targetNodes
  · left
    have hstop : m₁.checkWaypoint targetNodes passThrough = m₁.stop !passThrough := if_pos hmet
    rw [hstop]
    refine ⟨⟨?_, hmet.2⟩, rfl, rfl⟩
    -- waiting at a target node is new, so the packet was just forwarded
    rcases Plankton.control_waits hcontrol m₁.conn with hw | ⟨-, hf⟩
    · have hwaited := hw hmet.1
      exact absurd (hwaited.2 ▸ hmet.2) (hm.waits _ hwaited.1)
    · exact hf
  · right
    have hquiet : m₁.checkWaypoint targetNodes passThrough = m₁ := if_neg hmet
    rw [hquiet]
    refine ⟨fun harr => hmet ⟨harr.1.2.2, harr.2⟩, hviolated, fun i hi hmem => ?_⟩
    rcases Plankton.control_waits hcontrol i with hw | ⟨rfl, -⟩
    · exact hm.waits i (hw hi).1 ((hw hi).2 ▸ hmem)
    · exact hmet ⟨hi, hmem⟩

theorem run_violated (h : Run (P.step (invariants targetNodes passThrough conns)) s tr t)
    (hs : Unmet targetNodes s) :
    t.violated = true ↔ (∃ l ∈ tr, Arrives targetNodes l) ∧ passThrough = false := by
  induction h with
  | nil s => simp [hs.violated]
  | @cons s s' t a tr hstep hrest ih =>
    rcases step_cases hstep hs with ⟨harr, h₀, hviol⟩ | ⟨hnot, hs'⟩
    · -- nothing follows a step that ends the run
      cases hrest with
      | nil => simp [harr, hviol]
      | cons hstep' _ =>
        have hlt := (Plankton.step_eq_some hstep').1
        exact absurd (h₀ ▸ hlt) (Nat.not_lt_zero _)
    · rw [ih hs']
      simp [hnot]

/-- The verdict is the one demanded if and only if no pass is demanded, or one happens. -/
theorem verdict_iff (hs : P.initModel (invariants targetNodes passThrough conns) = some s)
    (h : Run (P.step (invariants targetNodes passThrough conns)) s tr t) :
    (t.violated = true ↔ Demanded targetNodes passThrough tr) ↔
      passThrough = false ∨ ∃ l ∈ tr, Arrives targetNodes l := by
  rw [run_violated h (unmet_initModel hs), Demanded]
  cases passThrough with
  | true => simp
  | false => simp

/-! A router with two hosts. It sends a datagram to the first one. -/

section Site

open OpenflowProcess (fork forkIntf forkNode)
open Plankton (connectedRoute noUpdates go)

def siteNode : NodePtr → Node
  | 0 => forkNode 0
  | 1 => ⟨[11], [connectedRoute (forkIntf 11)], by unfold Ordered.WeakSorted; decide,
      [(2, 0, 10)], false⟩
  | 2 => ⟨[21], [connectedRoute (forkIntf 21)], by unfold Ordered.WeakSorted; decide,
      [(2, 0, 20)], false⟩
  | _ => ⟨[], [], Route.weakSorted_nil, [], false⟩

def site : Network where
  nodes := [0, 1, 2]
  node := siteNode
  intf := forkIntf
  peer_mem n p hp := by
    rcases n with _ | _ | _ | n <;> simp [siteNode, forkNode] at hp ⊢
    · rcases hp with rfl | rfl <;> simp
    · subst hp; simp
    · subst hp; simp
  l2Lan _ _ := ⟨[], []⟩
  lan_built _ _ := ⟨1, 0, rfl⟩

def sitePlankton : Plankton := .ofNetwork site (noUpdates _)

def siteConn (protocol : Proto) : Connection where
  protocol := protocol
  srcNode := 0
  dstIpEc := (sitePlankton.ecs.findEc 0x0A000002#32).getD 0
  srcPort := 100#16
  dstPort := 80#16
  srcIp := 0#32
  seq := 0#32
  ack := 0#32

end Site

theorem verdict_demanded : ∃ s t tr,
    sitePlankton.initModel (invariants [2] false [siteConn .udp]) = some s ∧
      Run (sitePlankton.step (invariants [2] false [siteConn .udp])) s tr t ∧ t.choiceCount = 0 ∧
        (t.violated = true ↔ Demanded [2] false tr) := by
  have hrun : ((sitePlankton.initModel (invariants [2] false [siteConn .udp])).bind fun s =>
      (execute (sitePlankton.step (invariants [2] false [siteConn .udp])) s
        (List.replicate 10 Plankton.go)).map fun r => r.2.choiceCount) = some 0 := by
    decide +kernel
  obtain ⟨s, hs, hrun⟩ := Option.bind_eq_some_iff.mp hrun
  obtain ⟨⟨tr, t⟩, hexec, h₀⟩ := Option.map_eq_some_iff.mp hrun
  have hr := run_of_execute hexec
  exact ⟨s, t, tr, hs, hr, h₀, (verdict_iff hs hr).mpr (.inl rfl)⟩

/-- The datagram and its answer do not pass through the second host, and no violation is
reported. -/
theorem not_demanded : ¬ ∀ (P : Plankton) (targetNodes : List NodePtr) (passThrough : Bool)
    (conns : List Connection) (s t : Model) (tr : List (Link Model Label)),
    P.initModel (invariants targetNodes passThrough conns) = some s →
      Run (P.step (invariants targetNodes passThrough conns)) s tr t → t.choiceCount = 0 →
        (t.violated = true ↔ Demanded targetNodes passThrough tr) := by
  intro h
  have hrun : ((sitePlankton.initModel (invariants [2] true [siteConn .udp])).bind fun s =>
      (execute (sitePlankton.step (invariants [2] true [siteConn .udp])) s
        (List.replicate 10 Plankton.go)).map fun r =>
          (r.2.choiceCount, r.2.violated, r.1.all fun l => l.after.cur.pktLocation != 2)) =
            some (0, false, true) := by
    decide +kernel
  obtain ⟨s, hs, hrun⟩ := Option.bind_eq_some_iff.mp hrun
  obtain ⟨⟨tr, t⟩, hexec, hr⟩ := Option.map_eq_some_iff.mp hrun
  simp only [Prod.mk.injEq] at hr
  obtain ⟨h₀, hviol, hall⟩ := hr
  have hnone : Demanded [2] true tr := by
    rintro ⟨l, hl, -, hmem⟩
    have hloc := List.all_eq_true.mp hall l hl
    simp [List.mem_singleton.mp hmem] at hloc
  have hfinal := (h _ _ _ _ s t tr hs (run_of_execute hexec) h₀).mpr hnone
  simp [hviol] at hfinal

end Waypoint

end Neo
