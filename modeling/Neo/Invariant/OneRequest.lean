import Neo.Invariant.Waypoint

/-! What `OneRequest` reports. It starts with a violation and never takes it back, whatever is
counted. -/

namespace Neo

def ConnState.requestAccepted (c : ConnState) : Bool :=
  c.fwdMode == .accepted && c.protoState.isRequest || c.protoState.isReqAckOrRep

def ConnState.getsAccepted (c c' : ConnState) : Bool := !c.requestAccepted && c'.requestAccepted

def acceptedRequests (l : Link Model Label) : List Nat :=
  (List.range l.after.numConns).filter fun i =>
    (l.before.connState i).getsAccepted (l.after.connState i)

namespace OneRequest

open Waypoint (sitePlankton siteConn)

variable {P : Plankton} {targetNodes : List NodePtr} {conns : List Connection}
  {m m' s t : Model} {tr : List (Link Model Label)}

def invariants (targetNodes : List NodePtr) (conns : List Connection) : Invariants :=
  .single ⟨.oneRequest targetNodes, conns⟩

def requestsAt (targetNodes : List NodePtr) (tr : List (Link Model Label)) : List Nat :=
  tr.flatMap fun l =>
    if l.before.cur.pktLocation ∈ targetNodes then acceptedRequests l else []

def Settled (n : Nat) (violated : Bool) : Prop :=
  (n = 1 → violated = false) ∧ (2 ≤ n → violated = true)

theorem violated_initModel (h : P.initModel (invariants targetNodes conns) = some s) :
    s.violated = true := by
  obtain ⟨-, -, m₀, -, hstarts⟩ := Plankton.initModel_single h
  exact hstarts.violated

theorem violated_step {l : Label} (h : P.step (invariants targetNodes conns) m l = some m')
    (hm : m.violated = true) : m'.violated = true := by
  obtain ⟨-, m₁, hcontrol, hcheck⟩ := Plankton.step_single h
  have hviolated : m₁.violated = true := (Plankton.control_violated hcontrol).trans hm
  obtain rfl := Option.some.inj hcheck
  show (m₁.checkOneRequest targetNodes).violated = true
  unfold Model.checkOneRequest
  dsimp only
  split
  · rw [Model.countReach_eq_judge]
    show (_ || m₁.violated) = true
    rw [hviolated, Bool.or_true]
  · exact hviolated

theorem run_violated (h : Run (P.step (invariants targetNodes conns)) s tr t)
    (hs : s.violated = true) : t.violated = true := by
  have hrun := h.invariant (fun m => m.violated = true) hs
  apply And.left
  apply hrun
  intro l _ hstep hbefore
  exact violated_step hstep hbefore

/-- The verdict is as demanded if and only if there is not exactly one request. -/
theorem settled_iff (hs : P.initModel (invariants targetNodes conns) = some s)
    (h : Run (P.step (invariants targetNodes conns)) s tr t) :
    Settled (requestsAt targetNodes tr).length t.violated ↔
      (requestsAt targetNodes tr).length ≠ 1 := by
  have hviolated : t.violated = true := run_violated h (violated_initModel hs)
  rw [hviolated]
  unfold Settled
  constructor
  · intro hsettled hone
    exact absurd (hsettled.1 hone) (by decide)
  · intro hne
    exact ⟨fun hone => absurd hone hne, fun _ => rfl⟩

def twoConns : List Connection := [siteConn .udp, { siteConn .udp with srcPort := 101#16 }]

theorem settled_twice : ∃ s t tr,
    sitePlankton.initModel (invariants [1] twoConns) = some s ∧
      Run (sitePlankton.step (invariants [1] twoConns)) s tr t ∧ t.choiceCount = 0 ∧
        (requestsAt [1] tr).length = 2 ∧ Settled (requestsAt [1] tr).length t.violated := by
  have hrun : ((sitePlankton.initModel (invariants [1] twoConns)).bind fun s =>
      (execute (sitePlankton.step (invariants [1] twoConns)) s
        (List.replicate 10 Plankton.go)).map fun r =>
          (r.2.choiceCount, (requestsAt [1] r.1).length)) = some (0, 2) := by
    decide +kernel
  obtain ⟨s, hs, hrun⟩ := Option.bind_eq_some_iff.mp hrun
  obtain ⟨⟨tr, t⟩, hexec, hr⟩ := Option.map_eq_some_iff.mp hrun
  obtain ⟨h₀, htwo⟩ := Prod.mk.inj hr
  have hr := run_of_execute hexec
  refine ⟨s, t, tr, hs, hr, h₀, htwo, (settled_iff hs hr).mpr ?_⟩
  dsimp only at htwo
  rw [htwo]
  decide

/-- The only request is accepted by the first host, and a violation is reported. -/
theorem not_settled : ¬ ∀ (P : Plankton) (targetNodes : List NodePtr) (conns : List Connection)
    (s t : Model) (tr : List (Link Model Label)),
    P.initModel (invariants targetNodes conns) = some s →
      Run (P.step (invariants targetNodes conns)) s tr t → t.choiceCount = 0 →
        Settled (requestsAt targetNodes tr).length t.violated := by
  intro h
  have hrun : ((sitePlankton.initModel (invariants [1] [siteConn .udp])).bind fun s =>
      (execute (sitePlankton.step (invariants [1] [siteConn .udp])) s
        (List.replicate 6 Plankton.go)).map fun r =>
          (r.2.choiceCount, (requestsAt [1] r.1).length, r.2.violated)) = some (0, 1, true) := by
    decide +kernel
  obtain ⟨s, hs, hrun⟩ := Option.bind_eq_some_iff.mp hrun
  obtain ⟨⟨tr, t⟩, hexec, hr⟩ := Option.map_eq_some_iff.mp hrun
  simp only [Prod.mk.injEq] at hr
  obtain ⟨h₀, hone, hviol⟩ := hr
  have hsettled := h _ _ _ s t tr hs (run_of_execute hexec) h₀
  exact absurd ((hsettled.1 hone).symm.trans hviol) (by decide)

end OneRequest

end Neo
