import Neo.Process.Cases

/-! What a check writes: a verdict. It does not depend on the choice count that was there. -/

namespace Neo

structure Verdict where
  executable : Fin 3
  visitedHops : Option VisitedHops
  violated : Bool
  counts : ReachCounts
  stopped : Bool

/-- A verdict keeps the connection executable unless it is accepted, and says something new only
if it ends the run. -/
structure Verdict.Fits (v : Verdict) (m : Model) : Prop where
  executable : v.executable = m.cur.executable ∨ v.executable = 0 ∧ m.cur.fwdMode = .accepted
  violated : v.stopped = false → v.violated = m.violated

namespace Model

variable {m m' : Model} {pol : Policy}

@[simps] def judge (m : Model) (v : Verdict) : Model :=
  { m with
    connState := fun i => if i = m.conn then
      { m.cur with executable := v.executable, visitedHops := v.visitedHops } else m.connState i
    violated := v.violated
    reachCounts := v.counts
    choiceCount := if v.stopped then 0 else m.choiceCount }

@[simps] def quiet (m : Model) : Verdict :=
  ⟨m.cur.executable, m.cur.visitedHops, m.violated, m.reachCounts, false⟩

theorem judge_cur (m : Model) (v : Verdict) :
    (m.judge v).cur = { m.cur with executable := v.executable, visitedHops := v.visitedHops } :=
  if_pos rfl

theorem judge_eq (m : Model) (v : Verdict) :
    m.judge v = (((m.setCur { m.cur with
      executable := v.executable
      visitedHops := v.visitedHops }).setViolated v.violated).setReachCounts
        v.counts).setChoiceCount (if v.stopped then 0 else m.choiceCount) := rfl

theorem judge_quiet (m : Model) : m.judge m.quiet = m := by
  rw [judge_eq]
  have hcur : m.setCur { m.cur with
      executable := m.quiet.executable
      visitedHops := m.quiet.visitedHops } = m := setCur_cur
  rw [hcur]
  rfl

theorem stop_eq_judge (m : Model) (b : Bool) :
    m.stop b = m.judge { m.quiet with violated := b, stopped := true } := by
  rw [judge_eq]
  have hcur : m.setCur { m.cur with
      executable := m.quiet.executable
      visitedHops := m.quiet.visitedHops } = m := setCur_cur
  simp only [hcur]
  rfl

theorem countReach_eq_judge (m : Model) (b : Bool) (counts : ReachCounts) :
    m.countReach b counts = m.judge
      ⟨0, m.cur.visitedHops, b || m.violated, counts, b⟩ := by
  cases b <;> rfl

/-- Whatever the choice count is, the check writes the verdict. -/
def Judges (pol : Policy) (m : Model) (v : Verdict) : Prop :=
  ∀ k, (m.setChoiceCount k).checkPolicy pol = some ((m.setChoiceCount k).judge v)

theorem Judges.checkPolicy {v : Verdict} (h : Judges pol m v) :
    m.checkPolicy pol = some (m.judge v) := h m.choiceCount

theorem fits_quiet (m : Model) : m.quiet.Fits m := ⟨.inl rfl, fun _ => rfl⟩

theorem fits_stop (m : Model) (b : Bool) :
    Verdict.Fits { m.quiet with violated := b, stopped := true } m :=
  ⟨.inl rfl, fun h => by simp at h⟩

theorem fits_visited (m : Model) (hops : Option VisitedHops) :
    Verdict.Fits { m.quiet with visitedHops := hops } m := ⟨.inl rfl, fun _ => rfl⟩

theorem fits_count (hmode : m.cur.fwdMode = .accepted) (b : Bool) (counts : ReachCounts) :
    Verdict.Fits ⟨0, m.cur.visitedHops, b || m.violated, counts, b⟩ m := by
  refine ⟨.inr ⟨rfl, hmode⟩, fun h => ?_⟩
  dsimp only at h ⊢
  rw [h, Bool.false_or]

theorem judges_stop (b : Bool) (h : ∀ k, (m.setChoiceCount k).checkPolicy pol =
    some ((m.setChoiceCount k).stop b)) : ∃ v, Judges pol m v ∧ v.Fits m := by
  refine ⟨_, fun k => ?_, fits_stop m b⟩
  rw [h, stop_eq_judge]
  rfl

theorem judges_quiet (h : ∀ k, (m.setChoiceCount k).checkPolicy pol = some (m.setChoiceCount k)) :
    ∃ v, Judges pol m v ∧ v.Fits m := by
  refine ⟨_, fun k => ?_, fits_quiet m⟩
  rw [h]
  exact congrArg some (judge_quiet _).symm

theorem judges_visited (hops : Option VisitedHops)
    (h : ∀ k, (m.setChoiceCount k).checkPolicy pol =
      some ((m.setChoiceCount k).setCur { m.cur with visitedHops := hops })) :
    ∃ v, Judges pol m v ∧ v.Fits m := by
  refine ⟨_, fun k => ?_, fits_visited m hops⟩
  rw [h]
  rfl

theorem judges_count (b : Bool) (counts : ReachCounts) (hmode : m.cur.fwdMode = .accepted)
    (h : ∀ k, (m.setChoiceCount k).checkPolicy pol =
      some ((m.setChoiceCount k).countReach b counts)) : ∃ v, Judges pol m v ∧ v.Fits m := by
  refine ⟨_, fun k => ?_, fits_count hmode b counts⟩
  rw [h, countReach_eq_judge]
  rfl

theorem checkLoop_cases (h : m.checkLoop = some m') :
    (((m.requestIsAccepted || m.cur.fwdMode == .dropped) && !m.otherExecutableConnsExist) = true ∧
      m' = m.stop false) ∨
    ((m.requestIsAccepted || m.cur.fwdMode == .dropped) && !m.otherExecutableConnsExist) = false ∧
      ((∃ v, m.cur.visitedHops = some v ∧ v.visited m.cur.hop = true ∧ m' = m.stop true) ∨
        (∃ v, m.cur.visitedHops = some v ∧ v.visited m.cur.hop = false ∧
          v.isLastHop m.cur.hop = true ∧ m' = m) ∨
        ∃ hops, (m.cur.visitedHops = none ∧ VisitedHops.add ⟨[], none⟩ m.cur.hop = some hops ∨
          ∃ v, m.cur.visitedHops = some v ∧ v.visited m.cur.hop = false ∧
            v.isLastHop m.cur.hop = false ∧ v.add m.cur.hop = some hops) ∧
          m' = m.setCur { m.cur with visitedHops := some hops }) := by
  unfold checkLoop at h
  split at h
  · next hexit => exact .inl ⟨hexit, (Option.some.inj h).symm⟩
  · next hexit =>
    refine .inr ⟨by simpa using hexit, ?_⟩
    split at h
    · next hnone =>
      simp only [Option.bind_eq_bind, Option.bind_eq_some_iff] at h
      obtain ⟨hops, hadd, h⟩ := h
      exact .inr (.inr ⟨hops, .inl ⟨hnone, hadd⟩, (Option.some.inj h).symm⟩)
    · next v hsome =>
      split at h
      · next hvis => exact .inl ⟨v, hsome, hvis, (Option.some.inj h).symm⟩
      · next hvis =>
        simp only [Bool.not_eq_true] at hvis
        split at h
        · next hlast => exact .inr (.inl ⟨v, hsome, hvis, hlast, (Option.some.inj h).symm⟩)
        · next hlast =>
          simp only [Option.bind_eq_bind, Option.bind_eq_some_iff] at h
          obtain ⟨hops, hadd, h⟩ := h
          refine .inr (.inr ⟨hops, .inr ⟨v, hsome, hvis, ?_, hadd⟩, (Option.some.inj h).symm⟩)
          simpa using hlast

theorem checkLoop_judges (h : m.checkLoop = some m') : ∃ v, Judges .loop m v ∧ v.Fits m := by
  have hunfold : ∀ k, (m.setChoiceCount k).checkPolicy .loop = (m.setChoiceCount k).checkLoop :=
    fun k => rfl
  have hcur : ∀ k, (m.setChoiceCount k).cur = m.cur := fun k => rfl
  rcases checkLoop_cases h with ⟨hexit, -⟩ | ⟨hexit, ⟨v, hv, hvis, -⟩ | ⟨v, hv, hvis, hlast, -⟩ |
    ⟨hops, ⟨hnone, hadd⟩ | ⟨v, hv, hvis, hlast, hadd⟩, -⟩⟩
  · exact judges_stop _ fun k => if_pos hexit
  · apply judges_stop true
    intro k
    rw [hunfold, checkLoop, if_neg (by exact Bool.eq_false_iff.mp hexit), hcur, hv]
    exact if_pos hvis
  · apply judges_quiet
    intro k
    rw [hunfold, checkLoop, if_neg (by exact Bool.eq_false_iff.mp hexit), hcur, hv]
    dsimp only
    rw [if_neg (by simp [hvis]), if_pos hlast]
  · apply judges_visited (some hops)
    intro k
    rw [hunfold, checkLoop, if_neg (by exact Bool.eq_false_iff.mp hexit), hcur, hnone]
    dsimp only
    rw [hadd]
    rfl
  · apply judges_visited (some hops)
    intro k
    rw [hunfold, checkLoop, if_neg (by exact Bool.eq_false_iff.mp hexit), hcur, hv]
    dsimp only
    rw [if_neg (by simp [hvis]), if_neg (by simp [hlast]), hadd]
    rfl

theorem checkPolicy_judges (h : m.checkPolicy pol = some m') : ∃ v, Judges pol m v ∧ v.Fits m := by
  cases pol with
  | reachability T reachable =>
    by_cases h₁ : m.requestIsAccepted && m.rxIsTarget T
    · exact judges_stop _ fun k => congrArg some (if_pos h₁)
    by_cases h₂ : (m.requestIsAccepted || m.cur.fwdMode == .dropped) && !m.otherExecutableConnsExist
    · exact judges_stop _ fun k => congrArg some ((if_neg h₁).trans (if_pos h₂))
    · exact judges_quiet fun k => congrArg some ((if_neg h₁).trans (if_neg h₂))
  | replyReachability T reachable =>
    by_cases h₀ : m.beforeReply
    · by_cases h₁ : (m.requestIsAccepted && !m.rxIsTarget T || m.cur.fwdMode == .dropped) &&
          !m.otherExecutableConnsExist
      · exact judges_stop _ fun k => congrArg some ((if_pos h₀).trans (if_pos h₁))
      · exact judges_quiet fun k => congrArg some ((if_pos h₀).trans (if_neg h₁))
    by_cases h₁ : m.cur.protoState.isReply
    · by_cases h₂ : m.cur.fwdMode == .accepted && m.cur.pktLocation == m.cur.txNode
      · exact judges_stop _ fun k =>
          congrArg some ((if_neg h₀).trans ((if_pos h₁).trans (if_pos h₂)))
      by_cases h₃ : (m.cur.fwdMode == .accepted && m.cur.pktLocation != m.cur.txNode ||
          m.cur.fwdMode == .dropped) && !m.otherExecutableConnsExist
      · exact judges_stop _ fun k => congrArg some
          ((if_neg h₀).trans ((if_pos h₁).trans ((if_neg h₂).trans (if_pos h₃))))
      · exact judges_quiet fun k => congrArg some
          ((if_neg h₀).trans ((if_pos h₁).trans ((if_neg h₂).trans (if_neg h₃))))
    · exact judges_quiet fun k => congrArg some ((if_neg h₀).trans (if_neg h₁))
  | waypoint T passThrough =>
    by_cases h₁ : m.cur.fwdMode = .collectNhops ∧ m.cur.pktLocation ∈ T
    · exact judges_stop _ fun k => congrArg some (if_pos h₁)
    · exact judges_quiet fun k => congrArg some (if_neg h₁)
  | loop => exact checkLoop_judges h
  | oneRequest T =>
    by_cases h₁ : m.cur.fwdMode == .accepted && m.cur.protoState.isRequest && m.rxIsTarget T
    · have hmode : m.cur.fwdMode = .accepted := by
        simp only [Bool.and_eq_true, beq_iff_eq] at h₁
        exact h₁.1.1
      let counts := m.cur.rxNode :: m.reachCounts
      exact judges_count (decide (counts.length > 1)) counts hmode
        fun k => congrArg some (if_pos h₁)
    · exact judges_quiet fun k => congrArg some (if_neg h₁)
  | loadBalance T exceeds =>
    by_cases h₁ : m.cur.fwdMode == .accepted && m.cur.protoState.isFirst
    · have hmode : m.cur.fwdMode = .accepted := by
        simp only [Bool.and_eq_true, beq_iff_eq] at h₁
        exact h₁.1
      let counts := m.cur.rxNode :: m.reachCounts
      exact judges_count (m.rxIsTarget T && exceeds counts) counts hmode
        fun k => congrArg some (if_pos h₁)
    · exact judges_quiet fun k => congrArg some (if_neg h₁)

theorem judge_setChoiceCount_of_stopped {v : Verdict} (h : v.stopped = true) (k : Nat) :
    (m.setChoiceCount k).judge v = m.judge v := by
  rw [judge_eq, judge_eq, if_pos h, if_pos h]
  rfl

end Model

namespace Invariants

variable {V : Invariants} {result : Option Bool} {m : Model}

def conclude (V : Invariants) (result : Option Bool) (m : Model) : Model × Bool :=
  match V with
  | single _ => (m, false)
  | conditional invs => checkConditional invs m
  | consistency invs => checkConsistency invs result m

theorem conclude_fst (V : Invariants) (result : Option Bool) (m : Model) :
    (V.conclude result m).1 = ((m.setViolated (V.conclude result m).1.violated).setCorrelatedInvIdx
      (V.conclude result m).1.correlatedInvIdx).setChoiceCount
        (V.conclude result m).1.choiceCount := by
  cases V with
  | single _ => rfl
  | conditional invs =>
    dsimp only [conclude, checkConditional, advance]
    split_ifs <;> rfl
  | consistency invs =>
    dsimp only [conclude, checkConsistency, advance]
    split_ifs <;> rfl

theorem conclude_correlatedInvIdx (V : Invariants) (result : Option Bool) (m : Model) :
    (V.conclude result m).1.correlatedInvIdx =
      if (V.conclude result m).2 then m.correlatedInvIdx + 1 else m.correlatedInvIdx := by
  cases V with
  | single _ => rfl
  | conditional invs =>
    dsimp only [conclude, checkConditional, advance]
    split_ifs <;> first | rfl | contradiction
  | consistency invs =>
    dsimp only [conclude, checkConsistency, advance]
    split_ifs <;> first | rfl | contradiction

theorem conclude_of_choiceCount (V : Invariants) (result : Option Bool) (h : m.choiceCount ≠ 0) :
    V.conclude result m = (m, false) := by
  cases V with
  | single _ => rfl
  | conditional invs => exact if_neg h
  | consistency invs => exact if_neg h

theorem checkViolation_cases {r : Model × Bool} (h : V.checkViolation result m = some r) :
    ∃ inv v, V.current m.correlatedInvIdx = some inv ∧ Model.Judges inv.policy m v ∧ v.Fits m ∧
      (∀ k, V.checkViolation result (m.setChoiceCount k) =
        some (V.conclude result ((m.setChoiceCount k).judge v))) ∧
      r = V.conclude result (m.judge v) := by
  have hunfold := h
  simp only [checkViolation, Option.bind_eq_bind, Option.bind_eq_some_iff] at hunfold
  obtain ⟨inv, hinv, m₁, hcheck, -⟩ := hunfold
  obtain ⟨v, hv, hfits⟩ := Model.checkPolicy_judges hcheck
  have hall : ∀ k, V.checkViolation result (m.setChoiceCount k) =
      some (V.conclude result ((m.setChoiceCount k).judge v)) := by
    intro k
    have hinv' : V.current (m.setChoiceCount k).correlatedInvIdx = some inv := hinv
    unfold checkViolation
    rw [hinv', Option.bind_eq_bind, Option.bind_some, hv k]
    cases V <;> rfl
  refine ⟨inv, v, hinv, hv, hfits, hall, ?_⟩
  exact Option.some.inj (h.symm.trans (hall m.choiceCount))

end Invariants

end Neo
