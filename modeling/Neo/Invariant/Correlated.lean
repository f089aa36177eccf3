import Neo.Invariant.Waypoint

/-! What correlated invariants make of the outcomes of their parts. The parts are verified one
after the other in the same run. A consistency invariant compares the outcomes of all runs that
are explored, and keeps the first one outside the states that backtracking restores. -/

namespace Neo

namespace Invariants

def decided (V : Invariants) (result : Option Bool) (i : Nat) (outcome : Bool) : Option Bool :=
  match V with
  | single _ => some outcome
  | conditional invs =>
    if outcome then some (i != 0) else if i + 1 < invs.length then none else some false
  | consistency invs =>
    if outcome != result.getD outcome then some true
    else if i + 1 < invs.length then none else some false

theorem conclude_of_stop (V : Invariants) (result : Option Bool) {m : Model}
    (h : m.choiceCount = 0) :
    (∃ b, V.decided result m.correlatedInvIdx m.violated = some b ∧
        V.conclude result m = (m.stop b, false)) ∨
      V.decided result m.correlatedInvIdx m.violated = none ∧
        V.conclude result m = (m.setCorrelatedInvIdx (m.correlatedInvIdx + 1), true) := by
  cases V with
  | single _ =>
    have hstop : m.stop m.violated = m := by
      show { m with violated := m.violated, choiceCount := 0 } = m
      rw [← h]
    exact .inl ⟨m.violated, rfl, by rw [hstop]; rfl⟩
  | conditional invs =>
    unfold decided conclude checkConditional advance
    dsimp only
    rw [if_pos h]
    split_ifs with hviolated hnext
    · exact .inl ⟨_, rfl, rfl⟩
    · exact .inr ⟨rfl, rfl⟩
    · exact .inl ⟨_, rfl, rfl⟩
  | consistency invs =>
    unfold decided conclude checkConsistency advance
    dsimp only
    rw [if_pos h]
    split_ifs with hdiffers hnext
    · exact .inl ⟨_, rfl, rfl⟩
    · exact .inr ⟨rfl, rfl⟩
    · exact .inl ⟨_, rfl, rfl⟩

end Invariants

namespace Plankton

variable {P : Plankton} {V : Invariants} {m m' s t : Model} {l : Label}
  {tr : List (Link Model Label)}

def outcome (P : Plankton) (V : Invariants) (m : Model) (l : Label) : Option Bool := do
  let m ← P.control l.results (m.setChoice l.choice)
  let m ← m.checkPolicy (← V.current m.correlatedInvIdx).policy
  if m.choiceCount = 0 then some m.violated else none

/-- The invariants whose verification ends in a run, by index, with their outcomes. -/
def outcomes (P : Plankton) (V : Invariants) (tr : List (Link Model Label)) : List (Nat × Bool) :=
  tr.filterMap fun l =>
    (P.outcome V l.before l.act).map fun outcome => (l.before.correlatedInvIdx, outcome)

theorem reinit_control (h : P.reinit V m = some m') :
    m'.choiceCount = 1 ∧ m'.correlatedInvIdx = m.correlatedInvIdx := by
  obtain ⟨m₁, h₁, rfl⟩ := Option.map_eq_some_iff.mp h
  have hopenflow : (P.initOpenflow m).correlatedInvIdx = m.correlatedInvIdx := by
    unfold initOpenflow
    split_ifs <;> rfl
  refine ⟨rfl, ?_⟩
  show m₁.correlatedInvIdx = _
  rw [← hopenflow]
  cases V with
  | single _ => simp [Invariants.reinit] at h₁
  | conditional invs | consistency invs =>
    obtain ⟨inv, -, h₁⟩ := Option.bind_eq_some_iff.mp h₁
    exact (CheckedInvariant.starts_of_init h₁).correlatedInvIdx

theorem step_outcome (h : P.step V m l = some m') :
    (P.outcome V m l = none ∧ m'.choiceCount ≠ 0 ∧ m'.correlatedInvIdx = m.correlatedInvIdx) ∨
      ∃ o, P.outcome V m l = some o ∧
        ((∃ b, V.decided l.result m.correlatedInvIdx o = some b ∧ m'.choiceCount = 0 ∧
            m'.violated = b) ∨
          V.decided l.result m.correlatedInvIdx o = none ∧ m'.choiceCount ≠ 0 ∧
            m'.correlatedInvIdx = m.correlatedInvIdx + 1) := by
  obtain ⟨-, m₁, m₂, r, hcontrol, hcheck, hafter⟩ := step_eq_some h
  obtain ⟨inv, v, hinv, hv, -, -, hr⟩ := Invariants.checkViolation_cases hcheck
  have hidx : m₁.correlatedInvIdx = (m.setChoice l.choice).correlatedInvIdx :=
    control_correlatedInvIdx hcontrol
  have houtcome : P.outcome V m l =
      if (m₁.judge v).choiceCount = 0 then some (m₁.judge v).violated else none := by
    unfold outcome
    rw [hcontrol, Option.bind_eq_bind, Option.bind_some, hinv, Option.bind_eq_bind,
      Option.bind_some, hv.checkPolicy]
    rfl
  have hjudged : (m₁.judge v).correlatedInvIdx = m.correlatedInvIdx := hidx
  generalize m₁.judge v = m₃ at *
  by_cases hcount : m₃.choiceCount = 0
  · right
    refine ⟨m₃.violated, by rw [houtcome, if_pos hcount], ?_⟩
    rw [← hjudged]
    rcases V.conclude_of_stop l.result hcount with ⟨b, hdecided, hconclude⟩ | ⟨hdecided, hconclude⟩
    · obtain ⟨rfl, rfl⟩ := Prod.mk.inj (hr.trans hconclude)
      obtain rfl := Option.some.inj hafter
      exact .inl ⟨b, hdecided, rfl, rfl⟩
    · obtain ⟨rfl, rfl⟩ := Prod.mk.inj (hr.trans hconclude)
      obtain ⟨hcount', hidx'⟩ := reinit_control (if_pos rfl ▸ hafter)
      exact .inr ⟨hdecided, by rw [hcount']; decide, hidx'⟩
  · left
    rw [V.conclude_of_choiceCount _ hcount] at hr
    obtain ⟨rfl, rfl⟩ := Prod.mk.inj hr
    obtain rfl := Option.some.inj hafter
    exact ⟨by rw [houtcome, if_neg hcount], hcount, hjudged⟩

theorem run_of_choiceCount (h : Run (P.step V) s tr t) (hs : s.choiceCount = 0) :
    tr = [] ∧ t = s := by
  cases h with
  | nil => exact ⟨rfl, rfl⟩
  | cons hstep _ =>
    have hlt := (step_eq_some hstep).1
    rw [hs] at hlt
    exact absurd hlt (Nat.not_lt_zero _)

theorem outcomes_cons (l : Link Model Label) (tr : List (Link Model Label)) :
    P.outcomes V (l :: tr) = match P.outcome V l.before l.act with
      | some o => (l.before.correlatedInvIdx, o) :: P.outcomes V tr
      | none => P.outcomes V tr := by
  unfold outcomes
  rw [List.filterMap_cons]
  cases P.outcome V l.before l.act <;> rfl

end Plankton

namespace Conditional

variable {P : Plankton} {invs : List CheckedInvariant} {s t : Model} {tr : List (Link Model Label)}

theorem run_outcomes (h : Run (P.step (.conditional invs)) s tr t) (hs : s.choiceCount ≠ 0)
    (ht : t.choiceCount = 0) (hidx : s.correlatedInvIdx < invs.length) :
    (∃ n, s.correlatedInvIdx + n < invs.length ∧
        P.outcomes (.conditional invs) tr =
          (List.range' s.correlatedInvIdx n).map (fun i => (i, false)) ++
            [(s.correlatedInvIdx + n, true)] ∧
        t.violated = (s.correlatedInvIdx + n != 0)) ∨
      P.outcomes (.conditional invs) tr =
          (List.range' s.correlatedInvIdx (invs.length - s.correlatedInvIdx)).map
            (fun i => (i, false)) ∧
        t.violated = false := by
  induction h with
  | nil s => exact absurd ht hs
  | @cons s s' t a tr hstep hrest ih =>
    rw [Plankton.outcomes_cons]
    rcases Plankton.step_outcome hstep with ⟨hnone, hs', hidx'⟩ |
      ⟨o, hsome, ⟨b, hdecided, hs', hviolated⟩ | ⟨hdecided, hs', hidx'⟩⟩
    · -- the verification of the part goes on
      have hrec := ih hs' ht (hidx' ▸ hidx)
      rw [hidx'] at hrec
      rw [hnone]
      exact hrec
    · -- the outcome decides
      obtain ⟨rfl, rfl⟩ := Plankton.run_of_choiceCount hrest hs'
      rw [hsome]
      unfold Invariants.decided at hdecided
      dsimp only at hdecided ⊢
      split_ifs at hdecided with ho hnext
      · left
        refine ⟨0, hidx, ?_, ?_⟩
        · rw [ho]
          rfl
        · rw [hviolated, ← Option.some.inj hdecided, Nat.add_zero]
      · right
        have hone : invs.length - s.correlatedInvIdx = 1 := by omega
        rw [hone, Bool.eq_false_iff.mpr ho, hviolated, ← Option.some.inj hdecided]
        exact ⟨rfl, rfl⟩
    · -- the next part starts
      rw [hsome]
      unfold Invariants.decided at hdecided
      dsimp only at hdecided ⊢
      split_ifs at hdecided with ho hnext
      rw [Bool.eq_false_iff.mpr ho]
      have hrec := ih hs' ht (hidx' ▸ hnext)
      rw [hidx'] at hrec
      rcases hrec with ⟨n, hlt, houtcomes, hviolated⟩ | ⟨houtcomes, hviolated⟩
      · left
        have hshift : s.correlatedInvIdx + (n + 1) = s.correlatedInvIdx + 1 + n := by omega
        refine ⟨n + 1, by omega, ?_, ?_⟩
        · rw [houtcomes, List.range'_succ, hshift]
          rfl
        · rw [hviolated, hshift]
      · right
        have hshift : invs.length - s.correlatedInvIdx =
            invs.length - (s.correlatedInvIdx + 1) + 1 := by omega
        refine ⟨?_, hviolated⟩
        rw [houtcomes, hshift, List.range'_succ]
        rfl

/-- What a complete run means: the parts are verified in order up to one that is violated, which
ends the run, and the verdict is the one that the outcomes of all parts have, whatever those are
that were not verified. -/
structure Means (P : Plankton) (invs : List CheckedInvariant) (tr : List (Link Model Label))
    (t : Model) : Prop where
  inOrder : (P.outcomes (.conditional invs) tr).map Prod.fst =
    List.range (P.outcomes (.conditional invs) tr).length
  stops : ∀ (tr₁ tr₂ : List (Link Model Label)) (l : Link Model Label), tr = tr₁ ++ l :: tr₂ →
    P.outcome (.conditional invs) l.before l.act = some true → tr₂ = []
  allVerified : (∀ x ∈ P.outcomes (.conditional invs) tr, x.2 = false) →
    (P.outcomes (.conditional invs) tr).length = invs.length
  verdict : ∀ v : Nat → Bool, (∀ x ∈ P.outcomes (.conditional invs) tr, v x.1 = x.2) →
    (t.violated = true ↔ v 0 = false ∧ ∃ i, 1 ≤ i ∧ i < invs.length ∧ v i = true)

theorem means_of_run (h : Run (P.step (.conditional invs)) s tr t) (hs : s.choiceCount ≠ 0)
    (ht : t.choiceCount = 0) (hidx : s.correlatedInvIdx = 0) (hne : 0 < invs.length) :
    Means P invs tr t := by
  have hstops : ∀ (tr₁ tr₂ : List (Link Model Label)) (l : Link Model Label),
      tr = tr₁ ++ l :: tr₂ → P.outcome (.conditional invs) l.before l.act = some true →
      tr₂ = [] := by
    intro tr₁ tr₂ l htr htrue
    subst htr
    obtain ⟨-, hstep, hrest⟩ := h.around
    rcases Plankton.step_outcome hstep with ⟨hnone, -⟩ | ⟨o, hsome, hdecided⟩
    · simp [hnone] at htrue
    · obtain rfl := Option.some.inj (hsome.symm.trans htrue)
      rcases hdecided with ⟨b, -, hcount, -⟩ | ⟨hdecided, -⟩
      · exact (Plankton.run_of_choiceCount hrest hcount).1
      · simp [Invariants.decided] at hdecided
  have houtcomes := run_outcomes h hs ht (hidx.symm ▸ hne)
  rw [hidx] at houtcomes
  simp only [Nat.zero_add, Nat.sub_zero, ← List.range_eq_range'] at houtcomes
  rcases houtcomes with ⟨n, hlt, houtcomes, hviolated⟩ | ⟨houtcomes, hviolated⟩
  · -- a part is violated: it decides, and those before it are not violated
    refine ⟨?_, hstops, ?_, ?_⟩
    · rw [houtcomes, List.map_append, List.map_map, List.length_append, List.length_map,
        List.length_range, List.length_singleton, List.range_succ]
      congr 1
      exact List.map_id _
    · intro hall
      have := hall (n, true) (by simp [houtcomes])
      simp at this
    · intro v hv
      rw [houtcomes] at hv
      have hn : v n = true := hv (n, true) (by simp)
      have hbelow : ∀ i < n, v i = false := fun i hi => hv (i, false) (by simp [hi])
      rw [hviolated]
      constructor
      · intro hne0
        have hpos : n ≠ 0 := by simpa using hne0
        exact ⟨hbelow 0 (Nat.pos_of_ne_zero hpos), n, Nat.pos_of_ne_zero hpos, hlt, hn⟩
      · rintro ⟨h₀, -⟩
        have hpos : n ≠ 0 := by
          intro hzero
          rw [hzero, h₀] at hn
          exact absurd hn (by decide)
        simpa using hpos
  · -- no part is violated
    refine ⟨?_, hstops, ?_, ?_⟩
    · rw [houtcomes, List.map_map, List.length_map, List.length_range]
      exact List.map_id _
    · intro _
      rw [houtcomes, List.length_map, List.length_range]
    · intro v hv
      rw [houtcomes] at hv
      rw [hviolated]
      constructor
      · intro hfalse
        exact absurd hfalse (by decide)
      · rintro ⟨-, i, -, hi, hvi⟩
        have hvi' : v i = false := hv (i, false) (by simp [hi])
        rw [hvi] at hvi'
        exact absurd hvi' (by decide)

end Conditional

end Neo
