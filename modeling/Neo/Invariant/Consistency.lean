import Neo.Invariant.Correlated

/-! The exploration of all runs of correlated invariants. The model checker takes any step from any
state reached before; the result that a consistency invariant stores is not restored. -/

namespace Neo

structure Exploration where
  result : Option Bool
  reached : List Model

structure Move where
  start : Nat
  choice : Nat
  results : List InjectionResult

namespace Exploration

def start (s : Model) : Exploration := ⟨none, [s]⟩

def label (e : Exploration) (a : Move) : Label := ⟨a.choice, a.results, e.result⟩

def store (e : Exploration) (outcome : Option Bool) : Option Bool :=
  match outcome with
  | some o => some (e.result.getD o)
  | none => e.result

def step (P : Plankton) (V : Invariants) (e : Exploration) (a : Move) : Option Exploration := do
  let m ← e.reached[a.start]?
  let m' ← P.step V m (e.label a)
  return ⟨e.store (P.outcome V m (e.label a)), e.reached ++ [m']⟩

def Violated (e : Exploration) : Prop :=
  ∃ m ∈ e.reached, m.choiceCount = 0 ∧ m.violated = true

def outcomeOf (P : Plankton) (V : Invariants) (l : Link Exploration Move) : Option Bool :=
  l.before.reached[l.act.start]?.bind fun m => P.outcome V m (l.before.label l.act)

def outcomes (P : Plankton) (V : Invariants) (tr : List (Link Exploration Move)) : List Bool :=
  tr.filterMap (outcomeOf P V)

def Explored (tr : List (Link Exploration Move)) (m : Model) (choice : Nat)
    (results : List InjectionResult) : Prop :=
  ∃ l ∈ tr, l.before.reached[l.act.start]? = some m ∧ l.act.choice = choice ∧
    l.act.results = results

/-- Just the steps that are possible were explored, from every state that was reached. -/
structure Exhaustive (Possible : Model → Nat → List InjectionResult → Prop)
    (tr : List (Link Exploration Move)) (e : Exploration) : Prop where
  possible : ∀ m choice results, Explored tr m choice results → Possible m choice results
  explored : ∀ m ∈ e.reached, ∀ choice results, Possible m choice results →
    Explored tr m choice results

variable {P : Plankton} {V : Invariants} {invs : List CheckedInvariant} {s : Model}
  {e e' : Exploration} {tr : List (Link Exploration Move)}

theorem step_cases {a : Move} (h : step P V e a = some e') :
    ∃ m m', e.reached[a.start]? = some m ∧ P.step V m (e.label a) = some m' ∧
      e' = ⟨e.store (outcomeOf P V ⟨e, a, e'⟩), e.reached ++ [m']⟩ := by
  simp only [step, Option.bind_eq_bind, Option.bind_eq_some_iff] at h
  obtain ⟨m, hm, m', hm', h⟩ := h
  refine ⟨m, m', hm, hm', ?_⟩
  have houtcome : outcomeOf P V ⟨e, a, e'⟩ = P.outcome V m (e.label a) := by
    unfold outcomeOf
    dsimp only
    rw [hm, Option.bind_some]
  rw [houtcome]
  exact (Option.some.inj h).symm

theorem outcomes_cons (l : Link Exploration Move) (tr : List (Link Exploration Move)) :
    outcomes P V (l :: tr) = match outcomeOf P V l with
      | some o => o :: outcomes P V tr
      | none => outcomes P V tr := by
  unfold outcomes
  rw [List.filterMap_cons]
  cases outcomeOf P V l <;> rfl

theorem violated_append (m : Model) (result : Option Bool) :
    Violated ⟨result, e.reached ++ [m]⟩ ↔
      Violated e ∨ m.choiceCount = 0 ∧ m.violated = true := by
  unfold Violated
  simp only [List.mem_append, List.mem_singleton, or_and_right, exists_or, exists_eq_left]

theorem step_verdict {a : Move} (h : step P (.consistency invs) e a = some e') :
    e'.result = e.store (outcomeOf P (.consistency invs) ⟨e, a, e'⟩) ∧
      (Violated e' ↔ Violated e ∨
        ∃ o, outcomeOf P (.consistency invs) ⟨e, a, e'⟩ = some o ∧ e'.result ≠ some o) := by
  obtain ⟨m, m', hm, hstep, he'⟩ := step_cases h
  have hresult := congrArg Exploration.result he'
  refine ⟨hresult, ?_⟩
  have houtcome : outcomeOf P (.consistency invs) ⟨e, a, e'⟩ =
      P.outcome (.consistency invs) m (e.label a) := by
    unfold outcomeOf
    dsimp only
    rw [hm, Option.bind_some]
  have happend : Violated e' ↔ Violated e ∨ m'.choiceCount = 0 ∧ m'.violated = true := by
    rw [he']
    exact violated_append m' _
  rw [happend]
  rw [houtcome] at hresult ⊢
  dsimp only at hresult
  apply or_congr_right
  rcases Plankton.step_outcome hstep with ⟨hnone, hcount, -⟩ |
    ⟨o, hsome, ⟨b, hdecided, hcount, hviolated⟩ | ⟨hdecided, hcount, -⟩⟩
  · -- no part has come to its end
    rw [hnone]
    simp [hcount]
  · rw [hsome] at hresult ⊢
    have hstored : e'.result = some (e.result.getD o) := hresult
    -- the last part decides, and an earlier one where it differs from what is stored
    have hdiffers : b = true ↔ o ≠ e.result.getD o := by
      unfold Invariants.decided label at hdecided
      dsimp only at hdecided
      split_ifs at hdecided with hne hnext
      · obtain rfl := Option.some.inj hdecided
        simpa using hne
      · obtain rfl := Option.some.inj hdecided
        simpa using hne
    rw [hviolated, hdiffers, hstored]
    constructor
    · rintro ⟨-, hne⟩
      exact ⟨o, rfl, fun heq => hne (Option.some.inj heq).symm⟩
    · rintro ⟨o', ho', hne⟩
      obtain rfl := Option.some.inj ho'
      exact ⟨hcount, fun heq => hne (congrArg some heq.symm)⟩
  · rw [hsome] at hresult ⊢
    have hstored : e'.result = some (e.result.getD o) := hresult
    have hsame : o = e.result.getD o := by
      unfold Invariants.decided label at hdecided
      dsimp only at hdecided
      split_ifs at hdecided with hne hnext
      simpa using hne
    rw [hstored]
    constructor
    · rintro ⟨hzero, -⟩
      exact absurd hzero hcount
    · rintro ⟨o', ho', hne⟩
      obtain rfl := Option.some.inj ho'
      exact absurd (congrArg some hsame.symm) hne

/-- The stored result is the first outcome, and some run ends with a violation if and only if an
outcome differs from it. -/
theorem run_verdict (h : Run (step P (.consistency invs)) e tr e') :
    e'.result = e.result.or (outcomes P (.consistency invs) tr).head? ∧
      (Violated e' ↔ Violated e ∨ ∃ o ∈ outcomes P (.consistency invs) tr, e'.result ≠ some o) := by
  induction h with
  | nil e => simp [outcomes]
  | @cons e e₁ e' a tr hstep _ ih =>
    obtain ⟨hresult, hviolated⟩ := ih
    obtain ⟨hresult₁, hviolated₁⟩ := step_verdict hstep
    rw [outcomes_cons]
    cases houtcome : outcomeOf P (.consistency invs) ⟨e, a, e₁⟩ with
    | none =>
      rw [houtcome] at hresult₁ hviolated₁
      have hsame : e₁.result = e.result := hresult₁
      dsimp only
      rw [hviolated, hviolated₁, hresult, hsame]
      simp
    | some o =>
      rw [houtcome] at hresult₁ hviolated₁
      have hstored : e₁.result = some (e.result.getD o) := hresult₁
      have hfirst : e'.result = e₁.result := by
        rw [hresult, hstored]
        rfl
      dsimp only
      refine ⟨?_, ?_⟩
      · rw [hfirst, hstored]
        cases e.result <;> rfl
      · rw [hviolated, hviolated₁, hfirst, or_assoc]
        simp

theorem exists_ne_head_iff {l : List Bool} :
    (∃ o ∈ l, l.head? ≠ some o) ↔ ∃ o ∈ l, ∃ o' ∈ l, o ≠ o' := by
  cases l with
  | nil => simp
  | cons x l =>
    constructor
    · rintro ⟨o, ho, hne⟩
      exact ⟨x, List.mem_cons_self .., o, ho, fun heq => hne (congrArg some heq)⟩
    · rintro ⟨o, ho, o', ho', hne⟩
      rcases eq_or_ne x o with rfl | hx
      · exact ⟨o', ho', fun heq => hne (Option.some.inj heq)⟩
      · exact ⟨o, ho, fun heq => hx (Option.some.inj heq)⟩

theorem violated_iff (h : Run (step P (.consistency invs)) (start s) tr e)
    (hs : s.choiceCount ≠ 0) :
    Violated e ↔ ∃ o ∈ outcomes P (.consistency invs) tr,
      ∃ o' ∈ outcomes P (.consistency invs) tr, o ≠ o' := by
  obtain ⟨hresult, hviolated⟩ := run_verdict h
  have hstart : ¬ Violated (start s) := by
    rintro ⟨m, hm, hcount, -⟩
    obtain rfl := List.mem_singleton.mp hm
    exact hs hcount
  have hfirst : e.result = (outcomes P (.consistency invs) tr).head? := hresult
  rw [hviolated, hfirst, or_iff_right hstart]
  exact exists_ne_head_iff

theorem run_grows (h : Run (step P V) e tr e') :
    (∀ m ∈ e.reached, m ∈ e'.reached) ∧
      (∀ l ∈ tr, ∀ m ∈ l.after.reached, m ∈ e'.reached) ∧
      ∀ r, (∀ l ∈ tr, l.before.result = some r → e.result = some r ∨ r ∈ outcomes P V tr) ∧
        (e'.result = some r → e.result = some r ∨ r ∈ outcomes P V tr) := by
  induction h with
  | nil e => exact ⟨fun _ hm => hm, by simp, fun r => ⟨by simp, .inl⟩⟩
  | @cons e e₁ e' a tr hstep _ ih =>
    obtain ⟨hkept, hafter, hstored⟩ := ih
    obtain ⟨m, m', -, -, he₁⟩ := step_cases hstep
    have hgrows : ∀ m ∈ e.reached, m ∈ e₁.reached := by
      intro x hx
      rw [he₁]
      exact List.mem_append_left _ hx
    have hresult₁ : e₁.result = e.store (outcomeOf P V ⟨e, a, e₁⟩) :=
      congrArg Exploration.result he₁
    -- what is stored by the step is an outcome of the step
    have hlift : ∀ r, e₁.result = some r ∨ r ∈ outcomes P V tr →
        e.result = some r ∨ r ∈ outcomes P V (⟨e, a, e₁⟩ :: tr) := by
      intro r hr
      rw [outcomes_cons]
      rw [hresult₁] at hr
      cases houtcome : outcomeOf P V ⟨e, a, e₁⟩ with
      | none =>
        rw [houtcome] at hr
        exact hr
      | some o =>
        rw [houtcome] at hr
        rcases hr with hr | hr
        · cases hold : e.result with
          | none =>
            have hro : some o = some r := by
              rw [← hr]
              unfold store
              rw [hold]
              rfl
            obtain rfl := Option.some.inj hro
            exact .inr (List.mem_cons_self ..)
          | some x =>
            left
            rw [← hr]
            unfold store
            rw [hold]
            rfl
        · exact .inr (List.mem_cons_of_mem _ hr)
    refine ⟨fun x hx => hkept x (hgrows x hx), ?_, fun r => ⟨?_, ?_⟩⟩
    · intro l hl
      rcases List.mem_cons.mp hl with rfl | hl
      · exact hkept
      · exact hafter l hl
    · intro l hl hr
      rcases List.mem_cons.mp hl with rfl | hl
      · exact .inl hr
      · exact hlift r ((hstored r).1 l hl hr)
    · intro hr
      exact hlift r ((hstored r).2 hr)

theorem step_congr {m : Model} {choice : Nat} {results : List InjectionResult}
    {r r' : Option Bool}
    (h : ∀ o, P.outcome (.consistency invs) m ⟨choice, results, r⟩ = some o →
      r.getD o = r'.getD o) :
    P.step (.consistency invs) m ⟨choice, results, r⟩ =
      P.step (.consistency invs) m ⟨choice, results, r'⟩ := by
  unfold Plankton.outcome at h
  unfold Plankton.step Plankton.execStep Invariants.checkViolation
  dsimp only at h ⊢
  cases hcontrol : P.control results (m.setChoice choice) with
  | none => rfl
  | some m₁ =>
    cases hcurrent : Invariants.current (.consistency invs) m₁.correlatedInvIdx with
    | none => simp [hcurrent]
    | some inv =>
      cases hcheck : m₁.checkPolicy inv.policy with
      | none => simp [hcurrent, hcheck]
      | some m₂ =>
        have hsame : Invariants.checkConsistency invs r m₂ =
            Invariants.checkConsistency invs r' m₂ := by
          unfold Invariants.checkConsistency
          by_cases hcount : m₂.choiceCount = 0
          · have hstored : r.getD m₂.violated = r'.getD m₂.violated := by
              apply h
              rw [hcontrol]
              simp [hcurrent, hcheck, hcount]
            rw [if_pos hcount, if_pos hcount, hstored]
          · rw [if_neg hcount, if_neg hcount]
        simp [hcurrent, hcheck, hsame]

theorem mem_of_exhaustive {Possible : Model → Nat → List InjectionResult → Prop}
    (h : Run (step P (.consistency invs)) (start s) tr e) (hall : Exhaustive Possible tr e)
    (hequal : ∀ o ∈ outcomes P (.consistency invs) tr,
      ∀ o' ∈ outcomes P (.consistency invs) tr, o = o')
    {l : Link Exploration Move}
    (hstep : step P (.consistency invs) l.before l.act = some l.after)
    (hpossible : ∀ m, l.before.reached[l.act.start]? = some m →
      Possible m l.act.choice l.act.results)
    (hbefore : ∀ m ∈ l.before.reached, m ∈ e.reached)
    (hresult : ∀ r, l.before.result = some r → r ∈ outcomes P (.consistency invs) tr) :
    (∀ m ∈ l.after.reached, m ∈ e.reached) ∧
      ∀ o, outcomeOf P (.consistency invs) l = some o → o ∈ outcomes P (.consistency invs) tr := by
  obtain ⟨-, hreached, hstored⟩ := run_grows h
  obtain ⟨m, m', hm, hnext, hafter⟩ := step_cases hstep
  have hmem : m ∈ e.reached := hbefore m (List.mem_of_getElem? hm)
  obtain ⟨l₁, hl₁, hm₁, hchoice, hresults⟩ := hall.explored m hmem _ _ (hpossible m hm)
  obtain ⟨n, m₁', hn, hnext₁, hafter₁⟩ := step_cases (h.link l₁ hl₁)
  obtain rfl := Option.some.inj (hm₁.symm.trans hn)
  have houtcome : ∀ r, outcomeOf P (.consistency invs) l =
      P.outcome (.consistency invs) m ⟨l.act.choice, l.act.results, r⟩ := by
    intro r
    unfold outcomeOf
    rw [hm]
    rfl
  have houtcome₁ : outcomeOf P (.consistency invs) l₁ = outcomeOf P (.consistency invs) l := by
    rw [houtcome l₁.before.result]
    unfold outcomeOf label
    rw [hm₁, Option.bind_some, hchoice, hresults]
  have hfound : ∀ o, outcomeOf P (.consistency invs) l = some o →
      o ∈ outcomes P (.consistency invs) tr := by
    intro o ho
    exact List.mem_filterMap.mpr ⟨l₁, hl₁, houtcome₁.trans ho⟩
  refine ⟨?_, hfound⟩
  -- the results that are stored do not matter, since all outcomes are equal
  have hsame : m' = m₁' := by
    apply Option.some.inj
    rw [← hnext, ← hnext₁]
    unfold label
    rw [hchoice, hresults]
    apply step_congr
    intro o ho
    have hfo := hfound o ((houtcome _).trans ho)
    have hget : ∀ r : Option Bool,
        (∀ x, r = some x → x ∈ outcomes P (.consistency invs) tr) → r.getD o = o := by
      intro r hr
      cases r with
      | none => rfl
      | some x => exact hequal x (hr x rfl) o hfo
    rw [hget _ hresult, hget _ fun x hx => ?_]
    exact ((hstored x).1 l₁ hl₁ hx).resolve_left (by simp [start])
  have hm' : m' ∈ e.reached := by
    rw [hsame]
    apply hreached l₁ hl₁
    rw [hafter₁]
    exact List.mem_append_right _ (List.mem_singleton_self _)
  rw [hafter]
  intro x hx
  rcases List.mem_append.mp hx with hx | hx
  · exact hbefore x hx
  · rw [List.mem_singleton.mp hx]
    exact hm'

theorem violated_of_exhaustive {Possible : Model → Nat → List InjectionResult → Prop}
    {tr' : List (Link Exploration Move)} (hs : s.choiceCount ≠ 0)
    (h : Run (step P (.consistency invs)) (start s) tr e)
    (h' : Run (step P (.consistency invs)) (start s) tr' e')
    (hall : Exhaustive Possible tr e) (hall' : Exhaustive Possible tr' e')
    (hviolated : Violated e') : Violated e := by
  rw [violated_iff h hs]
  by_contra hnone
  have hequal : ∀ o ∈ outcomes P (.consistency invs) tr,
      ∀ o' ∈ outcomes P (.consistency invs) tr, o = o' := by
    intro o ho o' ho'
    by_contra hne
    exact hnone ⟨o, ho, o', ho', hne⟩
  have hpossible : ∀ l ∈ tr', ∀ m, l.before.reached[l.act.start]? = some m →
      Possible m l.act.choice l.act.results := by
    intro l hl m hm
    exact hall'.possible m _ _ ⟨l, hl, hm, rfl, rfl⟩
  -- the other exploration stays within the states and the outcomes of this one
  have hinv := h'.invariant (fun x => (∀ m ∈ x.reached, m ∈ e.reached) ∧
      ∀ r, x.result = some r → r ∈ outcomes P (.consistency invs) tr)
    ⟨(run_grows h).1, by simp [start]⟩ ?_
  · obtain ⟨o, ho, o', ho', hne⟩ := (violated_iff h' hs).mp hviolated
    have hmem : ∀ x ∈ outcomes P (.consistency invs) tr',
        x ∈ outcomes P (.consistency invs) tr := by
      intro x hx
      obtain ⟨l, hl, hlx⟩ := List.mem_filterMap.mp hx
      obtain ⟨hbefore, -⟩ := hinv.2 l hl
      exact (mem_of_exhaustive h hall hequal (h'.link l hl) (hpossible l hl) hbefore.1
        hbefore.2).2 x hlx
    exact hne (hequal o (hmem o ho) o' (hmem o' ho'))
  · intro l hl hstep hbefore
    obtain ⟨hafter, hfound⟩ :=
      mem_of_exhaustive h hall hequal hstep (hpossible l hl) hbefore.1 hbefore.2
    refine ⟨hafter, ?_⟩
    intro r hr
    obtain ⟨-, hstored⟩ := (run_grows (.cons hstep (.nil l.after))).2.2 r
    rcases hstored hr with hr | hr
    · exact hbefore.2 r hr
    · obtain ⟨l₁, hl₁, hlr⟩ := List.mem_filterMap.mp hr
      obtain rfl := List.mem_singleton.mp hl₁
      exact hfound r hlr

end Exploration

namespace Correlated

/-- What is verified of correlated invariants: a conditional one in any run, a consistency one in
any exploration, whatever its order. -/
theorem meaning (P : Plankton) (invs : List CheckedInvariant) :
    (∀ (s t : Model) (tr : List (Link Model Label)),
      P.initModel (.conditional invs) = some s →
      Run (P.step (.conditional invs)) s tr t → t.choiceCount = 0 →
      Conditional.Means P invs tr t) ∧
    ∀ s : Model, P.initModel (.consistency invs) = some s →
      (∀ (e : Exploration) (tr : List (Link Exploration Move)),
        Run (Exploration.step P (.consistency invs)) (.start s) tr e →
        (e.Violated ↔ ∃ o ∈ Exploration.outcomes P (.consistency invs) tr,
          ∃ o' ∈ Exploration.outcomes P (.consistency invs) tr, o ≠ o')) ∧
      ∀ (Possible : Model → Nat → List InjectionResult → Prop) (e e' : Exploration)
        (tr tr' : List (Link Exploration Move)),
        Run (Exploration.step P (.consistency invs)) (.start s) tr e →
        Run (Exploration.step P (.consistency invs)) (.start s) tr' e' →
        Exploration.Exhaustive Possible tr e → Exploration.Exhaustive Possible tr' e' →
        (e.Violated ↔ e'.Violated) := by
  refine ⟨?_, ?_⟩
  · intro s t tr hs h ht
    obtain ⟨m, hm, rfl⟩ := Option.map_eq_some_iff.mp hs
    obtain ⟨inv, hinv, hinit⟩ := Option.bind_eq_some_iff.mp hm
    have hidx : m.correlatedInvIdx = 0 := (CheckedInvariant.starts_of_init hinit).correlatedInvIdx
    have hlen : 0 < invs.length := (List.getElem?_eq_some_iff.mp hinv).1
    exact Conditional.means_of_run h Nat.one_ne_zero ht hidx hlen
  · intro s hs
    obtain ⟨m, -, rfl⟩ := Option.map_eq_some_iff.mp hs
    have hcount : (Plankton.startForwarding m).choiceCount ≠ 0 := Nat.one_ne_zero
    refine ⟨fun e tr h => Exploration.violated_iff h hcount, ?_⟩
    intro Possible e e' tr tr' h h' hall hall'
    constructor
    · exact Exploration.violated_of_exhaustive hcount h' h hall' hall
    · exact Exploration.violated_of_exhaustive hcount h h' hall hall'

section Site

open Waypoint (sitePlankton siteConn)
open Plankton (go)

def siteInvs : List CheckedInvariant :=
  [⟨.waypoint [2] true, [siteConn .udp]⟩, ⟨.waypoint [1] false, [siteConn .udp]⟩]

theorem meaning_site :
    (∃ s t tr, sitePlankton.initModel (.conditional siteInvs) = some s ∧
      Run (sitePlankton.step (.conditional siteInvs)) s tr t ∧ t.choiceCount = 0 ∧
      Conditional.Means sitePlankton siteInvs tr t) ∧
    ∃ s e tr, sitePlankton.initModel (.consistency siteInvs) = some s ∧
      Run (Exploration.step sitePlankton (.consistency siteInvs)) (.start s) tr e ∧
      (e.Violated ↔ ∃ o ∈ Exploration.outcomes sitePlankton (.consistency siteInvs) tr,
        ∃ o' ∈ Exploration.outcomes sitePlankton (.consistency siteInvs) tr, o ≠ o') ∧
      Exploration.Exhaustive (Exploration.Explored tr) tr e := by
  refine ⟨?_, ?_⟩
  · have hrun : ((sitePlankton.initModel (.conditional siteInvs)).bind fun s =>
        (execute (sitePlankton.step (.conditional siteInvs)) s (List.replicate 12 go)).map
          fun r => r.2.choiceCount) = some 0 := by
      decide +kernel
    obtain ⟨s, hs, hrun⟩ := Option.bind_eq_some_iff.mp hrun
    obtain ⟨⟨tr, t⟩, hexec, h₀⟩ := Option.map_eq_some_iff.mp hrun
    have hr := run_of_execute hexec
    exact ⟨s, t, tr, hs, hr, h₀, (meaning sitePlankton siteInvs).1 s t tr hs hr h₀⟩
  · have hrun : ((sitePlankton.initModel (.consistency siteInvs)).bind fun s =>
        (execute (Exploration.step sitePlankton (.consistency siteInvs)) (.start s)
          ((List.range 12).map fun i => ⟨i, 0, []⟩)).map fun r => r.2.reached.length) =
            some 13 := by
      decide +kernel
    obtain ⟨s, hs, hrun⟩ := Option.bind_eq_some_iff.mp hrun
    obtain ⟨⟨tr, e⟩, hexec, -⟩ := Option.map_eq_some_iff.mp hrun
    have hr := run_of_execute hexec
    refine ⟨s, e, tr, hs, hr, ((meaning sitePlankton siteInvs).2 s hs).1 e tr hr, ?_, ?_⟩
    · intro m choice results hexplored
      exact hexplored
    · intro m _ choice results hpossible
      exact hpossible

end Site

end Correlated

end Neo
