import Neo.Process.AnyOrder

/-! Invariants that watch the connection in charge. A run ends where a connection is hit, or where
the last executable one misses; what is found in one order of the connections is then found in
every order. -/

namespace Neo

namespace Model

variable {m : Model} {i : Nat}

theorem otherExecutableConnsExist_of_executable (hi : i < m.numConns) (hne : i ≠ m.conn)
    (hexec : (m.connState i).executable = 2) : m.otherExecutableConnsExist = true := by
  unfold otherExecutableConnsExist
  rw [List.any_eq_true]
  refine ⟨i, List.mem_range.mpr hi, ?_⟩
  rw [hexec]
  simp [hne]

theorem executable_of_others (h : m.otherExecutableConnsExist = false) (hi : i < m.numConns)
    (hne : i ≠ m.conn) : (m.connState i).executable = 0 := by
  unfold otherExecutableConnsExist at h
  have hi' := List.any_eq_false.mp h i (List.mem_range.mpr hi)
  simpa [hne] using hi'

end Model

namespace Unoptimized

variable {P : Plankton} {st : OpenflowUpdateState} {hit : ConnState → Prop} {c c' : ConnState}

def CanMeet (P : Plankton) (st : OpenflowUpdateState) (hit : ConnState → Prop) (c : ConnState) :
    Prop :=
  ∃ c', Relation.TransGen (Moves P st) c c' ∧ hit c'

/-- A connection can be forwarded on without being hit until it cannot be hit any more. -/
inductive Avoids (P : Plankton) (st : OpenflowUpdateState) (hit : ConnState → Prop) :
    ConnState → Prop
  | never {c : ConnState} (h : ∀ c', Relation.TransGen (Moves P st) c c' → ¬ hit c') :
      Avoids P st hit c
  | move {c c' : ConnState} (hmoves : Moves P st c c') (hhit : ¬ hit c') (h : Avoids P st hit c') :
      Avoids P st hit c

theorem Moves.executable (h : Moves P st c c') : c.executable = 2 := by
  obtain ⟨-, -, -, -, -, hexec, -⟩ := h
  exact hexec

theorem executable_of_path (h : Relation.TransGen (Moves P st) c c') : c.executable = 2 := by
  obtain ⟨_, hmoves, -⟩ := Relation.TransGen.head'_iff.mp h
  exact hmoves.executable

theorem CanMeet.executable (h : CanMeet P st hit c) : c.executable = 2 := by
  obtain ⟨c', hpath, -⟩ := h
  exact executable_of_path hpath

theorem Avoids.of_frozen (h : c.executable = 0) : Avoids P st hit c := by
  apply Avoids.never
  intro c' hpath
  cases (executable_of_path hpath).symm.trans h

theorem Avoids.next (h : Avoids P st hit c) :
    (∀ c', Moves P st c c' → ¬ hit c' ∧ Avoids P st hit c') ∨
      ∃ c', Moves P st c c' ∧ ¬ hit c' ∧ Avoids P st hit c' := by
  cases h with
  | never h =>
    left
    intro c' hmoves
    refine ⟨h c' (.single hmoves), .never fun c'' hpath => ?_⟩
    exact h c'' (.head hmoves hpath)
  | move hmoves hhit h => exact .inr ⟨_, hmoves, hhit, h⟩

/-- An invariant that looks at the connection in charge, and at the others only for whether they
are executable. A connection that is not past its decision goes on until it is hit or misses, and
one that misses is never hit. -/
structure Watch (P : Plankton) (policy : Policy) (conns : List Connection) where
  verdict : Bool
  hit : ConnState → Prop
  miss : ConnState → Prop
  past : ConnState → Prop
  settled : ConnState → Prop
  keeps : ConnState → Prop
  initViolated : policy.initViolated = false
  -- what the check does with the connection in charge
  check_hit {m : Model} : hit m.cur → m.checkPolicy policy = some (m.stop verdict)
  check_miss {m : Model} : ¬ hit m.cur → miss m.cur → m.otherExecutableConnsExist = false →
    m.checkPolicy policy = some (m.stop !verdict)
  check_quiet {m : Model} : ¬ hit m.cur → (miss m.cur → m.otherExecutableConnsExist = true) →
    m.checkPolicy policy = some m
  -- what holds of a connection that starts, that is dropped, and that goes on
  keeps_starts {d : Connection} {st : OpenflowUpdateState} {c : ConnState} : d ∈ conns →
    d.Starts P st c → keeps c
  hit_starts {d : Connection} {st : OpenflowUpdateState} {c : ConnState} : d.Starts P st c → ¬ hit c
  past_starts {d : Connection} {st : OpenflowUpdateState} {c c' : ConnState} : d.Starts P st c →
    miss c' → ¬ past c
  keeps_dropped {c : ConnState} : keeps c → keeps { c with fwdMode := .dropped }
  hit_dropped {c : ConnState} : ¬ hit { c with fwdMode := .dropped }
  miss_dropped {c : ConnState} : ¬ past c → c.isFinished = false →
    miss { c with fwdMode := .dropped }
  keeps_advances {st : OpenflowUpdateState} {choice : Nat} {c c' : ConnState} : P.Sends c →
    keeps c → Advances P st choice c c' → keeps c'
  past_advances {st : OpenflowUpdateState} {choice : Nat} {c c' : ConnState} : P.Sends c →
    c.executable = 2 → keeps c → Advances P st choice c c' → ¬ hit c' → ¬ miss c' → ¬ past c →
      ¬ past c' ∧ c'.isFinished = false
  settled_miss {c : ConnState} : P.Sends c → keeps c → miss c → ¬ hit c → settled c
  settled_advances {st : OpenflowUpdateState} {choice : Nat} {c c' : ConnState} : P.Sends c →
    settled c → Advances P st choice c c' → settled c'
  hit_settled {c : ConnState} : settled c → ¬ hit c

variable {policy : Policy} {conns : List Connection} {W : Watch P policy conns}
  {m m' n n' t : Model} {l : Label} {tr : List (Link Model Label)}

theorem Watch.never (hP : P.Steady) (hc : P.OnTrack c) (hkeeps : W.keeps c) (hmiss : W.miss c)
    (hhit : ¬ W.hit c) (h : Relation.TransGen (Moves P st) c c') : ¬ W.hit c' := by
  have hsettled : W.settled c := by
    obtain ⟨_, hmoves, -⟩ := Relation.TransGen.head'_iff.mp h
    exact W.settled_miss (hmoves.sends hc) hkeeps hmiss hhit
  have hstep : ∀ {c c' : ConnState}, P.OnTrack c ∧ W.settled c → Moves P st c c' →
      P.OnTrack c' ∧ W.settled c' := by
    intro c c' ⟨hc, hsettled⟩ hmoves
    obtain ⟨choice, hadvances⟩ := hmoves.advances hP.modelOnly hc
    exact ⟨hmoves.onTrack hP hc, W.settled_advances (hmoves.sends hc) hsettled hadvances⟩
  have hend : P.OnTrack c' ∧ W.settled c' := by
    induction h with
    | single hmoves => exact hstep ⟨hc, hsettled⟩ hmoves
    | tail _ hmoves ih => exact hstep ih hmoves
  exact W.hit_settled hend.2

/-- As long as the run goes on no connection is hit. -/
structure Watch.Unmet (W : Watch P policy conns) (m : Model) : Prop where
  keeps : ∀ i < m.numConns, W.keeps (m.connState i)
  unhit : ∀ i < m.numConns, ¬ W.hit (m.connState i)

theorem Watch.Unmet.continues (hP : P.Steady) (hunmet : W.Unmet n) (hn : UnderWay P n)
    (h : Continues P n n') (hhit : ¬ W.hit n'.cur) : W.Unmet n' := by
  constructor
  · intro i hi
    rw [h.numConns] at hi
    rcases h.slot i with hsame | ⟨-, -, -, hdropped⟩ | ⟨-, -, -, hmoves⟩
    · rw [hsame]
      exact hunmet.keeps i hi
    · rw [hdropped]
      exact W.keeps_dropped (hunmet.keeps i hi)
    · obtain ⟨choice, hadvances⟩ := hmoves.advances hP.modelOnly (hn.onTrack i hi)
      exact W.keeps_advances (hmoves.sends (hn.onTrack i hi)) (hunmet.keeps i hi) hadvances
  · intro i hi
    rw [h.numConns] at hi
    rcases h.slot i with hsame | ⟨-, -, -, hdropped⟩ | ⟨-, -, hconn, -⟩
    · rw [hsame]
      exact hunmet.unhit i hi
    · rw [hdropped]
      exact W.hit_dropped
    · rw [hconn]
      exact hhit

theorem CanMeet.before (h : Continues P n n') {i : Nat}
    (hmeet : CanMeet P n'.openflowUpdateState hit (n'.connState i)) :
    CanMeet P n.openflowUpdateState hit (n.connState i) := by
  have hexec := hmeet.executable
  rw [h.openflowUpdateState] at hmeet
  rcases h.slot i with hsame | ⟨hzero, hi, -, hdropped⟩ | ⟨-, -, -, hmoves⟩
  · rw [hsame] at hmeet
    exact hmeet
  · rw [hdropped] at hexec
    cases hexec.symm.trans (hzero i hi)
  · -- the step that was taken is the first one of the way
    obtain ⟨c', hpath, hmet⟩ := hmeet
    exact ⟨c', .head hmoves hpath, hmet⟩

theorem Avoids.before (h : Continues P n n') {i : Nat} (hhit : ¬ hit (n'.connState i))
    (havoids : Avoids P n'.openflowUpdateState hit (n'.connState i)) :
    Avoids P n.openflowUpdateState hit (n.connState i) := by
  rw [h.openflowUpdateState] at havoids
  rcases h.slot i with hsame | ⟨hzero, hi, -, -⟩ | ⟨-, -, -, hmoves⟩
  · rw [hsame] at havoids
    exact havoids
  · exact .of_frozen (hzero i hi)
  · exact .move hmoves hhit havoids

theorem Watch.canMeet_of_hit (hunmet : W.Unmet n) (h : Continues P n n') (hn' : UnderWay P n')
    (hhit : W.hit n'.cur) :
    ∃ i < n.numConns, CanMeet P n.openflowUpdateState W.hit (n.connState i) := by
  have hi : n'.conn < n.numConns := h.numConns ▸ hn'.conn
  refine ⟨n'.conn, hi, ?_⟩
  unfold Model.cur at hhit
  rcases h.slot n'.conn with hsame | ⟨-, -, -, hdropped⟩ | ⟨-, -, -, hmoves⟩
  · rw [hsame] at hhit
    exact absurd hhit (hunmet.unhit _ hi)
  · rw [hdropped] at hhit
    exact absurd hhit W.hit_dropped
  · exact ⟨_, .single hmoves, hhit⟩

theorem Watch.avoids_of_miss (hP : P.Steady) (hunmet : W.Unmet n) (hn : UnderWay P n)
    (hmiss : W.miss n.cur) (hothers : n.otherExecutableConnsExist = false) {i : Nat}
    (hi : i < n.numConns) : Avoids P n.openflowUpdateState W.hit (n.connState i) := by
  -- the one in charge misses, and the others are frozen
  by_cases hconn : i = n.conn
  · subst hconn
    apply Avoids.never
    intro c' hpath
    exact Watch.never hP (hn.onTrack _ hi) (hunmet.keeps _ hi) hmiss (hunmet.unhit _ hi) hpath
  · exact .of_frozen (Model.executable_of_others hothers hi hconn)

/-- A violation that is found in some order comes from a connection that can be hit, or all of them
can avoid that. -/
theorem Watch.cases_of_run (hP : P.Steady)
    (h : Run (step P (.single ⟨policy, conns⟩)) n tr t) (hn : UnderWay P n) (hunmet : W.Unmet n)
    (hviolated : n.violated = false) (ht : t.violated = true) :
    (W.verdict = true ∧
        ∃ i < n.numConns, CanMeet P n.openflowUpdateState W.hit (n.connState i)) ∨
      W.verdict = false ∧ (∃ c, W.miss c) ∧
        ∀ i < n.numConns, Avoids P n.openflowUpdateState W.hit (n.connState i) := by
  induction h with
  | nil n => cases hviolated.symm.trans ht
  | @cons n n' t l tr hstep hrest ih =>
    obtain ⟨hlt, n₁, hcontrol, hcheck⟩ := step_single hstep
    obtain ⟨hn₁, hcontinues⟩ := underWay_control hP hn hlt hcontrol
    by_cases hhit : W.hit n₁.cur
    · left
      obtain rfl := Option.some.inj ((W.check_hit hhit).symm.trans hcheck)
      obtain rfl := run_of_choiceCount hrest rfl
      exact ⟨ht, W.canMeet_of_hit hunmet hcontinues hn₁ hhit⟩
    have hunmet₁ : W.Unmet n₁ := hunmet.continues hP hn hcontinues hhit
    have hi₁ : ∀ {i}, i < n.numConns → i < n₁.numConns := fun hi => hcontinues.numConns.symm ▸ hi
    -- the last connection misses: all of them were able to avoid the hit
    by_cases hends : W.miss n₁.cur ∧ n₁.otherExecutableConnsExist = false
    · right
      obtain ⟨hmiss, hothers⟩ := hends
      obtain rfl := Option.some.inj ((W.check_miss hhit hmiss hothers).symm.trans hcheck)
      obtain rfl := run_of_choiceCount hrest rfl
      have hverdict : (!W.verdict) = true := ht
      refine ⟨by simpa using hverdict, ⟨_, hmiss⟩, fun i hi => ?_⟩
      apply Avoids.before hcontinues (hunmet₁.unhit i (hi₁ hi))
      exact W.avoids_of_miss hP hunmet₁ hn₁ hmiss hothers (hi₁ hi)
    · have hquiet : n₁.checkPolicy policy = some n₁ := by
        apply W.check_quiet hhit
        intro hmiss
        simpa [hmiss] using hends
      obtain rfl := Option.some.inj (hquiet.symm.trans hcheck)
      rcases ih hn₁ hunmet₁ (hcontinues.violated.trans hviolated) ht with
        ⟨hverdict, i, hi, hmeet⟩ | ⟨hverdict, hmiss, havoids⟩
      · exact .inl ⟨hverdict, i, hcontinues.numConns ▸ hi, hmeet.before hcontinues⟩
      · refine .inr ⟨hverdict, hmiss, fun i hi => ?_⟩
        exact .before hcontinues (hunmet₁.unhit i (hi₁ hi)) (havoids i (hi₁ hi))

theorem step_of_control (hlt : l.choice < m.choiceCount)
    (hcontrol : P.control l.results (m.setChoice l.choice) = some m')
    (hcheck : m'.checkPolicy policy = some n) :
    P.step (.single ⟨policy, conns⟩) m l = some n := by
  have hviolation : (Invariants.single ⟨policy, conns⟩).checkViolation l.result m' =
      some (n, false) := by
    show (m'.checkPolicy policy).bind _ = _
    rw [hcheck]
    rfl
  unfold Plankton.step Plankton.execStep
  rw [if_pos hlt, hcontrol]
  show ((Invariants.single ⟨policy, conns⟩).checkViolation l.result m').bind _ = _
  rw [hviolation]
  rfl

theorem Turn.step (h : Turn P m l m') (policy : Policy) (conns : List Connection)
    (hcheck : m'.checkPolicy policy = some n) : P.step (.single ⟨policy, conns⟩) m l = some n :=
  step_of_control h.lt h.control hcheck

/-- A turn after which a connection that can be hit is hit, or can still be. -/
theorem exists_turn_meeting (hP : P.Steady) (hcourse : P.OnCourse m) (hm : UnderWay P m) {i : Nat}
    (hi : i < m.numConns) (hmeet : CanMeet P m.openflowUpdateState hit (m.connState i)) :
    ∃ l m', Turn P m l m' ∧
      (hit m'.cur ∨ CanMeet P m'.openflowUpdateState hit (m'.connState i)) := by
  have hexec := hmeet.executable
  by_cases hcharge : m.processId = .forwarding ∧ i = m.conn
  · obtain ⟨hp, rfl⟩ := hcharge
    obtain ⟨c', hpath, hmet⟩ := hmeet
    obtain ⟨b, hmoves, hrest⟩ := Relation.TransGen.head'_iff.mp hpath
    obtain ⟨l, m', hturn, rfl⟩ := exists_turn_to hP hcourse hm hp hmoves
    refine ⟨l, m', hturn, ?_⟩
    rw [hturn.continues.openflowUpdateState]
    rcases Relation.reflTransGen_iff_eq_or_transGen.mp hrest with rfl | hpath'
    · exact .inl hmet
    · right
      rw [← hturn.stays hp]
      exact ⟨c', hpath', hmet⟩
  · have hpos : 0 < m.choiceCount := by
      apply choiceCount_pos hcourse hi
      simp [ConnState.isFinished, hexec]
    obtain ⟨l, m', hturn⟩ := exists_turn hP hcourse hm hpos
    refine ⟨l, m', hturn, .inr ?_⟩
    have hslot : m'.connState i = m.connState i := by
      rcases hturn.continues.slot i with hsame | ⟨hzero, -⟩ | ⟨hp, hconn, -⟩
      · exact hsame
      · cases hexec.symm.trans (hzero i hi)
      · exact absurd ⟨hp, hconn⟩ hcharge
    rw [hslot, hturn.continues.openflowUpdateState]
    exact hmeet

theorem Watch.run_of_canMeet (hP : P.Steady) (hverdict : W.verdict = true)
    (hcourse : P.OnCourse m) (hm : UnderWay P m) (hunmet : W.Unmet m) {i : Nat}
    (hi : i < m.numConns) (hmeet : CanMeet P m.openflowUpdateState W.hit (m.connState i)) :
    ∃ tr t, Run (P.step (.single ⟨policy, conns⟩)) m tr t ∧ t.choiceCount = 0 ∧
      t.violated = true := by
  induction hw : P.potential m using Nat.strong_induction_on generalizing m with
  | _ w ih =>
    subst hw
    obtain ⟨l, m', hturn, hnext⟩ := exists_turn_meeting hP hcourse hm hi hmeet
    by_cases hhit : W.hit m'.cur
    · exact ⟨_, _, .cons (hturn.step _ _ (W.check_hit hhit)) (.nil _), rfl, hverdict⟩
    have hunmet' : W.Unmet m' := hunmet.continues hP hm hturn.continues hhit
    have hi' : i < m'.numConns := hturn.continues.numConns.symm ▸ hi
    have hmeet' := hnext.resolve_left hhit
    have hquiet : m'.checkPolicy policy = some m' := by
      apply W.check_quiet hhit
      intro hmiss
      apply Model.otherExecutableConnsExist_of_executable hi' _ hmeet'.executable
      -- a connection that misses is not hit any more
      rintro rfl
      obtain ⟨c', hpath, hmet⟩ := hmeet'
      exact Watch.never hP (hturn.underWay.onTrack _ hi') (hunmet'.keeps _ hi') hmiss hhit hpath
        hmet
    obtain ⟨tr, t, hrun, ht⟩ :=
      ih _ hturn.less hturn.onCourse hturn.underWay hunmet' hi' hmeet' rfl
    exact ⟨_, t, .cons (hturn.step _ _ hquiet) hrun, ht⟩

/-- A turn after which all connections can still avoid to be hit. -/
theorem exists_turn_avoiding (hP : P.Steady) (hcourse : P.OnCourse m) (hm : UnderWay P m)
    (hpos : 0 < m.choiceCount) (hunhit : ∀ i < m.numConns, ¬ hit (m.connState i))
    (hdropped : ∀ c : ConnState, ¬ hit { c with fwdMode := .dropped })
    (havoids : ∀ i < m.numConns, Avoids P m.openflowUpdateState hit (m.connState i)) :
    ∃ l m', Turn P m l m' ∧ ¬ hit m'.cur ∧
      ∀ i < m'.numConns, Avoids P m'.openflowUpdateState hit (m'.connState i) := by
  -- the connection in charge goes on as it has to, if there is one
  have hgood : ∃ l m', Turn P m l m' ∧ (m.processId = .forwarding →
      Moves P m.openflowUpdateState m.cur m'.cur →
        ¬ hit m'.cur ∧ Avoids P m.openflowUpdateState hit m'.cur) := by
    by_cases hp : m.processId = .forwarding
    · rcases (havoids m.conn hm.conn).next with hall | ⟨c', hmoves, hhit, havoids'⟩
      · obtain ⟨l, m', hturn⟩ := exists_turn hP hcourse hm hpos
        exact ⟨l, m', hturn, fun _ hmoves => hall _ hmoves⟩
      · obtain ⟨l, m', hturn, rfl⟩ := exists_turn_to hP hcourse hm hp hmoves
        exact ⟨l, m', hturn, fun _ _ => ⟨hhit, havoids'⟩⟩
    · obtain ⟨l, m', hturn⟩ := exists_turn hP hcourse hm hpos
      exact ⟨l, m', hturn, fun hp' => absurd hp' hp⟩
  obtain ⟨l, m', hturn, hgood⟩ := hgood
  have hslot : ∀ i < m.numConns, (i = m'.conn → ¬ hit (m'.connState i)) ∧
      Avoids P m.openflowUpdateState hit (m'.connState i) := by
    intro i hi
    rcases hturn.continues.slot i with hsame | ⟨hzero, -, -, hdrop⟩ | ⟨hp, hconn, hconn', hmoves⟩
    · rw [hsame]
      exact ⟨fun _ => hunhit i hi, havoids i hi⟩
    · rw [hdrop]
      exact ⟨fun _ => hdropped _, .of_frozen (hzero i hi)⟩
    · have hcur : m'.cur = m'.connState i := by rw [Model.cur, ← hconn']
      have hcur₀ : m.cur = m.connState i := by rw [Model.cur, ← hconn]
      rw [hcur, hcur₀] at hgood
      obtain ⟨hhit, havoids'⟩ := hgood hp hmoves
      exact ⟨fun _ => hhit, havoids'⟩
  have hnum := hturn.continues.numConns
  refine ⟨l, m', hturn, (hslot m'.conn (hnum ▸ hturn.underWay.conn)).1 rfl, fun i hi => ?_⟩
  rw [hturn.continues.openflowUpdateState]
  exact (hslot i (hnum ▸ hi)).2

/-- Only the connection in charge may be past its decision and go on, and some connection is not
past it and has not come to an end. -/
structure Watch.Undecided (W : Watch P policy conns) (m : Model) : Prop where
  behind : ∀ i < m.numConns, (m.connState i).executable = 2 → W.past (m.connState i) →
    m.processId = .forwarding ∧ i = m.conn
  ahead : ∃ i < m.numConns, ¬ W.past (m.connState i) ∧ (m.connState i).isFinished = false

theorem Turn.inCharge (h : Turn P m l m') (hp : m.processId = .forwarding)
    (hexec : (m'.connState m.conn).executable = 2) :
    m'.processId = .forwarding ∧ m.conn = m'.conn := by
  have hconn := h.stays hp
  refine ⟨?_, hconn.symm⟩
  rcases h.underWay.control with ⟨hp', -⟩ | hchoose
  · exact hp'
  · have hne := h.chooses hchoose
    rw [Model.cur, hconn] at hne
    exact absurd hexec hne

theorem Watch.undecided_behind (h : Turn P m l m') (hm : W.Undecided m) :
    ∀ i < m'.numConns, (m'.connState i).executable = 2 → W.past (m'.connState i) →
      m'.processId = .forwarding ∧ i = m'.conn := by
  intro i hi hexec hpast
  rw [h.continues.numConns] at hi
  have hforwarding : m.processId = .forwarding ∧ i = m.conn := by
    rcases h.continues.slot i with hsame | ⟨hzero, -, -, hdrop⟩ | ⟨hp, hconn, -, -⟩
    · rw [hsame] at hexec hpast
      exact hm.behind i hi hexec hpast
    · rw [hdrop] at hexec
      cases hexec.symm.trans (hzero i hi)
    · exact ⟨hp, hconn⟩
  obtain ⟨hp, rfl⟩ := hforwarding
  exact h.inCharge hp hexec

/-- A turn decides, or leaves some connection that is not past its decision. -/
theorem Watch.Undecided.turn (hP : P.Steady) (h : Turn P m l m') (hundecided : W.Undecided m)
    (hm : UnderWay P m) (hunmet : W.Unmet m) (hhit : ¬ W.hit m'.cur) :
    (W.miss m'.cur ∧ m'.otherExecutableConnsExist = false) ∨ W.Undecided m' := by
  obtain ⟨a, ha, hpast, hfinished⟩ := hundecided.ahead
  have ha' : a < m'.numConns := h.continues.numConns.symm ▸ ha
  have hbehind := Watch.undecided_behind h hundecided
  rcases h.continues.slot a with hsame | ⟨hzero, -, hconn, hdrop⟩ | ⟨hp, hconn, hconn', hmoves⟩
  · refine .inr ⟨hbehind, a, ha', ?_⟩
    rw [hsame]
    exact ⟨hpast, hfinished⟩
  · left
    constructor
    · rw [Model.cur, ← hconn, hdrop]
      exact W.miss_dropped hpast hfinished
    · apply Model.otherExecutableConnsExist_eq_false
      intro j hj hne
      rw [h.continues.numConns] at hj
      rcases h.continues.slot j with hsame | ⟨-, -, hconn', -⟩ | ⟨-, -, hconn', -⟩
      · rw [hsame]
        exact hzero j hj
      · exact absurd hconn' hne
      · exact absurd hconn' hne
  · have hcur : m'.cur = m'.connState a := by rw [Model.cur, ← hconn']
    have hsends := hmoves.sends (hm.onTrack a ha)
    obtain ⟨choice, hadvances⟩ := hmoves.advances hP.modelOnly (hm.onTrack a ha)
    by_cases hmiss : W.miss m'.cur
    · by_cases hothers : m'.otherExecutableConnsExist = false
      · exact .inl ⟨hmiss, hothers⟩
      · right
        -- another connection is executable, and was not in charge
        obtain ⟨j, hj, hne, hexec⟩ : ∃ j < m'.numConns, j ≠ m'.conn ∧
            (m'.connState j).executable ≠ 0 := by
          by_contra hnone
          push Not at hnone
          exact hothers (Model.otherExecutableConnsExist_eq_false hnone)
        have htwo : (m'.connState j).executable = 2 :=
          ((h.underWay.onTrack j hj).resolve_left hexec).1
        refine ⟨hbehind, j, hj, ?_, ?_⟩
        · intro hpast'
          exact hne (hbehind j hj htwo hpast').2
        · simp [ConnState.isFinished, htwo]
    · rw [hcur] at hhit hmiss
      exact .inr ⟨hbehind, a, ha', W.past_advances hsends hmoves.executable
        (hunmet.keeps a ha) hadvances hhit hmiss hpast⟩

theorem Watch.run_of_avoids (hP : P.Steady) (hverdict : W.verdict = false)
    (hcourse : P.OnCourse m) (hm : UnderWay P m) (hunmet : W.Unmet m) (hundecided : W.Undecided m)
    (havoids : ∀ i < m.numConns, Avoids P m.openflowUpdateState W.hit (m.connState i)) :
    ∃ tr t, Run (P.step (.single ⟨policy, conns⟩)) m tr t ∧ t.choiceCount = 0 ∧
      t.violated = true := by
  induction hw : P.potential m using Nat.strong_induction_on generalizing m with
  | _ w ih =>
    subst hw
    obtain ⟨a, ha, -, hfinished⟩ := hundecided.ahead
    have hpos : 0 < m.choiceCount := choiceCount_pos hcourse ha hfinished
    obtain ⟨l, m', hturn, hhit, havoids'⟩ := exists_turn_avoiding hP hcourse hm hpos hunmet.unhit
      (fun _ => W.hit_dropped) havoids
    have hunmet' : W.Unmet m' := hunmet.continues hP hm hturn.continues hhit
    by_cases hends : W.miss m'.cur ∧ m'.otherExecutableConnsExist = false
    · refine ⟨_, _, .cons (hturn.step _ _ (W.check_miss hhit hends.1 hends.2)) (.nil _), rfl, ?_⟩
      show (!W.verdict) = true
      rw [hverdict]
      rfl
    · have hundecided' := (hundecided.turn hP hturn hm hunmet hhit).resolve_left hends
      have hquiet : m'.checkPolicy policy = some m' := by
        apply W.check_quiet hhit
        intro hmiss
        simpa [hmiss] using hends
      obtain ⟨tr, t, hrun, ht⟩ :=
        ih _ hturn.less hturn.onCourse hturn.underWay hunmet' hundecided' havoids' rfl
      exact ⟨_, t, .cons (hturn.step _ _ hquiet) hrun, ht⟩

theorem Watch.unmet_starts {s m₀ : Model}
    (hs : CheckedInvariant.Starts ⟨policy, conns⟩ P m₀ s) : W.Unmet s := by
  have hslot : ∀ i < s.numConns, ∃ d ∈ conns,
      d.Starts P m₀.openflowUpdateState (s.connState i) := by
    intro i hi
    rw [hs.numConns] at hi
    exact ⟨conns[i], List.getElem_mem hi, hs.slot i _ (List.getElem?_eq_getElem hi)⟩
  constructor
  · intro i hi
    obtain ⟨d, hd, hstarts⟩ := hslot i hi
    exact W.keeps_starts hd hstarts
  · intro i hi
    obtain ⟨d, -, hstarts⟩ := hslot i hi
    exact W.hit_starts hstarts

end Unoptimized

end Neo
