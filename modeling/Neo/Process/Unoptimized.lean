import Neo.Invariant.Correlated
import Neo.Process.Congruence

/-! The scheduler of `scripts/unoptimized.patch`, which chooses among all connections that are
executable, and how the runs of the scheduler without the patch are found among its runs. -/

namespace Neo

namespace Unoptimized

/-- `update_choice_count` with the patch. -/
def updateChoiceCount (m : Model) : Model :=
  if m.connMap 2 ≠ [] ∨ m.connMap 1 ≠ [] then
    m.setChoiceCount ((m.connMap 2).length + (m.connMap 1).length)
  else if m.connMap 0 ≠ [] then m.setChoiceCount 1
  else m.setChoiceCount 0

def chosenConn (m : Model) : Option Nat :=
  if m.choice < (m.connMap 2).length then (m.connMap 2)[m.choice]?
  else (m.connMap 1)[m.choice - (m.connMap 2).length]?

/-- The connection `exec_step` sets with the patch, and what it does to it. -/
def pickConn (m : Model) : Option Model :=
  if m.connMap 2 ≠ [] ∨ m.connMap 1 ≠ [] then do
    -- any connection that is executable or waits
    let conn ← chosenConn m
    let m := m.setConn conn
    return m.setCur { m.cur with executable := 2 }
  else
    match m.connMap 0 with
    | conn :: _ => do
      assert (m.choice == 0)
      let m := m.setConn conn
      if m.cur.fwdMode ≠ .dropped ∧ ¬(m.cur.fwdMode = .accepted ∧ m.cur.protoState.isLast) then
        return m.setCur { m.cur with fwdMode := .dropped }
      else
        return m
    | [] => none

/-- `ChooseConnProcess::exec_step` with the patch. -/
def execChooseConn (m : Model) : Option Model := do
  let m ← pickConn m
  if m.cur.fwdMode = .forwardPacket ∨ m.cur.fwdMode = .firstForward then
    let candidates ← m.cur.candidates
    return m.setChoiceCount candidates.length
  else
    return m.setChoiceCount 1

/-- `check_to_switch_process`, which the patch leaves as it is. -/
def checkToSwitchProcess (P : Plankton) (m : Model) : Option Model :=
  if m.cur.executable ≠ 2 then some (updateChoiceCount (m.setProcessId .chooseConn))
  else m.checkToSwitchProcess P

variable (P : Plankton) (V : Invariants)

def control (results : List InjectionResult) (m : Model) : Option Model := do
  let m ← match m.processId with
    | .chooseConn => execChooseConn m
    | .forwarding => m.execForwarding P results
    | .openflow => m.execOpenflow P
  checkToSwitchProcess P m

def execStep (l : Label) (m : Model) : Option Model := do
  let m ← control P l.results m
  let (m, reinitDp) ← V.checkViolation l.result m
  if reinitDp then P.reinit V m else return m

def step (m : Model) (l : Label) : Option Model :=
  if l.choice < m.choiceCount then execStep P V l (m.setChoice l.choice) else none

/-- The states of the two schedulers differ only where a connection is about to be chosen: one
scheduler then sees a single choice, the other one all of them. -/
inductive Widens : Model → Model → Prop
  | same (m : Model) : Widens m m
  | wider {m : Model} {k : Nat} (processId : m.processId = .chooseConn)
      (executable : m.cur.executable ≠ 2) (others : m.connMap 2 ≠ [])
      (choiceCount : m.choiceCount = 1) (choices : 0 < k) : Widens m (m.setChoiceCount k)

/-- A step continues the first connection that is executable, if it chooses among any. -/
def InOrder (l : Link Model Label) : Prop :=
  l.before.processId = .chooseConn → l.before.connMap 2 ≠ [] → l.act.choice = 0

variable {P V} {m n m' n' : Model} {l : Label}

theorem Widens.eq_setChoiceCount (h : Widens m n) : n = m.setChoiceCount n.choiceCount := by
  cases h <;> rfl

theorem Widens.eq_of_ne (h : Widens m n) (hp : m.processId ≠ .chooseConn) : n = m := by
  cases h with
  | same => rfl
  | wider hchoose => exact absurd hchoose hp

theorem pickConn_eq (h : m.connMap 2 ≠ [] → m.choice = 0) : pickConn m = m.pickConn := by
  unfold pickConn Model.pickConn chosenConn
  cases h₂ : m.connMap 2 with
  | cons conn rest =>
    have hzero : m.choice = 0 := h (by simp [h₂])
    obtain ⟨-, -, hexec⟩ := Model.mem_connMap.mp (h₂ ▸ List.mem_cons_self ..)
    have hset : (m.setConn conn).setCur { (m.setConn conn).cur with executable := 2 } =
        m.setConn conn := by
      have hcur : { (m.setConn conn).cur with executable := 2 } = (m.setConn conn).cur := by
        rw [Model.cur_setConn, ← hexec]
      rw [hcur]
      exact Model.setCur_cur
    simp [hzero, assert, hset]
  | nil =>
    cases h₁ : m.connMap 1 with
    | cons c cs => simp
    | nil => cases m.connMap 0 <;> simp

theorem pickConn_first {conn : Nat} {rest : List Nat} (h : m.connMap 2 = conn :: rest)
    (hchoice : m.choice = 0) : m.pickConn = some (m.setConn conn) := by
  unfold Model.pickConn
  rw [h, hchoice]
  rfl

theorem execChooseConn_first {conn : Nat} {rest : List Nat} (h : m.connMap 2 = conn :: rest)
    (hchoice : m.choice = 0) (k : Nat) :
    (m.setChoiceCount k).execChooseConn = m.execChooseConn := by
  have hm : m.pickConn = some (m.setConn conn) := pickConn_first h hchoice
  have hn : (m.setChoiceCount k).pickConn = some ((m.setConn conn).setChoiceCount k) :=
    pickConn_first h hchoice
  unfold Model.execChooseConn
  rw [hm, hn]
  rfl

theorem execChooseConn_eq (h : m.connMap 2 ≠ [] → m.choice = 0) :
    execChooseConn m = m.execChooseConn := by
  unfold execChooseConn Model.execChooseConn
  rw [pickConn_eq h]

theorem updateChoiceCount_widens (hp : m.processId = .chooseConn) (hexec : m.cur.executable ≠ 2) :
    Widens m.updateChoiceCount (updateChoiceCount m) := by
  unfold Model.updateChoiceCount updateChoiceCount
  by_cases h₂ : m.connMap 2 = []
  · by_cases h₁ : m.connMap 1 = []
    · simp only [h₂, h₁, ne_eq, not_true_eq_false, or_self, if_false]
      exact .same _
    · simp only [h₂, h₁, ne_eq, not_true_eq_false, not_false_eq_true, false_or, if_false, if_true,
        List.length_nil, Nat.zero_add]
      exact .same _
  · rw [if_pos h₂, if_pos (.inl h₂)]
    apply Widens.wider (m := m.setChoiceCount 1) hp hexec h₂ rfl
    exact Nat.add_pos_left (List.length_pos_iff.mpr h₂) _

theorem checkToSwitchProcess_widens (P : Plankton) (m : Model) :
    Option.Rel Widens (m.checkToSwitchProcess P) (checkToSwitchProcess P m) := by
  unfold checkToSwitchProcess
  split_ifs with hexec
  · unfold Model.checkToSwitchProcess
    rw [if_pos hexec]
    exact .some (updateChoiceCount_widens rfl hexec)
  · cases m.checkToSwitchProcess P with
    | none => exact .none
    | some m' => exact .some (.same m')

theorem control_widens (results : List InjectionResult)
    (h : m.processId = .chooseConn → m.connMap 2 ≠ [] → m.choice = 0) :
    Option.Rel Widens (P.control results m) (control P results m) := by
  unfold Plankton.control control
  cases hp : m.processId with
  | chooseConn =>
    dsimp only
    rw [execChooseConn_eq (h hp)]
    apply rel_bind_same
    exact checkToSwitchProcess_widens P
  | forwarding | openflow =>
    apply rel_bind_same
    exact checkToSwitchProcess_widens P

theorem control_setChoiceCount {results : List InjectionResult} (hp : m.processId = .chooseConn)
    (hmap : m.connMap 2 ≠ []) (hchoice : m.choice = 0) (k : Nat) :
    control P results (m.setChoiceCount k) = control P results m := by
  have hexec : execChooseConn (m.setChoiceCount k) = execChooseConn m := by
    obtain ⟨conn, rest, hcons⟩ := List.exists_cons_of_ne_nil hmap
    have hk : execChooseConn (m.setChoiceCount k) = (m.setChoiceCount k).execChooseConn :=
      execChooseConn_eq fun _ => hchoice
    rw [hk, execChooseConn_eq fun _ => hchoice]
    exact execChooseConn_first hcons hchoice k
  have hp' : (m.setChoiceCount k).processId = .chooseConn := hp
  unfold control
  rw [hp, hp']
  dsimp only
  rw [hexec]

theorem Widens.control {results : List InjectionResult} {choice : Nat} (h : Widens m n)
    (hchoice : m.processId = .chooseConn → m.connMap 2 ≠ [] → choice = 0) :
    Option.Rel Widens (P.control results (m.setChoice choice))
      (Unoptimized.control P results (n.setChoice choice)) := by
  have hsame : Option.Rel Widens (P.control results (m.setChoice choice))
      (Unoptimized.control P results (m.setChoice choice)) := control_widens results hchoice
  cases h with
  | same => exact hsame
  | @wider k hp _ hmap _ _ =>
    have hcount : Unoptimized.control P results ((m.setChoice choice).setChoiceCount k) =
        Unoptimized.control P results (m.setChoice choice) :=
      control_setChoiceCount (m := m.setChoice choice) hp hmap (hchoice hp hmap) k
    exact hcount.symm ▸ hsame

theorem judge_widens {v : Verdict} (h : Widens m n) (hv : v.Fits m) :
    Widens (m.judge v) (n.judge v) := by
  cases h with
  | same => exact .same _
  | @wider k hp hexec hmap hcount hk =>
    by_cases hstop : v.stopped = true
    · rw [Model.judge_setChoiceCount_of_stopped hstop]
      exact .same _
    · have hjudge : (m.setChoiceCount k).judge v = (m.judge v).setChoiceCount k := by
        rw [Model.judge_eq, Model.judge_eq, if_neg hstop]
        rfl
      rw [hjudge]
      apply Widens.wider
      · exact hp
      · rw [Model.judge_cur]
        rcases hv.executable with hsame | ⟨hzero, -⟩
        · rw [hsame]
          exact hexec
        · rw [hzero]
          show (0 : Fin 3) ≠ 2
          decide
      · obtain ⟨i, hi⟩ := List.exists_mem_of_ne_nil _ hmap
        obtain ⟨hlt, hfinished, hi₂⟩ := Model.mem_connMap.mp hi
        have hne : i ≠ m.conn := by
          rintro rfl
          exact hexec hi₂
        have hslot : (m.judge v).connState i = m.connState i := if_neg hne
        apply List.ne_nil_of_mem (a := i)
        rw [Model.mem_connMap, hslot]
        exact ⟨hlt, hfinished, hi₂⟩
      · rw [Model.judge_choiceCount, if_neg hstop]
        exact hcount
      · exact hk

theorem conclude_widens {result : Option Bool} (V : Invariants) (h : Widens m n) :
    Widens (V.conclude result m).1 (V.conclude result n).1 ∧
      (V.conclude result m).2 = (V.conclude result n).2 ∧
      ((V.conclude result m).2 = true → V.conclude result m = V.conclude result n) := by
  cases h with
  | same => exact ⟨.same _, rfl, fun _ => rfl⟩
  | @wider k hp hexec hmap hcount hk =>
    have hone : m.choiceCount ≠ 0 := by
      rw [hcount]
      decide
    have hm : V.conclude result m = (m, false) := V.conclude_of_choiceCount result hone
    have hn : V.conclude result (m.setChoiceCount k) = (m.setChoiceCount k, false) :=
      V.conclude_of_choiceCount result hk.ne'
    rw [hm, hn]
    exact ⟨.wider hp hexec hmap hcount hk, rfl, fun h => absurd h Bool.false_ne_true⟩

theorem Widens.checkViolation {result : Option Bool} (h : Widens m n) :
    Option.Rel (fun r r' => Widens r.1 r'.1 ∧ r.2 = r'.2 ∧ (r.2 = true → r = r'))
      (V.checkViolation result m) (V.checkViolation result n) := by
  have hn : n = m.setChoiceCount n.choiceCount := h.eq_setChoiceCount
  cases hm : V.checkViolation result m with
  | some r =>
    obtain ⟨_, v, _, _, hfits, hall, rfl⟩ := Invariants.checkViolation_cases hm
    have hcheck := hall n.choiceCount
    rw [← hn] at hcheck
    rw [hcheck]
    exact .some (conclude_widens V (judge_widens h hfits))
  | none =>
    cases hcheck : V.checkViolation result n with
    | none => exact .none
    | some r =>
      obtain ⟨_, _, _, _, _, hall, _⟩ := Invariants.checkViolation_cases hcheck
      have hback : n.setChoiceCount m.choiceCount = m := by
        rw [hn]
        rfl
      have hsome := hall m.choiceCount
      rw [hback, hm] at hsome
      cases hsome

theorem Widens.step (h : Widens m n)
    (hchoice : m.processId = .chooseConn → m.connMap 2 ≠ [] → l.choice = 0) :
    Option.Rel Widens (P.step V m l) (Unoptimized.step P V n l) := by
  have hguard : l.choice < m.choiceCount ↔ l.choice < n.choiceCount := by
    cases h with
    | same => exact Iff.rfl
    | @wider k hp _ hmap hcount hk =>
      have hzero : l.choice = 0 := hchoice hp hmap
      rw [hzero, hcount]
      exact ⟨fun _ => hk, fun _ => Nat.one_pos⟩
  unfold Plankton.step Unoptimized.step
  by_cases hlt : l.choice < m.choiceCount
  · rw [if_pos hlt, if_pos (hguard.mp hlt)]
    unfold Plankton.execStep Unoptimized.execStep
    apply rel_bind (h.control hchoice)
    intro m₁ n₁ h₁
    apply rel_bind h₁.checkViolation
    rintro ⟨m₂, r⟩ ⟨n₂, r'⟩ ⟨h₂, hr, hsame⟩
    obtain rfl : r = r' := hr
    cases r with
    | true =>
      obtain rfl : m₂ = n₂ := congrArg Prod.fst (hsame rfl)
      dsimp only
      rw [if_pos rfl]
      cases P.reinit V m₂ with
      | none => exact .none
      | some m₃ => exact .some (.same m₃)
    | false => exact .some h₂
  · rw [if_neg hlt, if_neg (mt hguard.mpr hlt)]
    exact .none

theorem inOrder_of_step (h : P.step V m l = some m') : InOrder ⟨m, l, m'⟩ := by
  intro hp hmap
  obtain ⟨-, m₁, -, -, hcontrol, -⟩ := Plankton.step_eq_some h
  obtain ⟨m₂, -, hstep⟩ := Plankton.control_cases hcontrol
  obtain ⟨conn, rest, hcons⟩ := List.exists_cons_of_ne_nil hmap
  have hcons' : (m.setChoice l.choice).connMap 2 = conn :: rest := hcons
  have hp' : m.processId = .chooseConn := hp
  have hchoose : (m.setChoice l.choice).execChooseConn = some m₂ := by
    rcases hstep with ⟨-, h₁⟩ | ⟨hforwarding, -⟩ | ⟨hopenflow, -⟩
    · exact h₁
    · cases hp'.symm.trans hforwarding
    · cases hp'.symm.trans hopenflow
  obtain ⟨m₃, hpick, -⟩ := Model.execChooseConn_cases hchoose
  unfold Model.pickConn at hpick
  rw [hcons'] at hpick
  obtain ⟨_, hassert, -⟩ := Option.bind_eq_some_iff.mp hpick
  exact beq_iff_eq.mp (assert_eq_some.mp hassert)

/-- What both schedulers have in common: the runs of the one without the patch are the runs of the
other one that are in order. -/
theorem run_inOrder {s t : Model} {tr : List (Link Model Label)} (h : Run (P.step V) s tr t) :
    ∃ tr' t', Run (step P V) s tr' t' ∧ Widens t t' ∧ ∀ l ∈ tr', InOrder l := by
  have hmatch : ∀ l ∈ tr, ∀ n, Widens l.before n → P.step V l.before l.act = some l.after →
      ∃ n', step P V n l.act = some n' ∧ Widens l.after n' := by
    intro l _ n hn hstep
    have hrel := hn.step (V := V) (P := P) (inOrder_of_step hstep)
    rw [hstep] at hrel
    generalize Unoptimized.step P V n l.act = n' at hrel
    cases hrel with
    | some hafter => exact ⟨_, rfl, hafter⟩
  obtain ⟨tr', t', hrun, ht, hall⟩ := h.simulates (.same s) hmatch
  refine ⟨tr', t', hrun, ht, ?_⟩
  intro l' hl'
  obtain ⟨l, hl, hact, hbefore⟩ := hall l' hl'
  have horder := inOrder_of_step (h.link l hl)
  intro hp hmap
  rw [← hact]
  rw [hbefore.eq_setChoiceCount] at hp hmap
  exact horder hp hmap

theorem run_of_inOrder {s t : Model} {tr : List (Link Model Label)} (h : Run (step P V) s tr t)
    (horder : ∀ l ∈ tr, InOrder l) : ∃ tr' t', Run (P.step V) s tr' t' ∧ Widens t' t := by
  have hmatch : ∀ l ∈ tr, ∀ m, Widens m l.before → step P V l.before l.act = some l.after →
      ∃ m', P.step V m l.act = some m' ∧ Widens m' l.after := by
    intro l hl m hm hstep
    have hchoice : m.processId = .chooseConn → m.connMap 2 ≠ [] → l.act.choice = 0 := by
      have hl₀ := horder l hl
      unfold InOrder at hl₀
      rw [hm.eq_setChoiceCount] at hl₀
      exact hl₀
    have hrel := hm.step (V := V) (P := P) hchoice
    rw [hstep] at hrel
    generalize P.step V m l.act = m' at hrel
    cases hrel with
    | some hafter => exact ⟨_, rfl, hafter⟩
  obtain ⟨tr', t', hrun, ht, -⟩ := h.simulates (R := fun n m => Widens m n) (.same s) hmatch
  exact ⟨tr', t', hrun, ht⟩

end Unoptimized

end Neo
