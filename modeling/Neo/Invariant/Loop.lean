import Neo.Invariant.Waypoint

/-! What `Loop` reports. The check follows every step and remembers every hop it saw, but never
which was the last one, so that it takes a packet that stays where it is for one that returns. -/

namespace Neo

namespace Loop

variable {P : Plankton} {conns : List Connection} {m m' m₁ s t : Model} {l : Label}
  {results : List InjectionResult} {tr : List (Link Model Label)}

def invariants (conns : List Connection) : Invariants := .single ⟨.loop, conns⟩

def Reports (l : Link Model Label) : Prop := l.before.violated = false ∧ l.after.violated = true

/-- Some packet is forwarded to a node that it left before: in the same phase of its connection, for
the same class and port. -/
def Revisits (tr : List (Link Model Label)) : Prop :=
  ∃ a left b returned c, tr = a ++ left :: b ++ returned :: c ∧
    Plankton.Forwards left.before left.after ∧ Plankton.Forwards returned.before returned.after ∧
    returned.before.conn = left.before.conn ∧ returned.after.cur.hop = left.before.cur.hop ∧
    ∀ k ∈ left :: b ++ [returned], (k.after.connState left.before.conn).protoState =
      left.before.cur.protoState

def Sound (tr : List (Link Model Label)) : Prop :=
  ∀ a l b, tr = a ++ l :: b → Reports l → Revisits (a ++ [l])

def Ends (m : Model) : Prop :=
  ((m.requestIsAccepted || m.cur.fwdMode == .dropped) && !m.otherExecutableConnsExist) = true

/-- The connection of a step is checked for the first time, or its packet is forwarded to another
node, or the step ends the run. -/
def Passes (l : Link Model Label) : Prop :=
  (l.before.connState l.after.conn).visitedHops = none ∨
    Plankton.Forwards l.before l.after ∨ Ends l.after

instance (m : Model) : Decidable (Ends m) := inferInstanceAs (Decidable (_ = true))

instance : DecidablePred Passes := fun _ => inferInstanceAs (Decidable (_ = none ∨ _ ∨ _))

/-- A connection that was checked at its source at most, or has been forwarded once. -/
inductive YoungSlot (c : ConnState) : Prop
  | fresh : c.fwdMode = .firstCollect → c.visitedHops = none → YoungSlot c
  | starting : c.fwdMode = .firstCollect ∨ c.fwdMode = .firstForward →
      c.visitedHops = some ⟨[c.hop], none⟩ → YoungSlot c
  | waiting (hops : List Hop) : c.fwdMode = .collectNhops → c.visitedHops = some ⟨hops, none⟩ →
      c.hop ∈ hops → YoungSlot c

structure Young (m : Model) : Prop where
  violated : m.violated = false
  slot : ∀ i, YoungSlot (m.connState i)

theorem young_initModel (h : P.initModel (invariants conns) = some s) : Young s := by
  obtain ⟨-, -, m₀, hzero, hstarts⟩ := Plankton.initModel_single h
  refine ⟨hstarts.violated, fun i => .fresh ?_ ?_⟩
  · by_cases hlt : i < conns.length
    · exact (hstarts.slot i conns[i] (List.getElem?_eq_getElem hlt)).fwdMode
    · rw [hstarts.rest i (Nat.le_of_not_lt hlt), hzero]
      rfl
  · rw [hstarts.visitedHops, hzero]
    rfl

structure Rests (c c' : ConnState) : Prop where
  hop : c'.hop = c.hop
  visitedHops : c'.visitedHops = c.visitedHops

theorem collectNextHops_rests (h : m.collectNextHops P results = some m') :
    Rests m.cur m'.cur := by
  rcases Model.collectNextHops_cases h with ⟨-, h⟩ | ⟨-, -, rfl⟩ | ⟨-, nextHops, -, -, rfl⟩
  · obtain ⟨-, rfl⟩ := Model.injectPacket_cases h
    simp only [Model.cur_setChoiceCount, Model.cur_setCur]
    exact ⟨rfl, rfl⟩
  · rw [Model.dropCur, Model.cur_setCur]
    exact ⟨rfl, rfl⟩
  · simp only [Model.cur_setChoiceCount, Model.cur_setCur]
    exact ⟨rfl, rfl⟩

theorem forwardPacket_rests (h : m.forwardPacket P = some m') :
    (Rests m.cur m'.cur ∧ m'.cur.fwdMode = .accepted) ∨
      m'.cur.pktLocation ≠ m.cur.pktLocation ∧ m'.cur.fwdMode = .collectNhops ∧
        m'.cur.visitedHops = m.cur.visitedHops := by
  obtain ⟨_, nextHop, _, -, -, -, ⟨-, rfl⟩ | ⟨hne, rfl⟩⟩ := Model.forwardPacket_cases h
  · left
    simp only [Model.deliver, Model.cur_setChoiceCount, Model.cur_setCur]
    exact ⟨⟨rfl, rfl⟩, trivial⟩
  · right
    simp only [Model.moveTo, Model.cur_setChoiceCount, Model.cur_setCur]
    exact ⟨hne, trivial, trivial⟩

theorem execForwarding_young (h : m.execForwarding P results = some m') (hm : YoungSlot m.cur) :
    Model.SetsCur m m' ∧
      ((m.cur.fwdMode = .firstForward ∧ m'.cur.fwdMode = .collectNhops ∧
          m'.cur.pktLocation ≠ m.cur.pktLocation ∧ m'.cur.visitedHops = m.cur.visitedHops) ∨
        Rests m.cur m'.cur ∧
          (m.cur.fwdMode = .firstForward → m'.cur.fwdMode ≠ .collectNhops) ∧
          (m.cur.fwdMode = .firstCollect → m'.cur.fwdMode = .firstForward)) := by
  have hmode : m.cur.fwdMode = .firstCollect ∨ m.cur.fwdMode = .firstForward ∨
      m.cur.fwdMode = .collectNhops := by
    rcases hm with ⟨h, -⟩ | ⟨h, -⟩ | ⟨hops, h, -, -⟩
    · exact .inl h
    · exact h.imp_right .inl
    · exact .inr (.inr h)
  have hsets : Model.SetsCur m m' := by
    apply Model.execForwarding_setsCur h
    rcases hmode with h | h | h <;> simp [h]
  refine ⟨hsets, ?_⟩
  unfold Model.execForwarding at h
  rcases hmode with hmode | hmode | hmode <;> rw [hmode] at h
  · obtain ⟨m₁, h₁, rfl⟩ := Model.firstCollect_cases h
    obtain ⟨hhop, hvis⟩ := collectNextHops_rests h₁
    refine .inr ⟨?_, by simp [hmode], by simp⟩
    rw [Model.cur_setCur]
    exact ⟨hhop, hvis⟩
  · obtain ⟨srcIp, h⟩ := Model.firstForward_cases h
    rcases forwardPacket_rests h with ⟨⟨hhop, hvis⟩, hacc⟩ | ⟨hloc, hcol, hvis⟩
    · rw [Model.cur_setCur] at hhop hvis
      exact .inr ⟨⟨hhop, hvis⟩, by simp [hacc], by simp [hmode]⟩
    · rw [Model.cur_setCur] at hloc hvis
      exact .inl ⟨hmode, hcol, hloc, hvis⟩
  · exact .inr ⟨collectNextHops_rests h, by simp [hmode], by simp [hmode]⟩

structure Turns (m m₁ : Model) : Prop where
  others : ∀ i, i ≠ m₁.conn → m₁.connState i = m.connState i
  cur : (Plankton.Forwards m m₁ ∧ (m.connState m₁.conn).fwdMode = .firstForward ∧
      m₁.cur.pktLocation ≠ (m.connState m₁.conn).pktLocation ∧
      m₁.cur.visitedHops = (m.connState m₁.conn).visitedHops) ∨
    ¬ Plankton.Forwards m m₁ ∧ Rests (m.connState m₁.conn) m₁.cur ∧
      (Ends m₁ ∨ ((m.connState m₁.conn).fwdMode = .firstCollect →
        m₁.cur.fwdMode = .firstCollect ∨ m₁.cur.fwdMode = .firstForward))

theorem turns_execChooseConn (h : m.execChooseConn = some m') (hp : m.processId = .chooseConn) :
    Turns m m' := by
  have hnot : ¬ Plankton.Forwards m m' := fun hf => by simp [hf.1] at hp
  obtain ⟨m₃, h₃, hm'⟩ := Model.execChooseConn_cases h
  obtain ⟨i, c, rfl, -, -, hpick⟩ := Model.pickConn_cases h₃
  obtain ⟨k, rfl⟩ : ∃ k, m' = ((m.setConn i).setCur c).setChoiceCount k := by
    rcases hm' with ⟨-, candidates, -, rfl⟩ | ⟨-, rfl⟩
    · exact ⟨_, rfl⟩
    · exact ⟨_, rfl⟩
  have hcur : (((m.setConn i).setCur c).setChoiceCount k).cur = c :=
    Model.cur_setCur (m.setConn i) c
  have hothers : ∀ j, j ≠ i →
      (((m.setConn i).setCur c).setChoiceCount k).connState j = m.connState j :=
    fun j hj => if_neg hj
  refine ⟨hothers, .inr ⟨hnot, ?_, ?_⟩⟩
  · rw [hcur]
    rcases hpick with ⟨-, -, rfl⟩ | ⟨-, -, rfl⟩ | ⟨-, rfl⟩
    · exact ⟨rfl, rfl⟩
    · exact ⟨rfl, rfl⟩
    · exact ⟨rfl, rfl⟩
  · rw [hcur]
    rcases hpick with ⟨-, -, rfl⟩ | ⟨-, -, rfl⟩ | ⟨hnone, rfl⟩
    · exact .inr fun hmode => .inl hmode
    · exact .inr fun hmode => .inl hmode
    · left
      -- a connection is dropped only where no other one is executable
      unfold Ends
      rw [hcur, Model.otherExecutableConnsExist_eq_false fun j hj hne =>
        (congrArg ConnState.executable (hothers j hne)).trans (hnone j hj)]
      simp

theorem turns_execForwarding (h : m.execForwarding P results = some m')
    (hp : m.processId = .forwarding) (hm : YoungSlot m.cur) : Turns m m' := by
  obtain ⟨hsets, hstep⟩ := execForwarding_young h hm
  have hconn : m'.conn = m.conn := hsets.sameControl.conn
  refine ⟨fun i hi => hsets.connState (hconn ▸ hi), ?_⟩
  rw [hconn]
  rcases hstep with ⟨hmode, hcol, hloc, hvis⟩ | ⟨hrests, hff, hfc⟩
  · exact .inl ⟨⟨hp, .inl hmode, hcol⟩, hmode, hloc, hvis⟩
  · refine .inr ⟨?_, hrests, .inr fun hmode => .inr (hfc hmode)⟩
    rintro ⟨-, hmode | hmode, hcol⟩
    · exact hff hmode hcol
    · rcases hm with ⟨h, -⟩ | ⟨h | h, -⟩ | ⟨hops, h, -, -⟩ <;> simp [hmode] at h

theorem turns_execOpenflow (h : m.execOpenflow P = some m') (hp : m.processId = .openflow) :
    Turns m m' := by
  have hnot : ∀ m', ¬ Plankton.Forwards m m' := fun m' hf => by simp [hf.1] at hp
  rcases Model.execOpenflow_cases h with ⟨-, rfl⟩ | ⟨-, rfl⟩ |
    ⟨_, _, _, _, nextHops, -, -, -, -, -, rfl⟩
  · exact ⟨fun i _ => rfl, .inr ⟨hnot _, ⟨rfl, rfl⟩, .inr .inl⟩⟩
  · exact ⟨fun i _ => rfl, .inr ⟨hnot _, ⟨rfl, rfl⟩, .inr .inl⟩⟩
  · refine ⟨fun i hi => if_neg hi, .inr ⟨hnot _, ?_, .inr fun hmode => .inl ?_⟩⟩
    · rw [Model.cur_setCur]
      exact ⟨rfl, rfl⟩
    · rw [Model.cur_setCur]
      exact hmode

theorem turns_control (h : P.control results m = some m₁) (hm : ∀ i, YoungSlot (m.connState i)) :
    Turns m m₁ := by
  obtain ⟨m₂, hswitch, hrest⟩ := Plankton.control_cases h
  obtain ⟨p, k, rfl⟩ := Model.checkToSwitchProcess_eq hswitch
  have hturns : Turns m m₂ := by
    rcases hrest with ⟨hp, h₂⟩ | ⟨hp, h₂⟩ | ⟨hp, h₂⟩
    · exact turns_execChooseConn h₂ hp
    · exact turns_execForwarding h₂ hp (hm m.conn)
    · exact turns_execOpenflow h₂ hp
  exact ⟨hturns.others, hturns.cur⟩

theorem checkLoop_new {hops : List Hop} (hends : ¬ Ends m) (hnew : m.cur.hop ∉ hops)
    (hvis : m.cur.visitedHops = some ⟨hops, none⟩ ∨ m.cur.visitedHops = none ∧ hops = []) :
    m.checkLoop = some (m.setCur { m.cur with visitedHops := some ⟨m.cur.hop :: hops, none⟩ }) := by
  have hadd : VisitedHops.add ⟨hops, none⟩ m.cur.hop = some ⟨m.cur.hop :: hops, none⟩ :=
    if_neg hnew
  unfold Ends at hends
  unfold Model.checkLoop
  rw [if_neg hends]
  rcases hvis with hvis | ⟨hvis, rfl⟩
  · rw [hvis]
    dsimp only
    have hvisited : VisitedHops.visited ⟨hops, none⟩ m.cur.hop = false := by
      simp [VisitedHops.visited, hnew]
    rw [hvisited, hadd]
    rfl
  · rw [hvis]
    dsimp only
    rw [hadd]
    rfl

theorem checkLoop_seen {hops : List Hop} (hends : ¬ Ends m) (hseen : m.cur.hop ∈ hops)
    (hvis : m.cur.visitedHops = some ⟨hops, none⟩) : m.checkLoop = some (m.stop true) := by
  unfold Ends at hends
  unfold Model.checkLoop
  rw [if_neg hends, hvis]
  apply if_pos
  simp [VisitedHops.visited, hseen]

theorem young_record {m₁ : Model} {hops : VisitedHops} (hm : Young m)
    (hviolated : m₁.violated = false)
    (hothers : ∀ i, i ≠ m₁.conn → m₁.connState i = m.connState i)
    (hyoung : YoungSlot { m₁.cur with visitedHops := some hops })
    (hwait : (m.connState m₁.conn).fwdMode = .collectNhops → m₁.cur.fwdMode = .collectNhops) :
    Young (m₁.setCur { m₁.cur with visitedHops := some hops }) ∧
      ∀ i, (m.connState i).fwdMode = .collectNhops →
        ((m₁.setCur { m₁.cur with visitedHops := some hops }).connState i).fwdMode =
          .collectNhops := by
  refine ⟨⟨hviolated, fun i => ?_⟩, fun i hi => ?_⟩
  · by_cases hconn : i = m₁.conn
    · rw [Model.setCur_connState, if_pos hconn]
      exact hyoung
    · rw [Model.setCur_connState, if_neg hconn, hothers i hconn]
      exact hm.slot i
  · by_cases hconn : i = m₁.conn
    · rw [Model.setCur_connState, if_pos hconn]
      exact hwait (hconn ▸ hi)
    · rw [Model.setCur_connState, if_neg hconn, hothers i hconn]
      exact hi

/-- A running step passes and keeps all connections young, with those that wait waiting; or it ends
the run and passes; or it does not pass, and a violation is reported. -/
theorem step_cases (h : P.step (invariants conns) m l = some m') (hm : Young m) :
    (Passes ⟨m, l, m'⟩ ∧ Young m' ∧ ∀ i, (m.connState i).fwdMode = .collectNhops →
        (m'.connState i).fwdMode = .collectNhops) ∨
    (Passes ⟨m, l, m'⟩ ∧ m'.violated = false ∧ m'.choiceCount = 0) ∨
    ¬ Passes ⟨m, l, m'⟩ ∧ m'.violated = true ∧ m'.choiceCount = 0 := by
  obtain ⟨-, m₁, hcontrol, hcheck⟩ := Plankton.step_single h
  have hcheck : m₁.checkLoop = some m' := hcheck
  have hviolated : m₁.violated = false := (Plankton.control_violated hcontrol).trans hm.violated
  obtain ⟨hothers, hcur⟩ := turns_control hcontrol hm.slot
  have hslot : YoungSlot (m.connState m₁.conn) := hm.slot m₁.conn
  by_cases hends : Ends m₁
  · right
    left
    obtain rfl := Option.some.inj (hcheck.symm.trans (if_pos hends))
    exact ⟨.inr (.inr hends), rfl, rfl⟩
  rcases hcur with ⟨hforwards, hmode, hloc, hvis⟩ | ⟨hnot, ⟨hhop, hvis⟩, hgoes⟩
  · -- the packet was forwarded from its source, to another node
    left
    have hvisited : (m.connState m₁.conn).visitedHops =
        some ⟨[(m.connState m₁.conn).hop], none⟩ := by
      rcases hslot with ⟨h, -⟩ | ⟨-, h⟩ | ⟨hops, h, -, -⟩
      · exact absurd (hmode.symm.trans h) (by decide)
      · exact h
      · exact absurd (hmode.symm.trans h) (by decide)
    have hnew : m₁.cur.hop ∉ [(m.connState m₁.conn).hop] := by
      rw [List.mem_singleton]
      exact fun heq => hloc (congrArg (fun hop : Hop => hop.2.2) heq)
    have hrecord := checkLoop_new hends hnew (.inl (hvis.trans hvisited))
    obtain rfl := Option.some.inj (hcheck.symm.trans hrecord)
    refine ⟨.inr (.inl ?_), young_record hm hviolated hothers ?_ fun _ => hforwards.2.2⟩
    · exact ⟨hforwards.1, hforwards.2.1, (congrArg ConnState.fwdMode
        (Model.cur_setCur m₁ _)).trans hforwards.2.2⟩
    · exact .waiting _ hforwards.2.2 rfl (List.mem_cons_self ..)
  · -- the hop is the same as before, so only one that has recorded none yet goes on
    have hseen : ∀ hops, (m.connState m₁.conn).visitedHops = some ⟨hops, none⟩ →
        (m.connState m₁.conn).hop ∈ hops → ¬ Passes ⟨m, l, m'⟩ ∧ m'.violated = true ∧
          m'.choiceCount = 0 := by
      intro hops hsome hmem
      have hreport := checkLoop_seen hends (hhop ▸ hmem) (hvis.trans hsome)
      obtain rfl := Option.some.inj (hcheck.symm.trans hreport)
      refine ⟨?_, rfl, rfl⟩
      rintro (hnone | hforwards | hends')
      · have : (m.connState m₁.conn).visitedHops = none := hnone
        simp [hsome] at this
      · exact hnot hforwards
      · exact hends hends'
    rcases hslot with ⟨hmode, hnone⟩ | ⟨hmode, hsome⟩ | ⟨hops, hmode, hsome, hmem⟩
    · left
      have hnew : m₁.cur.hop ∉ ([] : List Hop) := by simp
      have hrecord := checkLoop_new hends hnew (.inr ⟨hvis.trans hnone, rfl⟩)
      obtain rfl := Option.some.inj (hcheck.symm.trans hrecord)
      refine ⟨.inl hnone, young_record hm hviolated hothers ?_ fun h => by simp [hmode] at h⟩
      exact .starting (hgoes.resolve_left hends hmode) rfl
    · exact .inr (.inr (hseen _ hsome (List.mem_singleton_self _)))
    · exact .inr (.inr (hseen _ hsome hmem))

theorem run_young (h : Run (P.step (invariants conns)) s tr t) (hs : Young s)
    (ht : 0 < t.choiceCount) : Young t ∧ (∀ l ∈ tr, Young l.before) ∧
      ∀ i, (s.connState i).fwdMode = .collectNhops → (t.connState i).fwdMode = .collectNhops := by
  induction h with
  | nil s => exact ⟨hs, by simp, fun i hi => hi⟩
  | @cons s s' t a tr hstep hrest ih =>
    have hpos : 0 < s'.choiceCount := by
      cases hrest with
      | nil => exact ht
      | cons hstep' _ => exact Nat.zero_lt_of_lt (Plankton.step_eq_some hstep').1
    rcases step_cases hstep hs with ⟨-, hs', hwait⟩ | ⟨-, -, h₀⟩ | ⟨-, -, h₀⟩
    · obtain ⟨hyoung, hall, hwait'⟩ := ih hs' ht
      exact ⟨hyoung, List.forall_mem_cons.mpr ⟨hs, hall⟩, fun i hi => hwait' i (hwait i hi)⟩
    · exact absurd h₀ hpos.ne'
    · exact absurd h₀ hpos.ne'

theorem not_revisits (h : Run (P.step (invariants conns)) s tr t) (hs : Young s) :
    ¬ Revisits tr := by
  rintro ⟨a, left, b, returned, c, rfl, hleft, hreturned, hconn, -, -⟩
  rw [List.append_assoc, List.cons_append] at h
  obtain ⟨ha, hstep, hrest⟩ := h.around
  obtain ⟨hb, hstep', -⟩ := hrest.around
  have hpos : ∀ {m m' : Model} {l : Label}, P.step (invariants conns) m l = some m' →
      0 < m.choiceCount := fun h => Nat.zero_lt_of_lt (Plankton.step_eq_some h).1
  have hbetween : Run (P.step (invariants conns)) left.before (left :: b) returned.before :=
    .cons hstep hb
  obtain ⟨hyoung, -, -⟩ := run_young ha hs (hpos hstep)
  have hgoes : 0 < left.after.choiceCount :=
    hbetween.enabled (fun m => 0 < m.choiceCount) (fun _ _ _ => hpos) (hpos hstep') left
      (List.mem_cons_self ..)
  rcases step_cases hstep hyoung with ⟨-, hyoung', -⟩ | ⟨-, -, h₀⟩ | ⟨-, -, h₀⟩
  · -- the connection waits once it is forwarded, and is not forwarded again
    have hwait : (left.after.connState left.before.conn).fwdMode = .collectNhops := by
      rw [← Plankton.forwards_conn hstep hleft]
      exact hleft.2.2
    obtain ⟨-, -, hwaits⟩ := run_young hb hyoung' (hpos hstep')
    have hmode : returned.before.cur.fwdMode = .collectNhops := by
      rw [Model.cur, hconn]
      exact hwaits _ hwait
    rcases hreturned.2.1 with h | h
    · exact absurd (hmode.symm.trans h) (by decide)
    · exact absurd (hmode.symm.trans h) (by decide)
  · exact absurd h₀ hgoes.ne'
  · exact absurd h₀ hgoes.ne'

/-- The verdict is never right when it reports a loop: a run is judged soundly if and only if every
step shows its connection to the check for the first time, forwards a packet, or ends the run. -/
theorem sound_iff (hs : P.initModel (invariants conns) = some s)
    (h : Run (P.step (invariants conns)) s tr t) : Sound tr ↔ ∀ l ∈ tr, Passes l := by
  have hyoung : ∀ {a b : List (Link Model Label)} {l : Link Model Label}, tr = a ++ l :: b →
      Young l.before := by
    rintro a b l rfl
    obtain ⟨ha, hstep, -⟩ := h.around
    exact (run_young ha (young_initModel hs)
      (Nat.zero_lt_of_lt (Plankton.step_eq_some hstep).1)).1
  constructor
  · intro hsound l hl
    by_contra hpass
    obtain ⟨a, b, rfl⟩ := List.append_of_mem hl
    obtain ⟨ha, hstep, -⟩ := h.around
    rcases step_cases hstep (hyoung rfl) with ⟨hp, -⟩ | ⟨hp, -⟩ | ⟨-, hviol, -⟩
    · exact hpass hp
    · exact hpass hp
    · have hrevisits := hsound a l b rfl ⟨(hyoung rfl).violated, hviol⟩
      have hrun : Run (P.step (invariants conns)) s (a ++ [l]) l.after :=
        ha.append (.cons hstep (.nil _))
      exact not_revisits hrun (young_initModel hs) hrevisits
  · intro hall a l b htr hrep
    obtain ⟨-, hstep, -⟩ := (htr ▸ h).around
    rcases step_cases hstep (hyoung htr) with ⟨-, hy, -⟩ | ⟨-, hviol, -⟩ | ⟨hpass, -⟩
    · exact absurd (hrep.2.symm.trans hy.violated) (by decide)
    · exact absurd (hrep.2.symm.trans hviol) (by decide)
    · exact absurd (hall l (htr ▸ List.mem_append_right a (List.mem_cons_self ..))) hpass

section Site

open Waypoint (sitePlankton siteConn)

def forkPlankton : Plankton := .ofNetwork OpenflowProcess.fork (Plankton.noUpdates _)

def lostConn : Connection :=
  { siteConn .udp with dstIpEc := (forkPlankton.ecs.findEc 0x0A000063#32).getD 0 }

theorem sound_lost : ∃ s t tr, forkPlankton.initModel (invariants [lostConn]) = some s ∧
    Run (forkPlankton.step (invariants [lostConn])) s tr t ∧ t.choiceCount = 0 ∧
      t.cur.fwdMode = .dropped ∧ t.cur.pktLocation = 1 ∧ Sound tr := by
  have hrun : ((forkPlankton.initModel (invariants [lostConn])).bind fun s =>
      (execute (forkPlankton.step (invariants [lostConn])) s
        (List.replicate 3 Plankton.go)).map fun r =>
          (r.2.choiceCount, r.2.cur.fwdMode, r.2.cur.pktLocation,
            r.1.all fun l => decide (Passes l))) = some (0, .dropped, 1, true) := by
    decide +kernel
  obtain ⟨s, hs, hrun⟩ := Option.bind_eq_some_iff.mp hrun
  obtain ⟨⟨tr, t⟩, hexec, hr⟩ := Option.map_eq_some_iff.mp hrun
  simp only [Prod.mk.injEq] at hr
  obtain ⟨h₀, hmode, hloc, hall⟩ := hr
  have hpasses : ∀ l ∈ tr, Passes l := by
    simpa using hall
  have hr := run_of_execute hexec
  exact ⟨s, t, tr, hs, hr, h₀, hmode, hloc, (sound_iff hs hr).mpr hpasses⟩

/-- The datagram has arrived at the first host, which looks up its next hop, and a loop is
reported. -/
theorem not_sound : ¬ ∀ (P : Plankton) (conns : List Connection) (s t : Model)
    (tr : List (Link Model Label)), P.initModel (invariants conns) = some s →
      Run (P.step (invariants conns)) s tr t → Sound tr := by
  intro h
  have hrun : ((sitePlankton.initModel (invariants [siteConn .udp])).bind fun s =>
      (execute (sitePlankton.step (invariants [siteConn .udp])) s
        (List.replicate 3 Plankton.go)).map fun r =>
          r.1.map fun l => (l.before.violated, l.after.violated)) =
            some [(false, false), (false, false), (false, true)] := by
    decide +kernel
  obtain ⟨s, hs, hrun⟩ := Option.bind_eq_some_iff.mp hrun
  obtain ⟨⟨tr, t⟩, hexec, hr⟩ := Option.map_eq_some_iff.mp hrun
  have hr' := run_of_execute hexec
  have hlength : tr.length = 3 := by
    simpa using congrArg List.length hr
  obtain ⟨l₁, l₂, l₃, rfl⟩ := List.length_eq_three.mp hlength
  simp only [List.map_cons, List.map_nil, List.cons.injEq, Prod.mk.injEq] at hr
  have hrevisits := h sitePlankton [siteConn .udp] s t _ hs hr' [l₁, l₂] l₃ [] rfl hr.2.2.1
  exact not_revisits hr' (young_initModel hs) hrevisits

end Site

end Loop

end Neo
