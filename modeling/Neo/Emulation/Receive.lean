import Neo.Emulation.Returned
import Neo.Emulation.Segments
import Neo.Lib.Run
import Neo.PacketOrder

/-! What is received for an injected packet: the thread that injected it waits while two others
listen for packets and for drops. All three share the received packets, under one lock. -/

namespace Neo

/-- What one call of `send_pkt` depends on. -/
structure SendCall where
  env : SendEnv
  /-- `std::sort`. -/
  sort : List Packet → List Packet
  sort_perm : ∀ l, (sort l).Perm l
  /-- `DropTimeout::get().timeout()`. -/
  timeout : Nat
  /-- Whether drops are listened for. -/
  drop : Bool
  topology : Topology
  mb : NodePtr
  offsets : Offsets

inductive MainThread
  /-- It is in `wait_for` since a time, with a value of `num_pkts`. -/
  | waiting (numPkts since : Nat)
  /-- It is awake again, but does not have the lock yet. -/
  | awake (numPkts since : Nat)
  /-- It has left the loop. -/
  | stoppingRecv
  | stoppingDrop
  /-- The other threads have ended. -/
  | alone
  | returned (result : InjectionResult)
deriving DecidableEq

namespace MainThread

/-- `notify_all`. -/
def notify : MainThread → MainThread
  | waiting numPkts since => awake numPkts since
  | main => main

def recvRuns : MainThread → Bool
  | waiting .. | awake .. | stoppingRecv => true
  | _ => false

def dropRuns : MainThread → Bool
  | waiting .. | awake .. | stoppingRecv | stoppingDrop => true
  | _ => false

def hasReturned : MainThread → Bool
  | returned _ => true
  | _ => false

end MainThread

structure RecvState where
  recvPkts : List Packet
  pktsHash : List Nat
  dropTs : BitVec 64
  now : Nat
  main : MainThread
deriving DecidableEq

inductive RecvEvent
  /-- Packets are read and taken over by the packet listener. -/
  | packets (pkts : List Packet)
  /-- A drop is seen and taken over by the drop listener. -/
  | drop (ts : BitVec 64)
  | elapse (time : Nat)
  | timeout
  /-- A thread may wake up from a condition variable for no reason. -/
  | wakeUp
  /-- The main thread has the lock and looks at what was received. -/
  | look
  | stopRecv
  | stopDrop
  /-- The received packets are moved and processed. -/
  | take
deriving DecidableEq

def RecvEvent.duration : RecvEvent → Nat
  | elapse time => time
  | _ => 0

namespace SendCall

variable (call : SendCall)

def newPackets (s : RecvState) (pkts : List Packet) : List Packet :=
  call.env.removeRetransmitted s.pktsHash pkts

/-- The critical section of `listen_packets`. -/
def listenPackets (s : RecvState) (pkts : List Packet) : RecvState :=
  { s with
    recvPkts := s.recvPkts ++ call.newPackets s pkts
    pktsHash := (call.newPackets s pkts).map call.env.hash ++ s.pktsHash
    main := s.main.notify }

/-- The critical section of `listen_drops`. -/
def listenDrops (s : RecvState) (ts : BitVec 64) : RecvState :=
  { s with recvPkts := [], pktsHash := [], dropTs := ts, main := s.main.notify }

/-- The body of the loop after `wait_for`, and before it the next time. Its assertion is not part
of it. -/
def look (s : RecvState) (numPkts : Nat) : RecvState :=
  if s.dropTs ≠ 0 then { s with main := .stoppingRecv }
  else if numPkts < s.recvPkts.length then { s with main := .waiting s.recvPkts.length s.now }
  else { s with main := .stoppingRecv }

/-- The end of `send_pkt`. -/
def take (s : RecvState) : Option RecvState := do
  let pkts ← call.env.reassembleSegments s.recvPkts
  let pkts := (call.offsets.updateOffsets call.topology call.mb pkts).2
  return { s with
    recvPkts := []
    pktsHash := []
    main := .returned (.ofRecv call.sort pkts (s.dropTs != 0)) }

/-- The loop is entered: what was received before is cleared, and the packet is injected. -/
def start : RecvState := ⟨[], [], 0, 0, .waiting 0 0⟩

def step (s : RecvState) : RecvEvent → Option RecvState
  | .packets pkts =>
    if s.main.recvRuns ∧ pkts ≠ [] then some (call.listenPackets s pkts) else none
  | .drop ts =>
    if call.drop ∧ s.main.dropRuns ∧ ts ≠ 0 then some (listenDrops s ts) else none
  | .elapse time =>
    if s.main.hasReturned then none else some { s with now := s.now + time }
  | .timeout => match s.main with
    | .waiting numPkts since =>
      -- the main thread waits for one complete timeout, or is notified before
      if since + call.timeout ≤ s.now then some { s with main := .awake numPkts since } else none
    | _ => none
  | .wakeUp => match s.main with
    | .waiting numPkts since => some { s with main := .awake numPkts since }
    | _ => none
  | .look => match s.main with
    | .awake numPkts _ => some (look s numPkts)
    | _ => none
  | .stopRecv =>
    if s.main = .stoppingRecv then some { s with main := .stoppingDrop } else none
  | .stopDrop =>
    if s.main = .stoppingDrop then some { s with main := .alone } else none
  | .take => if s.main = .alone then call.take s else none

inductive Stepped (s : RecvState) : RecvEvent → RecvState → Prop
  | packets {pkts : List Packet} (hruns : s.main.recvRuns = true) :
      Stepped s (.packets pkts) (call.listenPackets s pkts)
  | drop {ts : BitVec 64} (hruns : s.main.dropRuns = true) (hts : ts ≠ 0) :
      Stepped s (.drop ts) (listenDrops s ts)
  | elapse {time : Nat} (hruns : s.main.hasReturned = false) :
      Stepped s (.elapse time) { s with now := s.now + time }
  | timeout {numPkts since : Nat} (hmain : s.main = .waiting numPkts since)
      (hlate : since + call.timeout ≤ s.now) :
      Stepped s .timeout { s with main := .awake numPkts since }
  | wakeUp {numPkts since : Nat} (hmain : s.main = .waiting numPkts since) :
      Stepped s .wakeUp { s with main := .awake numPkts since }
  | look {numPkts since : Nat} (hmain : s.main = .awake numPkts since) :
      Stepped s .look (look s numPkts)
  | stopRecv (hmain : s.main = .stoppingRecv) :
      Stepped s .stopRecv { s with main := .stoppingDrop }
  | stopDrop (hmain : s.main = .stoppingDrop) : Stepped s .stopDrop { s with main := .alone }
  | take {pkts : List Packet} (hmain : s.main = .alone)
      (hpkts : call.env.reassembleSegments s.recvPkts = some pkts) :
      Stepped s .take { s with
        recvPkts := []
        pktsHash := []
        main := .returned (.ofRecv call.sort
          (call.offsets.updateOffsets call.topology call.mb pkts).2 (s.dropTs != 0)) }

theorem stepped_of_step {call : SendCall} {s s' : RecvState} {e : RecvEvent}
    (h : call.step s e = some s') : call.Stepped s e s' := by
  cases e with
  | packets pkts =>
    obtain ⟨⟨hruns, -⟩, rfl⟩ : _ ∧ call.listenPackets s pkts = s' := by simpa [step] using h
    exact .packets hruns
  | drop ts =>
    obtain ⟨⟨-, hruns, hts⟩, rfl⟩ : _ ∧ listenDrops s ts = s' := by simpa [step] using h
    exact .drop hruns hts
  | elapse time =>
    obtain ⟨hruns, rfl⟩ : _ ∧ { s with now := s.now + time } = s' := by simpa [step] using h
    exact .elapse hruns
  | timeout =>
    cases hmain : s.main with
    | waiting numPkts since =>
      obtain ⟨hlate, rfl⟩ : _ ∧ { s with main := .awake numPkts since } = s' := by
        simpa [step, hmain] using h
      exact .timeout hmain hlate
    | _ => simp [step, hmain] at h
  | wakeUp =>
    cases hmain : s.main with
    | waiting numPkts since =>
      obtain rfl : { s with main := .awake numPkts since } = s' := by
        simpa [step, hmain] using h
      exact .wakeUp hmain
    | _ => simp [step, hmain] at h
  | look =>
    cases hmain : s.main with
    | awake numPkts since =>
      obtain rfl : look s numPkts = s' := by simpa [step, hmain] using h
      exact .look hmain
    | _ => simp [step, hmain] at h
  | stopRecv =>
    obtain ⟨hmain, rfl⟩ : _ ∧ { s with main := .stoppingDrop } = s' := by simpa [step] using h
    exact .stopRecv hmain
  | stopDrop =>
    obtain ⟨hmain, rfl⟩ : _ ∧ { s with main := .alone } = s' := by simpa [step] using h
    exact .stopDrop hmain
  | take =>
    obtain ⟨hmain, htake⟩ : _ ∧ call.take s = some s' := by simpa [step] using h
    simp only [take, Option.bind_eq_bind, Option.bind_eq_some_iff] at htake
    obtain ⟨pkts, hpkts, htake⟩ := htake
    rw [← Option.some.inj htake]
    exact .take hmain hpkts

section Quiet

def addsNew (l : Link RecvState RecvEvent) : Bool :=
  match l.act with
  | .packets pkts => !(call.newPackets l.before pkts).isEmpty
  | _ => false

def quietTime (tr : List (Link RecvState RecvEvent)) : Nat :=
  sinceLast call.addsNew (fun l => l.act.duration) tr

def QuietPeriod (tr : List (Link RecvState RecvEvent)) : Prop :=
  ∃ period, period <:+ tr ∧ (∀ l ∈ period, call.addsNew l = false) ∧
    call.timeout ≤ (period.map fun l => l.act.duration).sum

def idles (s : RecvState) : RecvEvent → Bool
  | .packets pkts => (call.newPackets s pkts).isEmpty
  | .wakeUp => true
  | _ => false

def wakesEarly (l : Link RecvState RecvEvent) : Bool :=
  match l.before.main with
  | .waiting _ since =>
    decide (l.before.now < since + call.timeout) && call.idles l.before l.act
  | _ => false

def Waits (quiet : Nat) (s : RecvState) : Prop :=
  match s.main with
  | .waiting numPkts since =>
    s.dropTs = 0 ∧ numPkts = s.recvPkts.length ∧ s.now ≤ since + quiet
  | .awake numPkts since => s.dropTs ≠ 0 ∨ numPkts < s.recvPkts.length ∨
      (numPkts = s.recvPkts.length ∧ since + call.timeout ≤ s.now ∧ s.now ≤ since + quiet)
  | _ => True

end Quiet

section Exclusion

def lateAfter (late : Bool) (l : Link RecvState RecvEvent) : Bool :=
  match l.act with
  | .packets _ => late || (call.addsNew l && l.before.dropTs != 0)
  | .drop _ | .take => false
  | _ => late

def late (tr : List (Link RecvState RecvEvent)) : Bool := tr.foldl call.lateAfter false

def Excludes (l : Link RecvState RecvEvent) : Prop :=
  (l.act = .look → l.before.dropTs ≠ 0 → l.before.recvPkts = []) ∧
    ∀ r, l.after.main = .returned r → (r.explicitDrop && !r.recvPkts.isEmpty) = false

end Exclusion

section QuietPeriod

variable {call : SendCall} {s s' t : RecvState} {e : RecvEvent} {quiet : Nat}
  {tr : List (Link RecvState RecvEvent)}

theorem quietPeriod_of_le (h : call.timeout ≤ call.quietTime tr) : call.QuietPeriod tr := by
  obtain ⟨period, hsuffix, hquiet, hsum⟩ :=
    exists_suffix_sinceLast call.addsNew (fun l => l.act.duration) tr
  exact ⟨period, hsuffix, hquiet, h.trans_eq hsum.symm⟩

theorem le_of_wakesEarly {numPkts since : Nat} (hmain : s.main = .waiting numPkts since)
    (hidle : call.idles s e = true) (h : call.wakesEarly ⟨s, e, s'⟩ = false) :
    since + call.timeout ≤ s.now := by
  simpa [wakesEarly, hmain, hidle] using h

theorem waits_packets {pkts : List Packet} (h : call.Waits quiet s)
    (hearly : call.wakesEarly ⟨s, .packets pkts, call.listenPackets s pkts⟩ = false) :
    call.Waits (if call.newPackets s pkts = [] then quiet else 0) (call.listenPackets s pkts) := by
  cases hmain : s.main with
  | waiting numPkts since =>
    simp only [Waits, hmain] at h
    simp only [Waits, listenPackets, hmain, MainThread.notify, List.length_append]
    obtain ⟨-, hlen, hnow⟩ := h
    right
    split_ifs with hnew
    · -- it is notified for nothing, which is allowed only after the timeout
      right
      have hlate := le_of_wakesEarly hmain (by simp [idles, hnew]) hearly
      exact ⟨by simp [hnew, hlen], hlate, hnow⟩
    · left
      have hpos := List.length_pos_iff.mpr hnew
      omega
  | awake numPkts since =>
    simp only [Waits, hmain] at h
    simp only [Waits, listenPackets, hmain, MainThread.notify, List.length_append]
    rcases h with hdrop | hlt | ⟨hlen, hlate, hnow⟩
    · exact .inl hdrop
    · exact .inr (.inl (by omega))
    · right
      split_ifs with hnew
      · exact .inr ⟨by simp [hnew, hlen], hlate, hnow⟩
      · have hpos := List.length_pos_iff.mpr hnew
        exact .inl (by omega)
  | _ => simp [Waits, listenPackets, hmain, MainThread.notify]

theorem waits_drop {ts : BitVec 64} (hts : ts ≠ 0) : call.Waits quiet (listenDrops s ts) := by
  cases hmain : s.main with
  | waiting =>
    simp only [Waits, listenDrops, hmain, MainThread.notify]
    exact .inl hts
  | awake =>
    simp only [Waits, listenDrops, hmain, MainThread.notify]
    exact .inl hts
  | _ => simp [Waits, listenDrops, hmain, MainThread.notify]

theorem waits_elapse {time : Nat} (h : call.Waits quiet s) :
    call.Waits (quiet + time) { s with now := s.now + time } := by
  cases hmain : s.main with
  | waiting numPkts since =>
    simp only [Waits, hmain] at h ⊢
    exact ⟨h.1, h.2.1, by omega⟩
  | awake numPkts since =>
    simp only [Waits, hmain] at h ⊢
    rcases h with hdrop | hlt | ⟨hlen, hlate, hnow⟩
    · exact .inl hdrop
    · exact .inr (.inl hlt)
    · exact .inr (.inr ⟨hlen, by omega, by omega⟩)
  | _ => simp [Waits]

theorem waits_awake {numPkts since : Nat} (h : call.Waits quiet s)
    (hmain : s.main = .waiting numPkts since) (hlate : since + call.timeout ≤ s.now) :
    call.Waits quiet { s with main := .awake numPkts since } := by
  simp only [Waits, hmain] at h ⊢
  exact .inr (.inr ⟨h.2.1, hlate, h.2.2⟩)

theorem waits_look {numPkts : Nat} : call.Waits quiet (look s numPkts) := by
  unfold look
  split_ifs with hdrop hlt
  · trivial
  · -- it waits again from now on, with as many packets as there are
    exact ⟨not_not.mp hdrop, rfl, Nat.le_add_right ..⟩
  · trivial

def quietAfter (call : SendCall) (quiet : Nat) (l : Link RecvState RecvEvent) : Nat :=
  if call.addsNew l then 0 else quiet + l.act.duration

theorem waits_step (hs : call.step s e = some s')
    (hearly : call.wakesEarly ⟨s, e, s'⟩ = false) (h : call.Waits quiet s) :
    call.Waits (call.quietAfter quiet ⟨s, e, s'⟩) s' := by
  cases stepped_of_step hs with
  | @packets pkts =>
    have hquiet : call.quietAfter quiet ⟨s, .packets pkts, call.listenPackets s pkts⟩ =
        if call.newPackets s pkts = [] then quiet else 0 := by
      cases hnew : call.newPackets s pkts with
      | nil => simp [quietAfter, addsNew, hnew, RecvEvent.duration]
      | cons p ps => simp [quietAfter, addsNew, hnew]
    rw [hquiet]
    exact waits_packets h hearly
  | drop _ hts => exact waits_drop hts
  | elapse => exact waits_elapse h
  | timeout hmain hlate => exact waits_awake h hmain hlate
  | wakeUp hmain => exact waits_awake h hmain (le_of_wakesEarly hmain rfl hearly)
  | look => exact waits_look
  | stopRecv => trivial
  | stopDrop => trivial
  | take => trivial

theorem waits_of_run (h : Run call.step start tr t) (hearly : ∀ l ∈ tr, call.wakesEarly l = false) :
    call.Waits (call.quietTime tr) t :=
  h.foldl_invariant call.quietAfter call.Waits ⟨rfl, rfl, le_rfl⟩
    fun l hl hs _ hwaits => waits_step hs (hearly l hl) hwaits

/-- The loop is left without a drop only after a whole timeout in which no packets were added, if
the main thread is never woken early. -/
theorem quietPeriod_of_look (h : Run call.step start tr s) (hs : call.step s .look = some s')
    (hleft : s'.main = .stoppingRecv) (hdrop : s'.dropTs = 0)
    (hearly : ∀ l ∈ tr, call.wakesEarly l = false) : call.QuietPeriod tr := by
  have hwaits := waits_of_run h hearly
  cases hmain : s.main with
  | awake numPkts since =>
    obtain rfl : look s numPkts = s' := by simpa [step, hmain] using hs
    simp only [Waits, hmain] at hwaits
    unfold look at hleft hdrop
    split_ifs at hleft hdrop with hts hlt
    · exact absurd hdrop hts
    · obtain ⟨-, hlate, hnow⟩ := (hwaits.resolve_left hts).resolve_left hlt
      exact quietPeriod_of_le (by omega)
  | _ => simp [step, hmain] at hs

def sendOne : SendCall where
  env := { SendEnv.inOrder with hash p := p.seq.toNat }
  sort := id
  sort_perm := .refl
  timeout := 10
  drop := true
  topology :=
    ⟨[0], fun _ => ⟨[], [], Route.weakSorted_nil, [], true⟩,
      fun _ => ⟨0, ⟨0, 0, zero_le_32⟩, false⟩, by simp⟩
  mb := 0
  offsets := ⟨fun _ => none, fun _ => none⟩

theorem quietPeriod_of_timeout :
    ∃ tr s s', Run sendOne.step start tr s ∧ sendOne.step s .look = some s' ∧
      s'.main = .stoppingRecv ∧ s'.dropTs = 0 ∧ sendOne.QuietPeriod tr := by
  have hrun := run_of_execute (f := sendOne.step) (s := start)
    (l := [.elapse 3, .packets [SendEnv.oneByte 0x810 0 1], .look, .elapse 10, .timeout]) rfl
  exact ⟨_, _, _, hrun, rfl, rfl, rfl, quietPeriod_of_look hrun rfl rfl rfl (by decide)⟩

/-- A packet comes back, is sent again and ends the loop at once. -/
theorem not_quietPeriod :
    ¬ ∀ tr s s', Run sendOne.step start tr s → sendOne.step s .look = some s' →
      s'.main = .stoppingRecv → s'.dropTs = 0 → sendOne.QuietPeriod tr := by
  intro h
  have hrun := run_of_execute (f := sendOne.step) (s := start)
    (l := [.packets [SendEnv.oneByte 0x810 0 1], .look, .packets [SendEnv.oneByte 0x810 0 1]]) rfl
  obtain ⟨period, ⟨before, hperiod⟩, -, hle⟩ := h _ _ _ hrun rfl rfl rfl
  have htotal : ((before ++ period).map fun l => l.act.duration).sum = 0 := by
    rw [hperiod]
    rfl
  rw [List.map_append, List.sum_append, Nat.add_eq_zero_iff] at htotal
  rw [htotal.2] at hle
  exact absurd hle (by decide)

end QuietPeriod

section Exclusion

variable {call : SendCall} {s s' t : RecvState} {e : RecvEvent} {late : Bool}
  {tr : List (Link RecvState RecvEvent)}

def LateIff (late : Bool) (s : RecvState) : Prop :=
  late = true ↔ s.dropTs ≠ 0 ∧ s.recvPkts ≠ []

theorem lateIff_packets {pkts : List Packet} (h : LateIff late s) :
    LateIff (call.lateAfter late ⟨s, .packets pkts, call.listenPackets s pkts⟩)
      (call.listenPackets s pkts) := by
  unfold LateIff at h ⊢
  simp only [lateAfter, addsNew, listenPackets, Bool.or_eq_true, Bool.and_eq_true, h,
    Bool.not_eq_true', List.isEmpty_eq_false_iff, bne_iff_ne, ne_eq, List.append_eq_nil_iff]
  tauto

theorem lateIff_step (hs : call.step s e = some s') (h : LateIff late s) :
    LateIff (call.lateAfter late ⟨s, e, s'⟩) s' := by
  cases stepped_of_step hs with
  | packets => exact lateIff_packets h
  | drop => simp [LateIff, lateAfter, listenDrops]
  | look =>
    unfold look
    split_ifs
    all_goals exact h
  | take => simp [LateIff, lateAfter]
  | elapse => exact h
  | timeout => exact h
  | wakeUp => exact h
  | stopRecv => exact h
  | stopDrop => exact h

theorem lateIff_of_run (h : Run call.step start tr t) : LateIff (call.late tr) t :=
  h.foldl_invariant call.lateAfter LateIff (by simp [LateIff, start])
    fun _ _ hs _ hlate => lateIff_step hs hlate

theorem updateOffsets_eq_nil {o : Offsets} {topology : Topology} {mb : NodePtr}
    {pkts : List Packet} : (o.updateOffsets topology mb pkts).2 = [] ↔ pkts = [] := by
  cases pkts with
  | nil => simp [Offsets.updateOffsets]
  | cons p pkts =>
    unfold Offsets.updateOffsets
    split_ifs
    all_goals simp

theorem ofRecv_eq_nil {b : Bool} {pkts out : List Packet}
    (h : call.env.reassembleSegments pkts = some out) :
    (InjectionResult.ofRecv call.sort
      (call.offsets.updateOffsets call.topology call.mb out).2 b).recvPkts = [] ↔ pkts = [] := by
  rw [InjectionResult.ofRecv, List.destutter_eq_nil, ← List.perm_nil,
    List.Perm.congr_left (call.sort_perm _), List.perm_nil, updateOffsets_eq_nil,
    call.env.reassembleSegments_eq_nil h]

theorem returned_of_step {r : InjectionResult} (hs : call.step s e = some s')
    (hr : s'.main = .returned r) : e = .take := by
  cases stepped_of_step hs with
  | packets hruns =>
    cases hmain : s.main with
    | returned => simp [hmain, MainThread.recvRuns] at hruns
    | _ => simp [listenPackets, hmain, MainThread.notify] at hr
  | drop hruns =>
    cases hmain : s.main with
    | returned => simp [hmain, MainThread.dropRuns] at hruns
    | _ => simp [listenDrops, hmain, MainThread.notify] at hr
  | elapse hruns =>
    have hmain : s.main = .returned r := hr
    simp [hmain, MainThread.hasReturned] at hruns
  | look =>
    unfold look at hr
    split_ifs at hr
  | take => rfl
  | timeout => simp at hr
  | wakeUp => simp at hr
  | stopRecv => simp at hr
  | stopDrop => simp at hr

theorem excludes_step (hs : call.step s e = some s') (h : LateIff late s) :
    Excludes ⟨s, e, s'⟩ ↔ (e = .look ∨ e = .take → late = false) := by
  have hlate : late = false ↔ (s.dropTs ≠ 0 → s.recvPkts = []) := by
    rw [Bool.eq_false_iff, ne_eq, show late = true ↔ _ from h, not_and, not_not]
  by_cases htake : e = .take
  · subst htake
    cases stepped_of_step hs with
    | @take pkts hmain hpkts =>
      -- sorting, translating and putting together leave nothing only of nothing
      have hempty := ofRecv_eq_nil (b := s.dropTs != 0) hpkts
      have herror : ((s.dropTs != 0) && !(InjectionResult.ofRecv call.sort
          (call.offsets.updateOffsets call.topology call.mb pkts).2
            (s.dropTs != 0)).recvPkts.isEmpty) = false ↔ (s.dropTs ≠ 0 → s.recvPkts = []) := by
        rw [← hempty]
        simp [imp_iff_not_or]
      rw [hlate, ← herror]
      constructor
      · exact fun hex _ => hex.2 _ rfl
      · intro hfalse
        refine ⟨fun hlook => absurd hlook (by simp), fun r hr => ?_⟩
        rw [← MainThread.returned.inj hr]
        exact hfalse (.inr rfl)
  · have hnone : ∀ r, s'.main ≠ .returned r := fun r hr => htake (returned_of_step hs hr)
    rw [hlate]
    constructor
    · rintro ⟨hassert, -⟩ (rfl | rfl)
      · exact hassert rfl
      · exact absurd rfl htake
    · intro hgood
      exact ⟨fun hlook => hgood (.inl hlook), fun r hr => absurd hr (hnone r)⟩

/-- Drops and packets exclude each other if and only if, whenever the main thread looks at the
packets or takes them, none was added since the last drop. -/
theorem excludes_iff (h : Run call.step start tr t) :
    (∀ l ∈ tr, Excludes l) ↔ ∀ before l after, tr = before ++ l :: after →
      l.act = .look ∨ l.act = .take → call.late before = false := by
  have hstep : ∀ before l after, tr = before ++ l :: after →
      (Excludes l ↔ (l.act = .look ∨ l.act = .take → call.late before = false)) := by
    rintro before l after rfl
    obtain ⟨hbefore, hs, -⟩ := h.around
    exact excludes_step hs (lateIff_of_run hbefore)
  constructor
  · intro hall before l after htr
    exact (hstep before l after htr).mp (hall l (by simp [htr]))
  · intro hall l hl
    obtain ⟨before, after, htr⟩ := List.append_of_mem hl
    exact (hstep before l after htr).mpr (hall before l after htr)

theorem forall_late_of_inits (h : ∀ before ∈ tr.inits, call.late before = false) :
    ∀ before l after, tr = before ++ l :: after → l.act = .look ∨ l.act = .take →
      call.late before = false :=
  fun before l after htr _ => h before ((List.mem_inits ..).mpr ⟨l :: after, htr.symm⟩)

theorem excludes_dropped :
    ∃ tr t, Run sendOne.step start tr t ∧ ∀ l ∈ tr, Excludes l := by
  have hrun := run_of_execute (f := sendOne.step) (s := start)
    (l := [.packets [SendEnv.oneByte 0x810 0 1], .drop 1, .look, .stopRecv, .stopDrop, .take]) rfl
  exact ⟨_, _, hrun, (excludes_iff hrun).mpr (forall_late_of_inits (by decide))⟩

/-- A packet that comes after a drop is returned together with it. -/
theorem not_excludes :
    ¬ ∀ tr t, Run sendOne.step start tr t → ∀ l ∈ tr, Excludes l := by
  intro h
  have hrun := run_of_execute (f := sendOne.step) (s := start)
    (l := [.drop 1, .look, .packets [SendEnv.oneByte 0x810 0 1], .stopRecv, .stopDrop, .take]) rfl
  have hall := h _ _ hrun
  simp only [List.forall_mem_cons] at hall
  exact absurd (hall.2.2.2.2.2.1.2 _ rfl) (by decide)

end Exclusion

end SendCall

end Neo
