import Neo.Emulation.Receive

/-! The loop of `send_pkt` where no thread loses time: whether the packets of a middlebox are
received is then a matter of the timeout. -/

namespace Neo

namespace SendCall

variable (call : SendCall) (lat : Nat)

/-- No thread loses time, no drop is seen, and the first packets are there after `lat`. -/
def punctual (l : Link RecvState RecvEvent) : Bool :=
  !call.wakesEarly l && match l.act with
    | .packets _ => !call.addsNew l || decide (lat ≤ l.before.now)
    | .drop _ => false
    | .elapse time => !l.before.main.recvRuns || match l.before.main with
      | .waiting _ since => decide (l.before.now + time ≤ since + call.timeout) &&
          (!l.before.recvPkts.isEmpty || decide (l.before.now + time ≤ lat))
      | _ => false
    | _ => true

/-- `PKT_LAT` after one more step: the time at which the main thread first sees packets. -/
def pktLatAfter (g : Option Nat) (l : Link RecvState RecvEvent) : Option Nat :=
  match g, l.act, l.before.main with
  | none, .look, .awake numPkts _ =>
    if l.before.dropTs = 0 ∧ numPkts < l.before.recvPkts.length then some l.before.now else none
  | _, _, _ => g

def pktLat (tr : List (Link RecvState RecvEvent)) : Option Nat := tr.foldl pktLatAfter none

def Heard (g : Option Nat) (s : RecvState) : Prop :=
  match s.main with
  | .waiting numPkts since => g = some lat ∧ s.recvPkts ≠ [] ∨
      g = none ∧ s.recvPkts = [] ∧ numPkts = 0 ∧ since = 0 ∧ s.now ≤ lat ∧ s.dropTs = 0
  | .awake numPkts _ => s.recvPkts ≠ [] ∧
      (g = some lat ∨ g = none ∧ numPkts = 0 ∧ s.now = lat ∧ s.dropTs = 0)
  | .returned r => g = some lat ∧ r.recvPkts ≠ []
  | _ => g = some lat ∧ s.recvPkts ≠ []

def Unheard (s : RecvState) : Prop :=
  match s.main with
  | .waiting _ since => s.recvPkts = [] ∧ since = 0 ∧ s.now ≤ call.timeout
  | .awake _ _ | .stoppingRecv => s.recvPkts = [] ∧ s.now ≤ call.timeout
  | .returned r => r.recvPkts = []
  | _ => s.recvPkts = []

variable {call : SendCall} {lat : Nat} {s s' t : RecvState} {e : RecvEvent}
  {tr : List (Link RecvState RecvEvent)}

theorem pktLatAfter_of_ne {g : Option Nat} (h : e ≠ .look) : pktLatAfter g ⟨s, e, s'⟩ = g := by
  cases g with
  | none => cases e <;> first | rfl | exact absurd rfl h
  | some n => rfl

theorem heard_packets {pkts : List Packet} {g : Option Nat} (hlat : lat < call.timeout)
    (hearly : call.wakesEarly ⟨s, .packets pkts, call.listenPackets s pkts⟩ = false)
    (hnew : call.newPackets s pkts = [] ∨ lat ≤ s.now) (hruns : s.main.recvRuns = true)
    (h : Heard lat g s) : Heard lat g (call.listenPackets s pkts) := by
  have happend : s.recvPkts ≠ [] → s.recvPkts ++ call.newPackets s pkts ≠ [] := by
    intro hne hnil
    exact hne (List.append_eq_nil_iff.mp hnil).1
  cases hmain : s.main with
  | waiting numPkts since =>
    simp only [Heard, hmain] at h
    simp only [Heard, listenPackets, hmain, MainThread.notify]
    rcases h with ⟨hg, hne⟩ | ⟨hg, -, rfl, rfl, hnow, hdrop⟩
    · exact ⟨happend hne, .inl hg⟩
    · -- packets that were received before do not wake the thread until the timeout
      have hadded : call.newPackets s pkts ≠ [] := by
        intro hnil
        have hlate := le_of_wakesEarly hmain (by simp [idles, hnil]) hearly
        omega
      have htime := hnew.resolve_left hadded
      exact ⟨fun hnil => hadded (List.append_eq_nil_iff.mp hnil).2,
        .inr ⟨hg, rfl, by omega, hdrop⟩⟩
  | awake =>
    simp only [Heard, hmain] at h
    simp only [Heard, listenPackets, hmain, MainThread.notify]
    exact ⟨happend h.1, h.2⟩
  | stoppingRecv =>
    simp only [Heard, hmain] at h
    simp only [Heard, listenPackets, hmain, MainThread.notify]
    exact ⟨h.1, happend h.2⟩
  | _ => simp [hmain, MainThread.recvRuns] at hruns

theorem heard_look {g : Option Nat} {numPkts since : Nat} (hmain : s.main = .awake numPkts since)
    (h : Heard lat g s) :
    Heard lat (pktLatAfter g ⟨s, .look, look s numPkts⟩) (look s numPkts) := by
  simp only [Heard, hmain] at h
  obtain ⟨hne, hg⟩ := h
  have hlook : pktLatAfter g ⟨s, .look, look s numPkts⟩ = some lat := by
    rcases hg with rfl | ⟨rfl, rfl, hnow, hdrop⟩
    · rfl
    · have hpos := List.length_pos_iff.mpr hne
      simp [pktLatAfter, hmain, hdrop, hpos, hnow]
  rw [hlook]
  unfold look
  split_ifs
  · exact ⟨rfl, hne⟩
  · exact .inl ⟨rfl, hne⟩
  · exact ⟨rfl, hne⟩

theorem heard_elapse {g : Option Nat} {time : Nat} (hreturned : s.main.hasReturned = false)
    (hpunctual : call.punctual lat ⟨s, .elapse time, { s with now := s.now + time }⟩ = true)
    (h : Heard lat g s) : Heard lat g { s with now := s.now + time } := by
  simp only [punctual, Bool.and_eq_true] at hpunctual
  replace hpunctual := hpunctual.2
  cases hmain : s.main with
  | waiting numPkts since =>
    simp only [Heard, hmain] at h ⊢
    simp only [hmain, MainThread.recvRuns, Bool.not_true, Bool.false_or, Bool.and_eq_true,
      Bool.or_eq_true, Bool.not_eq_true', List.isEmpty_eq_false_iff,
      decide_eq_true_eq] at hpunctual
    rcases h with hseen | ⟨hg, hnil, hnum, hsince, -, hdrop⟩
    · exact .inl hseen
    · have hle := hpunctual.2.resolve_left (not_not.mpr hnil)
      exact .inr ⟨hg, hnil, hnum, hsince, hle, hdrop⟩
  | awake => simp [hmain, MainThread.recvRuns] at hpunctual
  | returned => simp [hmain, MainThread.hasReturned] at hreturned
  | _ => simpa only [Heard, hmain] using h

theorem heard_awake {g : Option Nat} {numPkts since : Nat} (hlat : lat < call.timeout)
    (hmain : s.main = .waiting numPkts since) (hlate : since + call.timeout ≤ s.now)
    (h : Heard lat g s) : Heard lat g { s with main := .awake numPkts since } := by
  simp only [Heard, hmain] at h ⊢
  rcases h with ⟨hg, hne⟩ | ⟨-, -, -, rfl, hnow, -⟩
  · exact ⟨hne, .inl hg⟩
  · omega

theorem heard_step {g : Option Nat} (hlat : lat < call.timeout) (hs : call.step s e = some s')
    (hpunctual : call.punctual lat ⟨s, e, s'⟩ = true) (h : Heard lat g s) :
    Heard lat (pktLatAfter g ⟨s, e, s'⟩) s' := by
  have hboth := hpunctual
  simp only [punctual, Bool.and_eq_true, Bool.not_eq_true'] at hboth
  obtain ⟨hearly, hact⟩ := hboth
  cases stepped_of_step hs with
  | packets hruns =>
    simp only [addsNew, Bool.not_not, Bool.or_eq_true, List.isEmpty_iff,
      decide_eq_true_eq] at hact
    rw [pktLatAfter_of_ne (by simp)]
    exact heard_packets hlat hearly hact hruns h
  | drop => simp at hact
  | elapse hreturned =>
    rw [pktLatAfter_of_ne (by simp)]
    exact heard_elapse hreturned hpunctual h
  | timeout hmain hlate =>
    rw [pktLatAfter_of_ne (by simp)]
    exact heard_awake hlat hmain hlate h
  | wakeUp hmain =>
    rw [pktLatAfter_of_ne (by simp)]
    exact heard_awake hlat hmain (le_of_wakesEarly hmain rfl hearly) h
  | look hmain => exact heard_look hmain h
  | stopRecv hmain =>
    rw [pktLatAfter_of_ne (by simp)]
    simpa only [Heard, hmain] using h
  | stopDrop hmain =>
    rw [pktLatAfter_of_ne (by simp)]
    simpa only [Heard, hmain] using h
  | take hmain hpkts =>
    rw [pktLatAfter_of_ne (by simp)]
    simp only [Heard, hmain] at h
    exact ⟨h.1, fun hnil => h.2 ((ofRecv_eq_nil hpkts).mp hnil)⟩

theorem unheard_packets {pkts : List Packet} (hlat : call.timeout < lat)
    (hnew : call.newPackets s pkts = [] ∨ lat ≤ s.now) (hruns : s.main.recvRuns = true)
    (h : call.Unheard s) : call.Unheard (call.listenPackets s pkts) := by
  -- before the timeout the middlebox has not answered, and only what was received comes again
  have hnone : s.recvPkts = [] → s.now ≤ call.timeout →
      s.recvPkts ++ call.newPackets s pkts = [] := by
    intro hnil hnow
    rw [hnil, hnew.resolve_right (by omega)]
    rfl
  cases hmain : s.main with
  | waiting numPkts since =>
    simp only [Unheard, hmain] at h
    simp only [Unheard, listenPackets, hmain, MainThread.notify]
    exact ⟨hnone h.1 h.2.2, h.2.2⟩
  | awake =>
    simp only [Unheard, hmain] at h
    simp only [Unheard, listenPackets, hmain, MainThread.notify]
    exact ⟨hnone h.1 h.2, h.2⟩
  | stoppingRecv =>
    simp only [Unheard, hmain] at h
    simp only [Unheard, listenPackets, hmain, MainThread.notify]
    exact ⟨hnone h.1 h.2, h.2⟩
  | _ => simp [hmain, MainThread.recvRuns] at hruns

theorem unheard_step (hlat : call.timeout < lat) (hs : call.step s e = some s')
    (hpunctual : call.punctual lat ⟨s, e, s'⟩ = true) (h : call.Unheard s) : call.Unheard s' := by
  simp only [punctual, Bool.and_eq_true, Bool.not_eq_true'] at hpunctual
  obtain ⟨-, hpunctual⟩ := hpunctual
  cases stepped_of_step hs with
  | packets hruns =>
    simp only [addsNew, Bool.not_not, Bool.or_eq_true, List.isEmpty_iff,
      decide_eq_true_eq] at hpunctual
    exact unheard_packets hlat hpunctual hruns h
  | drop => simp at hpunctual
  | elapse hreturned =>
    cases hmain : s.main with
    | waiting numPkts since =>
      simp only [Unheard, hmain] at h ⊢
      simp only [hmain, MainThread.recvRuns, Bool.not_true, Bool.false_or, Bool.and_eq_true,
        decide_eq_true_eq] at hpunctual
      exact ⟨h.1, h.2.1, by omega⟩
    | returned => simp [hmain, MainThread.hasReturned] at hreturned
    | awake => simp [hmain, MainThread.recvRuns] at hpunctual
    | stoppingRecv => simp [hmain, MainThread.recvRuns] at hpunctual
    | _ => simpa only [Unheard, hmain] using h
  | timeout hmain =>
    simp only [Unheard, hmain] at h ⊢
    exact ⟨h.1, h.2.2⟩
  | wakeUp hmain =>
    simp only [Unheard, hmain] at h ⊢
    exact ⟨h.1, h.2.2⟩
  | look hmain =>
    simp only [Unheard, hmain] at h
    unfold look
    split_ifs with hdrop hlt
    · exact h
    · rw [h.1] at hlt
      exact absurd hlt (Nat.not_lt_zero _)
    · exact h
  | stopRecv hmain =>
    simp only [Unheard, hmain] at h ⊢
    exact h.1
  | stopDrop hmain => simpa only [Unheard, hmain] using h
  | take hmain hpkts =>
    simp only [Unheard, hmain] at h
    exact (ofRecv_eq_nil hpkts).mpr h

theorem heard_of_lt {r : InjectionResult} (hlat : lat < call.timeout)
    (h : Run call.step start tr t) (hpunctual : ∀ l ∈ tr, call.punctual lat l = true)
    (hr : t.main = .returned r) : pktLat tr = some lat ∧ r.recvPkts ≠ [] := by
  have hstart : Heard lat none start := .inr ⟨rfl, rfl, rfl, rfl, Nat.zero_le _, rfl⟩
  have hheard : Heard lat (pktLat tr) t := h.foldl_invariant pktLatAfter (Heard lat) hstart
    fun l hl hs _ hbefore => heard_step hlat hs (hpunctual l hl) hbefore
  simpa only [Heard, hr] using hheard

theorem unheard_of_lt {r : InjectionResult} (hlat : call.timeout < lat)
    (h : Run call.step start tr t) (hpunctual : ∀ l ∈ tr, call.punctual lat l = true)
    (hr : t.main = .returned r) : r.recvPkts = [] := by
  have hstart : call.Unheard start := ⟨rfl, rfl, Nat.zero_le _⟩
  have hunheard := (h.invariant call.Unheard hstart fun l hl hs hbefore =>
    unheard_step hlat hs (hpunctual l hl) hbefore).1
  simpa only [Unheard, hr] using hunheard

end SendCall

end Neo
