import Neo.Emulation.Inject

/-! Rewinding on the tree of packet histories itself, whose nodes point to the history they were
built from. The null pointer is the empty history. -/

namespace Neo

/-- A `NodePacketHistory *` that is not null. Histories are named in the order in which they are
built. -/
abbrev NphPtr := Nat

structure HistTree where
  lastPkt : NphPtr → PacketPtr
  pastHist : NphPtr → Option NphPtr
  past_lt : ∀ p q, pastHist p = some q → q < p

namespace HistTree

variable (t : HistTree)

/-- Decreases from a history to the one it was built from. -/
def depth : Option NphPtr → Nat
  | none => 0
  | some p => p + 1

theorem depth_past (p : NphPtr) : depth (t.pastHist p) < depth (some p) := by
  cases hp : t.pastHist p with
  | none => exact Nat.succ_pos p
  | some q => exact Nat.succ_lt_succ (t.past_lt p q hp)

def getPackets : Option NphPtr → List PacketPtr
  | none => []
  | some p => getPackets (t.pastHist p) ++ [t.lastPkt p]
termination_by h => depth h
decreasing_by exact t.depth_past p

def getPacketsSince (start : Option NphPtr) : Option NphPtr → List PacketPtr
  | none => []
  | some p =>
    if some p = start then [] else getPacketsSince start (t.pastHist p) ++ [t.lastPkt p]
termination_by h => depth h
decreasing_by exact t.depth_past p

def contains (other : Option NphPtr) : Option NphPtr → Bool
  | none => decide (none = other)
  | some p => if some p = other then true else contains other (t.pastHist p)
termination_by h => depth h
decreasing_by exact t.depth_past p

inductive Prefix : Option NphPtr → Option NphPtr → Prop
  | refl (h : Option NphPtr) : Prefix h h
  | past {h : Option NphPtr} {p : NphPtr} : Prefix h (t.pastHist p) → Prefix h (some p)

theorem rec_past {C : Option NphPtr → Prop} (hnone : C none)
    (hsome : ∀ p, C (t.pastHist p) → C (some p)) (h : Option NphPtr) : C h := by
  induction hd : depth h using Nat.strong_induction_on generalizing h with
  | _ d ih =>
    cases h with
    | none => exact hnone
    | some p =>
      apply hsome
      exact ih _ (hd ▸ t.depth_past p) _ rfl

variable {t}

theorem eq_none_of_ancestor {h : Option NphPtr} (hpre : t.Prefix h none) : h = none := by
  cases hpre
  rfl

theorem contains_iff {other h : Option NphPtr} : t.contains other h = true ↔ t.Prefix other h := by
  induction h using t.rec_past with
  | hnone =>
    rw [contains, decide_eq_true_iff]
    constructor
    · intro hnone
      exact hnone ▸ .refl none
    · intro hpre
      cases hpre
      rfl
  | hsome p ih =>
    rw [contains]
    split_ifs with hp
    · exact iff_of_true rfl (hp ▸ .refl _)
    · rw [ih]
      constructor
      · exact Prefix.past
      · intro hpre
        cases hpre with
        | refl => exact absurd rfl hp
        | past hpast => exact hpast

theorem getPackets_eq_append {start h : Option NphPtr} (hs : t.Prefix start h) :
    t.getPackets h = t.getPackets start ++ t.getPacketsSince start h := by
  induction h using t.rec_past with
  | hnone =>
    cases hs
    rw [getPacketsSince, List.append_nil]
  | hsome p ih =>
    rw [getPacketsSince]
    split_ifs with hp
    · rw [← hp, List.append_nil]
    · cases hs with
      | refl => exact absurd rfl hp
      | past hpast => rw [getPackets, ih hpast, List.append_assoc]

theorem getPacketsSince_from_init {start h : Option NphPtr} (hs : ¬ t.Prefix start h) :
    t.getPacketsSince start h = t.getPackets h := by
  induction h using t.rec_past with
  | hnone => rw [getPacketsSince, getPackets]
  | hsome p ih =>
    have hp : some p ≠ start := fun hp => hs (hp ▸ .refl _)
    have hpast : ¬ t.Prefix start (t.pastHist p) := fun hpast => hs (.past hpast)
    rw [getPacketsSince, if_neg hp, ih hpast, getPackets]

end HistTree

/-- An emulation with the history it is at, the packets its driver was given since it was last
reset, and how often it was reset. -/
structure DrivenEmulation where
  nph : Option NphPtr
  sent : List PacketPtr
  resets : Nat

namespace DrivenEmulation

variable (t : HistTree)

def reset (e : DrivenEmulation) : DrivenEmulation := { e with sent := [], resets := e.resets + 1 }

def sendPkt (e : DrivenEmulation) (pkt : PacketPtr) : DrivenEmulation :=
  { e with sent := e.sent ++ [pkt] }

/-- `rewind` and the number of injections. -/
def rewind (e : DrivenEmulation) (nph : Option NphPtr) : Int × DrivenEmulation :=
  if e.nph = nph then (-1, e)
  else
    let e := if nph = none ∨ ¬ t.contains e.nph nph then e.reset else e
    match nph with
    | none => (0, e)
    | some p =>
      let pkts := t.getPacketsSince e.nph (some p)
      (pkts.length, pkts.foldl sendPkt e)

theorem foldl_sendPkt (pkts : List PacketPtr) (e : DrivenEmulation) :
    pkts.foldl sendPkt e = { e with sent := e.sent ++ pkts } := by
  induction pkts generalizing e with
  | nil => simp
  | cons p pkts ih => simp [ih, sendPkt]

variable {t} {e : DrivenEmulation} {g : Option NphPtr}

theorem rewind_self : e.rewind t e.nph = (-1, e) := if_pos rfl

theorem rewind_onward (hne : e.nph ≠ g) (hpre : t.Prefix e.nph g) :
    e.rewind t g = (((t.getPacketsSince e.nph g).length : Int),
      { e with sent := e.sent ++ t.getPacketsSince e.nph g }) := by
  have hg : g ≠ none := by
    intro hnone
    rw [hnone] at hpre hne
    exact hne (HistTree.eq_none_of_ancestor hpre)
  obtain ⟨p, rfl⟩ := Option.ne_none_iff_exists'.mp hg
  have hkeep : ¬ (some p = none ∨ ¬ t.contains e.nph (some p) = true) := by
    simp [HistTree.contains_iff.mpr hpre]
  unfold rewind
  rw [if_neg hne, if_neg hkeep]
  dsimp only
  rw [foldl_sendPkt]

theorem rewind_from_init (hpre : ¬ t.Prefix e.nph g) :
    e.rewind t g = (((t.getPackets g).length : Int),
      { e with sent := t.getPackets g, resets := e.resets + 1 }) := by
  have hne : e.nph ≠ g := fun heq => hpre (heq ▸ .refl _)
  have hreset : g = none ∨ ¬ t.contains e.nph g = true :=
    .inr fun hcontains => hpre (HistTree.contains_iff.mp hcontains)
  unfold rewind
  rw [if_neg hne, if_pos hreset]
  have hsince : t.getPacketsSince e.nph g = t.getPackets g :=
    HistTree.getPacketsSince_from_init hpre
  cases g with
  | none =>
    rw [HistTree.getPackets]
    rfl
  | some p =>
    have hnph : e.reset.nph = e.nph := rfl
    dsimp only
    rw [hnph, hsince, foldl_sendPkt]
    rfl

/-- An emulation that was sent the packets of its history is sent those of another one by
rewinding. It is reset exactly if its history is no beginning of the other one, and nothing is sent
that is not missing. -/
theorem rewind_reproduces (t : HistTree) (e : DrivenEmulation) (g : Option NphPtr)
    (h : e.sent = t.getPackets e.nph) :
    (e.rewind t g).2.sent = t.getPackets g ∧
      ((e.rewind t g).2.resets = e.resets ∧ t.Prefix e.nph g ∨
        (e.rewind t g).2.resets = e.resets + 1 ∧ ¬ t.Prefix e.nph g) ∧
      ((e.rewind t g).1 = -1 ↔ g = e.nph) ∧
      (g ≠ e.nph → t.Prefix e.nph g →
        (e.rewind t g).1 = (t.getPackets g).length - (t.getPackets e.nph).length) ∧
      (¬ t.Prefix e.nph g → (e.rewind t g).1 = (t.getPackets g).length) := by
  have hcount : ∀ n : Nat, (n : Int) ≠ -1 := by
    intro n
    omega
  by_cases heq : g = e.nph
  · subst heq
    have hself : t.Prefix e.nph e.nph := .refl _
    rw [rewind_self]
    exact ⟨h, .inl ⟨rfl, hself⟩, iff_of_true rfl rfl, fun hne => absurd rfl hne,
      fun hno => absurd hself hno⟩
  · by_cases hpre : t.Prefix e.nph g
    · have happend := HistTree.getPackets_eq_append hpre
      have hlength := congrArg List.length happend
      rw [List.length_append] at hlength
      rw [rewind_onward (Ne.symm heq) hpre]
      refine ⟨?_, .inl ⟨rfl, hpre⟩, ?_, ?_, fun hno => absurd hpre hno⟩
      · rw [happend, h]
      · simp [heq, hcount]
      · intro _ _
        dsimp only
        omega
    · rw [rewind_from_init hpre]
      refine ⟨rfl, .inr ⟨rfl, hpre⟩, ?_, fun _ hyes => absurd hyes hpre, fun _ => rfl⟩
      simp [heq, hcount]

/-- A history with one packet, from which `1` was built, and others with one packet each. -/
def sampleTree : HistTree where
  lastPkt p := p
  pastHist p := if p = 1 then some 0 else none
  past_lt p q hp := by
    split_ifs at hp with h
    have hq : 0 = q := Option.some.inj hp
    rw [h, ← hq]
    exact Nat.one_pos

theorem rewind_reproduces_sample :
    (rewind sampleTree ⟨some 0, [0], 0⟩ (some 1)).2.sent = sampleTree.getPackets (some 1) := by
  have hpkts : sampleTree.getPackets (some 0) = [0] := by
    rw [HistTree.getPackets, show sampleTree.pastHist 0 = none from rfl, HistTree.getPackets]
    rfl
  exact (rewind_reproduces sampleTree ⟨some 0, [0], 0⟩ (some 1) hpkts.symm).1

end DrivenEmulation

/-! Where histories are stored once for each content, a history is the list of its packets. -/

namespace HistTree

variable {t : HistTree}

def Interned (t : HistTree) : Prop :=
  ∀ p q, t.lastPkt p = t.lastPkt q → t.pastHist p = t.pastHist q → p = q

def hist (t : HistTree) (h : Option NphPtr) : NodePacketHistory := (t.getPackets h).reverse

theorem hist_none : t.hist none = [] := by
  rw [hist, getPackets]
  rfl

theorem hist_some (p : NphPtr) : t.hist (some p) = t.lastPkt p :: t.hist (t.pastHist p) := by
  rw [hist, getPackets, List.reverse_append]
  rfl

theorem hist_injective (ht : t.Interned) {g h : Option NphPtr} (heq : t.hist g = t.hist h) :
    g = h := by
  induction g using t.rec_past generalizing h with
  | hnone =>
    cases h with
    | none => rfl
    | some q =>
      rw [hist_none, hist_some] at heq
      simp at heq
  | hsome p ih =>
    cases h with
    | none =>
      rw [hist_none, hist_some] at heq
      simp at heq
    | some q =>
      rw [hist_some, hist_some] at heq
      obtain ⟨hlast, hpast⟩ := List.cons.inj heq
      exact congrArg some (ht p q hlast (ih hpast))

theorem hist_inj (ht : t.Interned) {g h : Option NphPtr} : t.hist g = t.hist h ↔ g = h :=
  ⟨hist_injective ht, congrArg t.hist⟩

theorem contains_hist (ht : t.Interned) (other h : Option NphPtr) :
    (t.hist h).contains (t.hist other) = t.contains other h := by
  induction h using t.rec_past with
  | hnone =>
    rw [hist_none, contains, NodePacketHistory.contains]
    apply decide_eq_decide.mpr
    have hnone := hist_inj ht (g := other) (h := none)
    rw [hist_none] at hnone
    rw [hnone, eq_comm]
  | hsome p ih =>
    rw [hist_some, contains, NodePacketHistory.contains, ← hist_some, ih]
    simp only [hist_inj ht]

theorem getPacketsSince_hist (ht : t.Interned) (start h : Option NphPtr) :
    (t.hist h).getPacketsSince (t.hist start) = t.getPacketsSince start h := by
  induction h using t.rec_past with
  | hnone => rw [hist_none, getPacketsSince, NodePacketHistory.getPacketsSince]
  | hsome p ih =>
    rw [hist_some, getPacketsSince, NodePacketHistory.getPacketsSince, ← hist_some, ih]
    simp only [hist_inj ht]

theorem rewind_hist (ht : t.Interned) (e : DrivenEmulation) (mb : Option NodePtr)
    (g : Option NphPtr) :
    (Emulation.mk mb (t.hist e.nph) e.sent).rewind (t.hist g) =
      ((if (e.rewind t g).1 = -1 then none else some (e.rewind t g).1.toNat),
        ⟨mb, t.hist (e.rewind t g).2.nph, (e.rewind t g).2.sent⟩) := by
  have hempty : t.hist g = [] ↔ g = none := by
    rw [← hist_inj ht, hist_none]
  have hcontains := contains_hist ht e.nph g
  have hsince := getPacketsSince_hist ht e.nph g
  have hcount : ∀ n : Nat, (n : Int) ≠ -1 := by
    intro n
    omega
  by_cases hself : e.nph = g
  · subst hself
    rw [DrivenEmulation.rewind_self]
    exact if_pos rfl
  · have hne : t.hist e.nph ≠ t.hist g := fun heq => hself (hist_injective ht heq)
    -- a prefix of the history is driven on, anything else from the start
    by_cases hpre : t.Prefix e.nph g
    · have hg : g ≠ none := by
        intro hnone
        rw [hnone] at hpre hself
        exact hself (eq_none_of_ancestor hpre)
      have hkeep : ¬ (t.hist g = [] ∨ ¬ (t.hist g).contains (t.hist e.nph) = true) := by
        rw [hempty, hcontains, contains_iff]
        simp [hg, hpre]
      rw [DrivenEmulation.rewind_onward hself hpre, if_neg (hcount _)]
      unfold Emulation.rewind
      rw [if_neg hne, if_neg hkeep, if_neg (mt hempty.mp hg), hsince]
      dsimp only
      rw [Emulation.foldl_sendPkt]
      rfl
    · have hreset : t.hist g = [] ∨ ¬ (t.hist g).contains (t.hist e.nph) = true := by
        rw [hcontains, contains_iff]
        exact .inr hpre
      rw [DrivenEmulation.rewind_from_init hpre, if_neg (hcount _)]
      unfold Emulation.rewind
      rw [if_neg hne, if_pos hreset, hsince, getPacketsSince_from_init hpre]
      dsimp only
      rw [Emulation.foldl_sendPkt, List.nil_append]
      cases g with
      | none =>
        rw [if_pos hist_none, getPackets]
        rfl
      | some p =>
        rw [if_neg (mt hempty.mp (Option.some_ne_none p))]
        rfl

end HistTree

end Neo
