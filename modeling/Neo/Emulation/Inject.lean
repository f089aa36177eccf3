import Neo.Emulation.EmulationMgr
import Neo.Lib.Run

/-! Packet injection, and the exploration that injects from any packet history reached before.
Rewinding brings an emulation to the recorded history. The new history is recorded before the
cache is looked up, though, and a packet whose results are cached is never sent. -/

namespace Neo

/-- The address of a stored `InjectionResult`. -/
abbrev ResultPtr := Nat

/-- `InjectionResults`: sorted and without duplicates. -/
abbrev InjectionResults := List ResultPtr

def InjectionResults.add (rs : InjectionResults) (r : ResultPtr) : InjectionResults :=
  Ordered.insert (· < ·) r rs

structure Testbed where
  mgr : EmulationMgr
  /-- `Middlebox::_emulation`. -/
  emulationOf : NodePtr → Option EmuPtr
  cache : NodePtr → NodePacketHistory → Option InjectionResults

/-- One call of `inject_packet`: the history it starts from, as the index of one reached
before, the middlebox, the packet, and the result of the `i`-th time it is sent. -/
structure Injection where
  start : Nat
  mb : NodePtr
  pkt : PacketPtr
  env : EmuEnv
  response : Nat → ResultPtr

namespace Testbed

/-- `Middlebox::rewind`. -/
def rewind (t : Testbed) (env : EmuEnv) (mb : NodePtr) (nph : NodePacketHistory) :
    Option (EmuPtr × Testbed) := do
  let (emu, mgr) ← t.mgr.getEmulation env mb nph
  let mgr := mgr.setEmulation emu ((mgr.emulation emu).rewind nph).2
  return (emu, { t with mgr := mgr, emulationOf := Function.update t.emulationOf mb (some emu) })

/-- `Middlebox::set_node_pkt_hist`. -/
def setNodePktHist (t : Testbed) (emu : EmuPtr) (mb : NodePtr) (nph : NodePacketHistory) :
    Option Testbed := do
  if (t.mgr.emulation emu).mb = some mb then
    return { t with mgr := ← t.mgr.updateNodePktHist emu nph }
  else none

/-- `Middlebox::send_pkt`: the packet is sent `packets_per_injection` times. -/
def sendPkt (t : Testbed) (emu : EmuPtr) (packetsPerInjection : Nat) (pkt : PacketPtr)
    (response : Nat → ResultPtr) : Option (InjectionResults × Testbed) :=
  if packetsPerInjection = 0 then none
  else
    let e := (List.range packetsPerInjection).foldl (fun e _ => e.sendPkt pkt) (t.mgr.emulation emu)
    let results := (List.range packetsPerInjection).foldl
      (fun rs i => InjectionResults.add rs (response i)) []
    some (results, { t with mgr := t.mgr.setEmulation emu e })

/-- `inject_packet`: the new packet history, the results to choose from and the testbed. -/
def injectPacket (packetsPerInjection : NodePtr → Nat) (t : Testbed) (hist : PacketHistory)
    (i : Injection) : Option (PacketHistory × InjectionResults × Testbed) := do
  let currentNph := hist.getNodePktHist i.mb
  let (emu, t) ← t.rewind i.env i.mb currentNph
  -- the history is updated before the cache is looked up
  let newNph : NodePacketHistory := i.pkt :: currentNph
  let t ← t.setNodePktHist emu i.mb newNph
  let newHist := hist.setNodePktHist i.mb newNph
  match t.cache i.mb newNph with
  | some results => return (newHist, results, t)
  | none =>
    let (results, t) ← t.sendPkt emu (packetsPerInjection i.mb) i.pkt i.response
    let cache := Function.update t.cache i.mb
      (Function.update (t.cache i.mb) newNph (some results))
    return (newHist, results, { t with cache := cache })

/-- The emulation assigned to the middlebox has received the packets of its recorded history. -/
def InSync (t : Testbed) (mb : NodePtr) : Prop :=
  ∃ emu, t.emulationOf mb = some emu ∧
    (t.mgr.emulation emu).received = (t.mgr.emulation emu).nph.getPackets

def Cached (t : Testbed) (hist : PacketHistory) (i : Injection) : Prop :=
  t.cache i.mb (i.pkt :: hist.getNodePktHist i.mb) ≠ none

end Testbed

/-- An exploration: the testbed, which backtracking does not restore, and the packet histories
of all model states reached so far. -/
structure Explorer where
  testbed : Testbed
  reached : List PacketHistory

namespace Explorer

def start (maxEmu : Nat) (cache : NodePtr → NodePacketHistory → Option InjectionResults) :
    Explorer :=
  ⟨⟨.empty maxEmu, fun _ => none, cache⟩, [.init]⟩

def step (packetsPerInjection : NodePtr → Nat) (s : Explorer) (i : Injection) :
    Option Explorer := do
  let hist ← s.reached[i.start]?
  let (hist', _, t) ← s.testbed.injectPacket packetsPerInjection hist i
  return ⟨t, s.reached ++ [hist']⟩

end Explorer

/-! ### One injection -/

def Emulation.Synced (e : Emulation) : Prop := e.received = e.nph.getPackets

theorem Emulation.foldl_sendPkt (pkts : List PacketPtr) (e : Emulation) :
    pkts.foldl Emulation.sendPkt e = { e with received := e.received ++ pkts } := by
  induction pkts generalizing e with
  | nil => simp
  | cons p pkts ih => simp [ih, sendPkt]

theorem Emulation.rewind_spec {e : Emulation} (h : e.Synced) (nph : NodePacketHistory) :
    (e.rewind nph).2 = { e with received := nph.getPackets } := by
  have h' : e.received = e.nph.getPackets := h
  unfold rewind
  split_ifs with h₁ h₂ h₃ h₃
  · rw [← h₁, ← h']
  · simp [NodePacketHistory.getPackets, h₃]
  · dsimp only
    rw [foldl_sendPkt, NodePacketHistory.getPacketsSince_of_not_contains]
    · simp
    · rw [← NodePacketHistory.contains_iff]
      exact h₂.resolve_left h₃
  · exact absurd (.inl h₃) h₂
  · dsimp only
    rw [foldl_sendPkt, h', NodePacketHistory.getPackets_append_since]
    rw [← NodePacketHistory.contains_iff]
    by_contra hc
    exact h₂ (.inr hc)

def NphMap.Has (m : NphMap) (e : EmuPtr) : Prop := ∃ x ∈ m, e ∈ x.2

namespace NphMap

theorem has_insertEmu {nph : NodePacketHistory} {emu e : EmuPtr} {m : NphMap}
    (h : (insertEmu nph emu m).Has e) : e = emu ∨ m.Has e := by
  induction m with
  | nil => simpa [insertEmu, Has] using h
  | cons x m ih =>
    simp only [insertEmu] at h
    split_ifs at h
    all_goals simp only [Has, List.mem_cons, exists_eq_or_imp] at h ih ⊢
    · rcases h with h | h
      · exact .inr (.inl h)
      · exact (ih h).imp_right .inr
    · simpa using h
    · rcases h with h | h
      · exact (List.mem_insert_iff.mp h).imp_right .inl
      · exact .inr (.inr h)

theorem has_eraseEmu {nph : NodePacketHistory} {emu : EmuPtr} {m m' : NphMap}
    (h : eraseEmu nph emu m = some m') : m.Has emu ∧ ∀ e, m'.Has e → m.Has e := by
  induction m generalizing m' with
  | nil => simp [eraseEmu] at h
  | cons x m ih =>
    simp only [eraseEmu] at h
    split_ifs at h with h₁ h₂ h₃
    · obtain ⟨m₁, hm₁, rfl⟩ := Option.map_eq_some_iff.mp h
      obtain ⟨hemu, hall⟩ := ih hm₁
      simp only [Has, List.mem_cons, exists_eq_or_imp] at *
      exact ⟨.inr hemu, fun e he => he.imp_right (hall e)⟩
    · obtain rfl := Option.some.inj h
      simp only [Has, List.mem_cons, exists_eq_or_imp]
      exact ⟨.inl h₂, fun e he => .inr he⟩
    · obtain rfl := Option.some.inj h
      simp only [Has, List.mem_cons, exists_eq_or_imp]
      exact ⟨.inl h₂, fun e he => he.imp_left List.mem_of_mem_erase⟩

end NphMap

namespace EmulationMgr

def Synced (m : EmulationMgr) : Prop :=
  ∀ mb e, NphMap.Has (m.mbEmuMap mb) e → (m.emulation e).Synced

theorem synced_empty (maxEmu : Nat) : (empty maxEmu).Synced := by
  rintro mb e ⟨x, hx, -⟩
  simp [empty] at hx

theorem Synced.launch {m : EmulationMgr} (h : m.Synced) (emu : EmuPtr) (mb : NodePtr) :
    (m.launch emu mb).Synced := by
  intro mb' e he
  simp only [EmulationMgr.launch, Function.update_apply] at he ⊢
  split_ifs with hee
  · rfl
  · apply h mb' e
    split_ifs at he with hmb
    · exact hmb ▸ (NphMap.has_insertEmu he).resolve_left hee
    · exact he

theorem getEmulation_synced {m m' : EmulationMgr} {env : EmuEnv} {mb : NodePtr}
    {nph : NodePacketHistory} {emu : EmuPtr} (h : m.Synced)
    (hget : m.getEmulation env mb nph = some (emu, m')) : m'.Synced := by
  unfold getEmulation at hget
  split_ifs at hget with h₁ h₂ h₃ h₄
  · obtain ⟨-, rfl⟩ := Prod.mk.inj (Option.some.inj hget)
    exact Synced.launch (m := { m with emus := env.newEmu :: m.emus }) h _ _
  · simp only [Option.bind_eq_bind, Option.bind_eq_some_iff] at hget
    obtain ⟨oldMb, -, oldMap, hmap, hget⟩ := hget
    obtain ⟨-, rfl⟩ := Prod.mk.inj (Option.some.inj hget)
    refine Synced.launch (m := { m with mbEmuMap := Function.update m.mbEmuMap oldMb oldMap })
      (fun mb' e he => h mb' e ?_) _ _
    simp only [Function.update_apply] at he
    split_ifs at he with hmb
    · exact hmb ▸ (NphMap.has_eraseEmu hmap).2 e he
    · exact he
  · simp only [Option.bind_eq_bind] at hget
    split at hget
    · obtain ⟨x, -, hget⟩ := Option.bind_eq_some_iff.mp hget
      obtain ⟨-, rfl⟩ := Prod.mk.inj (Option.some.inj hget)
      exact h
    · split at hget
      all_goals
        obtain ⟨x, -, hget⟩ := Option.bind_eq_some_iff.mp hget
        obtain ⟨-, rfl⟩ := Prod.mk.inj (Option.some.inj hget)
        exact h

end EmulationMgr

namespace Testbed

theorem foldl_range_sendPkt (pkt : PacketPtr) (k : Nat) (e : Emulation) :
    (List.range k).foldl (fun e _ => e.sendPkt pkt) e =
      { e with received := e.received ++ List.replicate k pkt } := by
  induction k with
  | zero => simp
  | succ k ih =>
    rw [List.range_succ, List.foldl_append, ih]
    simp [Emulation.sendPkt, List.replicate_succ']

theorem rewind_spec {t t₁ : Testbed} {env : EmuEnv} {mb : NodePtr} {nph : NodePacketHistory}
    {emu : EmuPtr} (h : t.mgr.Synced) (hr : t.rewind env mb nph = some (emu, t₁)) :
    t₁.emulationOf mb = some emu ∧ t₁.cache = t.cache ∧
      ∀ mb' e, NphMap.Has (t₁.mgr.mbEmuMap mb') e →
        if e = emu then (t₁.mgr.emulation e).received = nph.getPackets
        else (t₁.mgr.emulation e).Synced := by
  simp only [rewind, Option.bind_eq_bind, Option.bind_eq_some_iff] at hr
  obtain ⟨⟨emu', mgr⟩, hget, hr⟩ := hr
  obtain ⟨rfl, rfl⟩ := Prod.mk.inj (Option.some.inj hr)
  have hs := EmulationMgr.getEmulation_synced h hget
  refine ⟨Function.update_self .., rfl, fun mb' e he => ?_⟩
  simp only [EmulationMgr.setEmulation, Function.update_apply]
  split_ifs with hee
  · rw [Emulation.rewind_spec (hee ▸ hs mb' e he)]
  · exact hs mb' e he

theorem setNodePktHist_spec {t t₁ : Testbed} {mb : NodePtr} {nph : NodePacketHistory}
    {emu : EmuPtr} (h : t.setNodePktHist emu mb nph = some t₁) :
    (∃ mb', NphMap.Has (t.mgr.mbEmuMap mb') emu) ∧ t₁.emulationOf = t.emulationOf ∧
      t₁.cache = t.cache ∧
      t₁.mgr.emulation = Function.update t.mgr.emulation emu
        { t.mgr.emulation emu with nph := nph } ∧
      ∀ mb' e, NphMap.Has (t₁.mgr.mbEmuMap mb') e →
        e = emu ∨ ∃ mb'', NphMap.Has (t.mgr.mbEmuMap mb'') e := by
  unfold setNodePktHist at h
  split_ifs at h
  simp only [EmulationMgr.updateNodePktHist, Option.bind_eq_bind, Option.bind_eq_some_iff] at h
  obtain ⟨mgr, ⟨mb₀, -, map, hmap, hmgr⟩, h⟩ := h
  obtain rfl := Option.some.inj hmgr
  obtain rfl := Option.some.inj h
  obtain ⟨hemu, hall⟩ := NphMap.has_eraseEmu hmap
  refine ⟨⟨mb₀, hemu⟩, rfl, rfl, rfl, fun mb' e he => ?_⟩
  simp only [Function.update_apply] at he
  split_ifs at he with hmb
  · exact (NphMap.has_insertEmu he).imp_right fun he => ⟨mb₀, hall e he⟩
  · exact .inr ⟨mb', he⟩

/-- What one injection leaves behind: the emulation it used, with the new history recorded, has
received the packets of the old one and, where nothing was cached, the packet as often as it is
sent; all others are as they were. -/
theorem injectPacket_spec {packetsPerInjection : NodePtr → Nat} {t t' : Testbed}
    {hist hist' : PacketHistory} {i : Injection} {results : InjectionResults}
    (h : t.mgr.Synced)
    (hstep : t.injectPacket packetsPerInjection hist i = some (hist', results, t')) :
    ∃ emu, t'.emulationOf i.mb = some emu ∧
      (t'.mgr.emulation emu).nph = i.pkt :: hist.getNodePktHist i.mb ∧
      (t.Cached hist i → (t'.mgr.emulation emu).received =
        (hist.getNodePktHist i.mb).getPackets) ∧
      (¬ t.Cached hist i → (t'.mgr.emulation emu).received =
        (hist.getNodePktHist i.mb).getPackets ++
          List.replicate (packetsPerInjection i.mb) i.pkt) ∧
      ((t'.mgr.emulation emu).Synced → t'.mgr.Synced) := by
  simp only [injectPacket, Option.bind_eq_bind, Option.bind_eq_some_iff] at hstep
  obtain ⟨⟨emu, t₁⟩, hrewind, t₂, hset, hstep⟩ := hstep
  obtain ⟨hof₁, hcache₁, hothers⟩ := rewind_spec h hrewind
  obtain ⟨⟨mb₀, hemu⟩, hof₂, hcache₂, hheap, hindex⟩ := setNodePktHist_spec hset
  have hreceived := hothers mb₀ emu hemu
  rw [if_pos rfl] at hreceived
  have hothers₂ : ∀ mb e, NphMap.Has (t₂.mgr.mbEmuMap mb) e → e ≠ emu →
      (t₂.mgr.emulation e).Synced := fun mb e he hne => by
    obtain ⟨mb', he'⟩ := (hindex mb e he).resolve_left hne
    rw [hheap, Function.update_of_ne hne]
    have := hothers mb' e he'
    rwa [if_neg hne] at this
  have hcached : t.Cached hist i ↔ t₂.cache i.mb (i.pkt :: hist.getNodePktHist i.mb) ≠ none := by
    rw [Cached, hcache₂, hcache₁]
  -- a cached result is reused: nothing is sent
  split at hstep
  · next results' hc =>
    obtain ⟨-, -, rfl⟩ := by simpa using hstep
    refine ⟨emu, by rw [hof₂, hof₁], by rw [hheap, Function.update_self], fun _ => ?_,
      fun hno => absurd (hcached.mpr (by simp [hc])) hno, fun hs mb e he => ?_⟩
    · rw [hheap, Function.update_self]
      exact hreceived
    · by_cases hee : e = emu
      · exact hee ▸ hs
      · exact hothers₂ mb e he hee
  · next hc =>
    obtain ⟨⟨results', t₃⟩, hsend, hstep⟩ := Option.bind_eq_some_iff.mp hstep
    obtain ⟨-, -, rfl⟩ := by simpa using hstep
    unfold sendPkt at hsend
    split_ifs at hsend with hk
    obtain ⟨-, rfl⟩ := Prod.mk.inj (Option.some.inj hsend)
    refine ⟨emu, by rw [← hof₁, ← hof₂], ?_, fun hyes => absurd hc (hcached.mp hyes), fun _ => ?_,
      fun hs mb e he => ?_⟩
    · simp [EmulationMgr.setEmulation, foldl_range_sendPkt, hheap]
    · simp [EmulationMgr.setEmulation, foldl_range_sendPkt, hheap, hreceived]
    · by_cases hee : e = emu
      · exact hee ▸ hs
      · simp only [EmulationMgr.setEmulation, Function.update_of_ne hee]
        exact hothers₂ mb e he hee

theorem injectPacket_inSync_iff {packetsPerInjection : NodePtr → Nat} {t t' : Testbed}
    {hist hist' : PacketHistory} {i : Injection} {results : InjectionResults}
    (h : t.mgr.Synced)
    (hstep : t.injectPacket packetsPerInjection hist i = some (hist', results, t')) :
    (t'.InSync i.mb ↔ ¬ t.Cached hist i ∧ packetsPerInjection i.mb = 1) ∧
      (t'.InSync i.mb → t'.mgr.Synced) := by
  obtain ⟨emu, hof, hnph, hhit, hmiss, hsynced⟩ := injectPacket_spec h hstep
  have hin : t'.InSync i.mb ↔ (t'.mgr.emulation emu).Synced := by
    simp [InSync, hof, Emulation.Synced]
  rw [hin]
  refine ⟨?_, hsynced⟩
  rw [Emulation.Synced, hnph]
  by_cases hc : t.Cached hist i
  · rw [hhit hc]
    simp [hc, NodePacketHistory.getPackets]
  · rw [hmiss hc]
    simp only [NodePacketHistory.getPackets, List.reverse_cons, List.append_cancel_left_eq, hc,
      not_false_eq_true, true_and]
    constructor
    · intro heq
      simpa using congrArg List.length heq
    · intro hk
      rw [hk]
      rfl

end Testbed

namespace Explorer

def StartsFrom (s : Explorer) (i : Injection) (hist : PacketHistory) : Prop :=
  s.reached[i.start]? = some hist

/-- In every exploration, whatever is backtracked to and whatever the cache held before, each
injection leaves the emulation of its middlebox with the packets of the recorded history if and
only if each finds nothing in the cache and sends its packet once. -/
theorem inSync_iff (packetsPerInjection : NodePtr → Nat) (maxEmu : Nat)
    (cache : NodePtr → NodePacketHistory → Option InjectionResults)
    (tr : List (Link Explorer Injection)) (t : Explorer)
    (hrun : Run (step packetsPerInjection) (start maxEmu cache) tr t) :
    (∀ l ∈ tr, l.after.testbed.InSync l.act.mb) ↔
      ∀ l ∈ tr, packetsPerInjection l.act.mb = 1 ∧
        ∀ hist, l.before.StartsFrom l.act hist → ¬ l.before.testbed.Cached hist l.act := by
  have hkey : ∀ l : Link Explorer Injection,
      step packetsPerInjection l.before l.act = some l.after → l.before.testbed.mgr.Synced →
        (l.after.testbed.InSync l.act.mb ↔ packetsPerInjection l.act.mb = 1 ∧
          ∀ hist, l.before.StartsFrom l.act hist → ¬ l.before.testbed.Cached hist l.act) ∧
        (l.after.testbed.InSync l.act.mb → l.after.testbed.mgr.Synced) := by
    intro l hl hs
    simp only [step, Option.bind_eq_bind, Option.bind_eq_some_iff] at hl
    obtain ⟨hist, hstart, ⟨hist', results, t'⟩, hinj, hl⟩ := hl
    obtain ⟨hiff, hsync⟩ := Testbed.injectPacket_inSync_iff hs hinj
    have ht : l.after.testbed = t' := by rw [← Option.some.inj hl]
    rw [ht]
    refine ⟨?_, hsync⟩
    rw [hiff, and_comm]
    refine and_congr_right fun _ => ⟨fun hno hist₁ h₁ => ?_, fun hall => hall hist hstart⟩
    obtain rfl := Option.some.inj (h₁.symm.trans hstart)
    exact hno
  exact Run.forall_iff (fun s => s.testbed.mgr.Synced) (fun l hl hs => (hkey l hl hs).1)
    (fun l hl hs hc => (hkey l hl hs).2 ((hkey l hl hs).1.mpr hc)) hrun
    (EmulationMgr.synced_empty maxEmu)

def injectionAt (start : Nat) (mb : NodePtr) (pkt : PacketPtr) : Injection :=
  ⟨start, mb, pkt, ⟨7, 7, none⟩, fun _ => 0⟩

/-- Two middleboxes take turns with one emulation. After backtracking, another packet is sent to the
first middlebox. -/
def backtracking : List Injection := [injectionAt 0 0 5, injectionAt 1 1 6, injectionAt 0 0 8]

theorem inSync_backtracking : ∃ tr t, Run (step fun _ => 1) (start 1 fun _ _ => none) tr t ∧
    tr.map (fun k => k.act) = backtracking ∧ ∀ l ∈ tr, l.after.testbed.InSync l.act.mb := by
  have hfresh : (execute (step fun _ => 1) (start 1 fun _ _ => none) backtracking).map
      (fun r => r.1.all fun l => l.before.reached[l.act.start]?.all fun hist =>
        (l.before.testbed.cache l.act.mb
          (l.act.pkt :: hist.getNodePktHist l.act.mb)).isNone) = some true := by
    decide
  obtain ⟨⟨tr, t⟩, hexec, hall⟩ := Option.map_eq_some_iff.mp hfresh
  have hrun := run_of_execute hexec
  refine ⟨tr, t, hrun, acts_of_execute hexec,
    (inSync_iff (fun _ => 1) 1 (fun _ _ => none) tr t hrun).mpr fun l hl => ⟨rfl, ?_⟩⟩
  intro hist hstart
  have hnone := List.all_eq_true.mp hall l hl
  rw [show l.before.reached[l.act.start]? = some hist from hstart, Option.all_some,
    Option.isNone_iff_eq_none] at hnone
  exact not_not.mpr hnone

/-- Two middleboxes take turns with one emulation. After backtracking, the first packet is sent
to the first middlebox again: its results are cached, so the emulation launched for it has
received nothing, and its recorded history has the packet. -/
theorem not_inSync_cached : ¬ ∀ tr t, Run (step fun _ => 1) (start 1 fun _ _ => none) tr t →
    ∀ l ∈ tr, l.after.testbed.InSync l.act.mb := by
  intro hall
  have hlast : (execute (step fun _ => 1) (start 1 fun _ _ => none)
      [injectionAt 0 0 5, injectionAt 1 1 6, injectionAt 0 0 5]).map (fun r => r.1.getLast?.map
        fun l => (l.act.mb, l.after.testbed.emulationOf 0,
          (l.after.testbed.mgr.emulation 7).received, (l.after.testbed.mgr.emulation 7).nph)) =
      some (some (0, some 7, [], [5])) := by decide
  obtain ⟨⟨tr, t⟩, hexec, hone⟩ := Option.map_eq_some_iff.mp hlast
  obtain ⟨l, hl, hfacts⟩ := Option.map_eq_some_iff.mp hone
  simp only [Prod.mk.injEq] at hfacts
  obtain ⟨hmb, hof, hreceived, hnph⟩ := hfacts
  obtain ⟨emu, hemu, hsync⟩ := hall tr t (run_of_execute hexec) l (List.mem_of_getLast? hl)
  rw [hmb, hof] at hemu
  obtain rfl := Option.some.inj hemu
  rw [hreceived, hnph] at hsync
  exact absurd hsync (by decide)

end Explorer

end Neo
