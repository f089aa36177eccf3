import Neo.EqClass.Partition
import Mathlib.Data.Set.Card

/-! The set of all classes. It stays in step with the ranges as long as every class that is put
into it has addresses. One without addresses is put into it where a range that ends at the last
address is added and all its addresses have classes. -/

namespace Neo

namespace EqClassMgr

open Ordered

variable {m m' : EqClassMgr} {A : Allocator}

/-! The set is one of pointers in their order. -/

theorem splitRange_allEcs (ec new : EcPtr) (range r : ECRange) (m : EqClassMgr) :
    (m.splitRange ec new range r).allEcs = m.allEcs := by
  unfold splitRange
  split_ifs
  · simp
  · rfl

theorem foldl_splitRange_allEcs (ec new : EcPtr) (range : ECRange) (l : List ECRange)
    (m : EqClassMgr) :
    (l.foldl (fun m r => m.splitRange ec new range r) m).allEcs = m.allEcs := by
  induction l generalizing m with
  | nil => rfl
  | cons r l ih => rw [List.foldl_cons, ih, splitRange_allEcs]

theorem sorted_insertEc (h : Sorted (· < ·) m.allEcs) (e : EcPtr) :
    Sorted (· < ·) (m.insertEc e).allEcs :=
  h.insert e

theorem sorted_addOverlappedEc {range : ECRange} {owned : Bool} {ec : EcPtr}
    (hm : m.addOverlappedEc A range owned ec = some m') (h : Sorted (· < ·) m.allEcs) :
    Sorted (· < ·) m'.allEcs := by
  unfold addOverlappedEc at hm
  obtain ⟨b, -, hm⟩ := Option.bind_eq_some_iff.mp hm
  cases b with
  | true =>
    obtain rfl := Option.some.inj hm
    split_ifs
    · exact h
    · exact h
  | false =>
    have hsplit : m.splitIntersectedEc A ec range owned = some m' := hm
    unfold splitIntersectedEc at hsplit
    dsimp only at hsplit
    split_ifs at hsplit
    all_goals
      obtain rfl := Option.some.inj hsplit
      apply sorted_insertEc
      rw [foldl_splitRange_allEcs]
      exact h

theorem sorted_foldlM_addOverlappedEc {range : ECRange} {owned : Bool} (ecs : List EcPtr)
    (hm : ecs.foldlM (addOverlappedEc A range owned) m = some m')
    (h : Sorted (· < ·) m.allEcs) : Sorted (· < ·) m'.allEcs := by
  induction ecs generalizing m with
  | nil => exact Option.some.inj hm ▸ h
  | cons ec ecs ih =>
    rw [List.foldlM_cons] at hm
    obtain ⟨m₁, hm₁, hm⟩ := Option.bind_eq_some_iff.mp hm
    exact ih hm (sorted_addOverlappedEc hm₁ h)

theorem fillGaps_allEcs (new : EcPtr) (rs : List ECRange) (lb : IPv4Address) (m : EqClassMgr) :
    (fillGaps new rs lb m).2.allEcs = m.allEcs := by
  induction rs generalizing lb m with
  | nil => rfl
  | cons r rs ih =>
    rw [fillGaps, ih]
    unfold fillGap
    split_ifs
    · rfl
    · rfl

theorem sorted_addNonOverlappedEc (range : ECRange) (owned : Bool)
    (h : Sorted (· < ·) m.allEcs) :
    Sorted (· < ·) (m.addNonOverlappedEc A range owned).allEcs := by
  have hlast : ∀ (new : EcPtr) (lb : IPv4Address) (m : EqClassMgr),
      (m.fillLastGap new range lb).allEcs = m.allEcs := by
    intro new lb m
    unfold fillLastGap
    split_ifs
    · rfl
    · rfl
  have hall : ∀ (new : EcPtr) (lb : IPv4Address) (rs : List ECRange),
      Sorted (· < ·) ((fillGaps new rs lb (m.newEc A).2).2.fillLastGap new range
        (fillGaps new rs lb (m.newEc A).2).1).allEcs := by
    intro new lb rs
    rw [hlast, fillGaps_allEcs]
    exact h
  unfold addNonOverlappedEc
  dsimp only
  split_ifs
  · exact hall _ _ _
  · exact sorted_insertEc (hall _ _ _) _
  · exact sorted_insertEc (hall _ _ _) _

theorem sorted_addEc {range : IPRange} {owned : Bool} (hm : m.addEc A range owned = some m')
    (h : Sorted (· < ·) m.allEcs) : Sorted (· < ·) m'.allEcs := by
  unfold addEc at hm
  obtain ⟨m₁, hm₁, hm⟩ := Option.bind_eq_some_iff.mp hm
  obtain rfl := Option.some.inj hm
  exact sorted_addNonOverlappedEc _ _ (sorted_foldlM_addOverlappedEc _ hm₁ h)

/-! Sequences of calls. -/

/-- Where a call is for a range that ends at the last address, some address of the range is in no
range of the calls before. -/
def Reaching (calls : List EcCall) : Prop :=
  ∀ before c after, calls = before ++ c :: after → c.range.ub = lastAddr →
    ∃ x ∈ c.range, ∀ d ∈ before, x ∉ d.range

theorem reaching_append_singleton {calls : List EcCall} {c : EcCall} :
    Reaching (calls ++ [c]) ↔ Reaching calls ∧
      (c.range.ub = lastAddr → ∃ x ∈ c.range, ∀ d ∈ calls, x ∉ d.range) := by
  constructor
  · intro h
    refine ⟨fun before d after hd => ?_, h calls c [] rfl⟩
    exact h before d (after ++ [c]) (by rw [hd]; simp)
  · intro h before d after hd
    rcases after.eq_nil_or_concat with rfl | ⟨after, e, rfl⟩
    · obtain ⟨rfl, hcd⟩ := List.append_inj' hd rfl
      obtain rfl := List.singleton_inj.mp hcd
      exact h.2
    · rw [List.concat_eq_append, ← List.cons_append, ← List.append_assoc] at hd
      exact h.1 before d after (List.append_inj' hd rfl).1

theorem addEcs_settled (A : Allocator) (calls : List EcCall) :
    ∃ m, reset.addEcs A calls = some m ∧ Added {c | c ∈ calls} m ∧
      Sorted (· < ·) m.allEcs ∧ (m.Settled ↔ Reaching calls) := by
  induction calls using List.reverseRecOn with
  | nil =>
    have hadded : Added {c | c ∈ ([] : List EcCall)} reset := by
      simpa using added_reset
    have hsettled : reset.Settled ↔ Reaching [] := by
      simp [Settled, Reaching, reset]
    exact ⟨reset, rfl, hadded, .nil, hsettled⟩
  | append_singleton calls c ih =>
    obtain ⟨m, hm, hadded, hsorted, hsettled⟩ := ih
    obtain ⟨m', hm', hadded', hsettled'⟩ := hadded.addEc A c
    refine ⟨m', ?_, ?_, sorted_addEc hm' hsorted, ?_⟩
    · have hsingle : EqClassMgr.addEcs A [c] m = some m' := by
        rw [EqClassMgr.addEcs, List.foldlM_cons, hm']
        rfl
      rw [EqClassMgr.addEcs, List.foldlM_append]
      exact Option.bind_eq_some_iff.mpr ⟨m, hm, hsingle⟩
    · convert hadded' using 1
      ext d
      simp [or_comm]
    · rw [hsettled', reaching_append_singleton, hsettled]
      rfl

def classes (calls : List EcCall) : Set (Set IPv4Address) :=
  {S | ∃ x, (∃ c ∈ calls, x ∈ c.range) ∧ S = {y | ∀ c ∈ calls, x ∈ c.range ↔ y ∈ c.range}}

structure WellFormed (calls : List EcCall) (m : EqClassMgr) : Prop where
  nonempty : ∀ e ∈ m.allEcs, m.ranges e ≠ []
  disjoint : ∀ e ∈ m.allEcs, ∀ e' ∈ m.allEcs, e ≠ e' →
    ∀ r ∈ m.ranges e, ∀ r' ∈ m.ranges e', ∀ x ∈ r, x ∉ r'
  agree : ∀ e r, e ∈ m.allEcs ∧ r ∈ m.ranges e ↔ r ∈ m.allRanges ∧ r.ec = e
  size : m.allEcs.length = (classes calls).ncard

def addrsOf (m : EqClassMgr) (e : EcPtr) : Set IPv4Address := {y | m.findEc y = some e}

theorem Added.classes_eq {calls : List EcCall} (h : Added {c | c ∈ calls} m) (hs : m.Settled) :
    classes calls = m.addrsOf '' {e | e ∈ m.allEcs} := by
  obtain ⟨L, hL⟩ := h.live
  ext S
  constructor
  · rintro ⟨x, hx, rfl⟩
    obtain ⟨e, he⟩ := Option.isSome_iff_exists.mp ((h.findEc_isSome x).mpr hx)
    refine ⟨e, hL.alive e (hL.findEc_mem he), ?_⟩
    ext y
    rw [addrsOf, Set.mem_ofPred_eq, ← he, eq_comm]
    exact h.findEc_eq_iff x y
  · rintro ⟨e, he, rfl⟩
    obtain ⟨x, hx⟩ := hs e he
    refine ⟨x, (h.findEc_isSome x).mp (by rw [hx]; rfl), ?_⟩
    ext y
    rw [addrsOf, Set.mem_ofPred_eq, ← hx, eq_comm]
    exact h.findEc_eq_iff x y

theorem Added.length_allEcs {calls : List EcCall} (h : Added {c | c ∈ calls} m)
    (hsorted : Sorted (· < ·) m.allEcs) (hs : m.Settled) :
    m.allEcs.length = (classes calls).ncard := by
  have hinj : Set.InjOn m.addrsOf {e | e ∈ m.allEcs} := by
    intro e he e' _ heq
    obtain ⟨x, hx⟩ := hs e he
    have hx' : x ∈ m.addrsOf e' := heq ▸ hx
    exact Option.some.inj (hx.symm.trans hx')
  have hnodup : m.allEcs.Nodup := hsorted.imp fun hlt => Nat.ne_of_lt hlt
  have hset : {e | e ∈ m.allEcs} = (m.allEcs.toFinset : Set EcPtr) := by
    ext e
    simp
  rw [h.classes_eq hs, hinj.ncard_image, hset, Set.ncard_coe_finset,
    List.toFinset_card_of_nodup hnodup]

theorem Added.wellFormed_iff {calls : List EcCall} (h : Added {c | c ∈ calls} m)
    (hsorted : Sorted (· < ·) m.allEcs) : WellFormed calls m ↔ m.Settled := by
  obtain ⟨L, hL⟩ := h.live
  constructor
  · intro hwf e he
    obtain ⟨r, rs, hr⟩ := List.exists_cons_of_ne_nil (hwf.nonempty e he)
    have hmem : r ∈ m.ranges e := hr ▸ List.mem_cons_self ..
    obtain ⟨hall, hec⟩ := (hwf.agree e r).mp ⟨he, hmem⟩
    exact ⟨r.lb, (findEc_eq_some hL.sorted).mpr ⟨r, hall, hec, r.lb_mem⟩⟩
  · intro hs
    have hmemL : ∀ e ∈ m.allEcs, e ∈ L := by
      intro e he
      obtain ⟨x, hx⟩ := hs e he
      exact hL.findEc_mem hx
    refine ⟨fun e he hnil => ?_, fun e he e' he' hne r hr r' hr' x hx hx' => ?_, fun e r => ?_,
      h.length_allEcs hsorted hs⟩
    · obtain ⟨x, hx⟩ := hs e he
      exact (hL.ranges_eq_nil (hmemL e he)).mp hnil x hx
    · have h₁ := (hL.findEc_iff (hmemL e he)).mpr ⟨r, hr, hx⟩
      have h₂ := (hL.findEc_iff (hmemL e' he')).mpr ⟨r', hr', hx'⟩
      exact hne (Option.some.inj (h₁.symm.trans h₂))
    · constructor
      · intro ⟨he, hr⟩
        exact (hL.agree e (hmemL e he) r).mp hr
      · intro hr
        have heL : e ∈ L := hr.2 ▸ hL.owner r hr.1
        exact ⟨hL.alive e heL, (hL.agree e heL r).mpr hr⟩

/-- After any calls, the set of all classes is well formed exactly if each call for a range that
ends at the last address had an address to add. -/
theorem addEcs_wellFormed (A : Allocator) (calls : List EcCall) :
    ∃ m, reset.addEcs A calls = some m ∧ (WellFormed calls m ↔ Reaching calls) := by
  obtain ⟨m, hm, hadded, hsorted, hsettled⟩ := addEcs_settled A calls
  exact ⟨m, hm, (hadded.wellFormed_iff hsorted).trans hsettled⟩

def defaultRange : IPRange := ⟨0#32, lastAddr, by decide⟩

/-- Two default routes make a class that has no addresses. -/
theorem not_wellFormed : ¬ ∀ (A : Allocator) (calls : List EcCall) (m : EqClassMgr),
    reset.addEcs A calls = some m → WellFormed calls m := by
  intro hall
  obtain ⟨m, hm, hadded, hsorted, hsettled⟩ :=
    addEcs_settled .next [⟨defaultRange, false⟩, ⟨defaultRange, false⟩]
  have hwf := hall _ _ m hm
  have hreach := hsettled.mp ((hadded.wellFormed_iff hsorted).mp hwf)
  obtain ⟨x, hx, hno⟩ := hreach [⟨defaultRange, false⟩] ⟨defaultRange, false⟩ [] rfl rfl
  exact hno _ (List.mem_singleton_self _) hx

end EqClassMgr

end Neo
