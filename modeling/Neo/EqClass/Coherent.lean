import Neo.EqClass.EqClassMgr
import Mathlib.Data.Set.Insert

/-! The invariant of the class manager: the stored ranges are disjoint and every class object
that owns addresses holds exactly its own ranges of the global set. Under it the manager is a
labelling of addresses by classes, and each primitive is described by what it does to labels. -/

namespace Neo

namespace ECRange

instance : Membership IPv4Address ECRange := ⟨fun r a => a ∈ r.toIPRange⟩

instance (r : ECRange) (a : IPv4Address) : Decidable (a ∈ r) :=
  inferInstanceAs (Decidable (a ∈ r.toIPRange))

theorem mem_def {r : ECRange} {a : IPv4Address} : a ∈ r ↔ r.lb ≤ a ∧ a ≤ r.ub := Iff.rfl

@[simp] theorem mem_ofRange {r : IPRange} {a : IPv4Address} : a ∈ ofRange r ↔ a ∈ r := Iff.rfl

theorem lb_mem (r : ECRange) : r.lb ∈ r := r.toIPRange.lb_mem

theorem ub_mem (r : ECRange) : r.ub ∈ r := r.toIPRange.ub_mem

theorem overlaps_iff_exists {a b : ECRange} : Overlaps a b ↔ ∃ x, x ∈ a ∧ x ∈ b := by
  rw [overlaps_iff]
  constructor
  · rintro ⟨h₁, h₂⟩
    have := a.le
    have := b.le
    by_cases h : a.lb ≤ b.lb
    · exact ⟨b.lb, ⟨h, h₁⟩, b.lb_mem⟩
    · exact ⟨a.lb, a.lb_mem, ⟨by bv_omega, h₂⟩⟩
  · rintro ⟨x, ⟨ha₁, ha₂⟩, ⟨hb₁, hb₂⟩⟩
    exact ⟨BitVec.le_trans hb₁ ha₂, BitVec.le_trans ha₁ hb₂⟩

theorem overlaps_ofAddr {r : ECRange} {x : IPv4Address} :
    Overlaps r (ofRange (.ofAddr x)) ↔ x ∈ r := by
  simp [overlaps_iff_exists]

theorem mem_below {r range q : ECRange} (h : Overlaps r range) (hq : r.below range = some q) :
    q.ec = r.ec ∧ ∀ x, x ∈ q ↔ x ∈ r ∧ x < range.lb := by
  have ho := overlaps_iff.mp h
  unfold below at hq
  split_ifs at hq with hlt
  obtain rfl := Option.some.inj hq
  clear hq
  refine ⟨rfl, fun x => ?_⟩
  simp only [mem_def]
  constructor <;> intro hx <;> bv_omega

theorem below_eq_none {r range : ECRange} (hq : r.below range = none) : ∀ x ∈ r, range.lb ≤ x := by
  unfold below at hq
  split_ifs at hq with hlt
  rintro x ⟨h₁, -⟩
  bv_omega

theorem mem_above {r range q : ECRange} (h : Overlaps r range) (hq : r.above range = some q) :
    q.ec = r.ec ∧ ∀ x, x ∈ q ↔ x ∈ r ∧ range.ub < x := by
  have ho := overlaps_iff.mp h
  unfold above at hq
  split_ifs at hq with hlt
  obtain rfl := Option.some.inj hq
  clear hq
  refine ⟨rfl, fun x => ?_⟩
  simp only [mem_def]
  constructor <;> intro hx <;> bv_omega

theorem above_eq_none {r range : ECRange} (hq : r.above range = none) : ∀ x ∈ r, x ≤ range.ub := by
  unfold above at hq
  split_ifs at hq with hlt
  rintro x ⟨-, h₂⟩
  bv_omega

theorem mem_within {r range : ECRange} {ec : EcPtr} (h : Overlaps r range) {x : IPv4Address} :
    x ∈ r.within range ec h ↔ x ∈ r ∧ x ∈ range := by
  simp only [mem_def, within]
  split_ifs <;> constructor <;> intro hx <;> bv_omega

end ECRange

namespace EqClassMgr

open Ordered

theorem findEc_eq_some {m : EqClassMgr} (h : Sorted ECRange.lt m.allRanges) {x : IPv4Address}
    {e : EcPtr} : m.findEc x = some e ↔ ∃ r ∈ m.allRanges, r.ec = e ∧ x ∈ r := by
  simp only [findEc, Option.map_eq_some_iff]
  constructor
  · rintro ⟨r, hr, rfl⟩
    obtain ⟨hm, ho⟩ := find_eq_some h hr
    exact ⟨r, hm, rfl, ECRange.overlaps_ofAddr.mp ho⟩
  · rintro ⟨r, hr, rfl, hx⟩
    have ho : ECRange.Overlaps r (.ofRange (.ofAddr x)) := ECRange.overlaps_ofAddr.mpr hx
    cases hf : find ECRange.lt (.ofRange (.ofAddr x)) m.allRanges with
    | none => exact absurd ho ((find_eq_none h).mp hf r hr)
    | some q =>
      obtain ⟨hq, hqo⟩ := find_eq_some h hf
      have hqr : ECRange.Overlaps q r :=
        ECRange.overlaps_iff_exists.mpr ⟨x, ECRange.overlaps_ofAddr.mp hqo, hx⟩
      exact ⟨q, rfl, congrArg ECRange.ec (h.eq_of_equiv hq hr hqr)⟩

theorem findEc_eq_none {m : EqClassMgr} (h : Sorted ECRange.lt m.allRanges) {x : IPv4Address} :
    m.findEc x = none ↔ ∀ r ∈ m.allRanges, x ∉ r := by
  simp [findEc, find_eq_none h, ECRange.overlaps_ofAddr]

/-- The global set is disjoint, and the objects in `L`, which include all owners, hold exactly
their ranges of it. -/
structure Coherent (m : EqClassMgr) (L : Set EcPtr) : Prop where
  sorted : Sorted ECRange.lt m.allRanges
  classSorted : ∀ e, Sorted ECRange.lt (m.ranges e)
  owner : ∀ r ∈ m.allRanges, r.ec ∈ L
  agree : ∀ e ∈ L, ∀ r, r ∈ m.ranges e ↔ r ∈ m.allRanges ∧ r.ec = e

namespace Coherent

variable {m : EqClassMgr} {L : Set EcPtr}

theorem findEc_mem (h : Coherent m L) {x : IPv4Address} {e : EcPtr} (hx : m.findEc x = some e) :
    e ∈ L := by
  obtain ⟨r, hr, rfl, -⟩ := (findEc_eq_some h.sorted).mp hx
  exact h.owner r hr

theorem findEc_iff (h : Coherent m L) {x : IPv4Address} {e : EcPtr} (he : e ∈ L) :
    m.findEc x = some e ↔ ∃ r ∈ m.ranges e, x ∈ r := by
  rw [findEc_eq_some h.sorted]
  constructor
  · rintro ⟨r, hr, hre, hx⟩
    exact ⟨r, (h.agree e he r).mpr ⟨hr, hre⟩, hx⟩
  · rintro ⟨r, hr, hx⟩
    exact ⟨r, ((h.agree e he r).mp hr).1, ((h.agree e he r).mp hr).2, hx⟩

theorem ranges_eq_nil (h : Coherent m L) {e : EcPtr} (he : e ∈ L) :
    m.ranges e = [] ↔ ∀ x, m.findEc x ≠ some e := by
  constructor
  · intro hn x hx
    obtain ⟨r, hr, -⟩ := (h.findEc_iff he).mp hx
    simp [hn] at hr
  · intro hx
    refine List.eq_nil_iff_forall_not_mem.mpr fun r hr => ?_
    exact hx r.lb ((h.findEc_iff he).mpr ⟨r, hr, r.lb_mem⟩)

theorem not_overlaps (h : Coherent m L) {r : ECRange} (hfree : ∀ x ∈ r, m.findEc x = none) :
    ∀ q ∈ m.allRanges, ¬ ECRange.Overlaps q r := by
  intro q hq ho
  obtain ⟨x, hxq, hxr⟩ := ECRange.overlaps_iff_exists.mp ho
  exact (findEc_eq_none h.sorted).mp (hfree x hxr) q hq hxq

theorem addRange (h : Coherent m L) {e : EcPtr} {r : ECRange} (he : r.ec = e) (heL : e ∈ L)
    (hfree : ∀ x ∈ r, m.findEc x = none) : Coherent (m.addRange e r) L := by
  have hno := h.not_overlaps hfree
  have hall : ∀ q, q ∈ (m.addRange e r).allRanges ↔ q = r ∨ q ∈ m.allRanges :=
    fun q => mem_insert hno
  refine ⟨h.sorted.insert r, fun e' => ?_, fun q hq => ?_, fun e' he' q => ?_⟩
  · simp only [EqClassMgr.addRange]
    split_ifs
    · exact (h.classSorted e').insert r
    · exact h.classSorted e'
  · rcases (hall q).mp hq with rfl | hq
    · exact he ▸ heL
    · exact h.owner q hq
  · rw [hall q]
    simp only [EqClassMgr.addRange]
    split_ifs with hee
    · subst hee
      have hno' : ∀ b ∈ m.ranges e', ¬ ECRange.Overlaps b r :=
        fun b hb => hno b ((h.agree e' he' b).mp hb).1
      rw [mem_insert hno', h.agree e' he' q]
      constructor
      · rintro (rfl | hq)
        · exact ⟨.inl rfl, he⟩
        · exact ⟨.inr hq.1, hq.2⟩
      · rintro ⟨rfl | hq, hqe⟩
        · exact .inl rfl
        · exact .inr ⟨hq, hqe⟩
    · rw [h.agree e' he' q]
      refine and_congr_left fun hqe => ⟨.inr, ?_⟩
      rintro (rfl | hq)
      · exact absurd (hqe.symm.trans he) hee
      · exact hq

theorem findEc_addRange (h : Coherent m L) {e : EcPtr} {r : ECRange} (he : r.ec = e)
    (heL : e ∈ L) (hfree : ∀ x ∈ r, m.findEc x = none) (x : IPv4Address) :
    (m.addRange e r).findEc x = if x ∈ r then some e else m.findEc x := by
  have h' := h.addRange he heL hfree
  have hall : ∀ q, q ∈ (m.addRange e r).allRanges ↔ q = r ∨ q ∈ m.allRanges :=
    fun q => mem_insert (h.not_overlaps hfree)
  split_ifs with hx
  · exact (findEc_eq_some h'.sorted).mpr ⟨r, (hall r).mpr (.inl rfl), he, hx⟩
  · refine Option.ext fun e' => ?_
    rw [findEc_eq_some h'.sorted, findEc_eq_some h.sorted]
    constructor
    · rintro ⟨q, hq, hqe, hxq⟩
      rcases (hall q).mp hq with rfl | hq
      · exact absurd hxq hx
      · exact ⟨q, hq, hqe, hxq⟩
    · rintro ⟨q, hq, hqe, hxq⟩
      exact ⟨q, (hall q).mpr (.inr hq), hqe, hxq⟩

theorem mem_rmRange (h : Coherent m L) {e : EcPtr} {r q : ECRange} (hr : r ∈ m.allRanges) :
    q ∈ (m.rmRange e r).allRanges ↔ q ∈ m.allRanges ∧ q ≠ r := by
  refine mem_erase.trans (and_congr_right fun hq => not_congr ⟨h.sorted.eq_of_equiv hq hr, ?_⟩)
  rintro rfl
  exact ECRange.overlaps_iff_exists.mpr ⟨q.lb, q.lb_mem, q.lb_mem⟩

theorem rmRange (h : Coherent m L) {e : EcPtr} {r : ECRange} (hr : r ∈ m.allRanges)
    (he : r.ec = e) : Coherent (m.rmRange e r) L := by
  refine ⟨h.sorted.erase r, fun e' => ?_, fun q hq => ?_, fun e' he' q => ?_⟩
  · simp only [EqClassMgr.rmRange]
    split_ifs
    · exact (h.classSorted e').erase r
    · exact h.classSorted e'
  · exact h.owner q ((h.mem_rmRange hr).mp hq).1
  · rw [h.mem_rmRange hr]
    simp only [EqClassMgr.rmRange]
    split_ifs with hee
    · subst hee
      have hrm : r ∈ m.ranges e' := (h.agree e' he' r).mpr ⟨hr, he⟩
      have hqr : q ∈ m.ranges e' → (ECRange.Overlaps q r ↔ q = r) := fun hq =>
        ⟨(h.classSorted e').eq_of_equiv hq hrm, fun hqr => hqr ▸
          ECRange.overlaps_iff_exists.mpr ⟨q.lb, q.lb_mem, q.lb_mem⟩⟩
      rw [mem_erase, and_congr_right fun hq => not_congr (hqr hq), h.agree e' he' q]
      tauto
    · rw [h.agree e' he' q]
      refine and_congr_left fun hqe => ⟨fun hq => ⟨hq, ?_⟩, And.left⟩
      rintro rfl
      exact hee (hqe.symm.trans he)

theorem findEc_rmRange (h : Coherent m L) {e : EcPtr} {r : ECRange} (hr : r ∈ m.allRanges)
    (he : r.ec = e) (x : IPv4Address) :
    (m.rmRange e r).findEc x = if x ∈ r then none else m.findEc x := by
  have h' := h.rmRange hr he
  split_ifs with hx
  · refine (findEc_eq_none h'.sorted).mpr fun q hq hxq => ?_
    obtain ⟨hq, hne⟩ := (h.mem_rmRange hr).mp hq
    exact hne (h.sorted.eq_of_equiv hq hr (ECRange.overlaps_iff_exists.mpr ⟨x, hxq, hx⟩))
  · refine Option.ext fun e' => ?_
    rw [findEc_eq_some h'.sorted, findEc_eq_some h.sorted]
    constructor
    · rintro ⟨q, hq, hqe, hxq⟩
      exact ⟨q, ((h.mem_rmRange hr).mp hq).1, hqe, hxq⟩
    · rintro ⟨q, hq, hqe, hxq⟩
      exact ⟨q, (h.mem_rmRange hr).mpr ⟨hq, fun hqr => hx (hqr ▸ hxq)⟩, hqe, hxq⟩

end Coherent

end EqClassMgr

end Neo
