import Neo.EqClass.Split
import Mathlib.Data.List.TakeWhile

/-! The rest of one call of `add_ec`: the uncovered addresses of a range go to one fresh class,
and the classes that meet a range are found through the ranges that overlap it. -/

namespace Neo

namespace EqClassMgr

open Ordered

/-! ### Uncovered addresses -/

/-- The unlabelled addresses of `range` between `n` and `n'` went to `new`, and from `n'` on
none is labelled. Bounds are natural numbers: the next gap may start behind the last address. -/
structure Filled (L : Set EcPtr) (new : EcPtr) (range : ECRange) (n n' : Nat)
    (m m' : EqClassMgr) : Prop where
  le : n ≤ n'
  coherent : Coherent m' L
  label : ∀ x, m'.findEc x =
    if m.findEc x = none ∧ x ∈ range ∧ n ≤ x.toNat ∧ x.toNat < n' then some new else m.findEc x
  rest : ∀ x ∈ range, n' ≤ x.toNat → m'.findEc x = none
  kept : ∀ q ∈ m.allRanges, q ∈ m'.allRanges
  allEcs : m'.allEcs = m.allEcs
  ownedEcs : m'.ownedEcs = m.ownedEcs

section Gaps
variable {L : Set EcPtr} {new : EcPtr} {range : ECRange}

theorem toNat_add_one {a : IPv4Address} : a + 1 = BitVec.ofNat 32 (a.toNat + 1) := by
  bv_omega

theorem filled_gap {m : EqClassMgr} {n : Nat} {r : ECRange} {rs : List ECRange}
    (h : Coherent m L) (hnew : new ∈ L) (hlb : range.lb.toNat ≤ n)
    (hs : Sorted ECRange.lt (r :: rs)) (hr : r ∈ m.allRanges)
    (ho : ECRange.Overlaps r range) (hn : n ≤ r.ub.toNat)
    (hc : ∀ x ∈ range, n ≤ x.toNat → m.findEc x ≠ none → ∃ q ∈ r :: rs, x ∈ q) :
    Coherent (m.fillGap new (BitVec.ofNat 32 n) r) L ∧
      (∀ x, (m.fillGap new (BitVec.ofNat 32 n) r).findEc x =
        if m.findEc x = none ∧ x ∈ range ∧ n ≤ x.toNat ∧ x.toNat < r.ub.toNat + 1 then some new
        else m.findEc x) ∧
      (∀ q ∈ m.allRanges, q ∈ (m.fillGap new (BitVec.ofNat 32 n) r).allRanges) ∧
      (m.fillGap new (BitVec.ofNat 32 n) r).allEcs = m.allEcs ∧
      (m.fillGap new (BitVec.ofNat 32 n) r).ownedEcs = m.ownedEcs := by
  obtain ⟨hlo, hhi⟩ := ECRange.overlaps_iff.mp ho
  have hinr : ∀ x ∈ r, m.findEc x ≠ none := fun x hx hno =>
    (findEc_eq_none h.sorted).mp hno r hr hx
  -- nothing before `r` is covered, since the ranges after `r` lie behind it
  have hbefore : ∀ x : IPv4Address, n ≤ x.toNat → x < r.lb → m.findEc x = none := fun x hx hxr => by
    by_contra hne
    obtain ⟨q, hq, hxq⟩ := hc x ⟨by bv_omega, by bv_omega⟩ hx hne
    have hxq' := ECRange.mem_def.mp hxq
    rcases List.mem_cons.mp hq with rfl | hq
    · bv_omega
    · have : r.ub < q.lb := (List.pairwise_cons.mp hs).1 q hq
      have := r.le
      bv_omega
  unfold fillGap
  split_ifs with hlt
  · have hgap : n < r.lb.toNat := by bv_omega
    have hfree : ∀ x ∈ (⟨⟨BitVec.ofNat 32 n, r.lb - 1, by bv_omega⟩, new⟩ : ECRange),
        m.findEc x = none := fun x hx => by
      have hx' := ECRange.mem_def.mp hx
      exact hbefore x (by bv_omega) (by bv_omega)
    refine ⟨h.addRange rfl hnew hfree, fun x => ?_, fun q hq => mem_insert_of_mem hq, rfl, rfl⟩
    rw [h.findEc_addRange rfl hnew hfree]
    refine if_congr ?_ rfl rfl
    rw [ECRange.mem_def]
    constructor
    · rintro ⟨h₁, h₂⟩
      have hle := r.le
      have hx : x < r.lb := by bv_omega
      have hxr : x ≤ range.ub := BitVec.le_trans (BitVec.le_of_lt hx) hhi
      exact ⟨hbefore x (by bv_omega) hx, ⟨by bv_omega, hxr⟩, by bv_omega, by bv_omega⟩
    · rintro ⟨hno, -, h₁, h₂⟩
      have : ¬ r.lb ≤ x := fun hlb => hinr x ⟨hlb, by bv_omega⟩ hno
      exact ⟨by bv_omega, by bv_omega⟩
  · refine ⟨h, fun x => ?_, fun q hq => hq, rfl, rfl⟩
    rw [if_neg]
    rintro ⟨hno, -, h₁, h₂⟩
    exact hinr x ⟨by bv_omega, by bv_omega⟩ hno

theorem fillGaps_spec (range : ECRange) (hnew : new ∈ L) :
    ∀ (rs : List ECRange) (n : Nat) (m : EqClassMgr), Coherent m L → range.lb.toNat ≤ n →
      n ≤ 2 ^ 32 → Sorted ECRange.lt rs →
      (∀ r ∈ rs, r ∈ m.allRanges ∧ ECRange.Overlaps r range ∧ n ≤ r.ub.toNat) →
      (∀ x ∈ range, n ≤ x.toNat → m.findEc x ≠ none → ∃ r ∈ rs, x ∈ r) →
      ∃ n' ≤ 2 ^ 32, (fillGaps new rs (BitVec.ofNat 32 n) m).1 = BitVec.ofNat 32 n' ∧
        Filled L new range n n' m (fillGaps new rs (BitVec.ofNat 32 n) m).2 ∧
        (n' = n ∨ ∃ r ∈ rs, n' = r.ub.toNat + 1) := by
  intro rs
  induction rs with
  | nil =>
    intro n m h _ hle _ _ hc
    have hrest : ∀ x ∈ range, n ≤ x.toNat → m.findEc x = none := fun x hx hn => by
      by_contra hne
      simpa using hc x hx hn hne
    refine ⟨n, hle, rfl, ⟨le_rfl, h, fun x => ?_, hrest, fun q hq => hq, rfl, rfl⟩, .inl rfl⟩
    rw [if_neg]
    · rfl
    · rintro ⟨-, -, h₁, h₂⟩
      omega
  | cons r rs ih =>
    intro n m h hlb hle hs hrs hc
    obtain ⟨hr, ho, hn⟩ := hrs r (List.mem_cons_self ..)
    have hrest := (List.pairwise_cons.mp hs).1
    obtain ⟨h₁, f₁, k₁, a₁, o₁⟩ := filled_gap h hnew hlb hs hr ho hn hc
    simp only [fillGaps]
    -- after the gap before `r` the same holds from the address behind `r` on
    set m₁ := m.fillGap new (BitVec.ofNat 32 n) r
    have hrs₁ : ∀ q ∈ rs, q ∈ m₁.allRanges ∧ ECRange.Overlaps q range ∧
        r.ub.toNat + 1 ≤ q.ub.toNat := fun q hq => by
      obtain ⟨hqm, hqo, -⟩ := hrs q (List.mem_cons_of_mem _ hq)
      have : r.ub < q.lb := hrest q hq
      have := q.le
      exact ⟨k₁ q hqm, hqo, by bv_omega⟩
    have hc₁ : ∀ x ∈ range, r.ub.toNat + 1 ≤ x.toNat → m₁.findEc x ≠ none → ∃ q ∈ rs, x ∈ q := by
      intro x hx hxn hne
      rw [f₁, if_neg (by omega)] at hne
      obtain ⟨q, hq, hxq⟩ := hc x hx (by omega) hne
      rcases List.mem_cons.mp hq with rfl | hq
      · have := (ECRange.mem_def.mp hxq).2
        bv_omega
      · exact ⟨q, hq, hxq⟩
    obtain ⟨n', hn', hfst, F, hend⟩ := ih (r.ub.toNat + 1) m₁ h₁ (by omega)
      (by have := r.ub.isLt; omega) (List.pairwise_cons.mp hs).2 hrs₁ hc₁
    rw [← toNat_add_one] at hfst F
    have hge := F.le
    refine ⟨n', hn', hfst, ⟨by omega, F.coherent, fun x => ?_, F.rest, fun q hq => ?_,
      F.allEcs.trans a₁, F.ownedEcs.trans o₁⟩, .inr ?_⟩
    · rw [F.label, f₁]
      by_cases hno : m.findEc x = none <;> by_cases hxr : x ∈ range <;>
        by_cases hx : x.toNat < r.ub.toNat + 1
      · have h₁ : ¬ r.ub.toNat + 1 ≤ x.toNat := by omega
        have h₂ : x.toNat < n' := by omega
        simp [hno, hxr, hx, h₁, h₂]
      · have h₁ : r.ub.toNat + 1 ≤ x.toNat := by omega
        have h₂ : n ≤ x.toNat := by omega
        simp [hno, hxr, hx, h₁, h₂]
      all_goals simp [hno, hxr]
    · exact F.kept q (k₁ q hq)
    · rcases hend with rfl | ⟨q, hq, hqn⟩
      · exact ⟨r, List.mem_cons_self .., rfl⟩
      · exact ⟨q, List.mem_cons_of_mem _ hq, hqn⟩

theorem Coherent.drop {m : EqClassMgr} (h : Coherent m (insert new L))
    (hno : ∀ x, m.findEc x ≠ some new) : Coherent m L := by
  refine ⟨h.sorted, h.classSorted, fun r hr => ?_, fun e he => h.agree e (.inr he)⟩
  refine (h.owner r hr).resolve_left fun he => hno r.lb ?_
  exact (findEc_eq_some h.sorted).mpr ⟨r, hr, he, r.lb_mem⟩

theorem Coherent.addRange_of_overlaps {m : EqClassMgr} (h : Coherent m (insert new L))
    (hnew : new ∉ L) {q r : ECRange} (hq : q ∈ m.allRanges) (hqr : ECRange.Overlaps q r)
    (hall : ∀ p ∈ m.ranges new, ECRange.Overlaps p r) :
    ∃ L', (L' = insert new L ∧ m.ranges new ≠ [] ∨
        L' = L ∧ m.ranges new = [] ∧ (m.addRange new r).ranges new ≠ []) ∧
      Coherent (m.addRange new r) L' ∧ ∀ x, (m.addRange new r).findEc x = m.findEc x := by
  have hsame : (m.addRange new r).allRanges = m.allRanges := insert_eq_self h.sorted hq hqr
  have hfind : ∀ x, (m.addRange new r).findEc x = m.findEc x := fun x => by rw [findEc, hsame]; rfl
  cases hr : m.ranges new with
  | nil =>
    have hd := h.drop ((h.ranges_eq_nil (.inl rfl)).mp hr)
    have hadded : (m.addRange new r).ranges new ≠ [] := by
      simp [EqClassMgr.addRange, hr, Ordered.insert]
    refine ⟨L, .inr ⟨rfl, rfl, hadded⟩,
      ⟨hsame ▸ h.sorted, fun e => ?_, hsame ▸ hd.owner, fun e he p => ?_⟩, hfind⟩
    · simp only [EqClassMgr.addRange]
      split_ifs
      · exact (h.classSorted e).insert r
      · exact h.classSorted e
    · have hne : e ≠ new := fun hee => hnew (hee ▸ he)
      rw [hsame, ← hd.agree e he p]
      simp only [EqClassMgr.addRange, if_neg hne]
  | cons p ps =>
    have hp : p ∈ m.ranges new := hr ▸ List.mem_cons_self ..
    refine ⟨insert new L, .inl ⟨rfl, List.cons_ne_nil _ _⟩, ?_, hfind⟩
    have hm : m.addRange new r = m := by
      have hranges : (m.addRange new r).ranges = m.ranges := funext fun e => by
        simp only [EqClassMgr.addRange]
        split_ifs with he
        · exact he ▸ insert_eq_self (h.classSorted new) hp (hall p hp)
        · rfl
      calc m.addRange new r = ⟨(m.addRange new r).allRanges, (m.addRange new r).ranges, m.allEcs,
            m.ownedEcs, m.allocs⟩ := rfl
        _ = m := by rw [hsame, hranges]
    rwa [hm]

def lastAddr : IPv4Address := 0xFFFFFFFF#32

/-- All addresses of the range have a class, and an overlapped range ends at the last address:
then the last gap seems to begin at the first address. -/
def Wraps (m : EqClassMgr) (range : ECRange) : Prop :=
  (∀ x ∈ range, m.findEc x ≠ none) ∧
    ∃ r ∈ m.allRanges, ECRange.Overlaps r range ∧ r.ub = lastAddr

/-- Some address of the range has no class, or the range does not reach the last address. -/
def Leaves (m : EqClassMgr) (range : ECRange) : Prop :=
  (∃ x ∈ range, m.findEc x = none) ∨ range.ub ≠ lastAddr

/-- All gaps of `range` went to `new`. Where the bound of the last one wrapped, `new` may have a
range that no address belongs to. -/
structure GapsFilled (L L' : Set EcPtr) (new : EcPtr) (range : ECRange) (m m' : EqClassMgr) :
    Prop where
  coherent : Coherent m' L'
  label : ∀ x, m'.findEc x = if m.findEc x = none ∧ x ∈ range then some new else m.findEc x
  allEcs : m'.allEcs = m.allEcs
  ownedEcs : m'.ownedEcs = m.ownedEcs
  owners : L' = insert new L ∧ m.Leaves range ∨ L' = L ∧ m'.ranges new ≠ [] ∧ m.Wraps range

namespace Filled

variable {m m' : EqClassMgr} {n' : Nat}

theorem label_of_end (F : Filled (insert new L) new range range.lb.toNat n' m m')
    {x : IPv4Address} (hx : n' ≤ x.toNat → range.ub < x) :
    m'.findEc x = if m.findEc x = none ∧ x ∈ range then some new else m.findEc x := by
  rw [F.label]
  refine if_congr (and_congr_right fun _ => ⟨And.left, fun hxr => ⟨hxr, ?_, ?_⟩⟩) rfl rfl
  · exact (ECRange.mem_def.mp hxr).1
  · by_contra hlt
    have := (ECRange.mem_def.mp hxr).2
    have := hx (by omega)
    bv_omega

theorem lb_mem (F : Filled (insert new L) new range range.lb.toNat n' m m')
    (hno : ∀ x, m.findEc x ≠ some new) {p : ECRange} (hp : p ∈ m'.ranges new) :
    p.lb ∈ range ∧ m.findEc p.lb = none := by
  have hpl : m'.findEc p.lb = some new :=
    (F.coherent.findEc_iff (.inl rfl)).mpr ⟨p, hp, p.lb_mem⟩
  rw [F.label] at hpl
  split_ifs at hpl with hpc
  · exact ⟨hpc.2.1, hpc.1⟩
  · exact absurd hpl (hno p.lb)

theorem leaves (F : Filled (insert new L) new range range.lb.toNat n' m m') (hn : n' ≤ 2 ^ 32)
    (hwrap : n' ≠ 2 ^ 32) : m.Leaves range := by
  by_contra hno'
  obtain ⟨hfull, hub⟩ := not_or.mp hno'
  rw [ne_eq, not_not, lastAddr] at hub
  have hnone : m'.findEc range.ub = none := F.rest range.ub range.ub_mem (by bv_omega)
  rw [F.label] at hnone
  split_ifs at hnone
  exact hfull ⟨range.ub, range.ub_mem, hnone⟩

theorem last_of_ne (F : Filled (insert new L) new range range.lb.toNat n' m m') (hn : n' ≤ 2 ^ 32)
    (hwrap : n' ≠ 2 ^ 32) :
    GapsFilled L (insert new L) new range m
      (m'.fillLastGap new range (BitVec.ofNat 32 n')) := by
  have hge := F.le
  have hleaves := F.leaves hn hwrap
  by_cases hle : BitVec.ofNat 32 n' ≤ range.ub
  · have hfree : ∀ x ∈ (⟨⟨BitVec.ofNat 32 n', range.ub, hle⟩, new⟩ : ECRange),
        m'.findEc x = none := fun x hx => by
      have hx' := ECRange.mem_def.mp hx
      dsimp only at hx'
      exact F.rest x ⟨by bv_omega, hx'.2⟩ (by bv_omega)
    simp only [fillLastGap, hle, ↓reduceDIte]
    refine ⟨F.coherent.addRange rfl (.inl rfl) hfree, fun x => ?_, F.allEcs, F.ownedEcs,
      .inl ⟨rfl, hleaves⟩⟩
    rw [F.coherent.findEc_addRange rfl (.inl rfl) hfree]
    split_ifs with hx hx' hx'
    · rfl
    · have hxn := hfree x hx
      have hx₂ := ECRange.mem_def.mp hx
      dsimp only at hx₂
      rw [F.label] at hxn
      split_ifs at hxn with hxc
      exact absurd ⟨hxn, by bv_omega, hx₂.2⟩ hx'
    · rw [F.label_of_end, if_pos hx']
      intro hxn
      by_contra hlt
      exact hx ⟨by bv_omega, by bv_omega⟩
    · rw [F.label, if_neg]
      exact fun hc => hx' ⟨hc.1, hc.2.1⟩
  · -- the last overlapped range ends behind the new one
    simp only [fillLastGap, hle, ↓reduceDIte]
    refine ⟨F.coherent, fun x => F.label_of_end fun hx => ?_, F.allEcs, F.ownedEcs,
      .inl ⟨rfl, hleaves⟩⟩
    bv_omega

/-- Behind a range that ends at the last address the bound wraps to zero, and the range up to the
end of the new one meets that last range. -/
theorem last_of_wrap (F : Filled (insert new L) new range range.lb.toNat n' m m')
    (hwrap : n' = 2 ^ 32) (hnew : new ∉ L) (hno : ∀ x, m.findEc x ≠ some new) {r : ECRange}
    (hr : r ∈ m.allRanges) (hro : ECRange.Overlaps r range) (hub : r.ub = lastAddr) :
    ∃ L', GapsFilled L L' new range m (m'.fillLastGap new range (BitVec.ofNat 32 n')) := by
  have hzero : ∀ a : IPv4Address, BitVec.ofNat 32 n' ≤ a := fun a => by bv_omega
  have hle := hzero range.ub
  have hmeet : ∀ p ∈ m'.ranges new, ECRange.Overlaps p
      { lb := BitVec.ofNat 32 n', ub := range.ub, ec := new, le := hle } := fun p hp =>
    ECRange.overlaps_iff.mpr ⟨hzero _, (ECRange.mem_def.mp (F.lb_mem hno hp).1).2⟩
  simp only [fillLastGap, hle, ↓reduceDIte]
  obtain ⟨L', hL', hc, hf⟩ := F.coherent.addRange_of_overlaps
    (r := { lb := BitVec.ofNat 32 n', ub := range.ub, ec := new, le := hle }) hnew
    (F.kept r hr) (ECRange.overlaps_iff.mpr ⟨hzero _, (ECRange.overlaps_iff.mp hro).2⟩) hmeet
  refine ⟨L', hc, fun x => ?_, F.allEcs, F.ownedEcs, ?_⟩
  · rw [hf, F.label_of_end fun hx => by have := x.isLt; omega]
  · rcases hL' with ⟨rfl, hne⟩ | ⟨rfl, hnil, hne⟩
    · -- the class has an address, which had none before
      obtain ⟨p, hp⟩ := List.exists_mem_of_ne_nil _ hne
      obtain ⟨hpr, hpn⟩ := F.lb_mem hno hp
      exact .inl ⟨rfl, .inl ⟨p.lb, hpr, hpn⟩⟩
    · refine .inr ⟨rfl, hne, fun x hx hxn => ?_, r, hr, hro, hub⟩
      have hfilled : m'.findEc x = some new := by
        have hlb := (ECRange.mem_def.mp hx).1
        have hlt := x.isLt
        rw [F.label, if_pos ⟨hxn, hx, by bv_omega, by omega⟩]
      exact (F.coherent.ranges_eq_nil (.inl rfl)).mp hnil x hfilled

theorem last {rs : List ECRange} (F : Filled (insert new L) new range range.lb.toNat n' m m')
    (hnew : new ∉ L) (hno : ∀ x, m.findEc x ≠ some new) (hn : n' ≤ 2 ^ 32)
    (hrs : ∀ r ∈ rs, r ∈ m.allRanges ∧ ECRange.Overlaps r range)
    (hend : n' = range.lb.toNat ∨ ∃ r ∈ rs, n' = r.ub.toNat + 1) :
    ∃ L', GapsFilled L L' new range m (m'.fillLastGap new range (BitVec.ofNat 32 n')) := by
  by_cases hwrap : n' = 2 ^ 32
  · obtain ⟨r, hr, hrn⟩ := hend.resolve_left (by have := range.lb.isLt; omega)
    obtain ⟨hrm, hro⟩ := hrs r hr
    exact F.last_of_wrap hwrap hnew hno hrm hro (by rw [lastAddr]; bv_omega)
  · exact ⟨_, F.last_of_ne hn hwrap⟩

end Filled

end Gaps

theorem mem_overlappedRanges {m : EqClassMgr} (h : Sorted ECRange.lt m.allRanges)
    {range r : ECRange} :
    r ∈ m.overlappedRanges range ↔ r ∈ m.allRanges ∧ ECRange.Overlaps r range := by
  simp only [overlappedRanges, ECRange.Overlaps, takeWhile_dropWhile_equiv h, List.mem_filter,
    decide_eq_true_eq]

theorem sorted_overlappedRanges {m : EqClassMgr} (h : Sorted ECRange.lt m.allRanges)
    (range : ECRange) : Sorted ECRange.lt (m.overlappedRanges range) :=
  h.sublist ((List.takeWhile_sublist _).trans (List.dropWhile_sublist _))

theorem settled_gap {m m' : EqClassMgr} {new : EcPtr} {range : ECRange} (hnew : new ∉ m.allEcs)
    (hlab : ∀ x, m'.findEc x =
      if m.findEc x = none ∧ x ∈ range then some new else m.findEc x)
    (hall : ∀ e, e ∈ m'.allEcs ↔ e = new ∨ e ∈ m.allEcs) (hgap : ∃ x, m'.findEc x = some new) :
    m'.Settled ↔ m.Settled := by
  constructor
  · intro h e he
    obtain ⟨x, hx⟩ := h e ((hall e).mpr (.inr he))
    rw [hlab] at hx
    split_ifs at hx with hc
    · exact absurd (Option.some.inj hx ▸ he) hnew
    · exact ⟨x, hx⟩
  · intro h e he
    rcases (hall e).mp he with rfl | he
    · exact hgap
    · obtain ⟨x, hx⟩ := h e he
      have hne : m.findEc x ≠ none := by
        rw [hx]
        exact Option.some_ne_none e
      exact ⟨x, by rw [hlab, if_neg fun hc => hne hc.1, hx]⟩

theorem gapsFilled {m : EqClassMgr} {L : Set EcPtr} {new : EcPtr}
    (h : Coherent m (insert new L)) (hnew : new ∉ L) (hno : ∀ x, m.findEc x ≠ some new)
    (range : ECRange) :
    ∃ L', GapsFilled L L' new range m
      ((fillGaps new (m.overlappedRanges range) range.lb m).2.fillLastGap new range
        (fillGaps new (m.overlappedRanges range) range.lb m).1) := by
  have hrs : ∀ r ∈ m.overlappedRanges range, r ∈ m.allRanges ∧ ECRange.Overlaps r range :=
    fun r hr => (mem_overlappedRanges h.sorted).mp hr
  obtain ⟨n', hn', hfst, F, hend⟩ := fillGaps_spec range (.inl rfl) (m.overlappedRanges range)
    range.lb.toNat m h le_rfl range.lb.isLt.le (sorted_overlappedRanges h.sorted range)
    (fun r hr => ⟨(hrs r hr).1, (hrs r hr).2, (ECRange.overlaps_iff.mp (hrs r hr).2).1⟩)
    (fun x hx _ hne => by
      obtain ⟨e, he⟩ := Option.ne_none_iff_exists'.mp hne
      obtain ⟨r, hr, -, hxr⟩ := (findEc_eq_some h.sorted).mp he
      exact ⟨r, (mem_overlappedRanges h.sorted).mpr
        ⟨hr, ECRange.overlaps_iff_exists.mpr ⟨x, hxr, hx⟩⟩, hxr⟩)
  rw [BitVec.ofNat_toNat, BitVec.setWidth_eq] at hfst F
  rw [hfst]
  exact F.last hnew hno hn' hrs hend

/-- What `add_non_overlapped_ec` does to a manager: the labels it changes, the class that becomes
owned, and whether every class still has addresses. -/
structure GapsAdded (new : EcPtr) (range : ECRange) (owned : Bool) (m m' : EqClassMgr) :
    Prop where
  label : ∀ x, m'.findEc x = if m.findEc x = none ∧ x ∈ range then some new else m.findEc x
  owned : ∀ x e, m'.findEc x = some e →
    (e ∈ m'.ownedEcs ↔ e ∈ m.ownedEcs ∨ e = new ∧ owned = true)
  settled : m.Leaves range ∧ (m'.Settled ↔ m.Settled) ∨ m.Wraps range ∧ ¬ m'.Settled

namespace GapsFilled

variable {m m' : EqClassMgr} {L L' : Set EcPtr} {new : EcPtr} {range : ECRange}

theorem dropped (G : GapsFilled L L' new range m m') (h : Live m L)
    (hnil : m'.ranges new = []) (owned : Bool) :
    Live m' L ∧ GapsAdded new range owned m m' := by
  have hleaves : L' = insert new L ∧ m.Leaves range :=
    G.owners.resolve_right fun hL' => hL'.2.1 hnil
  have hc : Coherent m' (insert new L) := hleaves.1 ▸ G.coherent
  have hno : ∀ x, m'.findEc x ≠ some new := (hc.ranges_eq_nil (.inl rfl)).mp hnil
  have hsame : ∀ x, m'.findEc x = m.findEc x := by
    intro x
    have hx := hno x
    rw [G.label] at hx ⊢
    split_ifs at hx ⊢
    · exact absurd rfl hx
    · rfl
  refine ⟨⟨hc.drop hno, fun e he => G.allEcs ▸ h.alive e he,
    fun e he => G.allEcs ▸ h.owned_alive e (G.ownedEcs ▸ he)⟩, G.label, fun x e hx => ?_,
    .inl ⟨hleaves.2, ?_⟩⟩
  · have hne : e ≠ new := fun he => hno x (he ▸ hx)
    rw [G.ownedEcs]
    exact ⟨.inl, fun ho => ho.resolve_right fun he => hne he.1⟩
  · unfold Settled
    simp only [G.allEcs, hsame]

theorem settled (G : GapsFilled L L' new range m m') (hnew : new ∉ m.allEcs) (hnewL : new ∉ L)
    (hne : m'.ranges new ≠ []) :
    m.Leaves range ∧ ((m'.insertEc new).Settled ↔ m.Settled) ∨
      m.Wraps range ∧ ¬ (m'.insertEc new).Settled := by
  have hc := G.coherent
  have hmem : ∀ e, e ∈ (m'.insertEc new).allEcs ↔ e = new ∨ e ∈ m.allEcs := fun e => by
    rw [mem_insertEc, G.allEcs]
  rcases G.owners with ⟨rfl, hleaves⟩ | ⟨rfl, -, hwraps⟩
  · have hgap : ∃ x, m'.findEc x = some new := by
      by_contra hnone
      exact hne ((hc.ranges_eq_nil (.inl rfl)).mpr (not_exists.mp hnone))
    exact .inl ⟨hleaves, settled_gap hnew G.label hmem hgap⟩
  · refine .inr ⟨hwraps, fun hs => ?_⟩
    obtain ⟨x, hx⟩ := hs new ((hmem new).mpr (.inl rfl))
    exact hnewL (hc.findEc_mem hx)

theorem kept (G : GapsFilled L L' new range m m') (h : Live m L) (hnew : new ∉ m.allEcs)
    (hnewL : new ∉ L) (hne : m'.ranges new ≠ []) (owned : Bool) :
    Live (if owned then (m'.insertEc new).insertOwned new else m'.insertEc new) L' ∧
      GapsAdded new range owned m
        (if owned then (m'.insertEc new).insertOwned new else m'.insertEc new) := by
  have halive : ∀ e ∈ L', e = new ∨ e ∈ m'.allEcs := fun e he => by
    rw [G.allEcs]
    rcases G.owners with ⟨rfl, -⟩ | ⟨rfl, -⟩
    · exact he.imp_right (h.alive e)
    · exact .inr (h.alive e he)
  have howned : ∀ e ∈ m'.ownedEcs, e ∈ m'.allEcs := fun e he => by
    rw [G.allEcs]
    exact h.owned_alive e (G.ownedEcs ▸ he)
  refine ⟨G.coherent.keep _ halive howned, fun x => ?_, fun x e _ => ?_, ?_⟩
  · rw [findEc_keep, G.label]
  · rw [mem_ownedEcs_keep, G.ownedEcs]
  · have hsettled := G.settled hnew hnewL hne
    cases owned with
    | true => exact hsettled
    | false => exact hsettled

end GapsFilled

theorem addNonOverlappedEc_spec {m : EqClassMgr} {L : Set EcPtr} (h : Live m L) (A : Allocator)
    (range : ECRange) (owned : Bool) :
    ∃ new L', new ∉ m.allEcs ∧ Live (m.addNonOverlappedEc A range owned) L' ∧
      GapsAdded new range owned m (m.addNonOverlappedEc A range owned) := by
  obtain ⟨hnew, h₁⟩ := h.newEc A h.alive
  have hnewL : (m.newEc A).1 ∉ L := fun he => hnew (h.alive _ he)
  obtain ⟨L', hG⟩ := gapsFilled h₁ hnewL (fun x hx => hnewL (h.findEc_mem hx)) range
  -- the fresh object changes neither the ranges nor the sets of the manager
  have G : GapsFilled L L' (m.newEc A).1 range m
      ((fillGaps (m.newEc A).1 (m.overlappedRanges range) range.lb (m.newEc A).2).2.fillLastGap
        (m.newEc A).1 range
        (fillGaps (m.newEc A).1 (m.overlappedRanges range) range.lb (m.newEc A).2).1) :=
    ⟨hG.coherent, hG.label, hG.allEcs, hG.ownedEcs, hG.owners⟩
  unfold addNonOverlappedEc
  simp only
  split_ifs with hnil howned
  · exact ⟨_, L, hnew, G.dropped h hnil owned⟩
  · subst howned
    exact ⟨_, L', hnew, G.kept h hnew hnewL hnil true⟩
  · rw [Bool.not_eq_true] at howned
    subst howned
    exact ⟨_, L', hnew, G.kept h hnew hnewL hnil false⟩

/-! ### Overlapped classes -/

theorem getOverlappedEcs_eq {m : EqClassMgr} (h : Sorted ECRange.lt m.allRanges)
    (range : ECRange) (ownedOnly : Bool) :
    m.getOverlappedEcs range ownedOnly = ofList (· < ·)
      (((equalRange ECRange.lt range m.allRanges).filter
        fun r => !ownedOnly || decide (r.ec ∈ m.ownedEcs)).map ECRange.ec) := by
  have hbefore : (m.allRanges.takeWhile fun r => ECRange.lt r range).reverse.takeWhile
      (fun r => ECRange.Overlaps r range) = [] := by
    cases hb : (m.allRanges.takeWhile fun r => ECRange.lt r range).reverse with
    | nil => rfl
    | cons r rs =>
      have hr : ECRange.lt r range := by
        have := List.mem_takeWhile_imp (List.mem_reverse.mp (hb ▸ List.mem_cons_self ..))
        simpa using this
      exact List.takeWhile_cons_of_neg (by simpa using fun ho : ECRange.Overlaps r range => ho.1 hr)
  have hafter : (lowerBound ECRange.lt range m.allRanges).takeWhile
      (fun r => ECRange.Overlaps r range) = equalRange ECRange.lt range m.allRanges := by
    exact takeWhile_lowerBound_equiv h range
  unfold getOverlappedEcs
  cases hf : find ECRange.lt range m.allRanges with
  | none =>
    have : equalRange ECRange.lt range m.allRanges = [] := List.head?_eq_none_iff.mp hf
    simp [this]
    rfl
  | some r => simp only [hbefore, hafter, List.nil_append]

theorem mem_getOverlappedEcs {m : EqClassMgr} (h : Sorted ECRange.lt m.allRanges)
    {range : ECRange} {ownedOnly : Bool} {e : EcPtr} :
    e ∈ m.getOverlappedEcs range ownedOnly ↔
      (∃ x ∈ range, m.findEc x = some e) ∧ (ownedOnly = true → e ∈ m.ownedEcs) := by
  rw [getOverlappedEcs_eq h, mem_ofList]
  simp only [List.mem_map, List.mem_filter, mem_equalRange h, Bool.or_eq_true, Bool.not_eq_true',
    decide_eq_true_eq]
  constructor
  · rintro ⟨r, ⟨⟨hr, ho⟩, hown⟩, rfl⟩
    obtain ⟨x, hxr, hx⟩ := ECRange.overlaps_iff_exists.mp ho
    refine ⟨⟨x, hx, (findEc_eq_some h).mpr ⟨r, hr, rfl, hxr⟩⟩, fun hoo => ?_⟩
    exact hown.resolve_left (by simp [hoo])
  · rintro ⟨⟨x, hx, hxe⟩, hown⟩
    obtain ⟨r, hr, rfl, hxr⟩ := (findEc_eq_some h).mp hxe
    refine ⟨r, ⟨⟨hr, ECRange.overlaps_iff_exists.mpr ⟨x, hxr, hx⟩⟩, ?_⟩, rfl⟩
    cases ownedOnly with
    | true => exact .inr (hown rfl)
    | false => exact .inl rfl

theorem containsEc_spec {m : EqClassMgr} {L : Set EcPtr} (h : Coherent m L) {e : EcPtr}
    (he : e ∈ L) (hx : ∃ x, m.findEc x = some e) (range : ECRange) :
    ∃ b, m.containsEc range e = some b ∧
      (b = true ↔ ∀ x, m.findEc x = some e → x ∈ range) := by
  have hne : m.ranges e ≠ [] := fun hnil => by
    obtain ⟨x, hx⟩ := hx
    exact (h.ranges_eq_nil he).mp hnil x hx
  obtain ⟨first, rest, hfirst⟩ := List.exists_cons_of_ne_nil hne
  obtain ⟨init, last, hlast⟩ := (m.ranges e).eq_nil_or_concat.resolve_left hne
  have hs := h.classSorted e
  -- no range of the class begins before the first or ends behind the last
  have hlow : ∀ r ∈ m.ranges e, first.lb ≤ r.lb := fun r hr => by
    rw [hfirst] at hs hr
    rcases List.mem_cons.mp hr with rfl | hr
    · exact BitVec.le_refl _
    · have : first.ub < r.lb := (List.pairwise_cons.mp hs).1 r hr
      have := first.le
      bv_omega
  have hhigh : ∀ r ∈ m.ranges e, r.ub ≤ last.ub := fun r hr => by
    rw [hlast, List.concat_eq_append] at hs hr
    rcases List.mem_append.mp hr with hr | hr
    · have : r.ub < last.lb := (List.pairwise_append.mp hs).2.2 r hr last (by simp)
      have := last.le
      bv_omega
    · rw [List.mem_singleton.mp hr]
      exact BitVec.le_refl _
  have hfm : first ∈ m.ranges e := hfirst ▸ List.mem_cons_self ..
  have hlm : last ∈ m.ranges e := by rw [hlast]; simp
  refine ⟨range.lb ≤ first.lb && last.ub ≤ range.ub, ?_, ?_⟩
  · have h₁ : (m.ranges e).head? = some first := by rw [hfirst]; rfl
    have h₂ : (m.ranges e).getLast? = some last := by rw [hlast]; simp
    simp [containsEc, h₁, h₂]
  · simp only [Bool.and_eq_true, decide_eq_true_eq]
    constructor
    · rintro ⟨hl, hu⟩ x hxe
      obtain ⟨r, hr, hxr⟩ := (h.findEc_iff he).mp hxe
      exact ⟨BitVec.le_trans hl (BitVec.le_trans (hlow r hr) hxr.1),
        BitVec.le_trans hxr.2 (BitVec.le_trans (hhigh r hr) hu)⟩
    · intro hall
      exact ⟨(hall _ ((h.findEc_iff he).mpr ⟨first, hfm, first.lb_mem⟩)).1,
        (hall _ ((h.findEc_iff he).mpr ⟨last, hlm, last.ub_mem⟩)).2⟩

end EqClassMgr

end Neo
