import Neo.EqClass.Coherent

/-! Splitting a class by a range that meets it and does not contain it: the addresses inside
get a fresh class, all others keep theirs. -/

namespace Neo

namespace ECRange

theorem mem_below_iff {r range : ECRange} (h : Overlaps r range) {x : IPv4Address} :
    (∃ q, r.below range = some q ∧ x ∈ q) ↔ x ∈ r ∧ x < range.lb := by
  cases hq : r.below range with
  | none =>
    have := below_eq_none hq x
    simp only [reduceCtorEq, false_and, exists_false, false_iff, not_and, BitVec.not_lt]
    exact this
  | some q => simpa using (mem_below h hq).2 x

theorem mem_above_iff {r range : ECRange} (h : Overlaps r range) {x : IPv4Address} :
    (∃ q, r.above range = some q ∧ x ∈ q) ↔ x ∈ r ∧ range.ub < x := by
  cases hq : r.above range with
  | none =>
    have := above_eq_none hq x
    simp only [reduceCtorEq, false_and, exists_false, false_iff, not_and, BitVec.not_lt]
    exact this
  | some q => simpa using (mem_above h hq).2 x

end ECRange

namespace EqClassMgr

open Ordered

section Frame
variable (m : EqClassMgr) (e : EcPtr) (r : ECRange)

@[simp] theorem addRange_allEcs : (m.addRange e r).allEcs = m.allEcs := rfl
@[simp] theorem addRange_ownedEcs : (m.addRange e r).ownedEcs = m.ownedEcs := rfl
@[simp] theorem rmRange_allEcs : (m.rmRange e r).allEcs = m.allEcs := rfl
@[simp] theorem rmRange_ownedEcs : (m.rmRange e r).ownedEcs = m.ownedEcs := rfl
@[simp] theorem insertEc_findEc (x : IPv4Address) : (m.insertEc e).findEc x = m.findEc x := rfl
@[simp] theorem insertEc_ownedEcs : (m.insertEc e).ownedEcs = m.ownedEcs := rfl
@[simp] theorem insertOwned_findEc (x : IPv4Address) :
    (m.insertOwned e).findEc x = m.findEc x := rfl
@[simp] theorem insertOwned_allEcs : (m.insertOwned e).allEcs = m.allEcs := rfl

@[simp] theorem addRange?_allEcs (o : Option ECRange) :
    (m.addRange? e o).allEcs = m.allEcs := by
  cases o <;> rfl

@[simp] theorem addRange?_ownedEcs (o : Option ECRange) :
    (m.addRange? e o).ownedEcs = m.ownedEcs := by
  cases o <;> rfl

@[simp] theorem mem_insertEc {e' : EcPtr} :
    e' ∈ (m.insertEc e).allEcs ↔ e' = e ∨ e' ∈ m.allEcs :=
  mem_insert_linear

@[simp] theorem mem_insertOwned {e' : EcPtr} :
    e' ∈ (m.insertOwned e).ownedEcs ↔ e' = e ∨ e' ∈ m.ownedEcs :=
  mem_insert_linear

end Frame

namespace Coherent

variable {m : EqClassMgr} {L : Set EcPtr}

theorem insertEc (h : Coherent m L) (e : EcPtr) : Coherent (m.insertEc e) L :=
  ⟨h.sorted, h.classSorted, h.owner, h.agree⟩

theorem insertOwned (h : Coherent m L) (e : EcPtr) : Coherent (m.insertOwned e) L :=
  ⟨h.sorted, h.classSorted, h.owner, h.agree⟩

theorem newEc (h : Coherent m L) (A : Allocator) (hL : ∀ e ∈ L, e ∈ m.allEcs) :
    (m.newEc A).1 ∉ m.allEcs ∧ Coherent (m.newEc A).2 (insert (m.newEc A).1 L) := by
  have hnew : A.addr m.allocs m.allEcs ∉ m.allEcs := A.fresh _ _
  refine ⟨hnew, h.sorted, fun e => ?_, fun r hr => .inr (h.owner r hr), fun e he r => ?_⟩
  · simp only [EqClassMgr.newEc]
    split_ifs
    · exact List.Pairwise.nil
    · exact h.classSorted e
  · simp only [EqClassMgr.newEc] at he ⊢
    split_ifs with hee
    · simp only [List.not_mem_nil, false_iff, not_and]
      rintro hr rfl
      exact hnew (hee ▸ hL _ (h.owner r hr))
    · exact h.agree e (he.resolve_left hee) r

theorem addRange? (h : Coherent m L) {e : EcPtr} {o : Option ECRange} (heL : e ∈ L)
    (ho : ∀ q, o = some q → q.ec = e ∧ ∀ x ∈ q, m.findEc x = none) :
    Coherent (m.addRange? e o) L := by
  cases o with
  | none => exact h
  | some q => exact h.addRange (ho q rfl).1 heL (ho q rfl).2

theorem findEc_addRange? (h : Coherent m L) {e : EcPtr} {o : Option ECRange} (heL : e ∈ L)
    (ho : ∀ q, o = some q → q.ec = e ∧ ∀ x ∈ q, m.findEc x = none) {x : IPv4Address}
    {p : Prop} [Decidable p] (hp : (∃ q, o = some q ∧ x ∈ q) ↔ p) :
    (m.addRange? e o).findEc x = if p then some e else m.findEc x := by
  cases o with
  | none => rw [if_neg fun h => by simpa using hp.mpr h]; rfl
  | some q =>
    have hq : x ∈ q ↔ p := by simpa using hp
    simp only [EqClassMgr.addRange?, h.findEc_addRange (ho q rfl).1 heL (ho q rfl).2, hq]

end Coherent

theorem mem_addRange?_of_mem {m : EqClassMgr} {e : EcPtr} {o : Option ECRange} {q : ECRange}
    (hq : q ∈ m.allRanges) : q ∈ (m.addRange? e o).allRanges := by
  cases o with
  | none => exact hq
  | some r => exact mem_insert_of_mem hq

/-! ### Splitting a class -/

section Split
variable {m : EqClassMgr} {L : Set EcPtr} {ec new : EcPtr} (range : ECRange)

theorem splitRange_spec (h : Coherent m L) (hec : ec ∈ L) (hnew : new ∈ L) {r : ECRange}
    (hr : r ∈ m.allRanges) (hre : r.ec = ec) :
    Coherent (m.splitRange ec new range r) L ∧
      (∀ x, (m.splitRange ec new range r).findEc x =
        if x ∈ r ∧ x ∈ range then some new else m.findEc x) ∧
      (∀ q ∈ m.allRanges, q ≠ r → q ∈ (m.splitRange ec new range r).allRanges) ∧
      (m.splitRange ec new range r).allEcs = m.allEcs ∧
      (m.splitRange ec new range r).ownedEcs = m.ownedEcs := by
  by_cases ho : ECRange.Overlaps r range
  swap
  · have hs : m.splitRange ec new range r = m := by rw [splitRange, dif_neg ho]
    rw [hs]
    refine ⟨h, fun x => ?_, fun q hq _ => hq, rfl, rfl⟩
    rw [if_neg fun hx => ho (ECRange.overlaps_iff_exists.mpr ⟨x, hx⟩)]
  rw [splitRange, dif_pos ho]
  dsimp only
  -- the range is taken out, then its parts below, above and inside come back
  have h₁ := h.rmRange hr hre
  have f₁ := h.findEc_rmRange hr hre
  have hb : ∀ q, r.below range = some q →
      q.ec = ec ∧ ∀ x ∈ q, (m.rmRange ec r).findEc x = none := fun q hq => by
    obtain ⟨hqe, hqm⟩ := ECRange.mem_below ho hq
    exact ⟨hqe.trans hre, fun x hx => by rw [f₁, if_pos ((hqm x).mp hx).1]⟩
  have h₂ := h₁.addRange? hec hb
  have f₂ := fun x => h₁.findEc_addRange? hec hb (ECRange.mem_below_iff ho (x := x))
  have ha : ∀ q, r.above range = some q → q.ec = ec ∧
      ∀ x ∈ q, ((m.rmRange ec r).addRange? ec (r.below range)).findEc x = none := fun q hq => by
    obtain ⟨hqe, hqm⟩ := ECRange.mem_above ho hq
    refine ⟨hqe.trans hre, fun x hx => ?_⟩
    have hx' := (hqm x).mp hx
    have := range.le
    rw [f₂, if_neg (by rintro ⟨-, h⟩; bv_omega), f₁, if_pos hx'.1]
  have h₃ := h₂.addRange? hec ha
  have f₃ := fun x => h₂.findEc_addRange? hec ha (ECRange.mem_above_iff ho (x := x))
  have hw : ∀ x ∈ r.within range new ho, (((m.rmRange ec r).addRange? ec
      (r.below range)).addRange? ec (r.above range)).findEc x = none := fun x hx => by
    have hx' := (ECRange.mem_within ho).mp hx
    have hx'' := ECRange.mem_def.mp hx'.2
    rw [f₃, if_neg (by rintro ⟨-, h⟩; bv_omega), f₂, if_neg (by rintro ⟨-, h⟩; bv_omega),
      f₁, if_pos hx'.1]
  refine ⟨h₃.addRange rfl hnew hw, fun x => ?_, fun q hq hqr => ?_, by simp, by simp⟩
  · have hwe : (r.within range new ho).ec = new := rfl
    rw [h₃.findEc_addRange hwe hnew hw, f₃, f₂, f₁]
    simp only [ECRange.mem_within]
    by_cases hxr : x ∈ r
    · have hxe : m.findEc x = some ec := (findEc_eq_some h.sorted).mpr ⟨r, hr, hre, hxr⟩
      by_cases hx : x ∈ range
      · simp [hxr, hx]
      · have hx' : range.ub < x ∨ x < range.lb := by
          rw [ECRange.mem_def] at hx
          bv_omega
        rcases hx' with hx' | hx' <;> simp [hxr, hx, hx', hxe]
    · simp [hxr]
  · exact mem_insert_of_mem (mem_addRange?_of_mem (mem_addRange?_of_mem
      ((h.mem_rmRange hr).mpr ⟨hq, hqr⟩)))

theorem foldl_splitRange (hec : ec ∈ L) (hnew : new ∈ L) :
    ∀ (l : List ECRange) (m : EqClassMgr), Coherent m L → l.Nodup →
      (∀ r ∈ l, r ∈ m.allRanges ∧ r.ec = ec) →
      Coherent (l.foldl (fun m r => m.splitRange ec new range r) m) L ∧
        (∀ x, (l.foldl (fun m r => m.splitRange ec new range r) m).findEc x =
          if (∃ r ∈ l, x ∈ r) ∧ x ∈ range then some new else m.findEc x) ∧
        (l.foldl (fun m r => m.splitRange ec new range r) m).allEcs = m.allEcs ∧
        (l.foldl (fun m r => m.splitRange ec new range r) m).ownedEcs = m.ownedEcs := by
  intro l
  induction l with
  | nil => exact fun m h _ _ => ⟨h, fun x => by simp, rfl, rfl⟩
  | cons r l ih =>
    intro m h hn hl
    obtain ⟨hr, hre⟩ := hl r (List.mem_cons_self ..)
    obtain ⟨h₁, f₁, hk, he, ho⟩ := splitRange_spec range h hec hnew hr hre
    have hl' : ∀ q ∈ l, q ∈ (m.splitRange ec new range r).allRanges ∧ q.ec = ec := fun q hq => by
      obtain ⟨hqm, hqe⟩ := hl q (List.mem_cons_of_mem _ hq)
      exact ⟨hk q hqm fun hqr => (List.nodup_cons.mp hn).1 (hqr ▸ hq), hqe⟩
    obtain ⟨h₂, f₂, he₂, ho₂⟩ := ih _ h₁ (List.nodup_cons.mp hn).2 hl'
    refine ⟨h₂, fun x => ?_, he₂.trans he, ho₂.trans ho⟩
    rw [List.foldl_cons, f₂, f₁]
    by_cases hx : x ∈ range <;> by_cases hxr : x ∈ r <;> simp [hx, hxr]

end Split

/-- The manager between two calls: every object that owns addresses is alive. -/
structure Live (m : EqClassMgr) (L : Set EcPtr) : Prop extends Coherent m L where
  alive : ∀ e ∈ L, e ∈ m.allEcs
  owned_alive : ∀ e ∈ m.ownedEcs, e ∈ m.allEcs

def Settled (m : EqClassMgr) : Prop := ∀ e ∈ m.allEcs, ∃ x, m.findEc x = some e

theorem settled_split {m m' : EqClassMgr} {ec new : EcPtr} {range : ECRange}
    (hnew : new ∉ m.allEcs)
    (hlab : ∀ x, m'.findEc x =
      if m.findEc x = some ec ∧ x ∈ range then some new else m.findEc x)
    (hall : ∀ e, e ∈ m'.allEcs ↔ e = new ∨ e ∈ m.allEcs)
    (hmeet : ∃ x ∈ range, m.findEc x = some ec) (hout : ∃ x, m.findEc x = some ec ∧ x ∉ range) :
    m'.Settled ↔ m.Settled := by
  constructor
  · intro h e he
    obtain ⟨x, hx⟩ := h e ((hall e).mpr (.inr he))
    rw [hlab] at hx
    split_ifs at hx with hc
    · exact absurd (Option.some.inj hx ▸ he) hnew
    · exact ⟨x, hx⟩
  · intro h e he
    rcases (hall e).mp he with rfl | he
    · obtain ⟨x, hx, hxe⟩ := hmeet
      exact ⟨x, by rw [hlab, if_pos ⟨hxe, hx⟩]⟩
    · by_cases hec : e = ec
      · obtain ⟨x, hxe, hx⟩ := hout
        exact ⟨x, by rw [hlab, if_neg fun hc => hx hc.2, hec, hxe]⟩
      · obtain ⟨x, hx⟩ := h e he
        have hne : m.findEc x ≠ some ec := by
          rw [hx]
          exact fun heq => hec (Option.some.inj heq)
        exact ⟨x, by rw [hlab, if_neg fun hc => hne hc.1, hx]⟩

/-! A fresh class is kept in a manager whose ranges it has, and owned under some condition. -/

section Keep

variable {m : EqClassMgr} {new : EcPtr} {own : Prop} [Decidable own]

theorem mem_allEcs_keep {e : EcPtr} :
    e ∈ (if own then (m.insertEc new).insertOwned new else m.insertEc new).allEcs ↔
      e = new ∨ e ∈ m.allEcs := by
  split_ifs <;> exact mem_insertEc ..

theorem mem_ownedEcs_keep {e : EcPtr} :
    e ∈ (if own then (m.insertEc new).insertOwned new else m.insertEc new).ownedEcs ↔
      e ∈ m.ownedEcs ∨ e = new ∧ own := by
  split_ifs with h
  · rw [mem_insertOwned, insertEc_ownedEcs, and_iff_left h]
    exact or_comm
  · rw [insertEc_ownedEcs, or_iff_left fun hand => h hand.2]

theorem findEc_keep {x : IPv4Address} :
    (if own then (m.insertEc new).insertOwned new else m.insertEc new).findEc x = m.findEc x := by
  split_ifs <;> rfl

theorem Coherent.keep {L : Set EcPtr} (h : Coherent m L) (own : Prop) [Decidable own]
    (halive : ∀ e ∈ L, e = new ∨ e ∈ m.allEcs) (howned : ∀ e ∈ m.ownedEcs, e ∈ m.allEcs) :
    Live (if own then (m.insertEc new).insertOwned new else m.insertEc new) L := by
  refine ⟨?_, fun e he => mem_allEcs_keep.mpr (halive e he), fun e he => ?_⟩
  · split_ifs
    · exact (h.insertEc new).insertOwned new
    · exact h.insertEc new
  · rcases mem_ownedEcs_keep.mp he with he | ⟨rfl, -⟩
    · exact mem_allEcs_keep.mpr (.inr (howned e he))
    · exact mem_allEcs_keep.mpr (.inl rfl)

end Keep

theorem splitIntersectedEc_spec {m : EqClassMgr} {L : Set EcPtr} (h : Live m L) (A : Allocator)
    {ec : EcPtr} {range : ECRange} (owned : Bool) (hec : ec ∈ L)
    (hmeet : ∃ x ∈ range, m.findEc x = some ec) :
    ∃ m' new, m.splitIntersectedEc A ec range owned = some m' ∧ new ∉ m.allEcs ∧
      Live m' (insert new L) ∧
      (∀ x, m'.findEc x = if m.findEc x = some ec ∧ x ∈ range then some new else m.findEc x) ∧
      (∀ e, e ∈ m'.allEcs ↔ e = new ∨ e ∈ m.allEcs) ∧
      ∀ e, e ∈ m'.ownedEcs ↔ e ∈ m.ownedEcs ∨ e = new ∧ (owned = true ∨ ec ∈ m.ownedEcs) := by
  obtain ⟨hnew, h₁⟩ := h.newEc A h.alive
  set new := (m.newEc A).1 with hnewdef
  have hmem : ∀ r ∈ m.ranges ec, r ∈ (m.newEc A).2.allRanges ∧ r.ec = ec :=
    fun r hr => (h.agree ec hec r).mp hr
  have hnodup : (m.ranges ec).Nodup := (h.classSorted ec).imp fun {a b} hab he => by
    have := b.le
    change a.ub < b.lb at hab
    subst he
    bv_omega
  obtain ⟨h₂, f₂, he₂, ho₂⟩ := foldl_splitRange range (.inr hec : ec ∈ insert new L)
    (.inl rfl) (m.ranges ec) _ h₁ hnodup hmem
  set m₂ := (m.ranges ec).foldl (fun m r => m.splitRange ec new range r) (m.newEc A).2 with hm₂
  have hlab : ∀ x, m₂.findEc x =
      if m.findEc x = some ec ∧ x ∈ range then some new else m.findEc x := fun x => by
    rw [f₂]
    simp only [h.findEc_iff hec]
    rfl
  have hall : ∀ e, e ∈ m₂.allEcs ↔ e ∈ m.allEcs := fun e => by
    rw [he₂]
    rfl
  have howned : ∀ e, e ∈ m₂.ownedEcs ↔ e ∈ m.ownedEcs := fun e => by
    rw [ho₂]
    rfl
  -- the class that is split has addresses in the range, so the assertion holds
  have hnil : m₂.ranges new ≠ [] := fun hn => by
    obtain ⟨x, hx, hxe⟩ := hmeet
    exact (h₂.ranges_eq_nil (.inl rfl)).mp hn x (by rw [hlab, if_pos ⟨hxe, hx⟩])
  have hresult : m.splitIntersectedEc A ec range owned =
      some (if owned = true ∨ ec ∈ (m₂.insertEc new).ownedEcs then
        (m₂.insertEc new).insertOwned new else m₂.insertEc new) := by
    unfold splitIntersectedEc
    simp only [← hnewdef, ← hm₂]
    rw [if_neg hnil]
  refine ⟨_, new, hresult, hnew, h₂.keep _ ?_ ?_, fun x => ?_, fun e => ?_, fun e => ?_⟩
  · exact fun e he => he.imp_right fun he => (hall e).mpr (h.alive e he)
  · exact fun e he => (hall e).mpr (h.owned_alive e ((howned e).mp he))
  · rw [findEc_keep, hlab]
  · rw [mem_allEcs_keep, hall]
  · rw [mem_ownedEcs_keep, insertEc_ownedEcs, howned, howned]

end EqClassMgr

end Neo
