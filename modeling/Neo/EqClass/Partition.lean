import Neo.EqClass.Gaps
import Neo.Lib.Coarsest

/-! `add_ec` computes the coarsest partition. One call hands every class that meets the new
range and reaches beyond it a fresh object for the part inside, and all uncovered addresses of
the range one more; so labels are refined by the range, and a run refines by all its ranges. -/

namespace Neo

namespace EqClassMgr

open Ordered

/-- The manager `m` after the overlapped classes in `done` were handled, `m₀` being the manager
before the call. -/
structure Relabelled (range : ECRange) (owned : Bool) (done : EcPtr → Prop)
    (m₀ m : EqClassMgr) : Prop where
  outside : ∀ x, x ∉ range → m.findEc x = m₀.findEc x
  covered : ∀ x, m.findEc x = none ↔ m₀.findEc x = none
  inside : ∀ x y, x ∈ range → y ∈ range →
    (m.findEc x = m.findEc y ↔ m₀.findEc x = m₀.findEc y)
  todo : ∀ x e, x ∈ range → m₀.findEc x = some e → ¬ done e → m.findEc x = some e
  cut : ∀ x y e, x ∈ range → y ∉ range → m₀.findEc x = some e → done e →
    m.findEc x ≠ m.findEc y
  owners : ∀ x e, m.findEc x = some e → (e ∈ m.ownedEcs ↔
    ∃ e₀, m₀.findEc x = some e₀ ∧ (e₀ ∈ m₀.ownedEcs ∨ owned = true ∧ x ∈ range ∧ done e₀))

namespace Relabelled

variable {range : ECRange} {owned : Bool} {done : EcPtr → Prop} {m₀ m : EqClassMgr}

theorem init (range : ECRange) (owned : Bool) (m₀ : EqClassMgr) :
    Relabelled range owned (fun _ => False) m₀ m₀ where
  outside _ _ := rfl
  covered _ := Iff.rfl
  inside _ _ _ _ := Iff.rfl
  todo _ _ _ h _ := h
  cut _ _ _ _ _ _ h := h.elim
  owners x e h := by simp [h]

theorem findEc_iff (R : Relabelled range owned done m₀ m) {ec : EcPtr} (hdone : ¬ done ec)
    (hmeet : ∃ x ∈ range, m₀.findEc x = some ec) {x : IPv4Address} (hx : x ∈ range) :
    m.findEc x = some ec ↔ m₀.findEc x = some ec := by
  obtain ⟨z, hz, hze⟩ := hmeet
  simpa only [hze, R.todo z ec hz hze hdone] using R.inside x z hx hz

theorem keep (R : Relabelled range owned done m₀ m) {ec : EcPtr} (hdone : ¬ done ec)
    (hmeet : ∃ x ∈ range, m₀.findEc x = some ec)
    (hin : ∀ x, m.findEc x = some ec → x ∈ range) :
    Relabelled range owned (fun e => done e ∨ e = ec) m₀
      (if owned = true then m.insertOwned ec else m) := by
  have hlab : ∀ x, (if owned = true then m.insertOwned ec else m).findEc x = m.findEc x :=
    fun x => by split_ifs <;> rfl
  refine ⟨fun x hx => ?_, fun x => ?_, fun x y hx hy => ?_, fun x e hx he hne => ?_,
    fun x y e hx hy he hd => ?_, fun x e he => ?_⟩
  · rw [hlab, R.outside x hx]
  · rw [hlab, R.covered x]
  · rw [hlab, hlab, R.inside x y hx hy]
  · rw [hlab]
    exact R.todo x e hx he fun hd => hne (.inl hd)
  · rw [hlab, hlab]
    rcases hd with hd | rfl
    · exact R.cut x y e hx hy he hd
    · rw [(R.findEc_iff hdone hmeet hx).mpr he]
      exact fun hye => hy (hin y hye.symm)
  · rw [hlab] at he
    have hown : e ∈ (if owned = true then m.insertOwned ec else m).ownedEcs ↔
        e ∈ m.ownedEcs ∨ owned = true ∧ e = ec := by
      split_ifs with ho <;> simp [ho, or_comm]
    rw [hown, R.owners x e he]
    constructor
    · rintro (⟨e₀, he₀, ho | ⟨ho, hx, hd⟩⟩ | ⟨ho, rfl⟩)
      · exact ⟨e₀, he₀, .inl ho⟩
      · exact ⟨e₀, he₀, .inr ⟨ho, hx, .inl hd⟩⟩
      · have hx := hin x he
        exact ⟨e, (R.findEc_iff hdone hmeet hx).mp he, .inr ⟨ho, hx, .inr rfl⟩⟩
    · rintro ⟨e₀, he₀, ho | ⟨ho, hx, hd | rfl⟩⟩
      · exact .inl ⟨e₀, he₀, .inl ho⟩
      · exact .inl ⟨e₀, he₀, .inr ⟨ho, hx, hd⟩⟩
      · have := (R.findEc_iff hdone hmeet hx).mpr he₀
        exact .inr ⟨ho, Option.some.inj (he.symm.trans this)⟩

theorem move (R : Relabelled range owned done m₀ m) {ec new : EcPtr} {m' : EqClassMgr}
    (hdone : ¬ done ec) (hmeet : ∃ x ∈ range, m₀.findEc x = some ec)
    (hlab : ∀ x, m'.findEc x =
      if m.findEc x = some ec ∧ x ∈ range then some new else m.findEc x)
    (hnew : ∀ x, m.findEc x ≠ some new) (hnotOwned : new ∉ m.ownedEcs)
    (hown : ∀ e, e ∈ m'.ownedEcs ↔
      e ∈ m.ownedEcs ∨ e = new ∧ (owned = true ∨ ec ∈ m.ownedEcs)) :
    Relabelled range owned (fun e => done e ∨ e = ec) m₀ m' := by
  have hout : ∀ x, x ∉ range → m'.findEc x = m.findEc x := fun x hx => by
    rw [hlab, if_neg fun h => hx h.2]
  refine ⟨fun x hx => ?_, fun x => ?_, fun x y hx hy => ?_, fun x e hx he hne => ?_,
    fun x y e hx hy he hd => ?_, fun x e he => ?_⟩
  · rw [hout x hx, R.outside x hx]
  · rw [hlab, ← R.covered x]
    split_ifs with h
    · simp [h.1]
    · rfl
  · rw [← R.inside x y hx hy, hlab, hlab]
    by_cases h₁ : m.findEc x = some ec <;> by_cases h₂ : m.findEc y = some ec
    · simp [h₁, h₂, hx, hy]
    · simp [h₁, h₂, hx, Ne.symm (hnew y), Ne.symm h₂]
    · simp [h₁, h₂, hy, hnew x]
    · simp [h₁, h₂]
  · have := R.todo x e hx he fun hd => hne (.inl hd)
    rw [hlab, this, if_neg]
    rintro ⟨h, -⟩
    exact hne (.inr (Option.some.inj h))
  · -- an address outside the range keeps its class, and the new class is inside only
    rw [hout y hy, hlab]
    split_ifs with h
    · exact (hnew y).symm
    · rcases hd with hd | rfl
      · exact R.cut x y e hx hy he hd
      · exact absurd ⟨(R.findEc_iff hdone hmeet hx).mpr he, hx⟩ h
  · rw [hown]
    rw [hlab] at he
    split_ifs at he with h
    · obtain rfl := Option.some.inj he
      have hec := (R.findEc_iff hdone hmeet h.2).mp h.1
      have := R.owners x ec h.1
      simp only [hec, Option.some.injEq, exists_eq_left', hdone, and_false, or_false] at this
      simp only [hnotOwned, this, hec, h.2, Option.some.injEq, exists_eq_left']
      tauto
    · have hne : e ≠ new := fun hee => hnew x (hee ▸ he)
      simp only [hne, false_and, or_false]
      rw [R.owners x e he]
      refine exists_congr fun e₀ => and_congr_right fun he₀ => or_congr_right ?_
      refine and_congr_right fun _ => and_congr_right fun hx => ⟨.inl, fun hd => ?_⟩
      refine hd.resolve_right ?_
      rintro rfl
      exact h ⟨(R.findEc_iff hdone hmeet hx).mpr he₀, hx⟩

theorem addOverlappedEc {L : Set EcPtr} (R : Relabelled range owned done m₀ m) (h : Live m L)
    (A : Allocator) {ec : EcPtr} (hdone : ¬ done ec)
    (hmeet : ∃ x ∈ range, m₀.findEc x = some ec) :
    ∃ m' L', m.addOverlappedEc A range owned ec = some m' ∧ Live m' L' ∧
      Relabelled range owned (fun e => done e ∨ e = ec) m₀ m' ∧ (m'.Settled ↔ m.Settled) := by
  have hmeet' : ∃ x ∈ range, m.findEc x = some ec :=
    hmeet.imp fun x hx => ⟨hx.1, (R.findEc_iff hdone hmeet hx.1).mpr hx.2⟩
  have hec : ec ∈ L := by
    obtain ⟨x, -, hx⟩ := hmeet'
    exact h.findEc_mem hx
  obtain ⟨b, hb, hbiff⟩ := containsEc_spec h.toCoherent hec (hmeet'.imp fun _ h => h.2) range
  cases b with
  | true =>
    refine ⟨_, L, by rw [EqClassMgr.addOverlappedEc, hb]; rfl, ?_,
      R.keep hdone hmeet (hbiff.mp rfl), ?_⟩
    · split_ifs
      · refine ⟨h.toCoherent.insertOwned ec, h.alive, fun e he => ?_⟩
        rcases (mem_insertOwned ..).mp he with rfl | he
        · exact h.alive e hec
        · exact h.owned_alive e he
      · exact h
    · split_ifs
      · exact Iff.rfl
      · exact Iff.rfl
  | false =>
    obtain ⟨m', new, hm', hnew, hlive, hlab, hall, hown⟩ :=
      splitIntersectedEc_spec h A owned hec hmeet'
    have hout : ∃ x, m.findEc x = some ec ∧ x ∉ range := by
      by_contra hno
      refine absurd (hbiff.mpr fun x hx => ?_) Bool.false_ne_true
      by_contra hxr
      exact hno ⟨x, hx, hxr⟩
    refine ⟨m', insert new L, by rw [EqClassMgr.addOverlappedEc, hb]; exact hm', hlive, ?_,
      settled_split hnew hlab hall hmeet' hout⟩
    exact R.move hdone hmeet hlab (fun x hx => hnew (h.alive new (h.findEc_mem hx)))
      (fun ho => hnew (h.owned_alive new ho)) hown

theorem foldlM_addOverlappedEc (A : Allocator) :
    ∀ (ecs : List EcPtr) {done : EcPtr → Prop} {m : EqClassMgr} {L : Set EcPtr},
      Relabelled range owned done m₀ m → Live m L → ecs.Nodup → (∀ ec ∈ ecs, ¬ done ec) →
      (∀ ec ∈ ecs, ∃ x ∈ range, m₀.findEc x = some ec) →
      ∃ m' L', ecs.foldlM (EqClassMgr.addOverlappedEc A range owned) m = some m' ∧ Live m' L' ∧
        Relabelled range owned (fun e => done e ∨ e ∈ ecs) m₀ m' ∧
          (m'.Settled ↔ m.Settled) := by
  intro ecs
  induction ecs with
  | nil =>
    intro done m L R h _ _ _
    exact ⟨m, L, rfl, h, by simpa using R, Iff.rfl⟩
  | cons ec ecs ih =>
    intro done m L R h hn hd hm
    obtain ⟨hnot, hn⟩ := List.nodup_cons.mp hn
    obtain ⟨m₁, L₁, hm₁, h₁, R₁, hs₁⟩ :=
      R.addOverlappedEc h A (hd ec (List.mem_cons_self ..)) (hm ec (List.mem_cons_self ..))
    have hd₁ : ∀ e ∈ ecs, ¬ (done e ∨ e = ec) := by
      rintro e he (hde | rfl)
      · exact hd e (List.mem_cons_of_mem _ he) hde
      · exact hnot he
    obtain ⟨m', L', hm', h', R', hs'⟩ :=
      ih R₁ h₁ hn hd₁ fun e he => hm e (List.mem_cons_of_mem _ he)
    refine ⟨m', L', by rw [List.foldlM_cons, hm₁]; exact hm', h', ?_, hs'.trans hs₁⟩
    simpa only [List.mem_cons, or_assoc] using R'

/-! After the loop every class that meets the range was handled, and the gaps are filled. -/

section Gaps

variable {new : EcPtr} {m' : EqClassMgr}
  (R : Relabelled range owned (fun e => ∃ x ∈ range, m₀.findEc x = some e) m₀ m)
include R

theorem cut_of_mem {x y : IPv4Address} (hx : x ∈ range) (hy : y ∉ range)
    (hne : m₀.findEc x ≠ none) : m.findEc x ≠ m.findEc y := by
  obtain ⟨e, he⟩ := Option.ne_none_iff_exists'.mp hne
  exact R.cut x y e hx hy he ⟨x, hx, he⟩

theorem refinedBy (G : GapsAdded new range owned m m') (hnew : ∀ x, m.findEc x ≠ some new) :
    RefinedBy range.toIPRange.toSet m₀.findEc m'.findEc := by
  refine ⟨fun x hx => ?_, fun x hx => ?_, fun x y hx hy => ?_, fun x y hx hy => ?_⟩
  · rw [G.label, if_neg fun hc => hx hc.2, R.outside x hx]
  · rw [G.label]
    split_ifs with hc
    · rfl
    · exact Option.isSome_iff_ne_none.mpr fun hno => hc ⟨hno, hx⟩
  · have hx' : x ∈ range := hx
    have hy' : y ∈ range := hy
    rw [← R.inside x y hx hy, G.label, G.label]
    by_cases h₁ : m.findEc x = none <;> by_cases h₂ : m.findEc y = none
    · simp [h₁, h₂, hx', hy']
    · simp [h₁, h₂, hx', Ne.symm (hnew y), Ne.symm h₂]
    · simp [h₁, h₂, hy', hnew x]
    · simp [h₁, h₂]
  · have hout : ¬ (m.findEc y = none ∧ y ∈ range) := fun hc => hy hc.2
    rw [G.label x, G.label y, if_neg hout]
    split_ifs with hc
    · exact (hnew y).symm
    · exact R.cut_of_mem hx hy fun hno => hc ⟨(R.covered x).mpr hno, hx⟩

theorem owned_iff (G : GapsAdded new range owned m m') (hnew : ∀ x, m.findEc x ≠ some new)
    (hnotOwned : new ∉ m.ownedEcs) {x : IPv4Address} {e : EcPtr} (he : m'.findEc x = some e) :
    e ∈ m'.ownedEcs ↔
      (∃ e₀, m₀.findEc x = some e₀ ∧ e₀ ∈ m₀.ownedEcs) ∨ owned = true ∧ x ∈ range := by
  rw [G.owned x e he]
  rw [G.label] at he
  split_ifs at he with hc
  · obtain rfl := Option.some.inj he
    simp [hnotOwned, (R.covered x).mp hc.1, hc.2]
  · have hen : ¬ (e = new ∧ owned = true) := fun ho => hnew x (ho.1 ▸ he)
    rw [or_iff_left hen, R.owners x e he]
    constructor
    · rintro ⟨e₀, he₀, ho | ⟨ho, hx, -⟩⟩
      · exact .inl ⟨e₀, he₀, ho⟩
      · exact .inr ⟨ho, hx⟩
    · rintro (⟨e₀, he₀, ho⟩ | ⟨ho, hx⟩)
      · exact ⟨e₀, he₀, .inl ho⟩
      · cases hm : m₀.findEc x with
        | none => exact absurd ((R.covered x).mpr hm) (by simp [he])
        | some e₀ => exact ⟨e₀, rfl, .inr ⟨ho, hx, x, hx, hm⟩⟩

theorem ub_of_wraps (hsorted : Sorted ECRange.lt m.allRanges) (hwraps : m.Wraps range) :
    range.ub = lastAddr := by
  obtain ⟨-, r, hr, ho, hrub⟩ := hwraps
  by_contra hne
  obtain ⟨x, hxr, hx⟩ := ECRange.overlaps_iff_exists.mp ho
  have hout : r.ub ∉ range := fun hin => by
    have hle := (ECRange.mem_def.mp hin).2
    rw [hrub] at hle
    refine hne (BitVec.le_antisymm ?_ hle)
    rw [lastAddr]
    bv_omega
  have hxe := (findEc_eq_some hsorted).mpr ⟨r, hr, rfl, hxr⟩
  have hue := (findEc_eq_some hsorted).mpr ⟨r, hr, rfl, r.ub_mem⟩
  have hlabelled : m₀.findEc x ≠ none := fun hno => by
    rw [(R.covered x).mpr hno] at hxe
    exact Option.some_ne_none _ hxe.symm
  exact R.cut_of_mem hx hout hlabelled (hxe.trans hue.symm)

theorem rest_settled_iff (G : GapsAdded new range owned m m')
    (hsorted : Sorted ECRange.lt m.allRanges) :
    m'.Settled ↔ m.Settled ∧ (range.ub = lastAddr → ∃ x ∈ range, m₀.findEc x = none) := by
  have hnone : (∃ x ∈ range, m₀.findEc x = none) ↔ ∃ x ∈ range, m.findEc x = none :=
    exists_congr fun x => and_congr_right fun _ => (R.covered x).symm
  rw [hnone]
  rcases G.settled with ⟨hleaves, hiff⟩ | ⟨hwraps, hnot⟩
  · rw [hiff]
    refine (and_iff_left fun hub => ?_).symm
    exact hleaves.resolve_right fun hne => hne hub
  · refine iff_of_false hnot fun hall => ?_
    obtain ⟨x, hx, hxn⟩ := hall.2 (R.ub_of_wraps hsorted hwraps)
    exact hwraps.1 x hx hxn

end Gaps

end Relabelled

/-! ### One call, and any sequence of calls -/

theorem addEc_spec {m : EqClassMgr} {L : Set EcPtr} (h : Live m L) (A : Allocator)
    (range : IPRange) (owned : Bool) :
    ∃ m' L', m.addEc A range owned = some m' ∧ Live m' L' ∧
      RefinedBy range.toSet m.findEc m'.findEc ∧
      (∀ x e, m'.findEc x = some e → (e ∈ m'.ownedEcs ↔
        (∃ e₀, m.findEc x = some e₀ ∧ e₀ ∈ m.ownedEcs) ∨ owned = true ∧ x ∈ range)) ∧
      (m'.Settled ↔ m.Settled ∧
        (range.ub = lastAddr → ∃ x ∈ range, m.findEc x = none)) := by
  have hmem : ∀ e, e ∈ m.getOverlappedEcs (ECRange.ofRange range) false ↔
      ∃ x ∈ ECRange.ofRange range, m.findEc x = some e :=
    fun e => by simp [mem_getOverlappedEcs h.sorted]
  have hnodup : (m.getOverlappedEcs (ECRange.ofRange range) false).Nodup := by
    rw [getOverlappedEcs_eq h.sorted]
    exact (sorted_ofList _).imp fun hab => Nat.ne_of_lt hab
  obtain ⟨m₁, L₁, hm₁, h₁, R, hs₁⟩ :=
    (Relabelled.init (ECRange.ofRange range) owned m).foldlM_addOverlappedEc A _ h
      hnodup (fun _ _ => id) fun ec hec => (hmem ec).mp hec
  simp only [false_or, hmem] at R
  obtain ⟨new, L₂, hnew, h₂, G⟩ := addNonOverlappedEc_spec h₁ A (ECRange.ofRange range) owned
  have hfresh : ∀ x, m₁.findEc x ≠ some new := fun x hx => hnew (h₁.alive new (h₁.findEc_mem hx))
  have hnotOwned : new ∉ m₁.ownedEcs := fun ho => hnew (h₁.owned_alive new ho)
  refine ⟨_, L₂, by rw [addEc, hm₁]; rfl, h₂, R.refinedBy G hfresh,
    fun x e he => R.owned_iff G hfresh hnotOwned he, ?_⟩
  rw [← hs₁]
  exact R.rest_settled_iff G h₁.sorted

/-- The arguments of one call of `add_ec`. -/
structure EcCall where
  range : IPRange
  owned : Bool

/-- `add_ec` on each of a sequence of arguments. -/
def addEcs (A : Allocator) (calls : List EcCall) (m : EqClassMgr) : Option EqClassMgr :=
  calls.foldlM (fun m c => m.addEc A c.range c.owned) m

/-- What holds after the calls `calls`, in any order. -/
structure Added (calls : Set EcCall) (m : EqClassMgr) : Prop where
  live : ∃ L, Live m L
  coarsest : Coarsest ((fun c => c.range.toSet) '' calls) m.findEc
  owners : ∀ x e, m.findEc x = some e →
    (e ∈ m.ownedEcs ↔ ∃ c ∈ calls, c.owned = true ∧ x ∈ c.range)

theorem added_reset : Added ∅ reset where
  live := ⟨∅, ⟨List.Pairwise.nil, fun _ => List.Pairwise.nil, by simp [reset], by simp⟩,
    by simp, by simp [reset]⟩
  coarsest := by
    rw [Set.image_empty]
    exact Coarsest.empty
  owners _ _ h := by simp [reset, findEc, find, equalRange, lowerBound] at h

namespace Added

variable {calls : Set EcCall} {m : EqClassMgr}

theorem addEc (h : Added calls m) (A : Allocator) (c : EcCall) :
    ∃ m', m.addEc A c.range c.owned = some m' ∧ Added (insert c calls) m' ∧
      (m'.Settled ↔ m.Settled ∧
        (c.range.ub = lastAddr → ∃ x ∈ c.range, ∀ d ∈ calls, x ∉ d.range)) := by
  obtain ⟨L, hL⟩ := h.live
  obtain ⟨m', L', hm', h', hR, hown, hs⟩ := addEc_spec hL A c.range c.owned
  have hfree : ∀ x, m.findEc x = none ↔ ∀ d ∈ calls, x ∉ d.range := fun x => by
    rw [← Option.not_isSome_iff_eq_none, h.coarsest.covers]
    simp
  simp only [hfree] at hs
  refine ⟨m', hm', ⟨⟨L', h'⟩, ?_, fun x e he => ?_⟩, hs⟩
  · rw [Set.image_insert_eq]
    exact h.coarsest.insert hR
  · rw [hown x e he]
    simp only [Set.mem_insert_iff, exists_eq_or_imp]
    rw [or_comm]
    refine or_congr_right ⟨?_, ?_⟩
    · rintro ⟨e₀, he₀, ho⟩
      exact (h.owners x e₀ he₀).mp ho
    · rintro ⟨d, hd, ho, hx⟩
      have hsome := (h.coarsest.covers x).mpr ⟨_, ⟨d, hd, rfl⟩, hx⟩
      obtain ⟨e₀, he₀⟩ := Option.isSome_iff_exists.mp hsome
      exact ⟨e₀, he₀, (h.owners x e₀ he₀).mpr ⟨d, hd, ho, hx⟩⟩

theorem addEcs (A : Allocator) (l : List EcCall) :
    ∀ {calls : Set EcCall} {m : EqClassMgr}, Added calls m →
      ∃ m', m.addEcs A l = some m' ∧ Added ({c | c ∈ l} ∪ calls) m' := by
  induction l with
  | nil => exact fun {_ m} h => ⟨m, rfl, by simpa using h⟩
  | cons c l ih =>
    intro calls m h
    obtain ⟨m₁, hm₁, h₁, -⟩ := h.addEc A c
    obtain ⟨m', hm', h'⟩ := ih h₁
    refine ⟨m', by rw [EqClassMgr.addEcs, List.foldlM_cons, hm₁]; exact hm', ?_⟩
    convert h' using 1
    ext d
    simp only [Set.mem_union, Set.mem_ofPred_eq, List.mem_cons, Set.mem_insert_iff]
    tauto

theorem findEc_isSome (h : Added calls m) (x : IPv4Address) :
    (m.findEc x).isSome ↔ ∃ c ∈ calls, x ∈ c.range := by
  simp [h.coarsest.covers x]

theorem findEc_eq_iff (h : Added calls m) (x y : IPv4Address) :
    m.findEc x = m.findEc y ↔ ∀ c ∈ calls, x ∈ c.range ↔ y ∈ c.range := by
  simp [h.coarsest.separates x y]

theorem mem_getOverlappedEcs (h : Added calls m) (range : IPRange) (ownedOnly : Bool)
    (e : EcPtr) :
    e ∈ m.getOverlappedEcs (.ofRange range) ownedOnly ↔
      (∃ x ∈ range, m.findEc x = some e) ∧
        (ownedOnly = true → ∃ c ∈ calls, c.owned = true ∧
          ∀ y, m.findEc y = some e → y ∈ c.range) := by
  obtain ⟨L, hL⟩ := h.live
  rw [EqClassMgr.mem_getOverlappedEcs hL.sorted]
  simp only [ECRange.mem_ofRange]
  refine and_congr_right fun hx => imp_congr_right fun _ => ?_
  obtain ⟨x, -, hxe⟩ := hx
  rw [h.owners x e hxe]
  refine exists_congr fun c => and_congr_right fun hc => and_congr_right fun _ => ?_
  exact ⟨fun hx y hy => ((h.findEc_eq_iff x y).mp (hxe.trans hy.symm) c hc).mp hx,
    fun hall => hall x hxe⟩

end Added

/-- From `reset`, any calls succeed and leave the coarsest partition their ranges allow. -/
theorem addEcs_coarsest (A : Allocator) (calls : List EcCall) :
    ∃ m, reset.addEcs A calls = some m ∧
      (∀ x, (m.findEc x).isSome ↔ ∃ c ∈ calls, x ∈ c.range) ∧
      (∀ x y, (m.findEc x).isSome → (m.findEc y).isSome →
        (m.findEc x = m.findEc y ↔ ∀ c ∈ calls, x ∈ c.range ↔ y ∈ c.range)) ∧
      ∀ range ownedOnly e, e ∈ m.getOverlappedEcs (.ofRange range) ownedOnly ↔
        (∃ x ∈ range, m.findEc x = some e) ∧
          (ownedOnly = true → ∃ c ∈ calls, c.owned = true ∧
            ∀ y, m.findEc y = some e → y ∈ c.range) := by
  obtain ⟨m, hm, h⟩ := added_reset.addEcs A calls
  rw [Set.union_empty] at h
  exact ⟨m, hm, h.findEc_isSome, fun x y _ _ => h.findEc_eq_iff x y, h.mem_getOverlappedEcs⟩

end EqClassMgr

end Neo
