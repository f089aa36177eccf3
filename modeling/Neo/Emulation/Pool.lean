import Neo.Emulation.Inject
import Mathlib.Data.List.TakeWhile

/-! The pool of emulations. Each is filed once, under its middlebox and history. The search for an
emulation of a middlebox starts in front of the first history that is not less, and so leaves the
map where there is nothing in front of it. -/

namespace Neo

namespace NodePacketHistory

theorem packetsLt_iff {a b : List PacketPtr} : packetsLt a b = true ↔ a < b := by
  induction a generalizing b with
  | nil => cases b <;> simp [packetsLt]
  | cons p a ih =>
    cases b with
    | nil => simp [packetsLt]
    | cons q b =>
      rw [packetsLt, List.cons_lt_cons_iff]
      by_cases hpq : p = q
      · simp [hpq, ih]
      · simp [hpq]

theorem lt_iff {a b : NodePacketHistory} : lt a b = true ↔ a.reverse < b.reverse := by
  unfold lt
  split_ifs with hab ha hb
  · simp [hab]
  · subst ha
    have hb : b.reverse ≠ [] := fun hnil => hab (List.reverse_eq_nil_iff.mp hnil).symm
    obtain ⟨q, l, hq⟩ := List.exists_cons_of_ne_nil hb
    rw [hq]
    simp
  · simp [hb]
  · exact packetsLt_iff

theorem lt_trans {a b c : NodePacketHistory} (hab : lt a b = true) (hbc : lt b c = true) :
    lt a c = true := by
  rw [lt_iff] at hab hbc ⊢
  exact hab.trans hbc

theorem lt_irrefl (a : NodePacketHistory) : ¬ lt a a = true := by
  rw [lt_iff]
  exact fun h => h.ne rfl

theorem eq_of_not_lt {a b : NodePacketHistory} (hab : ¬ lt a b = true) (hba : ¬ lt b a = true) :
    a = b := by
  rw [lt_iff] at hab hba
  exact List.reverse_injective (le_antisymm (not_lt.mp hba) (not_lt.mp hab))

end NodePacketHistory

namespace NphMap

variable {nph k : NodePacketHistory} {emu : EmuPtr} {m m' : NphMap}

def slot (m : NphMap) (nph : NodePacketHistory) : List EmuPtr := (m.lookup nph).getD []

/-- The histories are in order, and under each there are emulations, none of them twice. -/
structure WellFormed (m : NphMap) : Prop where
  sorted : m.Pairwise fun x y => NodePacketHistory.lt x.1 y.1 = true
  nonempty : ∀ x ∈ m, x.2 ≠ []
  nodup : ∀ x ∈ m, x.2.Nodup

theorem slot_nil (nph : NodePacketHistory) : slot [] nph = [] := rfl

theorem slot_cons (x : NodePacketHistory × List EmuPtr) (m : NphMap) (nph : NodePacketHistory) :
    slot (x :: m) nph = if nph = x.1 then x.2 else slot m nph := by
  unfold slot
  rw [List.lookup_cons]
  by_cases h : nph = x.1
  · rw [if_pos h, h, beq_self_eq_true]
    rfl
  · rw [if_neg h, beq_eq_false_iff_ne.mpr h]

theorem mem_of_mem_slot (h : emu ∈ slot m nph) : ∃ x ∈ m, x.1 = nph ∧ x.2 = slot m nph := by
  induction m with
  | nil => simp [slot_nil] at h
  | cons x m ih =>
    rw [slot_cons] at h ⊢
    split_ifs at h ⊢ with hx
    · exact ⟨x, List.mem_cons_self .., hx.symm, rfl⟩
    · obtain ⟨y, hy, hyk⟩ := ih h
      exact ⟨y, List.mem_cons_of_mem _ hy, hyk⟩

theorem slot_eq_nil (h : ∀ x ∈ m, NodePacketHistory.lt nph x.1 = true) : slot m nph = [] := by
  apply List.eq_nil_iff_forall_not_mem.mpr
  intro e he
  obtain ⟨x, hx, hxk, -⟩ := mem_of_mem_slot he
  have hlt := h x hx
  rw [hxk] at hlt
  exact NodePacketHistory.lt_irrefl _ hlt

theorem WellFormed.tail {x : NodePacketHistory × List EmuPtr} (h : WellFormed (x :: m)) :
    WellFormed m :=
  ⟨(List.pairwise_cons.mp h.sorted).2, fun y hy => h.nonempty y (List.mem_cons_of_mem _ hy),
    fun y hy => h.nodup y (List.mem_cons_of_mem _ hy)⟩

theorem WellFormed.cons {x : NodePacketHistory × List EmuPtr} (h : WellFormed m)
    (hlt : ∀ y ∈ m, NodePacketHistory.lt x.1 y.1 = true) (hne : x.2 ≠ []) (hnodup : x.2.Nodup) :
    WellFormed (x :: m) := by
  refine ⟨List.pairwise_cons.mpr ⟨hlt, h.sorted⟩, ?_, ?_⟩
  · exact List.forall_mem_cons.mpr ⟨hne, h.nonempty⟩
  · exact List.forall_mem_cons.mpr ⟨hnodup, h.nodup⟩

theorem slot_of_mem (h : WellFormed m) {x : NodePacketHistory × List EmuPtr} (hx : x ∈ m) :
    slot m x.1 = x.2 := by
  induction m with
  | nil => simp at hx
  | cons y m ih =>
    rw [slot_cons]
    rcases List.mem_cons.mp hx with rfl | hx
    · rw [if_pos rfl]
    · have hlt := (List.pairwise_cons.mp h.sorted).1 x hx
      have hne : x.1 ≠ y.1 := by
        intro heq
        rw [heq] at hlt
        exact NodePacketHistory.lt_irrefl _ hlt
      rw [if_neg hne, ih h.tail hx]

theorem mem_insertEmu {x : NodePacketHistory × List EmuPtr} (h : x ∈ insertEmu nph emu m) :
    x.1 = nph ∨ x ∈ m := by
  induction m with
  | nil =>
    rw [insertEmu, List.mem_singleton] at h
    exact .inl (congrArg Prod.fst h)
  | cons y m ih =>
    simp only [insertEmu] at h
    split_ifs at h with h₁ h₂
    · rcases List.mem_cons.mp h with rfl | h
      · exact .inr (List.mem_cons_self ..)
      · exact (ih h).imp_right (List.mem_cons_of_mem _)
    · rcases List.mem_cons.mp h with rfl | h
      · exact .inl rfl
      · exact .inr h
    · rcases List.mem_cons.mp h with rfl | h
      · exact .inl (NodePacketHistory.eq_of_not_lt h₁ h₂)
      · exact .inr (List.mem_cons_of_mem _ h)

theorem WellFormed.insertEmu (h : WellFormed m) (nph : NodePacketHistory) (emu : EmuPtr) :
    WellFormed (insertEmu nph emu m) := by
  induction m with
  | nil => exact WellFormed.cons h (by simp) (by simp) (by simp)
  | cons y m ih =>
    have hy := (List.pairwise_cons.mp h.sorted).1
    simp only [NphMap.insertEmu]
    split_ifs with h₁ h₂
    · refine (ih h.tail).cons ?_ (h.nonempty y (List.mem_cons_self ..))
        (h.nodup y (List.mem_cons_self ..))
      intro x hx
      rcases mem_insertEmu hx with hnph | hx
      · rw [hnph]
        exact h₁
      · exact hy x hx
    · refine h.cons ?_ (by simp) (by simp)
      intro x hx
      rcases List.mem_cons.mp hx with rfl | hx
      · exact h₂
      · exact NodePacketHistory.lt_trans h₂ (hy x hx)
    · refine h.tail.cons hy ?_ ?_
      · exact List.ne_nil_of_mem (List.mem_insert_self (a := emu))
      · exact (h.nodup y (List.mem_cons_self ..)).insert

theorem slot_insertEmu (h : WellFormed m) (nph : NodePacketHistory) (emu : EmuPtr)
    (k : NodePacketHistory) : slot (NphMap.insertEmu nph emu m) k =
      if k = nph then List.insert emu (slot m nph) else slot m k := by
  induction m with
  | nil =>
    rw [NphMap.insertEmu, slot_cons, slot_nil, slot_nil]
    rfl
  | cons y m ih =>
    have hy := (List.pairwise_cons.mp h.sorted).1
    simp only [NphMap.insertEmu]
    by_cases h₁ : NodePacketHistory.lt y.1 nph = true
    · have hne : nph ≠ y.1 := by
        intro heq
        rw [heq] at h₁
        exact NodePacketHistory.lt_irrefl _ h₁
      rw [if_pos h₁, slot_cons, ih h.tail, slot_cons, slot_cons, if_neg hne]
      by_cases hk : k = y.1
      · rw [if_pos hk, if_neg (fun heq => hne (heq.symm.trans hk)), if_pos hk]
      · rw [if_neg hk, if_neg hk]
    · rw [if_neg h₁]
      by_cases h₂ : NodePacketHistory.lt nph y.1 = true
      · have hnil : slot (y :: m) nph = [] := by
          apply slot_eq_nil
          intro x hx
          rcases List.mem_cons.mp hx with rfl | hx
          · exact h₂
          · exact NodePacketHistory.lt_trans h₂ (hy x hx)
        rw [if_pos h₂, slot_cons, hnil]
        rfl
      · have heq := NodePacketHistory.eq_of_not_lt h₁ h₂
        rw [if_neg h₂, slot_cons, slot_cons, slot_cons, if_pos heq.symm]
        dsimp only
        rw [heq]
        split_ifs
        · rfl
        · rfl

theorem eraseEmu_of_mem (h : WellFormed m) (hemu : emu ∈ slot m nph) :
    ∃ m', eraseEmu nph emu m = some m' ∧ WellFormed m' ∧ (∀ x' ∈ m', ∃ x ∈ m, x'.1 = x.1) ∧
      ∀ k, slot m' k = if k = nph then (slot m nph).erase emu else slot m k := by
  induction m with
  | nil => simp [slot_nil] at hemu
  | cons y m ih =>
    have hy := (List.pairwise_cons.mp h.sorted).1
    simp only [eraseEmu]
    by_cases heq : nph = y.1
    · subst heq
      have hnone : slot m y.1 = [] := slot_eq_nil hy
      have hself : NodePacketHistory.lt y.1 y.1 = false := by
        simpa using NodePacketHistory.lt_irrefl y.1
      rw [slot_cons, if_pos rfl] at hemu
      rw [hself, Bool.or_self, if_neg Bool.false_ne_true, if_pos hemu]
      -- the entry goes with its last emulation
      by_cases hnil : y.2.erase emu = []
      · refine ⟨m, by rw [if_pos hnil], h.tail,
          fun x hx => ⟨x, List.mem_cons_of_mem _ hx, rfl⟩, ?_⟩
        intro k
        rw [slot_cons, if_pos rfl, slot_cons]
        split_ifs with hk
        · rw [hk, hnone, hnil]
        · rfl
      · refine ⟨(y.1, y.2.erase emu) :: m, by rw [if_neg hnil], ?_, ?_, ?_⟩
        · exact h.tail.cons hy hnil ((h.nodup y (List.mem_cons_self ..)).erase emu)
        · intro x hx
          rcases List.mem_cons.mp hx with rfl | hx
          · exact ⟨y, List.mem_cons_self .., rfl⟩
          · exact ⟨x, List.mem_cons_of_mem _ hx, rfl⟩
        · intro k
          rw [slot_cons, slot_cons, if_pos rfl, slot_cons]
          split_ifs
          · rfl
          · rfl
    · -- keys are equal when neither is less, so the search goes on exactly where they differ
      have hlt : (NodePacketHistory.lt y.1 nph || NodePacketHistory.lt nph y.1) = true := by
        by_contra hno
        rw [Bool.or_eq_true, not_or] at hno
        exact heq (NodePacketHistory.eq_of_not_lt hno.2 hno.1)
      rw [slot_cons, if_neg heq] at hemu
      obtain ⟨m', hm', hwf, hkeys, hslot⟩ := ih h.tail hemu
      refine ⟨y :: m', by rw [if_pos hlt, hm']; rfl, ?_, ?_, ?_⟩
      · refine hwf.cons ?_ (h.nonempty y (List.mem_cons_self ..))
          (h.nodup y (List.mem_cons_self ..))
        intro x' hx'
        obtain ⟨x, hx, hxx⟩ := hkeys x' hx'
        rw [hxx]
        exact hy x hx
      · intro x' hx'
        rcases List.mem_cons.mp hx' with rfl | hx'
        · exact ⟨x', List.mem_cons_self .., rfl⟩
        · obtain ⟨x, hx, hxx⟩ := hkeys x' hx'
          exact ⟨x, List.mem_cons_of_mem _ hx, hxx⟩
      · intro k
        rw [slot_cons, hslot, slot_cons, slot_cons, if_neg heq]
        by_cases hk : k = y.1
        · rw [if_pos hk, if_neg (fun hkn => heq (hkn.symm.trans hk)), if_pos hk]
        · rw [if_neg hk, if_neg hk]

theorem WellFormed.nodup_slot (h : WellFormed m) (nph : NodePacketHistory) :
    (slot m nph).Nodup := by
  cases hs : slot m nph with
  | nil => exact List.nodup_nil
  | cons e l =>
    have he : e ∈ slot m nph := hs ▸ List.mem_cons_self ..
    obtain ⟨x, hx, -, hslot⟩ := mem_of_mem_slot he
    rw [← hs, ← hslot]
    exact h.nodup x hx

end NphMap

/-! The search of `get_emulation` in the map of a middlebox. -/

namespace NphMap

variable {nph : NodePacketHistory} {m : NphMap}

def scanned (nph : NodePacketHistory) : NphMap → Nat
  | [] => 1
  | [_] => 1
  | x :: m => if nph.contains x.1 then 1 else scanned nph m + 1

def visited (nph : NodePacketHistory) (m : NphMap) : List Int :=
  let before := m.takeWhile fun x => NodePacketHistory.lt x.1 nph
  let from' := m.dropWhile fun x => NodePacketHistory.lt x.1 nph
  match from'.head?.filter fun x => !NodePacketHistory.lt nph x.1 with
  | some _ => [(before.length : Int)]
  | none => (List.range (scanned nph before.reverse)).map fun k : Nat =>
    (before.length : Int) - 1 - (k : Int)

theorem scanned_le (nph : NodePacketHistory) (m : NphMap) : scanned nph m ≤ max 1 m.length := by
  induction m with
  | nil => exact le_max_left ..
  | cons x m ih =>
    cases m with
    | nil => exact le_max_left ..
    | cons y m =>
      simp only [scanned, List.length_cons] at ih ⊢
      split_ifs
      · exact le_max_left ..
      · omega

theorem takeWhile_ne_nil (h : WellFormed m)
    (hnone : (m.dropWhile fun x => NodePacketHistory.lt x.1 nph).head?.filter
      (fun x => !NodePacketHistory.lt nph x.1) = none)
    (hback : ∃ x ∈ m, ¬ NodePacketHistory.lt nph x.1 = true) :
    m.takeWhile (fun x => NodePacketHistory.lt x.1 nph) ≠ [] := by
  intro hbefore
  have hdrop : m.dropWhile (fun x => NodePacketHistory.lt x.1 nph) = m := by
    have hall := List.takeWhile_append_dropWhile (p := fun x : NodePacketHistory × List EmuPtr =>
      NodePacketHistory.lt x.1 nph) (l := m)
    rwa [hbefore, List.nil_append] at hall
  rw [hdrop] at hnone
  obtain ⟨x, hx, hle⟩ := hback
  cases m with
  | nil => simp at hx
  | cons y m =>
    have hy : NodePacketHistory.lt nph y.1 = true := by
      simpa using hnone
    rcases List.mem_cons.mp hx with rfl | hx
    · exact hle hy
    · exact hle (NodePacketHistory.lt_trans hy ((List.pairwise_cons.mp h.sorted).1 x hx))

theorem visited_inside_iff (h : WellFormed m) : (∀ i ∈ visited nph m, 0 ≤ i ∧ i < m.length) ↔
    ∃ x ∈ m, ¬ NodePacketHistory.lt nph x.1 = true := by
  have hsplit : (m.takeWhile fun x => NodePacketHistory.lt x.1 nph).length +
      (m.dropWhile fun x => NodePacketHistory.lt x.1 nph).length = m.length := by
    rw [← List.length_append, List.takeWhile_append_dropWhile]
  unfold visited
  dsimp only
  split
  · next x hfound =>
    obtain ⟨hhead, hle⟩ := Option.filter_eq_some_iff.mp hfound
    have hmem := List.mem_of_head? hhead
    have hpos := List.length_pos_of_mem hmem
    constructor
    · intro _
      exact ⟨x, (List.dropWhile_sublist _).subset hmem, by simpa using hle⟩
    · intro _ i hi
      rw [List.mem_singleton.mp hi]
      omega
  · next hnone =>
    cases hbefore : m.takeWhile fun x => NodePacketHistory.lt x.1 nph with
    | nil =>
      constructor
      · -- the scan starts in front of the map
        intro hall
        have hfirst := hall (-1) (by simp [scanned])
        omega
      · intro hback
        exact absurd hbefore (takeWhile_ne_nil h hnone hback)
    | cons y before =>
      constructor
      · intro _
        have hy : y ∈ m.takeWhile fun x => NodePacketHistory.lt x.1 nph :=
          hbefore ▸ List.mem_cons_self ..
        have hlt := List.mem_takeWhile_imp hy
        refine ⟨y, (List.takeWhile_sublist _).subset hy, ?_⟩
        intro hlt'
        exact NodePacketHistory.lt_irrefl _ (NodePacketHistory.lt_trans hlt' hlt)
      · intro _ i hi
        obtain ⟨k, hk, rfl⟩ := List.mem_map.mp hi
        have hle := scanned_le nph (y :: before).reverse
        have hk' := List.mem_range.mp hk
        have hlen := congrArg List.length hbefore
        rw [List.length_reverse] at hle
        rw [List.length_cons] at hle hlen ⊢
        omega

end NphMap

namespace EmulationMgr

variable {m m' : EmulationMgr} {mb : NodePtr} {nph : NodePacketHistory} {emu : EmuPtr}

/-- There are not too many emulations, and each is filed once, under its middlebox and history. -/
structure Consistent (m : EmulationMgr) : Prop where
  wellFormed : ∀ mb, (m.mbEmuMap mb).WellFormed
  nodup : m.emus.Nodup
  bounded : m.emus.length ≤ m.maxEmu
  launched : ∀ e ∈ m.emus, (m.emulation e).mb ≠ none
  indexed : ∀ mb nph e, e ∈ (m.mbEmuMap mb).slot nph ↔
    e ∈ m.emus ∧ (m.emulation e).mb = some mb ∧ (m.emulation e).nph = nph

structure ConsistentBut (emu : EmuPtr) (m : EmulationMgr) : Prop where
  wellFormed : ∀ mb, (m.mbEmuMap mb).WellFormed
  nodup : m.emus.Nodup
  bounded : m.emus.length ≤ m.maxEmu
  mem : emu ∈ m.emus
  launched : ∀ e ∈ m.emus, e ≠ emu → (m.emulation e).mb ≠ none
  indexed : ∀ mb nph e, e ∈ (m.mbEmuMap mb).slot nph ↔
    e ∈ m.emus ∧ e ≠ emu ∧ (m.emulation e).mb = some mb ∧ (m.emulation e).nph = nph

def file (m : EmulationMgr) (emu : EmuPtr) (mb : NodePtr) (e : Emulation) : EmulationMgr where
  maxEmu := m.maxEmu
  emus := m.emus
  emulation := Function.update m.emulation emu e
  mbEmuMap := Function.update m.mbEmuMap mb (NphMap.insertEmu e.nph emu (m.mbEmuMap mb))

theorem ConsistentBut.file (h : ConsistentBut emu m) {e : Emulation} (hmb : e.mb = some mb) :
    (m.file emu mb e).Consistent := by
  refine ⟨?_, h.nodup, h.bounded, ?_, ?_⟩
  · intro mb'
    show (Function.update m.mbEmuMap mb _ mb').WellFormed
    rw [Function.update_apply]
    split_ifs
    · exact (h.wellFormed mb).insertEmu _ _
    · exact h.wellFormed mb'
  · intro e' he'
    show (Function.update m.emulation emu e e').mb ≠ none
    rw [Function.update_apply]
    split_ifs with heq
    · rw [hmb]
      exact Option.some_ne_none mb
    · exact h.launched e' he' heq
  · intro mb' nph' e'
    -- the index of one node and one history gets the emulation, all others stay
    have hslot : (NphMap.slot ((m.file emu mb e).mbEmuMap mb') nph') =
        if mb' = mb ∧ nph' = e.nph then List.insert emu ((m.mbEmuMap mb).slot e.nph)
        else (m.mbEmuMap mb').slot nph' := by
      show NphMap.slot (Function.update m.mbEmuMap mb _ mb') nph' = _
      rw [Function.update_apply]
      by_cases hmb' : mb' = mb
      · rw [if_pos hmb', NphMap.slot_insertEmu (h.wellFormed mb), hmb']
        simp only [true_and]
      · rw [if_neg hmb', if_neg (fun hand => hmb' hand.1)]
    have hemulation : (m.file emu mb e).emulation e' =
        if e' = emu then e else m.emulation e' := Function.update_apply ..
    have hemus : (m.file emu mb e).emus = m.emus := rfl
    rw [hslot, hemulation, hemus]
    by_cases heq : e' = emu
    · subst heq
      rw [if_pos rfl, hmb]
      split_ifs with hhere
      · simp [h.mem, hhere.1, hhere.2]
      · rw [h.indexed]
        simp only [ne_eq, not_true_eq_false, false_and, and_false, Option.some.injEq, false_iff]
        exact fun hand => hhere ⟨hand.2.1.symm, hand.2.2.symm⟩
    · rw [if_neg heq]
      split_ifs with hhere
      · rw [List.mem_insert_iff, h.indexed, hhere.1, hhere.2]
        simp [heq]
      · rw [h.indexed]
        simp [heq]

theorem Consistent.eraseEmu (h : m.Consistent) (hemu : emu ∈ m.emus) :
    ∃ mb map, (m.emulation emu).mb = some mb ∧
      NphMap.eraseEmu (m.emulation emu).nph emu (m.mbEmuMap mb) = some map ∧
        ConsistentBut emu { m with mbEmuMap := Function.update m.mbEmuMap mb map } := by
  obtain ⟨mb, hmb⟩ := Option.ne_none_iff_exists'.mp (h.launched emu hemu)
  have hmem : emu ∈ (m.mbEmuMap mb).slot (m.emulation emu).nph :=
    (h.indexed _ _ _).mpr ⟨hemu, hmb, rfl⟩
  obtain ⟨map, herase, hwf, -, hslot⟩ := NphMap.eraseEmu_of_mem (h.wellFormed mb) hmem
  refine ⟨mb, map, hmb, herase, ?_, h.nodup, h.bounded, hemu, fun e he _ => h.launched e he, ?_⟩
  · intro mb'
    show (Function.update m.mbEmuMap mb map mb').WellFormed
    rw [Function.update_apply]
    split_ifs
    · exact hwf
    · exact h.wellFormed mb'
  · intro mb' nph' e'
    show e' ∈ (Function.update m.mbEmuMap mb map mb').slot nph' ↔ _
    -- the index has the emulation under its own key only
    have hone : e' ∈ (m.mbEmuMap mb').slot nph' → e' = emu → mb' = mb ∧
        nph' = (m.emulation emu).nph := by
      intro he' heq
      obtain ⟨-, hmb', hnph'⟩ := (h.indexed _ _ _).mp he'
      rw [heq] at hmb' hnph'
      exact ⟨Option.some.inj (hmb'.symm.trans hmb), hnph'.symm⟩
    rw [Function.update_apply]
    by_cases hmb' : mb' = mb
    · rw [if_pos hmb', hslot]
      by_cases hnph' : nph' = (m.emulation emu).nph
      · rw [if_pos hnph', ((h.wellFormed mb).nodup_slot _).mem_erase_iff, h.indexed, hmb', hnph']
        exact and_left_comm
      · rw [if_neg hnph', ← hmb', h.indexed]
        constructor
        · intro hall
          have hne : e' ≠ emu := fun heq => hnph' (hone ((h.indexed _ _ _).mpr hall) heq).2
          exact ⟨hall.1, hne, hall.2⟩
        · intro hall
          exact ⟨hall.1, hall.2.2⟩
    · rw [if_neg hmb', h.indexed]
      constructor
      · intro hall
        have hne : e' ≠ emu := fun heq => hmb' (hone ((h.indexed _ _ _).mpr hall) heq).1
        exact ⟨hall.1, hne, hall.2⟩
      · intro hall
        exact ⟨hall.1, hall.2.2⟩

inductive Call
  | getEmulation (env : EmuEnv) (mb : NodePtr) (nph : NodePacketHistory)
  | updateNodePktHist (emu : EmuPtr) (nph : NodePacketHistory)

def step (m : EmulationMgr) : Call → Option EmulationMgr
  | .getEmulation env mb nph => (m.getEmulation env mb nph).map Prod.snd
  | .updateNodePktHist emu nph => m.updateNodePktHist emu nph

/-- A new object has a new address, an unordered set begins with one of its elements, and only
emulations of the pool are updated. -/
def Call.Possible (m : EmulationMgr) : Call → Prop
  | .getEmulation env _ _ => env.newEmu ∉ m.emus ∧ (m.emus ≠ [] → env.begin ∈ m.emus)
  | .updateNodePktHist emu _ => emu ∈ m.emus

/-- Where the middlebox has emulations, one of them is at a history that is not greater. -/
def Call.ReachesBack (m : EmulationMgr) : Call → Prop
  | .getEmulation _ mb nph => m.mbEmuMap mb ≠ [] →
    ∃ x ∈ m.mbEmuMap mb, ¬ NodePacketHistory.lt nph x.1 = true
  | .updateNodePktHist _ _ => True

/-- The call does what it should: the assertions hold, the search stays in the map, and the
emulation that is found is one of the middlebox. -/
def Call.Safe (m : EmulationMgr) : Call → Prop
  | .getEmulation env mb nph => (m.mbEmuMap mb ≠ [] →
      ∀ i ∈ (m.mbEmuMap mb).visited nph, 0 ≤ i ∧ i < (m.mbEmuMap mb).length) ∧
    ∃ emu m', m.getEmulation env mb nph = some (emu, m') ∧ m'.Consistent ∧
      (m'.emulation emu).mb = some mb
  | .updateNodePktHist emu nph => ∃ m', m.updateNodePktHist emu nph = some m' ∧ m'.Consistent

theorem consistent_empty (maxEmu : Nat) : (empty maxEmu).Consistent := by
  refine ⟨fun _ => ⟨.nil, by simp [empty], by simp [empty]⟩, .nil, Nat.zero_le _, ?_, ?_⟩
  · intro e he
    simp [empty] at he
  · intro mb nph e
    simp [empty, NphMap.slot_nil]

theorem Consistent.updateNodePktHist (h : m.Consistent) (hemu : emu ∈ m.emus)
    (nph : NodePacketHistory) :
    ∃ m', m.updateNodePktHist emu nph = some m' ∧ m'.Consistent := by
  obtain ⟨mb, map, hmb, herase, hbut⟩ := h.eraseEmu hemu
  have hfiled := hbut.file (e := { m.emulation emu with nph := nph }) hmb
  have hfile : EmulationMgr.file { m with mbEmuMap := Function.update m.mbEmuMap mb map } emu mb
      { m.emulation emu with nph := nph } =
        { m with
          mbEmuMap := Function.update m.mbEmuMap mb (NphMap.insertEmu nph emu map)
          emulation := Function.update m.emulation emu { m.emulation emu with nph := nph } } := by
    simp only [EmulationMgr.file, Function.update_idem, Function.update_self]
  rw [hfile] at hfiled
  refine ⟨_, ?_, hfiled⟩
  simp only [EmulationMgr.updateNodePktHist, hmb, herase, Option.bind_eq_bind, Option.bind_some]
  rfl

theorem launch_mb (m : EmulationMgr) (emu : EmuPtr) (mb : NodePtr) :
    ((m.launch emu mb).emulation emu).mb = some mb := by
  show (Function.update m.emulation emu (Emulation.init mb) emu).mb = some mb
  rw [Function.update_self]
  rfl

theorem Consistent.getEmulation_new (h : m.Consistent) (nph : NodePacketHistory) {env : EmuEnv}
    (hnone : m.mbEmuMap mb = []) (hroom : m.emus.length < m.maxEmu) (hnew : env.newEmu ∉ m.emus) :
    ∃ emu m', m.getEmulation env mb nph = some (emu, m') ∧ m'.maxEmu = m.maxEmu ∧
      m'.Consistent ∧ (m'.emulation emu).mb = some mb := by
  refine ⟨env.newEmu, { m with emus := env.newEmu :: m.emus }.launch env.newEmu mb, ?_, rfl, ?_,
    launch_mb _ _ _⟩
  · unfold EmulationMgr.getEmulation
    rw [if_pos hnone, if_pos hroom, if_neg hnew]
  · have hbut : ConsistentBut env.newEmu { m with emus := env.newEmu :: m.emus } := by
      refine ⟨h.wellFormed, List.nodup_cons.mpr ⟨hnew, h.nodup⟩, hroom,
        List.mem_cons_self .., ?_, ?_⟩
      · intro e he hne
        exact h.launched e ((List.mem_cons.mp he).resolve_left hne)
      · intro mb' nph' e
        rw [h.indexed]
        constructor
        · intro ⟨he, hrest⟩
          exact ⟨List.mem_cons_of_mem _ he, fun heq => hnew (heq ▸ he), hrest⟩
        · intro ⟨he, hne, hrest⟩
          exact ⟨(List.mem_cons.mp he).resolve_left hne, hrest⟩
    exact hbut.file (e := Emulation.init mb) rfl

theorem Consistent.getEmulation_other (h : m.Consistent) (nph : NodePacketHistory) {env : EmuEnv}
    (hnone : m.mbEmuMap mb = []) (hroom : ¬ m.emus.length < m.maxEmu)
    (hbegin : env.begin ∈ m.emus) :
    ∃ emu m', m.getEmulation env mb nph = some (emu, m') ∧ m'.maxEmu = m.maxEmu ∧
      m'.Consistent ∧ (m'.emulation emu).mb = some mb := by
  obtain ⟨oldMb, map, hold, herase, hbut⟩ := h.eraseEmu hbegin
  refine ⟨env.begin,
    { m with mbEmuMap := Function.update m.mbEmuMap oldMb map }.launch env.begin mb, ?_, rfl,
    hbut.file (e := Emulation.init mb) rfl, launch_mb _ _ _⟩
  unfold EmulationMgr.getEmulation
  rw [if_pos hnone, if_neg hroom, if_pos hbegin]
  simp only [hold, herase, Option.bind_eq_bind, Option.bind_some]

theorem Consistent.mb_of_mem (h : m.Consistent) {x : NodePacketHistory × List EmuPtr}
    (hx : x ∈ m.mbEmuMap mb) : ∃ e, x.2.head? = some e ∧ (m.emulation e).mb = some mb := by
  have hne := (h.wellFormed mb).nonempty x hx
  obtain ⟨e, l, hl⟩ := List.exists_cons_of_ne_nil hne
  refine ⟨e, by rw [hl]; rfl, ?_⟩
  have hmem : e ∈ (m.mbEmuMap mb).slot x.1 := by
    rw [NphMap.slot_of_mem (h.wellFormed mb) hx, hl]
    exact List.mem_cons_self ..
  exact ((h.indexed _ _ _).mp hmem).2.1

theorem scanBack_mem (nph : NodePacketHistory) {l : NphMap} (hne : l ≠ []) :
    ∃ x ∈ l, NphMap.scanBack nph l = some x := by
  induction l with
  | nil => exact absurd rfl hne
  | cons x l ih =>
    cases l with
    | nil => exact ⟨x, List.mem_singleton_self x, rfl⟩
    | cons y l =>
      simp only [NphMap.scanBack]
      split_ifs
      · exact ⟨x, List.mem_cons_self .., rfl⟩
      · obtain ⟨z, hz, hscan⟩ := ih (List.cons_ne_nil _ _)
        exact ⟨z, List.mem_cons_of_mem _ hz, hscan⟩

theorem Consistent.getEmulation_some (h : m.Consistent) {env : EmuEnv}
    (hsome : m.mbEmuMap mb ≠ [])
    (hback : ∃ x ∈ m.mbEmuMap mb, ¬ NodePacketHistory.lt nph x.1 = true) :
    ∃ emu, m.getEmulation env mb nph = some (emu, m) ∧ (m.emulation emu).mb = some mb := by
  unfold EmulationMgr.getEmulation
  rw [if_neg hsome]
  dsimp only
  split
  · next x hfound =>
    obtain ⟨hhead, -⟩ := Option.filter_eq_some_iff.mp hfound
    have hx := (List.dropWhile_sublist _).subset (List.mem_of_head? hhead)
    obtain ⟨e, he, hmb⟩ := h.mb_of_mem hx
    exact ⟨e, by rw [he]; rfl, hmb⟩
  · next hnone =>
    have hbefore := NphMap.takeWhile_ne_nil (h.wellFormed mb) hnone hback
    obtain ⟨x, hx, hscan⟩ := scanBack_mem nph (mt List.reverse_eq_nil_iff.mp hbefore)
    have hx' := (List.takeWhile_sublist _).subset (List.mem_reverse.mp hx)
    obtain ⟨e, he, hmb⟩ := h.mb_of_mem hx'
    exact ⟨e, by rw [hscan]; dsimp only; rw [he]; rfl, hmb⟩

theorem Consistent.step (h : m.Consistent) {c : Call} (hback : c.ReachesBack m)
    (hstep : m.step c = some m') : m'.Consistent ∧ m'.maxEmu = m.maxEmu := by
  cases c with
  | getEmulation env mb nph =>
    obtain ⟨⟨emu, m₁⟩, hget, rfl⟩ := Option.map_eq_some_iff.mp hstep
    by_cases hnone : m.mbEmuMap mb = []
    · -- a middlebox without emulation gets a new one, or that of another middlebox
      have hcase : ∃ emu m', m.getEmulation env mb nph = some (emu, m') ∧ m'.maxEmu = m.maxEmu ∧
          m'.Consistent ∧ (m'.emulation emu).mb = some mb := by
        by_cases hroom : m.emus.length < m.maxEmu
        · apply h.getEmulation_new nph hnone hroom
          intro hnew
          simp [EmulationMgr.getEmulation, hnone, hroom, hnew] at hget
        · apply h.getEmulation_other nph hnone hroom
          by_contra hbegin
          simp [EmulationMgr.getEmulation, hnone, hroom, hbegin] at hget
      obtain ⟨emu', m', hget', hmax, hm', -⟩ := hcase
      obtain ⟨-, rfl⟩ := Prod.mk.inj (Option.some.inj (hget.symm.trans hget'))
      exact ⟨hm', hmax⟩
    · obtain ⟨emu', hget', -⟩ := h.getEmulation_some hnone (hback hnone)
      obtain ⟨-, rfl⟩ := Prod.mk.inj (Option.some.inj (hget.symm.trans hget'))
      exact ⟨h, rfl⟩
  | updateNodePktHist emu nph =>
    have hstep' : m.updateNodePktHist emu nph = some m' := hstep
    have hemu : emu ∈ m.emus := by
      simp only [EmulationMgr.updateNodePktHist, Option.bind_eq_bind, Option.bind_eq_some_iff]
        at hstep'
      obtain ⟨mb, -, map, herase, -⟩ := hstep'
      obtain ⟨x, hx, hemu⟩ := (NphMap.has_eraseEmu herase).1
      have hslot : emu ∈ (m.mbEmuMap mb).slot x.1 := by
        rw [NphMap.slot_of_mem (h.wellFormed mb) hx]
        exact hemu
      exact ((h.indexed _ _ _).mp hslot).1
    obtain ⟨m₁, hm₁, hconsistent⟩ := h.updateNodePktHist hemu nph
    obtain rfl := Option.some.inj (hstep'.symm.trans hm₁)
    refine ⟨hconsistent, ?_⟩
    simp only [EmulationMgr.updateNodePktHist, Option.bind_eq_bind, Option.bind_eq_some_iff]
      at hstep'
    obtain ⟨mb, -, map, -, heq⟩ := hstep'
    rw [← Option.some.inj heq]

theorem Consistent.safe_iff (h : m.Consistent) (hmax : 1 ≤ m.maxEmu) {c : Call}
    (hposs : c.Possible m) : c.Safe m ↔ c.ReachesBack m := by
  cases c with
  | getEmulation env mb nph =>
    constructor
    · intro hsafe hne
      exact (NphMap.visited_inside_iff (h.wellFormed mb)).mp (hsafe.1 hne)
    · intro hback
      refine ⟨fun hne => (NphMap.visited_inside_iff (h.wellFormed mb)).mpr (hback hne), ?_⟩
      by_cases hnone : m.mbEmuMap mb = []
      · by_cases hroom : m.emus.length < m.maxEmu
        · obtain ⟨emu, m', hget, -, hrest⟩ := h.getEmulation_new nph hnone hroom hposs.1
          exact ⟨emu, m', hget, hrest⟩
        · have hne : m.emus ≠ [] := by
            intro hnil
            rw [hnil] at hroom
            exact hroom hmax
          obtain ⟨emu, m', hget, -, hrest⟩ :=
            h.getEmulation_other nph hnone hroom (hposs.2 hne)
          exact ⟨emu, m', hget, hrest⟩
      · obtain ⟨emu, hget, hmb⟩ := h.getEmulation_some hnone (hback hnone)
        exact ⟨emu, m, hget, h, hmb⟩
  | updateNodePktHist emu nph => exact iff_of_true (h.updateNodePktHist hposs nph) trivial

/-- In every run whose calls reach back, the pool is consistent, and the next call is safe exactly
if it reaches back too. -/
theorem pool_consistent {maxEmu : Nat} (hmax : 1 ≤ maxEmu)
    {tr : List (Link EmulationMgr Call)} (h : Run step (empty maxEmu) tr m)
    (hback : ∀ l ∈ tr, l.act.ReachesBack l.before) :
    m.Consistent ∧ m.maxEmu = maxEmu ∧
      ∀ c : Call, c.Possible m → (c.Safe m ↔ c.ReachesBack m) := by
  have hinv := h.invariant (fun m => m.Consistent ∧ m.maxEmu = maxEmu)
    ⟨consistent_empty maxEmu, rfl⟩ ?_
  · obtain ⟨⟨hm, hsize⟩, -⟩ := hinv
    exact ⟨hm, hsize, fun c hposs => hm.safe_iff (hsize ▸ hmax) hposs⟩
  · intro l hl hstep ⟨hm, hsize⟩
    obtain ⟨hm', hsize'⟩ := hm.step (hback l hl) hstep
    exact ⟨hm', hsize'.trans hsize⟩

def launched : EmulationMgr := { empty 1 with emus := [7] }.launch 7 0

def filed : EmulationMgr where
  maxEmu := 1
  emus := [7]
  emulation := Function.update launched.emulation 7 { launched.emulation 7 with nph := [3] }
  mbEmuMap := Function.update launched.mbEmuMap 0 [([3], [7])]

def filing : List (Link EmulationMgr Call) :=
  [⟨empty 1, .getEmulation ⟨7, 7, none⟩ 0 [], launched⟩,
    ⟨launched, .updateNodePktHist 7 [3], filed⟩]

theorem filing_run : Run step (empty 1) filing filed :=
  .cons rfl (.cons rfl (.nil _))

theorem pool_consistent_filed : filed.Consistent ∧ filed.maxEmu = 1 ∧
    ∀ c : Call, c.Possible filed → (c.Safe filed ↔ c.ReachesBack filed) := by
  apply pool_consistent (le_refl 1) filing_run
  intro l hl
  rcases List.mem_cons.mp hl with rfl | hl
  · intro hne
    exact absurd rfl hne
  · rw [List.mem_singleton.mp hl]
    trivial

/-- The empty history is in front of every other, so that there is no place to search from. -/
theorem not_safe : ¬ ∀ (maxEmu : Nat) (tr : List (Link EmulationMgr Call)) (m : EmulationMgr),
    1 ≤ maxEmu → Run step (empty maxEmu) tr m → ∀ c : Call, c.Possible m → c.Safe m := by
  intro hall
  have hposs : (Call.getEmulation ⟨8, 7, none⟩ 0 []).Possible filed := by
    refine ⟨?_, fun _ => ?_⟩
    · show 8 ∉ [7]
      decide
    · exact List.mem_singleton_self 7
  have hsafe := hall 1 filing filed (le_refl 1) filing_run _ hposs
  have hmap : filed.mbEmuMap 0 = [([3], [7])] := rfl
  have hfront : -1 ∈ (filed.mbEmuMap 0).visited [] := by
    rw [hmap]
    decide
  have hne : filed.mbEmuMap 0 ≠ [] := by
    rw [hmap]
    exact List.cons_ne_nil _ _
  have hbound := hsafe.1 hne (-1) hfront
  omega

end EmulationMgr

end Neo
