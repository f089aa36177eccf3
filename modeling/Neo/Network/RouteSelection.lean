import Neo.Network.Ipnhs

/-! Which routes a table keeps when they are inserted one by one. The paths of a stored and of a
new route are compared by the fields that the stored one uses, so that a stored route without an
interface keeps out a connected one with the same next hop. -/

namespace Neo

/-- Some element that satisfies `P` has only elements in front of it that are in relation to it. -/
def Earliest {α : Type*} (P : α → Prop) (Q : α → α → Prop) (l : List α) : Prop :=
  ∃ before a after, l = before ++ a :: after ∧ P a ∧ ∀ b ∈ before, Q b a

namespace Earliest

variable {α : Type*} {P P' : α → Prop} {Q Q' : α → α → Prop} {l : List α}

theorem append_singleton (x : α) :
    Earliest P Q (l ++ [x]) ↔ Earliest P Q l ∨ P x ∧ ∀ b ∈ l, Q b x := by
  constructor
  · rintro ⟨before, a, after, hl, ha, hbefore⟩
    rcases after.eq_nil_or_concat with rfl | ⟨after, y, rfl⟩
    · obtain ⟨rfl, hx⟩ := List.append_inj' hl rfl
      obtain rfl := List.singleton_inj.mp hx
      exact .inr ⟨ha, hbefore⟩
    · rw [List.concat_eq_append, ← List.cons_append, ← List.append_assoc] at hl
      have hl' : l = before ++ a :: after := (List.append_inj' hl rfl).1
      exact .inl ⟨before, a, after, hl', ha, hbefore⟩
  · rintro (⟨before, a, after, rfl, ha, hbefore⟩ | ⟨hx, hall⟩)
    · exact ⟨before, a, after ++ [x], by simp, ha, hbefore⟩
    · exact ⟨l, x, [], rfl, hx, hall⟩

theorem congr (hP : ∀ a ∈ l, P a ↔ P' a) (hQ : ∀ b ∈ l, ∀ a ∈ l, P a → (Q b a ↔ Q' b a)) :
    Earliest P Q l ↔ Earliest P' Q' l := by
  unfold Earliest
  apply exists_congr
  intro before
  apply exists_congr
  intro a
  apply exists_congr
  intro after
  constructor
  · rintro ⟨rfl, ha, hbefore⟩
    have hmem : a ∈ before ++ a :: after := by simp
    refine ⟨rfl, (hP a hmem).mp ha, fun b hb => ?_⟩
    exact (hQ b (List.mem_append_left _ hb) a hmem ha).mp (hbefore b hb)
  · rintro ⟨rfl, ha, hbefore⟩
    have hmem : a ∈ before ++ a :: after := by simp
    have ha' := (hP a hmem).mpr ha
    exact ⟨rfl, ha', fun b hb => (hQ b (List.mem_append_left _ hb) a hmem ha').mpr (hbefore b hb)⟩

theorem exists_mem (h : Earliest P Q l) : ∃ a ∈ l, P a := by
  obtain ⟨before, a, after, rfl, ha, -⟩ := h
  exact ⟨a, by simp, ha⟩

end Earliest

namespace Route

variable {q r : Route}

/-- A route without an interface that has the next hop of the other. -/
def Shadows (q r : Route) : Prop :=
  q.network = r.network ∧ q.egressIntf = 0 ∧ q.nextHop = r.nextHop

theorem hasSamePath_iff : q.hasSamePath r = true ↔
    Shadows q r ∨ q.egressIntf ≠ 0 ∧ q.SamePath r := by
  unfold hasSamePath Shadows
  split_ifs with h
  · simp [h]
  · simp only [h, false_and, and_false, false_or, decide_eq_true_eq, ne_eq, not_false_eq_true,
      true_and]
    exact ⟨fun hpath => ⟨hpath.1, hpath.2, fun h₀ => absurd h₀ h⟩,
      fun hpath => ⟨hpath.network, hpath.egressIntf⟩⟩

theorem network_of_hasSamePath (h : q.hasSamePath r = true) : q.network = r.network := by
  rcases hasSamePath_iff.mp h with hshadow | ⟨-, hpath⟩
  · exact hshadow.1
  · exact hpath.network

theorem Shadows.samePath (h : Shadows q r) (hr : r.egressIntf = 0) : q.SamePath r :=
  ⟨h.1, h.2.1.trans hr.symm, fun _ => h.2.2⟩

end Route

namespace RoutingTable

variable {routes : List Route} {tbl : RoutingTable} {q r x : Route}

structure Best (routes : List Route) (r : Route) : Prop where
  mem : r ∈ routes
  least : ∀ q ∈ routes, q.network = r.network → r.admDist ≤ q.admDist

structure Selects (routes : List Route) (tbl : RoutingTable) : Prop where
  best : ∀ q ∈ tbl, Best routes q
  found : ∀ r, Best routes r → ∃ q ∈ tbl, q.SamePath r
  single : tbl.Pairwise fun q r => ¬ q.SamePath r

/-- A best route of the path comes before all best routes that shadow it. -/
def Exposed (routes : List Route) (r : Route) : Prop :=
  Earliest (fun r' => Best routes r' ∧ r'.SamePath r) (fun q r' => Best routes q → ¬ q.Shadows r')
    routes

def Unshadowed (routes : List Route) : Prop :=
  ∀ r, Best routes r → r.egressIntf ≠ 0 → Exposed routes r

/-! The best routes when one more is there. -/

theorem Best.admDist_eq (hq : Best routes q) (hr : Best routes r)
    (hqr : q.network = r.network) : q.admDist = r.admDist :=
  Int.le_antisymm (hq.least r hr.mem hqr.symm) (hr.least q hq.mem hqr)

theorem best_append_worse (hq : q ∈ routes) (hqx : q.network = x.network)
    (hlt : q.admDist < x.admDist) : Best (routes ++ [x]) r ↔ Best routes r := by
  constructor
  · intro h
    refine ⟨?_, fun p hp => h.least p (List.mem_append_left _ hp)⟩
    rcases List.mem_append.mp h.mem with hr | hr
    · exact hr
    · obtain rfl := List.mem_singleton.mp hr
      have hle := h.least q (List.mem_append_left _ hq) hqx
      omega
  · intro h
    refine ⟨List.mem_append_left _ h.mem, fun p hp hpr => ?_⟩
    rcases List.mem_append.mp hp with hp | hp
    · exact h.least p hp hpr
    · obtain rfl := List.mem_singleton.mp hp
      have hle := h.least q hq (hqx.trans hpr)
      omega

theorem best_append_better (hx : ∀ q ∈ routes, q.network = x.network → x.admDist < q.admDist) :
    Best (routes ++ [x]) r ↔ r = x ∨ Best routes r ∧ r.network ≠ x.network := by
  constructor
  · intro h
    rcases List.mem_append.mp h.mem with hr | hr
    · refine .inr ⟨⟨hr, fun p hp => h.least p (List.mem_append_left _ hp)⟩, fun hrx => ?_⟩
      have hle := h.least x (List.mem_append_right _ (List.mem_singleton_self x)) hrx.symm
      have hlt := hx r hr hrx
      omega
    · exact .inl (List.mem_singleton.mp hr)
  · rintro (rfl | ⟨h, hne⟩)
    · refine ⟨List.mem_append_right _ (List.mem_singleton_self r), fun p hp hpr => ?_⟩
      rcases List.mem_append.mp hp with hp | hp
      · exact (hx p hp hpr).le
      · rw [List.mem_singleton.mp hp]
    · refine ⟨List.mem_append_left _ h.mem, fun p hp hpr => ?_⟩
      rcases List.mem_append.mp hp with hp | hp
      · exact h.least p hp hpr
      · rw [List.mem_singleton.mp hp] at hpr
        exact absurd hpr.symm hne

theorem best_append_same (hq : Best routes q) (hqx : q.network = x.network)
    (heq : q.admDist = x.admDist) : Best (routes ++ [x]) r ↔ r = x ∨ Best routes r := by
  constructor
  · intro h
    rcases List.mem_append.mp h.mem with hr | hr
    · exact .inr ⟨hr, fun p hp => h.least p (List.mem_append_left _ hp)⟩
    · exact .inl (List.mem_singleton.mp hr)
  · rintro (rfl | h)
    · refine ⟨List.mem_append_right _ (List.mem_singleton_self r), fun p hp hpr => ?_⟩
      rcases List.mem_append.mp hp with hp | hp
      · exact heq ▸ hq.least p hp (hpr.trans hqx.symm)
      · rw [List.mem_singleton.mp hp]
    · refine ⟨List.mem_append_left _ h.mem, fun p hp hpr => ?_⟩
      rcases List.mem_append.mp hp with hp | hp
      · exact h.least p hp hpr
      · obtain rfl := List.mem_singleton.mp hp
        rw [← heq]
        exact h.least q hq.mem (hqx.trans hpr)

/-! What is exposed when one more is there. -/

theorem exposed_append_better_self
    (hx : ∀ q ∈ routes, q.network = x.network → x.admDist < q.admDist)
    (hrx : r.network = x.network) : Exposed (routes ++ [x]) r ↔ x.SamePath r := by
  have hbest : ∀ r, Best (routes ++ [x]) r ↔ r = x ∨ Best routes r ∧ r.network ≠ x.network :=
    fun r => best_append_better hx
  have hself : x ∉ routes := fun hmem => absurd (hx x hmem rfl) (Int.lt_irrefl _)
  have hnone : ¬ Earliest (fun r' => Best (routes ++ [x]) r' ∧ r'.SamePath r)
      (fun q r' => Best (routes ++ [x]) q → ¬ q.Shadows r') routes := fun hearly => by
    obtain ⟨r', hr', hbest', hpath⟩ := hearly.exists_mem
    rcases (hbest r').mp hbest' with rfl | ⟨-, hne⟩
    · exact hself hr'
    · exact hne (hpath.network.trans hrx)
  unfold Exposed
  rw [Earliest.append_singleton, or_iff_right hnone]
  constructor
  · rintro ⟨⟨-, hpath⟩, -⟩
    exact hpath
  · intro hpath
    refine ⟨⟨(hbest x).mpr (.inl rfl), hpath⟩, fun p hp hbest' hshadow => ?_⟩
    rcases (hbest p).mp hbest' with rfl | ⟨-, hne⟩
    · exact hself hp
    · exact hne hshadow.1

theorem exposed_append_better
    (hx : ∀ q ∈ routes, q.network = x.network → x.admDist < q.admDist)
    (hrx : r.network ≠ x.network) : Exposed (routes ++ [x]) r ↔ Exposed routes r := by
  have hbest : ∀ r, Best (routes ++ [x]) r ↔ r = x ∨ Best routes r ∧ r.network ≠ x.network :=
    fun r => best_append_better hx
  have hself : x ∉ routes := fun hmem => absurd (hx x hmem rfl) (Int.lt_irrefl _)
  unfold Exposed
  rw [Earliest.append_singleton, or_iff_left fun hand => hrx hand.1.2.network.symm]
  apply Earliest.congr
  · intro r' hr'
    apply and_congr_left
    intro hr'r
    have hne : r'.network ≠ x.network := hr'r.network ▸ hrx
    have hne' : r' ≠ x := fun heq => hself (heq ▸ hr')
    rw [hbest, or_iff_right hne', and_iff_left hne]
  · intro q hq r' _ hr'
    have hne : r'.network ≠ x.network := hr'.2.network ▸ hrx
    constructor
    · intro hall hbest' hshadow
      exact hall ((hbest q).mpr (.inr ⟨hbest', hshadow.1 ▸ hne⟩)) hshadow
    · intro hall hbest' hshadow
      rcases (hbest q).mp hbest' with rfl | ⟨hb, -⟩
      · exact hself hq
      · exact hall hb hshadow

theorem exposed_append_same (hq : Best routes q) (hqx : q.network = x.network)
    (heq : q.admDist = x.admDist) : Exposed (routes ++ [x]) r ↔ Exposed routes r ∨
      x.SamePath r ∧ ∀ p ∈ routes, Best routes p → ¬ p.Shadows x := by
  have hbest : ∀ r, Best (routes ++ [x]) r ↔ r = x ∨ Best routes r := fun r =>
    best_append_same hq hqx heq
  have hold : ∀ r ∈ routes, Best (routes ++ [x]) r ↔ Best routes r := by
    intro r hr
    rw [hbest]
    refine or_iff_right_of_imp ?_
    rintro rfl
    refine ⟨hr, fun p hp hpr => ?_⟩
    rw [← heq]
    exact hq.least p hp (hpr.trans hqx.symm)
  unfold Exposed
  rw [Earliest.append_singleton]
  apply or_congr
  · apply Earliest.congr
    · intro r' hr'
      rw [hold r' hr']
    · intro p hp r' _ _
      rw [hold p hp]
  · rw [and_iff_right ((hbest x).mpr (.inl rfl))]
    apply and_congr_right
    intro _
    refine forall₂_congr fun p hp => ?_
    rw [hold p hp]

/-! What `insert` does in each case. -/

theorem insert_of_lt_admDist (h : Ranked tbl)
    (hall : ∀ q ∈ tbl, q.network = r.network → q.admDist < r.admDist) (hq : q ∈ tbl)
    (hqr : q.network = r.network) : tbl.insert r = tbl := by
  have hmem : q ∈ tbl.equalRange r := (mem_equalRange h).mpr ⟨hq, hqr⟩
  unfold RoutingTable.insert
  split
  · next hnil =>
    rw [hnil] at hmem
    exact absurd hmem List.not_mem_nil
  · next q' qs hcons =>
    have hq' := (mem_equalRange h (r := r)).mp (hcons ▸ List.mem_cons_self ..)
    rw [if_pos (hall q' hq'.1 hq'.2)]

theorem insert_of_eq_admDist (h : Ranked tbl)
    (hall : ∀ q ∈ tbl, q.network = r.network → q.admDist = r.admDist) :
    (∃ q ∈ tbl, q.hasSamePath r = true) ∧ tbl.insert r = tbl ∨
      (¬ ∃ q ∈ tbl, q.hasSamePath r = true) ∧
        tbl.insert r = Ordered.insertMulti Route.lt r tbl := by
  have hrange : (∃ q ∈ tbl, q.hasSamePath r = true) ↔
      ∃ q ∈ tbl.equalRange r, q.hasSamePath r = true := by
    constructor
    · rintro ⟨q, hq, hpath⟩
      exact ⟨q, (mem_equalRange h).mpr ⟨hq, Route.network_of_hasSamePath hpath⟩, hpath⟩
    · rintro ⟨q, hq, hpath⟩
      exact ⟨q, ((mem_equalRange h).mp hq).1, hpath⟩
  rw [hrange]
  unfold RoutingTable.insert
  split
  · next hnil =>
    rw [hnil]
    exact .inr ⟨by simp, rfl⟩
  · next q' qs hcons =>
    have hq' := (mem_equalRange h (r := r)).mp (hcons ▸ List.mem_cons_self ..)
    have heq := hall q' hq'.1 hq'.2
    rw [hcons, if_neg (by omega), if_neg (by omega), ← List.any_eq_true]
    split_ifs with hany
    · exact .inl ⟨hany, rfl⟩
    · exact .inr ⟨hany, rfl⟩

structure Kept (routes : List Route) (tbl : RoutingTable) : Prop where
  ranked : Ranked tbl
  best : ∀ q ∈ tbl, Best routes q
  network : ∀ r ∈ routes, ∃ q ∈ tbl, q.network = r.network
  single : tbl.Pairwise fun q r => ¬ q.SamePath r
  plain : ∀ r, Best routes r → r.egressIntf = 0 → ∃ q ∈ tbl, q.SamePath r
  connected : ∀ r, r.egressIntf ≠ 0 → ((∃ q ∈ tbl, q.SamePath r) ↔ Exposed routes r)

theorem kept_nil : Kept [] [] where
  ranked := .nil
  best := by simp
  network := by simp
  single := .nil
  plain r h := by simpa using h.mem
  connected r _ := by simp [Exposed, Earliest]

theorem Kept.network_append (h : Kept routes tbl) {tbl' : RoutingTable}
    (hold : ∀ q ∈ tbl, ∃ q' ∈ tbl', q'.network = q.network)
    (hx : ∃ q' ∈ tbl', q'.network = x.network) :
    ∀ r ∈ routes ++ [x], ∃ q ∈ tbl', q.network = r.network := by
  intro r hr
  rcases List.mem_append.mp hr with hr | hr
  · obtain ⟨q, hq, hqr⟩ := h.network r hr
    obtain ⟨q', hq', hqq'⟩ := hold q hq
    exact ⟨q', hq', hqq'.trans hqr⟩
  · rw [List.mem_singleton.mp hr]
    exact hx

theorem Kept.worse (h : Kept routes tbl) (hq : q ∈ tbl) (hqx : q.network = x.network)
    (hlt : q.admDist < x.admDist) : Kept (routes ++ [x]) (tbl.insert x) := by
  have hbest : ∀ r, Best (routes ++ [x]) r ↔ Best routes r := fun r =>
    best_append_worse (h.best q hq).mem hqx hlt
  have hinsert : tbl.insert x = tbl := by
    apply insert_of_lt_admDist h.ranked _ hq hqx
    intro p hp hpx
    rw [(h.best p hp).admDist_eq (h.best q hq) (hpx.trans hqx.symm)]
    exact hlt
  have hx : ¬ Best routes x := fun hx => by
    have hle := hx.least q (h.best q hq).mem hqx
    omega
  rw [hinsert]
  refine ⟨h.ranked, fun q hq => (hbest q).mpr (h.best q hq),
    h.network_append (fun p hp => ⟨p, hp, rfl⟩) ⟨q, hq, hqx⟩, h.single,
    fun r hr => h.plain r ((hbest r).mp hr), fun r hr => ?_⟩
  rw [h.connected r hr]
  unfold Exposed
  simp only [hbest, Earliest.append_singleton, hx, false_and, or_false]

theorem Kept.better (h : Kept routes tbl)
    (hx : ∀ q ∈ routes, q.network = x.network → x.admDist < q.admDist) :
    Kept (routes ++ [x]) (tbl.insert x) := by
  have hbest : ∀ r, Best (routes ++ [x]) r ↔ r = x ∨ Best routes r ∧ r.network ≠ x.network :=
    fun r => best_append_better hx
  rw [insert_eq_update h.ranked fun q hq => hx q (h.best q hq).mem]
  have hmem : ∀ q, q ∈ tbl.update x ↔ q = x ∨ q ∈ tbl ∧ q.network ≠ x.network := fun q =>
    mem_update
  refine ⟨h.ranked.update x, fun q hq => ?_, h.network_append (fun q hq => ?_) ?_, ?_,
    fun r hr h₀ => ?_, fun r hr => ?_⟩
  · rw [hbest]
    exact ((hmem q).mp hq).imp_right fun hq => ⟨h.best q hq.1, hq.2⟩
  · by_cases hqx : q.network = x.network
    · exact ⟨x, (hmem x).mpr (.inl rfl), hqx.symm⟩
    · exact ⟨q, (hmem q).mpr (.inr ⟨hq, hqx⟩), rfl⟩
  · exact ⟨x, (hmem x).mpr (.inl rfl), rfl⟩
  · refine ((Ordered.insertMulti_perm x _).pairwise_iff fun hab hba => hab hba.symm).mpr ?_
    refine List.pairwise_cons.mpr ⟨fun q hq hpath => ?_, h.single.sublist List.filter_sublist⟩
    exact (mem_erase.mp hq).2 hpath.network.symm
  · rcases (hbest r).mp hr with rfl | ⟨hr, hrx⟩
    · exact ⟨r, (hmem r).mpr (.inl rfl), Route.SamePath.refl r⟩
    · obtain ⟨q, hq, hqr⟩ := h.plain r hr h₀
      exact ⟨q, (hmem q).mpr (.inr ⟨hq, hqr.network ▸ hrx⟩), hqr⟩
  · by_cases hrx : r.network = x.network
    · rw [exposed_append_better_self hx hrx]
      constructor
      · rintro ⟨q, hq, hpath⟩
        rcases (hmem q).mp hq with rfl | ⟨-, hne⟩
        · exact hpath
        · exact absurd (hpath.network.trans hrx) hne
      · intro hpath
        exact ⟨x, (hmem x).mpr (.inl rfl), hpath⟩
    · rw [exposed_append_better hx hrx, ← h.connected r hr]
      constructor
      · rintro ⟨q, hq, hqr⟩
        rcases (hmem q).mp hq with rfl | ⟨hq, -⟩
        · exact absurd hqr.network.symm hrx
        · exact ⟨q, hq, hqr⟩
      · rintro ⟨q, hq, hqr⟩
        exact ⟨q, (hmem q).mpr (.inr ⟨hq, hqr.network ▸ hrx⟩), hqr⟩

theorem Kept.same_shut (h : Kept routes tbl) (hq : q ∈ tbl) (hqx : q.hasSamePath x = true)
    (heq : q.admDist = x.admDist) : Kept (routes ++ [x]) tbl := by
  have hnet := Route.network_of_hasSamePath hqx
  have hbest : ∀ r, Best (routes ++ [x]) r ↔ r = x ∨ Best routes r := fun r =>
    best_append_same (h.best q hq) hnet heq
  refine ⟨h.ranked, fun r hr => (hbest r).mpr (.inr (h.best r hr)),
    h.network_append (fun p hp => ⟨p, hp, rfl⟩) ⟨q, hq, hnet⟩, h.single, fun r hr h₀ => ?_,
    fun r hr => ?_⟩
  · rcases (hbest r).mp hr with rfl | hr
    · rcases Route.hasSamePath_iff.mp hqx with hshadow | ⟨-, hpath⟩
      · exact ⟨q, hq, hshadow.samePath h₀⟩
      · exact ⟨q, hq, hpath⟩
    · exact h.plain r hr h₀
  · rw [exposed_append_same (h.best q hq) hnet heq, ← h.connected r hr]
    symm
    apply or_iff_left_of_imp
    rintro ⟨hpath, hclear⟩
    rcases Route.hasSamePath_iff.mp hqx with hshadow | ⟨-, hpath'⟩
    · exact absurd hshadow (hclear q (h.best q hq).mem (h.best q hq))
    · exact ⟨q, hq, hpath'.trans hpath⟩

theorem Kept.same_added (h : Kept routes tbl) (hq : q ∈ tbl) (hqx : q.network = x.network)
    (heq : q.admDist = x.admDist) (hnone : ¬ ∃ p ∈ tbl, p.hasSamePath x = true) :
    Kept (routes ++ [x]) (Ordered.insertMulti Route.lt x tbl) := by
  have hbest : ∀ r, Best (routes ++ [x]) r ↔ r = x ∨ Best routes r := fun r =>
    best_append_same (h.best q hq) hqx heq
  have hmem : ∀ r, r ∈ Ordered.insertMulti Route.lt x tbl ↔ r = x ∨ r ∈ tbl := fun r =>
    Ordered.mem_insertMulti
  refine ⟨h.ranked.insertMulti x, fun r hr => ?_,
    h.network_append (fun p hp => ⟨p, (hmem p).mpr (.inr hp), rfl⟩)
      ⟨x, (hmem x).mpr (.inl rfl), rfl⟩, ?_, fun r hr h₀ => ?_, fun r hr => ?_⟩
  · rw [hbest]
    exact ((hmem r).mp hr).imp_right (h.best r)
  · refine ((Ordered.insertMulti_perm x tbl).pairwise_iff fun hab hba => hab hba.symm).mpr ?_
    refine List.pairwise_cons.mpr ⟨fun p hp hpath => ?_, h.single⟩
    exact hnone ⟨p, hp, hpath.symm.hasSamePath⟩
  · rcases (hbest r).mp hr with rfl | hr
    · exact ⟨r, (hmem r).mpr (.inl rfl), Route.SamePath.refl r⟩
    · obtain ⟨p, hp, hpr⟩ := h.plain r hr h₀
      exact ⟨p, (hmem p).mpr (.inr hp), hpr⟩
  · rw [exposed_append_same (h.best q hq) hqx heq, ← h.connected r hr]
    constructor
    · rintro ⟨p, hp, hpath⟩
      rcases (hmem p).mp hp with rfl | hp
      · refine .inr ⟨hpath, fun s hs hbest' hshadow => ?_⟩
        -- what shadows the new route is itself stored, and would have kept it out
        obtain ⟨s', hs', hs's⟩ := h.plain s hbest' hshadow.2.1
        have h₀ : s'.egressIntf = 0 := hs's.egressIntf.trans hshadow.2.1
        have hshadow' : s'.Shadows p := ⟨hs's.network.trans hshadow.1, h₀,
          (hs's.nextHop h₀).trans hshadow.2.2⟩
        exact hnone ⟨s', hs', Route.hasSamePath_iff.mpr (.inl hshadow')⟩
      · exact .inl ⟨p, hp, hpath⟩
    · rintro (⟨p, hp, hpath⟩ | ⟨hpath, -⟩)
      · exact ⟨p, (hmem p).mpr (.inr hp), hpath⟩
      · exact ⟨x, (hmem x).mpr (.inl rfl), hpath⟩

theorem Kept.same (h : Kept routes tbl) (hq : q ∈ tbl) (hqx : q.network = x.network)
    (heq : q.admDist = x.admDist) : Kept (routes ++ [x]) (tbl.insert x) := by
  have hdist : ∀ p ∈ tbl, p.network = x.network → p.admDist = x.admDist := by
    intro p hp hpx
    rw [(h.best p hp).admDist_eq (h.best q hq) (hpx.trans hqx.symm), heq]
  rcases insert_of_eq_admDist h.ranked hdist with ⟨⟨p, hp, hpx⟩, hsame⟩ | ⟨hnone, hnew⟩
  · rw [hsame]
    exact h.same_shut hp hpx (hdist p hp (Route.network_of_hasSamePath hpx))
  · rw [hnew]
    exact h.same_added hq hqx heq hnone

theorem Kept.insert (h : Kept routes tbl) (x : Route) : Kept (routes ++ [x]) (tbl.insert x) := by
  by_cases hnet : ∃ q ∈ tbl, q.network = x.network
  · obtain ⟨q, hq, hqx⟩ := hnet
    rcases lt_trichotomy q.admDist x.admDist with hlt | heq | hgt
    · exact h.worse hq hqx hlt
    · exact h.same hq hqx heq
    · apply h.better
      intro p hp hpx
      exact hgt.trans_le ((h.best q hq).least p hp (hpx.trans hqx.symm))
  · apply h.better
    intro p hp hpx
    obtain ⟨q, hq, hqp⟩ := h.network p hp
    exact absurd ⟨q, hq, hqp.trans hpx⟩ hnet

def ofRoutes (routes : List Route) : RoutingTable := routes.foldl insert []

theorem kept_ofRoutes (routes : List Route) : Kept routes (ofRoutes routes) := by
  induction routes using List.reverseRecOn with
  | nil => exact kept_nil
  | append_singleton routes x ih =>
    have hfold : ofRoutes (routes ++ [x]) = (ofRoutes routes).insert x := List.foldl_concat ..
    rw [hfold]
    exact ih.insert x

theorem selects_ofRoutes_iff : Selects routes (ofRoutes routes) ↔ Unshadowed routes := by
  have h := kept_ofRoutes routes
  constructor
  · intro hs r hr h₀
    exact (h.connected r h₀).mp (hs.found r hr)
  · intro hu
    refine ⟨h.best, fun r hr => ?_, h.single⟩
    by_cases h₀ : r.egressIntf = 0
    · exact h.plain r hr h₀
    · exact (h.connected r h₀).mpr (hu r hr h₀)

/-! Tables with the same paths lead to the same next hops. -/

def PathsIn (tbl tbl' : RoutingTable) : Prop := ∀ q ∈ tbl, ∃ q' ∈ tbl', q.SamePath q'

theorem Best.perm {routes' : List Route} (hperm : routes.Perm routes') (h : Best routes r) :
    Best routes' r :=
  ⟨hperm.mem_iff.mp h.mem, fun q hq => h.least q (hperm.mem_iff.mpr hq)⟩

theorem Selects.pathsIn {routes' : List Route} {tbl' : RoutingTable} (h : Selects routes tbl)
    (h' : Selects routes' tbl') (hperm : routes.Perm routes') : PathsIn tbl tbl' := by
  intro q hq
  obtain ⟨q', hq', hpath⟩ := h'.found q ((h.best q hq).perm hperm)
  exact ⟨q', hq', hpath.symm⟩

theorem Longest.pathsIn {tbl' : RoutingTable} {dst : IPv4Address} (hback : PathsIn tbl' tbl)
    (h : tbl.Longest dst q) (hpath : q.SamePath r) : tbl'.Longest dst r := by
  refine ⟨hpath.network ▸ h.1, fun p hp hc => ?_⟩
  obtain ⟨p', hp', hpp'⟩ := hback p hp
  have hle := h.2 p' hp' (hpp'.network ▸ hc)
  rw [hpp'.network, ← hpath.network]
  exact hle

end RoutingTable

namespace Network

open RoutingTable

variable {net : Network} {n : NodePtr} {tbl tbl' : RoutingTable} {x y : IPv4Address}

theorem Forwards.pathsIn (h : PathsIn tbl tbl') (hback : PathsIn tbl' tbl)
    (hf : Forwards tbl x y) : Forwards tbl' x y := by
  obtain ⟨r, hr, hlong, h₀, rfl⟩ := hf
  obtain ⟨r', hr', hpath⟩ := h r hr
  exact ⟨r', hr', hlong.pathsIn hback hpath, hpath.egressIntf.symm.trans h₀,
    (hpath.nextHop h₀).symm⟩

theorem Connects.pathsIn {hop : FibIpnh} (h : PathsIn tbl tbl') (hback : PathsIn tbl' tbl)
    (hc : Connects net n tbl x hop) : Connects net n tbl' x hop := by
  obtain ⟨r, hr, hlong, h₀, hres⟩ := hc
  obtain ⟨r', hr', hpath⟩ := h r hr
  rw [hpath.egressIntf] at h₀ hres
  exact ⟨r', hr', hlong.pathsIn hback hpath, h₀, hres⟩

theorem getIpnhs_pathsIn (net : Network) (n : NodePtr) (htbl : Ranked tbl) (htbl' : Ranked tbl')
    (h : PathsIn tbl tbl') (hback : PathsIn tbl' tbl) (dst : IPv4Address) :
    net.getIpnhs n tbl dst = net.getIpnhs n tbl' dst := by
  have hforwards : Forwards tbl = Forwards tbl' := by
    funext x y
    exact propext ⟨fun hf => hf.pathsIn h hback, fun hf => hf.pathsIn hback h⟩
  have hconnects : Connects net n tbl = Connects net n tbl' := by
    funext x hop
    exact propext ⟨fun hc => hc.pathsIn h hback, fun hc => hc.pathsIn hback h⟩
  obtain ⟨nhs, hget, hs, hm⟩ := getIpnhs_spec_closure net n htbl dst
  obtain ⟨nhs', hget', hs', hm'⟩ := getIpnhs_spec_closure net n htbl' dst
  rw [hget, hget', hs.ext hs']
  intro hop
  rw [hm, hm', hforwards, hconnects]

end Network

namespace RoutingTable

/-- Inserting routes one by one selects one of each best path exactly if every path over an
interface has a route in front of what shadows it. Two orders in which this is so lead to the
same next hops. -/
theorem insertion_selects (routes : List Route) :
    (Selects routes (ofRoutes routes) ↔ Unshadowed routes) ∧
      ∀ routes' : List Route, routes.Perm routes' → Unshadowed routes → Unshadowed routes' →
        ∀ (net : Network) (n : NodePtr) (dst : IPv4Address),
          net.getIpnhs n (ofRoutes routes) dst = net.getIpnhs n (ofRoutes routes') dst := by
  refine ⟨selects_ofRoutes_iff, fun routes' hperm hu hu' net n dst => ?_⟩
  have hs := selects_ofRoutes_iff.mpr hu
  have hs' := selects_ofRoutes_iff.mpr hu'
  apply Network.getIpnhs_pathsIn net n (kept_ofRoutes routes).ranked (kept_ofRoutes routes').ranked
  · exact hs.pathsIn hs' hperm
  · exact hs'.pathsIn hs hperm.symm

def shadowing : List Route :=
  [⟨⟨⟨0x0a000000#32, 24, twentyFour_le⟩, Network.isNetwork_10⟩, 0x0a000101#32, 0, 1⟩,
    ⟨⟨⟨0x0a000000#32, 24, twentyFour_le⟩, Network.isNetwork_10⟩, 0x0a000101#32, 1, 1⟩]

theorem not_selects : ¬ ∀ routes : List Route, Selects routes (ofRoutes routes) := by
  intro hall
  have hmem : shadowing[1] ∈ shadowing := by decide
  have hbest : Best shadowing shadowing[1] := ⟨hmem, by decide⟩
  obtain ⟨q, hq, hpath⟩ := (hall shadowing).found _ hbest
  have honly : ∀ q ∈ ofRoutes shadowing, q.egressIntf = 0 := by decide
  have h₁ := hpath.egressIntf
  rw [honly q hq] at h₁
  exact absurd h₁ (by decide)

end RoutingTable

end Neo
