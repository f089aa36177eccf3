import Neo.Network.L2Lan

/-! The discovery of the L2 LANs of a network. LANs with equal tables are taken for one, so that
switches without links have no LANs of their own. -/

namespace Neo

@[ext] structure L2Lans where
  lans : List L2LanTbl
  lanOf : NodePtr × IntfPtr → Option L2LanTbl

namespace L2Lans

/-- `set_l2lan` for some interfaces. -/
def setL2Lan (st : L2Lans) (lan : L2LanTbl) (eps : List (NodePtr × IntfPtr)) : L2Lans :=
  { st with lanOf := eps.foldl (fun m e => Function.update m e (some lan)) st.lanOf }

/-- A LAN with the same table is used instead of a new one. -/
def insert (st : L2Lans) (lan : L2LanTbl) : L2Lans × L2LanTbl :=
  match st.lans.find? fun l => l.tbl = lan.tbl with
  | some l => (st, l)
  | none => ({ st with lans := lan :: st.lans }, lan)

end L2Lans

namespace Topology

variable (t : Topology)

def growAndSetL2Lan (st : L2Lans) (n : NodePtr) : Option L2Lans := do
  let lan ← t.l2Lan n
  let (st, lan) := st.insert lan
  return (st.setL2Lan lan lan.l2Endpoints).setL2Lan lan (lan.l3Endpoints.map Prod.snd)

/-- The end of `parse_network`: every interface that is not mapped yet starts a LAN. -/
def populateL2Lans : Option L2Lans :=
  t.endpoints.foldlM (fun st e =>
    if (st.lanOf e).isSome then some st else t.growAndSetL2Lan st e.1) ⟨[], fun _ => none⟩

structure Discovers (st : L2Lans) : Prop where
  mapped : ∀ n ∈ t.nodes, ∀ i ∈ t.intfsL2 n, ∃ lan, st.lanOf (n, i) = some lan ∧
    t.IsComponent n lan.toL2Lan
  start : ∀ n ∈ t.nodes, ∀ m, t.Connected n m → ∃ lan lan', t.l2Lan n = some lan ∧
    t.l2Lan m = some lan' ∧ SameEndpoints lan.toL2Lan lan'.toL2Lan
  attached : ∀ n ∈ t.nodes, ∀ i ∈ t.intfsL2 n, ∀ p, t.peer (n, i) = some p →
    (t.intf p.2).isL2 = false → ∃ lan, st.lanOf (n, i) = some lan ∧ st.lanOf p = some lan
  asked : ∀ n ∈ t.nodes, ∀ i ∈ (t.node n).intfs, ∀ p, t.peer (n, i) = some p →
    (t.intf p.2).isL2 = true → (st.lanOf p).isSome = true

structure Isolated (n : NodePtr) : Prop where
  switch : t.intfsL2 n ≠ []
  unlinked : ∀ i ∈ t.intfsL2 n, t.peer (n, i) = none

structure Distinct : Prop where
  isolated : ∀ n ∈ t.nodes, ∀ m ∈ t.nodes, t.Isolated n → t.Isolated m → n = m
  addr : ∀ n ∈ t.nodes, ∀ p q, t.Attached n p → t.Attached n q →
    (t.intf p.2).addr = (t.intf q.2).addr → p = q

variable {t}

variable {lan lan' : L2LanTbl} {e : NodePtr × IntfPtr} {n : NodePtr} {i : IntfPtr}

/-! ### Where LANs meet -/

theorem Wired.peer_symm (h : t.Wired) {p : NodePtr × IntfPtr} (hn : e.1 ∈ t.nodes)
    (hi : e.2 ∈ (t.node e.1).intfs) (hpeer : t.peer e = some p) : t.peer p = some e :=
  h.symm e.1 hn e.2 hi p.1 p.2 hpeer

theorem Connected.nodes {n m : NodePtr} (hn : n ∈ t.nodes) (h : t.Connected n m) : m ∈ t.nodes := by
  induction h with
  | refl => exact hn
  | tail _ hlink _ =>
    obtain ⟨i, -, j, hpeer, -⟩ := hlink
    exact (getPeer_mem hpeer).1

theorem Wired.connected_symm (h : t.Wired) {n m : NodePtr} (hn : n ∈ t.nodes)
    (hm : t.Connected n m) : t.Connected m n := by
  induction hm with
  | refl => exact .refl
  | tail hk hlink ih =>
    obtain ⟨i, hi, j, hpeer, hl2⟩ := hlink
    obtain ⟨hintf, hi2⟩ := mem_intfsL2.mp hi
    have hback := h.peer_symm (e := (_, i)) (Connected.nodes hn hk) hintf hpeer
    exact .head ⟨j, peer_mem_intfsL2 hpeer hl2, i, hback, hi2⟩ ih

def Member (lan : L2LanTbl) (e : NodePtr × IntfPtr) : Prop :=
  e ∈ lan.l2Endpoints ∨ e ∈ lan.l3Endpoints.map Prod.snd

theorem member_cases (h : t.l2Lan n = some lan) (he : Member lan e) :
    (t.intf e.2).isL2 = true ∧ t.Connected n e.1 ∨
      (t.intf e.2).isL2 = false ∧
        ∃ m, t.Connected n m ∧ ∃ i ∈ t.intfsL2 m, t.peer (m, i) = some e := by
  rcases he with he | he
  · obtain ⟨hm, hi⟩ := (mem_l2Lan h e.1 e.2).mp he
    exact .inl ⟨(mem_intfsL2.mp hi).2, hm⟩
  · obtain ⟨⟨a, p⟩, hp, rfl⟩ := List.mem_map.mp he
    obtain ⟨-, hl2, ⟨m, i⟩, hmem, hpeer⟩ := (gathered_l2Lan h).l3 a p hp
    obtain ⟨hm, hi⟩ := (mem_l2Lan h m i).mp hmem
    exact .inr ⟨hl2, m, hm, i, hi, hpeer⟩

theorem Wired.connected_of_member (h : t.Wired) {n' : NodePtr} (hn : n ∈ t.nodes)
    (hn' : n' ∈ t.nodes) (hlan : t.l2Lan n = some lan) (hlan' : t.l2Lan n' = some lan')
    (he : Member lan e) (he' : Member lan' e) : t.Connected n' n := by
  rcases member_cases hlan he with ⟨hl2, hm⟩ | ⟨hl2, m, hm, i, hi, hpeer⟩
  · rcases member_cases hlan' he' with ⟨-, hm'⟩ | ⟨hl2', -⟩
    · exact hm'.trans (h.connected_symm hn hm)
    · exact absurd (hl2.symm.trans hl2') (by decide)
  · rcases member_cases hlan' he' with ⟨hl2', -⟩ | ⟨-, m', hm', i', hi', hpeer'⟩
    · exact absurd (hl2'.symm.trans hl2) (by decide)
    · have hback := h.peer_symm (hm.nodes hn) (mem_intfsL2.mp hi).1 hpeer
      have hback' := h.peer_symm (hm'.nodes hn') (mem_intfsL2.mp hi').1 hpeer'
      obtain ⟨rfl, -⟩ := Prod.mk.inj (Option.some.inj (hback.symm.trans hback'))
      exact hm'.trans (h.connected_symm hn hm)

theorem Wired.connected_of_tbl (h : t.Wired) {n' : NodePtr} (hn : n ∈ t.nodes)
    (hlan : t.l2Lan n = some lan) (hlan' : t.l2Lan n' = some lan') (htbl : lan'.tbl = lan.tbl) :
    t.Connected n' n ∨ lan.tbl = ∅ := by
  rcases lan.tbl.eq_empty_or_nonempty with hempty | ⟨⟨m, p⟩, hx⟩
  · exact .inr hempty
  · obtain ⟨i, hi, -⟩ := ((gathered_l2Lan hlan).tbl m p).mp hx
    obtain ⟨i', hi', -⟩ := ((gathered_l2Lan hlan').tbl m p).mp (htbl ▸ hx)
    exact .inl (((mem_l2Lan hlan' m i').mp hi').1.trans
      (h.connected_symm hn ((mem_l2Lan hlan m i).mp hi).1))

theorem isolated_of_tbl (hlan : t.l2Lan n = some lan) (hempty : lan.tbl = ∅)
    (hi : t.intfsL2 n ≠ []) : t.Isolated n := by
  refine ⟨hi, fun i hi => ?_⟩
  cases hpeer : t.peer (n, i) with
  | none => rfl
  | some p =>
    have hmem := ((gathered_l2Lan hlan).tbl n p).mpr
      ⟨i, (mem_l2Lan hlan n i).mpr ⟨.refl, hi⟩, hpeer⟩
    rw [hempty] at hmem
    exact absurd hmem (Finset.notMem_empty _)

theorem Isolated.eq_of_connected {n m : NodePtr} (h : t.Isolated n) (hm : t.Connected n m) :
    m = n := by
  induction hm with
  | refl => rfl
  | tail _ hlink ih =>
    subst ih
    obtain ⟨i, hi, j, hpeer, -⟩ := hlink
    exact absurd (h.unlinked i hi) (by rw [hpeer]; simp)

theorem Isolated.tbl_eq_empty (h : t.Isolated n) (hlan : t.l2Lan n = some lan) : lan.tbl = ∅ := by
  refine Finset.eq_empty_of_forall_notMem fun ⟨m, p⟩ hx => ?_
  obtain ⟨i, hi, hpeer⟩ := ((gathered_l2Lan hlan).tbl m p).mp hx
  obtain ⟨hm, hi⟩ := (mem_l2Lan hlan m i).mp hi
  obtain rfl := h.eq_of_connected hm
  exact absurd (h.unlinked i hi) (by rw [hpeer]; simp)

/-! ### The loop over all interfaces -/

theorem lanOf_setL2Lan (st : L2Lans) (lan : L2LanTbl) (eps : List (NodePtr × IntfPtr))
    (e : NodePtr × IntfPtr) :
    (st.setL2Lan lan eps).lanOf e = if e ∈ eps then some lan else st.lanOf e := by
  rw [L2Lans.setL2Lan]
  dsimp only
  generalize st.lanOf = m
  induction eps generalizing m with
  | nil => simp
  | cons e' eps ih =>
    rw [List.foldl_cons, ih]
    by_cases hmem : e ∈ eps
    · simp [hmem]
    · by_cases heq : e = e'
      · simp [heq]
      · simp [hmem, heq, Function.update_of_ne]

structure Populated (t : Topology) (st : L2Lans) : Prop where
  lan : ∀ lan ∈ st.lans, ∃ n ∈ t.nodes, t.intfsL2 n ≠ [] ∧ t.l2Lan n = some lan
  mapped : ∀ e lan, st.lanOf e = some lan → lan ∈ st.lans ∧ Member lan e
  member : ∀ lan ∈ st.lans, ∀ e, Member lan e → st.lanOf e = some lan
  tbl : ∀ lan ∈ st.lans, ∀ lan' ∈ st.lans, lan.tbl = lan'.tbl → lan = lan'

structure Turn (t : Topology) (st st' : L2Lans) (e : NodePtr × IntfPtr) : Prop where
  populated : t.Populated st'
  lans : ∀ lan ∈ st.lans, lan ∈ st'.lans
  stays : ∀ e', (st.lanOf e').isSome = true → (st'.lanOf e').isSome = true
  mapped : (st'.lanOf e).isSome = true ∨
    ∃ lan ∈ st'.lans, lan.tbl = ∅ ∧ ∃ lan', t.l2Lan e.1 = some lan' ∧ lan'.tbl = ∅

theorem turn_grow (hw : t.Wired) {st : L2Lans} (h : t.Populated st) (he : e ∈ t.endpoints)
    (hnone : st.lanOf e = none) : ∃ st', t.growAndSetL2Lan st e.1 = some st' ∧ t.Turn st st' e := by
  obtain ⟨hn, hi⟩ := mem_endpoints.mp he
  obtain ⟨lan, hlan⟩ := exists_l2Lan hn
  have hmem : e ∈ lan.l2Endpoints := (mem_l2Lan hlan e.1 e.2).mpr ⟨.refl, hi⟩
  -- no other LAN is of a node that is connected
  have hother : ∀ lan' ∈ st.lans, ∀ n', t.l2Lan n' = some lan' → ¬t.Connected n' e.1 := by
    intro lan' hlan' n' hn' hconn
    have hm := h.member lan' hlan' e (.inl ((mem_l2Lan hn' e.1 e.2).mpr ⟨hconn, hi⟩))
    rw [hnone] at hm
    exact absurd hm (by simp)
  have hgrow : t.growAndSetL2Lan st e.1 =
      some ((((st.insert lan).1).setL2Lan (st.insert lan).2 (st.insert lan).2.l2Endpoints).setL2Lan
        (st.insert lan).2 ((st.insert lan).2.l3Endpoints.map Prod.snd)) := by
    rw [growAndSetL2Lan, hlan]
    rfl
  refine ⟨_, hgrow, ?_⟩
  have hlanOf : ∀ (st : L2Lans) (lan : L2LanTbl) (e : NodePtr × IntfPtr),
      ((st.setL2Lan lan lan.l2Endpoints).setL2Lan lan (lan.l3Endpoints.map Prod.snd)).lanOf e =
        if e ∈ lan.l3Endpoints.map Prod.snd then some lan
        else if e ∈ lan.l2Endpoints then some lan else st.lanOf e := fun st lan e => by
    rw [lanOf_setL2Lan, lanOf_setL2Lan]
  rw [L2Lans.insert]
  cases hfind : st.lans.find? fun l => l.tbl = lan.tbl with
  | some l =>
    -- the LAN with the same table is set again
    have hl : l ∈ st.lans := List.mem_of_find?_eq_some hfind
    have htbl : l.tbl = lan.tbl := by simpa using List.find?_some hfind
    obtain ⟨n', hn', -, hln'⟩ := h.lan l hl
    have hempty : lan.tbl = ∅ :=
      (hw.connected_of_tbl hn hlan hln' htbl).resolve_left (hother l hl n' hln')
    have hsame : ((st.setL2Lan l l.l2Endpoints).setL2Lan l (l.l3Endpoints.map Prod.snd)) = st := by
      refine L2Lans.ext rfl (funext fun e' => ?_)
      rw [hlanOf]
      split_ifs with h₃ h₂
      · exact (h.member l hl e' (.inr h₃)).symm
      · exact (h.member l hl e' (.inl h₂)).symm
      · rfl
    dsimp only
    rw [hsame]
    exact ⟨h, fun _ h => h, fun _ h => h, .inr ⟨l, hl, htbl.trans hempty, lan, hlan, hempty⟩⟩
  | none =>
    set st' := ((({ st with lans := lan :: st.lans } : L2Lans).setL2Lan lan
      lan.l2Endpoints).setL2Lan lan (lan.l3Endpoints.map Prod.snd)) with hst'
    have hlans : st'.lans = lan :: st.lans := rfl
    have hof : ∀ e', Member lan e' → st'.lanOf e' = some lan := by
      intro e' he'
      rw [hst', hlanOf]
      split_ifs with h₃ h₂
      · rfl
      · rfl
      · exact absurd he' (not_or.mpr ⟨h₂, h₃⟩)
    have hold : ∀ e', ¬Member lan e' → st'.lanOf e' = st.lanOf e' := by
      intro e' he'
      obtain ⟨h₂, h₃⟩ := not_or.mp he'
      rw [hst', hlanOf, if_neg h₃, if_neg h₂]
    refine ⟨?_, fun l hl => List.mem_cons_of_mem _ hl, fun e' he' => ?_, .inl ?_⟩
    · constructor
      case lan =>
        intro l hl
        rcases List.mem_cons.mp hl with rfl | hl
        · exact ⟨e.1, hn, List.ne_nil_of_mem hi, hlan⟩
        · exact h.lan l hl
      case mapped =>
        intro e' l hl
        by_cases hm : Member lan e'
        · obtain rfl := Option.some.inj ((hof e' hm).symm.trans hl)
          exact ⟨List.mem_cons_self .., hm⟩
        · rw [hold e' hm] at hl
          obtain ⟨hmem, hm⟩ := h.mapped e' l hl
          exact ⟨List.mem_cons_of_mem _ hmem, hm⟩
      case member =>
        intro l hl e' he'
        rcases List.mem_cons.mp hl with rfl | hl
        · exact hof e' he'
        · obtain ⟨n', hn', -, hln'⟩ := h.lan l hl
          rw [hold e' fun hm =>
            hother l hl n' hln' (hw.connected_of_member hn hn' hlan hln' hm he')]
          exact h.member l hl e' he'
      case tbl =>
        have hne : ∀ l ∈ st.lans, l.tbl ≠ lan.tbl := fun l hl heq =>
          absurd (List.find?_eq_none.mp hfind l hl) (by simpa using heq)
        intro l hl l' hl' heq
        rcases List.mem_cons.mp hl with hl | hl
        · rcases List.mem_cons.mp hl' with hl' | hl'
          · exact hl.trans hl'.symm
          · exact absurd (heq.symm.trans (by rw [hl])) (hne l' hl')
        · rcases List.mem_cons.mp hl' with hl' | hl'
          · exact absurd (heq.trans (by rw [hl'])) (hne l hl)
          · exact h.tbl l hl l' hl' heq
    · by_cases hm : Member lan e'
      · rw [hof e' hm]
        rfl
      · rw [hold e' hm]
        exact he'
    · rw [hof e (.inl hmem)]
      rfl

theorem turn_step (hw : t.Wired) {st : L2Lans} (h : t.Populated st) (he : e ∈ t.endpoints) :
    ∃ st', (if (st.lanOf e).isSome then some st else t.growAndSetL2Lan st e.1) = some st' ∧
      t.Turn st st' e := by
  by_cases hsome : (st.lanOf e).isSome = true
  · exact ⟨st, if_pos hsome, h, fun _ h => h, fun _ h => h, .inl hsome⟩
  · rw [if_neg hsome]
    exact turn_grow hw h he (Option.not_isSome_iff_eq_none.mp hsome)

theorem exists_populateL2Lans (hw : t.Wired) : ∃ st, t.populateL2Lans = some st ∧ t.Populated st ∧
    ∀ e ∈ t.endpoints, (st.lanOf e).isSome = true ∨
      ∃ lan ∈ st.lans, lan.tbl = ∅ ∧ ∃ lan', t.l2Lan e.1 = some lan' ∧ lan'.tbl = ∅ := by
  have hloop : ∀ (es : List (NodePtr × IntfPtr)), (∀ e ∈ es, e ∈ t.endpoints) →
      ∀ st, t.Populated st → ∃ st', es.foldlM (fun st e =>
        if (st.lanOf e).isSome then some st else t.growAndSetL2Lan st e.1) st = some st' ∧
        t.Populated st' ∧ (∀ lan ∈ st.lans, lan ∈ st'.lans) ∧
        (∀ e, (st.lanOf e).isSome = true → (st'.lanOf e).isSome = true) ∧
        ∀ e ∈ es, (st'.lanOf e).isSome = true ∨
          ∃ lan ∈ st'.lans, lan.tbl = ∅ ∧ ∃ lan', t.l2Lan e.1 = some lan' ∧ lan'.tbl = ∅ := by
    intro es
    induction es with
    | nil => exact fun _ st h => ⟨st, rfl, h, fun _ h => h, fun _ h => h, by simp⟩
    | cons e es ih =>
      intro hes st h
      obtain ⟨st₁, hst₁, hturn⟩ := turn_step hw h (hes e (List.mem_cons_self ..))
      obtain ⟨st', hst', hpop, hlans, hstays, hall⟩ :=
        ih (fun e he => hes e (List.mem_cons_of_mem _ he)) st₁ hturn.populated
      refine ⟨st', ?_, hpop, fun lan hlan => hlans lan (hturn.lans lan hlan),
        fun e he => hstays e (hturn.stays e he), fun e' he' => ?_⟩
      · rw [List.foldlM_cons, hst₁]
        exact hst'
      · rcases List.mem_cons.mp he' with rfl | he'
        · exact hturn.mapped.imp (hstays e') fun ⟨lan, hlan, hrest⟩ => ⟨lan, hlans lan hlan, hrest⟩
        · exact hall e' he'
  have hempty : t.Populated ⟨[], fun _ => none⟩ := by
    constructor <;> simp
  obtain ⟨st, hst, hpop, -, -, hall⟩ := hloop t.endpoints (fun _ he => he) _ hempty
  exact ⟨st, hst, hpop, hall⟩

/-! ### The condition -/

theorem Populated.isComponent (hw : t.Wired) {st : L2Lans} (h : t.Populated st)
    (hi : i ∈ t.intfsL2 n) (hlan : st.lanOf (n, i) = some lan) :
    t.IsComponent n lan.toL2Lan ∧ (n, i) ∈ lan.l2Endpoints := by
  obtain ⟨hmem, hmember⟩ := h.mapped _ _ hlan
  obtain ⟨n', hn', -, hln'⟩ := h.lan lan hmem
  have hconn : t.Connected n' n := by
    rcases member_cases hln' hmember with ⟨-, hm⟩ | ⟨hl2, -⟩
    · exact hm
    · exact absurd ((mem_intfsL2.mp hi).2.symm.trans hl2) (by decide)
  have hback := hw.connected_symm hn' hconn
  have hc := isComponent_l2Lan hln'
  refine ⟨⟨fun m j => ?_, fun a => ?_⟩, (hc.l2 n i).mpr ⟨hconn, hi⟩⟩
  · rw [hc.l2]
    exact and_congr_left fun _ => ⟨hback.trans, hconn.trans⟩
  · rw [hc.l3]
    refine exists_congr fun p => and_congr_left fun _ => ?_
    exact ⟨fun ⟨m, hm, hrest⟩ => ⟨m, hback.trans hm, hrest⟩,
      fun ⟨m, hm, hrest⟩ => ⟨m, hconn.trans hm, hrest⟩⟩

theorem Attached.of_connected {m : NodePtr} {p : NodePtr × IntfPtr} (hm : t.Connected n m)
    (h : t.Attached m p) : t.Attached n p := by
  obtain ⟨k, hk, hrest⟩ := h
  exact ⟨k, hm.trans hk, hrest⟩

theorem attached_of_mem (hlan : t.l2Lan n = some lan) {a : IPv4Address} {p : NodePtr × IntfPtr}
    (h : (a, p) ∈ lan.l3Endpoints) : t.Attached n p ∧ (t.intf p.2).addr = a := by
  obtain ⟨ha, hl2, ⟨k, j⟩, hkj, hpeer⟩ := (gathered_l2Lan hlan).l3 a p h
  obtain ⟨hconn, hj⟩ := (mem_l2Lan hlan k j).mp hkj
  exact ⟨⟨k, hconn, j, hj, hpeer, hl2⟩, ha⟩

theorem mem_iff_attached (hd : t.Distinct) (hn : n ∈ t.nodes) (hlan : t.l2Lan n = some lan)
    (a : IPv4Address) (p : NodePtr × IntfPtr) :
    (a, p) ∈ lan.l3Endpoints ↔ t.Attached n p ∧ (t.intf p.2).addr = a := by
  refine ⟨attached_of_mem hlan, ?_⟩
  rintro ⟨hp, rfl⟩
  obtain ⟨q, hq⟩ := ((isComponent_l2Lan hlan).l3 (t.intf p.2).addr).mpr ⟨p, hp, rfl⟩
  obtain ⟨hqn, hqa⟩ := attached_of_mem hlan hq
  obtain rfl := hd.addr n hn q p hqn hp hqa
  exact hq

theorem sameEndpoints (hw : t.Wired) (hd : t.Distinct) {m : NodePtr} (hn : n ∈ t.nodes)
    (hm : t.Connected n m) :
    ∃ lan lan', t.l2Lan n = some lan ∧ t.l2Lan m = some lan' ∧
      SameEndpoints lan.toL2Lan lan'.toL2Lan := by
  obtain ⟨lan, hlan⟩ := exists_l2Lan hn
  obtain ⟨lan', hlan'⟩ := exists_l2Lan (hm.nodes hn)
  have hback := hw.connected_symm hn hm
  refine ⟨lan, lan', hlan, hlan', fun e => ?_, fun a p => ?_⟩
  · rw [mem_l2Lan hlan, mem_l2Lan hlan']
    exact and_congr_left fun _ => ⟨hback.trans, hm.trans⟩
  · rw [mem_iff_attached hd hn hlan, mem_iff_attached hd (hm.nodes hn) hlan']
    exact and_congr_left fun _ => ⟨.of_connected hback, .of_connected hm⟩

theorem discovers_of_distinct (hw : t.Wired) {st : L2Lans} (h : t.Populated st)
    (hall : ∀ e ∈ t.endpoints, (st.lanOf e).isSome = true ∨
      ∃ lan ∈ st.lans, lan.tbl = ∅ ∧ ∃ lan', t.l2Lan e.1 = some lan' ∧ lan'.tbl = ∅)
    (hd : t.Distinct) : t.Discovers st := by
  have hmapped : ∀ e ∈ t.endpoints, (st.lanOf e).isSome = true := by
    intro e he
    obtain ⟨hn, hi⟩ := mem_endpoints.mp he
    rcases hall e he with hsome | ⟨lan, hlan, hempty, lan', hlan', hempty'⟩
    · exact hsome
    · -- both switches have no links, and are one
      obtain ⟨m, hm, hm2, hlm⟩ := h.lan lan hlan
      obtain rfl := hd.isolated m hm e.1 hn (isolated_of_tbl hlm hempty hm2)
        (isolated_of_tbl hlan' hempty' (List.ne_nil_of_mem hi))
      rw [h.member lan hlan e (.inl ((mem_l2Lan hlm e.1 e.2).mpr ⟨.refl, hi⟩))]
      rfl
  constructor
  case mapped =>
    intro n hn i hi
    obtain ⟨lan, hlan⟩ := Option.isSome_iff_exists.mp (hmapped (n, i) (mem_endpoints.mpr ⟨hn, hi⟩))
    exact ⟨lan, hlan, (h.isComponent hw hi hlan).1⟩
  case start => exact fun n hn m hm => sameEndpoints hw hd hn hm
  case attached =>
    intro n hn i hi p hpeer hl2
    obtain ⟨lan, hlan⟩ := Option.isSome_iff_exists.mp (hmapped (n, i) (mem_endpoints.mpr ⟨hn, hi⟩))
    obtain ⟨hmem, hmember⟩ := h.mapped _ _ hlan
    have hp : t.Attached n p := ⟨n, .refl, i, hi, hpeer, hl2⟩
    obtain ⟨m, hm, -, hlm⟩ := h.lan lan hmem
    have hconn : t.Connected m n := by
      rcases member_cases hlm hmember with ⟨-, hmn⟩ | ⟨hl2', -⟩
      · exact hmn
      · exact absurd ((mem_intfsL2.mp hi).2.symm.trans hl2') (by decide)
    have hq := (mem_iff_attached hd hm hlm (t.intf p.2).addr p).mpr ⟨hp.of_connected hconn, rfl⟩
    exact ⟨lan, hlan, h.member lan hmem p (.inr (List.mem_map.mpr ⟨_, hq, rfl⟩))⟩
  case asked =>
    intro n hn i hi p hpeer hl2
    exact hmapped p (mem_endpoints.mpr ⟨(getPeer_mem hpeer).1, peer_mem_intfsL2 hpeer hl2⟩)

theorem distinct_of_discovers (hw : t.Wired) {st : L2Lans} (h : t.Populated st)
    (hd : t.Discovers st) : t.Distinct := by
  constructor
  case isolated =>
    intro n hn m hm hin him
    obtain ⟨i, hi⟩ := List.exists_mem_of_ne_nil _ hin.switch
    obtain ⟨j, hj⟩ := List.exists_mem_of_ne_nil _ him.switch
    obtain ⟨lan, hlan, hc⟩ := hd.mapped n hn i hi
    obtain ⟨lan', hlan', hc'⟩ := hd.mapped m hm j hj
    obtain ⟨hmem, -⟩ := h.mapped _ _ hlan
    obtain ⟨hmem', -⟩ := h.mapped _ _ hlan'
    -- a LAN of a switch without links has an empty table
    have hempty : ∀ (n : NodePtr) (i : IntfPtr) (lan : L2LanTbl), n ∈ t.nodes → i ∈ t.intfsL2 n →
        t.Isolated n → st.lanOf (n, i) = some lan → lan.tbl = ∅ := by
      intro n i lan hn hi hin hlan
      obtain ⟨hmem, -⟩ := h.mapped _ _ hlan
      obtain ⟨k, hk, -, hlk⟩ := h.lan lan hmem
      have hni := (h.isComponent hw hi hlan).2
      have hkn := ((mem_l2Lan hlk n i).mp hni).1
      obtain rfl := hin.eq_of_connected (hw.connected_symm hk hkn)
      exact hin.tbl_eq_empty hlk
    obtain rfl := h.tbl lan hmem lan' hmem'
      ((hempty n i lan hn hi hin hlan).trans (hempty m j lan' hm hj him hlan').symm)
    have hmj := (h.isComponent hw hj hlan').2
    exact (hin.eq_of_connected ((hc.l2 m j).mp hmj).1).symm
  case addr =>
    rintro n hn p q ⟨m, hm, i, hi, hpeer, hl2⟩ ⟨m', hm', i', hi', hpeer', hl2'⟩ haddr
    obtain ⟨lan, hlan, hplan⟩ := hd.attached m (hm.nodes hn) i hi p hpeer hl2
    obtain ⟨lan', hlan', hqlan⟩ := hd.attached m' (hm'.nodes hn) i' hi' q hpeer' hl2'
    obtain ⟨hmem, -⟩ := h.mapped _ _ hlan
    -- the LAN of the one switch is that of the other
    have hsame : st.lanOf (m', i') = some lan := by
      obtain ⟨hc, -⟩ := h.isComponent hw hi hlan
      exact h.member lan hmem _ (.inl ((hc.l2 m' i').mpr
        ⟨(hw.connected_symm hn hm).trans hm', hi'⟩))
    obtain rfl := Option.some.inj (hsame.symm.trans hlan')
    obtain ⟨k, hk, -, hlk⟩ := h.lan lan hmem
    have hg := gathered_l2Lan hlk
    have hkey : ∀ r, (t.intf r.2).isL2 = false → st.lanOf r = some lan →
        ((t.intf r.2).addr, r) ∈ lan.l3Endpoints := by
      intro r hr hrlan
      rcases (h.mapped _ _ hrlan).2 with hr2 | hr3
      · have hrl2 := (mem_intfsL2.mp ((mem_l2Lan hlk r.1 r.2).mp hr2).2).2
        exact absurd (hrl2.symm.trans hr) (by decide)
      · obtain ⟨⟨a, r⟩, ha, rfl⟩ := List.mem_map.mp hr3
        rw [(hg.l3 a r ha).1]
        exact ha
    have hp := hkey p hl2 hplan
    rw [haddr] at hp
    exact hg.unique _ p q hp (hkey q hl2' hqlan)

/-- The discovery ends, and every interface is mapped to its LAN if and only if one switch at most
has no links and the addresses in a LAN are distinct. -/
theorem discovers_iff (t : Topology) (h : t.Unlinked) (links : List Link) (t' : Topology)
    (hlinks : t.parseLinks links = some t') :
    ∃ st, t'.populateL2Lans = some st ∧ (t'.Discovers st ↔ t'.Distinct) := by
  have hw := wired_of_parseLinks h hlinks
  obtain ⟨st, hst, hpop, hall⟩ := exists_populateL2Lans hw
  exact ⟨st, hst, distinct_of_discovers hw hpop, discovers_of_distinct hw hpop hall⟩

def switches : Topology where
  nodes := [0, 1]
  node n := ⟨[n + 10], [], Route.weakSorted_nil, [], false⟩
  intf _ := ⟨1, ⟨0#32, 0, zero_le_32⟩, true⟩
  peer_mem := by simp

theorem switches_unlinked : switches.Unlinked := by
  refine ⟨fun n _ m _ i hn hm => ?_, fun n _ i hi j hj _ => ?_, fun _ _ => rfl⟩
  · have hn : i = n + 10 := List.mem_singleton.mp hn
    have hm : i = m + 10 := List.mem_singleton.mp hm
    exact Nat.add_right_cancel (hn.symm.trans hm)
  · rw [List.mem_singleton.mp hi, List.mem_singleton.mp hj]

/-- Without links the switches have LANs with equal tables. -/
theorem not_discovers_switches : switches.Unlinked ∧ switches.parseLinks [] = some switches ∧
    ∃ st, switches.populateL2Lans = some st ∧ ¬switches.Discovers st := by
  have hnone : (switches.populateL2Lans.map fun st => (st.lanOf (1, 11)).isSome) = some false := by
    decide
  obtain ⟨st, hst, hunmapped⟩ := Option.map_eq_some_iff.mp hnone
  refine ⟨switches_unlinked, rfl, st, hst, fun hd => ?_⟩
  obtain ⟨lan, hlan, -⟩ := hd.mapped 1 (by decide) 11 (by decide)
  rw [hlan] at hunmapped
  exact absurd hunmapped (by simp)

def hostedNode : NodePtr → Node
  | 0 => ⟨[10, 11], [], Route.weakSorted_nil, [], false⟩
  | 1 => ⟨[12, 13], [], Route.weakSorted_nil, [], false⟩
  | 2 => ⟨[20], [], Route.weakSorted_nil, [], false⟩
  | 3 => ⟨[30], [], Route.weakSorted_nil, [], false⟩
  | _ => ⟨[], [], Route.weakSorted_nil, [], false⟩

def hosted : Topology where
  nodes := [0, 1, 2, 3]
  node := hostedNode
  intf i := ⟨i, ⟨BitVec.ofNat 32 i, 24, twentyFour_le⟩, i < 20⟩
  peer_mem n p hp := by
    rcases n with _ | _ | _ | _ | n <;> simp [hostedNode] at hp

theorem hosted_unlinked : hosted.Unlinked := by
  refine ⟨by decide, by decide, fun n name => ?_⟩
  show (hostedNode n).l2Peers.lookup name = none
  rcases n with _ | _ | _ | _ | n <;> rfl

def hostedLinks : List Link := [⟨0, 11, 1, 12⟩, ⟨2, 20, 0, 10⟩, ⟨3, 30, 1, 13⟩]

def linked : Topology := (hosted.parseLinks hostedLinks).getD hosted

theorem parseLinks_hosted : hosted.parseLinks hostedLinks = some linked := by
  have hsome : (hosted.parseLinks hostedLinks).isSome = true := by decide
  obtain ⟨t, ht⟩ := Option.isSome_iff_exists.mp hsome
  rw [linked, ht]
  rfl

theorem distinct_linked : linked.Distinct := by
  have hpeers : ∀ n ∈ linked.nodes, linked.intfsL2 n ≠ [] →
      ∃ i ∈ linked.intfsL2 n, linked.peer (n, i) ≠ none := by
    decide
  have haddr : ∀ n ∈ linked.nodes, ∀ i ∈ linked.intfsL2 n, ∀ p ∈ linked.peer (n, i),
      ∀ m ∈ linked.nodes, ∀ j ∈ linked.intfsL2 m, ∀ q ∈ linked.peer (m, j),
        (linked.intf p.2).addr = (linked.intf q.2).addr → p = q := by
    decide
  constructor
  case isolated =>
    intro n hn _ _ hin _
    obtain ⟨i, hi, hpeer⟩ := hpeers n hn hin.switch
    exact absurd (hin.unlinked i hi) hpeer
  case addr =>
    rintro n hn p q ⟨k, hk, i, hi, hp, -⟩ ⟨m, hm, j, hj, hq, -⟩ heq
    exact haddr k (hk.nodes hn) i hi p hp m (hm.nodes hn) j hj q hq heq

theorem discovers_linked : ∃ st, linked.populateL2Lans = some st ∧ linked.Discovers st := by
  obtain ⟨st, hst, hiff⟩ := discovers_iff hosted hosted_unlinked hostedLinks linked
    parseLinks_hosted
  exact ⟨st, hst, hiff.mpr distinct_linked⟩

end Topology

end Neo
