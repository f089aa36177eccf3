import Mathlib.Data.Finset.Card
import Neo.Network.Ipnhs
import Neo.Network.Links

/-! L2 LANs. A LAN is collected from a switch on, which is entered again from its peers while its
interfaces are still gone through. It has what is connected to the switch. -/

namespace Neo

/-- An `L2_LAN` with its table, by which LANs are compared: the nodes with the peers of theirs. -/
structure L2LanTbl extends L2Lan where
  tbl : Finset (NodePtr × NodePtr × IntfPtr)

namespace Topology

variable (t : Topology)

def peer (e : NodePtr × IntfPtr) : Option (NodePtr × IntfPtr) := t.getPeer e.1 (t.intf e.2).name

def enter (lan : L2LanTbl) (e : NodePtr × IntfPtr) : L2LanTbl :=
  let lan := { lan with l2Endpoints := e :: lan.l2Endpoints }
  match t.peer e with
  | none => lan
  | some peer =>
    let lan := { lan with tbl := insert (e.1, peer) lan.tbl }
    if !(t.intf peer.2).isL2 then
      { lan with toL2Lan := lan.setL3Endpoint (t.intf peer.2).addr peer }
    else lan

/-- One turn of the loop of `collect_intfs`, with the nested call. -/
def collectIntf (nested : NodePtr → L2LanTbl → Option L2LanTbl) (n : NodePtr) (lan : L2LanTbl)
    (i : IntfPtr) : Option L2LanTbl :=
  if (n, i) ∈ lan.l2Endpoints then some lan
  else
    let lan := t.enter lan (n, i)
    match t.peer (n, i) with
    | none => some lan
    | some peer =>
      if (t.intf peer.2).isL2 ∧ peer ∉ lan.l2Endpoints then nested peer.1 lan else some lan

/-- `collect_intfs`, with the table; `none` where the fuel runs out. -/
def collectTbl : Nat → NodePtr → L2LanTbl → Option L2LanTbl
  | 0, _, _ => none
  | fuel + 1, n, lan => (t.intfsL2 n).foldlM (t.collectIntf (collectTbl fuel) n) lan

def endpoints : List (NodePtr × IntfPtr) := t.nodes.flatMap fun n => (t.intfsL2 n).map (n, ·)

/-- The constructor of `L2_LAN`. -/
def l2Lan (n : NodePtr) : Option L2LanTbl :=
  t.collectTbl (t.endpoints.length + 1) n ⟨⟨[], []⟩, ∅⟩

/-! ### What a LAN is -/

def Switched (n m : NodePtr) : Prop :=
  ∃ i ∈ t.intfsL2 n, ∃ j, t.peer (n, i) = some (m, j) ∧ (t.intf j).isL2 = true

def Connected (n m : NodePtr) : Prop := Relation.ReflTransGen t.Switched n m

def Attached (n : NodePtr) (p : NodePtr × IntfPtr) : Prop :=
  ∃ m, t.Connected n m ∧ ∃ i ∈ t.intfsL2 m, t.peer (m, i) = some p ∧ (t.intf p.2).isL2 = false

structure IsComponent (n : NodePtr) (lan : L2Lan) : Prop where
  l2 : ∀ m i, (m, i) ∈ lan.l2Endpoints ↔ t.Connected n m ∧ i ∈ t.intfsL2 m
  l3 : ∀ a, (∃ p, (a, p) ∈ lan.l3Endpoints) ↔ ∃ p, t.Attached n p ∧ (t.intf p.2).addr = a

structure SameEndpoints (lan lan' : L2Lan) : Prop where
  l2 : ∀ e, e ∈ lan.l2Endpoints ↔ e ∈ lan'.l2Endpoints
  l3 : ∀ a p, (a, p) ∈ lan.l3Endpoints ↔ (a, p) ∈ lan'.l3Endpoints

variable {t}

/-! ### One interface -/

variable {lan lan' : L2LanTbl} {e : NodePtr × IntfPtr}

@[simp] theorem mem_enter {e' : NodePtr × IntfPtr} :
    e' ∈ (t.enter lan e).l2Endpoints ↔ e' = e ∨ e' ∈ lan.l2Endpoints := by
  dsimp only [enter]
  cases t.peer e with
  | none => exact List.mem_cons
  | some peer =>
    dsimp only
    split <;> exact List.mem_cons

theorem mem_tbl_enter {x : NodePtr × NodePtr × IntfPtr} :
    x ∈ (t.enter lan e).tbl ↔ x ∈ lan.tbl ∨ ∃ p, t.peer e = some p ∧ x = (e.1, p) := by
  dsimp only [enter]
  cases hpeer : t.peer e with
  | none => simp
  | some peer =>
    have hinsert : x ∈ insert (e.1, peer) lan.tbl ↔
        x ∈ lan.tbl ∨ ∃ p, some peer = some p ∧ x = (e.1, p) := by
      rw [Finset.mem_insert, or_comm]
      simp
    dsimp only
    split <;> exact hinsert

theorem l3_enter (t : Topology) (lan : L2LanTbl) (e : NodePtr × IntfPtr) :
    (t.enter lan e).l3Endpoints = lan.l3Endpoints ∧
      (∀ p, t.peer e = some p → (t.intf p.2).isL2 = true) ∨
    ∃ p, t.peer e = some p ∧ (t.intf p.2).isL2 = false ∧
      ∀ a q, (a, q) ∈ (t.enter lan e).l3Endpoints ↔
        a = (t.intf p.2).addr ∧ q = p ∨ (a, q) ∈ lan.l3Endpoints ∧ a ≠ (t.intf p.2).addr := by
  dsimp only [enter]
  cases hpeer : t.peer e with
  | none => exact .inl ⟨rfl, by simp⟩
  | some peer =>
    by_cases hl2 : (t.intf peer.2).isL2 = true
    · refine .inl ⟨?_, fun p hp => Option.some.inj hp ▸ hl2⟩
      simp [hl2]
    · rw [Bool.not_eq_true] at hl2
      refine .inr ⟨peer, rfl, hl2, fun a q => ?_⟩
      simp [hl2, L2Lan.setL3Endpoint, List.mem_filter]

/-- What the sets of a LAN say about each other, when it is collected from a node on. -/
structure Gathered (t : Topology) (n : NodePtr) (lan : L2LanTbl) : Prop where
  l2 : ∀ m i, (m, i) ∈ lan.l2Endpoints → t.Connected n m ∧ i ∈ t.intfsL2 m
  tbl : ∀ m p, (m, p) ∈ lan.tbl ↔ ∃ i, (m, i) ∈ lan.l2Endpoints ∧ t.peer (m, i) = some p
  l3 : ∀ a p, (a, p) ∈ lan.l3Endpoints →
    (t.intf p.2).addr = a ∧ (t.intf p.2).isL2 = false ∧ ∃ e ∈ lan.l2Endpoints, t.peer e = some p
  key : ∀ e ∈ lan.l2Endpoints, ∀ p, t.peer e = some p → (t.intf p.2).isL2 = false →
    ∃ q, ((t.intf p.2).addr, q) ∈ lan.l3Endpoints
  unique : ∀ a p q, (a, p) ∈ lan.l3Endpoints → (a, q) ∈ lan.l3Endpoints → p = q

variable {n : NodePtr}

theorem gathered_empty (t : Topology) (n : NodePtr) : t.Gathered n ⟨⟨[], []⟩, ∅⟩ := by
  constructor <;> simp

theorem Gathered.enter (h : t.Gathered n lan) (hn : t.Connected n e.1)
    (hi : e.2 ∈ t.intfsL2 e.1) : t.Gathered n (t.enter lan e) := by
  -- only a peer that is no switchport becomes an endpoint, in the place of its address
  have hl3 := t.l3_enter lan e
  constructor
  case l2 =>
    intro m i hmem
    rcases mem_enter.mp hmem with rfl | hmem
    · exact ⟨hn, hi⟩
    · exact h.l2 m i hmem
  case tbl =>
    intro m p
    rw [mem_tbl_enter, h.tbl]
    constructor
    · rintro (⟨i, hi, hp⟩ | ⟨q, hq, heq⟩)
      · exact ⟨i, mem_enter.mpr (.inr hi), hp⟩
      · obtain ⟨rfl, rfl⟩ := Prod.mk.inj heq
        exact ⟨e.2, mem_enter.mpr (.inl rfl), hq⟩
    · rintro ⟨i, hi, hp⟩
      rcases mem_enter.mp hi with rfl | hi
      · exact .inr ⟨p, hp, rfl⟩
      · exact .inl ⟨i, hi, hp⟩
  case l3 =>
    intro a p hp
    rcases hl3 with ⟨heq, -⟩ | ⟨q, hq, hl2, hmem⟩
    · rw [heq] at hp
      obtain ⟨ha, hl2, e', he', hpeer⟩ := h.l3 a p hp
      exact ⟨ha, hl2, e', mem_enter.mpr (.inr he'), hpeer⟩
    · rcases (hmem a p).mp hp with ⟨rfl, rfl⟩ | ⟨hp, -⟩
      · exact ⟨rfl, hl2, e, mem_enter.mpr (.inl rfl), hq⟩
      · obtain ⟨ha, hl2, e', he', hpeer⟩ := h.l3 a p hp
        exact ⟨ha, hl2, e', mem_enter.mpr (.inr he'), hpeer⟩
  case key =>
    intro e' he' p hpeer hp
    rcases hl3 with ⟨heq, hall⟩ | ⟨q, hq, hl2, hmem⟩
    · rw [heq]
      rcases mem_enter.mp he' with rfl | he'
      · exact absurd (hall p hpeer) (by rw [hp]; decide)
      · exact h.key e' he' p hpeer hp
    · by_cases ha : (t.intf p.2).addr = (t.intf q.2).addr
      · exact ⟨q, (hmem _ _).mpr (.inl ⟨ha, rfl⟩)⟩
      · rcases mem_enter.mp he' with rfl | he'
        · obtain rfl := Option.some.inj (hpeer.symm.trans hq)
          exact absurd rfl ha
        · obtain ⟨r, hr⟩ := h.key e' he' p hpeer hp
          exact ⟨r, (hmem _ _).mpr (.inr ⟨hr, ha⟩)⟩
  case unique =>
    intro a p q hp hq
    rcases hl3 with ⟨heq, -⟩ | ⟨r, -, -, hmem⟩
    · rw [heq] at hp hq
      exact h.unique a p q hp hq
    · rcases (hmem a p).mp hp with ⟨ha, rfl⟩ | ⟨hp, ha⟩
      · rcases (hmem a q).mp hq with ⟨-, rfl⟩ | ⟨-, ha'⟩
        · rfl
        · exact absurd ha ha'
      · rcases (hmem a q).mp hq with ⟨ha', -⟩ | ⟨hq, -⟩
        · exact absurd ha' ha
        · exact h.unique a p q hp hq

/-! ### The nested calls -/

variable {nested : NodePtr → L2LanTbl → Option L2LanTbl} {i : IntfPtr}

theorem collectIntf_cases (h : t.collectIntf nested n lan i = some lan') :
    (n, i) ∈ lan.l2Endpoints ∧ lan' = lan ∨
    (n, i) ∉ lan.l2Endpoints ∧ lan' = t.enter lan (n, i) ∧
      (∀ p, t.peer (n, i) = some p → (t.intf p.2).isL2 = true → p ∈ lan'.l2Endpoints) ∨
    (n, i) ∉ lan.l2Endpoints ∧ ∃ p, t.peer (n, i) = some p ∧ (t.intf p.2).isL2 = true ∧
      nested p.1 (t.enter lan (n, i)) = some lan' := by
  rw [collectIntf] at h
  split at h
  · rename_i hmem
    exact .inl ⟨hmem, (Option.some.inj h).symm⟩
  rename_i hmem
  dsimp only at h
  cases hpeer : t.peer (n, i) with
  | none =>
    rw [hpeer] at h
    exact .inr (.inl ⟨hmem, (Option.some.inj h).symm, by simp⟩)
  | some p =>
    rw [hpeer] at h
    dsimp only at h
    split at h
    · rename_i hcond
      exact .inr (.inr ⟨hmem, p, rfl, hcond.1, h⟩)
    · rename_i hcond
      obtain rfl := Option.some.inj h
      refine .inr (.inl ⟨hmem, rfl, fun q hq hl2 => ?_⟩)
      obtain rfl := Option.some.inj hq
      by_contra hnot
      exact hcond ⟨hl2, hnot⟩

theorem Gathered.collectTbl (fuel : Nat) : ∀ {m : NodePtr} {lan lan' : L2LanTbl},
    t.Gathered n lan → t.Connected n m → t.collectTbl fuel m lan = some lan' →
      t.Gathered n lan' := by
  induction fuel with
  | zero => exact fun _ _ h => absurd h (by simp [Topology.collectTbl])
  | succ fuel ih =>
    intro m lan lan' hlan hm h
    refine foldlM_invariant (t.Gathered n) (t.intfsL2 m) (fun i hi lan lan' hlan h => ?_) hlan h
    rcases collectIntf_cases h with ⟨-, rfl⟩ | ⟨-, rfl, -⟩ | ⟨-, p, hpeer, hl2, hnested⟩
    · exact hlan
    · exact hlan.enter hm hi
    · exact ih (hlan.enter (e := (m, i)) hm hi) (hm.tail ⟨i, hi, p.2, hpeer, hl2⟩) hnested

structure Adds (t : Topology) (whole : NodePtr → Prop) (lan lan' : L2LanTbl) : Prop where
  mono : ∀ e ∈ lan.l2Endpoints, e ∈ lan'.l2Endpoints
  peer : ∀ e ∈ lan'.l2Endpoints, e ∉ lan.l2Endpoints → ∀ p, t.peer e = some p →
    (t.intf p.2).isL2 = true → p ∈ lan'.l2Endpoints
  node : ∀ m k, whole m → (m, k) ∈ lan'.l2Endpoints → (m, k) ∉ lan.l2Endpoints →
    ∀ j ∈ t.intfsL2 m, (m, j) ∈ lan'.l2Endpoints

variable {whole : NodePtr → Prop} {lan₁ lan₂ : L2LanTbl}

theorem Adds.refl (lan : L2LanTbl) : t.Adds whole lan lan :=
  ⟨fun _ he => he, fun _ he hnot => absurd he hnot, fun _ _ _ he hnot => absurd he hnot⟩

theorem Adds.trans (h₁ : t.Adds whole lan lan₁) (h₂ : t.Adds whole lan₁ lan₂) :
    t.Adds whole lan lan₂ := by
  refine ⟨fun e he => h₂.mono e (h₁.mono e he), fun e he hnot p hp hl2 => ?_,
    fun m k hm he hnot j hj => ?_⟩
  · by_cases hmem : e ∈ lan₁.l2Endpoints
    · exact h₂.mono p (h₁.peer e hmem hnot p hp hl2)
    · exact h₂.peer e he hmem p hp hl2
  · by_cases hmem : (m, k) ∈ lan₁.l2Endpoints
    · exact h₂.mono _ (h₁.node m k hm hmem hnot j hj)
    · exact h₂.node m k hm he hmem j hj

theorem mem_intfsL2 {n : NodePtr} {i : IntfPtr} :
    i ∈ t.intfsL2 n ↔ i ∈ (t.node n).intfs ∧ (t.intf i).isL2 = true := by
  rw [intfsL2, List.mem_filter]

theorem peer_mem_intfsL2 {p : NodePtr × IntfPtr} (h : t.peer e = some p)
    (hl2 : (t.intf p.2).isL2 = true) : p.2 ∈ t.intfsL2 p.1 :=
  mem_intfsL2.mpr ⟨(getPeer_mem h).2, hl2⟩

theorem adds_collectIntf
    (hnested : ∀ m lan lan', nested m lan = some lan' →
      t.Adds (fun _ => True) lan lan' ∧ ∀ j ∈ t.intfsL2 m, (m, j) ∈ lan'.l2Endpoints)
    (h : t.collectIntf nested n lan i = some lan') :
    t.Adds (· ≠ n) lan lan' ∧ (n, i) ∈ lan'.l2Endpoints := by
  rcases collectIntf_cases h with ⟨hmem, rfl⟩ | ⟨-, rfl, hpeer⟩ | ⟨-, p, hpeer, hl2, hcall⟩
  · exact ⟨.refl lan', hmem⟩
  · refine ⟨⟨fun e he => mem_enter.mpr (.inr he), fun e he hnot p hp hl2 => ?_,
      fun m k hm he hnot => ?_⟩, mem_enter.mpr (.inl rfl)⟩
    · rcases mem_enter.mp he with rfl | he
      · exact hpeer p hp hl2
      · exact absurd he hnot
    · rcases mem_enter.mp he with heq | he
      · exact absurd (Prod.mk.inj heq).1 hm
      · exact absurd he hnot
  · obtain ⟨hadds, hall⟩ := hnested _ _ _ hcall
    have hmono : ∀ e, e = (n, i) ∨ e ∈ lan.l2Endpoints → e ∈ lan'.l2Endpoints := fun e he =>
      hadds.mono e (mem_enter.mpr he)
    refine ⟨⟨fun e he => hmono e (.inr he), fun e he hnot q hq hq2 => ?_,
      fun m k hm he hnot j hj => ?_⟩, hmono _ (.inl rfl)⟩
    · by_cases hmem : e ∈ (t.enter lan (n, i)).l2Endpoints
      · obtain rfl := (mem_enter.mp hmem).resolve_right hnot
        obtain rfl := Option.some.inj (hpeer.symm.trans hq)
        exact hall _ (peer_mem_intfsL2 hpeer hl2)
      · exact hadds.peer e he hmem q hq hq2
    · refine hadds.node m k trivial he (fun hmem => ?_) j hj
      rcases mem_enter.mp hmem with heq | hmem
      · exact hm (Prod.mk.inj heq).1
      · exact hnot hmem

theorem adds_collectTbl (fuel : Nat) : ∀ (n : NodePtr) (lan lan' : L2LanTbl),
    t.collectTbl fuel n lan = some lan' →
      t.Adds (fun _ => True) lan lan' ∧ ∀ j ∈ t.intfsL2 n, (n, j) ∈ lan'.l2Endpoints := by
  induction fuel with
  | zero => exact fun _ _ _ h => absurd h (by simp [collectTbl])
  | succ fuel ih =>
    intro n lan lan' h
    have hloop : ∀ (is : List IntfPtr) (lan lan' : L2LanTbl),
        is.foldlM (t.collectIntf (t.collectTbl fuel) n) lan = some lan' →
          t.Adds (· ≠ n) lan lan' ∧ ∀ j ∈ is, (n, j) ∈ lan'.l2Endpoints := by
      intro is
      induction is with
      | nil =>
        intro lan lan' h
        obtain rfl := Option.some.inj h
        exact ⟨.refl lan, by simp⟩
      | cons i is ihs =>
        intro lan lan' h
        rw [List.foldlM_cons] at h
        obtain ⟨lan₁, h₁, h₂⟩ := Option.bind_eq_some_iff.mp h
        obtain ⟨hadds₁, hmem⟩ := adds_collectIntf ih h₁
        obtain ⟨hadds₂, hall⟩ := ihs lan₁ lan' h₂
        refine ⟨hadds₁.trans hadds₂, fun j hj => ?_⟩
        rcases List.mem_cons.mp hj with rfl | hj
        · exact hadds₂.mono _ hmem
        · exact hall j hj
    obtain ⟨hadds, hall⟩ := hloop _ _ _ h
    refine ⟨⟨hadds.mono, hadds.peer, fun m k _ he hnot j hj => ?_⟩, hall⟩
    by_cases hm : m = n
    · subst hm
      exact hall j hj
    · exact hadds.node m k hm he hnot j hj

/-! ### Fuel -/

def unentered (t : Topology) (lan : L2LanTbl) : Finset (NodePtr × IntfPtr) :=
  t.endpoints.toFinset.filter fun e => e ∉ lan.l2Endpoints

theorem mem_endpoints : e ∈ t.endpoints ↔ e.1 ∈ t.nodes ∧ e.2 ∈ t.intfsL2 e.1 := by
  obtain ⟨n, i⟩ := e
  simp only [endpoints, List.mem_flatMap, List.mem_map, Prod.mk.injEq]
  constructor
  · rintro ⟨m, hm, j, hj, rfl, rfl⟩
    exact ⟨hm, hj⟩
  · rintro ⟨hn, hi⟩
    exact ⟨n, hn, i, hi, rfl, rfl⟩

theorem card_unentered_le (h : ∀ e ∈ lan.l2Endpoints, e ∈ lan'.l2Endpoints) :
    (t.unentered lan').card ≤ (t.unentered lan).card := by
  apply Finset.card_le_card
  intro e he
  obtain ⟨hmem, hnot⟩ := Finset.mem_filter.mp he
  exact Finset.mem_filter.mpr ⟨hmem, fun hlan => hnot (h e hlan)⟩

theorem card_unentered_enter (he : e ∈ t.endpoints) (hnot : e ∉ lan.l2Endpoints) :
    (t.unentered (t.enter lan e)).card < (t.unentered lan).card := by
  apply Finset.card_lt_card
  refine Finset.ssubset_iff_subset_ne.mpr ⟨fun e' he' => ?_, fun heq => ?_⟩
  · obtain ⟨hmem, hnot'⟩ := Finset.mem_filter.mp he'
    exact Finset.mem_filter.mpr ⟨hmem, fun hlan => hnot' (mem_enter.mpr (.inr hlan))⟩
  · have hmem : e ∈ t.unentered lan :=
      Finset.mem_filter.mpr ⟨List.mem_toFinset.mpr he, hnot⟩
    rw [← heq] at hmem
    exact (Finset.mem_filter.mp hmem).2 (mem_enter.mpr (.inl rfl))

theorem exists_collectTbl (fuel : Nat) : ∀ (n : NodePtr) (lan : L2LanTbl), n ∈ t.nodes →
    (t.unentered lan).card < fuel → ∃ lan', t.collectTbl fuel n lan = some lan' := by
  induction fuel with
  | zero => exact fun _ _ _ h => absurd h (Nat.not_lt_zero _)
  | succ fuel ih =>
    intro n lan hn hfuel
    -- an endpoint is entered before the recursion, so one less is left for it
    have hone : ∀ i ∈ t.intfsL2 n, ∀ lan : L2LanTbl, (t.unentered lan).card < fuel + 1 →
        ∃ lan', t.collectIntf (t.collectTbl fuel) n lan i = some lan' := by
      intro i hi lan hlan
      rw [collectIntf]
      split
      · exact ⟨lan, rfl⟩
      rename_i hmem
      dsimp only
      cases hpeer : t.peer (n, i) with
      | none => exact ⟨_, rfl⟩
      | some p =>
        dsimp only
        split
        · have hlt := card_unentered_enter (t := t) (mem_endpoints.mpr ⟨hn, hi⟩) hmem
          exact ih p.1 _ (getPeer_mem hpeer).1 (by omega)
        · exact ⟨_, rfl⟩
    have hloop : ∀ (is : List IntfPtr), (∀ i ∈ is, i ∈ t.intfsL2 n) → ∀ lan : L2LanTbl,
        (t.unentered lan).card < fuel + 1 →
          ∃ lan', is.foldlM (t.collectIntf (t.collectTbl fuel) n) lan = some lan' := by
      intro is
      induction is with
      | nil => exact fun _ lan _ => ⟨lan, rfl⟩
      | cons i is ihs =>
        intro his lan hlan
        obtain ⟨lan₁, h₁⟩ := hone i (his i (List.mem_cons_self ..)) lan hlan
        have hmono := (adds_collectIntf (adds_collectTbl fuel) h₁).1.mono
        obtain ⟨lan', h'⟩ := ihs (fun j hj => his j (List.mem_cons_of_mem _ hj)) lan₁
          ((card_unentered_le hmono).trans_lt hlan)
        refine ⟨lan', ?_⟩
        rw [List.foldlM_cons, h₁]
        exact h'
    exact hloop _ (fun _ hi => hi) lan hfuel

theorem exists_l2Lan (hn : n ∈ t.nodes) : ∃ lan, t.l2Lan n = some lan := by
  refine exists_collectTbl _ n _ hn ?_
  have hle : (t.unentered ⟨⟨[], []⟩, ∅⟩).card ≤ t.endpoints.length :=
    (Finset.card_filter_le _ _).trans (List.toFinset_card_le _)
  omega

/-! ### The LAN of a node -/

theorem gathered_l2Lan (h : t.l2Lan n = some lan) : t.Gathered n lan :=
  (gathered_empty t n).collectTbl _ .refl h

theorem mem_l2Lan (h : t.l2Lan n = some lan) (m : NodePtr) (i : IntfPtr) :
    (m, i) ∈ lan.l2Endpoints ↔ t.Connected n m ∧ i ∈ t.intfsL2 m := by
  refine ⟨(gathered_l2Lan h).l2 m i, fun ⟨hm, hi⟩ => ?_⟩
  obtain ⟨hadds, hall⟩ := adds_collectTbl _ _ _ _ h
  have hempty : ∀ e, e ∉ (⟨⟨[], []⟩, ∅⟩ : L2LanTbl).l2Endpoints := fun _ => List.not_mem_nil
  have hwhole : ∀ m, t.Connected n m → ∀ j ∈ t.intfsL2 m, (m, j) ∈ lan.l2Endpoints := by
    intro m hm
    induction hm with
    | refl => exact hall
    | tail _ hlink ih =>
      obtain ⟨j, hj, k, hpeer, hl2⟩ := hlink
      have hk := hadds.peer _ (ih j hj) (hempty _) _ hpeer hl2
      exact hadds.node _ k trivial hk (hempty _)
  exact hwhole m hm i hi

theorem isComponent_l2Lan (h : t.l2Lan n = some lan) : t.IsComponent n lan.toL2Lan := by
  have hg := gathered_l2Lan h
  refine ⟨mem_l2Lan h, fun a => ⟨?_, ?_⟩⟩
  · rintro ⟨p, hp⟩
    obtain ⟨ha, hl2, ⟨m, i⟩, he, hpeer⟩ := hg.l3 a p hp
    obtain ⟨hm, hi⟩ := (mem_l2Lan h m i).mp he
    exact ⟨p, ⟨m, hm, i, hi, hpeer, hl2⟩, ha⟩
  · rintro ⟨p, ⟨m, hm, i, hi, hpeer, hl2⟩, rfl⟩
    exact hg.key _ ((mem_l2Lan h m i).mpr ⟨hm, hi⟩) p hpeer hl2

theorem map_collectTbl (fuel : Nat) : ∀ (n : NodePtr) (lan : L2LanTbl),
    (t.collectTbl fuel n lan).map L2LanTbl.toL2Lan = t.collectIntfs fuel n lan.toL2Lan := by
  induction fuel with
  | zero => exact fun _ _ => rfl
  | succ fuel ih =>
    intro n lan
    rw [collectTbl, collectIntfs]
    generalize t.intfsL2 n = is
    -- outer induction on the depth, inner one on the interfaces of the switch
    induction is generalizing lan with
    | nil => rfl
    | cons i is ihs =>
      rw [List.foldlM_cons, List.foldlM_cons]
      by_cases hmem : (n, i) ∈ lan.l2Endpoints
      · simp only [collectIntf, hmem, if_true]
        exact ihs lan
      cases hpeer : t.peer (n, i) with
      | none =>
        have hget : t.getPeer n (t.intf i).name = none := hpeer
        have henter : (t.enter lan (n, i)).toL2Lan =
            { lan.toL2Lan with l2Endpoints := (n, i) :: lan.l2Endpoints } := by
          rw [enter, hpeer]
        simp only [collectIntf, hmem, if_false, hpeer, hget, ← henter]
        exact ihs (t.enter lan (n, i))
      | some p =>
        have hget : t.getPeer n (t.intf i).name = some p := hpeer
        by_cases hl2 : (t.intf p.2).isL2 = true
        · have henter : (t.enter lan (n, i)).toL2Lan =
              { lan.toL2Lan with l2Endpoints := (n, i) :: lan.l2Endpoints } := by
            simp [enter, hpeer, hl2]
          have hends : (t.enter lan (n, i)).l2Endpoints = (n, i) :: lan.l2Endpoints :=
            congrArg L2Lan.l2Endpoints henter
          by_cases hin : p ∈ (n, i) :: lan.l2Endpoints
          · simp only [collectIntf, hmem, if_false, hpeer, hget, hl2, hends, hin, if_true,
              not_true_eq_false, and_false, Bool.not_true, Bool.false_eq_true, ← henter]
            exact ihs (t.enter lan (n, i))
          · simp only [collectIntf, hmem, if_false, hpeer, hget, hl2, hends, hin, if_true,
              not_false_eq_true, and_self, Bool.not_true, Bool.false_eq_true, ← henter]
            rw [← ih]
            cases t.collectTbl fuel p.1 (t.enter lan (n, i)) with
            | none => rfl
            | some lan₁ => exact ihs lan₁
        · rw [Bool.not_eq_true] at hl2
          have henter : (t.enter lan (n, i)).toL2Lan = L2Lan.setL3Endpoint
              { lan.toL2Lan with l2Endpoints := (n, i) :: lan.l2Endpoints }
              (t.intf p.2).addr p := by
            simp [enter, hpeer, hl2]
          simp only [collectIntf, hmem, if_false, hpeer, hget, hl2, Bool.not_false,
            Bool.false_eq_true, false_and, if_true, ← henter]
          exact ihs (t.enter lan (n, i))

theorem buildsLan_l2Lan (h : t.l2Lan n = some lan) : t.BuildsLan lan.toL2Lan := by
  refine ⟨t.endpoints.length + 1, n, ?_⟩
  rw [← map_collectTbl _ n ⟨⟨[], []⟩, ∅⟩]
  exact congrArg (Option.map L2LanTbl.toL2Lan) h

end Topology

end Neo
