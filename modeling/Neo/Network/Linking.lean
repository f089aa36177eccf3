import Neo.Network.Links

/-! What a network has after some links. Whether links are accepted and which peers there are
depends on the links only, not on their order. -/

namespace Neo

namespace Topology

namespace Link

def ends (l : Link) : List ((NodePtr × IntfPtr) × NodePtr × IntfPtr) :=
  [((l.node1, l.intf1), l.node2, l.intf2), ((l.node2, l.intf2), l.node1, l.intf1)]

def Meets (l l' : Link) : Prop := ∃ e ∈ l.ends, ∃ e' ∈ l'.ends, e.1 = e'.1

structure Fits (t : Topology) (l : Link) : Prop where
  end1 : t.hasIntf l.node1 l.intf1 = true
  end2 : t.hasIntf l.node2 l.intf2 = true
  ne : l.node1 ≠ l.node2

theorem Fits.hasIntf {t : Topology} {l : Link} (h : l.Fits t)
    {e : (NodePtr × IntfPtr) × NodePtr × IntfPtr} (he : e ∈ l.ends) :
    t.hasIntf e.1.1 e.1.2 = true := by
  rcases List.mem_cons.mp he with rfl | he
  · exact h.end1
  · obtain rfl := List.mem_singleton.mp he
    exact h.end2

theorem Fits.peer_eq {t : Topology} {l : Link} (h : l.Fits t)
    {e e' : (NodePtr × IntfPtr) × NodePtr × IntfPtr} (he : e ∈ l.ends) (he' : e' ∈ l.ends)
    (heq : e.1 = e'.1) : e.2 = e'.2 := by
  rcases List.mem_cons.mp he with rfl | he <;> rcases List.mem_cons.mp he' with rfl | he'
  · rfl
  · obtain rfl := List.mem_singleton.mp he'
    exact absurd (congrArg Prod.fst heq) h.ne
  · obtain rfl := List.mem_singleton.mp he
    exact absurd (congrArg Prod.fst heq) h.ne.symm
  · rw [List.mem_singleton.mp he, List.mem_singleton.mp he']

theorem eq_of_ends {l l' : Link} (h : l.node1 < l.node2) (h' : l'.node1 < l'.node2)
    {e : (NodePtr × IntfPtr) × NodePtr × IntfPtr} (he : e ∈ l.ends) (he' : e ∈ l'.ends) :
    l = l' := by
  obtain ⟨n, i, m, j⟩ := l
  obtain ⟨n', i', m', j'⟩ := l'
  simp only [ends, List.mem_cons, List.not_mem_nil, or_false] at he he' h h'
  rcases he with rfl | rfl <;> rcases he' with heq | heq <;>
    simp only [Prod.mk.injEq] at heq <;> obtain ⟨⟨rfl, rfl⟩, rfl, rfl⟩ := heq
  · rfl
  · exact absurd h (lt_asymm h')
  · exact absurd h (lt_asymm h')
  · rfl

end Link

def Compatible (links : List Link) : Prop := ∀ l ∈ links, ∀ l' ∈ links, l.Meets l' → l = l'

structure LinkedBy (t₀ : Topology) (links : List Link) (t : Topology) : Prop where
  nodes : t.nodes = t₀.nodes
  intf : t.intf = t₀.intf
  intfs : ∀ n, (t.node n).intfs = (t₀.node n).intfs
  rib : ∀ n, (t.node n).rib = (t₀.node n).rib
  isEmulated : ∀ n, (t.node n).isEmulated = (t₀.node n).isEmulated
  peer : ∀ n name p, t.getPeer n name = some p ↔
    ∃ l ∈ links, ∃ e ∈ l.ends, e.1.1 = n ∧ (t₀.intf e.1.2).name = name ∧ e.2 = p

theorem compatible_iff {t : Topology} {links : List Link} (hfits : ∀ l ∈ links, l.Fits t)
    (hlt : ∀ l ∈ links, l.node1 < l.node2) : Compatible links ↔
      ∀ l ∈ links, ∀ l' ∈ links, ∀ e ∈ l.ends, ∀ e' ∈ l'.ends, e.1 = e'.1 → e.2 = e'.2 := by
  constructor
  · intro h l hl l' hl' e he e' he' heq
    obtain rfl := h l hl l' hl' ⟨e, he, e', he', heq⟩
    exact (hfits l hl).peer_eq he he' heq
  · rintro h l hl l' hl' ⟨e, he, e', he', heq⟩
    have hends : e = e' := Prod.ext heq (h l hl l' hl' e he e' he' heq)
    exact Link.eq_of_ends (hlt l hl) (hlt l' hl') he (hends ▸ he')

variable {t₀ t t' : Topology} {links links' : List Link} {l : Link}

/-! ### One peer -/

theorem node_addPeer {n k : NodePtr} {i : IntfPtr} {peer : NodePtr × IntfPtr}
    (h : t.addPeer n i peer = some t') : (t'.node k).rib = (t.node k).rib ∧
      (t'.node k).isEmulated = (t.node k).isEmulated := by
  rw [addPeer] at h
  split at h
  · obtain rfl := Option.some.inj h
    dsimp only
    rw [withPeer]
    by_cases hk : k = n
    · subst hk
      rw [Function.update_self]
      exact ⟨rfl, rfl⟩
    · rw [Function.update_of_ne hk]
      exact ⟨rfl, rfl⟩
  · exact absurd h (by simp)

theorem addPeer_isSome {n : NodePtr} {i : IntfPtr} {peer : NodePtr × IntfPtr} :
    (t.addPeer n i peer).isSome = true ↔
      t.getPeer n (t.intf i).name = none ∧ t.hasIntf peer.1 peer.2 = true := by
  unfold addPeer
  split <;> simp_all

theorem hasIntf_congr (hnodes : t'.nodes = t.nodes)
    (hintfs : ∀ n, (t'.node n).intfs = (t.node n).intfs) (n : NodePtr) (i : IntfPtr) :
    t'.hasIntf n i = t.hasIntf n i := by
  rw [hasIntf, hasIntf, hnodes, hintfs]

/-! ### One link -/

theorem getPeer_addsPeer {t₁ : Topology}
    (p₁ : AddsPeer t t₁ l.node1 l.intf1 (l.node2, l.intf2))
    (p₂ : AddsPeer t₁ t' l.node2 l.intf2 (l.node1, l.intf1)) (hne : l.node1 ≠ l.node2)
    (n : NodePtr) (name : IntfName) (p : NodePtr × IntfPtr) :
    t'.getPeer n name = some p ↔
      (∃ e ∈ l.ends, e.1.1 = n ∧ (t.intf e.1.2).name = name ∧ e.2 = p) ∨
        t.getPeer n name = some p := by
  have hfresh₂ : t.getPeer l.node2 (t.intf l.intf2).name = none := by
    have hfresh := p₂.fresh
    rw [p₁.intf] at hfresh
    rwa [← p₁.other l.node2 _ fun heq => hne heq.1.symm]
  have hpeer₁ : t'.getPeer l.node1 (t.intf l.intf1).name = some (l.node2, l.intf2) := by
    rw [p₂.other l.node1 _ fun heq => hne heq.1, p₁.peer]
  have hpeer₂ : t'.getPeer l.node2 (t.intf l.intf2).name = some (l.node1, l.intf1) := by
    have hpeer := p₂.peer
    rwa [p₁.intf] at hpeer
  -- the two ends of the link, and then all other interfaces
  by_cases h₁ : n = l.node1 ∧ name = (t.intf l.intf1).name
  · obtain ⟨rfl, rfl⟩ := h₁
    rw [hpeer₁, p₁.fresh, Option.some.injEq]
    refine ⟨fun h => .inl ⟨_, List.mem_cons_self .., rfl, rfl, h⟩, ?_⟩
    rintro (⟨e, he, hn, -, rfl⟩ | h)
    · rcases List.mem_cons.mp he with rfl | he
      · rfl
      · obtain rfl := List.mem_singleton.mp he
        exact absurd hn.symm hne
    · exact absurd h (by simp)
  by_cases h₂ : n = l.node2 ∧ name = (t.intf l.intf2).name
  · obtain ⟨rfl, rfl⟩ := h₂
    rw [hpeer₂, hfresh₂, Option.some.injEq]
    refine ⟨fun h => .inl ⟨_, List.mem_cons_of_mem _ (List.mem_singleton_self _), rfl, rfl, h⟩, ?_⟩
    rintro (⟨e, he, hn, -, rfl⟩ | h)
    · rcases List.mem_cons.mp he with rfl | he
      · exact absurd hn hne
      · obtain rfl := List.mem_singleton.mp he
        rfl
    · exact absurd h (by simp)
  · rw [p₂.other n name (by rw [p₁.intf]; exact h₂), p₁.other n name h₁]
    refine ⟨.inr, ?_⟩
    rintro (⟨e, he, rfl, rfl, -⟩ | h)
    · rcases List.mem_cons.mp he with rfl | he
      · exact absurd ⟨rfl, rfl⟩ h₁
      · obtain rfl := List.mem_singleton.mp he
        exact absurd ⟨rfl, rfl⟩ h₂
    · exact h

theorem LinkedBy.getPeer_eq_none (h : LinkedBy t₀ links t) (hu : t₀.Unlinked)
    (hfits : ∀ l ∈ links, l.Fits t₀) {n : NodePtr} {i : IntfPtr} (hi : t₀.hasIntf n i = true) :
    t.getPeer n (t₀.intf i).name = none ↔ ∀ l ∈ links, ∀ e ∈ l.ends, e.1 ≠ (n, i) := by
  constructor
  · intro hnone l hl e he heq
    have hpeer := (h.peer n (t₀.intf i).name e.2).mpr
      ⟨l, hl, e, he, congrArg Prod.fst heq, by rw [heq], rfl⟩
    exact absurd (hnone.symm.trans hpeer) (by simp)
  · intro hall
    cases hpeer : t.getPeer n (t₀.intf i).name with
    | none => rfl
    | some p =>
      obtain ⟨l, hl, e, he, rfl, hname, -⟩ := (h.peer _ _ p).mp hpeer
      obtain ⟨hn, hei⟩ := hasIntf_iff.mp ((hfits l hl).hasIntf he)
      have heq := hu.names _ hn _ hei _ (hasIntf_iff.mp hi).2 hname
      exact absurd (Prod.ext rfl heq : e.1 = (e.1.1, i)) (hall l hl e he)

theorem LinkedBy.addLink (h : LinkedBy t₀ links t) (hu : t₀.Unlinked)
    (hfits : ∀ l ∈ links, l.Fits t₀) (hc : Compatible links) (hl : l.Fits t₀)
    (hadd : t.addLink links l = some (t', links')) :
    LinkedBy t₀ links' t' ∧ (∀ k, k ∈ links' ↔ k = l ∨ k ∈ links) ∧
      ∀ k ∈ links, l.Meets k → l = k := by
  rw [Topology.addLink] at hadd
  split at hadd
  · rename_i hmem
    obtain ⟨rfl, rfl⟩ := Prod.mk.inj (Option.some.inj hadd)
    refine ⟨h, fun k => ⟨.inr, ?_⟩, fun k hk => hc l hmem k hk⟩
    rintro (rfl | hk)
    · exact hmem
    · exact hk
  simp only [Option.bind_eq_bind, Option.bind_eq_some_iff] at hadd
  obtain ⟨t₁, hadd₁, t₂, hadd₂, heq⟩ := hadd
  obtain ⟨rfl, rfl⟩ := Prod.mk.inj (Option.some.inj heq)
  have p₁ := addsPeer_of_addPeer hadd₁
  have p₂ := addsPeer_of_addPeer hadd₂
  have hfree₁ := (h.getPeer_eq_none hu hfits hl.end1).mp (h.intf ▸ p₁.fresh)
  have hfree₂ : ∀ k ∈ links, ∀ e ∈ k.ends, e.1 ≠ (l.node2, l.intf2) := by
    apply (h.getPeer_eq_none hu hfits hl.end2).mp
    have hfresh := p₂.fresh
    rw [p₁.intf, p₁.other l.node2 _ fun heq => hl.ne heq.1.symm, h.intf] at hfresh
    exact hfresh
  refine ⟨⟨?_, ?_, ?_, ?_, ?_, ?_⟩, fun k => List.mem_cons, ?_⟩
  · rw [p₂.nodes, p₁.nodes, h.nodes]
  · rw [p₂.intf, p₁.intf, h.intf]
  · exact fun n => by rw [p₂.intfs, p₁.intfs, h.intfs]
  · exact fun n => by rw [(node_addPeer hadd₂).1, (node_addPeer hadd₁).1, h.rib]
  · exact fun n => by rw [(node_addPeer hadd₂).2, (node_addPeer hadd₁).2, h.isEmulated]
  · intro n name p
    rw [getPeer_addsPeer p₁ p₂ hl.ne, h.peer, h.intf]
    constructor
    · rintro (⟨e, he⟩ | ⟨k, hk, he⟩)
      · exact ⟨l, List.mem_cons_self .., e, he⟩
      · exact ⟨k, List.mem_cons_of_mem _ hk, he⟩
    · rintro ⟨k, hk, he⟩
      rcases List.mem_cons.mp hk with rfl | hk
      · exact .inl he
      · exact .inr ⟨k, hk, he⟩
  · rintro k hk ⟨e, he, e', he', heq⟩
    rcases List.mem_cons.mp he with rfl | he
    · exact absurd heq.symm (hfree₁ k hk e' he')
    · obtain rfl := List.mem_singleton.mp he
      exact absurd heq.symm (hfree₂ k hk e' he')

theorem LinkedBy.exists_addLink (h : LinkedBy t₀ links t) (hu : t₀.Unlinked)
    (hfits : ∀ l ∈ links, l.Fits t₀) (hl : l.Fits t₀) (hmeets : ∀ k ∈ links, l.Meets k → l = k) :
    ∃ st, t.addLink links l = some st := by
  rw [Topology.addLink]
  split
  · exact ⟨_, rfl⟩
  rename_i hnot
  have hfree : ∀ e ∈ l.ends, ∀ k ∈ links, ∀ e' ∈ k.ends, e'.1 ≠ e.1 := by
    intro e he k hk e' he' heq
    exact hnot (hmeets k hk ⟨e, he, e', he', heq.symm⟩ ▸ hk)
  have hhas := hasIntf_congr h.nodes h.intfs
  have hnone₁ : t.getPeer l.node1 (t.intf l.intf1).name = none := by
    rw [h.intf, h.getPeer_eq_none hu hfits hl.end1]
    exact hfree _ (List.mem_cons_self ..)
  have hnone₂ : t.getPeer l.node2 (t.intf l.intf2).name = none := by
    rw [h.intf, h.getPeer_eq_none hu hfits hl.end2]
    exact hfree _ (List.mem_cons_of_mem _ (List.mem_singleton_self _))
  obtain ⟨t₁, h₁⟩ : ∃ t₁, t.addPeer l.node1 l.intf1 (l.node2, l.intf2) = some t₁ :=
    Option.isSome_iff_exists.mp (addPeer_isSome.mpr ⟨hnone₁, (hhas _ _).trans hl.end2⟩)
  have p₁ := addsPeer_of_addPeer h₁
  have hnone₂' : t₁.getPeer l.node2 (t₁.intf l.intf2).name = none := by
    rw [p₁.intf, p₁.other l.node2 _ fun heq => hl.ne heq.1.symm, hnone₂]
  obtain ⟨t₂, h₂⟩ : ∃ t₂, t₁.addPeer l.node2 l.intf2 (l.node1, l.intf1) = some t₂ :=
    Option.isSome_iff_exists.mp (addPeer_isSome.mpr ⟨hnone₂',
      (hasIntf_congr p₁.nodes p₁.intfs _ _).trans ((hhas _ _).trans hl.end1)⟩)
  exact ⟨(t₂, l :: links), by rw [h₁, Option.bind_eq_bind, Option.bind_some, h₂]; rfl⟩

/-! ### All links -/

theorem linkedBy_nil (hu : t₀.Unlinked) : LinkedBy t₀ [] t₀ :=
  ⟨rfl, rfl, fun _ => rfl, fun _ => rfl, fun _ => rfl, fun n name p =>
    iff_of_false (by rw [hu.peers]; simp) (by simp)⟩

theorem LinkedBy.mono (h : LinkedBy t₀ links t) (hmem : ∀ k, k ∈ links ↔ k ∈ links') :
    LinkedBy t₀ links' t :=
  ⟨h.nodes, h.intf, h.intfs, h.rib, h.isEmulated, fun n name p => by
    simp only [h.peer, hmem]⟩

theorem LinkedBy.foldlM_addLink (h : LinkedBy t₀ links t) (hu : t₀.Unlinked)
    (hfits : ∀ l ∈ links, l.Fits t₀) (hc : Compatible links) {ls : List Link}
    (hls : ∀ l ∈ ls, l.Fits t₀) :
    ((∃ st, ls.foldlM (fun (st : Topology × List Link) l => st.1.addLink st.2 l) (t, links) =
      some st) ↔ Compatible (ls ++ links)) ∧
    ∀ st, ls.foldlM (fun (st : Topology × List Link) l => st.1.addLink st.2 l) (t, links) =
      some st → LinkedBy t₀ (ls ++ links) st.1 := by
  induction ls generalizing t links with
  | nil =>
    refine ⟨iff_of_true ⟨_, rfl⟩ hc, fun st hst => ?_⟩
    obtain rfl := Option.some.inj hst
    exact h
  | cons l ls ih =>
    rw [List.forall_mem_cons] at hls
    rw [List.foldlM_cons]
    dsimp only
    cases hadd : t.addLink links l with
    | none =>
      refine ⟨iff_of_false (by simp) fun hall => ?_, by simp⟩
      obtain ⟨st, hst⟩ := h.exists_addLink hu hfits hls.1 fun k hk hmeets =>
        hall l (List.mem_cons_self ..) k (List.mem_append_right _ hk) hmeets
      rw [hadd] at hst
      exact absurd hst (by simp)
    | some st =>
      obtain ⟨h', hmem, hmeets⟩ := h.addLink hu hfits hc hls.1 hadd
      have hfits' : ∀ k ∈ st.2, k.Fits t₀ := by
        intro k hk
        rcases (hmem k).mp hk with rfl | hk
        · exact hls.1
        · exact hfits k hk
      have hc' : Compatible st.2 := by
        intro k hk k' hk' hmeet
        rcases (hmem k).mp hk with rfl | hk <;> rcases (hmem k').mp hk' with rfl | hk'
        · rfl
        · exact hmeets k' hk' hmeet
        · obtain ⟨e, he, e', he', heq⟩ := hmeet
          exact (hmeets k hk ⟨e', he', e, he, heq.symm⟩).symm
        · exact hc k hk k' hk' hmeet
      have hperm : ∀ k, k ∈ ls ++ st.2 ↔ k ∈ l :: ls ++ links := by
        intro k
        simp only [List.mem_append, List.mem_cons, hmem]
        tauto
      obtain ⟨hiff, hlinked⟩ := ih h' hfits' hc' hls.2
      refine ⟨Iff.trans hiff ?_, fun st' hst' => (hlinked st' hst').mono hperm⟩
      unfold Compatible
      simp only [hperm]

theorem Unlinked.foldlM_addLink (hu : t₀.Unlinked) {ls : List Link}
    (hls : ∀ l ∈ ls, l.Fits t₀) :
    ((∃ st, ls.foldlM (fun (st : Topology × List Link) l => st.1.addLink st.2 l) (t₀, []) =
      some st) ↔ Compatible ls) ∧
    ∀ st, ls.foldlM (fun (st : Topology × List Link) l => st.1.addLink st.2 l) (t₀, []) =
      some st → LinkedBy t₀ ls st.1 := by
  have := (linkedBy_nil hu).foldlM_addLink hu (by simp) (by simp [Compatible]) hls
  rwa [List.append_nil] at this

theorem LinkedBy.linked (h : LinkedBy t₀ links t) (hfits : ∀ l ∈ links, l.Fits t₀) (n : NodePtr)
    (name : IntfName) (m : NodePtr) (j : IntfPtr) (hpeer : t.getPeer n name = some (m, j)) :
    ∃ i ∈ (t.node n).intfs, (t.intf i).name = name ∧ t.getPeer m (t.intf j).name = some (n, i) := by
  obtain ⟨l, hl, e, he, rfl, rfl, hp⟩ := (h.peer _ _ _).mp hpeer
  refine ⟨e.1.2, ?_, by rw [h.intf], ?_⟩
  · rw [h.intfs]
    exact (hasIntf_iff.mp ((hfits l hl).hasIntf he)).2
  · rw [h.peer, h.intf]
    rcases List.mem_cons.mp he with rfl | he
    · obtain ⟨rfl, rfl⟩ := Prod.mk.inj hp
      exact ⟨l, hl, _, List.mem_cons_of_mem _ (List.mem_singleton_self _), rfl, rfl, rfl⟩
    · obtain rfl := List.mem_singleton.mp he
      obtain ⟨rfl, rfl⟩ := Prod.mk.inj hp
      exact ⟨l, hl, _, List.mem_cons_self .., rfl, rfl, rfl⟩

theorem LinkedBy.wired (h : LinkedBy t₀ links t) (hu : t₀.Unlinked)
    (hfits : ∀ l ∈ links, l.Fits t₀) : t.Wired := by
  refine ⟨by simpa only [h.nodes, h.intfs] using hu.owner,
    by simpa only [h.nodes, h.intfs, h.intf] using hu.names, ?_⟩
  intro n hn i hi m j hpeer
  obtain ⟨i', hi', hname, hback⟩ := h.linked hfits n _ m j hpeer
  rw [h.nodes] at hn
  rw [h.intfs] at hi hi'
  rw [h.intf] at hname
  obtain rfl := hu.names n hn i' hi' i hi hname
  exact hback

end Topology

end Neo
