import Neo.Network.Network
import Neo.Lib.Run
import Mathlib.Logic.Function.Basic

/-! Links between the interfaces of nodes. A link makes the interfaces at its ends each other's
peers, and no interface has two peers. -/

namespace Neo

namespace Topology

structure Link where
  node1 : NodePtr
  intf1 : IntfPtr
  node2 : NodePtr
  intf2 : IntfPtr
deriving DecidableEq

def Link.normalize (l : Link) : Link :=
  if l.node2 < l.node1 then ⟨l.node2, l.intf2, l.node1, l.intf1⟩ else l

variable (t : Topology)

def hasIntf (n : NodePtr) (i : IntfPtr) : Bool := n ∈ t.nodes && i ∈ (t.node n).intfs

def withPeer (n : NodePtr) (name : IntfName) (peer : NodePtr × IntfPtr) : NodePtr → Node :=
  Function.update t.node n { t.node n with l2Peers := (name, peer) :: (t.node n).l2Peers }

theorem intfs_withPeer {n : NodePtr} {name : IntfName} {peer : NodePtr × IntfPtr} (k : NodePtr) :
    (t.withPeer n name peer k).intfs = (t.node k).intfs := by
  rw [withPeer]
  by_cases hk : k = n
  · subst hk
    rw [Function.update_self]
  · rw [Function.update_of_ne hk]

/-- `add_peer`; `none` where there is a peer already. -/
def addPeer (n : NodePtr) (i : IntfPtr) (peer : NodePtr × IntfPtr) : Option Topology :=
  if h : t.getPeer n (t.intf i).name = none ∧ t.hasIntf peer.1 peer.2 = true then
    some { t with
      node := t.withPeer n (t.intf i).name peer
      peer_mem := by
        intro k p hp
        rw [intfs_withPeer]
        by_cases hk : k = n
        · rw [withPeer, hk, Function.update_self] at hp
          rcases List.mem_cons.mp hp with rfl | hp
          · simpa [hasIntf] using h.2
          · exact t.peer_mem n p hp
        · rw [withPeer, Function.update_of_ne hk] at hp
          exact t.peer_mem k p hp }
  else none

/-- `parse_link`; `none` where an end is not there, or both ends are at one node. -/
def parseLink (l : Link) : Option Link :=
  let l := l.normalize
  if t.hasIntf l.node1 l.intf1 && t.hasIntf l.node2 l.intf2 && l.node1 ≠ l.node2 then some l
  else none

/-- `add_link`, which ignores links that are given again. -/
def addLink (links : List Link) (l : Link) : Option (Topology × List Link) :=
  if l ∈ links then some (t, links)
  else do
    let t ← t.addPeer l.node1 l.intf1 (l.node2, l.intf2)
    let t ← t.addPeer l.node2 l.intf2 (l.node1, l.intf1)
    return (t, l :: links)

def parseLinks (links : List Link) : Option Topology :=
  (links.foldlM (fun (st : Topology × List Link) l => do
    let l ← st.1.parseLink l
    st.1.addLink st.2 l) (t, [])).map Prod.fst

structure Unlinked : Prop where
  owner : ∀ n ∈ t.nodes, ∀ m ∈ t.nodes, ∀ i ∈ (t.node n).intfs, i ∈ (t.node m).intfs → n = m
  names : ∀ n ∈ t.nodes, ∀ i ∈ (t.node n).intfs, ∀ j ∈ (t.node n).intfs,
    (t.intf i).name = (t.intf j).name → i = j
  peers : ∀ n name, t.getPeer n name = none

structure Wired : Prop where
  owner : ∀ n ∈ t.nodes, ∀ m ∈ t.nodes, ∀ i ∈ (t.node n).intfs, i ∈ (t.node m).intfs → n = m
  names : ∀ n ∈ t.nodes, ∀ i ∈ (t.node n).intfs, ∀ j ∈ (t.node n).intfs,
    (t.intf i).name = (t.intf j).name → i = j
  symm : ∀ n ∈ t.nodes, ∀ i ∈ (t.node n).intfs, ∀ m j,
    t.getPeer n (t.intf i).name = some (m, j) → t.getPeer m (t.intf j).name = some (n, i)

variable {t}

theorem Unlinked.wired (h : t.Unlinked) : t.Wired :=
  ⟨h.owner, h.names, fun n _ i _ m j hpeer => absurd hpeer (by rw [h.peers]; simp)⟩

theorem hasIntf_iff {n : NodePtr} {i : IntfPtr} :
    t.hasIntf n i = true ↔ n ∈ t.nodes ∧ i ∈ (t.node n).intfs := by
  simp [hasIntf]

/-- What `add_peer` does. -/
structure AddsPeer (t t' : Topology) (n : NodePtr) (i : IntfPtr) (peer : NodePtr × IntfPtr) :
    Prop where
  fresh : t.getPeer n (t.intf i).name = none
  nodes : t'.nodes = t.nodes
  intf : t'.intf = t.intf
  intfs : ∀ k, (t'.node k).intfs = (t.node k).intfs
  peer : t'.getPeer n (t.intf i).name = some peer
  other : ∀ k name, ¬(k = n ∧ name = (t.intf i).name) → t'.getPeer k name = t.getPeer k name

theorem addsPeer_of_addPeer {t' : Topology} {n : NodePtr} {i : IntfPtr} {peer : NodePtr × IntfPtr}
    (h : t.addPeer n i peer = some t') : AddsPeer t t' n i peer := by
  rw [addPeer] at h
  split at h
  · rename_i hcond
    obtain rfl := Option.some.inj h
    refine ⟨hcond.1, rfl, rfl, fun k => t.intfs_withPeer k, ?_, fun k name hne => ?_⟩
    · simp [getPeer, withPeer, Function.update_self]
    · by_cases hk : k = n
      · subst hk
        have hname : (name == (t.intf i).name) = false := by
          simpa using fun heq : name = (t.intf i).name => hne ⟨rfl, heq⟩
        simp [getPeer, withPeer, Function.update_self, List.lookup_cons, hname]
      · simp [getPeer, withPeer, Function.update_of_ne hk]
  · exact absurd h (by simp)

theorem Wired.addLink (h : t.Wired) {links : List Link} {l : Link} {t' : Topology}
    {links' : List Link} (h₁ : t.hasIntf l.node1 l.intf1 = true)
    (h₂ : t.hasIntf l.node2 l.intf2 = true) (hne : l.node1 ≠ l.node2)
    (hadd : t.addLink links l = some (t', links')) : t'.Wired := by
  rw [Topology.addLink] at hadd
  split at hadd
  · obtain ⟨rfl, -⟩ := Prod.mk.inj (Option.some.inj hadd)
    exact h
  simp only [Option.bind_eq_bind, Option.bind_eq_some_iff] at hadd
  obtain ⟨t₁, hadd₁, t₂, hadd₂, heq⟩ := hadd
  obtain ⟨rfl, -⟩ := Prod.mk.inj (Option.some.inj heq)
  have p₁ := addsPeer_of_addPeer hadd₁
  have p₂ := addsPeer_of_addPeer hadd₂
  have hnodes := p₂.nodes.trans p₁.nodes
  have hintf := p₂.intf.trans p₁.intf
  have hintfs : ∀ k, (t₂.node k).intfs = (t.node k).intfs := fun k =>
    (p₂.intfs k).trans (p₁.intfs k)
  obtain ⟨hn₁, hi₁⟩ := hasIntf_iff.mp h₁
  obtain ⟨hn₂, hi₂⟩ := hasIntf_iff.mp h₂
  have hfresh₂ : t.getPeer l.node2 (t.intf l.intf2).name = none := by
    have hfresh := p₂.fresh
    rw [p₁.intf] at hfresh
    rwa [← p₁.other l.node2 _ fun heq => hne heq.1.symm]
  have hpeer₂ : t₂.getPeer l.node2 (t.intf l.intf2).name = some (l.node1, l.intf1) := by
    have hpeer := p₂.peer
    rwa [p₁.intf] at hpeer
  have hpeer₁ : t₂.getPeer l.node1 (t.intf l.intf1).name = some (l.node2, l.intf2) := by
    rw [p₂.other l.node1 _ fun heq => hne heq.1, p₁.peer]
  have hother : ∀ k name, ¬(k = l.node1 ∧ name = (t.intf l.intf1).name) →
      ¬(k = l.node2 ∧ name = (t.intf l.intf2).name) →
      t₂.getPeer k name = t.getPeer k name := by
    intro k name hk₁ hk₂
    rw [p₂.other k name (by rw [p₁.intf]; exact hk₂), p₁.other k name hk₁]
  refine ⟨?_, ?_, ?_⟩
  · simpa only [hnodes, hintfs] using h.owner
  · simpa only [hnodes, hintfs, hintf] using h.names
  · intro n hn i hi m j hpeer
    rw [hnodes] at hn
    rw [hintfs] at hi
    rw [hintf] at hpeer ⊢
    by_cases hk₁ : n = l.node1 ∧ (t.intf i).name = (t.intf l.intf1).name
    · obtain ⟨rfl, hname⟩ := hk₁
      obtain rfl := h.names _ hn i hi _ hi₁ hname
      obtain ⟨rfl, rfl⟩ := Prod.mk.inj (Option.some.inj (hpeer₁.symm.trans hpeer))
      exact hpeer₂
    · by_cases hk₂ : n = l.node2 ∧ (t.intf i).name = (t.intf l.intf2).name
      · obtain ⟨rfl, hname⟩ := hk₂
        obtain rfl := h.names _ hn i hi _ hi₂ hname
        obtain ⟨rfl, rfl⟩ := Prod.mk.inj (Option.some.inj (hpeer₂.symm.trans hpeer))
        exact hpeer₁
      · rw [hother n _ hk₁ hk₂] at hpeer
        have hback := h.symm n hn i hi m j hpeer
        -- the peer had a peer before, and keeps it
        rw [hother m _ ?_ ?_]
        · exact hback
        · rintro ⟨rfl, hname⟩
          rw [hname, p₁.fresh] at hback
          exact absurd hback (by simp)
        · rintro ⟨rfl, hname⟩
          rw [hname, hfresh₂] at hback
          exact absurd hback (by simp)

theorem wired_of_parseLinks (h : t.Unlinked) {links : List Link} {t' : Topology}
    (hlinks : t.parseLinks links = some t') : t'.Wired := by
  obtain ⟨st, hst, rfl⟩ := Option.map_eq_some_iff.mp hlinks
  refine foldlM_invariant (fun st : Topology × List Link => st.1.Wired) links ?_ h.wired hst
  intro l _ st st' hwired hstep
  obtain ⟨l', hl', hadd⟩ := Option.bind_eq_some_iff.mp hstep
  rw [parseLink] at hl'
  split at hl'
  · rename_i hcond
    obtain rfl := Option.some.inj hl'
    simp only [Bool.and_eq_true, decide_eq_true_eq] at hcond
    exact hwired.addLink hcond.1.1 hcond.1.2 hcond.2 hadd
  · exact absurd hl' (by simp)

end Topology

end Neo
