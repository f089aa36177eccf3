import Neo.ConfigParser.Denotes

/-! Which configurations are accepted, and the network that an accepted one is of. -/

namespace Neo

namespace ConfigParser

open Fallible

/-! ### Objects in memory -/

namespace Nodes

variable {M : Layout} {ns : Nodes} {d d' : NodeDecl} {i i' : NamedIntf}

theorem eq_of_name (hd : d ∈ ns.decls) (hd' : d' ∈ ns.decls) (h : d.name = d'.name) : d = d' :=
  List.inj_on_of_nodup_map ns.names_nodup hd hd' h

theorem mem_nodes {n : NodePtr} :
    n ∈ (ns.topology M).nodes ↔ ∃ d ∈ ns.decls, M.node d.name = n := by
  show n ∈ M.order _ ↔ _
  rw [(M.order_perm _).mem_iff, List.mem_map]

theorem node_topology (hd : d ∈ ns.decls) : (ns.topology M).node (M.node d.name) = d.node M := by
  have hfind : (ns.decls.find? fun d' => M.node d'.name = M.node d.name) = some d := by
    apply (find?_key ?_).mpr ⟨hd, rfl⟩
    have := ns.names_nodup.map M.node_injective
    rwa [List.map_map] at this
  show ns.nodeAt M _ = _
  rw [nodeAt, hfind]
  rfl

theorem mem_intfs_node {p : IntfPtr} :
    p ∈ (d.node M).intfs ↔ ∃ i ∈ d.intfs, M.intf d.name i.name = p := by
  show p ∈ Ordered.ofList _ _ ↔ _
  rw [Ordered.mem_ofList, List.mem_map]

theorem intf_topology (hd : d ∈ ns.decls) (hi : i ∈ d.intfs) :
    (ns.topology M).intf (M.intf d.name i.name) = i.interface := by
  have hmem : (M.intf d.name i.name, i.interface) ∈ ns.heap M :=
    List.mem_flatMap.mpr ⟨d, hd, List.mem_map_of_mem hi⟩
  have hlookup : (ns.heap M).lookup (M.intf d.name i.name) = some i.interface := by
    refine lookup_eq_some ?_ hmem
    intro p hp q hq heq
    obtain ⟨d₁, hd₁, hp⟩ := List.mem_flatMap.mp hp
    obtain ⟨i₁, hi₁, rfl⟩ := List.mem_map.mp hp
    obtain ⟨d₂, hd₂, hq⟩ := List.mem_flatMap.mp hq
    obtain ⟨i₂, hi₂, rfl⟩ := List.mem_map.mp hq
    obtain ⟨hname, hintf⟩ := M.intf_injective heq
    obtain rfl := eq_of_name hd₁ hd₂ hname
    obtain rfl := List.inj_on_of_nodup_map d₁.names_nodup hi₁ hi₂ hintf
    rfl
  show ((ns.heap M).lookup _).getD _ = _
  rw [hlookup]
  rfl

theorem hasIntf_topology {n : NodePtr} {p : IntfPtr} : (ns.topology M).hasIntf n p = true ↔
    ∃ d ∈ ns.decls, ∃ i ∈ d.intfs, M.node d.name = n ∧ M.intf d.name i.name = p := by
  rw [Topology.hasIntf_iff, mem_nodes]
  constructor
  · rintro ⟨⟨d, hd, rfl⟩, hp⟩
    rw [node_topology hd, mem_intfs_node] at hp
    obtain ⟨i, hi, rfl⟩ := hp
    exact ⟨d, hd, i, hi, rfl, rfl⟩
  · rintro ⟨d, hd, i, hi, rfl, rfl⟩
    exact ⟨⟨d, hd, rfl⟩, by rw [node_topology hd, mem_intfs_node]; exact ⟨i, hi, rfl⟩⟩

theorem unlinked (M : Layout) (ns : Nodes) : (ns.topology M).Unlinked := by
  refine ⟨?_, ?_, ?_⟩
  · intro n hn m hm p hp hp'
    obtain ⟨d, hd, rfl⟩ := mem_nodes.mp hn
    obtain ⟨d', hd', rfl⟩ := mem_nodes.mp hm
    rw [node_topology hd, mem_intfs_node] at hp
    rw [node_topology hd', mem_intfs_node] at hp'
    obtain ⟨i, -, rfl⟩ := hp
    obtain ⟨i', -, heq⟩ := hp'
    rw [(M.intf_injective heq).1]
  · intro n hn p hp q hq hname
    obtain ⟨d, hd, rfl⟩ := mem_nodes.mp hn
    rw [node_topology hd, mem_intfs_node] at hp hq
    obtain ⟨i, hi, rfl⟩ := hp
    obtain ⟨j, hj, rfl⟩ := hq
    rw [intf_topology hd hi, intf_topology hd hj] at hname
    rw [IntfName.ofText_injective hname]
  · intro n name
    show ((ns.nodeAt M n).l2Peers).lookup name = none
    rw [l2Peers_nodeAt]
    rfl

end Nodes

/-! ### Links between interfaces that are there -/

def Layout.at (M : Layout) (e : Text × Text) : NodePtr × IntfPtr := (M.node e.1, M.intf e.1 e.2)

theorem Layout.at_injective (M : Layout) : Function.Injective M.at := by
  intro e f h
  obtain ⟨hname, hintf⟩ := M.intf_injective (congrArg Prod.snd h)
  exact Prod.ext hname hintf

theorem NamedLink.mem_ends_normalize {l : NamedLink} {x : (NodePtr × IntfPtr) × NodePtr × IntfPtr} :
    x ∈ l.normalize.toLink.ends ↔ x ∈ l.toLink.ends := by
  rw [normalize]
  split
  · simp only [Topology.Link.ends, List.mem_cons, List.not_mem_nil, or_false]
    exact or_comm
  · rfl

section
variable {M : Layout} {ns : Nodes} {cfg : LinkTbl} {d₁ d₂ : NodeDecl} {i₁ i₂ : NamedIntf}

theorem LinkTbl.Joins.lt (h : cfg.Joins ns d₁ i₁ d₂ i₂) :
    (NamedLink.between M d₁ i₁ d₂ i₂).normalize.node1 <
      (NamedLink.between M d₁ i₁ d₂ i₂).normalize.node2 := by
  have hne : M.node d₁.name ≠ M.node d₂.name := fun heq => h.ne (M.node_injective heq)
  rw [NamedLink.normalize]
  split
  · assumption
  · rename_i hle
    exact lt_of_le_of_ne (not_lt.mp hle) hne

theorem LinkTbl.Joins.fits (h : cfg.Joins ns d₁ i₁ d₂ i₂) :
    (NamedLink.between M d₁ i₁ d₂ i₂).normalize.toLink.Fits (ns.topology M) := by
  have hend₁ : (ns.topology M).hasIntf (M.node d₁.name) (M.intf d₁.name i₁.name) = true :=
    Nodes.hasIntf_topology.mpr ⟨d₁, h.node1.2, i₁, h.intf1.2, rfl, rfl⟩
  have hend₂ : (ns.topology M).hasIntf (M.node d₂.name) (M.intf d₂.name i₂.name) = true :=
    Nodes.hasIntf_topology.mpr ⟨d₂, h.node2.2, i₂, h.intf2.2, rfl, rfl⟩
  rw [NamedLink.normalize]
  split
  · exact ⟨hend₂, hend₁, fun heq => h.ne (M.node_injective heq).symm⟩
  · exact ⟨hend₁, hend₂, fun heq => h.ne (M.node_injective heq)⟩

theorem LinkTbl.Joins.eq (h : cfg.Joins ns d₁ i₁ d₂ i₂) :
    cfg = ⟨some d₁.name, some i₁.name, some d₂.name, some i₂.name⟩ := by
  obtain ⟨n₁, j₁, n₂, j₂⟩ := cfg
  rw [LinkTbl.mk.injEq]
  exact ⟨h.node1.1, h.intf1.1, h.node2.1, h.intf2.1⟩

theorem LinkTbl.Joins.mem_ends (h : cfg.Joins ns d₁ i₁ d₂ i₂)
    {x : (NodePtr × IntfPtr) × NodePtr × IntfPtr} :
    x ∈ (NamedLink.between M d₁ i₁ d₂ i₂).normalize.toLink.ends ↔
      ∃ e f, cfg.Links e f ∧ (M.at e, M.at f) = x := by
  rw [NamedLink.mem_ends_normalize]
  show x ∈ [(M.at (d₁.name, i₁.name), M.at (d₂.name, i₂.name)),
    (M.at (d₂.name, i₂.name), M.at (d₁.name, i₁.name))] ↔ _
  rw [h.eq]
  simp only [LinkTbl.Links, LinkTbl.mk.injEq, Option.some.injEq, List.mem_cons, List.not_mem_nil,
    or_false]
  constructor
  · rintro (rfl | rfl)
    · exact ⟨_, _, .inl ⟨rfl, rfl, rfl, rfl⟩, rfl⟩
    · exact ⟨_, _, .inr ⟨rfl, rfl, rfl, rfl⟩, rfl⟩
  · rintro ⟨e, f, ⟨h₁, h₂, h₃, h₄⟩ | ⟨h₁, h₂, h₃, h₄⟩, rfl⟩
    · rw [h₁, h₂, h₃, h₄]
      exact .inl rfl
    · rw [h₁, h₂, h₃, h₄]
      exact .inr rfl

end

def LinksOf (M : Layout) (ns : Nodes) : List LinkTbl → List NamedLink → Prop :=
  List.Forall₂ fun cfg l => ∃ d₁ i₁ d₂ i₂, cfg.Joins ns d₁ i₁ d₂ i₂ ∧
    (NamedLink.between M d₁ i₁ d₂ i₂).normalize = l

namespace LinksOf

variable {M : Layout} {ns : Nodes} {cfgs : List LinkTbl} {ls : List NamedLink}

theorem exists_of (h : ∀ l ∈ cfgs, ∃ d₁ i₁ d₂ i₂, l.Joins ns d₁ i₁ d₂ i₂) :
    ∃ ls, LinksOf M ns cfgs ls := by
  induction cfgs with
  | nil => exact ⟨[], .nil⟩
  | cons cfg cfgs ih =>
    rw [List.forall_mem_cons] at h
    obtain ⟨d₁, i₁, d₂, i₂, hjoins⟩ := h.1
    obtain ⟨ls, hls⟩ := ih h.2
    exact ⟨_ :: ls, .cons ⟨d₁, i₁, d₂, i₂, hjoins, rfl⟩ hls⟩

theorem joins (h : LinksOf M ns cfgs ls) :
    ∀ l ∈ cfgs, ∃ d₁ i₁ d₂ i₂, l.Joins ns d₁ i₁ d₂ i₂ := by
  induction h with
  | nil => simp
  | cons hl _ ih =>
    obtain ⟨d₁, i₁, d₂, i₂, hjoins, -⟩ := hl
    exact List.forall_mem_cons.mpr ⟨⟨d₁, i₁, d₂, i₂, hjoins⟩, ih⟩

theorem fits (h : LinksOf M ns cfgs ls) :
    ∀ l ∈ ls.map NamedLink.toLink, l.Fits (ns.topology M) ∧ l.node1 < l.node2 := by
  induction h with
  | nil => simp
  | cons hl _ ih =>
    obtain ⟨d₁, i₁, d₂, i₂, hjoins, rfl⟩ := hl
    exact List.forall_mem_cons.mpr ⟨⟨hjoins.fits, hjoins.lt⟩, ih⟩

theorem exists_ends (h : LinksOf M ns cfgs ls) {x : (NodePtr × IntfPtr) × NodePtr × IntfPtr} :
    (∃ l ∈ ls.map NamedLink.toLink, x ∈ l.ends) ↔
      ∃ cfg ∈ cfgs, ∃ e f, cfg.Links e f ∧ (M.at e, M.at f) = x := by
  induction h with
  | nil => simp
  | cons hl _ ih =>
    obtain ⟨d₁, i₁, d₂, i₂, hjoins, rfl⟩ := hl
    simp only [List.map_cons, List.mem_cons, exists_eq_or_imp, hjoins.mem_ends, ih]

theorem compatible_iff (h : LinksOf M ns cfgs ls) :
    Topology.Compatible (ls.map NamedLink.toLink) ↔
      ∀ l ∈ cfgs, ∀ l' ∈ cfgs, ∀ e f f', l.Links e f → l'.Links e f' → f = f' := by
  rw [Topology.compatible_iff (fun l hl => (h.fits l hl).1) fun l hl => (h.fits l hl).2]
  constructor
  · intro hall l hl l' hl' e f f' hlinks hlinks'
    obtain ⟨k, hk, hx⟩ := h.exists_ends.mpr ⟨l, hl, e, f, hlinks, rfl⟩
    obtain ⟨k', hk', hx'⟩ := h.exists_ends.mpr ⟨l', hl', e, f', hlinks', rfl⟩
    exact M.at_injective (hall k hk k' hk' _ hx _ hx' rfl)
  · intro hall k hk k' hk' x hx x' hx' heq
    obtain ⟨l, hl, e, f, hlinks, rfl⟩ := h.exists_ends.mp ⟨k, hk, hx⟩
    obtain ⟨l', hl', e', f', hlinks', rfl⟩ := h.exists_ends.mp ⟨k', hk', hx'⟩
    obtain rfl := M.at_injective heq
    exact congrArg M.at (hall l hl l' hl' e f f' hlinks hlinks')

end LinksOf

/-! ### The network -/

variable {H : DockerHost} {M : Layout} {cfg : NetworkTbl}

theorem parseNetwork_eq_ok {p : ParsedNetwork} : parseNetwork H M cfg = .ok p ↔
    List.Forall₂ (NodeTbl.Denotes H M.unset) (cfg.nodes.getD []) p.nodes.decls ∧
    ∃ ls, LinksOf M p.nodes (cfg.links.getD []) ls ∧
      (ls.map NamedLink.toLink).foldlM (fun st l => st.1.addLink st.2 l)
        (p.nodes.topology M, []) = some (p.topology, p.links) := by
  simp only [parseNetwork, bind_eq_ok, foldlM_read_eq_ok, NodeTbl.denotes_iff,
    Nodes.foldlM_addNode, LinkTbl.joins_iff, foldlM_addLink, pure_eq_ok]
  constructor
  · rintro ⟨ns, ⟨ds, hds, hns⟩, st, ⟨ls, hls, hst⟩, rfl⟩
    obtain rfl : ns.decls = ds := hns
    exact ⟨hds, ls, hls, hst⟩
  · rintro ⟨hds, ls, hls, hst⟩
    exact ⟨p.nodes, ⟨_, hds, rfl⟩, _, ⟨ls, hls, hst⟩, rfl⟩

theorem describes_of_linkedBy {ns : Nodes} {ls : List NamedLink} {t : Topology}
    (hls : LinksOf M ns (cfg.links.getD []) ls)
    (h : Topology.LinkedBy (ns.topology M) (ls.map NamedLink.toLink) t) :
    cfg.Describes M ns t := by
  refine ⟨?_, ?_, ?_, ?_, ?_, ?_⟩
  · rw [h.nodes]
    exact M.order_perm _
  · intro d hd p
    rw [h.intfs, Nodes.node_topology hd, Nodes.mem_intfs_node]
  · intro d hd i hi
    rw [h.intf, Nodes.intf_topology hd hi]
  · intro d hd
    rw [h.rib, Nodes.node_topology hd]
    rfl
  · intro d hd
    rw [h.isEmulated, Nodes.node_topology hd]
    rfl
  · intro d hd i hi p
    rw [h.peer]
    constructor
    · rintro ⟨l, hl, x, hx, hn, hname, rfl⟩
      obtain ⟨l', hl', e, f, hlinks, rfl⟩ := hls.exists_ends.mp ⟨l, hl, hx⟩
      obtain ⟨d', hd', i', hi', -, hintf⟩ := Nodes.hasIntf_topology.mp
        ((hls.fits l hl).1.hasIntf hx)
      obtain ⟨hname₁, hname₂⟩ := M.intf_injective hintf
      have hd'' : d' = d := Nodes.eq_of_name hd' hd (hname₁.trans (M.node_injective hn))
      subst hd''
      rw [show (M.at e).2 = M.intf d'.name i'.name from hintf.symm, Nodes.intf_topology hd hi']
        at hname
      have hi'' : i'.name = i.name := IntfName.ofText_injective hname
      have he : e = (d'.name, i.name) := Prod.ext hname₁.symm (hname₂.symm.trans hi'')
      exact ⟨l', hl', f, he ▸ hlinks, rfl⟩
    · rintro ⟨l', hl', f, hlinks, rfl⟩
      obtain ⟨l, hl, hx⟩ := hls.exists_ends.mpr ⟨l', hl', _, f, hlinks, rfl⟩
      refine ⟨l, hl, _, hx, rfl, ?_, rfl⟩
      show ((ns.topology M).intf (M.intf d.name i.name)).name = _
      rw [Nodes.intf_topology hd hi]
      rfl

theorem linkedBy_of_parse {p : ParsedNetwork} (hp : parseNetwork H M cfg = .ok p) :
    cfg.WellFormed H M.unset p.nodes ∧ ∃ ls, LinksOf M p.nodes (cfg.links.getD []) ls ∧
      Topology.LinkedBy (p.nodes.topology M) (ls.map NamedLink.toLink) p.topology := by
  obtain ⟨hnodes, ls, hls, hst⟩ := parseNetwork_eq_ok.mp hp
  obtain ⟨hiff, hlinked⟩ := (p.nodes.unlinked M).foldlM_addLink fun l hl => (hls.fits l hl).1
  exact ⟨⟨hnodes, hls.joins, hls.compatible_iff.mp (hiff.mp ⟨_, hst⟩)⟩, ls, hls, hlinked _ hst⟩

theorem exists_parse {ns : Nodes} (h : cfg.WellFormed H M.unset ns) :
    ∃ p, parseNetwork H M cfg = .ok p := by
  obtain ⟨ls, hls⟩ := LinksOf.exists_of (M := M) h.links
  obtain ⟨hiff, -⟩ := (ns.unlinked M).foldlM_addLink fun l hl => (hls.fits l hl).1
  obtain ⟨st, hst⟩ := hiff.mpr (hls.compatible_iff.mpr h.peers)
  exact ⟨⟨ns, st.1, st.2⟩, parseNetwork_eq_ok.mpr ⟨h.nodes, ls, hls, hst⟩⟩

/-- A configuration is accepted if and only if it is well formed, and then the network is the one
that it describes. -/
theorem parseNetwork_iff (H : DockerHost) (M : Layout) (cfg : NetworkTbl) :
    ((∃ p, parseNetwork H M cfg = .ok p) ↔ ∃ ns, cfg.WellFormed H M.unset ns) ∧
      ∀ p, parseNetwork H M cfg = .ok p →
        cfg.WellFormed H M.unset p.nodes ∧ cfg.Describes M p.nodes p.topology ∧
          p.topology.Wired := by
  refine ⟨⟨fun h => ?_, fun h => exists_parse h.choose_spec⟩, fun p hp => ?_⟩
  · obtain ⟨p, hp⟩ := h
    exact ⟨p.nodes, (linkedBy_of_parse hp).1⟩
  · obtain ⟨hwell, ls, hls, hlinked⟩ := linkedBy_of_parse hp
    exact ⟨hwell, describes_of_linkedBy hls hlinked,
      hlinked.wired (p.nodes.unlinked M) fun l hl => (hls.fits l hl).1⟩

end ConfigParser

end Neo
