import Neo.ConfigParser.ParseNetwork
import Neo.Network.Linking

/-! What the tables of a configuration say, without the order in which the parser reads them. -/

namespace Neo

namespace ConfigParser

open Fallible

/-! ### Nodes -/

structure InterfaceTbl.Denotes (cfg : InterfaceTbl) (i : NamedIntf) : Prop where
  name : cfg.name = some i.name
  ipv4 : Option.Rel (fun s ip => IPInterface.parse s = .ok ip) cfg.ipv4 i.ipv4

structure RouteTbl.Denotes (unset : IPv4Address) (cfg : RouteTbl) (r : Route) : Prop where
  network : ∃ s, cfg.network = some s ∧ IPNetwork.parse s = .ok r.network
  given : cfg.nextHop ≠ none ∨ cfg.interface ≠ none
  nextHop : ∃ o, Option.Rel (fun s a => IPv4Address.parse s = .ok a) cfg.nextHop o ∧
    r.nextHop = o.getD unset
  egressIntf : r.egressIntf = .ofText (cfg.interface.getD [])
  admDist : r.admDist = cfg.admDist.getD 255
  range : ∀ d ∈ cfg.admDist, 1 ≤ d ∧ d ≤ 254

def RouteTbl.DenotesStatic (unset : IPv4Address) (cfg : RouteTbl) (r : Route) : Prop :=
  ∃ r₀, cfg.Denotes unset r₀ ∧ asStatic r₀ = r

/-- The interfaces are those of the table, and the routes are inserted in the order of their
kinds: connected, static, installed. -/
structure NodeTbl.DenotesNode (unset : IPv4Address) (cfg : NodeTbl) (n : NamedNode) : Prop where
  name : cfg.name = some n.name
  intfs : List.Forall₂ InterfaceTbl.Denotes (cfg.interfaces.getD []) n.intfs
  rib : ∃ static installed,
    List.Forall₂ (RouteTbl.DenotesStatic unset) (cfg.staticRoutes.getD []) static ∧
    List.Forall₂ (RouteTbl.Denotes unset) (cfg.installedRoutes.getD []) installed ∧
    n.rib = .ofRoutes (n.intfs.filterMap NamedIntf.connectedRoute ++ static ++ installed)

inductive NodeTbl.Denotes (H : DockerHost) (unset : IPv4Address) (cfg : NodeTbl) (d : NodeDecl) :
    Prop
  | model : cfg.type = none ∨ cfg.type = some "model".toList → d.docker = none →
    cfg.DenotesNode unset d.toNamedNode → Denotes H unset cfg d
  | emulation (dn : DockerNode) : cfg.type = some "emulation".toList →
    cfg.driver = none ∨ cfg.driver = some "docker".toList → d.docker = some dn →
    parseDockernode H cfg = .ok dn → cfg.DenotesNode unset d.toNamedNode → Denotes H unset cfg d

structure LinkTbl.Joins (ns : Nodes) (cfg : LinkTbl) (d₁ : NodeDecl) (i₁ : NamedIntf)
    (d₂ : NodeDecl) (i₂ : NamedIntf) : Prop where
  node1 : cfg.node1 = some d₁.name ∧ d₁ ∈ ns.decls
  intf1 : cfg.intf1 = some i₁.name ∧ i₁ ∈ d₁.intfs
  node2 : cfg.node2 = some d₂.name ∧ d₂ ∈ ns.decls
  intf2 : cfg.intf2 = some i₂.name ∧ i₂ ∈ d₂.intfs
  ne : d₁.name ≠ d₂.name

def LinkTbl.Links (cfg : LinkTbl) (e f : Text × Text) : Prop :=
  cfg = ⟨some e.1, some e.2, some f.1, some f.2⟩ ∨ cfg = ⟨some f.1, some f.2, some e.1, some e.2⟩

/-- A configuration of nodes and of links between their interfaces. An interface may be linked
again, but not to another one. -/
structure NetworkTbl.WellFormed (H : DockerHost) (unset : IPv4Address) (cfg : NetworkTbl)
    (ns : Nodes) : Prop where
  nodes : List.Forall₂ (NodeTbl.Denotes H unset) (cfg.nodes.getD []) ns.decls
  links : ∀ l ∈ cfg.links.getD [], ∃ d₁ i₁ d₂ i₂, l.Joins ns d₁ i₁ d₂ i₂
  peers : ∀ l ∈ cfg.links.getD [], ∀ l' ∈ cfg.links.getD [], ∀ e f f', l.Links e f →
    l'.Links e f' → f = f'

/-- The nodes are in memory with their interfaces and tables, and have peers where there are
links. -/
structure NetworkTbl.Describes (M : Layout) (cfg : NetworkTbl) (ns : Nodes) (t : Topology) :
    Prop where
  nodes : t.nodes.Perm (ns.decls.map fun d => M.node d.name)
  intfs : ∀ d ∈ ns.decls, ∀ p, p ∈ (t.node (M.node d.name)).intfs ↔
    ∃ i ∈ d.intfs, M.intf d.name i.name = p
  intf : ∀ d ∈ ns.decls, ∀ i ∈ d.intfs, t.intf (M.intf d.name i.name) = i.interface
  rib : ∀ d ∈ ns.decls, (t.node (M.node d.name)).rib = d.rib
  isEmulated : ∀ d ∈ ns.decls, (t.node (M.node d.name)).isEmulated = d.docker.isSome
  peer : ∀ d ∈ ns.decls, ∀ i ∈ d.intfs, ∀ p,
    t.getPeer (M.node d.name) (.ofText i.name) = some p ↔
      ∃ l ∈ cfg.links.getD [], ∃ f, l.Links (d.name, i.name) f ∧ (M.node f.1, M.intf f.1 f.2) = p

theorem InterfaceTbl.denotes_iff {cfg : InterfaceTbl} {i : NamedIntf} :
    parseInterface cfg = .ok i ↔ cfg.Denotes i := by
  rw [parseInterface, bind_eq_ok]
  constructor
  · rintro ⟨name, hname, h⟩
    obtain ⟨ipv4, hipv4, h⟩ := bind_eq_ok.mp h
    obtain rfl := pure_eq_ok.mp h
    exact ⟨require_eq_ok.mp hname, mapM_option_eq_ok.mp hipv4⟩
  · intro h
    exact ⟨i.name, require_eq_ok.mpr h.name,
      bind_eq_ok.mpr ⟨i.ipv4, mapM_option_eq_ok.mpr h.ipv4, rfl⟩⟩

theorem NamedNode.ext {n m : NamedNode} (hname : n.name = m.name) (hintfs : n.intfs = m.intfs)
    (hrib : n.rib = m.rib) : n = m := by
  obtain ⟨_, _, _, _, _, _⟩ := n
  obtain ⟨_, _, _, _, _, _⟩ := m
  simp only [NamedNode.mk.injEq]
  exact ⟨hname, hintfs, hrib⟩

theorem NamedIntf.connectedRoute_none {i : NamedIntf} (h : i.ipv4 = none) :
    i.connectedRoute = none := by
  rw [connectedRoute, h]
  rfl

theorem NamedIntf.connectedRoute_some {i : NamedIntf} {ip : IPInterface} (h : i.ipv4 = some ip) :
    i.connectedRoute = some ⟨ip.network, ip.addr, .ofText i.name, 0⟩ := by
  rw [connectedRoute, h]
  rfl

theorem NamedNode.addInterface_eq_ok {n n' : NamedNode} {i : NamedIntf} :
    n.addInterface i = .ok n' ↔ n'.name = n.name ∧ n'.intfs = n.intfs ++ [i] ∧
      n'.rib = i.connectedRoute.toList.foldl RoutingTable.insert n.rib := by
  constructor
  · intro h
    rw [addInterface] at h
    split at h
    · cases h
    split at h
    · rename_i hipv4
      obtain rfl := Except.ok.inj h
      exact ⟨rfl, rfl, by rw [NamedIntf.connectedRoute_none hipv4]; rfl⟩
    · rename_i ip hipv4
      split at h
      · cases h
      · obtain rfl := Except.ok.inj h
        exact ⟨rfl, rfl, by rw [NamedIntf.connectedRoute_some hipv4]; rfl⟩
  · rintro ⟨hname, hintfs, hrib⟩
    have hnames := n'.names_nodup
    have haddrs := n'.addrs_nodup
    rw [hintfs, List.map_append, List.nodup_append] at hnames
    rw [hintfs, List.filterMap_append, List.nodup_append] at haddrs
    have hfresh : i.name ∉ n.intfs.map NamedIntf.name := fun hmem =>
      hnames.2.2 _ hmem i.name (by simp) rfl
    rw [addInterface, dif_neg hfresh]
    split
    · rename_i hipv4
      rw [NamedIntf.connectedRoute_none hipv4] at hrib
      exact congrArg Except.ok (NamedNode.ext hname.symm hintfs.symm hrib.symm)
    · rename_i ip hipv4
      rw [dif_neg fun hmem => haddrs.2.2 _ hmem ip.addr (by simp [NamedIntf.addr, hipv4]) rfl]
      rw [NamedIntf.connectedRoute_some hipv4] at hrib
      exact congrArg Except.ok (NamedNode.ext hname.symm hintfs.symm hrib.symm)

theorem NamedNode.foldlM_addInterface {is : List NamedIntf} {n n' : NamedNode} :
    is.foldlM addInterface n = .ok n' ↔ n'.name = n.name ∧ n'.intfs = n.intfs ++ is ∧
      n'.rib = (is.filterMap NamedIntf.connectedRoute).foldl RoutingTable.insert n.rib := by
  induction is generalizing n with
  | nil =>
    rw [List.foldlM_nil, pure_eq_ok, List.append_nil]
    constructor
    · rintro rfl
      exact ⟨rfl, rfl, rfl⟩
    · rintro ⟨hname, hintfs, hrib⟩
      exact NamedNode.ext hname.symm hintfs.symm hrib.symm
  | cons i is ih =>
    rw [List.foldlM_cons, bind_eq_ok]
    have hroutes : ∀ tbl, ((i :: is).filterMap NamedIntf.connectedRoute).foldl
        RoutingTable.insert tbl = (is.filterMap NamedIntf.connectedRoute).foldl
          RoutingTable.insert (i.connectedRoute.toList.foldl RoutingTable.insert tbl) := by
      intro tbl
      cases hi : i.connectedRoute <;> simp [hi]
    constructor
    · rintro ⟨n₁, h₁, h⟩
      obtain ⟨hname₁, hintfs₁, hrib₁⟩ := addInterface_eq_ok.mp h₁
      obtain ⟨hname, hintfs, hrib⟩ := ih.mp h
      exact ⟨hname.trans hname₁, by rw [hintfs, hintfs₁, List.append_assoc]; rfl,
        by rw [hrib, hrib₁, hroutes]⟩
    · rintro ⟨hname, hintfs, hrib⟩
      -- the names and addresses of the first interfaces are distinct as those of all are
      have hsub : (n.intfs ++ [i]).Sublist n'.intfs := by
        rw [hintfs]
        exact (List.singleton_sublist.mpr (List.mem_cons_self ..)).append_left _
      let n₁ : NamedNode := {
        name := n.name
        intfs := n.intfs ++ [i]
        rib := i.connectedRoute.toList.foldl RoutingTable.insert n.rib
        rib_ranked := by
          cases i.connectedRoute with
          | none => exact n.rib_ranked
          | some r => exact RoutingTable.Ranked.insert n.rib_ranked r
        names_nodup := n'.names_nodup.sublist (hsub.map _)
        addrs_nodup := n'.addrs_nodup.sublist (hsub.filterMap _) }
      refine ⟨n₁, addInterface_eq_ok.mpr ⟨rfl, rfl, rfl⟩, ih.mpr ⟨hname, ?_, ?_⟩⟩
      · rw [hintfs, List.append_assoc]
        rfl
      · rw [hrib, hroutes]

theorem RouteTbl.denotes_iff {unset : IPv4Address} {cfg : RouteTbl} {r : Route} :
    parseRoute unset cfg = .ok r ↔ cfg.Denotes unset r := by
  simp only [parseRoute, bind_eq_ok, require_eq_ok, reject_eq_ok, pure_eq_ok]
  have hrange : (¬(cfg.admDist ≠ none ∧ (cfg.admDist.getD 255 < 1 ∨ cfg.admDist.getD 255 > 254))) ↔
      ∀ d ∈ cfg.admDist, 1 ≤ d ∧ d ≤ 254 := by
    cases cfg.admDist with
    | none => simp
    | some d => simp only [ne_eq, reduceCtorEq, not_false_eq_true, Option.getD_some, true_and,
        Option.mem_def, Option.some.injEq, forall_eq']; omega
  rw [hrange]
  constructor
  · rintro ⟨s, hs, _, hgiven, network, hnetwork, o, hnext, _, hadm, rfl⟩
    exact ⟨⟨s, hs, hnetwork⟩, by tauto, ⟨o, mapM_option_eq_ok.mp hnext, rfl⟩, rfl, rfl, hadm⟩
  · rintro ⟨⟨s, hs, hnetwork⟩, hgiven, ⟨o, hnext, ho⟩, hegress, hadm, hrange⟩
    refine ⟨s, hs, (), by tauto, _, hnetwork, o, mapM_option_eq_ok.mpr hnext, (), hrange, ?_⟩
    rw [← ho, ← hegress, ← hadm]

theorem RouteTbl.denotesStatic_iff {unset : IPv4Address} {cfg : RouteTbl} {r : Route} :
    parseStaticRoute unset cfg = .ok r ↔ cfg.DenotesStatic unset r := by
  simp only [parseStaticRoute, bind_eq_ok, pure_eq_ok, RouteTbl.denotes_iff, DenotesStatic]

theorem NamedNode.foldl_insertRoute (routes : List Route) (n : NamedNode) :
    (routes.foldl insertRoute n).name = n.name ∧ (routes.foldl insertRoute n).intfs = n.intfs ∧
      (routes.foldl insertRoute n).rib = routes.foldl RoutingTable.insert n.rib := by
  induction routes generalizing n with
  | nil => exact ⟨rfl, rfl, rfl⟩
  | cons r routes ih => exact ih (n.insertRoute r)

theorem NamedNode.foldlM_addRoute {routes : List Route} {n n' : NamedNode} :
    routes.foldlM addRoute n = .ok n' ↔ n'.name = n.name ∧ n'.intfs = n.intfs ∧
      n'.rib = routes.foldl RoutingTable.insert n.rib := by
  rw [show routes.foldlM addRoute n = .ok (routes.foldl insertRoute n) from List.foldlM_pure,
    Except.ok.injEq]
  obtain ⟨hname, hintfs, hrib⟩ := n.foldl_insertRoute routes
  constructor
  · rintro rfl
    exact ⟨hname, hintfs, hrib⟩
  · rintro ⟨hname', hintfs', hrib'⟩
    exact NamedNode.ext (hname.trans hname'.symm) (hintfs.trans hintfs'.symm)
      (hrib.trans hrib'.symm)

theorem NodeTbl.denotesNode_iff {unset : IPv4Address} {cfg : NodeTbl} {n : NamedNode} :
    parseNode unset cfg = .ok n ↔ cfg.DenotesNode unset n := by
  simp only [parseNode, bind_eq_ok, require_eq_ok, foldlM_read_eq_ok, InterfaceTbl.denotes_iff,
    RouteTbl.denotes_iff, RouteTbl.denotesStatic_iff, NamedNode.foldlM_addInterface,
    NamedNode.foldlM_addRoute]
  constructor
  · rintro ⟨name, hname, n₁, ⟨is, his, hname₁, hintfs₁, hrib₁⟩, n₂,
      ⟨static, hstatic, hname₂, hintfs₂, hrib₂⟩, installed, hinstalled, hname₃, hintfs₃, hrib₃⟩
    obtain rfl : n.intfs = is := by rw [hintfs₃, hintfs₂, hintfs₁]; rfl
    refine ⟨by rw [hname, hname₃, hname₂, hname₁]; rfl, his, static, installed, hstatic,
      hinstalled, ?_⟩
    rw [hrib₃, hrib₂, hrib₁, RoutingTable.ofRoutes, List.foldl_append, List.foldl_append]
    rfl
  · rintro ⟨hname, hintfs, static, installed, hstatic, hinstalled, hrib⟩
    rw [RoutingTable.ofRoutes, List.foldl_append, List.foldl_append] at hrib
    -- the node with its interfaces and the connected routes only, and with the static ones
    let n₀ : NamedNode := { n with rib := [], rib_ranked := Route.weakSorted_nil }
    obtain ⟨hname₁, hintfs₁, hrib₁⟩ :=
      n₀.foldl_insertRoute (n.intfs.filterMap NamedIntf.connectedRoute)
    generalize (n.intfs.filterMap NamedIntf.connectedRoute).foldl NamedNode.insertRoute n₀ = n₁
      at hname₁ hintfs₁ hrib₁
    obtain ⟨hname₂, hintfs₂, hrib₂⟩ := n₁.foldl_insertRoute static
    exact ⟨n.name, hname, n₁, ⟨n.intfs, hintfs, hname₁, hintfs₁, hrib₁⟩, _,
      ⟨static, hstatic, hname₂, hintfs₂, hrib₂⟩, installed, hinstalled,
      (hname₂.trans hname₁).symm, (hintfs₂.trans hintfs₁).symm, by rw [hrib, hrib₂, hrib₁]⟩

theorem NodeTbl.denotes_iff {H : DockerHost} {unset : IPv4Address} {cfg : NodeTbl}
    {d : NodeDecl} : parseNodeDecl H unset cfg = .ok d ↔ cfg.Denotes H unset d := by
  have htype : ∀ {o : Option Text} {s : Text}, o.getD s = s ↔ o = none ∨ o = some s := by
    intro o s
    cases o <;> simp
  rw [parseNodeDecl]
  dsimp only
  constructor
  · intro h
    split at h
    · rename_i hmodel
      obtain ⟨n, hn, h⟩ := bind_eq_ok.mp h
      obtain rfl := pure_eq_ok.mp h
      exact .model (htype.mp hmodel) rfl (denotesNode_iff.mp hn)
    split at h
    · rename_i hemulation
      simp only [bind_eq_ok, reject_eq_ok, pure_eq_ok, not_not] at h
      obtain ⟨-, hdriver, n, hn, dn, hdn, rfl⟩ := h
      refine .emulation dn ?_ (htype.mp hdriver) rfl hdn (denotesNode_iff.mp hn)
      cases htbl : cfg.type with
      | none =>
        rw [htbl] at hemulation
        exact absurd hemulation (by decide)
      | some type => exact congrArg some (by simpa [htbl] using hemulation)
    · cases h
  · rintro (⟨hmodel, hdocker, hn⟩ | ⟨dn, hemulation, hdriver, hdocker, hdn, hn⟩)
    · rw [if_pos (htype.mpr hmodel)]
      refine bind_eq_ok.mpr ⟨_, denotesNode_iff.mpr hn, pure_eq_ok.mpr ?_⟩
      rw [← hdocker]
    · rw [hemulation, Option.getD_some, if_neg (by decide), if_pos rfl]
      simp only [bind_eq_ok, reject_eq_ok, pure_eq_ok, not_not]
      refine ⟨(), htype.mpr hdriver, _, denotesNode_iff.mpr hn, dn, hdn, ?_⟩
      rw [← hdocker]

/-! ### The nodes of a network -/

theorem Nodes.addNode_eq_ok {ns ns' : Nodes} {d : NodeDecl} :
    ns.addNode d = .ok ns' ↔ ns'.decls = ns.decls ++ [d] := by
  rw [addNode]
  split
  · rename_i hmem
    refine iff_of_false (fun h => by cases h) fun h => ?_
    have hnames := ns'.names_nodup
    rw [h, List.map_append, List.nodup_append] at hnames
    exact hnames.2.2 _ hmem d.name (by simp) rfl
  · rw [Except.ok.injEq]
    obtain ⟨decls, hdecls⟩ := ns'
    rw [Nodes.mk.injEq]
    exact eq_comm

theorem Nodes.foldlM_addNode {ds : List NodeDecl} {ns ns' : Nodes} :
    ds.foldlM addNode ns = .ok ns' ↔ ns'.decls = ns.decls ++ ds := by
  induction ds generalizing ns with
  | nil =>
    rw [List.foldlM_nil, pure_eq_ok, List.append_nil]
    obtain ⟨decls, hdecls⟩ := ns'
    obtain ⟨decls', hdecls'⟩ := ns
    rw [Nodes.mk.injEq]
    exact eq_comm
  | cons d ds ih =>
    rw [List.foldlM_cons, bind_eq_ok]
    constructor
    · rintro ⟨ns₁, h₁, h⟩
      rw [ih.mp h, addNode_eq_ok.mp h₁, List.append_assoc]
      rfl
    · intro h
      have hsub : (ns.decls ++ [d]).Sublist ns'.decls := by
        rw [h]
        exact (List.singleton_sublist.mpr (List.mem_cons_self ..)).append_left _
      refine ⟨⟨ns.decls ++ [d], ns'.names_nodup.sublist (hsub.map _)⟩, addNode_eq_ok.mpr rfl,
        ih.mpr (h.trans ?_)⟩
      rw [List.append_assoc]
      rfl

theorem Nodes.find_eq_ok {ns : Nodes} {name : Text} {d : NodeDecl} :
    ns.find name = .ok d ↔ d ∈ ns.decls ∧ d.name = name := by
  rw [find, ← find?_key ns.names_nodup]
  cases ns.decls.find? fun d => d.name = name <;> simp

theorem NamedNode.getInterface_eq_ok {n : NamedNode} {name : Text} {i : NamedIntf} :
    n.getInterface name = .ok i ↔ i ∈ n.intfs ∧ i.name = name := by
  rw [getInterface, ← find?_key n.names_nodup]
  cases n.intfs.find? fun i => i.name = name <;> simp

/-! ### Links -/

theorem LinkTbl.joins_iff {M : Layout} {ns : Nodes} {cfg : LinkTbl} {l : NamedLink} :
    parseLink M ns cfg = .ok l ↔ ∃ d₁ i₁ d₂ i₂, cfg.Joins ns d₁ i₁ d₂ i₂ ∧
      (NamedLink.between M d₁ i₁ d₂ i₂).normalize = l := by
  simp only [parseLink, bind_eq_ok, require_eq_ok, reject_eq_ok, pure_eq_ok, Nodes.find_eq_ok,
    NamedNode.getInterface_eq_ok]
  constructor
  · rintro ⟨_, h₁, _, h₂, _, h₃, _, h₄, d₁, ⟨hd₁, rfl⟩, d₂, ⟨hd₂, rfl⟩, i₁, ⟨hi₁, rfl⟩, i₂,
      ⟨hi₂, rfl⟩, _, hne, hl⟩
    exact ⟨d₁, i₁, d₂, i₂, ⟨⟨h₁, hd₁⟩, ⟨h₂, hi₁⟩, ⟨h₃, hd₂⟩, ⟨h₄, hi₂⟩,
      fun heq => hne (congrArg M.node heq)⟩, hl⟩
  · rintro ⟨d₁, i₁, d₂, i₂, ⟨⟨h₁, hd₁⟩, ⟨h₂, hi₁⟩, ⟨h₃, hd₂⟩, ⟨h₄, hi₂⟩, hne⟩, hl⟩
    exact ⟨_, h₁, _, h₂, _, h₃, _, h₄, d₁, ⟨hd₁, rfl⟩, d₂, ⟨hd₂, rfl⟩, i₁, ⟨hi₁, rfl⟩, i₂,
      ⟨hi₂, rfl⟩, (), fun heq => hne (M.node_injective heq), hl⟩

theorem addLink_eq_ok {st st' : Topology × List Topology.Link} {l : NamedLink} :
    addLink st l = .ok st' ↔ st.1.addLink st.2 l.toLink = some st' := by
  have hpeer : ∀ {t t' : Topology} {n i name peer}, addPeer t n i name peer = .ok t' ↔
      t.addPeer n i peer = some t' := by
    intro t t' n i name peer
    rw [addPeer]
    cases t.addPeer n i peer <;> simp
  rw [addLink, Topology.addLink]
  split
  · rw [Except.ok.injEq, Option.some.injEq]
  · simp only [bind_eq_ok, pure_eq_ok, hpeer, Option.bind_eq_bind, Option.bind_eq_some_iff,
      Option.pure_def, Option.some.injEq]

theorem foldlM_addLink {ls : List NamedLink} {st st' : Topology × List Topology.Link} :
    ls.foldlM addLink st = .ok st' ↔
      (ls.map NamedLink.toLink).foldlM (fun st l => st.1.addLink st.2 l) st = some st' := by
  induction ls generalizing st with
  | nil =>
    rw [List.foldlM_nil, pure_eq_ok]
    exact Option.some_inj.symm
  | cons l ls ih =>
    rw [List.foldlM_cons, List.map_cons, List.foldlM_cons, bind_eq_ok, Option.bind_eq_bind,
      Option.bind_eq_some_iff]
    simp only [ih, addLink_eq_ok]

end ConfigParser

end Neo
