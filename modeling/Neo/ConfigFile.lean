import Mathlib.Data.List.Forall2
import Mathlib.Tactic.Common

/-! Configurations that are built, written to a file and read back in Python. An object is turned
into a dictionary by giving out its own, in which lists of objects are replaced and empty ones are
deleted. In a file an entry that is `None` is absent. -/

namespace Neo.ConfigFile

/-! ### Objects -/

structure Interface where
  name : String
  ipv4 : Option String
deriving DecidableEq

structure Route where
  network : String
  nextHop : String
  admDist : Option Int
deriving DecidableEq

structure Link where
  node1 : String
  intf1 : String
  node2 : String
  intf2 : String
deriving DecidableEq

structure Port where
  port : Int
  protocol : String
deriving DecidableEq

structure EnvVar where
  name : String
  value : String
deriving DecidableEq

structure VolumeMount where
  mountPath : String
  hostPath : String
  driver : Option String
  readOnly : Option Bool
deriving DecidableEq

structure Sysctl where
  key : String
  value : String
deriving DecidableEq

inductive PyError
  | attributeError
  | keyError
deriving DecidableEq

/-- An element of an attribute's list: an object, or the dictionary that an object has given out. -/
inductive Elem (α : Type)
  | object (a : α)
  | dict (a : α)
deriving DecidableEq

/-- The attribute `container`. A key may be absent (`none`) or be `None` (`some none`). -/
structure Container where
  image : String
  workingDir : String
  dpdk : Option Bool
  command : Option (Option (List String))
  args : Option (Option (List String))
  configFiles : Option (Option (List String))
  ports : Option (List Port)
  env : Option (List EnvVar)
  volumeMounts : Option (List VolumeMount)
  sysctls : Option (List Sysctl)
deriving DecidableEq

/-- What a `DockerNode` has besides the attributes of a `Node`. -/
structure Docker where
  startDelay : Option Int
  resetDelay : Option Int
  replayDelay : Option Int
  packetsPerInjection : Option Int
  daemon : Option String
  container : Container
deriving DecidableEq

inductive Kind
  | model (type : Option String)
  | docker (d : Docker)
deriving DecidableEq

/-- A node; `none` is an attribute that was deleted. -/
structure Node where
  name : String
  kind : Kind
  interfaces : Option (List (Elem Interface))
  staticRoutes : Option (List (Elem Route))
  installedRoutes : Option (List (Elem Route))
deriving DecidableEq

/-- The constructor of `Node` with a type, and of `DockerNode`. -/
def Node.init (name : String) (kind : Kind) : Node := ⟨name, kind, some [], some [], some []⟩

def append {α : Type} (attr : Option (List (Elem α))) (a : α) :
    Except PyError (Option (List (Elem α))) :=
  match attr with
  | none => .error .attributeError
  | some l => .ok (some (l ++ [.object a]))

def Node.addInterface (n : Node) (intf : Interface) : Except PyError Node := do
  return { n with interfaces := ← append n.interfaces intf }

def Node.addStaticRoute (n : Node) (route : Route) : Except PyError Node := do
  return { n with staticRoutes := ← append n.staticRoutes route }

def Node.addInstalledRoute (n : Node) (route : Route) : Except PyError Node := do
  return { n with installedRoutes := ← append n.installedRoutes route }

structure Config where
  nodes : List Node
  links : List Link
deriving DecidableEq

/-! ### Writing -/

structure ContainerCfg where
  image : String
  workingDir : String
  dpdk : Option Bool
  command : Option (List String)
  args : Option (List String)
  configFiles : Option (List String)
  ports : Option (List Port)
  env : Option (List EnvVar)
  volumeMounts : Option (List VolumeMount)
  sysctls : Option (List Sysctl)
deriving DecidableEq

structure NodeCfg where
  name : String
  type : Option String
  startDelay : Option Int
  resetDelay : Option Int
  replayDelay : Option Int
  packetsPerInjection : Option Int
  daemon : Option String
  container : Option ContainerCfg
  interfaces : Option (List Interface)
  staticRoutes : Option (List Route)
  installedRoutes : Option (List Route)
deriving DecidableEq

structure ConfigCfg where
  nodes : Option (List NodeCfg)
  links : Option (List Link)
deriving DecidableEq

/-- `to_dict` of an element. A dictionary has no such method. -/
def Elem.toDict {α : Type} : Elem α → Except PyError α
  | .object a => .ok a
  | .dict _ => .error .attributeError

/-- An empty list is not written. -/
def filled {α : Type} : List α → Option (List α)
  | [] => none
  | a :: l => some (a :: l)

def toDicts {α : Type} : Option (List (Elem α)) → Except PyError (Option (List α))
  | none => .error .attributeError
  | some l => do return filled (← l.mapM Elem.toDict)

/-- `if not container[key]: container.pop(key)` -/
def popIfFalsy {α : Type} : Option (List α) → Except PyError (Option (List α))
  | none => .error .keyError
  | some l => .ok (filled l)

/-- The same where the value may be `None`. -/
def popIfNone {α : Type} : Option (Option (List α)) → Except PyError (Option (List α))
  | none => .error .keyError
  | some none => .ok none
  | some (some l) => popIfFalsy (some l)

/-- What `DockerNode.to_dict` does to the container. -/
def Container.toDict (c : Container) : Except PyError ContainerCfg := do
  return {
    image := c.image
    workingDir := c.workingDir
    dpdk := c.dpdk
    command := ← popIfNone c.command
    args := ← popIfNone c.args
    configFiles := ← popIfNone c.configFiles
    ports := ← popIfFalsy c.ports
    env := ← popIfFalsy c.env
    volumeMounts := ← popIfFalsy c.volumeMounts
    sysctls := ← popIfFalsy c.sysctls }

def ContainerCfg.object (c : ContainerCfg) : Container where
  image := c.image
  workingDir := c.workingDir
  dpdk := c.dpdk
  command := c.command.map some
  args := c.args.map some
  configFiles := c.configFiles.map some
  ports := c.ports
  env := c.env
  volumeMounts := c.volumeMounts
  sysctls := c.sysctls

/-- `to_dict`: the table that is written, and the node whose dictionary it is. -/
def Node.toDict (n : Node) : Except PyError (NodeCfg × Node) := do
  let interfaces ← toDicts n.interfaces
  let staticRoutes ← toDicts n.staticRoutes
  let installedRoutes ← toDicts n.installedRoutes
  -- the lists of the node itself are replaced as well
  let after : Node := {
    n with
    interfaces := interfaces.map (List.map .dict)
    staticRoutes := staticRoutes.map (List.map .dict)
    installedRoutes := installedRoutes.map (List.map .dict) }
  match n.kind with
  | .model type =>
    return ({
      name := n.name
      type := type
      startDelay := none
      resetDelay := none
      replayDelay := none
      packetsPerInjection := none
      daemon := none
      container := none
      interfaces := interfaces
      staticRoutes := staticRoutes
      installedRoutes := installedRoutes }, after)
  | .docker d =>
    let container ← d.container.toDict
    return ({
      name := n.name
      type := some "emulation"
      startDelay := d.startDelay
      resetDelay := d.resetDelay
      replayDelay := d.replayDelay
      packetsPerInjection := d.packetsPerInjection
      daemon := d.daemon
      container := some container
      interfaces := interfaces
      staticRoutes := staticRoutes
      installedRoutes := installedRoutes },
      { after with kind := .docker { d with container := container.object } })

/-- `output_toml`: what is in the file, and the configuration that is left. -/
def outputToml (c : Config) : Except PyError (ConfigCfg × Config) := do
  let nodes ← c.nodes.mapM Node.toDict
  return ({
    nodes := filled (nodes.map Prod.fst)
    links := filled c.links },
    { c with nodes := nodes.map Prod.snd })

/-! ### Reading -/

/-- `{**node.container, **ctnr_cfg}` for a new container. -/
def ContainerCfg.merge (c : ContainerCfg) : Container where
  image := c.image
  workingDir := c.workingDir
  dpdk := c.dpdk
  command := some c.command
  args := some c.args
  configFiles := some c.configFiles
  ports := some (c.ports.getD [])
  env := some (c.env.getD [])
  volumeMounts := some (c.volumeMounts.getD [])
  sysctls := some (c.sysctls.getD [])

def NodeCfg.kind (cfg : NodeCfg) : Except PyError Kind :=
  if cfg.type = some "emulation" then
    match cfg.container with
    | none => .error .keyError
    | some container => .ok (.docker {
        startDelay := cfg.startDelay
        resetDelay := cfg.resetDelay
        replayDelay := cfg.replayDelay
        packetsPerInjection := cfg.packetsPerInjection
        daemon := cfg.daemon
        container := container.merge })
  else .ok (.model cfg.type)

def NodeCfg.read (cfg : NodeCfg) : Except PyError Node := do
  let node := Node.init cfg.name (← cfg.kind)
  let node ← (cfg.interfaces.getD []).foldlM Node.addInterface node
  let node ← (cfg.staticRoutes.getD []).foldlM Node.addStaticRoute node
  (cfg.installedRoutes.getD []).foldlM Node.addStaticRoute node

/-- `deserialize_toml` of a file. -/
def deserializeToml (cfg : ConfigCfg) : Except PyError Config := do
  return { nodes := ← (cfg.nodes.getD []).mapM NodeCfg.read, links := cfg.links.getD [] }

/-! ### Configurations that are built -/

/-- The container of the constructor of `DockerNode`. -/
def Container.init (image workingDir : String) (dpdk : Option Bool)
    (command args configFiles : Option (List String)) : Container where
  image := image
  workingDir := workingDir
  dpdk := dpdk
  command := some command
  args := some args
  configFiles := some configFiles
  ports := some []
  env := some []
  volumeMounts := some []
  sysctls := some []

inductive Container.Built : Container → Prop
  | init (image workingDir : String) (dpdk : Option Bool)
    (command args configFiles : Option (List String)) :
    Built (.init image workingDir dpdk command args configFiles)
  | addPort {c : Container} {l : List Port} (p : Port) :
    Built c → c.ports = some l → Built { c with ports := some (l ++ [p]) }
  | addEnvVar {c : Container} {l : List EnvVar} (v : EnvVar) :
    Built c → c.env = some l → Built { c with env := some (l ++ [v]) }
  | addVolume {c : Container} {l : List VolumeMount} (v : VolumeMount) :
    Built c → c.volumeMounts = some l → Built { c with volumeMounts := some (l ++ [v]) }
  | addSysctl {c : Container} {l : List Sysctl} (v : Sysctl) :
    Built c → c.sysctls = some l → Built { c with sysctls := some (l ++ [v]) }

def Kind.Built : Kind → Prop
  | .model _ => True
  | .docker d => d.container.Built

inductive Node.Built : Node → Prop
  | init (name : String) {kind : Kind} : kind.Built → Built (.init name kind)
  | addInterface {n n' : Node} {intf : Interface} :
    Built n → n.addInterface intf = .ok n' → Built n'
  | addStaticRoute {n n' : Node} {route : Route} :
    Built n → n.addStaticRoute route = .ok n' → Built n'
  | addInstalledRoute {n n' : Node} {route : Route} :
    Built n → n.addInstalledRoute route = .ok n' → Built n'

def Config.Built (c : Config) : Prop := ∀ n ∈ c.nodes, n.Built

def ReadsBack (c : Config) : Prop :=
  ∃ cfg c', outputToml c = .ok (cfg, c') ∧ deserializeToml cfg = .ok c

/-- What is read is what was written, and what was written is unchanged and can be written again
with the same result. -/
def RoundTrips (c : Config) : Prop :=
  ∃ cfg c', outputToml c = .ok (cfg, c') ∧ deserializeToml cfg = .ok c ∧ c' = c ∧
    ∃ c'', outputToml c' = .ok (cfg, c'')

/-- No list that may be `None` is empty. -/
def Container.Survives (c : Container) : Prop :=
  c.command ≠ some (some []) ∧ c.args ≠ some (some []) ∧ c.configFiles ≠ some (some [])

def Kind.Survives : Kind → Prop
  | .model type => type ≠ some "emulation"
  | .docker d => d.container.Survives

def Node.Survives (n : Node) : Prop := n.installedRoutes = some [] ∧ n.kind.Survives

/-! ### Nodes in a file -/

structure Container.Fresh (c : Container) (command args configFiles : Option (List String))
    (ports : List Port) (env : List EnvVar) (volumeMounts : List VolumeMount)
    (sysctls : List Sysctl) : Prop where
  command : c.command = some command
  args : c.args = some args
  configFiles : c.configFiles = some configFiles
  ports : c.ports = some ports
  env : c.env = some env
  volumeMounts : c.volumeMounts = some volumeMounts
  sysctls : c.sysctls = some sysctls

theorem Container.Built.fresh {c : Container} (h : c.Built) :
    ∃ command args configFiles ports env volumeMounts sysctls,
      c.Fresh command args configFiles ports env volumeMounts sysctls := by
  induction h with
  | init image workingDir dpdk command args configFiles =>
    exact ⟨command, args, configFiles, [], [], [], [], rfl, rfl, rfl, rfl, rfl, rfl, rfl⟩
  | addPort p _ hl ih =>
    obtain ⟨command, args, configFiles, ports, env, volumes, sysctls, h⟩ := ih
    exact ⟨_, _, _, _, _, _, _, { h with ports := rfl }⟩
  | addEnvVar v _ hl ih =>
    obtain ⟨command, args, configFiles, ports, env, volumes, sysctls, h⟩ := ih
    exact ⟨_, _, _, _, _, _, _, { h with env := rfl }⟩
  | addVolume v _ hl ih =>
    obtain ⟨command, args, configFiles, ports, env, volumes, sysctls, h⟩ := ih
    exact ⟨_, _, _, _, _, _, _, { h with volumeMounts := rfl }⟩
  | addSysctl v _ hl ih =>
    obtain ⟨command, args, configFiles, ports, env, volumes, sysctls, h⟩ := ih
    exact ⟨_, _, _, _, _, _, _, { h with sysctls := rfl }⟩

def Node.fresh (name : String) (kind : Kind) (intfs : List Interface)
    (statics installed : List Route) : Node where
  name := name
  kind := kind
  interfaces := some (intfs.map .object)
  staticRoutes := some (statics.map .object)
  installedRoutes := some (installed.map .object)

theorem Node.Built.exists_fresh {n : Node} (h : n.Built) :
    ∃ name kind intfs statics installed, kind.Built ∧
      n = .fresh name kind intfs statics installed := by
  induction h with
  | init name hkind => exact ⟨name, _, [], [], [], hkind, rfl⟩
  | @addInterface n n' intf _ hadd ih =>
    obtain ⟨name, kind, intfs, statics, installed, hkind, rfl⟩ := ih
    obtain rfl := Except.ok.inj hadd
    exact ⟨name, kind, intfs ++ [intf], statics, installed, hkind, by simp [Node.fresh]⟩
  | @addStaticRoute n n' route _ hadd ih =>
    obtain ⟨name, kind, intfs, statics, installed, hkind, rfl⟩ := ih
    obtain rfl := Except.ok.inj hadd
    exact ⟨name, kind, intfs, statics ++ [route], installed, hkind, by simp [Node.fresh]⟩
  | @addInstalledRoute n n' route _ hadd ih =>
    obtain ⟨name, kind, intfs, statics, installed, hkind, rfl⟩ := ih
    obtain rfl := Except.ok.inj hadd
    exact ⟨name, kind, intfs, statics, installed ++ [route], hkind, by simp [Node.fresh]⟩

@[simp] theorem getD_filled {α : Type} (l : List α) : (filled l).getD [] = l := by
  cases l <;> rfl

theorem toDicts_object {α : Type} (l : List α) :
    toDicts (some (l.map .object)) = .ok (filled l) := by
  have hmap : (l.map Elem.object).mapM Elem.toDict = .ok l := by
    induction l with
    | nil => rfl
    | cons a l ih =>
      rw [List.map_cons, List.mapM_cons, ih]
      rfl
  rw [toDicts, hmap]
  rfl

theorem toDicts_dict {α : Type} (l : List α) :
    toDicts ((filled l).map (List.map Elem.dict)) = .error .attributeError := by
  cases l with
  | nil => rfl
  | cons a l =>
    show (do return filled (← ((a :: l).map Elem.dict).mapM Elem.toDict)) = _
    rw [List.map_cons, List.mapM_cons]
    rfl

theorem foldlM_addInterface (l : List Interface) {n : Node} {l₀ : List (Elem Interface)}
    (h : n.interfaces = some l₀) : l.foldlM Node.addInterface n =
      .ok { n with interfaces := some (l₀ ++ l.map .object) } := by
  induction l generalizing n l₀ with
  | nil => simp [← h, pure, Except.pure]
  | cons a l ih =>
    rw [List.foldlM_cons, Node.addInterface, h]
    refine (ih rfl).trans ?_
    simp

theorem foldlM_addStaticRoute (l : List Route) {n : Node} {l₀ : List (Elem Route)}
    (h : n.staticRoutes = some l₀) : l.foldlM Node.addStaticRoute n =
      .ok { n with staticRoutes := some (l₀ ++ l.map .object) } := by
  induction l generalizing n l₀ with
  | nil => simp [← h, pure, Except.pure]
  | cons a l ih =>
    rw [List.foldlM_cons, Node.addStaticRoute, h]
    refine (ih rfl).trans ?_
    simp

theorem bind_filled_eq_self {α : Type} {o : Option (List α)} :
    o.bind filled = o ↔ o ≠ some [] := by
  cases o with
  | none => simp
  | some l => cases l <;> simp [filled]

theorem Container.Built.merge {c : Container} (h : c.Built) :
    ∃ cfg, c.toDict = .ok cfg ∧ (cfg.merge = c ↔ c.Survives) := by
  obtain ⟨command, args, configFiles, ports, env, volumes, sysctls, h⟩ := h.fresh
  have hnone : ∀ {α : Type} (o : Option (List α)), popIfNone (some o) = .ok (o.bind filled) := by
    intro α o
    cases o <;> rfl
  obtain ⟨image, workingDir, dpdk, _, _, _, _, _, _, _⟩ := c
  obtain ⟨rfl, rfl, rfl, rfl, rfl, rfl, rfl⟩ := h
  refine ⟨⟨image, workingDir, dpdk, command.bind filled, args.bind filled, configFiles.bind filled,
    filled ports, filled env, filled volumes, filled sysctls⟩, ?_, ?_⟩
  · rw [Container.toDict, hnone, hnone, hnone]
    rfl
  · simp only [ContainerCfg.merge, getD_filled, Container.mk.injEq, Option.some.injEq, true_and,
      and_true, bind_filled_eq_self, Container.Survives, ne_eq]

section

variable {name : String} {kind : Kind} {intfs : List Interface} {statics installed : List Route}

theorem NodeCfg.read_eq {cfg : NodeCfg} (hkind : cfg.kind = .ok kind)
    (hintfs : cfg.interfaces = filled intfs) (hstatics : cfg.staticRoutes = filled statics)
    (hinstalled : cfg.installedRoutes = filled installed) :
    cfg.read = .ok (.fresh cfg.name kind intfs (statics ++ installed) []) := by
  rw [NodeCfg.read, hkind, hintfs, hstatics, hinstalled, getD_filled, getD_filled, getD_filled]
  show ((intfs.foldlM Node.addInterface (Node.init cfg.name kind)).bind fun n =>
    (statics.foldlM Node.addStaticRoute n).bind (installed.foldlM Node.addStaticRoute)) = _
  rw [foldlM_addInterface intfs rfl]
  show ((statics.foldlM Node.addStaticRoute _).bind _) = _
  rw [foldlM_addStaticRoute statics rfl]
  show installed.foldlM Node.addStaticRoute _ = _
  rw [foldlM_addStaticRoute installed rfl]
  simp [Node.fresh, Node.init]

theorem fresh_eq_fresh {kind' : Kind} :
    Node.fresh name kind' intfs (statics ++ installed) [] =
      .fresh name kind intfs statics installed ↔ installed = [] ∧ kind' = kind := by
  constructor
  · intro h
    have hlen := congrArg List.length (Option.some.inj (congrArg Node.installedRoutes h))
    rw [List.length_map, List.length_map] at hlen
    exact ⟨List.length_eq_zero_iff.mp hlen.symm, congrArg Node.kind h⟩
  · rintro ⟨rfl, rfl⟩
    rw [List.append_nil]

theorem survives_fresh :
    (Node.fresh name kind intfs statics installed).Survives ↔ installed = [] ∧ kind.Survives := by
  simp [Node.Survives, Node.fresh]

def Node.spent (name : String) (kind : Kind) (intfs : List Interface)
    (statics installed : List Route) : Node where
  name := name
  kind := kind
  interfaces := (filled intfs).map (List.map .dict)
  staticRoutes := (filled statics).map (List.map .dict)
  installedRoutes := (filled installed).map (List.map .dict)

theorem toDict_spent :
    (Node.spent name kind intfs statics installed).toDict = .error .attributeError := by
  rw [Node.toDict, Node.spent, toDicts_dict]
  rfl

theorem toDict_model (type : Option String) :
    (Node.fresh name (.model type) intfs statics installed).toDict =
      .ok (⟨name, type, none, none, none, none, none, none, filled intfs, filled statics,
        filled installed⟩, .spent name (.model type) intfs statics installed) := by
  rw [Node.toDict, Node.fresh, toDicts_object, toDicts_object, toDicts_object]
  rfl

theorem toDict_docker {d : Docker} {cfg : ContainerCfg} (h : d.container.toDict = .ok cfg) :
    (Node.fresh name (.docker d) intfs statics installed).toDict =
      .ok (⟨name, some "emulation", d.startDelay, d.resetDelay, d.replayDelay,
        d.packetsPerInjection, d.daemon, some cfg, filled intfs, filled statics, filled installed⟩,
        .spent name (.docker { d with container := cfg.object }) intfs statics installed) := by
  rw [Node.toDict, Node.fresh, toDicts_object, toDicts_object, toDicts_object]
  show (d.container.toDict >>= _) = _
  rw [h]
  rfl

theorem Node.Built.file {n : Node} (h : n.Built) :
    ∃ cfg n', n.toDict = .ok (cfg, n') ∧ (cfg.read = .ok n ↔ n.Survives) ∧
      n'.toDict = .error .attributeError := by
  obtain ⟨name, kind, intfs, statics, installed, hkind, rfl⟩ := h.exists_fresh
  rw [survives_fresh]
  cases kind with
  | model type =>
    refine ⟨_, _, toDict_model type, ?_, toDict_spent⟩
    by_cases htype : type = some "emulation"
    · refine iff_of_false ?_ fun h => h.2 htype
      rw [NodeCfg.read, NodeCfg.kind, if_pos htype]
      intro h
      cases h
    · have hkind : NodeCfg.kind ⟨name, type, none, none, none, none, none, none, filled intfs,
          filled statics, filled installed⟩ = .ok (.model type) := if_neg htype
      rw [NodeCfg.read_eq hkind rfl rfl rfl, Except.ok.injEq, fresh_eq_fresh]
      exact and_congr_right fun _ => iff_of_true rfl htype
  | docker d =>
    obtain ⟨cfg, hcfg, hmerge⟩ := Container.Built.merge hkind
    refine ⟨_, _, toDict_docker hcfg, ?_, toDict_spent⟩
    have hkind : NodeCfg.kind ⟨name, some "emulation", d.startDelay, d.resetDelay, d.replayDelay,
        d.packetsPerInjection, d.daemon, some cfg, filled intfs, filled statics,
        filled installed⟩ = .ok (.docker { d with container := cfg.merge }) := if_pos rfl
    rw [NodeCfg.read_eq hkind rfl rfl rfl, Except.ok.injEq, fresh_eq_fresh]
    refine and_congr_right fun _ => ?_
    rw [Kind.docker.injEq]
    refine Iff.trans ⟨fun h => congrArg Docker.container h, fun h => ?_⟩ hmerge
    rw [show cfg.merge = d.container from h]

end

/-! ### Configurations in a file -/

theorem mapM_eq_ok_iff {α β : Type} {f : α → Except PyError β} {l : List α} {l' : List β} :
    l.mapM f = .ok l' ↔ List.Forall₂ (fun a b => f a = .ok b) l l' := by
  induction l generalizing l' with
  | nil =>
    rw [List.forall₂_nil_left_iff]
    exact ⟨fun h => (Except.ok.inj h).symm, fun h => h ▸ rfl⟩
  | cons a l ih =>
    rw [List.mapM_cons]
    cases ha : f a with
    | error e =>
      refine iff_of_false (fun h => by cases h) fun h => ?_
      cases h with
      | cons hb _ => exact absurd (ha.symm.trans hb) (by simp)
    | ok b =>
      cases hl : l.mapM f with
      | error e =>
        refine iff_of_false (fun h => by cases h) fun h => ?_
        cases h with
        | cons _ hl' => exact absurd (hl.symm.trans (ih.mpr hl')) (by simp)
      | ok bs =>
        have hbs := ih.mp hl
        constructor
        · intro h
          obtain rfl := Except.ok.inj h
          exact .cons ha hbs
        · intro h
          cases h with
          | cons hb hl' =>
            obtain rfl := Except.ok.inj (ha.symm.trans hb)
            obtain rfl := Except.ok.inj (hl.symm.trans (ih.mpr hl'))
            rfl

theorem exists_tables {nodes : List Node} (h : ∀ n ∈ nodes, n.Built) :
    ∃ l : List (NodeCfg × Node), nodes.mapM Node.toDict = .ok l ∧
      ((l.map Prod.fst).mapM NodeCfg.read = .ok nodes ↔ ∀ n ∈ nodes, n.Survives) ∧
      ∀ p ∈ l, p.2.toDict = .error .attributeError := by
  simp only [mapM_eq_ok_iff]
  induction nodes with
  | nil => exact ⟨[], .nil, by simp, by simp⟩
  | cons n nodes ih =>
    rw [List.forall_mem_cons] at h
    obtain ⟨cfg, n', hdict, hread, hagain⟩ := h.1.file
    obtain ⟨l, hl, hreads, hagains⟩ := ih h.2
    refine ⟨(cfg, n') :: l, .cons hdict hl, ?_, List.forall_mem_cons.mpr ⟨hagain, hagains⟩⟩
    rw [List.map_cons, List.forall₂_cons, hread, hreads, List.forall_mem_cons]

variable {c : Config} {l : List (NodeCfg × Node)}

theorem outputToml_eq (hl : c.nodes.mapM Node.toDict = .ok l) :
    outputToml c = .ok (⟨filled (l.map Prod.fst), filled c.links⟩,
      { c with nodes := l.map Prod.snd }) := by
  rw [outputToml, hl]
  rfl

theorem deserializeToml_eq_ok : deserializeToml ⟨filled (l.map Prod.fst), filled c.links⟩ = .ok c ↔
    (l.map Prod.fst).mapM NodeCfg.read = .ok c.nodes := by
  rw [deserializeToml, getD_filled, getD_filled]
  cases (l.map Prod.fst).mapM NodeCfg.read with
  | error e => exact iff_of_false (fun h => by cases h) (fun h => by cases h)
  | ok nodes =>
    show Except.ok (⟨nodes, c.links⟩ : Config) = .ok c ↔ _
    rw [Except.ok.injEq, Except.ok.injEq]
    exact ⟨fun h => congrArg Config.nodes h, fun h => by rw [h]⟩

theorem readsBack_iff (h : c.Built) : ReadsBack c ↔ ∀ n ∈ c.nodes, n.Survives := by
  obtain ⟨l, hl, hread, -⟩ := exists_tables h
  rw [← hread, ← deserializeToml_eq_ok]
  refine ⟨?_, fun h => ⟨_, _, outputToml_eq hl, h⟩⟩
  rintro ⟨cfg, c', hcfg, h⟩
  obtain ⟨rfl, -⟩ := Prod.mk.inj (Except.ok.inj ((outputToml_eq hl).symm.trans hcfg))
  exact h

theorem outputToml_again (h : c.Built) (hne : c.nodes ≠ []) :
    ∃ cfg c', outputToml c = .ok (cfg, c') ∧ outputToml c' = .error .attributeError := by
  obtain ⟨l, hl, -, hagain⟩ := exists_tables h
  refine ⟨_, _, outputToml_eq hl, ?_⟩
  cases l with
  | nil => exact absurd (List.forall₂_nil_right_iff.mp (mapM_eq_ok_iff.mp hl)) hne
  | cons p l =>
    -- the first node has no objects to give out
    rw [outputToml, List.map_cons, List.mapM_cons, hagain p (List.mem_cons_self ..)]
    rfl

theorem roundTrips_iff_nil (h : c.Built) : RoundTrips c ↔ c.nodes = [] := by
  constructor
  · rintro ⟨cfg, c', hcfg, -, -, c'', hsecond⟩
    by_contra hne
    obtain ⟨cfg', c₁, hcfg', herror⟩ := outputToml_again h hne
    obtain ⟨rfl, rfl⟩ := Prod.mk.inj (Except.ok.inj (hcfg.symm.trans hcfg'))
    exact absurd (hsecond.symm.trans herror) (by simp)
  · intro hnil
    have hl : c.nodes.mapM Node.toDict = .ok [] := by
      rw [hnil]
      rfl
    have hout : outputToml c = .ok (⟨none, filled c.links⟩, c) := by
      rw [outputToml_eq hl, List.map_nil, List.map_nil, ← hnil]
      rfl
    refine ⟨_, _, hout, ?_, rfl, _, hout⟩
    have hread : (([] : List (NodeCfg × Node)).map Prod.fst).mapM NodeCfg.read = .ok c.nodes := by
      rw [hnil]
      rfl
    exact deserializeToml_eq_ok.mpr hread

/-- What of a configuration is read back, and that one with a node cannot be written again. -/
theorem writtenAgain_iff (c : Config) (h : c.Built) :
    (ReadsBack c ↔ ∀ n ∈ c.nodes, n.Survives) ∧ (RoundTrips c ↔ c.nodes = []) :=
  ⟨readsBack_iff h, roundTrips_iff_nil h⟩

theorem built_model (name : String) (type : Option String) :
    (Node.init name (.model type)).Built :=
  .init name trivial

/-- A router with an interface without an address and a Docker node with a command. -/
def lan : Config where
  nodes := [
    { Node.init "r0" (.model (some "model")) with interfaces := some [.object ⟨"eth0", none⟩] },
    .init "fw" (.docker ⟨none, none, none, none, none,
      .init "kyechou/iptables:latest" "/" none (some ["/start.sh"]) none none⟩)]
  links := [⟨"r0", "eth0", "fw", "eth0"⟩]

theorem built_lan : lan.Built :=
  List.forall_mem_cons.mpr ⟨.addInterface (built_model ..) rfl,
    List.forall_mem_singleton.mpr (.init "fw" (Container.Built.init ..))⟩

theorem writtenAgain_lan : lan.Built ∧ (ReadsBack lan ↔ ∀ n ∈ lan.nodes, n.Survives) ∧
    (RoundTrips lan ↔ lan.nodes = []) :=
  ⟨built_lan, writtenAgain_iff lan built_lan⟩

def routed : Config where
  nodes := [
    { Node.init "r0" (.model (some "model")) with
      installedRoutes := some [.object ⟨"10.0.0.0/8", "10.0.0.1", none⟩] }]
  links := []

theorem not_writtenAgain : routed.Built ∧ ¬ReadsBack routed ∧ ¬RoundTrips routed := by
  have hbuilt : routed.Built :=
    List.forall_mem_singleton.mpr (.addInstalledRoute (built_model ..) rfl)
  refine ⟨hbuilt, fun h => ?_, fun h => ?_⟩
  · exact absurd ((readsBack_iff hbuilt).mp h _ (List.mem_cons_self ..)).1 (by decide)
  · exact absurd ((roundTrips_iff_nil hbuilt).mp h) (by decide)

end Neo.ConfigFile
