import Neo.ConfigParser.Expressions
import Neo.ConfigParser.Tables
import Neo.Lib.Fallible
import Neo.Network.RouteSelection
import Neo.Packet

/-! Nodes as they are parsed: interfaces with distinct names and addresses, a table with connected,
static and installed routes, and what middleboxes have besides. -/

namespace Neo

namespace ConfigParser

/-! ### Interfaces -/

/-- An `Interface`; a switchport has no address. -/
structure NamedIntf where
  name : Text
  ipv4 : Option IPInterface
deriving DecidableEq

def parseInterface (cfg : InterfaceTbl) : Except Text NamedIntf := do
  let name ← require "Missing interface name" cfg.name
  return ⟨name, ← cfg.ipv4.mapM IPInterface.parse⟩

namespace NamedIntf

def addr (i : NamedIntf) : Option IPv4Address := i.ipv4.map IPInterface.addr

def connectedRoute (i : NamedIntf) : Option Route :=
  i.ipv4.map fun ip => ⟨ip.network, ip.addr, .ofText i.name, 0⟩

end NamedIntf

/-- A `Node` before it has peers, with its interfaces in the order they were added. -/
structure NamedNode where
  name : Text
  intfs : List NamedIntf
  rib : RoutingTable
  rib_ranked : Ordered.WeakSorted Route.lt rib
  names_nodup : (intfs.map NamedIntf.name).Nodup
  addrs_nodup : (intfs.filterMap NamedIntf.addr).Nodup

namespace NamedNode

/-- `rib.insert`. -/
def insertRoute (n : NamedNode) (r : Route) : NamedNode :=
  { n with rib := n.rib.insert r, rib_ranked := RoutingTable.Ranked.insert n.rib_ranked r }

/-- `insertRoute` where a route is parsed. -/
def addRoute (n : NamedNode) (r : Route) : Except Text NamedNode := .ok (n.insertRoute r)

def init (name : Text) : NamedNode where
  name := name
  intfs := []
  rib := []
  rib_ranked := Route.weakSorted_nil
  names_nodup := List.nodup_nil
  addrs_nodup := List.nodup_nil

def withIntf (n : NamedNode) (i : NamedIntf) (hname : i.name ∉ n.intfs.map NamedIntf.name)
    (haddr : ∀ a, i.addr = some a → a ∉ n.intfs.filterMap NamedIntf.addr) : NamedNode :=
  { n with
    intfs := n.intfs ++ [i]
    names_nodup := Fallible.nodup_map_append n.names_nodup hname
    addrs_nodup := Fallible.nodup_filterMap_append n.addrs_nodup haddr }

theorem fresh_of_none {n : NamedNode} {i : NamedIntf} (h : i.ipv4 = none) (a : IPv4Address)
    (ha : i.addr = some a) : a ∉ n.intfs.filterMap NamedIntf.addr := by
  simp [NamedIntf.addr, h] at ha

theorem fresh_of_some {n : NamedNode} {i : NamedIntf} {ip : IPInterface} (h : i.ipv4 = some ip)
    (hip : ip.addr ∉ n.intfs.filterMap NamedIntf.addr) (a : IPv4Address) (ha : i.addr = some a) :
    a ∉ n.intfs.filterMap NamedIntf.addr := by
  have haddr : ip.addr = a := by simpa [NamedIntf.addr, h] using ha
  exact haddr ▸ hip

/-- `add_interface`, which adds a directly connected route with an address. -/
def addInterface (n : NamedNode) (i : NamedIntf) : Except Text NamedNode :=
  if hname : i.name ∈ n.intfs.map NamedIntf.name then
    .error ("Duplicate interface name: ".toList ++ i.name)
  else
    match hipv4 : i.ipv4 with
    | none => .ok (n.withIntf i hname (fresh_of_none hipv4))
    | some ip =>
      if hip : ip.addr ∈ n.intfs.filterMap NamedIntf.addr then
        .error ("Duplicate interface IP: ".toList ++ ip.addr.toChars)
      -- an interface with an address has a directly connected route
      else .ok ((n.withIntf i hname (fresh_of_some hipv4 hip)).insertRoute
        ⟨ip.network, ip.addr, .ofText i.name, 0⟩)

/-- `get_interface` by name. -/
def getInterface (n : NamedNode) (intfName : Text) : Except Text NamedIntf :=
  match n.intfs.find? fun i => i.name = intfName with
  | some i => .ok i
  | none => .error (n.name ++ " doesn't have interface ".toList ++ intfName)

end NamedNode

/-! ### Routes -/

/-- The distance of a route is 255 where none is given. A next hop that is not given is never
initialized; `unset` is what happens to be there. -/
def parseRoute (unset : IPv4Address) (cfg : RouteTbl) : Except Text Route := do
  let network ← require "Missing network" cfg.network
  reject (cfg.nextHop = none ∧ cfg.interface = none)
    "Missing next hop IP address and interface".toList
  let network ← IPNetwork.parse network
  let nextHop ← cfg.nextHop.mapM IPv4Address.parse
  let admDist := cfg.admDist.getD 255
  reject (cfg.admDist ≠ none ∧ (admDist < 1 ∨ admDist > 254))
    ("Invalid administrative distance: ".toList ++ admDist.repr.toList)
  return {
    network := network
    nextHop := nextHop.getD unset
    egressIntf := .ofText (cfg.interface.getD [])
    admDist := admDist }

def asStatic (r : Route) : Route := if r.admDist = 255 then { r with admDist := 1 } else r

def parseStaticRoute (unset : IPv4Address) (cfg : RouteTbl) : Except Text Route := do
  return asStatic (← parseRoute unset cfg)

def parseNode (unset : IPv4Address) (cfg : NodeTbl) : Except Text NamedNode := do
  let name ← require "Missing node name" cfg.name
  let node ← (cfg.interfaces.getD []).foldlM (fun node cfg =>
    parseInterface cfg >>= node.addInterface) (NamedNode.init name)
  let node ← (cfg.staticRoutes.getD []).foldlM (fun node cfg =>
    parseStaticRoute unset cfg >>= node.addRoute) node
  (cfg.installedRoutes.getD []).foldlM (fun node cfg =>
    parseRoute unset cfg >>= node.addRoute) node

/-! ### Middleboxes -/

structure MiddleboxCfg where
  startDelay : BitVec 32
  resetDelay : BitVec 32
  replayDelay : BitVec 32
  packetsPerInjection : BitVec 32
deriving DecidableEq

def parseCount (key : String) (bad : Int → Bool) (default : BitVec 32) :
    Option Int → Except Text (BitVec 32)
  | some n =>
    if bad n then .error ("Invalid ".toList ++ key.toList ++ ": ".toList ++ n.repr.toList)
    else .ok (BitVec.ofInt 32 n)
  | none => .ok default

def parseMiddlebox (cfg : NodeTbl) : Except Text MiddleboxCfg := do
  return {
    startDelay := ← parseCount "start_delay" (· < 0) 0 cfg.startDelay
    resetDelay := ← parseCount "reset_delay" (· < 0) 0 cfg.resetDelay
    replayDelay := ← parseCount "replay_delay" (· < 0) 0 cfg.replayDelay
    packetsPerInjection :=
      ← parseCount "packets_per_injection" (· ≤ 0) 1 cfg.packetsPerInjection }

/-! ### Docker nodes -/

structure DockerVolumeMount where
  mountPath : Text
  hostPath : Text
  driver : Text
  readOnly : Bool
deriving DecidableEq

/-- What a `DockerNode` is configured with. The port of an exposed port is an `int`. -/
structure ContainerCfg where
  daemon : Text
  image : Text
  workingDir : Text
  dpdk : Bool
  cmd : List Text
  ports : List (Proto × BitVec 32)
  envVars : List (Text × Text)
  mounts : List DockerVolumeMount
  sysctls : List (Text × Text)
deriving DecidableEq

/-- The command of an image; `none` where it is no array. -/
structure ImageCfg where
  entrypoint : Option (List Text)
  cmd : Option (List Text)

/-- The Docker daemons: images that are pulled, and the files in a container that is started. -/
structure DockerHost where
  pull : Text → Text → Except Text ImageCfg
  start : ContainerCfg → Except Text (Text → Option Text)

/-- `emplace` in a map: what is there stays. -/
def emplace (m : List (Text × Text)) (key value : Text) : List (Text × Text) :=
  if key ∈ m.map Prod.fst then m else m ++ [(key, value)]

def onlyStrings (l : Option (List (Option Text))) : Except Text (List Text) :=
  (l.getD []).mapM (require "Only strings are allowed")

def parsePort (cfg : PortTbl) : Except Text (Proto × BitVec 32) := do
  let port ← require "Missing port" cfg.port
  reject (port < 1) ("Invalid port: ".toList ++ port.repr.toList)
  let protocol ← require "Missing protocol" cfg.protocol
  if protocol = "tcp".toList then return (.tcp, BitVec.ofInt 32 port)
  else if protocol = "udp".toList then return (.udp, BitVec.ofInt 32 port)
  else throw ("Unsupported protocol: ".toList ++ protocol)

def parseEnv (m : List (Text × Text)) (cfg : EnvTbl) : Except Text (List (Text × Text)) := do
  let name ← require "Missing name" cfg.name
  let value ← require "Missing value" cfg.value
  return emplace m name value

def parseMount (cfg : MountTbl) : Except Text DockerVolumeMount := do
  let mountPath ← require "Missing mount_path" cfg.mountPath
  let hostPath ← require "Missing host_path" cfg.hostPath
  let driver := cfg.driver.getD "local".toList
  reject (driver ≠ "local".toList) ("Unsupported volumn_mounts driver: ".toList ++ driver)
  return ⟨mountPath, hostPath, driver, cfg.readOnly.getD false⟩

def parseSysctl (m : List (Text × Text)) (cfg : SysctlTbl) : Except Text (List (Text × Text)) := do
  let key ← require "Missing key" cfg.key
  let value ← require "Missing value" cfg.value
  return emplace m key value

def tagged (image : Text) : Text := if ':' ∈ image then image else image ++ ":latest".toList

def parseContainer (daemon : Option Text) (cfg : ContainerTbl) : Except Text ContainerCfg := do
  let image ← require "Missing container image" cfg.image
  let workingDir ← require "Missing container working_dir" cfg.workingDir
  let command ← onlyStrings cfg.command
  let args ← onlyStrings cfg.args
  let ports ← (cfg.ports.getD []).mapM parsePort
  let envVars ← (cfg.env.getD []).foldlM parseEnv []
  let mounts ← (cfg.volumeMounts.getD []).mapM parseMount
  let sysctls ← (cfg.sysctls.getD []).foldlM parseSysctl []
  return {
    daemon := daemon.getD "/var/run/docker.sock".toList
    image := tagged image
    workingDir := workingDir
    dpdk := cfg.dpdk.getD false
    cmd := command ++ args
    ports := ports
    envVars := envVars
    mounts := mounts
    sysctls := sysctls }

def withImage (c : ContainerCfg) (img : ImageCfg) : ContainerCfg :=
  if c.cmd = [] then
    { c with cmd := (img.entrypoint.getD [] ++ img.cmd.getD []).filter (· ≠ []) }
  else c

/-- `parse_config_string`, which goes through a text in finitely many rounds. -/
def mine (ecs : MinedEcs) (config : Text) : Except Text MinedEcs :=
  (parseConfigString (config.length + 1) ecs config).getD (.ok ecs)

def mineFiles (files : Text → Option Text) (names : List (Option Text)) (ecs : MinedEcs) :
    Except Text MinedEcs :=
  names.foldlM (fun ecs name => do
    let filename ← require "Only strings are allowed" name
    match files filename with
    | some config => mine ecs config
    | none => throw ("Failed to open ".toList ++ filename)) ecs

def mineContainer (H : DockerHost) (c : ContainerCfg) (configFiles : Option (List (Option Text))) :
    Except Text MinedEcs := do
  let ecs ← match configFiles with
    | some names => do mineFiles (← H.start c) names ⟨∅, ∅, ∅⟩
    | none => pure ⟨∅, ∅, ∅⟩
  let ecs ← c.cmd.tail.foldlM mine ecs
  let ecs := c.ports.foldl (fun ecs port =>
    { ecs with ecPorts := insert (port.2.setWidth 16) ecs.ecPorts }) ecs
  (c.envVars.map Prod.snd).foldlM mine ecs

/-- A `DockerNode` without what it shares with other nodes. -/
structure DockerNode where
  middlebox : MiddleboxCfg
  container : ContainerCfg
  ecs : MinedEcs

/-- What `parse_dockernode` does besides parsing a node. -/
def parseDockernode (H : DockerHost) (cfg : NodeTbl) : Except Text DockerNode := do
  let middlebox ← parseMiddlebox cfg
  let cntrCfg ← require "Missing container configuration" cfg.container
  let container ← parseContainer cfg.daemon cntrCfg
  let container := withImage container (← H.pull container.daemon container.image)
  return ⟨middlebox, container, ← mineContainer H container cntrCfg.configFiles⟩

/-! ### Nodes of a type -/

structure NodeDecl extends NamedNode where
  docker : Option DockerNode

def parseNodeDecl (H : DockerHost) (unset : IPv4Address) (cfg : NodeTbl) : Except Text NodeDecl :=
  let type := cfg.type.getD "model".toList
  if type = "model".toList then do
    return ⟨← parseNode unset cfg, none⟩
  else if type = "emulation".toList then do
    let driver := cfg.driver.getD "docker".toList
    reject (driver ≠ "docker".toList) ("Unknown driver: ".toList ++ driver)
    let node ← parseNode unset cfg
    return ⟨node, some (← parseDockernode H cfg)⟩
  else .error ("Unknown node type: ".toList ++ type)

end ConfigParser

end Neo
