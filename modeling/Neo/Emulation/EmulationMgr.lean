import Neo.PktHist
import Neo.Lib.Ordered

/-! Emulations and their pool. What an emulation has done since it was last launched or reset is
the list of packets handed to its driver, before the masking of sequence numbers and ports. The
pool is indexed by middlebox and, for each, by packet history. -/

namespace Neo

/-- An `Emulation *`. -/
abbrev EmuPtr := Nat

structure Emulation where
  /-- The emulated middlebox; none before the first `init`. -/
  mb : Option NodePtr
  nph : NodePacketHistory
  /-- The packets given to the driver since it was last launched or reset. -/
  received : List PacketPtr

namespace Emulation

def init (mb : NodePtr) : Emulation := ⟨some mb, [], []⟩

def sendPkt (e : Emulation) (pkt : PacketPtr) : Emulation :=
  { e with received := e.received ++ [pkt] }

/-- `rewind`; the number of injections is none where the emulation is up to date. -/
def rewind (e : Emulation) (nph : NodePacketHistory) : Option Nat × Emulation :=
  if e.nph = nph then (none, e)
  else
    let reset : Emulation :=
      if nph = [] ∨ ¬ nph.contains e.nph then { e with received := [] } else e
    if nph = [] then (some 0, reset)
    else
      let pkts := nph.getPacketsSince e.nph
      (some pkts.length, pkts.foldl sendPkt reset)

end Emulation

/-- The emulations of one middlebox, in the order of `NodePacketHistoryComp`. -/
abbrev NphMap := List (NodePacketHistory × List EmuPtr)

namespace NphMap

/-- `map[nph].insert(emu)`. -/
def insertEmu (nph : NodePacketHistory) (emu : EmuPtr) : NphMap → NphMap
  | [] => [(nph, [emu])]
  | x :: m =>
    if NodePacketHistory.lt x.1 nph then x :: insertEmu nph emu m
    else if NodePacketHistory.lt nph x.1 then (nph, [emu]) :: x :: m
    else (x.1, List.insert emu x.2) :: m

/-- `map[nph].erase(emu)` and the removal of the entry once it is empty; `none` where the
assertion that one emulation was erased fails. -/
def eraseEmu (nph : NodePacketHistory) (emu : EmuPtr) : NphMap → Option NphMap
  | [] => none
  | x :: m =>
    if NodePacketHistory.lt x.1 nph || NodePacketHistory.lt nph x.1 then
      (eraseEmu nph emu m).map (x :: ·)
    else if emu ∈ x.2 then
      some (if x.2.erase emu = [] then m else (x.1, x.2.erase emu) :: m)
    else none

/-- The backward scan of `get_emulation` over the entries before the lower bound, nearest first:
it stops at the first entry of the map or at one that `nph` contains. -/
def scanBack (nph : NodePacketHistory) : NphMap → Option (NodePacketHistory × List EmuPtr)
  | [] => none
  | [x] => some x
  | x :: m => if nph.contains x.1 then some x else scanBack nph m

end NphMap

structure EmulationMgr where
  maxEmu : Nat
  emus : List EmuPtr
  /-- The `Emulation` object at an address. -/
  emulation : EmuPtr → Emulation
  mbEmuMap : NodePtr → NphMap

/-- What `get_emulation` does not determine: the address of a new object, the element an
unordered set begins with, and the emulation, if any, that is found in front of the first entry
of a map, where the iterator must not go. -/
structure EmuEnv where
  newEmu : EmuPtr
  begin : EmuPtr
  outside : Option EmuPtr

namespace EmulationMgr

def empty (maxEmu : Nat) : EmulationMgr := ⟨maxEmu, [], fun _ => ⟨none, [], []⟩, fun _ => []⟩

def setEmulation (m : EmulationMgr) (emu : EmuPtr) (e : Emulation) : EmulationMgr :=
  { m with emulation := Function.update m.emulation emu e }

/-- `emu->init(mb)` and the insertion of the emulation under the empty history. -/
def launch (m : EmulationMgr) (emu : EmuPtr) (mb : NodePtr) : EmulationMgr where
  maxEmu := m.maxEmu
  emus := m.emus
  emulation := Function.update m.emulation emu (Emulation.init mb)
  mbEmuMap := Function.update m.mbEmuMap mb (NphMap.insertEmu [] emu (m.mbEmuMap mb))

/-- `get_emulation`; `none` where an assertion fails or the environment is impossible. -/
def getEmulation (m : EmulationMgr) (env : EmuEnv) (mb : NodePtr) (nph : NodePacketHistory) :
    Option (EmuPtr × EmulationMgr) :=
  if m.mbEmuMap mb = [] then
    if m.emus.length < m.maxEmu then
      -- room for another emulation
      if env.newEmu ∈ m.emus then none
      else
        let m := { m with emus := env.newEmu :: m.emus }
        some (env.newEmu, m.launch env.newEmu mb)
    else if env.begin ∈ m.emus then do
      -- otherwise the first one of all is taken from its middlebox
      let emu := env.begin
      let oldMb ← (m.emulation emu).mb
      let oldMap ← NphMap.eraseEmu (m.emulation emu).nph emu (m.mbEmuMap oldMb)
      let m := { m with mbEmuMap := Function.update m.mbEmuMap oldMb oldMap }
      some (emu, m.launch emu mb)
    else none
  else do
    -- an emulation with the same history, or else backwards to one with a part of it
    let before := (m.mbEmuMap mb).takeWhile fun x => NodePacketHistory.lt x.1 nph
    let from' := (m.mbEmuMap mb).dropWhile fun x => NodePacketHistory.lt x.1 nph
    match from'.head?.filter fun x => !NodePacketHistory.lt nph x.1 with
    | some x => return (← x.2.head?, m)
    | none =>
      match NphMap.scanBack nph before.reverse with
      | some x => return (← x.2.head?, m)
      | none => return (← env.outside, m)

/-- `update_node_pkt_hist`; `none` where the assertion fails. -/
def updateNodePktHist (m : EmulationMgr) (emu : EmuPtr) (nph : NodePacketHistory) :
    Option EmulationMgr := do
  let e := m.emulation emu
  let mb ← e.mb
  let map ← NphMap.eraseEmu e.nph emu (m.mbEmuMap mb)
  return { m with
    mbEmuMap := Function.update m.mbEmuMap mb (NphMap.insertEmu nph emu map)
    emulation := Function.update m.emulation emu { e with nph := nph } }

end EmulationMgr

end Neo
