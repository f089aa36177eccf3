import Neo.Network.Network
import Mathlib.Logic.Function.Basic
import Mathlib.Tactic.Common

/-! Packet histories. Packets and node histories are stored once for each content, so that
equal ones have equal addresses; a node history is then the list of its packets, the last one
first, and the null pointer is the empty history. -/

namespace Neo

/-- The address of a stored packet. -/
abbrev PacketPtr := Nat

/-- A `NodePacketHistory *`: `p :: h` has `last_pkt` `p` and `past_hist` `h`. -/
abbrev NodePacketHistory := List PacketPtr

namespace NodePacketHistory

def getPackets (h : NodePacketHistory) : List PacketPtr := h.reverse

def getPacketsSince : NodePacketHistory → NodePacketHistory → List PacketPtr
  | [], _ => []
  | p :: h, start => if p :: h = start then [] else getPacketsSince h start ++ [p]

def contains : NodePacketHistory → NodePacketHistory → Bool
  | [], other => decide (other = [])
  | p :: h, other => if p :: h = other then true else contains h other

/-- The loop of `NodePacketHistoryComp` over both packet lists, and the sizes behind it. -/
def packetsLt : List PacketPtr → List PacketPtr → Bool
  | p :: a, q :: b => if p ≠ q then p < q else packetsLt a b
  | a, b => a.length < b.length

/-- `NodePacketHistoryComp`: null first, then by the packets from the first one on. -/
def lt (a b : NodePacketHistory) : Bool :=
  if a = b then false
  else if a = [] then true
  else if b = [] then false
  else packetsLt (getPackets a) (getPackets b)

theorem contains_iff {other h : NodePacketHistory} : contains h other = true ↔ other <:+ h := by
  induction h with
  | nil => simp [contains]
  | cons p h ih =>
    simp only [contains]
    rw [List.suffix_cons_iff, ← ih]
    split_ifs with he
    · simp [he]
    · simp [Ne.symm he]

theorem getPackets_append_since {start h : NodePacketHistory} (hs : start <:+ h) :
    getPackets start ++ getPacketsSince h start = getPackets h := by
  induction h with
  | nil => simp [List.suffix_nil.mp hs, getPackets, getPacketsSince]
  | cons p h ih =>
    simp only [getPacketsSince]
    split_ifs with he
    · simp [he]
    · have hs' := (List.suffix_cons_iff.mp hs).resolve_left fun h => he h.symm
      rw [← List.append_assoc, ih hs']
      simp [getPackets]

theorem getPacketsSince_of_not_contains {start h : NodePacketHistory} (hs : ¬ start <:+ h) :
    getPacketsSince h start = getPackets h := by
  induction h with
  | nil => rfl
  | cons p h ih =>
    rw [List.suffix_cons_iff, not_or] at hs
    simp only [getPacketsSince, if_neg (Ne.symm hs.1), ih hs.2]
    simp [getPackets]

end NodePacketHistory

/-- A `PacketHistory`: its table has an entry for each emulated node. -/
structure PacketHistory where
  tbl : NodePtr → NodePacketHistory

namespace PacketHistory

def init : PacketHistory := ⟨fun _ => []⟩

def setNodePktHist (h : PacketHistory) (node : NodePtr) (nph : NodePacketHistory) :
    PacketHistory :=
  ⟨Function.update h.tbl node nph⟩

def getNodePktHist (h : PacketHistory) (node : NodePtr) : NodePacketHistory := h.tbl node

end PacketHistory

end Neo
