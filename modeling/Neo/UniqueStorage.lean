import Neo.Emulation.Rewind
import Neo.Lib.Unordered
import Neo.Model

/-! The values that the state points to are stored once. Of all but two types equal ones have equal
hashes; the hashes of reach counts and of packet histories depend on the order in which a hash map
is traversed, and so on how it was built. -/

namespace Neo

open Ordered Unordered

def hashCombine (seed value : BitVec 64) : BitVec 64 :=
  seed ^^^ (value + 0x9e3779b9#64 + (seed <<< 6) + (seed >>> 2))

def hashAll (values : List (BitVec 64)) : BitVec 64 := values.foldl hashCombine 0

/-- The hash functions of the standard library, and `XXH3_64bits` on the words of a memory. -/
structure StdHash where
  node : Option NodePtr → BitVec 64
  intf : Option IntfPtr → BitVec 64
  ec : Option EcPtr → BitVec 64
  pkt : PacketPtr → BitVec 64
  nph : Option NphPtr → BitVec 64
  payload : Option Payload → BitVec 64
  uint16 : BitVec 16 → BitVec 64
  uint32 : BitVec 32 → BitVec 64
  int : Nat → BitVec 64
  bool : Bool → BitVec 64
  xxh3 : List Nat → BitVec 64

def Candidates.data (c : Candidates) : List Nat := c.flatMap FibIpnh.key

def candEq (a b : Candidates) : Bool :=
  if a.length ≠ b.length then false else a.data == b.data

/-- The map of a `FIB`, with its sets of next hops. -/
abbrev FibMap := Keyed fun entry : NodePtr × Keyed FibIpnh.key => [entry.1]

def fibEq (a b : FibMap) : Bool := decide (a.elements = b.elements)

/-- The map of a `Choices`. -/
abbrev ChoiceMap := Keyed fun entry : (Option EcPtr × NodePtr) × FibIpnh =>
  [entry.1.1.elim 0 (· + 1), entry.1.2]

def choicesEq (a b : ChoiceMap) : Bool := decide (a.elements = b.elements)

namespace Packet

/-- `operator==`, which leaves out the auxiliary variables. -/
def eq (a b : Packet) : Bool :=
  a.intf == b.intf && a.srcIp == b.srcIp && a.dstIp == b.dstIp && a.srcPort == b.srcPort &&
    a.dstPort == b.dstPort && a.seq == b.seq && a.ack == b.ack && a.protoState == b.protoState &&
      a.payload == b.payload

def main (p : Packet) : Packet :=
  { p with conn := 0, isNew := false, oppositeDir := false, nextPhase := false }

theorem eq_iff {a b : Packet} : eq a b = true ↔ a.main = b.main := by
  simp [eq, main, and_assoc]

end Packet

/-- A `NodePacketHistory` as it is stored. -/
structure NphFields where
  lastPkt : PacketPtr
  pastHist : Option NphPtr
deriving DecidableEq

def nodePacketHistoryEq (a b : NphFields) : Bool :=
  a.lastPkt == b.lastPkt && a.pastHist == b.pastHist

/-- The table of a `PacketHistory`. -/
abbrev HistoryTable := UnorderedMap NodePtr (Option NphPtr)

namespace HistoryTable

variable (L : Layout NodePtr)

def emplace (tbl : HistoryTable) (node : NodePtr) (nph : Option NphPtr) : HistoryTable :=
  if node ∈ tbl.keys then tbl else tbl.insert L node nph

def ofNetwork (network : Network) : HistoryTable :=
  (network.nodes.filter fun node => (network.node node).isEmulated).foldl
    (fun tbl node => emplace L tbl node none) .empty

def setNodePktHist (tbl : HistoryTable) (node : NodePtr) (nph : Option NphPtr) : HistoryTable :=
  tbl.insert L node nph

end HistoryTable

def ofUpdateStateEq (a b : OpenflowUpdateState) : Bool := a == b

/-- The counts of a `ReachCounts`. -/
abbrev CountTable := UnorderedMap (Option NodePtr) Nat

/-- `increase`. The count of a node that is not in the table yet is zero. -/
def CountTable.increase (L : Layout (Option NodePtr)) (counts : CountTable)
    (node : Option NodePtr) : CountTable :=
  counts.insert L node ((if node ∈ counts.keys then counts.val node else 0) + 1)

def injectionResultEq (a b : InjectionResult) : Bool :=
  a.recvPkts.isEqv b.recvPkts Packet.eq && a.explicitDrop == b.explicitDrop

abbrev InjectionResultPtrs := List Nat

def injectionResultsEq (a b : InjectionResultPtrs) : Bool :=
  if a.length ≠ b.length then false else a == b

/-- A `VisitedHops` with its set of hops. -/
structure HopSet where
  hops : Keyed fun hop : Hop => [hop.1.elim 0 (· + 1), hop.2.1.toNat, hop.2.2]
  lastHop : Option Hop

def visitedHopsEq (a b : HopSet) : Bool :=
  decide (a.hops.elements = b.hops.elements) && decide (a.lastHop = b.lastHop)

namespace StdHash

variable (H : StdHash)

def candHash (c : Candidates) : BitVec 64 := H.xxh3 c.data

def fibIpnhHash (nextHop : FibIpnh) : BitVec 64 :=
  hashAll [H.node nextHop.l3Node, H.intf nextHop.l3Intf, H.node nextHop.l2Node,
    H.intf nextHop.l2Intf]

def fibHash (fib : FibMap) : BitVec 64 :=
  hashAll (fib.elements.flatMap fun entry =>
    H.node entry.1 :: entry.2.elements.map H.fibIpnhHash)

def choicesHash (choices : ChoiceMap) : BitVec 64 :=
  hashAll (choices.elements.flatMap fun entry =>
    [H.ec entry.1.1, H.node entry.1.2, H.fibIpnhHash entry.2])

def packetHash (p : Packet) : BitVec 64 :=
  hashAll [H.intf p.intf, H.uint32 p.srcIp, H.uint32 p.dstIp, H.uint16 p.srcPort,
    H.uint16 p.dstPort, H.uint32 p.seq, H.uint32 p.ack, H.uint16 (BitVec.ofNat 16 p.protoState),
    H.payload p.payload]

def nodePacketHistoryHash (nph : NphFields) : BitVec 64 :=
  hashAll [H.pkt nph.lastPkt, H.nph nph.pastHist]

def packetHistoryHash (tbl : HistoryTable) : BitVec 64 :=
  hashAll (tbl.entries.flatMap fun entry => [H.node entry.1, H.nph entry.2])

def ofUpdateStateHash (updateVector : OpenflowUpdateState) : BitVec 64 := H.xxh3 updateVector

def reachCountsHash (counts : CountTable) : BitVec 64 :=
  hashAll (counts.entries.flatMap fun entry => [H.node entry.1, H.int entry.2])

def injectionResultHash (ir : InjectionResult) : BitVec 64 :=
  hashAll (ir.recvPkts.map H.packetHash ++ [H.bool ir.explicitDrop])

def injectionResultsHash (results : InjectionResultPtrs) : BitVec 64 := H.xxh3 results

def hopHash (hop : Option Hop) : List (BitVec 64) :=
  [H.ec (hop.bind Prod.fst), H.uint16 ((hop.map fun h => h.2.1).getD 0),
    H.node (hop.map fun h => h.2.2)]

def visitedHopsHash (hops : HopSet) : BitVec 64 :=
  hashAll ((hops.hops.elements.flatMap fun hop => H.hopHash (some hop)) ++ H.hopHash hops.lastHop)

end StdHash

namespace UniqueStorage

variable (H : StdHash)

def candidatesStore : HashEq Candidates (BitVec 64) := ⟨H.candHash, candEq⟩

def fibStore : HashEq FibMap (BitVec 64) := ⟨H.fibHash, fibEq⟩

def choicesStore : HashEq ChoiceMap (BitVec 64) := ⟨H.choicesHash, choicesEq⟩

def pktStore : HashEq Packet (BitVec 64) := ⟨H.packetHash, Packet.eq⟩

def nodePktHistStore : HashEq NphFields (BitVec 64) :=
  ⟨H.nodePacketHistoryHash, nodePacketHistoryEq⟩

def pktHistStore : HashEq HistoryTable (BitVec 64) := ⟨H.packetHistoryHash, UnorderedMap.same⟩

def openflowUpdateStateStore : HashEq OpenflowUpdateState (BitVec 64) :=
  ⟨H.ofUpdateStateHash, ofUpdateStateEq⟩

def reachCountsStore : HashEq CountTable (BitVec 64) := ⟨H.reachCountsHash, UnorderedMap.same⟩

def injectionResultStore : HashEq InjectionResult (BitVec 64) :=
  ⟨H.injectionResultHash, injectionResultEq⟩

def injectionResultsStore : HashEq InjectionResultPtrs (BitVec 64) :=
  ⟨H.injectionResultsHash, injectionResultsEq⟩

def visitedHopsStore : HashEq HopSet (BitVec 64) := ⟨H.visitedHopsHash, visitedHopsEq⟩

/-- Values are equal exactly if the pointers that are returned for them are, and equal values have
equal hashes. -/
def Interns {α : Type} (S : HashEq α (BitVec 64)) (B : Buckets (BitVec 64)) (xs : List α) : Prop :=
  S.Canonical B xs ∧ S.Consistent xs

theorem interns_iff {α : Type} {S : HashEq α (BitVec 64)} {B : Buckets (BitVec 64)} {xs : List α}
    (hS : S.IsEquiv) : Interns S B xs ↔ S.Consistent xs :=
  ⟨And.right, fun h => ⟨HashEq.canonical_of_consistent hS h, h⟩⟩

theorem interns_of_key {α γ : Type} {S : HashEq α (BitVec 64)} {B : Buckets (BitVec 64)}
    (key : α → γ) (hash : γ → BitVec 64) (heq : ∀ x y, S.eq x y = true ↔ key x = key y)
    (hhash : ∀ x, S.hash x = hash (key x)) (xs : List α) : Interns S B xs := by
  rw [interns_iff (HashEq.isEquiv_of_key key heq)]
  intro x _ y _ hxy
  rw [hhash, hhash, (heq x y).mp hxy]

variable {H} {B : Buckets (BitVec 64)}

theorem candidatesStore_interns (xs : List Candidates) : Interns (candidatesStore H) B xs := by
  apply interns_of_key (fun c => (c.length, c.data)) (fun key => H.xxh3 key.2)
  · intro a b
    show candEq a b = true ↔ _
    unfold candEq
    split_ifs with hlength
    · simp [hlength]
    · simp [not_not.mp hlength]
  · exact fun _ => rfl

theorem fibStore_interns (xs : List FibMap) : Interns (fibStore H) B xs := by
  apply interns_of_key Keyed.elements (fun entries => hashAll (entries.flatMap fun entry =>
    H.node entry.1 :: entry.2.elements.map H.fibIpnhHash))
  · exact fun _ _ => decide_eq_true_iff
  · exact fun _ => rfl

theorem choicesStore_interns (xs : List ChoiceMap) : Interns (choicesStore H) B xs := by
  apply interns_of_key Keyed.elements (fun entries => hashAll (entries.flatMap fun entry =>
    [H.ec entry.1.1, H.node entry.1.2, H.fibIpnhHash entry.2]))
  · exact fun _ _ => decide_eq_true_iff
  · exact fun _ => rfl

theorem pktStore_interns (xs : List Packet) : Interns (pktStore H) B xs := by
  apply interns_of_key Packet.main H.packetHash
  · exact fun _ _ => Packet.eq_iff
  · exact fun _ => rfl

theorem nodePktHistStore_interns (xs : List NphFields) : Interns (nodePktHistStore H) B xs := by
  apply interns_of_key id H.nodePacketHistoryHash
  · intro a b
    obtain ⟨p, h⟩ := a
    obtain ⟨q, h'⟩ := b
    show nodePacketHistoryEq ⟨p, h⟩ ⟨q, h'⟩ = true ↔ _
    simp [nodePacketHistoryEq]
  · exact fun _ => rfl

theorem openflowUpdateStateStore_interns (xs : List OpenflowUpdateState) :
    Interns (openflowUpdateStateStore H) B xs := by
  apply interns_of_key id H.xxh3
  · exact fun _ _ => beq_iff_eq
  · exact fun _ => rfl

theorem isEqv_iff {a b : List Packet} :
    a.isEqv b Packet.eq = true ↔ a.map Packet.main = b.map Packet.main := by
  induction a generalizing b with
  | nil => cases b <;> simp [List.isEqv]
  | cons p a ih =>
    cases b with
    | nil => simp [List.isEqv]
    | cons q b => simp [List.isEqv, ih, Packet.eq_iff]

theorem injectionResultStore_interns (xs : List InjectionResult) :
    Interns (injectionResultStore H) B xs := by
  apply interns_of_key (fun ir => (ir.recvPkts.map Packet.main, ir.explicitDrop))
    (fun key => hashAll (key.1.map H.packetHash ++ [H.bool key.2]))
  · intro a b
    show injectionResultEq a b = true ↔ _
    unfold injectionResultEq
    rw [Bool.and_eq_true, isEqv_iff, beq_iff_eq, Prod.mk.injEq]
  · intro ir
    rw [List.map_map]
    rfl

theorem injectionResultsStore_interns (xs : List InjectionResultPtrs) :
    Interns (injectionResultsStore H) B xs := by
  apply interns_of_key id H.xxh3
  · intro a b
    show injectionResultsEq a b = true ↔ a = b
    unfold injectionResultsEq
    split_ifs with hlength
    · simp only [false_iff]
      intro hab
      exact hlength (congrArg List.length hab)
    · exact beq_iff_eq
  · exact fun _ => rfl

theorem visitedHopsStore_interns (xs : List HopSet) : Interns (visitedHopsStore H) B xs := by
  apply interns_of_key (fun hops => (hops.hops.elements, hops.lastHop))
    (fun key => hashAll ((key.1.flatMap fun hop => H.hopHash (some hop)) ++ H.hopHash key.2))
  · intro a b
    show visitedHopsEq a b = true ↔ _
    unfold visitedHopsEq
    rw [Bool.and_eq_true, decide_eq_true_iff, decide_eq_true_iff, Prod.mk.injEq]
  · exact fun _ => rfl

theorem reachCountsStore_interns {xs : List CountTable} (h : UnorderedMap.InOneOrder xs) :
    Interns (reachCountsStore H) B xs := by
  rw [interns_iff (UnorderedMap.isEquiv_same rfl)]
  apply UnorderedMap.consistent_of_inOneOrder rfl (fun entries => hashAll (entries.flatMap
    fun entry => [H.node entry.1, H.int entry.2])) _ h
  exact fun _ => rfl

theorem pktHistStore_interns {xs : List HistoryTable} (h : UnorderedMap.InOneOrder xs) :
    Interns (pktHistStore H) B xs := by
  rw [interns_iff (UnorderedMap.isEquiv_same rfl)]
  apply UnorderedMap.consistent_of_inOneOrder rfl (fun entries => hashAll (entries.flatMap
    fun entry => [H.node entry.1, H.nph entry.2])) _ h
  exact fun _ => rfl

end UniqueStorage

namespace HistoryTable

variable {L : Layout NodePtr} {network : Network} {tbl : HistoryTable}

/-- The packet histories that a verification of a network makes: histories of its middleboxes are
set in copies. -/
inductive Made (L : Layout NodePtr) (network : Network) : HistoryTable → Prop
  | init : Made L network (ofNetwork L network)
  | copy {t : HistoryTable} : Made L network t → Made L network (t.copy L)
  | set {t : HistoryTable} {node nph} : Made L network t → node ∈ network.nodes →
      (network.node node).isEmulated = true → Made L network (t.setNodePktHist L node nph)

theorem keys_emplace (L : Layout NodePtr) (tbl : HistoryTable) (node : NodePtr)
    (nph : Option NphPtr) :
    (∀ n ∈ tbl.keys, n ∈ (emplace L tbl node nph).keys) ∧ node ∈ (emplace L tbl node nph).keys := by
  unfold emplace
  split_ifs with hnode
  · exact ⟨fun _ hn => hn, hnode⟩
  · have hkeys : (tbl.insert L node nph).keys = L.place tbl.keys node := if_neg hnode
    rw [hkeys]
    have hperm := L.place_perm tbl.keys node
    exact ⟨fun n hn => hperm.mem_iff.mpr (List.mem_cons_of_mem _ hn),
      hperm.mem_iff.mpr (List.mem_cons_self ..)⟩

theorem mem_keys_ofNetwork {node : NodePtr} (hnode : node ∈ network.nodes)
    (hemu : (network.node node).isEmulated = true) : node ∈ (ofNetwork L network).keys := by
  have hfold : ∀ (nodes : List NodePtr) (tbl : HistoryTable) (n : NodePtr),
      n ∈ nodes ∨ n ∈ tbl.keys →
        n ∈ (nodes.foldl (fun tbl node => emplace L tbl node none) tbl).keys := by
    intro nodes
    induction nodes with
    | nil =>
      intro tbl n hn
      exact hn.resolve_left List.not_mem_nil
    | cons node nodes ih =>
      intro tbl n hn
      obtain ⟨hkept, hnew⟩ := keys_emplace L tbl node none
      apply ih
      rcases hn with hn | hn
      · rcases List.mem_cons.mp hn with rfl | hn
        · exact .inr hnew
        · exact .inl hn
      · exact .inr (hkept n hn)
  exact hfold _ _ _ (.inl (List.mem_filter.mpr ⟨hnode, hemu⟩))

/-- Where a copy is traversed like the original, all packet histories of a network are traversed in
the order in which the constructor leaves them. -/
theorem Made.keys (hcopy : ∀ keys, L.copy keys = keys) (h : Made L network tbl) :
    tbl.keys = (ofNetwork L network).keys := by
  induction h with
  | init => rfl
  | copy _ ih => exact (hcopy _).trans ih
  | @set tbl node nph _ hnode hemu ih =>
    have hmem : node ∈ tbl.keys := by
      rw [ih]
      exact mem_keys_ofNetwork hnode hemu
    exact (if_pos hmem).trans ih

end HistoryTable

namespace UniqueStorage

/-- The values of nine stores are interned, in whatever order maps and sets were built. Reach counts
and packet histories are interned exactly if equal ones have equal hashes, as they have where they
are traversed in one order; and the packet histories of a network are traversed in one order where
copies are traversed like their originals. -/
theorem values_interned (H : StdHash) (B : Buckets (BitVec 64)) :
    ((∀ xs, Interns (candidatesStore H) B xs) ∧ (∀ xs, Interns (fibStore H) B xs) ∧
      (∀ xs, Interns (choicesStore H) B xs) ∧ (∀ xs, Interns (pktStore H) B xs) ∧
      (∀ xs, Interns (nodePktHistStore H) B xs) ∧
      (∀ xs, Interns (openflowUpdateStateStore H) B xs) ∧
      (∀ xs, Interns (injectionResultStore H) B xs) ∧
      (∀ xs, Interns (injectionResultsStore H) B xs) ∧
      ∀ xs, Interns (visitedHopsStore H) B xs) ∧
    ((∀ a b : FibMap, fibEq a b = true ↔ ∀ e, e ∈ a.elements ↔ e ∈ b.elements) ∧
      (∀ a b : ChoiceMap, choicesEq a b = true ↔ ∀ e, e ∈ a.elements ↔ e ∈ b.elements) ∧
      ∀ a b : HopSet, visitedHopsEq a b = true ↔
        (∀ hop, hop ∈ a.hops.elements ↔ hop ∈ b.hops.elements) ∧ a.lastHop = b.lastHop) ∧
    (∀ xs : List CountTable, (UnorderedMap.InOneOrder xs → Interns (reachCountsStore H) B xs) ∧
      (Interns (reachCountsStore H) B xs ↔ (reachCountsStore H).Consistent xs)) ∧
    (∀ xs : List HistoryTable, (UnorderedMap.InOneOrder xs → Interns (pktHistStore H) B xs) ∧
      (Interns (pktHistStore H) B xs ↔ (pktHistStore H).Consistent xs)) ∧
    ∀ (L : Layout NodePtr) (network : Network) (xs : List HistoryTable),
      (∀ keys, L.copy keys = keys) → (∀ tbl ∈ xs, HistoryTable.Made L network tbl) →
        Interns (pktHistStore H) B xs := by
  refine ⟨⟨candidatesStore_interns, fibStore_interns, choicesStore_interns, pktStore_interns,
    nodePktHistStore_interns, openflowUpdateStateStore_interns, injectionResultStore_interns,
    injectionResultsStore_interns, visitedHopsStore_interns⟩, ⟨?_, ?_, ?_⟩, ?_, ?_, ?_⟩
  · intro a b
    exact decide_eq_true_iff.trans Keyed.elements_eq_iff
  · intro a b
    exact decide_eq_true_iff.trans Keyed.elements_eq_iff
  · intro a b
    unfold visitedHopsEq
    rw [Bool.and_eq_true, decide_eq_true_iff, decide_eq_true_iff, Keyed.elements_eq_iff]
  · exact fun xs => ⟨reachCountsStore_interns, interns_iff (UnorderedMap.isEquiv_same rfl)⟩
  · exact fun xs => ⟨pktHistStore_interns, interns_iff (UnorderedMap.isEquiv_same rfl)⟩
  · intro L network xs hcopy hmade
    apply pktHistStore_interns
    intro a ha b hb _
    rw [(hmade a ha).keys hcopy, (hmade b hb).keys hcopy]

def stdHash : StdHash where
  node n := BitVec.ofNat 64 (n.elim 0 (· + 1))
  intf i := BitVec.ofNat 64 (i.elim 0 (· + 1))
  ec e := BitVec.ofNat 64 (e.elim 0 (· + 1))
  pkt p := BitVec.ofNat 64 p
  nph h := BitVec.ofNat 64 (h.elim 0 (· + 1))
  payload pl := BitVec.ofNat 64 (Payload.size pl)
  uint16 x := x.setWidth 64
  uint32 x := x.setWidth 64
  int n := BitVec.ofNat 64 n
  bool b := if b then 1 else 0
  xxh3 words := hashAll (words.map (BitVec.ofNat 64))

def hashBuckets : Buckets (BitVec 64) where
  compared _ h h' := decide (h = h')
  compared_self _ _ := decide_eq_true rfl
  address live := live.foldr max 0 + 1
  address_fresh live h := by
    have hle : ∀ a ∈ live, a ≤ live.foldr max 0 := fun a ha => List.le_max_of_le' 0 ha le_rfl
    exact absurd (hle _ h) (Nat.not_succ_le_self _)

def frontLayout : Layout (Option NodePtr) where
  place keys k := k :: keys
  place_perm _ _ := .refl _
  copy keys := keys
  copy_perm _ := .refl _

def reached (L : Layout (Option NodePtr)) (nodes : List (Option NodePtr)) : CountTable :=
  nodes.foldl (CountTable.increase L) .empty

theorem values_interned_reached : Interns (reachCountsStore stdHash) hashBuckets
    [reached frontLayout [some 1, some 2], reached frontLayout [some 1, some 2]] := by
  apply ((values_interned stdHash hashBuckets).2.2.1 _).1
  have hall : ∀ a ∈ [reached frontLayout [some 1, some 2], reached frontLayout [some 1, some 2]],
      a.keys = [some 2, some 1] := by
    simp [reached, CountTable.increase, UnorderedMap.insert, UnorderedMap.empty, frontLayout]
  intro a ha b hb _
  rw [hall a ha, hall b hb]

/-- Two nodes that were reached in one order and in the other one. -/
theorem not_values_interned : ¬ ∀ (H : StdHash) (B : Buckets (BitVec 64))
    (L : Layout (Option NodePtr)) (runs : List (List (Option NodePtr))),
      Interns (reachCountsStore H) B (runs.map (reached L)) := by
  intro h
  let a := reached frontLayout [some 1, some 2]
  let b := reached frontLayout [some 2, some 1]
  have hcanonical := (h stdHash hashBuckets frontLayout [[some 1, some 2], [some 2, some 1]]).1
  have hcalls := hcanonical (a, ((reachCountsStore stdHash).store hashBuckets [] a).2)
    (List.mem_cons_self ..)
    (b, ((reachCountsStore stdHash).store hashBuckets
      ((reachCountsStore stdHash).store hashBuckets [] a).1 b).2)
    (List.mem_cons_of_mem _ (List.mem_cons_self ..))
  have hsame : (reachCountsStore stdHash).eq a b = true := by
    decide +kernel
  have hpointers : ((reachCountsStore stdHash).store hashBuckets [] a).2 ≠
      ((reachCountsStore stdHash).store hashBuckets
        ((reachCountsStore stdHash).store hashBuckets [] a).1 b).2 := by
    decide +kernel
  exact hpointers (hcalls.mp hsame)

end UniqueStorage

end Neo
