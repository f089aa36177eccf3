import Mathlib.Logic.Equiv.List
import Neo.Lib.SomeLess
import Neo.Net
import Neo.UniqueStorage

/-! The order of packets, by which the packets of an injection result are sorted. Each field is
compared whatever the fields before it say, so two packets may each precede the other. -/

namespace Neo

/-- Where the objects are that pointers refer to; no object is at the null pointer. -/
structure Addresses where
  intf : IntfPtr → Nat
  payload : Payload → Nat
  intf_injective : Function.Injective intf
  payload_injective : Function.Injective payload

inductive PacketField
  | intf
  | srcIp
  | dstIp
  | srcPort
  | dstPort
  | seq
  | ack
  | protoState
  | payload

namespace Addresses

variable (A : Addresses)

def ofIntf (intf : Option IntfPtr) : Nat := intf.elim 0 fun i => A.intf i + 1

def ofPayload (payload : Option Payload) : Nat := payload.elim 0 fun pl => A.payload pl + 1

theorem ofIntf_injective : Function.Injective A.ofIntf := by
  rintro (_ | i) (_ | j) h
  · rfl
  · simp [ofIntf] at h
  · simp [ofIntf] at h
  · exact congrArg some (A.intf_injective (Nat.succ.inj h))

theorem ofPayload_injective : Function.Injective A.ofPayload := by
  rintro (_ | p) (_ | q) h
  · rfl
  · simp [ofPayload] at h
  · simp [ofPayload] at h
  · exact congrArg some (A.payload_injective (Nat.succ.inj h))

end Addresses

namespace Packet

variable (A : Addresses)

/-- `operator<`. -/
def lt (a b : Packet) : Bool :=
  -- a later field is compared also where an earlier one is greater
  if A.ofIntf a.intf < A.ofIntf b.intf then true
  else if a.srcIp < b.srcIp then true
  else if a.dstIp < b.dstIp then true
  else if a.srcPort < b.srcPort then true
  else if a.dstPort < b.dstPort then true
  else if a.seq < b.seq then true
  else if a.ack < b.ack then true
  else if a.protoState < b.protoState then true
  else if A.ofPayload a.payload < A.ofPayload b.payload then true
  else false

def field (p : Packet) : PacketField → Nat
  | .intf => A.ofIntf p.intf
  | .srcIp => p.srcIp.toNat
  | .dstIp => p.dstIp.toNat
  | .srcPort => p.srcPort.toNat
  | .dstPort => p.dstPort.toNat
  | .seq => p.seq.toNat
  | .ack => p.ack.toNat
  | .protoState => p.protoState
  | .payload => A.ofPayload p.payload

end Packet

namespace InjectionResult

/-- The constructor. `sort` stands for `std::sort`. -/
def ofRecv (sort : List Packet → List Packet) (recvPkts : List Packet) (explicitDrop : Bool) :
    InjectionResult :=
  ⟨(sort recvPkts).destutter fun a b => ¬ Packet.eq a b = true, explicitDrop⟩

end InjectionResult

namespace Packet

variable {A : Addresses} {a b : Packet}

open SomeLess

theorem lt_iff : lt A a b = true ↔ Less (field A) a b := by
  constructor
  · intro h
    unfold lt at h
    split_ifs at h with h₁ h₂ h₃ h₄ h₅ h₆ h₇ h₈ h₉
    · exact ⟨.intf, h₁⟩
    · exact ⟨.srcIp, h₂⟩
    · exact ⟨.dstIp, h₃⟩
    · exact ⟨.srcPort, h₄⟩
    · exact ⟨.dstPort, h₅⟩
    · exact ⟨.seq, h₆⟩
    · exact ⟨.ack, h₇⟩
    · exact ⟨.protoState, h₈⟩
    · exact ⟨.payload, h₉⟩
  · rintro ⟨i, hi⟩
    unfold lt
    cases i with
    | intf => exact if_pos hi
    | _ =>
      simp only [field, ← BitVec.lt_def] at hi
      simp [hi]

theorem eq_iff_field : eq a b = true ↔ field A a = field A b := by
  rw [funext_iff]
  constructor
  · intro h i
    simp only [eq, Bool.and_eq_true, beq_iff_eq] at h
    obtain ⟨⟨⟨⟨⟨⟨⟨⟨h₁, h₂⟩, h₃⟩, h₄⟩, h₅⟩, h₆⟩, h₇⟩, h₈⟩, h₉⟩ := h
    cases i with
    | intf => exact congrArg A.ofIntf h₁
    | srcIp => exact congrArg BitVec.toNat h₂
    | dstIp => exact congrArg BitVec.toNat h₃
    | srcPort => exact congrArg BitVec.toNat h₄
    | dstPort => exact congrArg BitVec.toNat h₅
    | seq => exact congrArg BitVec.toNat h₆
    | ack => exact congrArg BitVec.toNat h₇
    | protoState => exact h₈
    | payload => exact congrArg A.ofPayload h₉
  · intro h
    simp only [eq, Bool.and_eq_true, beq_iff_eq]
    exact ⟨⟨⟨⟨⟨⟨⟨⟨A.ofIntf_injective (h .intf), BitVec.eq_of_toNat_eq (h .srcIp)⟩,
      BitVec.eq_of_toNat_eq (h .dstIp)⟩, BitVec.eq_of_toNat_eq (h .srcPort)⟩,
      BitVec.eq_of_toNat_eq (h .dstPort)⟩, BitVec.eq_of_toNat_eq (h .seq)⟩,
      BitVec.eq_of_toNat_eq (h .ack)⟩, h .protoState⟩, A.ofPayload_injective (h .payload)⟩

def SameSet (l₁ l₂ : List Packet) : Prop :=
  (∀ a ∈ l₁, ∃ b ∈ l₂, eq a b = true) ∧ ∀ b ∈ l₂, ∃ a ∈ l₁, eq a b = true

theorem mem_map_field_iff {l₁ l₂ : List Packet} (h : SameSet l₁ l₂) (k : PacketField → Nat) :
    k ∈ l₁.map (field A) ↔ k ∈ l₂.map (field A) := by
  simp only [List.mem_map]
  constructor
  · rintro ⟨a, ha, rfl⟩
    obtain ⟨b, hb, hab⟩ := h.1 a ha
    exact ⟨b, hb, (eq_iff_field.mp hab).symm⟩
  · rintro ⟨b, hb, rfl⟩
    obtain ⟨a, ha, hab⟩ := h.2 b hb
    exact ⟨a, ha, eq_iff_field.mp hab⟩

theorem map_field_ofRecv [DecidableEq (PacketField → Nat)] (A : Addresses)
    (sort : List Packet → List Packet) (l : List Packet) (drop : Bool) :
    (InjectionResult.ofRecv sort l drop).recvPkts.map (field A) =
      ((sort l).map (field A)).destutter (· ≠ ·) := by
  apply List.map_destutter
  intro a _ b _
  rw [eq_iff_field (A := A)]

theorem isEqv_iff_field {l₁ l₂ : List Packet} :
    l₁.isEqv l₂ eq = true ↔ l₁.map (field A) = l₂.map (field A) := by
  induction l₁ generalizing l₂ with
  | nil => cases l₂ <;> simp [List.isEqv]
  | cons a l₁ ih =>
    cases l₂ with
    | nil => simp [List.isEqv]
    | cons b l₂ => simp [List.isEqv, ih, eq_iff_field (A := A)]

/-- The packets are totally ordered, and injection results are the same whenever they are made of
the same of them. -/
structure Canonical (A : Addresses) (pkts : List Packet) : Prop where
  orders : OrdersOn (fun a b => lt A a b = true) (fun a b => eq a b = true) {p | p ∈ pkts}
  results : ∀ sort, Sorts (fun a b => lt A a b = true) sort → ∀ l₁ l₂ explicitDrop,
    SameSet l₁ pkts → SameSet l₂ pkts →
      injectionResultEq (.ofRecv sort l₁ explicitDrop) (.ofRecv sort l₂ explicitDrop) = true

/-- Packets are ordered, and their injection results canonical, if and only if no two fields of
two of them disagree about which packet is less. -/
theorem canonical_iff (A : Addresses) (pkts : List Packet) :
    Canonical A pkts ↔ ∀ a ∈ pkts, ∀ b ∈ pkts, Comparable (field A) a b := by
  classical
  have hlt : (fun a b => lt A a b = true) = Less (field A) := by
    funext a b
    exact propext lt_iff
  have heq : (fun a b => eq a b = true) = fun a b => field A a = field A b := by
    funext a b
    exact propext eq_iff_field
  have horders : OrdersOn (fun a b => lt A a b = true) (fun a b => eq a b = true)
      {p | p ∈ pkts} ↔ ∀ a ∈ pkts, ∀ b ∈ pkts, Comparable (field A) a b := by
    rw [hlt, heq]
    exact ordersOn_iff
  refine ⟨fun h => horders.mp h.orders, fun h => ⟨horders.mpr h, ?_⟩⟩
  intro sort hsort l₁ l₂ explicitDrop h₁ h₂
  rw [hlt] at hsort
  have hsame : ∀ k, k ∈ l₁.map (field A) ↔ k ∈ l₂.map (field A) := fun k =>
    (mem_map_field_iff h₁ k).trans (mem_map_field_iff h₂ k).symm
  have hcomp : ∀ a ∈ l₁, ∀ b ∈ l₁, Comparable (field A) a b := by
    intro a ha b hb
    obtain ⟨a', ha', haa'⟩ := h₁.1 a ha
    obtain ⟨b', hb', hbb'⟩ := h₁.1 b hb
    have hcomp := h a' ha' b' hb'
    rw [Comparable, ← eq_iff_field.mp haa', ← eq_iff_field.mp hbb'] at hcomp
    exact hcomp
  unfold injectionResultEq
  rw [Bool.and_eq_true]
  refine ⟨?_, beq_self_eq_true _⟩
  rw [isEqv_iff_field (A := A), map_field_ofRecv, map_field_ofRecv]
  exact destutter_sort_eq hsort hcomp hsame

def probe (dstPort : BitVec 16) (seq : BitVec 32) : Packet where
  intf := some 1
  srcIp := 0x0A000001#32
  dstIp := 0x0A000002#32
  srcPort := 0
  dstPort := dstPort
  seq := seq
  ack := 0
  protoState := 0x800 + thAck
  payload := none
  conn := 0
  isNew := false
  oppositeDir := false
  nextPhase := false

def someAddresses : Addresses where
  intf i := i
  payload pl := Encodable.encode (pl.map BitVec.toNat)
  intf_injective _ _ h := h
  payload_injective _ _ h :=
    List.map_injective_iff.mpr (fun _ _ h => BitVec.eq_of_toNat_eq h) (Encodable.encode_injective h)

/-- The first packet has the less port and the second one the less number. -/
theorem not_canonical : ¬ Canonical someAddresses [probe 80 1, probe 443 0] := by
  intro h
  have hport : field someAddresses (probe 80 1) .dstPort <
      field someAddresses (probe 443 0) .dstPort := by
    decide
  have hseq : field someAddresses (probe 443 0) .seq < field someAddresses (probe 80 1) .seq := by
    decide
  exact h.orders.asymm (probe 80 1) (by simp) (probe 443 0) (by simp) (lt_iff.mpr ⟨_, hport⟩)
    (lt_iff.mpr ⟨_, hseq⟩)

end Packet

end Neo
