import Neo.Frame

/-! What `deserialize` does with the memory of a frame. It does not compare the offsets with the
length of the frame, and converts differences of lengths to unsigned numbers. -/

namespace Neo

open Bytes

structure Buffer where
  frame : Frame
  behind : Nat → Byte

inductive Access
  | read (offset n : Nat)
  | length (n : Int)
  | alloc (n : Nat)

def Access.Inside (buflen : Nat) : Access → Prop
  | read offset n => offset + n ≤ buflen
  | length n => 0 ≤ n
  | alloc n => n ≤ buflen

/-- A number as `size_t`. -/
def toSize (n : Int) : Nat := (n % 2 ^ 64).toNat

namespace Buffer

open Packet Net

variable (b : Buffer)

def buflen : Nat := b.frame.length

def byte (i : Nat) : Byte := b.frame.getD i (b.behind (i - b.buflen))

def bytes (offset n : Nat) : List Byte := (List.range n).map fun i => b.byte (offset + i)

def word (offset n : Nat) : BitVec (8 * n) := toBitVec (8 * n) (b.bytes offset n)

def copyPayload (offset n : Nat) : Option Payload × List Access :=
  if n = 0 then (none, []) else (some (b.bytes offset n), [.alloc n, .read offset n])

def deserializeTcp (pkt : Packet) : Packet × List Access :=
  let dataoff := 34 + (b.word 46 1).toNat / 16 * 4
  -- negative where the header ends behind the frame
  let datalen : Int := b.buflen - dataoff
  let (payload, acts) := b.copyPayload dataoff (toSize datalen)
  ({ pkt with
      srcPort := b.word 34 2
      dstPort := b.word 36 2
      seq := b.word 38 4
      ack := b.word 42 4
      protoState := ((b.word 46 2).toNat &&& 0x0fff) ||| 0x800
      payload := payload },
    [.read 34 2, .read 36 2, .read 38 4, .read 42 4, .read 46 1, .read 46 2, .length datalen]
      ++ acts)

def udpLength : BitVec 16 := toBitVec 16 (b.bytes 38 2).reverse

def deserializeUdp (pkt : Packet) : Packet × List Access :=
  let length := b.udpLength - 8
  let datalen : Int := b.buflen - 42
  let rest : BitVec 16 := BitVec.ofInt 16 datalen
  let length := if length ≤ rest then length else rest
  let (payload, acts) := b.copyPayload 42 length.toNat
  ({ pkt with
      srcPort := b.word 34 2
      dstPort := b.word 36 2
      protoState := psUdpReq
      payload := payload },
    [.read 34 2, .read 36 2, .read 38 2, .length (b.udpLength.toNat - 8), .length datalen]
      ++ acts)

def deserializeIcmp (pkt : Packet) : Packet × List Access :=
  let icmpType := b.word 34 1
  (if icmpType = icmpEcho then { pkt with protoState := psIcmpEchoReq }
    else if icmpType = icmpEchoReply then { pkt with protoState := psIcmpEchoRep }
    else cleared, [.read 34 1, .read 35 1])

def deserializeIp : Packet × List Access :=
  let pkt : Packet := { cleared with srcIp := b.word 26 4, dstIp := b.word 30 4 }
  let ipProto := b.word 23 1
  let (pkt, acts) :=
    if ipProto = ipprotoTcp then b.deserializeTcp pkt
    else if ipProto = ipprotoUdp then b.deserializeUdp pkt
    else if ipProto = ipprotoIcmp then b.deserializeIcmp pkt
    else (cleared, [])
  (pkt, [.read 26 4, .read 30 4, .read 23 1] ++ acts)

def readMacs : Bool × List Access :=
  if b.bytes 0 6 = idEthAddr.toList then (true, [.read 0 6])
  else (b.bytes 6 6 = idEthAddr.toList, [.read 0 6, .read 6 6])

/-- `deserialize`, with what it does in memory. -/
def deserialize : Packet × List Access :=
  let macs := b.readMacs
  if macs.1 then
    let ip := if b.word 12 2 = ethertypeIp then b.deserializeIp else (cleared, [])
    (ip.1, macs.2 ++ .read 12 2 :: ip.2)
  else (cleared, macs.2)

structure StaysInside : Prop where
  acts : ∀ a ∈ b.deserialize.2, a.Inside b.buflen
  payload : b.deserialize.1.isEmpty = true ∨ ∃ offset n, offset + n ≤ b.buflen ∧
    b.deserialize.1.payload = getPayload (slice b.frame offset n)

end Buffer

namespace Net

def field (frame : Frame) (offset n : Nat) : BitVec (8 * n) :=
  toBitVec (8 * n) (slice frame offset n)

def IsRelevant (frame : Frame) : Prop :=
  slice frame 0 6 = idEthAddr.toList ∨ slice frame 6 6 = idEthAddr.toList

/-- The frame is as long as the headers that are read from it, and the TCP header is not longer
than the frame. -/
structure HasHeaders (frame : Frame) : Prop where
  macs : 12 ≤ frame.length
  ethertype : IsRelevant frame → 14 ≤ frame.length
  ip : IsRelevant frame → field frame 12 2 = ethertypeIp → 34 ≤ frame.length
  tcp : IsRelevant frame → field frame 12 2 = ethertypeIp → field frame 23 1 = ipprotoTcp →
    48 ≤ frame.length ∧ 34 + (field frame 46 1).toNat / 16 * 4 ≤ frame.length
  udp : IsRelevant frame → field frame 12 2 = ethertypeIp → field frame 23 1 = ipprotoUdp →
    42 ≤ frame.length
  icmp : IsRelevant frame → field frame 12 2 = ethertypeIp → field frame 23 1 = ipprotoIcmp →
    36 ≤ frame.length

/-- The length of a datagram, in the order in which it is read, is at least that of its header. -/
def HasUdpLength (frame : Frame) : Prop :=
  IsRelevant frame → field frame 12 2 = ethertypeIp → field frame 23 1 = ipprotoUdp →
    8 ≤ (toBitVec 16 (slice frame 38 2).reverse).toNat

end Net

namespace Buffer

open Packet Net

variable {b : Buffer}

theorem bytes_eq {offset n : Nat} (h : offset + n ≤ b.buflen) :
    b.bytes offset n = slice b.frame offset n := by
  rw [buflen] at h
  apply List.ext_getElem
  · simp only [bytes, slice, List.length_map, List.length_range, List.length_take,
      List.length_drop]
    omega
  · intro i hi _
    simp only [bytes, List.length_map, List.length_range] at hi
    have hlt : offset + i < b.frame.length := by omega
    simp only [bytes, slice, byte, List.getElem_map, List.getElem_range, List.getElem_take,
      List.getElem_drop]
    exact (List.getElem_eq_getD _).symm

theorem word_eq {offset n : Nat} (h : offset + n ≤ b.buflen) :
    b.word offset n = field b.frame offset n := by
  rw [word, field, bytes_eq h]

theorem toSize_of_nonneg {n : Int} (h₀ : 0 ≤ n) (h : n < 2 ^ 64) : (toSize n : Int) = n := by
  rw [toSize]
  omega

theorem inside_copyPayload {offset n buflen : Nat} (h : offset + n ≤ buflen) :
    ∀ a ∈ (b.copyPayload offset n).2, a.Inside buflen := by
  rw [copyPayload]
  split
  · simp
  · simp only [List.forall_mem_cons, Access.Inside, List.not_mem_nil, false_imp_iff,
      forall_true_iff, and_true]
    omega

theorem copyPayload_eq {offset n : Nat} (h : offset + n ≤ b.buflen) :
    (b.copyPayload offset n).1 = getPayload (slice b.frame offset n) := by
  have hlen : (slice b.frame offset n).length = n := by
    rw [buflen] at h
    rw [slice, List.length_take, List.length_drop]
    omega
  rw [copyPayload, getPayload]
  by_cases hn : n = 0
  · rw [if_pos hn, List.eq_nil_of_length_eq_zero (hlen.trans hn)]
    rfl
  · have hne : (slice b.frame offset n).isEmpty = false := by
      rw [List.isEmpty_eq_false_iff, ← List.length_pos_iff]
      omega
    rw [if_neg hn, bytes_eq h, hne]
    rfl

def HasPayload (b : Buffer) (pkt : Packet) : Prop :=
  ∃ offset n, offset + n ≤ b.buflen ∧ pkt.payload = getPayload (slice b.frame offset n)

theorem hasPayload_of_none {pkt : Packet} (h : pkt.payload = none) : b.HasPayload pkt :=
  ⟨0, 0, Nat.zero_le _, by rw [h]; rfl⟩

theorem tcp_inside {pkt : Packet} (h : 48 ≤ b.buflen)
    (hoff : 34 + (b.word 46 1).toNat / 16 * 4 ≤ b.buflen) (hlen : b.buflen ≤ ethFrameLen) :
    (∀ a ∈ (b.deserializeTcp pkt).2, a.Inside b.buflen) ∧
      b.HasPayload (b.deserializeTcp pkt).1 := by
  rw [ethFrameLen] at hlen
  set dataoff := 34 + (b.word 46 1).toNat / 16 * 4 with hdataoff
  have hsize : dataoff + toSize (b.buflen - dataoff) ≤ b.buflen := by
    have := toSize_of_nonneg (n := b.buflen - dataoff) (by omega) (by omega)
    omega
  refine ⟨?_, dataoff, _, hsize, copyPayload_eq hsize⟩
  simp only [deserializeTcp, List.forall_mem_append, List.forall_mem_cons, Access.Inside,
    List.not_mem_nil, false_imp_iff, forall_true_iff, and_true]
  exact ⟨by omega, inside_copyPayload hsize⟩

theorem udp_inside {pkt : Packet} (h : 42 ≤ b.buflen) (hudp : 8 ≤ b.udpLength.toNat)
    (hlen : b.buflen ≤ ethFrameLen) :
    (∀ a ∈ (b.deserializeUdp pkt).2, a.Inside b.buflen) ∧
      b.HasPayload (b.deserializeUdp pkt).1 := by
  rw [ethFrameLen] at hlen
  set rest : BitVec 16 := BitVec.ofInt 16 ((b.buflen : Int) - 42) with hrest
  set n := (if b.udpLength - 8 ≤ rest then b.udpLength - 8 else rest).toNat with hn
  have hrestNat : rest.toNat = b.buflen - 42 := by
    rw [hrest, BitVec.toNat_ofInt]
    omega
  have hsize : 42 + n ≤ b.buflen := by
    have hle : n ≤ rest.toNat := by
      rw [hn]
      split
      · rename_i hle
        exact BitVec.le_def.mp hle
      · exact le_rfl
    omega
  refine ⟨?_, 42, n, hsize, copyPayload_eq hsize⟩
  simp only [deserializeUdp, List.forall_mem_append, List.forall_mem_cons, Access.Inside,
    List.not_mem_nil, false_imp_iff, forall_true_iff, and_true]
  exact ⟨by omega, inside_copyPayload hsize⟩

theorem tcp_covers {pkt : Packet} (h : ∀ a ∈ (b.deserializeTcp pkt).2, a.Inside b.buflen) :
    48 ≤ b.buflen ∧ 34 + (b.word 46 1).toNat / 16 * 4 ≤ b.buflen := by
  simp only [deserializeTcp, List.forall_mem_append, List.forall_mem_cons, Access.Inside] at h
  omega

theorem udp_covers {pkt : Packet} (h : ∀ a ∈ (b.deserializeUdp pkt).2, a.Inside b.buflen) :
    42 ≤ b.buflen ∧ 8 ≤ b.udpLength.toNat := by
  simp only [deserializeUdp, List.forall_mem_append, List.forall_mem_cons, Access.Inside] at h
  omega

structure CoversProto (b : Buffer) : Prop where
  ip : 34 ≤ b.buflen
  tcp : b.word 23 1 = ipprotoTcp → 48 ≤ b.buflen ∧ 34 + (b.word 46 1).toNat / 16 * 4 ≤ b.buflen
  udp : b.word 23 1 = ipprotoUdp → 42 ≤ b.buflen ∧ 8 ≤ b.udpLength.toNat
  icmp : b.word 23 1 = ipprotoIcmp → 36 ≤ b.buflen

theorem CoversProto.inside (h : b.CoversProto) (hlen : b.buflen ≤ ethFrameLen) :
    (∀ a ∈ b.deserializeIp.2, a.Inside b.buflen) ∧ b.HasPayload b.deserializeIp.1 := by
  have hip := h.ip
  simp only [deserializeIp, List.forall_mem_append, List.forall_mem_cons, Access.Inside,
    List.not_mem_nil, false_imp_iff, forall_true_iff, and_true]
  split_ifs with htcp hudp hicmp
  · obtain ⟨hacts, hpayload⟩ := tcp_inside (h.tcp htcp).1 (h.tcp htcp).2 hlen
    exact ⟨⟨by omega, hacts⟩, hpayload⟩
  · obtain ⟨hacts, hpayload⟩ := udp_inside (h.udp hudp).1 (h.udp hudp).2 hlen
    exact ⟨⟨by omega, hacts⟩, hpayload⟩
  · have hicmp := h.icmp hicmp
    refine ⟨⟨by omega, ?_⟩, hasPayload_of_none ?_⟩
    · simp only [deserializeIcmp, List.forall_mem_cons, List.not_mem_nil, false_imp_iff,
        forall_true_iff, and_true]
      omega
    · rw [deserializeIcmp]
      split_ifs <;> rfl
  · exact ⟨⟨by omega, by simp⟩, hasPayload_of_none rfl⟩

theorem coversProto_of_inside (h : ∀ a ∈ b.deserializeIp.2, a.Inside b.buflen) :
    b.CoversProto := by
  simp only [deserializeIp, List.forall_mem_append, List.forall_mem_cons, Access.Inside] at h
  obtain ⟨⟨_, _, _, -⟩, hproto⟩ := h
  refine ⟨by omega, fun htcp => ?_, fun hudp => ?_, fun hicmp => ?_⟩
  · rw [if_pos htcp] at hproto
    exact tcp_covers hproto
  · rw [if_neg (by rw [hudp]; decide), if_pos hudp] at hproto
    exact udp_covers hproto
  · rw [if_neg (by rw [hicmp]; decide), if_neg (by rw [hicmp]; decide), if_pos hicmp] at hproto
    simp only [deserializeIcmp, List.forall_mem_cons] at hproto
    omega

theorem coversProto_iff (h : 34 ≤ b.buflen) :
    b.CoversProto ↔
      (field b.frame 23 1 = ipprotoTcp →
        48 ≤ b.frame.length ∧ 34 + (field b.frame 46 1).toNat / 16 * 4 ≤ b.frame.length) ∧
      (field b.frame 23 1 = ipprotoUdp →
        42 ≤ b.frame.length ∧ 8 ≤ (toBitVec 16 (slice b.frame 38 2).reverse).toNat) ∧
      (field b.frame 23 1 = ipprotoIcmp → 36 ≤ b.frame.length) := by
  have hproto : b.word 23 1 = field b.frame 23 1 := word_eq (by omega)
  have hoff : 48 ≤ b.buflen → b.word 46 1 = field b.frame 46 1 := fun h => word_eq (by omega)
  have hudp : 42 ≤ b.buflen → b.udpLength = toBitVec 16 (slice b.frame 38 2).reverse := fun h => by
    rw [udpLength, bytes_eq (by omega)]
  constructor
  · intro hc
    refine ⟨fun hp => ?_, fun hp => ?_, fun hp => hc.icmp (hproto.trans hp)⟩
    · obtain ⟨h₁, h₂⟩ := hc.tcp (hproto.trans hp)
      rw [hoff h₁] at h₂
      exact ⟨h₁, h₂⟩
    · obtain ⟨h₁, h₂⟩ := hc.udp (hproto.trans hp)
      rw [hudp h₁] at h₂
      exact ⟨h₁, h₂⟩
  · rintro ⟨ht, hu, hi⟩
    refine ⟨h, fun hp => ?_, fun hp => ?_, fun hp => hi (hproto.symm.trans hp)⟩
    · obtain ⟨h₁, h₂⟩ := ht (hproto.symm.trans hp)
      exact ⟨h₁, (hoff h₁).symm ▸ h₂⟩
    · obtain ⟨h₁, h₂⟩ := hu (hproto.symm.trans hp)
      exact ⟨h₁, (hudp h₁).symm ▸ h₂⟩

theorem readMacs_eq (h : 12 ≤ b.buflen) :
    (b.readMacs.1 = true ↔ IsRelevant b.frame) ∧ ∀ a ∈ b.readMacs.2, a.Inside b.buflen := by
  have h₀ : b.bytes 0 6 = slice b.frame 0 6 := bytes_eq (by omega)
  have h₆ : b.bytes 6 6 = slice b.frame 6 6 := bytes_eq (by omega)
  rw [readMacs, h₀, h₆, IsRelevant]
  split
  · rename_i hdst
    exact ⟨iff_of_true rfl (.inl hdst), by simp [Access.Inside]; omega⟩
  · rename_i hdst
    refine ⟨by simp [hdst], ?_⟩
    simp only [List.forall_mem_cons, Access.Inside, List.not_mem_nil, false_imp_iff,
      forall_true_iff, and_true]
    omega

theorem deserialize_of_relevant (h : b.readMacs.1 = true) :
    b.deserialize.2 = b.readMacs.2 ++
      .read 12 2 :: (if b.word 12 2 = ethertypeIp then b.deserializeIp else (cleared, [])).2 := by
  rw [deserialize]
  simp only [h, if_true]

theorem twelve_le_of_inside (h : ∀ a ∈ b.deserialize.2, a.Inside b.buflen) : 12 ≤ b.buflen := by
  by_cases hdst : b.bytes 0 6 = idEthAddr.toList
  · have hmacs : b.readMacs = (true, [.read 0 6]) := by rw [readMacs, if_pos hdst]
    rw [deserialize_of_relevant (by rw [hmacs])] at h
    exact Nat.le_of_add_right_le (h (.read 12 2) (by simp))
  · have hmacs : b.readMacs.2 = [.read 0 6, .read 6 6] := by rw [readMacs, if_neg hdst]
    refine h (.read 6 6) ?_
    rw [deserialize]
    simp only
    split <;> simp [hmacs]

theorem staysInside_of_hasHeaders (hlen : b.buflen ≤ ethFrameLen) (h : HasHeaders b.frame)
    (hudp : HasUdpLength b.frame) : b.StaysInside := by
  obtain ⟨hrel, hmacs⟩ := readMacs_eq (b := b) h.macs
  suffices hall : (∀ a ∈ b.deserialize.2, a.Inside b.buflen) ∧
      (b.deserialize.1.isEmpty = true ∨ b.HasPayload b.deserialize.1) from ⟨hall.1, hall.2⟩
  by_cases hr : b.readMacs.1 = true
  · have hrelevant := hrel.mp hr
    have h14 := h.ethertype hrelevant
    have htype : b.word 12 2 = field b.frame 12 2 := word_eq h14
    by_cases hip : b.word 12 2 = ethertypeIp
    · have hfield := htype.symm.trans hip
      have h34 := h.ip hrelevant hfield
      have hcovers := (coversProto_iff h34).mpr ⟨h.tcp hrelevant hfield,
        fun hp => ⟨h.udp hrelevant hfield hp, hudp hrelevant hfield hp⟩, h.icmp hrelevant hfield⟩
      obtain ⟨hacts, hpayload⟩ := hcovers.inside hlen
      simp only [deserialize, hr, hip, if_true, List.forall_mem_append, List.forall_mem_cons]
      exact ⟨⟨hmacs, h14, hacts⟩, .inr hpayload⟩
    · simp only [deserialize, hr, hip, if_true, if_false, List.forall_mem_append,
        List.forall_mem_cons]
      exact ⟨⟨hmacs, h14, by simp⟩, .inl rfl⟩
  · simp only [deserialize, hr, Bool.false_eq_true, if_false]
    exact ⟨hmacs, .inl rfl⟩

theorem hasHeaders_of_staysInside (h : b.StaysInside) :
    HasHeaders b.frame ∧ HasUdpLength b.frame := by
  have h12 := twelve_le_of_inside h.acts
  have hrel := (readMacs_eq h12).1
  have hread : IsRelevant b.frame → 14 ≤ b.buflen ∧
      ∀ a ∈ (if b.word 12 2 = ethertypeIp then b.deserializeIp else (cleared, [])).2,
        a.Inside b.buflen := by
    intro hr
    have hacts := h.acts
    rw [deserialize_of_relevant (hrel.mpr hr), List.forall_mem_append, List.forall_mem_cons]
      at hacts
    exact ⟨hacts.2.1, hacts.2.2⟩
  have hcovers : IsRelevant b.frame → field b.frame 12 2 = ethertypeIp → b.CoversProto := by
    intro hr hip
    obtain ⟨h14, hacts⟩ := hread hr
    have htype : b.word 12 2 = field b.frame 12 2 := word_eq h14
    rw [if_pos (htype.trans hip)] at hacts
    exact coversProto_of_inside hacts
  have hproto : ∀ (hr : IsRelevant b.frame) (hip : field b.frame 12 2 = ethertypeIp), _ :=
    fun hr hip => (coversProto_iff (hcovers hr hip).ip).mp (hcovers hr hip)
  exact ⟨⟨h12, fun hr => (hread hr).1, fun hr hip => (hcovers hr hip).ip,
    fun hr hip => (hproto hr hip).1, fun hr hip hp => ((hproto hr hip).2.1 hp).1,
    fun hr hip => (hproto hr hip).2.2⟩, fun hr hip hp => ((hproto hr hip).2.1 hp).2⟩

/-! ### Decoding from the frame alone -/

theorem read_eq {offset n : Nat} (h : offset + n ≤ b.buflen) :
    Net.read b.frame offset n = some (b.bytes offset n) := by
  rw [Net.read, if_pos (show offset + n ≤ b.frame.length from h), bytes_eq h]

theorem readWord_eq {offset n : Nat} (h : offset + n ≤ b.buflen) :
    readWord b.frame offset n = some (b.word offset n) := by
  rw [readWord, read_eq h]
  rfl

theorem deserializeTcp_eq {pkt : Packet} (h : 48 ≤ b.buflen)
    (hoff : 34 + (b.word 46 1).toNat / 16 * 4 ≤ b.buflen) (hlen : b.buflen ≤ ethFrameLen) :
    Net.deserializeTcp b.frame pkt = some (b.deserializeTcp pkt).1 := by
  rw [ethFrameLen] at hlen
  set dataoff := 34 + (b.word 46 1).toNat / 16 * 4 with hdataoff
  have hsize : toSize (b.buflen - dataoff) = b.frame.length - dataoff := by
    have := toSize_of_nonneg (n := b.buflen - dataoff) (by omega) (by omega)
    rw [buflen] at *
    omega
  have hslice : slice b.frame dataoff (b.frame.length - dataoff) = b.frame.drop dataoff := by
    rw [slice, ← List.length_drop, List.take_length]
  have hpayload : (b.copyPayload dataoff (b.frame.length - dataoff)).1 = _ :=
    copyPayload_eq (by rw [buflen] at *; omega)
  rw [hslice] at hpayload
  unfold Net.deserializeTcp
  simp only [readWord_eq (b := b) (show 34 + 2 ≤ b.buflen by omega),
    readWord_eq (b := b) (show 36 + 2 ≤ b.buflen by omega),
    readWord_eq (b := b) (show 38 + 4 ≤ b.buflen by omega),
    readWord_eq (b := b) (show 42 + 4 ≤ b.buflen by omega),
    readWord_eq (b := b) (show 46 + 1 ≤ b.buflen by omega),
    readWord_eq (b := b) (show 46 + 2 ≤ b.buflen by omega),
    Option.bind_eq_bind, Option.bind_some, ← hdataoff]
  rw [decide_eq_true (show dataoff ≤ b.frame.length from hoff), ← hpayload, ← hsize]
  rfl

theorem deserializeUdp_eq {pkt : Packet} (h : 42 ≤ b.buflen) (hlen : b.buflen ≤ ethFrameLen) :
    Net.deserializeUdp b.frame pkt = some (b.deserializeUdp pkt).1 := by
  rw [ethFrameLen] at hlen
  have hrest : BitVec.ofInt 16 ((b.buflen : Int) - 42) = BitVec.ofNat 16 (b.frame.length - 42) := by
    rw [← BitVec.ofInt_natCast, Nat.cast_sub (show 42 ≤ b.frame.length from h)]
    rfl
  have hrestNat : (BitVec.ofNat 16 (b.frame.length - 42)).toNat = b.buflen - 42 := by
    rw [BitVec.toNat_ofNat, ← buflen]
    omega
  set rest : BitVec 16 := BitVec.ofNat 16 (b.frame.length - 42) with hrestdef
  have hsize :
      42 + (if b.udpLength - 8 ≤ rest then b.udpLength - 8 else rest).toNat ≤ b.buflen := by
    have hle : (if b.udpLength - 8 ≤ rest then b.udpLength - 8 else rest).toNat ≤ rest.toNat := by
      split
      · rename_i hle
        exact BitVec.le_def.mp hle
      · exact le_rfl
    omega
  have hpayload := copyPayload_eq hsize
  unfold Net.deserializeUdp
  simp only [readWord_eq (b := b) (show 34 + 2 ≤ b.buflen by omega),
    readWord_eq (b := b) (show 36 + 2 ≤ b.buflen by omega),
    read_eq (b := b) (show 38 + 2 ≤ b.buflen by omega), Option.bind_eq_bind, Option.bind_some]
  rw [decide_eq_true (show 42 ≤ b.frame.length from h), ← hrestdef, ← udpLength, ← hpayload]
  simp only [deserializeUdp, hrest]
  rfl

theorem readMacs_fst : b.readMacs.1 = true ↔
    ¬(b.bytes 0 6 ≠ idEthAddr.toList ∧ b.bytes 6 6 ≠ idEthAddr.toList) := by
  rw [readMacs]
  split <;> simp [*]

theorem deserialize_eq (hlen : b.buflen ≤ ethFrameLen) (h : HasHeaders b.frame) :
    Net.deserialize b.frame = some b.deserialize.1 := by
  have h12 : 12 ≤ b.buflen := h.macs
  unfold Net.deserialize
  simp only [read_eq (b := b) (show 0 + 6 ≤ b.buflen by omega),
    read_eq (b := b) (show 6 + 6 ≤ b.buflen by omega), Option.bind_eq_bind, Option.bind_some]
  by_cases hr : b.readMacs.1 = true
  · rw [if_neg (readMacs_fst.mp hr)]
    have hrel := (readMacs_eq h12).1.mp hr
    have h14 : 12 + 2 ≤ b.buflen := h.ethertype hrel
    rw [readWord_eq h14, Option.bind_some]
    -- nothing is read behind the field that decides against the frame
    by_cases hip : b.word 12 2 = ethertypeIp
    · have hfield := (word_eq h14).symm.trans hip
      have h34 : 34 ≤ b.buflen := h.ip hrel hfield
      have hproto : b.word 23 1 = field b.frame 23 1 := word_eq (by omega)
      rw [if_pos hip]
      simp only [readWord_eq (b := b) (show 26 + 4 ≤ b.buflen by omega),
        readWord_eq (b := b) (show 30 + 4 ≤ b.buflen by omega),
        readWord_eq (b := b) (show 23 + 1 ≤ b.buflen by omega), Option.bind_some]
      have hdeserialize : b.deserialize.1 = b.deserializeIp.1 := by
        simp only [deserialize, hr, hip, if_true]
      rw [hdeserialize]
      simp only [deserializeIp]
      split_ifs with htcp hudp hicmp
      · have hfits := h.tcp hrel hfield (hproto.symm.trans htcp)
        rw [← word_eq (show 46 + 1 ≤ b.buflen from by have := hfits.1; rw [buflen]; omega)] at hfits
        exact deserializeTcp_eq hfits.1 hfits.2 hlen
      · exact deserializeUdp_eq (h.udp hrel hfield (hproto.symm.trans hudp)) hlen
      · have h36 : 36 ≤ b.buflen := h.icmp hrel hfield (hproto.symm.trans hicmp)
        unfold Net.deserializeIcmp
        simp only [readWord_eq (b := b) (show 34 + 1 ≤ b.buflen by omega),
          readWord_eq (b := b) (show 35 + 1 ≤ b.buflen by omega), Option.bind_eq_bind,
          Option.bind_some, deserializeIcmp]
        split_ifs <;> rfl
      · rfl
    · rw [if_neg hip]
      simp only [deserialize, hr, hip, if_true, if_false]
      rfl
  · rw [if_pos (not_not.mp (mt readMacs_fst.mpr hr))]
    simp only [deserialize, hr, Bool.false_eq_true, if_false]
    rfl

/-! ### The condition -/

/-- The decoding stays inside the frame if and only if the frame has the headers that are read,
with the lengths that they need. -/
theorem staysInside_iff (b : Buffer) (hlen : b.buflen ≤ ethFrameLen) :
    b.StaysInside ↔ HasHeaders b.frame ∧ HasUdpLength b.frame :=
  ⟨hasHeaders_of_staysInside, fun h => staysInside_of_hasHeaders hlen h.1 h.2⟩

def truncated : Buffer := ⟨idEthAddr.toList ++ [1, 2, 3, 4, 5, 6], fun _ => 0⟩

theorem not_staysInside_truncated : truncated.buflen ≤ ethFrameLen ∧ ¬truncated.StaysInside := by
  refine ⟨by decide, fun h => ?_⟩
  have := (hasHeaders_of_staysInside h).1.ethertype (.inl rfl)
  exact absurd this (by decide)

def segment : Buffer :=
  ⟨[2, 0, 0, 0, 0, 1] ++ idEthAddr.toList ++ [8, 0] ++
    [0x45, 0, 0, 42, 0, 0, 0, 0, 64, 6, 0, 0, 10, 0, 0, 1, 10, 0, 0, 2] ++
    [0x30, 0x39, 0, 80, 0, 0, 0, 1, 0, 0, 0, 1, 0x50, 0x18, 0, 0, 0, 0, 0, 0] ++ [71, 69],
    fun _ => 0⟩

theorem staysInside_segment : segment.StaysInside ∧ segment.deserialize.1.isEmpty = false := by
  have hudp : field segment.frame 23 1 ≠ ipprotoUdp := by decide
  have hicmp : field segment.frame 23 1 ≠ ipprotoIcmp := by decide
  have hheaders : HasHeaders segment.frame :=
    ⟨by decide, fun _ => by decide, fun _ _ => by decide, fun _ _ _ => by decide,
      fun _ _ h => absurd h hudp, fun _ _ h => absurd h hicmp⟩
  have hinside := (staysInside_iff segment (by decide)).mpr
    ⟨hheaders, fun _ _ h => absurd h hudp⟩
  exact ⟨hinside, by decide⟩

end Buffer

end Neo
