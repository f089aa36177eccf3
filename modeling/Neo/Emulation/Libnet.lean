import Neo.Frame

/-! Frames as libnet builds them: the fields in order, with the checksums filled in. -/

namespace Neo

open Bytes

namespace Libnet

def sumWords : List Byte → Nat
  | [] => 0
  | [b] => 256 * b.toNat
  | b :: b' :: l => 256 * b.toNat + b'.toNat + sumWords l

def checksum (l : List Byte) : BitVec 16 :=
  let sum := sumWords l
  let sum := sum % 65536 + sum / 65536
  let sum := sum % 65536 + sum / 65536
  ~~~BitVec.ofNat 16 sum

def ipFields (id : BitVec 16) (ipProto : BitVec 8) (size : Nat) (srcIp dstIp : IPv4Address)
    (srcMac dstMac : Mac) : List (List Byte) :=
  let start := [0x45, 0] ++ toBytes 2 (20 + size) ++ ofBitVec 2 id ++ [0, 0, 64]
  let addrs := ofBitVec 4 srcIp ++ ofBitVec 4 dstIp
  let sum := checksum (start ++ ofBitVec 1 ipProto ++ [0, 0] ++ addrs)
  [dstMac.toList, srcMac.toList, ofBitVec 2 ethertypeIp, start, ofBitVec 1 ipProto,
    ofBitVec 2 sum, ofBitVec 4 srcIp, ofBitVec 4 dstIp]

def pseudoHeader (ipProto : BitVec 8) (size : Nat) (srcIp dstIp : IPv4Address) : List Byte :=
  ofBitVec 4 srcIp ++ ofBitVec 4 dstIp ++ [0] ++ ofBitVec 1 ipProto ++ toBytes 2 size

def tcpFields (srcPort dstPort : BitVec 16) (seq ack : BitVec 32) (flags : BitVec 8)
    (payload : Payload) (srcIp dstIp : IPv4Address) : List (List Byte) :=
  let start := ofBitVec 2 srcPort ++ ofBitVec 2 dstPort ++ ofBitVec 4 seq ++ ofBitVec 4 ack ++
    [0x50, flags, 0xFF, 0xFF]
  let sum := checksum (pseudoHeader ipprotoTcp (20 + payload.length) srcIp dstIp ++ start ++
    [0, 0, 0, 0] ++ payload)
  [ofBitVec 2 srcPort, ofBitVec 2 dstPort, ofBitVec 4 seq, ofBitVec 4 ack, [0x50, flags],
    [0xFF, 0xFF], ofBitVec 2 sum, [0, 0], payload]

def udpFields (srcPort dstPort : BitVec 16) (payload : Payload) (srcIp dstIp : IPv4Address) :
    List (List Byte) :=
  let start := ofBitVec 2 srcPort ++ ofBitVec 2 dstPort ++ toBytes 2 (8 + payload.length)
  let sum := checksum (pseudoHeader ipprotoUdp (8 + payload.length) srcIp dstIp ++ start ++
    [0, 0] ++ payload)
  [start, ofBitVec 2 sum, payload]

def icmpEchoFields (icmpType : BitVec 8) : List (List Byte) :=
  let sum := checksum (ofBitVec 1 icmpType ++ [0, 0, 0, 0, 42, 0, 0])
  [ofBitVec 1 icmpType, [0], ofBitVec 2 sum, [0, 42], [0, 0]]

section Fields

variable {id : BitVec 16} {ipProto : BitVec 8} {size : Nat} {srcIp dstIp : IPv4Address}
  {srcMac dstMac : Mac} {rest : List (List Byte)}

theorem length_ipFields :
    (ipFields id ipProto size srcIp dstIp srcMac dstMac).flatten.length = 34 := by
  simp [ipFields]

theorem ipLayout_ipFields :
    IpLayout (ipFields id ipProto size srcIp dstIp srcMac dstMac ++ rest).flatten ipProto srcIp
      dstIp srcMac dstMac := by
  refine ⟨?_, ?_, ?_, ?_, ?_, ?_⟩
  · exact slice_flatten 0 rfl rfl (by simp)
  · exact slice_flatten 1 rfl (by simp [ipFields]) (by simp)
  · exact slice_flatten 2 rfl (by simp [ipFields]) (by simp)
  · exact slice_flatten 4 rfl (by simp [ipFields]) (by simp)
  · exact slice_flatten 6 rfl (by simp [ipFields]) (by simp)
  · exact slice_flatten 7 rfl (by simp [ipFields]) (by simp)

theorem tcpFields_flatten {srcPort dstPort : BitVec 16} {seq ack : BitVec 32} {flags : BitVec 8}
    {payload : Payload} : (tcpFields srcPort dstPort seq ack flags payload srcIp dstIp).flatten =
      ((tcpFields srcPort dstPort seq ack flags payload srcIp dstIp).take 8).flatten ++
        payload := by
  have hsplit : tcpFields srcPort dstPort seq ack flags payload srcIp dstIp =
      (tcpFields srcPort dstPort seq ack flags payload srcIp dstIp).take 8 ++ [payload] := rfl
  have hflatten := congrArg List.flatten hsplit
  rw [List.flatten_append] at hflatten
  exact hflatten.trans (congrArg _ (List.append_nil payload))

theorem tcpLayout_tcpFields {srcPort dstPort : BitVec 16} {seq ack : BitVec 32}
    {flags : BitVec 8} {payload : Payload} :
    TcpLayout (ipFields id ipProto size srcIp dstIp srcMac dstMac ++
      tcpFields srcPort dstPort seq ack flags payload srcIp dstIp).flatten srcPort dstPort seq ack
        flags payload := by
  refine ⟨?_, ?_, ?_, ?_, ?_, ?_, ?_⟩
  · exact slice_flatten 8 rfl (by simp [ipFields]) (by simp)
  · exact slice_flatten 9 rfl (by simp [ipFields, tcpFields]) (by simp)
  · exact slice_flatten 10 rfl (by simp [ipFields, tcpFields]) (by simp)
  · exact slice_flatten 11 rfl (by simp [ipFields, tcpFields]) (by simp)
  · exact slice_flatten 12 rfl (by simp [ipFields, tcpFields]) (by simp)
  · rw [List.flatten_append, show 54 = 34 + 20 from rfl, ← List.drop_drop,
      List.drop_left' length_ipFields, tcpFields_flatten,
      List.drop_left' (by simp [tcpFields])]
  · rw [List.flatten_append, List.length_append, length_ipFields, tcpFields_flatten,
      List.length_append]
    have hheader : ((tcpFields srcPort dstPort seq ack flags payload srcIp dstIp).take 8
        ).flatten.length = 20 := by
      simp [tcpFields]
    omega

theorem icmpLayout_icmpEchoFields {icmpType : BitVec 8} :
    IcmpLayout (ipFields id ipProto size srcIp dstIp srcMac dstMac ++
      icmpEchoFields icmpType).flatten icmpType := by
  refine ⟨?_, ?_⟩
  · exact slice_flatten 8 rfl (by simp [ipFields]) (by simp)
  · simp [ipFields, icmpEchoFields]

end Fields

def standard : Libnet where
  tcp srcPort dstPort seq ack flags payload srcIp dstIp srcMac dstMac :=
    (ipFields 242 ipprotoTcp (20 + payload.length) srcIp dstIp srcMac dstMac ++
      tcpFields srcPort dstPort seq ack flags payload srcIp dstIp).flatten
  udp srcPort dstPort payload srcIp dstIp srcMac dstMac :=
    (ipFields 242 ipprotoUdp (8 + payload.length) srcIp dstIp srcMac dstMac ++
      udpFields srcPort dstPort payload srcIp dstIp).flatten
  icmpEcho icmpType srcIp dstIp srcMac dstMac :=
    (ipFields 42 ipprotoIcmp 8 srcIp dstIp srcMac dstMac ++ icmpEchoFields icmpType).flatten
  tcp_ip _ _ _ _ _ _ _ _ _ _ := ipLayout_ipFields
  tcp_tcp _ _ _ _ _ _ _ _ _ _ := tcpLayout_tcpFields
  icmpEcho_ip _ _ _ _ _ := ipLayout_ipFields
  icmpEcho_icmp _ _ _ _ _ := icmpLayout_icmpEchoFields

end Libnet

end Neo
