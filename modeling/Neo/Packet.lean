import Neo.Network.Network

/-! Protocol states, payloads and packets. The states of a protocol are numbered in order. A
received TCP packet carries its flags, marked by the highest bit, until its state is known. -/

namespace Neo

inductive Proto
  | tcp
  | udp
  | icmpEcho
deriving DecidableEq

/-- A protocol state, or TCP flags that are not converted yet. -/
abbrev ProtoState := Nat

@[match_pattern] abbrev psInvalid : ProtoState := 0
@[match_pattern] abbrev psTcpInit1 : ProtoState := 1
@[match_pattern] abbrev psTcpInit2 : ProtoState := 2
@[match_pattern] abbrev psTcpInit3 : ProtoState := 3
@[match_pattern] abbrev psTcpL7Req : ProtoState := 4
@[match_pattern] abbrev psTcpL7ReqA : ProtoState := 5
@[match_pattern] abbrev psTcpL7Rep : ProtoState := 6
@[match_pattern] abbrev psTcpL7RepA : ProtoState := 7
@[match_pattern] abbrev psTcpTerm1 : ProtoState := 8
@[match_pattern] abbrev psTcpTerm2 : ProtoState := 9
@[match_pattern] abbrev psTcpTerm3 : ProtoState := 10
@[match_pattern] abbrev psUdpReq : ProtoState := 11
@[match_pattern] abbrev psUdpRep : ProtoState := 12
@[match_pattern] abbrev psIcmpEchoReq : ProtoState := 13
@[match_pattern] abbrev psIcmpEchoRep : ProtoState := 14

namespace ProtoState

variable (x : ProtoState)

def isRequestDir : Bool :=
  x == psTcpInit1 || x == psTcpInit3 || x == psTcpL7Req || x == psTcpL7RepA || x == psUdpReq ||
    x == psIcmpEchoReq

def isReplyDir : Bool :=
  x == psTcpInit2 || x == psTcpL7ReqA || x == psTcpL7Rep || x == psUdpRep || x == psIcmpEchoRep

def isRequest : Bool := x == psTcpL7Req || x == psUdpReq || x == psIcmpEchoReq

def isReply : Bool := x == psTcpL7Rep || x == psUdpRep || x == psIcmpEchoRep

def isReqAckOrRep : Bool := x == psTcpL7ReqA || isReply x

def isFirst : Bool := x == psTcpInit1 || x == psUdpReq || x == psIcmpEchoReq

def isLast : Bool := x == psTcpTerm3 || x == psUdpRep || x == psIcmpEchoRep

def isFlags : Bool := x &&& 0x800 ≠ 0

def isTcp : Bool := (psTcpInit1 ≤ x && x ≤ psTcpTerm3) || isFlags x

def isUdp : Bool := psUdpReq ≤ x && x ≤ psUdpRep

def isIcmpEcho : Bool := psIcmpEchoReq ≤ x && x ≤ psIcmpEchoRep

def hasSyn : Bool := x == psTcpInit1 || x == psTcpInit2

def hasFin : Bool := x == psTcpTerm1 || x == psTcpTerm2

def toProto : Proto := if isTcp x then .tcp else if isUdp x then .udp else .icmpEcho

end ProtoState

/-- The bytes of a payload. Payloads are stored once, so equal ones are the same object. -/
abbrev Payload := List (BitVec 8)

namespace Payload

def ofChars (s : List Char) : Payload := s.map fun c => BitVec.ofNat 8 c.toNat

def size (pl : Option Payload) : Nat := (pl.getD []).length

def addrChars (a : IPv4Address) : List Char :=
  let byte (i : Nat) : List Char := Nat.toDigits 10 (a.toNat / 2 ^ (8 * i) % 256)
  byte 3 ++ ['.'] ++ byte 2 ++ ['.'] ++ byte 1 ++ ['.'] ++ byte 0

def request (addr : IPv4Address) (port : BitVec 16) : Payload :=
  ofChars ("GET / HTTP/1.1\r\nHost: ".toList ++ addrChars addr ++ [':'] ++
    Nat.toDigits 10 port.toNat ++ "\r\n\r\n".toList)

def replyPage : List Char :=
  "<!DOCTYPE html><html><head><title>Reply</title></head><body>Reply</body></html>\r\n".toList

def reply : Payload :=
  ofChars ("HTTP/1.1 200 OK\r\nServer: plankton\r\nContent-Type: text/html\r\n".toList ++
    "Content-Length: ".toList ++ Nat.toDigits 10 replyPage.length ++ "\r\n\r\n".toList)

end Payload

structure Packet where
  intf : Option IntfPtr
  srcIp : IPv4Address
  dstIp : IPv4Address
  srcPort : BitVec 16
  dstPort : BitVec 16
  seq : BitVec 32
  ack : BitVec 32
  protoState : ProtoState
  payload : Option Payload
  conn : Nat
  isNew : Bool
  oppositeDir : Bool
  nextPhase : Bool
deriving DecidableEq

/-- `empty`: what reading an irrelevant frame leaves. -/
def Packet.isEmpty (p : Packet) : Bool :=
  p.intf == none && p.srcIp == 0 && p.dstIp == 0 && p.srcPort == 0 && p.dstPort == 0 &&
    p.seq == 0 && p.ack == 0

structure InjectionResult where
  recvPkts : List Packet
  explicitDrop : Bool
deriving DecidableEq

end Neo
