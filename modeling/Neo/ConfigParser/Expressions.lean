import Neo.IpText
import Neo.Lib.Regex

/-! The configuration texts of a middlebox. Networks, addresses and ports that are found in a text
are added to the ones that the classes respect. -/

namespace Neo

open Scanf Regex

structure MinedEcs where
  ecIpPrefixes : Finset IPNetwork
  ecIpAddrs : Finset IPv4Address
  ecPorts : Finset (BitVec 16)

namespace ConfigParser

/-! ### The expressions -/

/-- `\d{1,3}`. -/
def octet : Pattern := .many Char.isDigit 1 (some 3)

def lit (c : Char) : Pattern := .char (· == c)

/-- `\d{1,3}\.\d{1,3}\.\d{1,3}\.\d{1,3}`. -/
def quad : Pattern :=
  octet.seq ((lit '.').seq (octet.seq ((lit '.').seq (octet.seq ((lit '.').seq octet)))))

/-- `\d+`. -/
def number : Pattern := .many Char.isDigit 1 none

def ipPrefixRegex : Pattern :=
  .seq .boundary (quad.seq ((lit '/').seq (number.seq .boundary)))

def ipAddrRegex : Pattern :=
  .seq .boundary ((Pattern.group quad).seq (.alt (.char (· != '/')) .atEnd))

/-- `port\s+`. -/
def portWord : Pattern :=
  (lit 'p').seq ((lit 'o').seq ((lit 'r').seq ((lit 't').seq (.many isBlank 1 none))))

def portRegex : Pattern :=
  (Pattern.alt portWord (.seq .boundary (quad.seq (lit ':')))).seq
    ((Pattern.group number).seq .boundary)

/-! ### The loops -/

def emplacePrefix (m : Match) (mb : MinedEcs) : Except (List Char) MinedEcs := do
  let net ← IPNetwork.parse m.whole
  return { mb with ecIpPrefixes := insert net mb.ecIpPrefixes }

def emplaceAddr (m : Match) (mb : MinedEcs) : Except (List Char) MinedEcs := do
  let addr ← IPv4Address.parse m.group
  return { mb with ecIpAddrs := insert addr mb.ecIpAddrs }

/-- `stoul` of digits. -/
def stoul (digits : List Char) : Except (List Char) Nat :=
  let n := Nat.ofDigitChars 10 digits 0
  if n < 2 ^ 64 then .ok n else .error "stoul".toList

def insertPort (m : Match) (mb : MinedEcs) : Except (List Char) MinedEcs := do
  let port ← stoul m.group
  return { mb with ecPorts := insert (BitVec.ofNat 16 port) mb.ecPorts }

/-- The loop over the matches in a text; `none` where it does not end in so many rounds. -/
def searchAll (r : Pattern) (emplace : Match → MinedEcs → Except (List Char) MinedEcs) :
    Nat → List Char → MinedEcs → Option (Except (List Char) MinedEcs)
  | 0, _, _ => none
  | fuel + 1, subject, mb =>
    match r.search subject with
    | none => some (.ok mb)
    | some m =>
      match emplace m mb with
      | .error e => some (.error e)
      | .ok mb => searchAll r emplace fuel m.suffix mb

def parseConfigString (fuel : Nat) (mb : MinedEcs) (config : List Char) :
    Option (Except (List Char) MinedEcs) := do
  match ← searchAll ipPrefixRegex emplacePrefix fuel config mb with
  | .error e => some (.error e)
  | .ok mb =>
    match ← searchAll ipAddrRegex emplaceAddr fuel config mb with
    | .error e => some (.error e)
    | .ok mb => searchAll portRegex insertPort fuel config mb

/-! ### What is written in a text -/

structure Quad where
  d₃ : List Char
  d₂ : List Char
  d₁ : List Char
  d₀ : List Char
  isDigit : ∀ d ∈ [d₃, d₂, d₁, d₀], d ≠ [] ∧ ∀ c ∈ d, c.isDigit = true
  short : ∀ d ∈ [d₃, d₂, d₁], d.length ≤ 3

namespace Quad

variable (q : Quad)

def text : List Char := q.d₃ ++ '.' :: (q.d₂ ++ '.' :: (q.d₁ ++ '.' :: q.d₀))

theorem text_append (post : List Char) :
    q.text ++ post = q.d₃ ++ '.' :: (q.d₂ ++ '.' :: (q.d₁ ++ '.' :: (q.d₀ ++ post))) := by
  simp [text]

def Denotes (a : IPv4Address) : Prop := q.d₀.length ≤ 3 ∧ DottedQuad q.text a

end Quad

/-- The text goes on with a separator and a digit. Of a text from its last character on: it ends
with a digit and a separator. -/
def Continues (sep : Char) (text : List Char) : Prop :=
  ∃ d rest, text = sep :: d :: rest ∧ d.isDigit = true

/-- What stands between these texts is no part of a longer word or dotted number. -/
structure Alone (before after : List Char) : Prop where
  wordBefore : Ends isWord before
  wordAfter : Ends isWord after
  dotBefore : ¬Continues '.' before
  dotAfter : ¬Continues '.' after

def NetworkAt (n : IPNetwork) (before after : List Char) : Prop :=
  ∃ (q : Quad) (d post : List Char), after = q.text ++ '/' :: (d ++ post) ∧ q.Denotes n.addr ∧
    IsNumber 32 d n.prefixLength ∧ Alone before post

def AddressAt (a : IPv4Address) (before after : List Char) : Prop :=
  ∃ (q : Quad) (post : List Char), after = q.text ++ post ∧ q.Denotes a ∧ Alone before post ∧
    ¬Continues '/' post

def PortLead (before lead : List Char) : Prop :=
  (∃ blanks, blanks ≠ [] ∧ (∀ c ∈ blanks, isBlank c = true) ∧ lead = "port".toList ++ blanks) ∨
    Ends isWord before ∧ ∃ (q : Quad) (a : IPv4Address), q.Denotes a ∧ lead = q.text ++ [':']

def PortAt (p : BitVec 16) (before after : List Char) : Prop :=
  ∃ lead d post, after = lead ++ (d ++ post) ∧ PortLead before lead ∧
    IsNumber 65535 d p.toNat ∧ 1 ≤ p.toNat ∧ Ends isWord post ∧ ¬Continues '.' post

def Mines (config : List Char) : Prop :=
  ∀ mb : MinedEcs, ∃ mb', parseConfigString (config.length + 1) mb config = some (.ok mb') ∧
    (∀ n, n ∈ mb'.ecIpPrefixes ↔ n ∈ mb.ecIpPrefixes ∨ Somewhere (NetworkAt n) [] config) ∧
    (∀ a, a ∈ mb'.ecIpAddrs ↔ a ∈ mb.ecIpAddrs ∨ Somewhere (AddressAt a) [] config) ∧
    mb.ecPorts ⊆ mb'.ecPorts ∧
    ∀ p ∈ mb'.ecPorts, p ∈ mb.ecPorts ∨ Somewhere (PortAt p) [] config

/-! ### The texts that are read right -/

/-- Four groups of digits with some text behind them: an address that stands alone with no slash
behind it, or, with a slash behind a last group of one digit, a network or neither. -/
inductive Quad.Clean (q : Quad) (before post : List Char) : Prop
  | address (a : IPv4Address) : q.Denotes a → Alone before post → '/' ∉ post.head? →
    Clean q before post
  | network (n : IPNetwork) (d post' : List Char) : q.d₀.length = 1 → post = '/' :: (d ++ post') →
    q.Denotes n.addr → IsNumber 32 d n.prefixLength → Alone before post' → Clean q before post
  | broken (d post' : List Char) (c : Char) : q.d₀.length = 1 → post = '/' :: (d ++ c :: post') →
    d ≠ [] → (∀ c ∈ d, c.isDigit = true) → isWord c = true → c.isDigit = false →
      Clean q before post
  | neither (post' : List Char) : q.d₀.length = 1 → post = '/' :: post' →
    Ends Char.isDigit post' → (∀ a, q.Denotes a → ¬Alone before post) → Clean q before post

structure CleanAt (before after : List Char) : Prop where
  quad : ∀ (q : Quad) (post : List Char), after = q.text ++ post → Ends Char.isDigit post →
    Ends isWord before → q.Clean before post
  port : ∀ lead d post, after = lead ++ (d ++ post) → PortLead before lead → d ≠ [] →
    (∀ c ∈ d, c.isDigit = true) → Ends isWord post →
      ¬Continues '.' post ∧ ∃ p : BitVec 16, IsNumber 65535 d p.toNat ∧ 1 ≤ p.toNat

/-- Every look-alike of an address or a network in the text is one, or is passed over, and every
look-alike of a port is a number from 1 to 65535. -/
def Clean (config : List Char) : Prop := Everywhere CleanAt [] config

end ConfigParser

end Neo
