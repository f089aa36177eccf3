import Neo.Ip
import Neo.Lib.Scanf

/-! Addresses, interfaces and networks as text. They are read with `sscanf`, which allows blanks
and signs before the numbers and truncates long ones; what was read is checked afterwards. -/

namespace Neo

open Scanf

/-! ### Printing -/

namespace IPv4Address

def octet (a : IPv4Address) (i : Nat) : Nat := ((a >>> (8 * i)) &&& 255#32).toNat

/-- `to_string`. -/
def toChars (a : IPv4Address) : List Char :=
  Nat.toDigits 10 (octet a 3) ++ '.' :: (Nat.toDigits 10 (octet a 2) ++
    '.' :: (Nat.toDigits 10 (octet a 1) ++ '.' :: Nat.toDigits 10 (octet a 0)))

end IPv4Address

namespace IPInterface

def toChars (i : IPInterface) : List Char :=
  IPv4Address.toChars i.addr ++ '/' :: Nat.toDigits 10 i.prefixLength

end IPInterface

namespace IPRange

def toChars (r : IPRange) : List Char :=
  '[' :: (IPv4Address.toChars r.lb ++ [',', ' '] ++ IPv4Address.toChars r.ub ++ [']'])

end IPRange

/-! ### Reading -/

/-- `%d.%d.%d.%d`. -/
def scanOctets (s : List Char) : Option (List Int × List Char) := do
  let (o₃, s) ← scanInt s
  let s ← scanChar '.' s
  let (o₂, s) ← scanInt s
  let s ← scanChar '.' s
  let (o₁, s) ← scanInt s
  let s ← scanChar '.' s
  let (o₀, s) ← scanInt s
  return ([o₃, o₂, o₁, o₀], s)

/-- `%d.%d.%d.%d/%d`. -/
def scanCidr (s : List Char) : Option (List Int × Int × List Char) := do
  let (octs, s) ← scanOctets s
  let s ← scanChar '/' s
  let (prefixLen, s) ← scanInt s
  return (octs, prefixLen, s)

/-- `parsed == (int)size`, where `%n` has stored how much was read. -/
def readWhole (s rest : List Char) : Bool :=
  BitVec.ofNat 32 (s.length - rest.length) == BitVec.ofNat 32 s.length

def appendOctet (value : IPv4Address) (oct : Int) : IPv4Address :=
  value <<< 8 + BitVec.ofInt 32 oct

def addOctet (value : IPv4Address) (oct : Int) : Except (List Char) IPv4Address :=
  if oct < 0 ∨ oct > 255 then .error ("Invalid IP octet: ".toList ++ oct.repr.toList)
  else .ok (appendOctet value oct)

def failedToParse (s : List Char) : List Char := "Failed to parse IP: ".toList ++ s

def IPv4Address.parse (ips : List Char) : Except (List Char) IPv4Address :=
  match scanOctets ips with
  | some (octs, rest) =>
    if readWhole ips rest then octs.foldlM addOctet 0#32 else .error (failedToParse ips)
  | none => .error (failedToParse ips)

def IPInterface.parse (cidr : List Char) : Except (List Char) IPInterface :=
  match scanCidr cidr with
  | some (octs, prefixLen, rest) =>
    -- what follows the numbers is an error
    if readWhole cidr rest then do
      let addr ← octs.foldlM addOctet 0#32
      if h : 0 ≤ prefixLen ∧ prefixLen ≤ 32 then
        return { addr := addr, prefixLength := prefixLen.toNat, le := by omega }
      else .error ("Invalid prefix length: ".toList ++ prefixLen.repr.toList)
    else .error (failedToParse cidr)
  | none => .error (failedToParse cidr)

def IPNetwork.parse (cidr : List Char) : Except (List Char) IPNetwork := do
  let i ← IPInterface.parse cidr
  if h : i.addr &&& hostMask i.prefixLength = 0#32 then return { i with isNetwork := h }
  else .error ("Invalid network: ".toList ++ i.toChars)

/-! ### The grammar -/

structure IsNumber (bound : Nat) (digits : List Char) (n : Nat) : Prop where
  ne : digits ≠ []
  isDigit : ∀ c ∈ digits, c.isDigit = true
  value : Nat.ofDigitChars 10 digits 0 = n
  le : n ≤ bound

/-- A text of four numbers up to 255, separated by dots, and the address that it denotes. -/
def DottedQuad (s : List Char) (a : IPv4Address) : Prop :=
  ∃ d₃ d₂ d₁ d₀ n₃ n₂ n₁ n₀, s = d₃ ++ '.' :: (d₂ ++ '.' :: (d₁ ++ '.' :: d₀)) ∧
    IsNumber 255 d₃ n₃ ∧ IsNumber 255 d₂ n₂ ∧ IsNumber 255 d₁ n₁ ∧ IsNumber 255 d₀ n₀ ∧
    a.toNat = ((n₃ * 256 + n₂) * 256 + n₁) * 256 + n₀

def Cidr (s : List Char) (i : IPInterface) : Prop :=
  ∃ t d, s = t ++ '/' :: d ∧ DottedQuad t i.addr ∧ IsNumber 32 d i.prefixLength

/-- Four numbers as `sscanf` reads them from the start of a text. -/
structure Reading (s : List Char) where
  n₃ : Numeral
  n₂ : Numeral
  n₁ : Numeral
  n₀ : Numeral
  rest : List Char
  text : s = n₃.text ++ '.' :: (n₂.text ++ '.' :: (n₁.text ++ '.' :: (n₀.text ++ rest)))
  stops : Stops rest

namespace Reading

variable {s : List Char}

def numerals (r : Reading s) : List Numeral := [r.n₃, r.n₂, r.n₁, r.n₀]

def octets (r : Reading s) : List Int := r.numerals.map Numeral.toInt

/-- Every number, as an `int`, is an octet. -/
def InRange (r : Reading s) : Prop := ∀ n ∈ r.numerals, 0 ≤ n.toInt ∧ n.toInt ≤ 255

/-- Every number is written with digits only, and is not above 255. -/
def Plain (r : Reading s) : Prop := ∀ n ∈ r.numerals, n.IsPlain 255

end Reading

/-- An address and a further number as `sscanf` reads them. -/
structure CidrReading (s : List Char) extends Reading s where
  n : Numeral
  tail : List Char
  slash : rest = '/' :: (n.text ++ tail)
  tailStops : Stops tail

/-! ### What is read -/

theorem scanOctets_eq_some {s rest : List Char} {octs : List Int} :
    scanOctets s = some (octs, rest) ↔ ∃ r : Reading s, r.octets = octs ∧ r.rest = rest := by
  simp only [scanOctets, Option.bind_eq_bind, Option.bind_eq_some_iff, Prod.exists,
    Option.pure_def, Option.some.injEq, Prod.mk.injEq]
  constructor
  · rintro ⟨o₃, s₃, h₃, t₃, c₃, o₂, s₂, h₂, t₂, c₂, o₁, s₁, h₁, t₁, c₁, o₀, s₀, h₀, rfl, rfl⟩
    obtain ⟨n₃, rfl, rfl, -⟩ := scanInt_eq_some.mp h₃
    obtain rfl := scanChar_eq_some.mp c₃
    obtain ⟨n₂, rfl, rfl, -⟩ := scanInt_eq_some.mp h₂
    obtain rfl := scanChar_eq_some.mp c₂
    obtain ⟨n₁, rfl, rfl, -⟩ := scanInt_eq_some.mp h₁
    obtain rfl := scanChar_eq_some.mp c₁
    obtain ⟨n₀, rfl, rfl, hstops⟩ := scanInt_eq_some.mp h₀
    exact ⟨⟨n₃, n₂, n₁, n₀, s₀, rfl, hstops⟩, rfl, rfl⟩
  · rintro ⟨⟨n₃, n₂, n₁, n₀, rest, rfl, hstops⟩, rfl, rfl⟩
    have hdot : ∀ s, Stops ('.' :: s) := fun s => stops_cons.mpr (by decide)
    exact ⟨_, _, scanInt_eq_some.mpr ⟨n₃, rfl, rfl, hdot _⟩, _, scanChar_eq_some.mpr rfl,
      _, _, scanInt_eq_some.mpr ⟨n₂, rfl, rfl, hdot _⟩, _, scanChar_eq_some.mpr rfl,
      _, _, scanInt_eq_some.mpr ⟨n₁, rfl, rfl, hdot _⟩, _, scanChar_eq_some.mpr rfl,
      _, _, scanInt_eq_some.mpr ⟨n₀, rfl, rfl, hstops⟩, rfl, rfl⟩

theorem scanCidr_eq_some {s rest : List Char} {octs : List Int} {prefixLen : Int} :
    scanCidr s = some (octs, prefixLen, rest) ↔
      ∃ r : CidrReading s, r.octets = octs ∧ r.n.toInt = prefixLen ∧ r.tail = rest := by
  simp only [scanCidr, Option.bind_eq_bind, Option.bind_eq_some_iff, Prod.exists,
    Option.pure_def, Option.some.injEq, Prod.mk.injEq]
  constructor
  · rintro ⟨octs, s₁, h₁, s₂, h₂, p, s₃, h₃, rfl, rfl, rfl⟩
    obtain ⟨r, rfl, rfl⟩ := scanOctets_eq_some.mp h₁
    obtain ⟨n, rfl, rfl, hstops⟩ := scanInt_eq_some.mp h₃
    exact ⟨⟨r, n, s₃, scanChar_eq_some.mp h₂, hstops⟩, rfl, rfl, rfl⟩
  · rintro ⟨⟨r, n, tail, hslash, hstops⟩, rfl, rfl, rfl⟩
    exact ⟨_, _, scanOctets_eq_some.mpr ⟨r, rfl, rfl⟩, _, scanChar_eq_some.mpr hslash, _, _,
      scanInt_eq_some.mpr ⟨n, rfl, rfl, hstops⟩, rfl, rfl, rfl⟩

def ofOctets (octs : List Int) : IPv4Address := octs.foldl appendOctet 0#32

theorem foldlM_addOctet {octs : List Int} {a v : IPv4Address} :
    octs.foldlM addOctet v = .ok a ↔ (∀ o ∈ octs, 0 ≤ o ∧ o ≤ 255) ∧
      octs.foldl appendOctet v = a := by
  induction octs generalizing v with
  | nil => simp [pure, Except.pure]
  | cons o octs ih =>
    rw [List.foldlM_cons, List.foldl_cons, addOctet]
    split
    · rename_i hout
      refine iff_of_false (by simp [bind, Except.bind]) fun h => ?_
      have := h.1 o (List.mem_cons_self ..)
      omega
    · rename_i hin
      refine Iff.trans ih ?_
      rw [List.forall_mem_cons]
      exact and_congr_left fun _ => (and_iff_right (by omega)).symm

theorem toNat_ofOctets {o₃ o₂ o₁ o₀ : Int} (h₃ : 0 ≤ o₃ ∧ o₃ ≤ 255) (h₂ : 0 ≤ o₂ ∧ o₂ ≤ 255)
    (h₁ : 0 ≤ o₁ ∧ o₁ ≤ 255) (h₀ : 0 ≤ o₀ ∧ o₀ ≤ 255) :
    (ofOctets [o₃, o₂, o₁, o₀]).toNat =
      ((o₃.toNat * 256 + o₂.toNat) * 256 + o₁.toNat) * 256 + o₀.toNat := by
  have hstep : ∀ (v : IPv4Address) (o : Int), 0 ≤ o ∧ o ≤ 255 →
      (appendOctet v o).toNat = (v.toNat * 256 + o.toNat) % 2 ^ 32 := by
    intro v o ho
    rw [appendOctet, BitVec.toNat_add, BitVec.toNat_shiftLeft, BitVec.toNat_ofInt, Nat.shiftLeft_eq]
    omega
  simp only [ofOctets, List.foldl_cons, List.foldl_nil, hstep _ _ h₃, hstep _ _ h₂, hstep _ _ h₁,
    hstep _ _ h₀]
  simp only [BitVec.toNat_ofNat]
  omega

theorem readWhole_iff {s t rest : List Char} (h : s = t ++ rest) :
    readWhole s rest = true ↔ 2 ^ 32 ∣ rest.length := by
  have hlen : s.length = t.length + rest.length := by rw [h, List.length_append]
  rw [readWhole, beq_iff_eq, ← BitVec.toNat_inj, BitVec.toNat_ofNat, BitVec.toNat_ofNat, hlen]
  omega

namespace Reading

variable {s : List Char}

theorem readWhole_iff (r : Reading s) : readWhole s r.rest = true ↔ 2 ^ 32 ∣ r.rest.length := by
  refine Neo.readWhole_iff (t := r.n₃.text ++ '.' :: (r.n₂.text ++ '.' :: (r.n₁.text ++
    '.' :: r.n₀.text))) ?_
  simpa using r.text

theorem inRange_iff (r : Reading s) : r.InRange ↔ ∀ o ∈ r.octets, 0 ≤ o ∧ o ≤ 255 := by
  rw [InRange, octets, List.forall_mem_map]

theorem plain_of_plain (r : Reading s) {q : Reading s} (h : q.Plain) :
    r.Plain ∧ r.rest = q.rest := by
  have hdot : ∀ s, Stops ('.' :: s) := fun s => stops_cons.mpr (by decide)
  obtain ⟨e₃, t₃⟩ := Numeral.append_inj (r.text.symm.trans q.text) (hdot _) (hdot _)
  obtain ⟨e₂, t₂⟩ := Numeral.append_inj (List.cons.inj t₃).2 (hdot _) (hdot _)
  obtain ⟨e₁, t₁⟩ := Numeral.append_inj (List.cons.inj t₂).2 (hdot _) (hdot _)
  obtain ⟨e₀, t₀⟩ := Numeral.append_inj (List.cons.inj t₁).2 r.stops q.stops
  simp only [Plain, numerals, List.forall_mem_cons, List.not_mem_nil, false_imp_iff,
    forall_true_iff, and_true] at h ⊢
  exact ⟨⟨h.1.of_text_eq e₃, h.2.1.of_text_eq e₂, h.2.2.1.of_text_eq e₁,
    h.2.2.2.of_text_eq e₀⟩, t₀⟩

theorem inRange_of_plain {r : Reading s} (h : r.Plain) : r.InRange := fun n hn => by
  have hplain := h n hn
  have hle := hplain.value
  rw [Numeral.toInt_of_plain hplain (by decide)]
  omega

end Reading

namespace CidrReading

variable {s : List Char}

theorem readWhole_tail (r : CidrReading s) :
    readWhole s r.tail = true ↔ 2 ^ 32 ∣ r.tail.length := by
  refine readWhole_iff (t := r.n₃.text ++ '.' :: (r.n₂.text ++ '.' :: (r.n₁.text ++
    '.' :: (r.n₀.text ++ '/' :: r.n.text)))) ?_
  simpa [r.slash] using r.text

theorem plain_of_plain (r : CidrReading s) {q : CidrReading s} (h : q.Plain)
    (hn : q.n.IsPlain 32) (htail : q.tail = []) :
    r.Plain ∧ r.n.IsPlain 32 ∧ r.tail = [] := by
  obtain ⟨hplain, hrest⟩ := r.toReading.plain_of_plain h
  rw [r.slash, q.slash] at hrest
  obtain ⟨htext, htails⟩ := Numeral.append_inj (List.cons.inj hrest).2 r.tailStops q.tailStops
  exact ⟨hplain, hn.of_text_eq htext, htails.trans htail⟩

end CidrReading

theorem IsNumber.exists_numeral {bound n : Nat} {digits : List Char} (h : IsNumber bound digits n) :
    ∃ m : Numeral, m.IsPlain bound ∧ m.text = digits ∧ m.value = n :=
  ⟨.ofDigits digits h.isDigit h.ne, ⟨rfl, rfl, h.value ▸ h.le⟩, rfl, h.value⟩

theorem IsNumber.of_plain {bound : Nat} {m : Numeral} (h : m.IsPlain bound) :
    IsNumber bound m.text m.value := by
  rw [Numeral.text_of_plain h]
  exact ⟨m.ne, m.isDigit, rfl, h.value⟩

theorem dottedQuad_iff {s : List Char} {a : IPv4Address} :
    DottedQuad s a ↔ ∃ r : Reading s, r.Plain ∧ r.rest = [] ∧ a = ofOctets r.octets := by
  have hvalue : ∀ {m₃ m₂ m₁ m₀ : Numeral}, m₃.IsPlain 255 → m₂.IsPlain 255 → m₁.IsPlain 255 →
      m₀.IsPlain 255 → (ofOctets [m₃.toInt, m₂.toInt, m₁.toInt, m₀.toInt]).toNat =
        ((m₃.value * 256 + m₂.value) * 256 + m₁.value) * 256 + m₀.value := by
    intro m₃ m₂ m₁ m₀ h₃ h₂ h₁ h₀
    have hint : ∀ {m : Numeral}, m.IsPlain 255 → 0 ≤ m.toInt ∧ m.toInt ≤ 255 ∧
        m.toInt.toNat = m.value := fun h => by
      have := h.value
      rw [Numeral.toInt_of_plain h (by decide)]
      omega
    rw [toNat_ofOctets ⟨(hint h₃).1, (hint h₃).2.1⟩ ⟨(hint h₂).1, (hint h₂).2.1⟩
      ⟨(hint h₁).1, (hint h₁).2.1⟩ ⟨(hint h₀).1, (hint h₀).2.1⟩, (hint h₃).2.2, (hint h₂).2.2,
      (hint h₁).2.2, (hint h₀).2.2]
  constructor
  · rintro ⟨d₃, d₂, d₁, d₀, n₃, n₂, n₁, n₀, rfl, h₃, h₂, h₁, h₀, ha⟩
    obtain ⟨m₃, p₃, rfl, rfl⟩ := h₃.exists_numeral
    obtain ⟨m₂, p₂, rfl, rfl⟩ := h₂.exists_numeral
    obtain ⟨m₁, p₁, rfl, rfl⟩ := h₁.exists_numeral
    obtain ⟨m₀, p₀, rfl, rfl⟩ := h₀.exists_numeral
    refine ⟨⟨m₃, m₂, m₁, m₀, [], by simp, stops_nil⟩, ?_, rfl, BitVec.eq_of_toNat_eq ?_⟩
    · simp [Reading.Plain, Reading.numerals, p₃, p₂, p₁, p₀]
    · rw [ha]
      exact (hvalue p₃ p₂ p₁ p₀).symm
  · rintro ⟨⟨m₃, m₂, m₁, m₀, rest, rfl, hstops⟩, hplain, rfl, rfl⟩
    simp only [Reading.Plain, Reading.numerals, List.forall_mem_cons, List.not_mem_nil,
      false_imp_iff, forall_true_iff, and_true] at hplain
    obtain ⟨p₃, p₂, p₁, p₀⟩ := hplain
    exact ⟨m₃.text, m₂.text, m₁.text, m₀.text, _, _, _, _, by simp, .of_plain p₃, .of_plain p₂,
      .of_plain p₁, .of_plain p₀, hvalue p₃ p₂ p₁ p₀⟩

theorem IPv4Address.parse_eq_ok {s : List Char} {a : IPv4Address} :
    IPv4Address.parse s = .ok a ↔
      ∃ r : Reading s, 2 ^ 32 ∣ r.rest.length ∧ r.InRange ∧ a = ofOctets r.octets := by
  rw [IPv4Address.parse]
  cases hscan : scanOctets s with
  | none =>
    refine iff_of_false (by simp) ?_
    rintro ⟨r, -⟩
    have := scanOctets_eq_some.mpr ⟨r, rfl, rfl⟩
    rw [hscan] at this
    cases this
  | some p =>
    obtain ⟨octs, rest⟩ := p
    have huniq : ∀ q : Reading s, q.octets = octs ∧ q.rest = rest := fun q => by
      have := hscan.symm.trans (scanOctets_eq_some.mpr ⟨q, rfl, rfl⟩)
      obtain ⟨h₁, h₂⟩ := Prod.mk.inj (Option.some.inj this)
      exact ⟨h₁.symm, h₂.symm⟩
    obtain ⟨r, rfl, rfl⟩ := scanOctets_eq_some.mp hscan
    simp only
    split
    · rename_i hwhole
      rw [foldlM_addOctet, ← r.inRange_iff]
      constructor
      · rintro ⟨hrange, rfl⟩
        exact ⟨r, r.readWhole_iff.mp hwhole, hrange, rfl⟩
      · rintro ⟨q, -, hrange, rfl⟩
        rw [q.inRange_iff, (huniq q).1, ← r.inRange_iff] at hrange
        exact ⟨hrange, by rw [(huniq q).1]; rfl⟩
    · rename_i hwhole
      refine iff_of_false (by simp) ?_
      rintro ⟨q, hdvd, -⟩
      rw [(huniq q).2, ← r.readWhole_iff] at hdvd
      exact hwhole hdvd

theorem IPInterface.parse_eq_ok {s : List Char} {i : IPInterface} :
    IPInterface.parse s = .ok i ↔ ∃ r : CidrReading s, 2 ^ 32 ∣ r.tail.length ∧ r.InRange ∧
      i.addr = ofOctets r.octets ∧ r.n.toInt = i.prefixLength := by
  rw [IPInterface.parse]
  cases hscan : scanCidr s with
  | none =>
    refine iff_of_false (by simp) ?_
    rintro ⟨r, -⟩
    have := scanCidr_eq_some.mpr ⟨r, rfl, rfl, rfl⟩
    rw [hscan] at this
    cases this
  | some p =>
    obtain ⟨octs, prefixLen, rest⟩ := p
    -- a text has one reading only
    have huniq : ∀ q : CidrReading s, q.octets = octs ∧ q.n.toInt = prefixLen ∧ q.tail = rest :=
      fun q => by
        have := hscan.symm.trans (scanCidr_eq_some.mpr ⟨q, rfl, rfl, rfl⟩)
        obtain ⟨h₁, h₂⟩ := Prod.mk.inj (Option.some.inj this)
        obtain ⟨h₂, h₃⟩ := Prod.mk.inj h₂
        exact ⟨h₁.symm, h₂.symm, h₃.symm⟩
    obtain ⟨r, rfl, rfl, rfl⟩ := scanCidr_eq_some.mp hscan
    simp only
    split
    · rename_i hwhole
      cases haddr : r.octets.foldlM addOctet 0#32 with
      | error e =>
        refine iff_of_false (by simp [bind, Except.bind]) ?_
        rintro ⟨q, -, hrange, -⟩
        rw [q.toReading.inRange_iff, (huniq q).1] at hrange
        rw [foldlM_addOctet.mpr ⟨hrange, rfl⟩] at haddr
        cases haddr
      | ok a =>
        obtain ⟨hrange, rfl⟩ := foldlM_addOctet.mp haddr
        rw [← r.toReading.inRange_iff] at hrange
        simp only [bind, Except.bind, pure, Except.pure]
        split
        · rename_i hfits
          constructor
          · rintro hi
            obtain rfl := Except.ok.inj hi
            exact ⟨r, r.readWhole_tail.mp hwhole, hrange, rfl, by simp [hfits.1]⟩
          · rintro ⟨q, -, -, haddr, hlen⟩
            rw [(huniq q).1] at haddr
            rw [(huniq q).2.1] at hlen
            obtain ⟨addr, len, le⟩ := i
            simp only at haddr hlen
            subst haddr
            simp only [hlen, Int.toNat_natCast]
            rfl
        · rename_i hfits
          refine iff_of_false (by simp) ?_
          rintro ⟨q, -, -, -, hlen⟩
          rw [(huniq q).2.1] at hlen
          have := i.le
          omega
    · rename_i hwhole
      refine iff_of_false (by simp) ?_
      rintro ⟨q, hdvd, -⟩
      rw [(huniq q).2.2, ← r.readWhole_tail] at hdvd
      exact hwhole hdvd

theorem cidr_iff {s : List Char} {i : IPInterface} :
    Cidr s i ↔ ∃ r : CidrReading s, r.Plain ∧ r.n.IsPlain 32 ∧ r.tail = [] ∧
      i.addr = ofOctets r.octets ∧ r.n.value = i.prefixLength := by
  constructor
  · rintro ⟨t, d, rfl, hquad, hd⟩
    obtain ⟨r, hplain, hrest, haddr⟩ := dottedQuad_iff.mp hquad
    obtain ⟨n, hn, rfl, hvalue⟩ := hd.exists_numeral
    have htext := r.text
    rw [hrest, List.append_nil] at htext
    exact ⟨⟨⟨r.n₃, r.n₂, r.n₁, r.n₀, '/' :: n.text, by simp [htext], stops_cons.mpr (by decide)⟩,
      n, [], by simp, stops_nil⟩, hplain, hn, rfl, haddr, hvalue⟩
  · rintro ⟨r, hplain, hn, htail, haddr, hvalue⟩
    have htext := r.text
    rw [r.slash, htail, List.append_nil] at htext
    exact ⟨r.n₃.text ++ '.' :: (r.n₂.text ++ '.' :: (r.n₁.text ++ '.' :: r.n₀.text)), r.n.text,
      by simpa using htext,
      dottedQuad_iff.mpr ⟨⟨r.n₃, r.n₂, r.n₁, r.n₀, [], by simp, stops_nil⟩, hplain, rfl, haddr⟩,
      hvalue ▸ .of_plain hn⟩

/-- The text is not a dotted quad, and is read as an address: some number has blanks or a sign, or
is too long and is an octet after it is truncated, or as many characters follow as an `int`
cannot count. -/
def Misread (s : List Char) : Prop :=
  ∃ r : Reading s, 2 ^ 32 ∣ r.rest.length ∧ r.InRange ∧ ¬(r.Plain ∧ r.rest = [])

def MisreadCidr (s : List Char) : Prop :=
  ∃ r : CidrReading s, 2 ^ 32 ∣ r.tail.length ∧ r.InRange ∧ (0 ≤ r.n.toInt ∧ r.n.toInt ≤ 32) ∧
    ¬(r.Plain ∧ r.n.IsPlain 32 ∧ r.tail = [])

theorem DottedQuad.parse {s : List Char} {a : IPv4Address} (h : DottedQuad s a) :
    IPv4Address.parse s = .ok a := by
  obtain ⟨r, hplain, hrest, ha⟩ := dottedQuad_iff.mp h
  exact IPv4Address.parse_eq_ok.mpr ⟨r, by simp [hrest], Reading.inRange_of_plain hplain, ha⟩

theorem Cidr.parse {s : List Char} {i : IPInterface} (h : Cidr s i) :
    IPInterface.parse s = .ok i := by
  obtain ⟨r, hplain, hn, htail, haddr, hvalue⟩ := cidr_iff.mp h
  refine IPInterface.parse_eq_ok.mpr
    ⟨r, by simp [htail], Reading.inRange_of_plain hplain, haddr, ?_⟩
  rw [Numeral.toInt_of_plain hn (by decide), hvalue]

theorem parsesQuads_iff (s : List Char) :
    (∀ a, IPv4Address.parse s = .ok a ↔ DottedQuad s a) ↔ ¬Misread s := by
  constructor
  · rintro h ⟨r, hdvd, hrange, hnot⟩
    have hquad := (h _).mp (IPv4Address.parse_eq_ok.mpr ⟨r, hdvd, hrange, rfl⟩)
    obtain ⟨q, hplain, hrest, -⟩ := dottedQuad_iff.mp hquad
    obtain ⟨hr, heq⟩ := r.plain_of_plain hplain
    exact hnot ⟨hr, heq.trans hrest⟩
  · refine fun h a => ⟨fun hparse => ?_, DottedQuad.parse⟩
    obtain ⟨r, hdvd, hrange, ha⟩ := IPv4Address.parse_eq_ok.mp hparse
    have hplain : r.Plain ∧ r.rest = [] := by
      by_contra hnot
      exact h ⟨r, hdvd, hrange, hnot⟩
    exact dottedQuad_iff.mpr ⟨r, hplain.1, hplain.2, ha⟩

theorem parsesCidrs_iff (s : List Char) :
    (∀ i, IPInterface.parse s = .ok i ↔ Cidr s i) ↔ ¬MisreadCidr s := by
  constructor
  · rintro h ⟨r, hdvd, hrange, hn, hnot⟩
    have hlen : r.n.toInt = (r.n.toInt.toNat : Int) := by omega
    have hcidr := (h ⟨ofOctets r.octets, r.n.toInt.toNat, by omega⟩).mp
      (IPInterface.parse_eq_ok.mpr ⟨r, hdvd, hrange, rfl, hlen⟩)
    obtain ⟨q, hplain, hqn, htail, -⟩ := cidr_iff.mp hcidr
    exact hnot (r.plain_of_plain hplain hqn htail)
  · refine fun h i => ⟨fun hparse => ?_, Cidr.parse⟩
    obtain ⟨r, hdvd, hrange, haddr, hlen⟩ := IPInterface.parse_eq_ok.mp hparse
    have hle := i.le
    have hplain : r.Plain ∧ r.n.IsPlain 32 ∧ r.tail = [] := by
      by_contra hnot
      exact h ⟨r, hdvd, hrange, by omega, hnot⟩
    refine cidr_iff.mpr ⟨r, hplain.1, hplain.2.1, hplain.2.2, haddr, ?_⟩
    rw [Numeral.toInt_of_plain hplain.2.1 (by decide)] at hlen
    exact_mod_cast hlen

/-! ### Printing and reading -/

theorem isNumber_toDigits {n bound : Nat} (h : n ≤ bound) :
    IsNumber bound (Nat.toDigits 10 n) n :=
  ⟨Nat.toDigits_ne_nil, fun _ hc => Nat.isDigit_of_mem_toDigits (by decide) (by decide) hc,
    Nat.ofDigitChars_ten_toDigits, h⟩

theorem dottedQuad_toChars (a : IPv4Address) : DottedQuad a.toChars a := by
  have hoctet : ∀ i, IPv4Address.octet a i = a.toNat / 2 ^ (8 * i) % 256 := fun i => by
    rw [IPv4Address.octet, BitVec.toNat_and, BitVec.toNat_ushiftRight, Nat.shiftRight_eq_div_pow]
    exact Nat.and_two_pow_sub_one_eq_mod _ 8
  have hle : ∀ i, IPv4Address.octet a i ≤ 255 := fun i => by
    rw [hoctet]
    omega
  refine ⟨_, _, _, _, _, _, _, _, rfl, isNumber_toDigits (hle 3), isNumber_toDigits (hle 2),
    isNumber_toDigits (hle 1), isNumber_toDigits (hle 0), ?_⟩
  simp only [hoctet]
  have := a.isLt
  omega

theorem cidr_toChars (i : IPInterface) : Cidr i.toChars i :=
  ⟨_, _, rfl, dottedQuad_toChars i.addr, isNumber_toDigits i.le⟩

theorem IPNetwork.parse_toChars (n : IPNetwork) :
    IPNetwork.parse n.toIPInterface.toChars = .ok n := by
  rw [IPNetwork.parse, (cidr_toChars n.toIPInterface).parse]
  exact dif_pos n.isNetwork

/-- What the constructors from a text accept and what they yield, and that what is printed is read
back. -/
theorem parse_iff (s : List Char) (a : IPv4Address) (i : IPInterface) (n : IPNetwork) :
    ((∀ a, IPv4Address.parse s = .ok a ↔ DottedQuad s a) ↔ ¬Misread s) ∧
    ((∀ i, IPInterface.parse s = .ok i ↔ Cidr s i) ↔ ¬MisreadCidr s) ∧
    IPv4Address.parse a.toChars = .ok a ∧ IPInterface.parse i.toChars = .ok i ∧
    IPNetwork.parse n.toIPInterface.toChars = .ok n :=
  ⟨parsesQuads_iff s, parsesCidrs_iff s, (dottedQuad_toChars a).parse, (cidr_toChars i).parse,
    n.parse_toChars⟩

theorem misread_overlong : Misread "4294967297.0.0.0".toList := by
  refine ⟨⟨.ofDigits "4294967297".toList (List.all_eq_true.mp (by decide)) (by decide),
    .ofDigits ['0'] (List.all_eq_true.mp (by decide)) (by decide),
    .ofDigits ['0'] (List.all_eq_true.mp (by decide)) (by decide),
    .ofDigits ['0'] (List.all_eq_true.mp (by decide)) (by decide), [], by decide, stops_nil⟩,
    by decide, ?_, ?_⟩
  · unfold Reading.InRange
    decide
  · rintro ⟨hplain, -⟩
    exact absurd (hplain _ (List.mem_cons_self ..)).value (by decide)

theorem not_parsesQuads :
    ¬∀ a, IPv4Address.parse "4294967297.0.0.0".toList = .ok a ↔
      DottedQuad "4294967297.0.0.0".toList a :=
  fun h => (parsesQuads_iff _).mp h misread_overlong

end Neo
