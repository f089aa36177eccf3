import Mathlib.Algebra.Ring.Int.Defs
import Mathlib.Algebra.Ring.Nat
import Mathlib.Data.List.TakeWhile
import Mathlib.Tactic.Common

/-! The integer conversion of `sscanf`. Blanks and a sign may precede the digits. The number is
converted to 64 bits, where it saturates, and is then truncated to 32 bits. -/

namespace Scanf

def isBlank (c : Char) : Bool := c ∈ [' ', '\t', '\n', '\x0b', '\x0c', '\r']

inductive Sign
  | none
  | plus
  | minus
deriving DecidableEq

def Sign.text : Sign → List Char
  | none => []
  | plus => ['+']
  | minus => ['-']

/-- What `strtol` yields, truncated to an `int`. -/
def toInt (sign : Sign) (digits : List Char) : Int :=
  let n : Int := Nat.ofDigitChars 10 digits 0
  let long := if sign = .minus then max (-2 ^ 63) (-n) else min (2 ^ 63 - 1) n
  (BitVec.ofInt 32 long).toInt

def scanSign : List Char → Sign × List Char
  | '+' :: s => (.plus, s)
  | '-' :: s => (.minus, s)
  | s => (.none, s)

/-- `%d`: the number, and the rest of the text. -/
def scanInt (s : List Char) : Option (Int × List Char) :=
  let s := scanSign (s.dropWhile isBlank)
  let digits := s.2.takeWhile Char.isDigit
  if digits = [] then none else some (toInt s.1 digits, s.2.dropWhile Char.isDigit)

def scanChar (c : Char) : List Char → Option (List Char)
  | [] => none
  | d :: s => if d = c then some s else none

/-- A text that `%d` reads. -/
structure Numeral where
  blanks : List Char
  sign : Sign
  digits : List Char
  isBlank : ∀ c ∈ blanks, isBlank c = true
  isDigit : ∀ c ∈ digits, c.isDigit = true
  ne : digits ≠ []

namespace Numeral

def text (n : Numeral) : List Char := n.blanks ++ (n.sign.text ++ n.digits)

def value (n : Numeral) : Nat := Nat.ofDigitChars 10 n.digits 0

def toInt (n : Numeral) : Int := Scanf.toInt n.sign n.digits

structure IsPlain (n : Numeral) (bound : Nat) : Prop where
  blanks : n.blanks = []
  sign : n.sign = .none
  value : n.value ≤ bound

end Numeral

def Stops (s : List Char) : Prop := ∀ c ∈ s.head?, c.isDigit = false

theorem stops_nil : Stops [] := by simp [Stops]

theorem stops_cons {c : Char} {s : List Char} : Stops (c :: s) ↔ c.isDigit = false := by
  simp [Stops]

theorem isDigit_of_isBlank {c : Char} (h : isBlank c = true) : c.isDigit = false := by
  simp only [isBlank, List.mem_cons, List.not_mem_nil, or_false, decide_eq_true_eq] at h
  rcases h with rfl | rfl | rfl | rfl | rfl | rfl <;> rfl

theorem dropWhile_of_head {p : Char → Bool} {s : List Char} (h : ∀ c ∈ s.head?, p c = false) :
    s.dropWhile p = s := by
  cases s with
  | nil => rfl
  | cons c s => rw [List.dropWhile_cons_of_neg (by simp [h c rfl])]

theorem head_dropWhile {p : Char → Bool} (s : List Char) :
    ∀ c ∈ (s.dropWhile p).head?, p c = false := by
  intro c hc
  have := List.head?_dropWhile_not p s
  rw [Option.mem_def.mp hc] at this
  simpa using this

theorem scanSign_eq (s : List Char) : (scanSign s).1.text ++ (scanSign s).2 = s := by
  unfold scanSign
  split <;> rfl

theorem scanSign_text {sign : Sign} {digits rest : List Char}
    (hdigit : ∀ c ∈ digits, c.isDigit = true) (hne : digits ≠ []) :
    scanSign (sign.text ++ (digits ++ rest)) = (sign, digits ++ rest) := by
  cases sign with
  | plus => rfl
  | minus => rfl
  | none =>
    obtain ⟨c, digits, rfl⟩ := List.exists_cons_of_ne_nil hne
    have hc := hdigit c (List.mem_cons_self ..)
    show scanSign (c :: (digits ++ rest)) = _
    unfold scanSign
    split
    · simp_all [Char.isDigit]
    · simp_all [Char.isDigit]
    · rfl

theorem head_sign_digits {sign : Sign} {digits rest : List Char}
    (hdigit : ∀ c ∈ digits, c.isDigit = true) (hne : digits ≠ []) :
    ∀ c ∈ (sign.text ++ (digits ++ rest)).head?, isBlank c = false := by
  obtain ⟨d, digits, rfl⟩ := List.exists_cons_of_ne_nil hne
  have hd := hdigit d (List.mem_cons_self ..)
  intro c hc
  cases sign with
  | none =>
    obtain rfl : d = c := by simpa [Sign.text] using hc
    by_contra hblank
    rw [isDigit_of_isBlank (Bool.not_eq_false _ ▸ hblank)] at hd
    exact Bool.false_ne_true hd
  | plus =>
    obtain rfl : '+' = c := by simpa [Sign.text] using hc
    rfl
  | minus =>
    obtain rfl : '-' = c := by simpa [Sign.text] using hc
    rfl

theorem scanInt_eq_some {s rest : List Char} {i : Int} :
    scanInt s = some (i, rest) ↔
      ∃ n : Numeral, s = n.text ++ rest ∧ n.toInt = i ∧ Stops rest := by
  constructor
  · intro h
    have hsign := scanSign_eq (s.dropWhile isBlank)
    simp only [scanInt] at h
    set t := scanSign (s.dropWhile isBlank) with ht
    split at h
    · cases h
    rename_i hne
    have hpair := Prod.mk.inj (Option.some.inj h)
    refine ⟨⟨s.takeWhile isBlank, t.1, t.2.takeWhile Char.isDigit,
      fun c hc => List.mem_takeWhile_imp hc, fun c hc => List.mem_takeWhile_imp hc, hne⟩, ?_,
      hpair.1, hpair.2 ▸ head_dropWhile t.2⟩
    rw [Numeral.text, ← hpair.2, List.append_assoc, List.append_assoc,
      List.takeWhile_append_dropWhile, hsign, List.takeWhile_append_dropWhile]
  · rintro ⟨n, rfl, rfl, hstops⟩
    have hdrop : (n.text ++ rest).dropWhile isBlank = n.sign.text ++ (n.digits ++ rest) := by
      rw [Numeral.text, List.append_assoc, List.append_assoc,
        List.dropWhile_append_of_pos n.isBlank]
      exact dropWhile_of_head (head_sign_digits n.isDigit n.ne)
    have htake : (n.digits ++ rest).takeWhile Char.isDigit = n.digits := by
      rw [List.takeWhile_append_of_pos n.isDigit]
      cases rest with
      | nil => simp
      | cons c rest =>
        rw [List.takeWhile_cons_of_neg (by simp [stops_cons.mp hstops]), List.append_nil]
    have hrest : (n.digits ++ rest).dropWhile Char.isDigit = rest := by
      rw [List.dropWhile_append_of_pos n.isDigit]
      exact dropWhile_of_head hstops
    simp only [scanInt, hdrop, scanSign_text n.isDigit n.ne, htake, hrest, if_neg n.ne]
    rfl

theorem scanChar_eq_some {c : Char} {s rest : List Char} :
    scanChar c s = some rest ↔ s = c :: rest := by
  cases s with
  | nil => simp [scanChar]
  | cons d s =>
    rw [scanChar]
    split
    · simp_all
    · simp_all

namespace Numeral

def ofDigits (digits : List Char) (h : ∀ c ∈ digits, c.isDigit = true) (hne : digits ≠ []) :
    Numeral := ⟨[], .none, digits, by simp, h, hne⟩

theorem text_of_plain {n : Numeral} {bound : Nat} (h : n.IsPlain bound) : n.text = n.digits := by
  rw [text, h.blanks, h.sign]
  rfl

theorem toInt_of_plain {n : Numeral} {bound : Nat} (h : n.IsPlain bound) (hb : bound < 2 ^ 31) :
    n.toInt = n.value := by
  have hv := h.value
  have hlong : min (2 ^ 63 - 1) (n.value : Int) = n.value := by
    omega
  rw [toInt, Scanf.toInt, h.sign]
  simp only [reduceCtorEq, if_false]
  rw [← value, hlong, BitVec.toInt_ofInt, Int.bmod_eq_of_le (by omega) (by omega)]

theorem append_inj {n m : Numeral} {s t : List Char} (h : n.text ++ s = m.text ++ t)
    (hs : Stops s) (ht : Stops t) : n.text = m.text ∧ s = t := by
  have hn : scanInt (n.text ++ s) = some (n.toInt, s) := scanInt_eq_some.mpr ⟨n, rfl, rfl, hs⟩
  have hm : scanInt (n.text ++ s) = some (m.toInt, t) := scanInt_eq_some.mpr ⟨m, h, rfl, ht⟩
  have hst : s = t := (Prod.mk.inj (Option.some.inj (hn.symm.trans hm))).2
  subst hst
  exact ⟨List.append_cancel_right h, rfl⟩

theorem blanks_sign_of_isDigit {n : Numeral} (h : ∀ c ∈ n.text, c.isDigit = true) :
    n.blanks = [] ∧ n.sign = .none := by
  refine ⟨?_, ?_⟩
  · refine List.eq_nil_iff_forall_not_mem.mpr fun c hc => ?_
    have hdigit := h c (List.mem_append_left _ hc)
    rw [isDigit_of_isBlank (n.isBlank c hc)] at hdigit
    exact Bool.false_ne_true hdigit
  · cases hs : n.sign with
    | none => rfl
    | plus =>
      exact absurd (h '+' (by simp [text, hs, Sign.text])) (by decide)
    | minus =>
      exact absurd (h '-' (by simp [text, hs, Sign.text])) (by decide)

theorem IsPlain.of_text_eq {n m : Numeral} {bound : Nat} (h : m.IsPlain bound)
    (htext : n.text = m.text) : n.IsPlain bound := by
  have hdigits : n.text = m.digits := htext.trans (text_of_plain h)
  obtain ⟨hblanks, hsign⟩ := blanks_sign_of_isDigit (n := n) (hdigits ▸ m.isDigit)
  refine ⟨hblanks, hsign, ?_⟩
  have heq : n.digits = m.digits := by
    rw [← hdigits, text, hblanks, hsign]
    rfl
  rw [Numeral.value, heq]
  exact h.value

end Numeral

end Scanf
