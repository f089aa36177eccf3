import Mathlib.Data.List.Induction
import Mathlib.Tactic.Ring

/-! Bytes of numbers, the most significant first, and slices of byte strings. -/

abbrev Byte := BitVec 8

namespace Bytes

def toBytes : Nat → Nat → List Byte
  | 0, _ => []
  | n + 1, x => toBytes n (x / 256) ++ [BitVec.ofNat 8 x]

def ofBytes (l : List Byte) : Nat := l.foldl (fun acc b => 256 * acc + b.toNat) 0

theorem ofBytes_append_singleton (l : List Byte) (b : Byte) :
    ofBytes (l ++ [b]) = 256 * ofBytes l + b.toNat := by
  simp [ofBytes]

@[simp] theorem length_toBytes (n x : Nat) : (toBytes n x).length = n := by
  induction n generalizing x with
  | zero => rfl
  | succ n ih => simp [toBytes, ih]

theorem ofBytes_toBytes (n x : Nat) : ofBytes (toBytes n x) = x % 256 ^ n := by
  induction n generalizing x with
  | zero => simp [toBytes, ofBytes, Nat.mod_one]
  | succ n ih =>
    have hbyte : (BitVec.ofNat 8 x).toNat = x % 256 := BitVec.toNat_ofNat x 8
    rw [toBytes, ofBytes_append_singleton, ih, hbyte, Nat.pow_succ', Nat.mod_mul]
    ring

def ofBitVec {w : Nat} (n : Nat) (x : BitVec w) : List Byte := toBytes n x.toNat

def toBitVec (w : Nat) (l : List Byte) : BitVec w := BitVec.ofNat w (ofBytes l)

@[simp] theorem length_ofBitVec {w : Nat} (n : Nat) (x : BitVec w) : (ofBitVec n x).length = n :=
  length_toBytes n x.toNat

theorem toBitVec_ofBitVec {w n : Nat} (h : w = 8 * n) (x : BitVec w) :
    toBitVec w (ofBitVec n x) = x := by
  have hpow : 256 ^ n = 2 ^ w := by
    rw [h, Nat.pow_mul]
  apply BitVec.eq_of_toNat_eq
  rw [toBitVec, ofBitVec, ofBytes_toBytes, hpow, BitVec.toNat_ofNat, Nat.mod_mod]
  exact Nat.mod_eq_of_lt x.isLt

theorem toBytes_ofBytes (l : List Byte) : toBytes l.length (ofBytes l) = l := by
  induction l using List.reverseRecOn with
  | nil => rfl
  | append_singleton l b ih =>
    have hb := b.isLt
    have hdiv : (256 * ofBytes l + b.toNat) / 256 = ofBytes l := by omega
    have hbyte : BitVec.ofNat 8 (256 * ofBytes l + b.toNat) = b := by
      apply BitVec.eq_of_toNat_eq
      rw [BitVec.toNat_ofNat]
      omega
    rw [List.length_append, List.length_singleton, toBytes, ofBytes_append_singleton, hdiv, ih,
      hbyte]

theorem ofBytes_lt (l : List Byte) : ofBytes l < 256 ^ l.length := by
  rw [← toBytes_ofBytes l, ofBytes_toBytes, length_toBytes]
  exact Nat.mod_lt _ (Nat.pow_pos (by decide))

theorem eq_ofBitVec_iff {w : Nat} {l : List Byte} (h : w = 8 * l.length) (x : BitVec w) :
    l = ofBitVec l.length x ↔ toBitVec w l = x := by
  constructor
  · intro hl
    have hx := toBitVec_ofBitVec (n := l.length) h x
    rwa [← hl] at hx
  · rintro rfl
    have hlt := ofBytes_lt l
    rw [show 256 = 2 ^ 8 from rfl, ← Nat.pow_mul, ← h] at hlt
    rw [ofBitVec, toBitVec, BitVec.toNat_ofNat, Nat.mod_eq_of_lt hlt, toBytes_ofBytes]

def slice (l : List Byte) (offset n : Nat) : List Byte := (l.drop offset).take n

theorem slice_flatten {fields : List (List Byte)} {field : List Byte} {offset n : Nat} (i : Nat)
    (h : fields[i]? = some field) (hoffset : (fields.take i).flatten.length = offset)
    (hn : field.length = n) : slice fields.flatten offset n = field := by
  obtain ⟨hlt, hfield⟩ := List.getElem?_eq_some_iff.mp h
  have hsplit : fields = fields.take i ++ field :: fields.drop (i + 1) := by
    rw [← hfield, ← List.drop_eq_getElem_cons hlt, List.take_append_drop]
  rw [slice, hsplit, List.flatten_append, List.drop_left' hoffset, List.flatten_cons,
    List.take_left' hn]

end Bytes
