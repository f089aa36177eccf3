import Neo.IpText
import Mathlib.Data.Nat.Log

/-! The size of a range, and ranges that are networks. The size is computed as an `int`, so that
it overflows at half of all addresses and is lost for all of them. -/

namespace Neo

/-- `operator-`. -/
def IPv4Address.diff (a b : IPv4Address) : Int := (a - b).toInt

namespace IPRange

def count (r : IPRange) : Nat := r.ub.toNat - r.lb.toNat + 1

/-- `size`: the sum is an `int`, and is converted to `size_t`; `none` where it overflows. -/
def sizeT (r : IPRange) : Option (BitVec 64) :=
  let n := IPv4Address.diff r.ub r.lb + 1
  if n < 2 ^ 31 then some (BitVec.ofInt 64 n) else none

/-- The test of `is_network` and of the conversion, on the size as `uint32_t`. -/
def aligned (r : IPRange) (n : BitVec 32) : Bool := n &&& (n - 1) == 0 && r.lb &&& (n - 1) == 0

def isNetwork (r : IPRange) : Option Bool := do
  let n ← r.sizeT
  return r.aligned (n.setWidth 32)

/-- `(int)log2(size)`, which is not defined for zero. -/
def log2? (n : BitVec 32) : Option Int := if n = 0#32 then none else some n.toNat.log2

/-- `network`, which is the conversion to a network: the address and the prefix length, or the
error. -/
def network (r : IPRange) : Option (Except (List Char) (IPv4Address × Int)) := do
  let n ← r.sizeT
  let size : BitVec 32 := n.setWidth 32
  if r.aligned size then
    let log ← log2? size
    return .ok (r.lb, 32 - log)
  else return .error ("Invalid network: ".toList ++ r.toChars)

/-- What is expected of a range: its size, and that it is told and converted whether it is the
range of a network. -/
structure Corresponds (r : IPRange) : Prop where
  size : r.sizeT = some (BitVec.ofNat 64 r.count)
  isNetwork : ∃ b, r.isNetwork = some b ∧ (b = true ↔ ∃ n : IPNetwork, n.range = r)
  network : ∀ n : IPNetwork, n.range = r → r.network = some (.ok (n.addr, n.prefixLength))
  error : (¬∃ n : IPNetwork, n.range = r) →
    r.network = some (.error ("Invalid network: ".toList ++ r.toChars))

variable {r : IPRange}

theorem count_pos (r : IPRange) : 0 < r.count := Nat.succ_pos _

theorem count_le (r : IPRange) : r.count ≤ 2 ^ 32 := by
  have := r.ub.isLt
  rw [count]
  omega

theorem diff_eq (r : IPRange) :
    IPv4Address.diff r.ub r.lb = if r.count ≤ 2 ^ 31 then (r.count : Int) - 1
      else (r.count : Int) - 1 - 2 ^ 32 := by
  have hle := BitVec.le_def.mp r.le
  have hub := r.ub.isLt
  have hsub : (r.ub - r.lb).toNat = r.ub.toNat - r.lb.toNat := by
    rw [BitVec.toNat_sub]
    omega
  rw [IPv4Address.diff, BitVec.toInt_eq_toNat_cond, hsub, count]
  split <;> split <;> omega

theorem sizeT_eq (r : IPRange) :
    r.sizeT = if r.count < 2 ^ 31 then some (BitVec.ofNat 64 r.count)
      else if r.count = 2 ^ 31 then none
      else some (BitVec.ofInt 64 ((r.count : Int) - 2 ^ 32)) := by
  have hdiff := diff_eq r
  have hle := r.count_le
  by_cases hlt : r.count < 2 ^ 31
  · rw [if_pos (Nat.le_of_lt hlt)] at hdiff
    simp only [sizeT, hdiff, if_pos hlt, sub_add_cancel, BitVec.ofInt_natCast]
    exact if_pos (by omega)
  · by_cases heq : r.count = 2 ^ 31
    · rw [if_pos heq.le] at hdiff
      simp only [sizeT, hdiff, if_neg hlt, if_pos heq]
      exact if_neg (by omega)
    · rw [if_neg (by omega)] at hdiff
      have hsum : (r.count : Int) - 1 - 2 ^ 32 + 1 = r.count - 2 ^ 32 := by omega
      simp only [sizeT, hdiff, if_neg hlt, if_neg heq, hsum]
      exact if_pos (by omega)

theorem sizeT_eq_count_iff : r.sizeT = some (BitVec.ofNat 64 r.count) ↔ r.count < 2 ^ 31 := by
  rw [sizeT_eq]
  have := r.count_le
  have hpos := r.count_pos
  constructor
  · intro h
    by_contra hge
    rw [if_neg hge] at h
    split at h
    · cases h
    · have heq := congrArg BitVec.toNat (Option.some.inj h)
      rw [BitVec.toNat_ofInt, BitVec.toNat_ofNat] at heq
      omega
  · intro h
    rw [if_pos h]

/-! ### Networks and ranges -/

theorem setWidth_sizeT {n : BitVec 64} (h : r.sizeT = some n) : n.setWidth 32 = r.size := by
  rw [sizeT] at h
  split at h
  · obtain rfl := Option.some.inj h
    apply BitVec.eq_of_toNat_eq
    have hmod : IPv4Address.diff r.ub r.lb % 2 ^ 32 = ((r.ub - r.lb).toNat : Int) := by
      have hlt := (r.ub - r.lb).isLt
      rw [IPv4Address.diff, BitVec.toInt_eq_toNat_cond]
      split <;> omega
    rw [size, BitVec.toNat_setWidth, BitVec.toNat_ofInt, BitVec.toNat_add]
    rw [show BitVec.toNat (1 : BitVec 32) = 1 from rfl]
    omega
  · cases h

/-- Where the conversion is defined, `toNetwork` is the same; elsewhere it is what the machine makes
of it. -/
theorem toNetwork_of_network {net : IPv4Address × Int} (h : r.network = some (.ok net)) :
    r.toNetwork = some net := by
  simp only [network, Option.bind_eq_bind, Option.bind_eq_some_iff] at h
  obtain ⟨n, hn, h⟩ := h
  rw [setWidth_sizeT hn] at h
  split at h
  · rename_i haligned
    obtain ⟨log, hlog, hnet⟩ := Option.bind_eq_some_iff.mp h
    obtain rfl := Except.ok.inj (Option.some.inj hnet)
    rw [aligned, Bool.and_eq_true, beq_iff_eq, beq_iff_eq] at haligned
    rw [log2?] at hlog
    split at hlog
    · cases hlog
    · rename_i hne
      obtain rfl := Option.some.inj hlog
      rw [toNetwork, if_neg (not_or.mpr ⟨not_not.mpr haligned.1, not_not.mpr haligned.2⟩), log2,
        if_neg hne]
  · cases h

theorem count_range (n : IPNetwork) : n.range.count = 2 ^ (32 - n.prefixLength) := by
  have hub : n.range.ub.toNat = n.range.lb.toNat + (2 ^ (32 - n.prefixLength) - 1) :=
    n.toNat_broadcastAddr
  have hpos := Nat.two_pow_pos (32 - n.prefixLength)
  rw [count, hub]
  omega

theorem exists_network_iff :
    (∃ n : IPNetwork, n.range = r) ↔ ∃ k ≤ 32, r.count = 2 ^ k ∧ 2 ^ k ∣ r.lb.toNat := by
  constructor
  · rintro ⟨n, rfl⟩
    exact ⟨32 - n.prefixLength, Nat.sub_le _ _, count_range n, Nat.dvd_of_mod_eq_zero n.addr_mod⟩
  · rintro ⟨k, hk, hcount, hdvd⟩
    have hsub : 32 - (32 - k) = k := Nat.sub_sub_self hk
    have hzero : r.lb &&& hostMask (32 - k) = 0#32 := by
      apply BitVec.eq_of_toNat_eq
      rw [BitVec.toNat_and, toNat_hostMask, hsub, Nat.and_two_pow_sub_one_eq_mod]
      exact Nat.mod_eq_zero_of_dvd hdvd
    set n : IPNetwork := ⟨⟨r.lb, 32 - k, Nat.sub_le _ _⟩, hzero⟩ with hn
    have hub : n.broadcastAddr = r.ub := by
      apply BitVec.eq_of_toNat_eq
      have hle := BitVec.le_def.mp r.le
      have hbroadcast := n.toNat_broadcastAddr
      rw [show n.prefixLength = 32 - k from rfl, hsub, show n.addr = r.lb from rfl] at hbroadcast
      rw [count] at hcount
      omega
    refine ⟨n, ?_⟩
    show (⟨r.lb, n.broadcastAddr, _⟩ : IPRange) = r
    simp only [hub]

theorem aligned_iff {n : BitVec 32} (h : n ≠ 0#32) :
    r.aligned n = true ↔ ∃ k, n.toNat = 2 ^ k ∧ 2 ^ k ∣ r.lb.toNat := by
  have hpos : n.toNat ≠ 0 := fun h₀ => h (BitVec.eq_of_toNat_eq h₀)
  have hpred : (n - 1#32).toNat = n.toNat - 1 := by
    rw [BitVec.toNat_sub]
    simp only [BitVec.toNat_ofNat]
    omega
  have hzero : ∀ x : BitVec 32, x &&& (n - 1#32) = 0#32 ↔ x.toNat &&& (n.toNat - 1) = 0 := by
    intro x
    rw [← BitVec.toNat_inj, BitVec.toNat_and, hpred]
    rfl
  rw [aligned, Bool.and_eq_true, beq_iff_eq, beq_iff_eq]
  refine (and_congr (hzero n) (hzero r.lb)).trans ?_
  rw [Nat.and_sub_one_eq_zero_iff_isPowerOfTwo hpos]
  constructor
  · rintro ⟨⟨k, hk⟩, hlb⟩
    rw [hk, Nat.and_two_pow_sub_one_eq_mod] at hlb
    exact ⟨k, hk, Nat.dvd_of_mod_eq_zero hlb⟩
  · rintro ⟨k, hk, hdvd⟩
    rw [hk, Nat.and_two_pow_sub_one_eq_mod]
    exact ⟨⟨k, rfl⟩, Nat.mod_eq_zero_of_dvd hdvd⟩

theorem setWidth_count (h : r.count < 2 ^ 31) :
    ((BitVec.ofNat 64 r.count).setWidth 32).toNat = r.count := by
  rw [BitVec.toNat_setWidth, BitVec.toNat_ofNat]
  omega

theorem setWidth_count_ne (h : r.count < 2 ^ 31) :
    (BitVec.ofNat 64 r.count).setWidth 32 ≠ 0#32 := fun h₀ => by
  have := setWidth_count h
  rw [h₀] at this
  exact r.count_pos.ne this

theorem aligned_count_iff (h : r.count < 2 ^ 31) :
    r.aligned ((BitVec.ofNat 64 r.count).setWidth 32) = true ↔ ∃ n : IPNetwork, n.range = r := by
  rw [aligned_iff (setWidth_count_ne h), setWidth_count h, exists_network_iff]
  refine exists_congr fun k => ⟨fun hk => ⟨?_, hk⟩, And.right⟩
  have hle := r.count_le
  rw [hk.1] at hle
  exact (Nat.pow_le_pow_iff_right (by decide)).mp hle

theorem network_range {n : IPNetwork} (h : n.range.count < 2 ^ 31) :
    n.range.network = some (.ok (n.addr, n.prefixLength)) := by
  have hsize := sizeT_eq_count_iff.mpr h
  have haligned := (aligned_count_iff h).mpr ⟨n, rfl⟩
  have hlog : log2? ((BitVec.ofNat 64 n.range.count).setWidth 32) =
      some ((32 - n.prefixLength : Nat) : Int) := by
    rw [log2?, if_neg (setWidth_count_ne h), setWidth_count h, count_range, Nat.log2_two_pow]
  have hle := n.le
  simp only [network, hsize, Option.bind_eq_bind, Option.bind_some, haligned, if_true, hlog]
  rw [Nat.cast_sub hle]
  simp [IPNetwork.range, IPNetwork.networkAddr]

theorem corresponds_iff : r.Corresponds ↔ r.count < 2 ^ 31 := by
  refine ⟨fun h => sizeT_eq_count_iff.mp h.size, fun h => ?_⟩
  have hsize := sizeT_eq_count_iff.mpr h
  refine ⟨hsize, ⟨r.aligned _, by rw [isNetwork, hsize]; rfl, aligned_count_iff h⟩, ?_, ?_⟩
  · rintro n rfl
    exact network_range h
  · intro hnot
    have haligned := Bool.not_eq_true _ ▸ mt (aligned_count_iff h).mp hnot
    simp only [network, hsize, Option.bind_eq_bind, Option.bind_some, haligned]
    rfl

theorem network_range_iff (n : IPNetwork) :
    n.range.network = some (.ok (n.addr, n.prefixLength)) ↔ 2 ≤ n.prefixLength := by
  have hle := n.le
  have hcount := count_range n
  constructor
  · intro h
    by_contra hlt
    obtain hzero | hone : n.prefixLength = 0 ∨ n.prefixLength = 1 := by omega
    · rw [hzero] at hcount
      have hsize : n.range.sizeT = some 0#64 := by
        rw [sizeT_eq, hcount]
        rfl
      simp only [network, hsize, Option.bind_eq_bind, Option.bind_some] at h
      split at h
      · cases h
      · cases h
    · rw [hone] at hcount
      have hsize : n.range.sizeT = none := by
        rw [sizeT_eq, hcount]
        rfl
      rw [network, hsize] at h
      cases h
  · intro h
    refine network_range ?_
    rw [hcount]
    exact Nat.pow_lt_pow_right (by decide) (by omega)

/-- Ranges correspond to networks below half of all addresses, and there only; so do networks,
which are converted to their ranges and back. -/
theorem corresponds_and_network_range_iff (r : IPRange) (n : IPNetwork) :
    (r.Corresponds ↔ r.count < 2 ^ 31) ∧
      (n.range.network = some (.ok (n.addr, n.prefixLength)) ↔ 2 ≤ n.prefixLength) :=
  ⟨corresponds_iff, network_range_iff n⟩

/-- All addresses have the size zero. -/
theorem not_corresponds_all : ¬(⟨0#32, 0xFFFFFFFF#32, by decide⟩ : IPRange).Corresponds :=
  fun h => absurd h.size (by decide)

end IPRange

end Neo
