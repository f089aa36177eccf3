import Mathlib.Data.BitVec
import Mathlib.Data.Set.Basic
import Mathlib.Order.Defs.Unbundled
import Mathlib.Tactic.Common

/-! Addresses, networks and ranges. An address is its 32-bit value, so that the `+ 1` and `- 1`
of the class manager wrap as they do in the program. Networks and ranges carry what their
constructors check: no host bits, and bounds in order. -/

namespace Neo

abbrev IPv4Address := BitVec 32

structure IPInterface where
  addr : IPv4Address
  prefixLength : Nat
  le : prefixLength ≤ 32
deriving DecidableEq

theorem zero_le_32 : 0 ≤ 32 := by decide

theorem sixteen_le : 16 ≤ 32 := by decide

theorem twentyFour_le : 24 ≤ 32 := by decide

theorem thirtyTwo_le : 32 ≤ 32 := Nat.le_refl 32

/-- `(1ULL << (length() - prefix)) - 1`, truncated to 32 bits. -/
def hostMask (prefixLength : Nat) : IPv4Address := BitVec.ofNat 32 (2 ^ (32 - prefixLength) - 1)

structure IPNetwork extends IPInterface where
  isNetwork : addr &&& hostMask prefixLength = 0#32
deriving DecidableEq

structure IPRange where
  lb : IPv4Address
  ub : IPv4Address
  le : lb ≤ ub
deriving DecidableEq

theorem le_or_hostMask (a : IPv4Address) (n : Nat) : a ≤ a ||| hostMask n := by
  rw [BitVec.le_def, BitVec.toNat_or]
  exact Nat.left_le_or

namespace IPInterface

theorem and_not_and (a m : IPv4Address) : a &&& ~~~m &&& m = 0#32 := by
  rw [BitVec.and_assoc, BitVec.not_and_self]
  exact BitVec.and_zero

def network (i : IPInterface) : IPNetwork where
  addr := i.addr &&& ~~~hostMask i.prefixLength
  prefixLength := i.prefixLength
  le := i.le
  isNetwork := and_not_and _ _

end IPInterface

namespace IPNetwork

def networkAddr (n : IPNetwork) : IPv4Address := n.addr

def broadcastAddr (n : IPNetwork) : IPv4Address := n.addr ||| hostMask n.prefixLength

def range (n : IPNetwork) : IPRange := ⟨n.networkAddr, n.broadcastAddr, le_or_hostMask _ _⟩

def contains (n : IPNetwork) (a : IPv4Address) : Bool :=
  n.networkAddr ≤ a && a ≤ n.broadcastAddr

def containsRange (n : IPNetwork) (r : IPRange) : Bool :=
  n.networkAddr ≤ r.lb && r.ub ≤ n.broadcastAddr

end IPNetwork

namespace IPRange

instance : Membership IPv4Address IPRange := ⟨fun r a => r.lb ≤ a ∧ a ≤ r.ub⟩

instance (r : IPRange) (a : IPv4Address) : Decidable (a ∈ r) :=
  inferInstanceAs (Decidable (_ ∧ _))

theorem mem_def {r : IPRange} {a : IPv4Address} : a ∈ r ↔ r.lb ≤ a ∧ a ≤ r.ub := Iff.rfl

def ofAddr (a : IPv4Address) : IPRange := ⟨a, a, BitVec.le_refl a⟩

def toSet (r : IPRange) : Set IPv4Address := {a | a ∈ r}

@[simp] theorem mem_toSet {r : IPRange} {a : IPv4Address} : a ∈ r.toSet ↔ a ∈ r := Iff.rfl

@[simp] theorem mem_ofAddr {a b : IPv4Address} : b ∈ ofAddr a ↔ b = a := by
  rw [mem_def, ofAddr]
  exact ⟨fun h => BitVec.le_antisymm h.2 h.1, fun h => h ▸ ⟨BitVec.le_refl _, BitVec.le_refl _⟩⟩

theorem lb_mem (r : IPRange) : r.lb ∈ r := ⟨BitVec.le_refl _, r.le⟩

theorem ub_mem (r : IPRange) : r.ub ∈ r := ⟨r.le, BitVec.le_refl _⟩

end IPRange

theorem IPNetwork.contains_iff {n : IPNetwork} {a : IPv4Address} :
    n.contains a = true ↔ a ∈ n.range := by
  simp [contains, IPRange.mem_def, range]

theorem IPNetwork.containsRange_iff {n : IPNetwork} {r : IPRange} :
    n.containsRange r = true ↔ ∀ a ∈ r, a ∈ n.range := by
  simp only [containsRange, Bool.and_eq_true, decide_eq_true_eq]
  constructor
  · rintro ⟨h₁, h₂⟩ a ⟨ha₁, ha₂⟩
    exact ⟨BitVec.le_trans h₁ ha₁, BitVec.le_trans ha₂ h₂⟩
  · intro h
    exact ⟨(h _ r.lb_mem).1, (h _ r.ub_mem).2⟩

theorem toNat_hostMask {n : Nat} : (hostMask n).toNat = 2 ^ (32 - n) - 1 := by
  have : 2 ^ (32 - n) ≤ 2 ^ 32 := Nat.pow_le_pow_right (by omega) (by omega)
  rw [hostMask, BitVec.toNat_ofNat, Nat.mod_eq_of_lt (by omega)]

theorem IPNetwork.addr_mod (n : IPNetwork) : n.addr.toNat % 2 ^ (32 - n.prefixLength) = 0 := by
  have := congrArg BitVec.toNat n.isNetwork
  rwa [BitVec.toNat_and, toNat_hostMask, Nat.and_two_pow_sub_one_eq_mod] at this

theorem IPNetwork.toNat_broadcastAddr (n : IPNetwork) :
    n.broadcastAddr.toNat = n.addr.toNat + (2 ^ (32 - n.prefixLength) - 1) := by
  have hmod := n.addr_mod
  have hpos := Nat.two_pow_pos (32 - n.prefixLength)
  have haddr : n.addr.toNat =
      2 ^ (32 - n.prefixLength) * (n.addr.toNat / 2 ^ (32 - n.prefixLength)) := by
    have := Nat.div_add_mod n.addr.toNat (2 ^ (32 - n.prefixLength))
    omega
  rw [broadcastAddr, BitVec.toNat_or, toNat_hostMask]
  conv_lhs => rw [haddr]
  rw [← Nat.two_pow_add_eq_or_of_lt (by omega), ← haddr]

theorem IPNetwork.contains_iff_div {n : IPNetwork} {a : IPv4Address} :
    n.contains a = true ↔
      a.toNat / 2 ^ (32 - n.prefixLength) = n.addr.toNat / 2 ^ (32 - n.prefixLength) := by
  set k := 32 - n.prefixLength with hk
  have hpos : 0 < 2 ^ k := Nat.two_pow_pos k
  have hmod : n.addr.toNat % 2 ^ k = 0 := n.addr_mod
  have haddr : n.addr.toNat = 2 ^ k * (n.addr.toNat / 2 ^ k) := by
    have := Nat.div_add_mod n.addr.toNat (2 ^ k)
    omega
  have hbroadcast : n.broadcastAddr.toNat = 2 ^ k * (n.addr.toNat / 2 ^ k) + (2 ^ k - 1) := by
    rw [n.toNat_broadcastAddr, ← hk, ← haddr]
  rw [Nat.div_eq_iff hpos, Nat.mul_comm]
  simp only [contains, networkAddr, Bool.and_eq_true, decide_eq_true_eq, BitVec.le_def,
    hbroadcast]
  rw [← haddr]
  omega

theorem IPNetwork.eq_of_contains {n n' : IPNetwork} {a : IPv4Address} (h : n.contains a = true)
    (h' : n'.contains a = true) (hl : n.prefixLength = n'.prefixLength) : n = n' := by
  have hdiv := (contains_iff_div.mp h).symm.trans (hl ▸ contains_iff_div.mp h')
  have haddr : n.addr = n'.addr := by
    refine BitVec.eq_of_toNat_eq ?_
    have h₁ := n.addr_mod
    have h₂ := n'.addr_mod
    rw [← hl] at h₂
    rw [← Nat.div_add_mod n.addr.toNat (2 ^ (32 - n.prefixLength)),
      ← Nat.div_add_mod n'.addr.toNat (2 ^ (32 - n.prefixLength)), h₁, h₂, hdiv]
  obtain ⟨⟨_, _, _⟩, _⟩ := n
  obtain ⟨⟨_, _, _⟩, _⟩ := n'
  simp only at haddr hl
  subst haddr
  subst hl
  rfl

/-! ### A range as a network -/

namespace IPRange

/-- `uint32_t size = range.size()`, which is zero for the range of all addresses. -/
def size (r : IPRange) : BitVec 32 := r.ub - r.lb + 1

/-- `(int)log2(size)`. The conversion of minus infinity yields the least integer. -/
def log2 (size : BitVec 32) : Int := if size = 0#32 then -2 ^ 31 else (size.toNat.log2 : Int)

/-- `IPNetwork(range)`, as its address and its prefix length, which is not checked; `none` where
it reports an invalid network. -/
def toNetwork (r : IPRange) : Option (IPv4Address × Int) :=
  if r.size &&& (r.size - 1) ≠ 0 ∨ r.lb &&& (r.size - 1) ≠ 0 then none
  else some (r.lb, 32 - log2 r.size)

/-- `(1ULL << (length() - prefix)) - 1`, truncated to 32 bits, for an unchecked prefix length: the
shift takes the count modulo 64. -/
def shiftMask (prefixLength : Int) : BitVec 32 :=
  BitVec.ofNat 32 (2 ^ ((32 - prefixLength) % 64).toNat - 1)

/-- `IPRange(net)` for such a network. -/
def ofNetwork (net : IPv4Address × Int) : IPRange where
  lb := net.1
  ub := net.1 ||| shiftMask net.2
  le := by
    rw [BitVec.le_def, BitVec.toNat_or]
    exact Nat.left_le_or

theorem size_range {n : IPNetwork} (h : n.prefixLength ≠ 0) :
    n.range.size.toNat = 2 ^ (32 - n.prefixLength) := by
  have hlt : 2 ^ (32 - n.prefixLength) < 2 ^ 32 := by
    apply Nat.pow_lt_pow_right (by decide)
    omega
  have hpos := Nat.two_pow_pos (32 - n.prefixLength)
  have hub := n.toNat_broadcastAddr
  have hle := n.broadcastAddr.isLt
  show (n.broadcastAddr - n.addr + 1#32).toNat = _
  rw [BitVec.toNat_add, BitVec.toNat_sub, hub]
  simp only [BitVec.toNat_ofNat]
  omega

/-- The range of a network is converted back to the network, unless it has all addresses: then
the network has the first address only. -/
theorem ofNetwork_toNetwork (n : IPNetwork) :
    n.range.toNetwork.map ofNetwork =
      some (if n.prefixLength = 0 then .ofAddr 0#32 else n.range) := by
  have hle := n.le
  by_cases h : n.prefixLength = 0
  · -- the size of the whole address space wraps to zero, and so does the network made of it
    have hmask : hostMask 0 = 0xFFFFFFFF#32 := by decide
    have hzero : n.addr = 0#32 := by
      have := n.isNetwork
      rwa [h, hmask, show (0xFFFFFFFF#32 : BitVec 32) = BitVec.allOnes 32 by decide,
        BitVec.and_allOnes] at this
    have hrange : n.range = ⟨0#32, 0xFFFFFFFF#32, by decide⟩ := by
      simp [IPNetwork.range, IPNetwork.networkAddr, IPNetwork.broadcastAddr, hzero, h, hmask]
    rw [if_pos h, hrange]
    decide
  · have hsize := size_range h
    set k := 32 - n.prefixLength with hk
    have hk32 : k < 32 := by omega
    have hlt : 2 ^ k < 2 ^ 32 := Nat.pow_lt_pow_right (by decide) hk32
    have hpred : n.range.size - 1 = hostMask n.prefixLength := by
      apply BitVec.eq_of_toNat_eq
      have hpos := Nat.two_pow_pos k
      show (n.range.size - 1#32).toNat = _
      rw [toNat_hostMask, ← hk, BitVec.toNat_sub, hsize]
      simp only [BitVec.toNat_ofNat]
      omega
    -- the size is a power of two, and the lower bound a multiple of it
    have hpow : n.range.size &&& (n.range.size - 1) = 0 := by
      apply BitVec.eq_of_toNat_eq
      rw [hpred, BitVec.toNat_and, hsize, toNat_hostMask, ← hk, Nat.and_two_pow_sub_one_eq_mod,
        Nat.mod_self]
      rfl
    have hlb : n.range.lb &&& (n.range.size - 1) = 0 := by
      rw [hpred]
      exact n.isNetwork
    have hne : n.range.size ≠ 0#32 := by
      intro h₀
      rw [h₀] at hsize
      have hpos := Nat.two_pow_pos k
      simp at hsize
      omega
    have hlog : log2 n.range.size = k := by
      rw [log2, if_neg hne, hsize, Nat.log2_two_pow]
    have hmask : shiftMask (32 - (k : Int)) = hostMask n.prefixLength := by
      have hmod : ((32 - (32 - (k : Int))) % 64).toNat = k := by omega
      rw [shiftMask, hmod, hostMask, ← hk]
    rw [toNetwork, if_neg (not_or.mpr ⟨not_not.mpr hpow, not_not.mpr hlb⟩), if_neg h, hlog]
    show some (⟨n.addr, n.addr ||| shiftMask (32 - (k : Int)), _⟩ : IPRange) = _
    simp only [hmask]
    rfl

end IPRange

end Neo
