import Neo.Ip
import Neo.Lib.Ordered
import Mathlib.Data.List.MinMax

/-! The manager of destination equivalence classes. Its ranges live in a `std::set` whose
comparator takes overlapping ranges for equal, and every `EqClass` object holds its own ranges
in another such set. Objects are named by their addresses; which address an allocation
returns is up to the allocator, and sets of pointers are traversed in address order. -/

namespace Neo

/-- An `EqClass *`. -/
abbrev EcPtr := Nat

structure ECRange extends IPRange where
  ec : EcPtr
deriving DecidableEq

/-- `operator new`: the `n`-th allocation yields an address no live object has. -/
structure Allocator where
  addr : Nat → List Nat → Nat
  fresh : ∀ n live, addr n live ∉ live

def Allocator.next : Allocator where
  addr _ live := live.foldr max 0 + 1
  fresh n live h := by
    have hle : ∀ a ∈ live, a ≤ live.foldr max 0 := fun a ha => List.le_max_of_le' 0 ha le_rfl
    exact absurd (hle _ h) (Nat.not_succ_le_self _)

namespace ECRange

/-- `operator<`: wholly before. -/
def lt (a b : ECRange) : Prop := a.ub < b.lb

instance : DecidableRel lt := fun a b => inferInstanceAs (Decidable (a.ub < b.lb))

/-- `operator==`: there is an overlap. -/
abbrev Overlaps (a b : ECRange) : Prop := Ordered.Equiv lt a b

def ofRange (r : IPRange) : ECRange := { r with ec := 0 }

theorem overlaps_iff {a b : ECRange} : Overlaps a b ↔ b.lb ≤ a.ub ∧ a.lb ≤ b.ub := by
  simp only [Ordered.Equiv, lt, BitVec.not_lt]

instance : IsTrans ECRange lt :=
  ⟨fun a b c (hab : a.ub < b.lb) (hbc : b.ub < c.lb) => by
    have := b.le
    change a.ub < c.lb
    bv_omega⟩

/-- The part of `r` below `range`, if any. -/
def below (r range : ECRange) : Option ECRange :=
  if h : r.lb < range.lb then
    some { lb := r.lb, ub := range.lb - 1, ec := r.ec, le := by bv_omega }
  else none

/-- The part of `r` above `range`, if any. -/
def above (r range : ECRange) : Option ECRange :=
  if h : range.ub < r.ub then
    some { lb := range.ub + 1, ub := r.ub, ec := r.ec, le := by bv_omega }
  else none

/-- The part of `r` inside an overlapping `range`, handed to the class `ec`. -/
def within (r range : ECRange) (ec : EcPtr) (h : Overlaps r range) : ECRange where
  lb := if r.lb < range.lb then range.lb else r.lb
  ub := if range.ub < r.ub then range.ub else r.ub
  ec := ec
  le := by
    have ho := overlaps_iff.mp h
    have := r.le
    have := range.le
    split_ifs <;> first | assumption | exact ho.1 | exact ho.2

end ECRange

structure EqClassMgr where
  allRanges : List ECRange
  /-- The ranges of the `EqClass` object at an address. -/
  ranges : EcPtr → List ECRange
  allEcs : List EcPtr
  ownedEcs : List EcPtr
  /-- How many objects have been allocated. -/
  allocs : Nat

namespace EqClassMgr

/-- The state after `reset`. -/
def reset : EqClassMgr := ⟨[], fun _ => [], [], [], 0⟩

/-- `EqClass::add_range` and the insertion of the range into `_allranges`. -/
def addRange (m : EqClassMgr) (ec : EcPtr) (r : ECRange) : EqClassMgr where
  allRanges := Ordered.insert ECRange.lt r m.allRanges
  ranges := fun e => if e = ec then Ordered.insert ECRange.lt r (m.ranges e) else m.ranges e
  allEcs := m.allEcs
  ownedEcs := m.ownedEcs
  allocs := m.allocs

/-- `EqClass::rm_range` and the removal of the range from `_allranges`. -/
def rmRange (m : EqClassMgr) (ec : EcPtr) (r : ECRange) : EqClassMgr where
  allRanges := Ordered.erase ECRange.lt r m.allRanges
  ranges := fun e => if e = ec then Ordered.erase ECRange.lt r (m.ranges e) else m.ranges e
  allEcs := m.allEcs
  ownedEcs := m.ownedEcs
  allocs := m.allocs

def addRange? (m : EqClassMgr) (ec : EcPtr) (r : Option ECRange) : EqClassMgr :=
  match r with
  | none => m
  | some r => m.addRange ec r

/-- `new EqClass()`: an empty class at a fresh address. -/
def newEc (A : Allocator) (m : EqClassMgr) : EcPtr × EqClassMgr :=
  let e := A.addr m.allocs m.allEcs
  (e, { m with ranges := fun e' => if e' = e then [] else m.ranges e', allocs := m.allocs + 1 })

def insertEc (m : EqClassMgr) (ec : EcPtr) : EqClassMgr :=
  { m with allEcs := Ordered.insert (· < ·) ec m.allEcs }

def insertOwned (m : EqClassMgr) (ec : EcPtr) : EqClassMgr :=
  { m with ownedEcs := Ordered.insert (· < ·) ec m.ownedEcs }

/-- One overlapped range of a split class: the parts outside `range` stay with `ec`, the part
inside moves to `newEc`. -/
def splitRange (ec newEc : EcPtr) (range r : ECRange) (m : EqClassMgr) : EqClassMgr :=
  if h : ECRange.Overlaps r range then
    let m := m.rmRange ec r
    let m := m.addRange? ec (r.below range)
    let m := m.addRange? ec (r.above range)
    m.addRange newEc (r.within range newEc h)
  else m

/-- `split_intersected_ec`; `none` where the assertion that the new class is not empty fails. -/
def splitIntersectedEc (A : Allocator) (ec : EcPtr) (range : ECRange) (owned : Bool)
    (m : EqClassMgr) : Option EqClassMgr :=
  let origEc := m.ranges ec
  let (new, m) := m.newEc A
  let m := origEc.foldl (fun m r => m.splitRange ec new range r) m
  if m.ranges new = [] then none
  else
    let m := m.insertEc new
    some (if owned ∨ ec ∈ m.ownedEcs then m.insertOwned new else m)

/-- The gap between `lb` and an overlapped range, if any. -/
def fillGap (newEc : EcPtr) (lb : IPv4Address) (r : ECRange) (m : EqClassMgr) : EqClassMgr :=
  if h : lb < r.lb then
    m.addRange newEc { lb := lb, ub := r.lb - 1, ec := newEc, le := by bv_omega }
  else m

/-- The loop of `add_non_overlapped_ec` over the overlapped ranges; `lb` is where the next gap
would start. It wraps to zero behind a range that ends at the last address. -/
def fillGaps (newEc : EcPtr) : List ECRange → IPv4Address → EqClassMgr → IPv4Address × EqClassMgr
  | [], lb, m => (lb, m)
  | r :: rs, lb, m => fillGaps newEc rs (r.ub + 1) (m.fillGap newEc lb r)

/-- The gap behind the overlapped ranges. -/
def fillLastGap (newEc : EcPtr) (range : ECRange) (lb : IPv4Address) (m : EqClassMgr) :
    EqClassMgr :=
  if h : lb ≤ range.ub then
    m.addRange newEc { lb := lb, ub := range.ub, ec := newEc, le := h }
  else m

/-- The ranges the two loops of `add_non_overlapped_ec` walk over. -/
def overlappedRanges (m : EqClassMgr) (range : ECRange) : List ECRange :=
  (m.allRanges.dropWhile fun r => ¬ ECRange.Overlaps r range).takeWhile
    fun r => ECRange.Overlaps r range

def addNonOverlappedEc (A : Allocator) (range : ECRange) (owned : Bool) (m : EqClassMgr) :
    EqClassMgr :=
  let overlapped := m.overlappedRanges range
  let (new, m) := m.newEc A
  let (lb, m) := fillGaps new overlapped range.lb m
  let m := m.fillLastGap new range lb
  -- nothing was left between the ranges
  if m.ranges new = [] then m
  else
    let m := m.insertEc new
    if owned then m.insertOwned new else m

/-- `get_overlapped_ecs`: backwards and forwards from the range `find` returns. -/
def getOverlappedEcs (m : EqClassMgr) (range : ECRange) (ownedOnly : Bool) : List EcPtr :=
  let before := m.allRanges.takeWhile fun r => ECRange.lt r range
  let after := Ordered.lowerBound ECRange.lt range m.allRanges
  match Ordered.find ECRange.lt range m.allRanges with
  | none => []
  | some _ =>
    -- from the found range the others are met in both directions
    let hits := before.reverse.takeWhile (fun r => ECRange.Overlaps r range) ++
      after.takeWhile fun r => ECRange.Overlaps r range
    Ordered.ofList (· < ·)
      ((hits.filter fun r => !ownedOnly || decide (r.ec ∈ m.ownedEcs)).map ECRange.ec)

/-- `ECRange::contains(const EqClass &)`: from the first range to the last. -/
def containsEc (m : EqClassMgr) (range : ECRange) (ec : EcPtr) : Option Bool := do
  let first ← (m.ranges ec).head?
  let last ← (m.ranges ec).getLast?
  return range.lb ≤ first.lb && last.ub ≤ range.ub

/-- The body of the loop of `add_ec` over the overlapped classes. -/
def addOverlappedEc (A : Allocator) (range : ECRange) (owned : Bool) (m : EqClassMgr)
    (ec : EcPtr) : Option EqClassMgr := do
  if ← m.containsEc range ec then
    return if owned then m.insertOwned ec else m
  else
    m.splitIntersectedEc A ec range owned

/-- `add_ec`; `none` where the program would abort. -/
def addEc (A : Allocator) (range : IPRange) (owned : Bool) (m : EqClassMgr) :
    Option EqClassMgr := do
  let key := ECRange.ofRange range
  let m ← (m.getOverlappedEcs key false).foldlM (addOverlappedEc A key owned) m
  return m.addNonOverlappedEc A key owned

/-- `add_ec(const IPNetwork &)`. -/
def addEcNetwork (A : Allocator) (net : IPNetwork) (m : EqClassMgr) : Option EqClassMgr :=
  m.addEc A net.range false

/-- `add_ec(const IPv4Address &, bool)`. -/
def addEcAddr (A : Allocator) (addr : IPv4Address) (owned : Bool) (m : EqClassMgr) :
    Option EqClassMgr :=
  m.addEc A (.ofAddr addr) owned

/-- `find_ec`; `none` where it reports that there is no class. -/
def findEc (m : EqClassMgr) (ip : IPv4Address) : Option EcPtr :=
  (Ordered.find ECRange.lt (ECRange.ofRange (.ofAddr ip)) m.allRanges).map ECRange.ec

end EqClassMgr

end Neo
