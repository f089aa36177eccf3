import Neo.Ip
import Neo.Lib.Ordered

/-! Routes and routing tables. A table is a multiset in the order of routes: longest prefix
first, then by address, so that all routes of a network stand together. -/

namespace Neo

/-- The name of an interface. Names are only compared; 0 stands for the empty one. -/
abbrev IntfName := Nat

structure Route where
  network : IPNetwork
  nextHop : IPv4Address
  egressIntf : IntfName
  admDist : Int
deriving DecidableEq

namespace Route

/-- `operator<`. -/
def lt (a b : Route) : Prop :=
  b.network.prefixLength < a.network.prefixLength ∨
    a.network.prefixLength = b.network.prefixLength ∧ a.network.addr < b.network.addr

instance : DecidableRel lt := fun _ _ => inferInstanceAs (Decidable (_ ∨ _))

theorem weakSorted_nil : Ordered.WeakSorted lt [] := .nil

def hasSamePath (r other : Route) : Bool :=
  if r.egressIntf = 0 then r.network = other.network ∧ r.nextHop = other.nextHop
  else r.network = other.network ∧ r.egressIntf = other.egressIntf

instance : IsTrans Route lt :=
  ⟨fun a b c hab hbc => by
    unfold lt at *
    rcases hab with h₁ | ⟨h₁, h₂⟩ <;> rcases hbc with h₃ | ⟨h₃, h₄⟩
    · exact .inl (by omega)
    · exact .inl (by omega)
    · exact .inl (by omega)
    · exact .inr ⟨h₁.trans h₃, BitVec.lt_trans h₂ h₄⟩⟩

theorem equiv_iff {a b : Route} : Ordered.Equiv lt a b ↔ a.network = b.network := by
  simp only [Ordered.Equiv, lt]
  constructor
  · rintro ⟨h₁, h₂⟩
    obtain ⟨⟨⟨a₁, l₁, _⟩, _⟩, _, _, _⟩ := a
    obtain ⟨⟨⟨a₂, l₂, _⟩, _⟩, _, _, _⟩ := b
    have hl : l₁ = l₂ := by
      dsimp only at h₁ h₂
      omega
    subst hl
    have ha : a₁ = a₂ := BitVec.le_antisymm
      (BitVec.not_lt.mp fun h => h₂ (.inr ⟨rfl, h⟩)) (BitVec.not_lt.mp fun h => h₁ (.inr ⟨rfl, h⟩))
    subst ha
    rfl
  · intro h
    simp only [h, lt_self_iff_false, true_and, false_or]
    exact ⟨BitVec.lt_irrefl _, BitVec.lt_irrefl _⟩

end Route

/-- A `std::multiset<Route>`. -/
abbrev RoutingTable := List Route

namespace RoutingTable

def equalRange (tbl : RoutingTable) (route : Route) : List Route :=
  Ordered.equalRange Route.lt route tbl

def erase (tbl : RoutingTable) (route : Route) : RoutingTable :=
  Ordered.erase Route.lt route tbl

/-- `insert`: what is there of the same network and a smaller administrative distance keeps the
route out, what has a larger one makes room for it. -/
def insert (tbl : RoutingTable) (route : Route) : RoutingTable :=
  match tbl.equalRange route with
  | [] => Ordered.insertMulti Route.lt route tbl
  | r :: rs =>
    if r.admDist < route.admDist then tbl
    else if r.admDist > route.admDist then Ordered.insertMulti Route.lt route (tbl.erase route)
    else if (r :: rs).any fun r => r.hasSamePath route then tbl
    else Ordered.insertMulti Route.lt route tbl

/-- `update`: the route replaces all of its network. -/
def update (tbl : RoutingTable) (route : Route) : RoutingTable :=
  Ordered.insertMulti Route.lt route (tbl.erase route)

/-- `lookup`: the routes of the first network that contains the address. -/
def lookup (tbl : RoutingTable) (dst : IPv4Address) : List Route :=
  match tbl.find? fun r => r.network.contains dst with
  | some r => tbl.equalRange r
  | none => []

end RoutingTable

end Neo
