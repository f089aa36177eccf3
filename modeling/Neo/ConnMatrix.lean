import Neo.Lib.Odometer

/-! The connection matrix of an invariant: one set of connections for each connection
specification, with an iterator into each. A set is the list of its elements in order. -/

namespace Neo

structure ConnectionMatrix (α : Type*) where
  product : List (List α)
  itrs : List Nat
  traversedAll : Bool

namespace ConnectionMatrix

variable {α : Type*}

def numConns (m : ConnectionMatrix α) : Nat := (m.product.map List.length).prod

/-- `num_conns` as the `size_t` that is returned. -/
def numConnsSize (m : ConnectionMatrix α) : Nat := m.numConns % 2 ^ 64

/-- The state after `clear`, which is also that of a new matrix. -/
def clear : ConnectionMatrix α := ⟨[], [], false⟩

def reset (m : ConnectionMatrix α) : ConnectionMatrix α :=
  { m with itrs := m.product.map fun _ => 0, traversedAll := false }

def add (m : ConnectionMatrix α) (conns : List α) : ConnectionMatrix α :=
  { m with product := m.product ++ [conns], itrs := m.itrs ++ [0] }

/-- `get_next_conns`; `none` where an iterator at the end is dereferenced. -/
def getNextConns (m : ConnectionMatrix α) : Option (List α × ConnectionMatrix α) :=
  if m.traversedAll then some ([], m)
  else do
    let conns ← Odometer.read m.product m.itrs
    let (traversedAll, itrs) := Odometer.advance m.product m.itrs
    return (conns, { m with itrs := itrs, traversedAll := traversedAll })

/-- What a number of calls of `get_next_conns` return, and the matrix they leave. -/
def nextConns : Nat → ConnectionMatrix α → Option (List (List α) × ConnectionMatrix α)
  | 0, m => some ([], m)
  | n + 1, m => do
    let (conns, m) ← m.getNextConns
    let (rest, m) ← nextConns n m
    return (conns :: rest, m)

def ofSets (sets : List (List α)) : ConnectionMatrix α := sets.foldl add clear

theorem ofSets_eq (sets : List (List α)) :
    ofSets sets = ⟨sets, sets.map fun _ => 0, false⟩ := by
  have key : ∀ m : ConnectionMatrix α, sets.foldl add m =
      ⟨m.product ++ sets, m.itrs ++ sets.map fun _ => 0, m.traversedAll⟩ := by
    induction sets with
    | nil => simp
    | cons S sets ih => simp [ih, add]
  exact (key clear).trans (by simp [clear])

def Left (m : ConnectionMatrix α) (ts : List (List α)) : Prop :=
  if m.traversedAll then ts = []
  else Odometer.InRange m.product m.itrs ∧ Odometer.remaining m.product m.itrs = ts

theorem left_ofSets (sets : List (List α)) (h : ∀ S ∈ sets, S ≠ []) :
    (ofSets sets).Left (Odometer.tuples sets) := by
  rw [ofSets_eq]
  exact Odometer.remaining_zeros h

theorem getNextConns_nil {m : ConnectionMatrix α} (h : m.Left []) :
    m.getNextConns = some ([], m) := by
  cases ht : m.traversedAll with
  | true => simp [getNextConns, ht]
  | false =>
    simp only [Left, ht, Bool.false_eq_true, ↓reduceIte] at h
    obtain ⟨t, ts, -, -, hrem, -⟩ := Odometer.turn h.1
    exact absurd (hrem.symm.trans h.2) (by simp)

theorem getNextConns_cons {m : ConnectionMatrix α} {t : List α} {ts : List (List α)}
    (h : m.Left (t :: ts)) :
    ∃ m', m.getNextConns = some (t, m') ∧ m'.product = m.product ∧ m'.Left ts ∧
      t.length = m.product.length := by
  cases ht : m.traversedAll with
  | true => simp [Left, ht] at h
  | false =>
    simp only [Left, ht, Bool.false_eq_true, ↓reduceIte] at h
    obtain ⟨t', ts', hread, hlen, hrem, hend, hnext⟩ := Odometer.turn h.1
    obtain ⟨rfl, rfl⟩ := List.cons.inj (hrem.symm.trans h.2)
    refine ⟨⟨m.product, (Odometer.advance m.product m.itrs).2,
      (Odometer.advance m.product m.itrs).1⟩, by simp [getNextConns, ht, hread], rfl, ?_, hlen⟩
    unfold Left
    dsimp only
    split_ifs with hw
    · exact hend hw
    · exact hnext (Bool.eq_false_iff.mpr hw)

theorem nextConns_left {m : ConnectionMatrix α} {ts : List (List α)} (h : m.Left ts) (n : Nat) :
    ∃ m', m.nextConns n = some (ts.take n ++ List.replicate (n - ts.length) [], m') ∧
      m'.product = m.product := by
  induction n generalizing m ts with
  | zero => exact ⟨m, by simp [nextConns], rfl⟩
  | succ n ih =>
    cases ts with
    | nil =>
      obtain ⟨m', hnext, hprod⟩ := ih h
      refine ⟨m', ?_, hprod⟩
      simp only [nextConns, getNextConns_nil h, hnext, Option.bind_eq_bind, Option.bind_some]
      simp [List.replicate_succ]
    | cons t ts =>
      obtain ⟨m₁, hget, hprod₁, hleft, -⟩ := getNextConns_cons h
      obtain ⟨m', hnext, hprod⟩ := ih hleft
      refine ⟨m', ?_, hprod.trans hprod₁⟩
      simp only [nextConns, hget, hnext, Option.bind_eq_bind, Option.bind_some]
      simp

theorem reset_eq_ofSets {m : ConnectionMatrix α} {sets : List (List α)} (h : m.product = sets) :
    m.reset = ofSets sets := by
  rw [ofSets_eq, ← h]
  rfl

theorem getNextConns_of_empty {sets : List (List α)} (h : [] ∈ sets) :
    (ofSets sets).getNextConns = none := by
  have hread : Odometer.read sets (sets.map fun _ => 0) = none := by
    induction sets with
    | nil => simp at h
    | cons S sets ih =>
      rcases List.mem_cons.mp h with hnil | hmem
      · simp [Odometer.read, ← hnil]
      · rw [List.map_cons, Odometer.read, ih hmem]
        cases S[0]? <;> rfl
  rw [ofSets_eq]
  simp only [getNextConns, hread, Bool.false_eq_true, ↓reduceIte, Option.bind_eq_bind,
    Option.bind_none]

/-- The calls of `get_next_conns` return every tuple of the product once, as many as `num_conns`
says, and then nothing; after any number of calls `reset` starts again. -/
def EnumeratesProduct (sets : List (List α)) : Prop :=
  ∃ ts : List (List α), ts.Nodup ∧ (∀ t, t ∈ ts ↔ List.Forall₂ (· ∈ ·) t sets) ∧ [] ∉ ts ∧
    ts.length = (ofSets sets).numConnsSize ∧
    ∀ n, ∃ m, (ofSets sets).nextConns n =
        some (ts.take n ++ List.replicate (n - ts.length) [], m) ∧ m.reset = ofSets sets

/-- The product is enumerated if and only if no set is empty and `num_conns` does not overflow. -/
theorem enumeratesProduct_iff (sets : List (List α)) (hne : sets ≠ [])
    (hnodup : ∀ S ∈ sets, S.Nodup) :
    EnumeratesProduct sets ↔
      (∀ S ∈ sets, S ≠ []) ∧ (sets.map List.length).prod < 2 ^ 64 := by
  have hnum : (ofSets sets).numConns = (Odometer.tuples sets).length := by
    rw [numConns, ofSets_eq, Odometer.length_tuples]
  constructor
  · rintro ⟨ts, hts, hmem, -, hlen, hcalls⟩
    constructor
    · rintro S hS rfl
      obtain ⟨m, hm, -⟩ := hcalls 1
      simp [nextConns, getNextConns_of_empty hS] at hm
    · have hperm : ts.Perm (Odometer.tuples sets) := by
        apply (List.perm_ext_iff_of_nodup hts (Odometer.nodup_tuples hnodup)).mpr
        intro t
        rw [hmem, Odometer.mem_tuples]
      rw [numConnsSize, hnum, hperm.length_eq] at hlen
      rw [← Odometer.length_tuples, hlen]
      exact Nat.mod_lt _ (by decide)
  · rintro ⟨hsets, hlt⟩
    refine ⟨Odometer.tuples sets, Odometer.nodup_tuples hnodup, Odometer.mem_tuples sets, ?_, ?_,
      fun n => ?_⟩
    · intro hnil
      have hforall := (Odometer.mem_tuples sets []).mp hnil
      cases hforall
      exact hne rfl
    · rw [numConnsSize, hnum, Nat.mod_eq_of_lt]
      rwa [Odometer.length_tuples]
    · obtain ⟨m, hnext, hprod⟩ := nextConns_left (left_ofSets sets hsets) n
      refine ⟨m, hnext, reset_eq_ofSets ?_⟩
      rw [hprod, ofSets_eq]

theorem enumeratesProduct_pair : EnumeratesProduct [[0, 1], [2, 3, 4]] :=
  (enumeratesProduct_iff [[0, 1], [2, 3, 4]] (by decide) (by decide)).mpr (by decide)

/-- Where the second specification has no connections, none can be read. -/
theorem not_enumeratesProduct : ¬ EnumeratesProduct [[0], ([] : List Nat)] := by
  rintro ⟨ts, -, -, -, -, hcalls⟩
  obtain ⟨m, hm, -⟩ := hcalls 1
  simp [nextConns, getNextConns_of_empty] at hm

end ConnectionMatrix

end Neo
