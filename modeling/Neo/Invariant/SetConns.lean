import Neo.ConnMatrix

/-! How an invariant enumerates its connections. A plain invariant runs through its matrix. One
with correlated sub-invariants asks them in turn: the first that has a next connection answers,
and those before it are reset without taking a connection. -/

namespace Neo

structure SubInvariant (α : Type*) where
  connMatrix : ConnectionMatrix α
  conns : List α

structure Invariant (α : Type*) extends SubInvariant α where
  correlatedInvs : List (SubInvariant α)

variable {α : Type*}

/-- `set_conns` without sub-invariants. -/
def SubInvariant.setConns (p : SubInvariant α) : Option (Bool × SubInvariant α) := do
  let (conns, connMatrix) ← p.connMatrix.getNextConns
  return (!conns.isEmpty, ⟨connMatrix, conns⟩)

namespace Invariant

def numConnEcs (inv : Invariant α) : Nat :=
  if inv.correlatedInvs = [] then inv.connMatrix.numConns
  else (inv.correlatedInvs.map fun p => p.connMatrix.numConns).prod

/-- `compute_conn_matrix`, given what `compute_connections` returns for each specification: the
invariant's own, or the single one of each sub-invariant. -/
def computeConnMatrix (sets : List (List α)) (inv : Invariant α) : Invariant α :=
  if inv.correlatedInvs = [] then { inv with connMatrix := .ofSets sets }
  else { inv with correlatedInvs :=
    inv.correlatedInvs.zipWith (fun p conns => { p with connMatrix := .ofSets [conns] }) sets }

/-- The loop of `set_conns` over the sub-invariants; `none` where the assertion that one holds
a single connection fails. -/
def setCorrelatedConns : List (SubInvariant α) → Option (Bool × List (SubInvariant α))
  | [] => some (false, [])
  | p :: ps => do
    let (found, p) ← p.setConns
    if found then
      if p.conns.length = 1 then some (true, p :: ps) else none
    else
      let (found, ps) ← setCorrelatedConns ps
      return (found, { p with connMatrix := p.connMatrix.reset } :: ps)

def setConns (inv : Invariant α) : Option (Bool × Invariant α) :=
  if inv.correlatedInvs = [] then do
    let (found, p) ← inv.toSubInvariant.setConns
    return (found, { inv with toSubInvariant := p })
  else do
    let (found, ps) ← setCorrelatedConns inv.correlatedInvs
    return (found, { inv with correlatedInvs := ps })

/-- The states after each call of `set_conns` that returns true, up to the first that does
not. -/
inductive Calls {σ : Type*} (set : σ → Option (Bool × σ)) : σ → List σ → Prop
  | stop {s s' : σ} : set s = some (false, s') → Calls set s []
  | next {s s' : σ} {l : List σ} : set s = some (true, s') → Calls set s' l →
      Calls set s (s' :: l)

/-- The calls yield every combination of connections once, each sub-invariant holding one. -/
def EnumeratesCombinations (sets : List (List α)) (inv : Invariant α) : Prop :=
  ∃ (states : List (Invariant α)) (combos : List (List α)), Calls setConns inv states ∧
    states.map (fun s => s.correlatedInvs.map SubInvariant.conns) =
      combos.map (fun combo => combo.map fun conn => [conn]) ∧
    combos.Nodup ∧ (∀ combo, combo ∈ combos ↔ List.Forall₂ (· ∈ ·) combo sets) ∧
    states.length = inv.numConnEcs

end Invariant

namespace SubInvariant

variable {p : SubInvariant α} {t : List α} {ts : List (List α)}

theorem setConns_nil (h : p.connMatrix.Left []) :
    p.setConns = some (false, { p with conns := [] }) := by
  simp [setConns, ConnectionMatrix.getNextConns_nil h]

theorem setConns_cons (h : p.connMatrix.Left (t :: ts)) (hp : p.connMatrix.product ≠ []) :
    ∃ p', p.setConns = some (true, p') ∧ p'.conns = t ∧ p'.connMatrix.Left ts ∧
      p'.connMatrix.product = p.connMatrix.product ∧ t.length = p.connMatrix.product.length := by
  obtain ⟨m', hm', hprod, hleft, hlen⟩ := ConnectionMatrix.getNextConns_cons h
  refine ⟨⟨m', t⟩, ?_, rfl, hleft, hprod, hlen⟩
  have ht : t ≠ [] := fun ht => hp (List.length_eq_zero_iff.mp (by rw [← hlen, ht]; rfl))
  simp [setConns, hm', ht]

theorem calls_setConns (hp : p.connMatrix.product ≠ []) (h : p.connMatrix.Left ts) :
    ∃ states, Invariant.Calls setConns p states ∧ states.map SubInvariant.conns = ts := by
  induction ts generalizing p with
  | nil => exact ⟨[], .stop (setConns_nil h), rfl⟩
  | cons t ts ih =>
    obtain ⟨p', hset, hconns, hleft, hprod, -⟩ := setConns_cons h hp
    obtain ⟨states, hcalls, hmap⟩ := ih (hprod ▸ hp) hleft
    exact ⟨p' :: states, .next hset hcalls, by simp [hconns, hmap]⟩

end SubInvariant

namespace Invariant

theorem calls_plain (inv : Invariant α) (hinv : inv.correlatedInvs = []) (sets : List (List α))
    (hne : sets ≠ []) (hsets : ∀ S ∈ sets, S ≠ [] ∧ S.Nodup) :
    ∃ states, Calls SubInvariant.setConns (inv.computeConnMatrix sets).toSubInvariant states ∧
      (states.map SubInvariant.conns).Nodup ∧
      (∀ conns, conns ∈ states.map SubInvariant.conns ↔ List.Forall₂ (· ∈ ·) conns sets) ∧
      states.length = (inv.computeConnMatrix sets).numConnEcs := by
  have hm : (inv.computeConnMatrix sets).connMatrix = .ofSets sets := by
    simp [computeConnMatrix, hinv]
  have hprod : (ConnectionMatrix.ofSets sets).product = sets := by
    rw [ConnectionMatrix.ofSets_eq]
  obtain ⟨states, hcalls, hmap⟩ := SubInvariant.calls_setConns
    (p := (inv.computeConnMatrix sets).toSubInvariant) (by rw [hm, hprod]; exact hne)
    (by rw [hm]; exact ConnectionMatrix.left_ofSets sets fun S hS => (hsets S hS).1)
  refine ⟨states, hcalls, hmap ▸ Odometer.nodup_tuples fun S hS => (hsets S hS).2,
    fun conns => hmap ▸ Odometer.mem_tuples sets conns, ?_⟩
  have hlen := congrArg List.length hmap
  rw [List.length_map, Odometer.length_tuples] at hlen
  have hnum : (inv.computeConnMatrix sets).numConnEcs =
      (ConnectionMatrix.ofSets sets).numConns := by
    simp [numConnEcs, computeConnMatrix, hinv]
  rw [hlen, hnum, ConnectionMatrix.numConns, hprod]

/-! ### Correlated sub-invariants -/

theorem setCorrelatedConns_cons {p : SubInvariant α} (ps : List (SubInvariant α)) {S : List α}
    {t : List α} {ts : List (List α)} (hp : p.connMatrix.product = [S])
    (h : p.connMatrix.Left (t :: ts)) :
    ∃ p', setCorrelatedConns (p :: ps) = some (true, p' :: ps) ∧ p'.conns = t ∧
      p'.connMatrix.product = [S] ∧ p'.connMatrix.Left ts := by
  obtain ⟨p', hset, hconns, hleft, hprod, hlen⟩ := SubInvariant.setConns_cons h (by simp [hp])
  refine ⟨p', ?_, hconns, hprod.trans hp, hleft⟩
  rw [hp] at hlen
  have hone : p'.conns.length = 1 := by rw [hconns, hlen]; rfl
  simp [setCorrelatedConns, hset, hone]

theorem setCorrelatedConns_nil {p : SubInvariant α} {ps : List (SubInvariant α)}
    (h : p.connMatrix.Left []) :
    setCorrelatedConns (p :: ps) = (setCorrelatedConns ps).map fun r =>
      (r.1, ⟨p.connMatrix.reset, []⟩ :: r.2) := by
  rw [setCorrelatedConns, SubInvariant.setConns_nil h]
  cases setCorrelatedConns ps <;> rfl

theorem setConns_of_ne_nil {inv : Invariant α} {p : SubInvariant α} {ps : List (SubInvariant α)}
    (h : inv.correlatedInvs = p :: ps) :
    inv.setConns = (setCorrelatedConns (p :: ps)).map fun r =>
      (r.1, { inv with correlatedInvs := r.2 }) := by
  rw [setConns, h, if_neg (by simp)]
  cases setCorrelatedConns (p :: ps) <;> rfl

theorem calls_single {inv : Invariant α} {p : SubInvariant α} {S : List α}
    {ts : List (List α)} (hinv : inv.correlatedInvs = [p]) (hp : p.connMatrix.product = [S])
    (h : p.connMatrix.Left ts) :
    ∃ states, Calls setConns inv states ∧
      states.map (fun s => s.correlatedInvs.map SubInvariant.conns) = ts.map fun t => [t] := by
  induction ts generalizing inv p with
  | nil =>
    have hset : inv.setConns =
        some (false, { inv with correlatedInvs := [⟨p.connMatrix.reset, []⟩] }) := by
      rw [setConns_of_ne_nil hinv, setCorrelatedConns_nil h]
      rfl
    exact ⟨[], .stop hset, rfl⟩
  | cons t ts ih =>
    obtain ⟨p', hset, hconns, hprod, hleft⟩ := setCorrelatedConns_cons [] hp h
    have hstep : inv.setConns = some (true, { inv with correlatedInvs := [p'] }) := by
      rw [setConns_of_ne_nil hinv, hset]
      rfl
    have hinv' : Invariant.correlatedInvs { inv with correlatedInvs := [p'] } = [p'] := rfl
    obtain ⟨states, hcalls, hmap⟩ := ih hinv' hprod hleft
    exact ⟨_ :: states, .next hstep hcalls, by simp [hconns, hmap]⟩

theorem exists_empty_of_calls {inv : Invariant α} {p q : SubInvariant α}
    {ps : List (SubInvariant α)} {S T : List α} {ts : List (List α)} {t' : List α}
    {ts' : List (List α)} {states : List (Invariant α)}
    (hinv : inv.correlatedInvs = p :: q :: ps) (hp : p.connMatrix.product = [S])
    (hq : q.connMatrix.product = [T]) (h : p.connMatrix.Left ts)
    (h' : q.connMatrix.Left (t' :: ts')) (hcalls : Calls setConns inv states) :
    ∃ s ∈ states, [] ∈ s.correlatedInvs.map SubInvariant.conns := by
  induction ts generalizing inv p states with
  | nil =>
    obtain ⟨q', hset, -, -, -⟩ := setCorrelatedConns_cons ps hq h'
    have hstep : inv.setConns = some (true,
        { inv with correlatedInvs := ⟨p.connMatrix.reset, []⟩ :: q' :: ps }) := by
      rw [setConns_of_ne_nil hinv, setCorrelatedConns_nil h, hset]
      rfl
    cases hcalls with
    | stop hs => simp [hstep] at hs
    | next hs _ =>
      obtain ⟨-, rfl⟩ := Prod.mk.inj (Option.some.inj (hstep.symm.trans hs))
      exact ⟨_, List.mem_cons_self .., by simp⟩
  | cons t ts ih =>
    obtain ⟨p', hset, -, hprod, hleft⟩ := setCorrelatedConns_cons (q :: ps) hp h
    have hstep : inv.setConns = some (true, { inv with correlatedInvs := p' :: q :: ps }) := by
      rw [setConns_of_ne_nil hinv, hset]
      rfl
    cases hcalls with
    | stop hs => simp [hstep] at hs
    | next hs hrest =>
      obtain ⟨-, rfl⟩ := Prod.mk.inj (Option.some.inj (hstep.symm.trans hs))
      obtain ⟨s, hs, hmem⟩ := ih rfl hprod hleft hrest
      exact ⟨s, List.mem_cons_of_mem _ hs, hmem⟩

theorem computeConnMatrix_cons {inv : Invariant α} {p : SubInvariant α}
    {ps : List (SubInvariant α)} (hinv : inv.correlatedInvs = p :: ps) (S : List α)
    (sets : List (List α)) :
    (inv.computeConnMatrix (S :: sets)).correlatedInvs =
      { p with connMatrix := .ofSets [S] } ::
        ps.zipWith (fun p conns => { p with connMatrix := .ofSets [conns] }) sets := by
  simp [computeConnMatrix, hinv]

theorem product_ofSets_singleton (S : List α) :
    (ConnectionMatrix.ofSets [S]).product = [S] := by
  rw [ConnectionMatrix.ofSets_eq]

theorem left_ofSets_singleton {S : List α} (hS : S ≠ []) :
    (ConnectionMatrix.ofSets [S]).Left (S.map fun a => [a]) := by
  have := ConnectionMatrix.left_ofSets [S] (by simpa using hS)
  simpa [Odometer.tuples] using this

theorem not_enumeratesCombinations {inv : Invariant α} {p q : SubInvariant α}
    {ps : List (SubInvariant α)} (hinv : inv.correlatedInvs = p :: q :: ps) {S T : List α}
    (sets : List (List α)) (hS : S ≠ []) (hT : T ≠ []) :
    ¬ EnumeratesCombinations (S :: T :: sets) (inv.computeConnMatrix (S :: T :: sets)) := by
  rintro ⟨states, combos, hcalls, hmap, -⟩
  have hcomp := computeConnMatrix_cons hinv S (T :: sets)
  rw [List.zipWith_cons_cons] at hcomp
  obtain ⟨b, T', rfl⟩ := List.exists_cons_of_ne_nil hT
  obtain ⟨s, hs, hmem⟩ := exists_empty_of_calls hcomp (product_ofSets_singleton S)
    (product_ofSets_singleton _) (left_ofSets_singleton hS) (left_ofSets_singleton hT) hcalls
  have hs' : s.correlatedInvs.map SubInvariant.conns ∈
      combos.map fun combo => combo.map fun conn => [conn] := by
    rw [← hmap]
    exact List.mem_map_of_mem hs
  obtain ⟨combo, -, hcombo⟩ := List.mem_map.mp hs'
  rw [← hcombo] at hmem
  simp at hmem

theorem enumeratesCombinations_single {inv : Invariant α} {p : SubInvariant α}
    {ps : List (SubInvariant α)} (hinv : inv.correlatedInvs = p :: ps) {S : List α}
    (hS : S ≠ []) (hnodup : S.Nodup) :
    EnumeratesCombinations [S] (inv.computeConnMatrix [S]) := by
  have hcomp := computeConnMatrix_cons hinv S []
  rw [List.zipWith_nil_right] at hcomp
  obtain ⟨states, hcalls, hmap⟩ :=
    calls_single hcomp (product_ofSets_singleton S) (left_ofSets_singleton hS)
  refine ⟨states, S.map fun a => [a], hcalls, by simpa [Function.comp_def] using hmap, ?_,
    fun combo => ?_, ?_⟩
  · exact hnodup.map fun a b hab => (List.cons.inj hab).1
  · simpa [Odometer.tuples] using Odometer.mem_tuples [S] combo
  · have := congrArg List.length hmap
    simpa [numConnEcs, hcomp, ConnectionMatrix.numConns, product_ofSets_singleton] using this

/-- From freshly computed matrices, the calls of `set_conns` yield every combination once
exactly for a single sub-invariant. -/
theorem enumeratesCombinations_iff (inv : Invariant α) (sets : List (List α))
    (hlen : inv.correlatedInvs.length = sets.length) (hk : 1 ≤ sets.length)
    (hsets : ∀ S ∈ sets, S ≠ [] ∧ S.Nodup) :
    EnumeratesCombinations sets (inv.computeConnMatrix sets) ↔ sets.length = 1 := by
  obtain ⟨S, sets, rfl⟩ := List.exists_cons_of_length_pos hk
  obtain ⟨p, ps, hinv⟩ := List.exists_cons_of_length_pos (hlen ▸ hk)
  have hS := hsets S (List.mem_cons_self ..)
  cases sets with
  | nil => exact iff_of_true (enumeratesCombinations_single hinv hS.1 hS.2) rfl
  | cons T sets =>
    obtain ⟨q, ps, rfl⟩ := List.exists_cons_of_length_pos (l := ps) (by
      rw [hinv] at hlen
      simp only [List.length_cons] at hlen
      omega)
    have hT := (hsets T (by simp)).1
    exact iff_of_false (not_enumeratesCombinations hinv sets hS.1 hT) (by simp)

/-- A new invariant with `k` sub-invariants. -/
def withCorrelated (α : Type*) (k : Nat) : Invariant α :=
  ⟨⟨.clear, []⟩, List.replicate k ⟨.clear, []⟩⟩

theorem enumeratesCombinations_one_of_two :
    EnumeratesCombinations [[0, 1]] ((withCorrelated Nat 1).computeConnMatrix [[0, 1]]) :=
  (enumeratesCombinations_iff (withCorrelated Nat 1) [[0, 1]] rfl (by decide) (by decide)).mpr rfl

theorem not_enumeratesCombinations_two :
    ¬ EnumeratesCombinations [[0], [1]] ((withCorrelated Nat 2).computeConnMatrix [[0], [1]]) :=
  not_enumeratesCombinations rfl [] (by decide) (by decide)

end Invariant

end Neo
