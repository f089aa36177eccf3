import Mathlib.Algebra.Order.BigOperators.Group.List
import Mathlib.Algebra.Order.Ring.Int
import Mathlib.Data.Set.Finite.Lattice
import Mathlib.Tactic.Linarith
import Neo.Emulation.Punctual

/-! How long an injection waits for packets. The time follows the latencies of the packets that
came back: a moving average, and a moving mean deviation from it, in whole microseconds. -/

namespace Neo

structure DropTimeout where
  latAvg : Int
  latMdev : Int
  timeout : Int
  hasInitialEstimate : Bool
  nprocs : Nat
  mdevScalar : Int
deriving DecidableEq

namespace DropTimeout

def mean (latencies : List Int) : Int := latencies.sum.tdiv latencies.length

def reset : DropTimeout := ⟨0, 0, 0, false, 0, 0⟩

variable (d : DropTimeout)

/-- The latencies are those of `estimate_pkt_lat`, which leaves no timeout behind. -/
def init (latencies : List Int) : Option DropTimeout :=
  if d.hasInitialEstimate then some d
  -- the sum is divided by the number of latencies
  else if latencies = [] then none
  else
    let avg := mean latencies
    let mdev := mean (latencies.map fun lat => ((lat - avg).natAbs : Int))
    some { d with latAvg := avg, latMdev := mdev, timeout := 0, hasInitialEstimate := true }

/-- `scale` gives the ceiling of `sqrt(nprocs) * 2 * load` on the cores of the machine. -/
def adjustLatencyEstimateByNprocs (scale : Nat → Int) (nprocs : Nat) : DropTimeout :=
  let mdevScalar := max 5 (scale nprocs)
  { d with nprocs, mdevScalar, timeout := d.latAvg + d.latMdev * mdevScalar }

def updateTimeout (lat : Int) : DropTimeout :=
  let err := lat - d.latAvg
  let latAvg := d.latAvg + err.tdiv 5
  let latMdev := d.latMdev + ((err.natAbs : Int) - d.latMdev).tdiv 5
  { d with latAvg, latMdev, timeout := latAvg + latMdev * d.mdevScalar }

/-- The end of `send_pkt`: there is a latency only where packets were received. -/
def sendPkt : Option Int → DropTimeout
  | some lat => d.updateTimeout lat
  | none => d

inductive Act
  /-- The next invariant is verified, by so many processes. -/
  | adjust (nprocs : Nat)
  | sendPkt (lat : Option Int)

def act (scale : Nat → Int) : Act → DropTimeout
  | .adjust nprocs => d.adjustLatencyEstimateByNprocs scale nprocs
  | .sendPkt lat => d.sendPkt lat

def start (scale : Nat → Int) (latencies : List Int) (nprocs : Nat) : Option DropTimeout :=
  (reset.init latencies).map fun d => d.adjustLatencyEstimateByNprocs scale nprocs

def run (scale : Nat → Int) (acts : List Act) : DropTimeout :=
  acts.foldl (fun d a => d.act scale a) d

/-- What one packet brings that is sent to a middlebox whose first packets are there after `lat`,
where no thread loses time: the latency that is measured, or nothing. -/
inductive Sends (lat : Nat) : Option Int → Prop
  | returned {call : SendCall} {tr : List (Link RecvState RecvEvent)} {t : RecvState}
      {r : InjectionResult} (htimeout : call.timeout = d.timeout.toNat)
      (hrun : Run call.step SendCall.start tr t)
      (hpunctual : ∀ l ∈ tr, call.punctual lat l = true) (hr : t.main = .returned r) :
      Sends lat (if r.recvPkts = [] then none else (SendCall.pktLat tr).map Int.ofNat)

inductive SendsAll (lat : Nat) : DropTimeout → List (Option Int) → DropTimeout → Prop
  | nil (d : DropTimeout) : SendsAll lat d [] d
  | cons {d d' : DropTimeout} {o : Option Int} {os : List (Option Int)} (hsend : d.Sends lat o)
      (hrest : SendsAll lat (d.sendPkt o) os d') : SendsAll lat d (o :: os) d'

def Reached (scale : Nat → Int) : Prop :=
  ∃ latencies nprocs d₀ acts, start scale latencies nprocs = some d₀ ∧ d₀.run scale acts = d ∧
    (∀ lat ∈ latencies, 0 ≤ lat) ∧ ∀ lat, .sendPkt (some lat) ∈ acts → 0 ≤ lat

structure Within (lo hi : Int) : Prop where
  lo_le : lo ≤ d.latAvg
  le_hi : d.latAvg ≤ hi
  nonneg : 0 ≤ d.latMdev
  mdev_le : d.latMdev ≤ hi - lo

structure Estimated : Prop where
  nonneg : 0 ≤ d.latMdev
  five_le : 5 ≤ d.mdevScalar
  timeout : d.timeout = d.latAvg + d.latMdev * d.mdevScalar

structure Settled (lat : Int) : Prop where
  avg : (lat - d.latAvg).natAbs ≤ 4
  mdev : (((lat - d.latAvg).natAbs : Int) - d.latMdev).natAbs ≤ 4

/-- How far the estimate is from a latency. The difference of the average counts twice, since the
deviation follows it. -/
def distance (lat : Int) : Nat :=
  2 * (lat - d.latAvg).natAbs + (((lat - d.latAvg).natAbs : Int) - d.latMdev).natAbs

variable {d : DropTimeout} {scale : Nat → Int} {latencies : List Int} {lat lo hi : Int}

/-! ### Rounding -/

theorem tdiv_five (x : Int) :
    (0 ≤ x ∧ 5 * x.tdiv 5 ≤ x ∧ x < 5 * x.tdiv 5 + 5) ∨
      (x < 0 ∧ x ≤ 5 * x.tdiv 5 ∧ 5 * x.tdiv 5 < x + 5) := by
  rcases lt_or_ge x 0 with hneg | hpos
  · right
    have hfifth : x.tdiv 5 = -(-x / 5) := by
      rw [← Int.tdiv_eq_ediv_of_nonneg (by omega), Int.neg_tdiv, neg_neg]
    rw [hfifth]
    omega
  · left
    rw [Int.tdiv_eq_ediv_of_nonneg hpos]
    omega

theorem mean_mem (hne : latencies ≠ []) (h : ∀ lat ∈ latencies, lo ≤ lat ∧ lat ≤ hi) :
    lo ≤ mean latencies ∧ mean latencies ≤ hi := by
  have hpos : (0 : Int) < latencies.length := by
    exact_mod_cast List.length_pos_iff.mpr hne
  have hlower : lo * latencies.length ≤ latencies.sum := by
    simpa [mul_comm] using List.card_nsmul_le_sum latencies lo fun lat hlat => (h lat hlat).1
  have hupper : latencies.sum ≤ hi * latencies.length := by
    simpa [mul_comm] using List.sum_le_card_nsmul latencies hi fun lat hlat => (h lat hlat).2
  have hlo := Int.tdiv_le_tdiv hpos hlower
  have hhi := Int.tdiv_le_tdiv hpos hupper
  rw [Int.mul_tdiv_cancel _ hpos.ne'] at hlo hhi
  exact ⟨hlo, hhi⟩

/-! ### Runs -/

theorem init_reset {d₀ : DropTimeout} (h : reset.init latencies = some d₀) :
    latencies ≠ [] ∧ d₀.latAvg = mean latencies ∧
      d₀.latMdev = mean (latencies.map fun lat => ((lat - mean latencies).natAbs : Int)) := by
  have hne : latencies ≠ [] := by
    rintro rfl
    simp [init, reset] at h
  simp only [init, reset, hne, if_false, Bool.false_eq_true, Option.some.injEq] at h
  subst h
  exact ⟨hne, rfl, rfl⟩

theorem within_init {d₀ : DropTimeout} (h : reset.init latencies = some d₀)
    (hmem : ∀ lat ∈ latencies, lo ≤ lat ∧ lat ≤ hi) : d₀.Within lo hi := by
  obtain ⟨hne, havg, hmdev⟩ := init_reset h
  obtain ⟨hlo, hhi⟩ := mean_mem hne hmem
  have hdiffs : ∀ x ∈ latencies.map fun lat => ((lat - mean latencies).natAbs : Int),
      0 ≤ x ∧ x ≤ hi - lo := by
    intro x hx
    obtain ⟨lat, hlat, rfl⟩ := List.mem_map.mp hx
    have hbounds := hmem lat hlat
    omega
  obtain ⟨hnonneg, hle⟩ := mean_mem (by simpa using hne) hdiffs
  rw [← hmdev] at hnonneg hle
  exact ⟨havg ▸ hlo, havg ▸ hhi, hnonneg, hle⟩

theorem within_updateTimeout (h : d.Within lo hi) (hlat : lo ≤ lat ∧ lat ≤ hi) :
    (d.updateTimeout lat).Within lo hi := by
  obtain ⟨hlo, hhi, hnonneg, hle⟩ := h
  have havg := tdiv_five (lat - d.latAvg)
  have hmdev := tdiv_five (((lat - d.latAvg).natAbs : Int) - d.latMdev)
  constructor
  all_goals
    simp only [updateTimeout]
    omega

theorem within_act {a : Act} (h : d.Within lo hi)
    (hlat : ∀ lat, a = .sendPkt (some lat) → lo ≤ lat ∧ lat ≤ hi) :
    (d.act scale a).Within lo hi := by
  cases a with
  | adjust nprocs => exact ⟨h.lo_le, h.le_hi, h.nonneg, h.mdev_le⟩
  | sendPkt lat =>
    cases lat with
    | none => exact h
    | some lat => exact within_updateTimeout h (hlat lat rfl)

theorem within_run {acts : List Act} (h : d.Within lo hi)
    (hlat : ∀ lat, .sendPkt (some lat) ∈ acts → lo ≤ lat ∧ lat ≤ hi) :
    (d.run scale acts).Within lo hi := by
  unfold run
  apply List.foldlRecOn (motive := fun d : DropTimeout => d.Within lo hi) acts _ h
  intro d hd a ha
  exact within_act hd fun lat hsend => hlat lat (hsend ▸ ha)

theorem estimated_adjust (h : 0 ≤ d.latMdev) (nprocs : Nat) :
    (d.adjustLatencyEstimateByNprocs scale nprocs).Estimated :=
  ⟨h, le_max_left .., rfl⟩

theorem estimated_updateTimeout (h : d.Estimated) : (d.updateTimeout lat).Estimated := by
  refine ⟨?_, h.five_le, rfl⟩
  have hnonneg := h.nonneg
  have hmdev := tdiv_five (((lat - d.latAvg).natAbs : Int) - d.latMdev)
  simp only [updateTimeout]
  omega

theorem estimated_act {a : Act} (h : d.Estimated) : (d.act scale a).Estimated := by
  cases a with
  | adjust nprocs => exact estimated_adjust h.nonneg nprocs
  | sendPkt lat =>
    cases lat with
    | none => exact h
    | some lat => exact estimated_updateTimeout h

theorem estimated_run {acts : List Act} (h : d.Estimated) : (d.run scale acts).Estimated := by
  unfold run
  exact List.foldlRecOn acts _ h fun d hd a _ => estimated_act hd

theorem within_start {d₀ : DropTimeout} {nprocs : Nat} (h : start scale latencies nprocs = some d₀)
    (hmem : ∀ lat ∈ latencies, lo ≤ lat ∧ lat ≤ hi) : d₀.Within lo hi := by
  obtain ⟨d, hinit, rfl⟩ := Option.map_eq_some_iff.mp h
  obtain ⟨hlo, hhi, hnonneg, hle⟩ := within_init hinit hmem
  exact ⟨hlo, hhi, hnonneg, hle⟩

theorem estimated_start {d₀ : DropTimeout} {nprocs : Nat}
    (h : start scale latencies nprocs = some d₀) : d₀.Estimated := by
  obtain ⟨d, hinit, rfl⟩ := Option.map_eq_some_iff.mp h
  have hsum : 0 ≤ (latencies.map fun lat => ((lat - mean latencies).natAbs : Int)).sum := by
    apply List.sum_nonneg
    intro x hx
    obtain ⟨lat, -, rfl⟩ := List.mem_map.mp hx
    exact Int.natCast_nonneg _
  have hnonneg : 0 ≤ d.latMdev := by
    rw [(init_reset hinit).2.2]
    exact Int.tdiv_nonneg hsum (Int.natCast_nonneg _)
  exact estimated_adjust hnonneg nprocs

theorem timeout_of_within (h : d.Within lo hi) (hestimated : d.Estimated) :
    lo ≤ d.timeout ∧ d.timeout ≤ hi + (hi - lo) * d.mdevScalar := by
  obtain ⟨hlo, hhi, hnonneg, hle⟩ := h
  have hscalar : 0 ≤ d.mdevScalar := by
    have hfive := hestimated.five_le
    omega
  have hmin := mul_nonneg hnonneg hscalar
  have hmax := mul_le_mul_of_nonneg_right hle hscalar
  rw [hestimated.timeout]
  exact ⟨by omega, by omega⟩

/-- Whatever is measured, and however many processes there are, the timeout is at least the
shortest latency and at most the longest plus as many times the range as the deviation counts. -/
theorem timeout_between (scale : Nat → Int) (latencies : List Int) (nprocs : Nat)
    (d₀ : DropTimeout) (acts : List Act) (lo hi : Int)
    (hstart : start scale latencies nprocs = some d₀)
    (hinit : ∀ lat ∈ latencies, lo ≤ lat ∧ lat ≤ hi)
    (hacts : ∀ lat, .sendPkt (some lat) ∈ acts → lo ≤ lat ∧ lat ≤ hi) :
    lo ≤ (d₀.run scale acts).timeout ∧
      (d₀.run scale acts).timeout ≤ hi + (hi - lo) * (d₀.run scale acts).mdevScalar := by
  have hwithin : (d₀.run scale acts).Within lo hi := within_run (within_start hstart hinit) hacts
  have hestimated : (d₀.run scale acts).Estimated := estimated_run (estimated_start hstart)
  exact timeout_of_within hwithin hestimated

theorem timeout_between_lost :
    ∃ d₀, start (fun _ => 0) [10, 14] 2 = some d₀ ∧
      10 ≤ (d₀.run (fun _ => 0) [.sendPkt (some 13), .sendPkt none]).timeout :=
  ⟨_, rfl, (timeout_between (fun _ => 0) [10, 14] 2 _ [.sendPkt (some 13), .sendPkt none] 10 14 rfl
    (by decide) (by simp)).1⟩

theorem estimated_of_reached (h : d.Reached scale) : d.Estimated := by
  obtain ⟨latencies, nprocs, d₀, acts, hstart, rfl, -, -⟩ := h
  exact estimated_run (estimated_start hstart)

theorem timeout_nonneg (h : d.Reached scale) : 0 ≤ d.timeout := by
  have hestimated := estimated_of_reached h
  obtain ⟨latencies, nprocs, d₀, acts, hstart, rfl, hinit, hacts⟩ := h
  -- there are finitely many latencies, so that they have a bound
  have hsends : {lat | Act.sendPkt (some lat) ∈ acts}.Finite :=
    acts.finite_toSet.preimage fun _ _ _ _ heq => Option.some.inj (Act.sendPkt.inj heq)
  obtain ⟨hi, hbound⟩ := (latencies.finite_toSet.union hsends).bddAbove
  have hwithin : (d₀.run scale acts).Within 0 hi :=
    within_run (within_start hstart fun lat hlat => ⟨hinit lat hlat, hbound (.inl hlat)⟩)
      fun lat hlat => ⟨hacts lat hlat, hbound (.inr hlat)⟩
  exact (timeout_of_within hwithin hestimated).1

/-! ### A steady latency -/

theorem settled_updateTimeout (h : d.Settled lat) : (d.updateTimeout lat).Settled lat := by
  obtain ⟨havg, hmdev⟩ := h
  have hfifth := tdiv_five (lat - d.latAvg)
  have hfifth' := tdiv_five (((lat - d.latAvg).natAbs : Int) - d.latMdev)
  constructor
  all_goals
    simp only [updateTimeout]
    omega

theorem distance_updateTimeout (h : ¬d.Settled lat) :
    (d.updateTimeout lat).distance lat < d.distance lat := by
  have hfar : ¬((lat - d.latAvg).natAbs ≤ 4 ∧
      (((lat - d.latAvg).natAbs : Int) - d.latMdev).natAbs ≤ 4) := fun hs => h ⟨hs.1, hs.2⟩
  have hfifth := tdiv_five (lat - d.latAvg)
  have hfifth' := tdiv_five (((lat - d.latAvg).natAbs : Int) - d.latMdev)
  simp only [distance, updateTimeout]
  omega

theorem timeout_of_settled (h : d.Settled lat) (hestimated : d.Estimated) :
    d.timeout ≤ lat + 4 + 8 * d.mdevScalar := by
  obtain ⟨havg, hmdev⟩ := h
  obtain ⟨-, hfive, htimeout⟩ := hestimated
  have hle : d.latMdev ≤ 8 := by omega
  have hmore := mul_le_mul_of_nonneg_right hle (show 0 ≤ d.mdevScalar by omega)
  omega

/-- Where a latency is waited for, it is waited for again: what the average lacks of it, the
deviation that has been measured makes up for. -/
theorem lt_updateTimeout (h : d.Estimated) (hlat : lat < d.timeout) :
    lat < (d.updateTimeout lat).timeout := by
  have hkept : (d.updateTimeout lat).Estimated := estimated_updateTimeout h
  have hnonneg' := hkept.nonneg
  obtain ⟨hnonneg, hfive, htimeout⟩ := h
  have havg := tdiv_five (lat - d.latAvg)
  have hmdev := tdiv_five (((lat - d.latAvg).natAbs : Int) - d.latMdev)
  simp only [updateTimeout] at hnonneg' ⊢
  set avg := d.latAvg + (lat - d.latAvg).tdiv 5
  set mdev := d.latMdev + (((lat - d.latAvg).natAbs : Int) - d.latMdev).tdiv 5
  have hscaled : mdev * 5 ≤ mdev * d.mdevScalar := mul_le_mul_of_nonneg_left hfive hnonneg'
  rcases lt_or_ge lat d.latAvg with hbelow | habove
  · omega
  · rcases le_or_gt d.latMdev (lat - d.latAvg) with hgrows | hshrinks
    · -- the deviation does not become smaller, nor the difference larger
      have hle : d.latMdev ≤ mdev := by omega
      have hmore := mul_le_mul_of_nonneg_right hle (show 0 ≤ d.mdevScalar by omega)
      omega
    · -- the deviation stays above the difference
      omega

theorem sends_of_lt {lat : Nat} {o : Option Int} (hlat : lat < d.timeout) (h : d.Sends lat o) :
    o = some (lat : Int) := by
  cases h with
  | returned htimeout hrun hpunctual hr =>
    obtain ⟨hpktLat, hne⟩ := SendCall.heard_of_lt (by omega) hrun hpunctual hr
    rw [if_neg hne, hpktLat]
    rfl

theorem sends_of_gt {lat : Nat} {o : Option Int} (hlat : d.timeout < lat) (hpos : 0 ≤ d.timeout)
    (h : d.Sends lat o) : o = none := by
  cases h with
  | returned htimeout hrun hpunctual hr =>
    exact if_pos (SendCall.unheard_of_lt (by omega) hrun hpunctual hr)

theorem sendsAll_of_lt {lat : Nat} {d d' : DropTimeout} {os : List (Option Int)}
    (h : SendsAll lat d os d') (hestimated : d.Estimated) (hlat : lat < d.timeout) :
    (∀ o ∈ os, o = some (lat : Int)) ∧ d' = (fun d => d.updateTimeout lat)^[os.length] d ∧
      d'.Estimated ∧ d'.mdevScalar = d.mdevScalar := by
  induction h with
  | nil d => exact ⟨by simp, rfl, hestimated, rfl⟩
  | cons hsend _ ih =>
    obtain rfl := sends_of_lt hlat hsend
    obtain ⟨hall, hupdates, hkept, hscalar⟩ :=
      ih (estimated_updateTimeout hestimated) (lt_updateTimeout hestimated hlat)
    exact ⟨List.forall_mem_cons.mpr ⟨rfl, hall⟩, hupdates, hkept, hscalar⟩

theorem sendsAll_of_gt {lat : Nat} {d d' : DropTimeout} {os : List (Option Int)}
    (h : SendsAll lat d os d') (hpos : 0 ≤ d.timeout) (hlat : d.timeout < lat) :
    (∀ o ∈ os, o = none) ∧ d' = d := by
  induction h with
  | nil d => exact ⟨by simp, rfl⟩
  | cons hsend _ ih =>
    obtain rfl := sends_of_gt hlat hpos hsend
    obtain ⟨hall, heq⟩ := ih hpos hlat
    exact ⟨List.forall_mem_cons.mpr ⟨rfl, hall⟩, heq⟩

def tenMicroseconds : DropTimeout := ⟨10, 0, 10, true, 1, 5⟩

theorem reached_tenMicroseconds : tenMicroseconds.Reached fun _ => 0 :=
  ⟨[10], 1, _, [], rfl, rfl, by decide, by simp⟩

end DropTimeout

end Neo
