import Mathlib.Algebra.Ring.Nat
import Mathlib.Data.List.Induction
import Mathlib.Logic.Function.Iterate
import Mathlib.Logic.Relation
import Mathlib.Tactic.Common

/-! Finite runs of a labelled transition system, kept with the state before and after every
step, and the rules that turn facts about one step into facts about a run. -/

variable {σ α : Type*}

structure Link (σ α : Type*) where
  before : σ
  act : α
  after : σ

inductive Run (step : σ → α → Option σ) : σ → List (Link σ α) → σ → Prop
  | nil (s : σ) : Run step s [] s
  | cons {s s' t : σ} {a : α} {tr : List (Link σ α)} : step s a = some s' → Run step s' tr t →
      Run step s (⟨s, a, s'⟩ :: tr) t

namespace Run

variable {step : σ → α → Option σ} {s t : σ} {tr : List (Link σ α)}

theorem link (h : Run step s tr t) : ∀ l ∈ tr, step l.before l.act = some l.after := by
  induction h with
  | nil => simp
  | cons hs _ ih => simpa [hs] using ih

theorem invariant (Inv : σ → Prop) (h : Run step s tr t) (h₀ : Inv s)
    (hstep : ∀ l ∈ tr, step l.before l.act = some l.after → Inv l.before → Inv l.after) :
    Inv t ∧ ∀ l ∈ tr, Inv l.before ∧ Inv l.after := by
  induction h with
  | nil => exact ⟨h₀, by simp⟩
  | @cons s s' t a tr hs _ ih =>
    have h₁ : Inv s' := hstep ⟨s, a, s'⟩ (List.mem_cons_self ..) hs h₀
    obtain ⟨ht, hall⟩ := ih h₁ fun l hl => hstep l (List.mem_cons_of_mem _ hl)
    refine ⟨ht, fun l hl => ?_⟩
    rcases List.mem_cons.mp hl with rfl | hl
    · exact ⟨h₀, h₁⟩
    · exact hall l hl

/-- What every step preserves, together with what is recorded of the steps so far, holds at the
end of a run of what was recorded along it. -/
theorem foldl_invariant {γ : Type*} (record : γ → Link σ α → γ) (Inv : γ → σ → Prop)
    (h : Run step s tr t) {g : γ} (h₀ : Inv g s)
    (hstep : ∀ l ∈ tr, step l.before l.act = some l.after → ∀ g, Inv g l.before →
      Inv (record g l) l.after) : Inv (tr.foldl record g) t := by
  induction h generalizing g with
  | nil => exact h₀
  | @cons s s' t a tr hs _ ih =>
    have h₁ : Inv (record g ⟨s, a, s'⟩) s' := hstep ⟨s, a, s'⟩ (List.mem_cons_self ..) hs g h₀
    exact ih h₁ fun l hl => hstep l (List.mem_cons_of_mem _ hl)

theorem prefix_invariant (Inv : List (Link σ α) → σ → Prop) (h : Run step s tr t)
    {g : List (Link σ α)} (h₀ : Inv g s)
    (hstep : ∀ tr₁ l tr₂, tr = tr₁ ++ l :: tr₂ → step l.before l.act = some l.after →
      Inv (g ++ tr₁) l.before → Inv (g ++ (tr₁ ++ [l])) l.after) :
    Inv (g ++ tr) t ∧ ∀ tr₁ l tr₂, tr = tr₁ ++ l :: tr₂ →
      Inv (g ++ tr₁) l.before ∧ Inv (g ++ (tr₁ ++ [l])) l.after := by
  induction h generalizing g with
  | nil => exact ⟨by simpa using h₀, by simp⟩
  | @cons s s' t a tr hs _ ih =>
    have h₁ := hstep [] ⟨s, a, s'⟩ tr rfl hs (by simpa using h₀)
    obtain ⟨ht, hall⟩ := ih h₁ fun tr₁ l tr₂ htr hl hbefore => by
      have hnext := hstep (⟨s, a, s'⟩ :: tr₁) l tr₂ (congrArg _ htr) hl (by simpa using hbefore)
      simpa using hnext
    refine ⟨by simpa using ht, fun tr₁ l tr₂ htr => ?_⟩
    rcases List.cons_eq_append_iff.mp htr with ⟨rfl, heq⟩ | ⟨tr₁', rfl, htr'⟩
    · obtain ⟨rfl, -⟩ := List.cons.inj heq
      exact ⟨by simpa using h₀, h₁⟩
    · have hlater := hall tr₁' l tr₂ htr'
      simpa using hlater

/-- Where the invariant makes `P` and `C` agree on a step, and `C` restores it, a run satisfies
one at every step if and only if it satisfies the other: they can only part at a first step at
which neither holds. -/
theorem forall_iff (Inv : σ → Prop) {P C : Link σ α → Prop}
    (hPC : ∀ l, step l.before l.act = some l.after → Inv l.before → (P l ↔ C l))
    (hC : ∀ l, step l.before l.act = some l.after → Inv l.before → C l → Inv l.after)
    (h : Run step s tr t) (h₀ : Inv s) : (∀ l ∈ tr, P l) ↔ ∀ l ∈ tr, C l := by
  induction h with
  | nil => simp
  | @cons s s' t a tr hs _ ih =>
    simp only [List.forall_mem_cons]
    rw [hPC ⟨s, a, s'⟩ hs h₀]
    exact and_congr_right fun hc => ih (hC ⟨s, a, s'⟩ hs h₀ hc)

/-- What is demanded of the history after each step, if one step meets it exactly under a condition
that also takes the invariant on. -/
theorem forall_prefix_iff {Inv D : List (Link σ α) → σ → Prop} {C : Link σ α → Prop}
    (hDC : ∀ g l, step l.before l.act = some l.after → Inv g l.before →
      (D (g ++ [l]) l.after ↔ C l))
    (hC : ∀ g l, step l.before l.act = some l.after → Inv g l.before → C l →
      Inv (g ++ [l]) l.after)
    (h : Run step s tr t) {g : List (Link σ α)} (h₀ : Inv g s) :
    (∀ tr₁ l tr₂, tr = tr₁ ++ l :: tr₂ → D (g ++ (tr₁ ++ [l])) l.after) ↔ ∀ l ∈ tr, C l := by
  induction h generalizing g with
  | nil => simp
  | @cons s s' t a tr hs _ ih =>
    have hfirst := hDC g ⟨s, a, s'⟩ hs h₀
    have hnext := hC g ⟨s, a, s'⟩ hs h₀
    rw [List.forall_mem_cons]
    constructor
    · intro hD
      have hl := hfirst.mp (hD [] _ tr rfl)
      refine ⟨hl, (ih (hnext hl)).mp fun tr₁ l tr₂ htr => ?_⟩
      have hlater := hD (⟨s, a, s'⟩ :: tr₁) l tr₂ (congrArg _ htr)
      rwa [List.append_assoc]
    · rintro ⟨hl, hrest⟩ tr₁ l tr₂ htr
      rcases List.cons_eq_append_iff.mp htr with ⟨rfl, heq⟩ | ⟨tr₁', rfl, htr'⟩
      · obtain ⟨rfl, -⟩ := List.cons.inj heq
        exact hfirst.mpr hl
      · have hlater := (ih (hnext hl)).mpr hrest tr₁' l tr₂ htr'
        rwa [List.append_assoc] at hlater

theorem split {tr₁ tr₂ : List (Link σ α)} :
    ∀ {s : σ}, Run step s (tr₁ ++ tr₂) t → ∃ u, Run step s tr₁ u ∧ Run step u tr₂ t := by
  induction tr₁ with
  | nil => exact fun {s} h => ⟨s, .nil s, h⟩
  | cons l tr₁ ih =>
    intro s h
    cases h with
    | cons hs h =>
      obtain ⟨u, h₁, h₂⟩ := ih h
      exact ⟨u, .cons hs h₁, h₂⟩

theorem append {s t u : σ} {tr₁ tr₂ : List (Link σ α)} (h₁ : Run step s tr₁ t)
    (h₂ : Run step t tr₂ u) : Run step s (tr₁ ++ tr₂) u := by
  induction h₁ with
  | nil => exact h₂
  | cons hs _ ih => exact .cons hs (ih h₂)

theorem around {l : Link σ α} {tr₁ tr₂ : List (Link σ α)} (h : Run step s (tr₁ ++ l :: tr₂) t) :
    Run step s tr₁ l.before ∧ step l.before l.act = some l.after ∧ Run step l.after tr₂ t := by
  obtain ⟨u, h₁, h₂⟩ := h.split
  cases h₂ with
  | cons hs h₂ => exact ⟨h₁, hs, h₂⟩

theorem enabled (En : σ → Prop) (hstep : ∀ s a s', step s a = some s' → En s)
    (h : Run step s tr t) (ht : En t) : ∀ l ∈ tr, En l.after := by
  induction h with
  | nil => simp
  | @cons s s' t a tr hs hrest ih =>
    simp only [List.forall_mem_cons]
    refine ⟨?_, ih ht⟩
    cases hrest with
    | nil => exact ht
    | cons hs' _ => exact hstep _ _ _ hs'

theorem of_steps {step' : σ → α → Option σ} (h : Run step s tr t)
    (hstep : ∀ l ∈ tr, step l.before l.act = some l.after →
      step' l.before l.act = some l.after) : Run step' s tr t := by
  induction h with
  | nil s => exact .nil s
  | cons hs _ ih =>
    refine .cons (hstep _ (List.mem_cons_self ..) hs) ?_
    exact ih fun l hl => hstep l (List.mem_cons_of_mem _ hl)

theorem reflTransGen {R : σ → σ → Prop} (h : Run step s tr t)
    (hstep : ∀ l ∈ tr, step l.before l.act = some l.after → R l.before l.after) :
    Relation.ReflTransGen R s t := by
  induction h with
  | nil s => exact .refl
  | cons hs _ ih =>
    refine .head (hstep _ (List.mem_cons_self ..) hs) ?_
    exact ih fun l hl => hstep l (List.mem_cons_of_mem _ hl)

theorem exists_of_reflTransGen {R : σ → σ → Prop} (hR : ∀ s s', R s s' → ∃ a, step s a = some s')
    (h : Relation.ReflTransGen R s t) : ∃ tr, Run step s tr t := by
  induction h with
  | refl => exact ⟨[], .nil s⟩
  | tail _ hstep ih =>
    obtain ⟨tr, hrun⟩ := ih
    obtain ⟨a, ha⟩ := hR _ _ hstep
    exact ⟨_, hrun.append (.cons ha (.nil _))⟩

/-- Where the steps of a run are forced, every other run from its start passes through its end, or
ends on the way. -/
theorem forced (h : Run step s tr t)
    (hforced : ∀ l ∈ tr, ∀ a s', step l.before a = some s' → s' = l.after)
    {tr' : List (Link σ α)} {t' : σ} (h' : Run step s tr' t') :
    (∃ l ∈ tr, t' = l.before) ∨ ∃ tr'', Run step t tr'' t' := by
  induction h generalizing tr' with
  | nil => exact .inr ⟨tr', h'⟩
  | @cons s s₁ t a tr _ _ ih =>
    cases h' with
    | nil => exact .inl ⟨_, List.mem_cons_self .., rfl⟩
    | @cons _ s₂ _ b tr' hs' h' =>
      obtain rfl : s₂ = s₁ := hforced ⟨s, a, s₁⟩ (List.mem_cons_self ..) b s₂ hs'
      rcases ih (fun l hl => hforced l (List.mem_cons_of_mem _ hl)) h' with ⟨l, hl, ht⟩ | hrun
      · exact .inl ⟨l, List.mem_cons_of_mem _ hl, ht⟩
      · exact .inr hrun

/-- Where the steps of a run are matched from related states, the whole run is matched by one each
of whose steps matches one of it. -/
theorem simulates {τ : Type*} {step' : τ → α → Option τ} {R : σ → τ → Prop} {s' : τ}
    (h : Run step s tr t) (h₀ : R s s')
    (hstep : ∀ l ∈ tr, ∀ u, R l.before u → step l.before l.act = some l.after →
      ∃ u', step' u l.act = some u' ∧ R l.after u') :
    ∃ tr' t', Run step' s' tr' t' ∧ R t t' ∧
      ∀ l' ∈ tr', ∃ l ∈ tr, l.act = l'.act ∧ R l.before l'.before := by
  induction h generalizing s' with
  | nil => exact ⟨[], s', .nil s', h₀, by simp⟩
  | @cons s s₁ t a tr hs _ ih =>
    obtain ⟨u, hu, h₁⟩ := hstep ⟨s, a, s₁⟩ (List.mem_cons_self ..) s' h₀ hs
    have hrest := ih h₁ fun l hl => hstep l (List.mem_cons_of_mem _ hl)
    obtain ⟨tr', t', hrun, ht, hall⟩ := hrest
    refine ⟨⟨s', a, u⟩ :: tr', t', .cons hu hrun, ht, ?_⟩
    intro l' hl'
    rcases List.mem_cons.mp hl' with rfl | hl'
    · exact ⟨_, List.mem_cons_self .., rfl, h₀⟩
    · obtain ⟨l, hl, hmatch⟩ := hall l' hl'
      exact ⟨l, List.mem_cons_of_mem _ hl, hmatch⟩

end Run

def execute (step : σ → α → Option σ) : σ → List α → Option (List (Link σ α) × σ)
  | s, [] => some ([], s)
  | s, a :: as => (step s a).bind fun s' =>
    (execute step s' as).map fun r => (⟨s, a, s'⟩ :: r.1, r.2)

theorem run_of_execute {f : σ → α → Option σ} {l : List α} :
    ∀ {s t : σ} {tr : List (Link σ α)}, execute f s l = some (tr, t) → Run f s tr t := by
  induction l with
  | nil =>
    intro s t tr h
    obtain ⟨rfl, rfl⟩ := Prod.mk.inj (Option.some.inj h)
    exact .nil _
  | cons a as ih =>
    intro s t tr h
    simp only [execute, Option.bind_eq_some_iff, Option.map_eq_some_iff] at h
    obtain ⟨s', hs, ⟨tr', t'⟩, htr, h⟩ := h
    obtain ⟨rfl, rfl⟩ := Prod.mk.inj h
    exact .cons hs (ih htr)

theorem acts_of_execute {f : σ → α → Option σ} {l : List α} :
    ∀ {s t : σ} {tr : List (Link σ α)}, execute f s l = some (tr, t) →
      tr.map (fun k => k.act) = l := by
  induction l with
  | nil =>
    intro s t tr h
    obtain ⟨rfl, rfl⟩ := Prod.mk.inj (Option.some.inj h)
    rfl
  | cons a as ih =>
    intro s t tr h
    simp only [execute, Option.bind_eq_some_iff, Option.map_eq_some_iff] at h
    obtain ⟨s', hs, ⟨tr', t'⟩, htr, h⟩ := h
    obtain ⟨rfl, rfl⟩ := Prod.mk.inj h
    exact congrArg (a :: ·) (ih htr)

theorem foldlM_invariant {β γ : Type*} {f : β → γ → Option β} (P : β → Prop) :
    ∀ (l : List γ) {b b' : β}, (∀ c ∈ l, ∀ b b', P b → f b c = some b' → P b') → P b →
      l.foldlM f b = some b' → P b' := by
  intro l
  induction l with
  | nil =>
    intro b b' _ hb h
    obtain rfl := Option.some.inj h
    exact hb
  | cons c l ih =>
    intro b b' hf hb h
    obtain ⟨b₁, h₁, h₂⟩ := Option.bind_eq_some_iff.mp h
    exact ih (fun d hd => hf d (List.mem_cons_of_mem _ hd))
      (hf c (List.mem_cons_self ..) b b₁ hb h₁) h₂

def sinceLast {β : Type*} (anew : β → Bool) (d : β → Nat) (l : List β) : Nat :=
  l.foldl (fun n b => if anew b then 0 else n + d b) 0

theorem exists_suffix_sinceLast {β : Type*} (anew : β → Bool) (d : β → Nat) (l : List β) :
    ∃ r, r <:+ l ∧ (∀ b ∈ r, anew b = false) ∧ (r.map d).sum = sinceLast anew d l := by
  induction l using List.reverseRecOn with
  | nil => exact ⟨[], List.nil_suffix, by simp, rfl⟩
  | append_singleton l b ih =>
    have hlast : sinceLast anew d (l ++ [b]) = if anew b then 0 else sinceLast anew d l + d b := by
      simp [sinceLast]
    by_cases hb : anew b = true
    · exact ⟨[], List.nil_suffix, by simp, by rw [hlast, if_pos hb]; rfl⟩
    · obtain ⟨r, ⟨pre, hpre⟩, hr, hsum⟩ := ih
      refine ⟨r ++ [b], ⟨pre, by rw [← List.append_assoc, hpre]⟩, ?_, ?_⟩
      · intro c hc
        rcases List.mem_append.mp hc with hc | hc
        · exact hr c hc
        · rw [List.mem_singleton.mp hc]
          exact Bool.eq_false_iff.mpr hb
      · rw [hlast, if_neg hb, List.map_append, List.sum_append, hsum]
        simp

theorem iterate_of_decreases {σ : Type*} {f : σ → σ} {P : σ → Prop} (μ : σ → ℕ)
    (hkeep : ∀ s, P s → P (f s)) (hlt : ∀ s, ¬P s → μ (f s) < μ s) :
    ∀ n s, μ s ≤ n → P (f^[n] s) := by
  intro n
  induction n with
  | zero =>
    intro s hs
    by_contra hP
    have hdown := hlt s hP
    omega
  | succ n ih =>
    intro s hs
    by_cases hP : P s
    · exact Function.Iterate.rec P hP hkeep (n + 1)
    · have hdown := hlt s hP
      exact ih (f s) (by omega)
