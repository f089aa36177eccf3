import Mathlib.Data.List.Forall2
import Mathlib.Data.List.TakeWhile
import Mathlib.Tactic.Common

/-! Regular expressions that are searched for in a text, with the rule of ECMAScript: the first
position counts, and at a position the first way to match in the order in which a backtracking
matcher tries them. Only classes of characters are repeated, as often as possible first. -/

namespace Regex

inductive Pattern
  | char (p : Char → Bool)
  | many (p : Char → Bool) (min : Nat) (max : Option Nat)
  | boundary
  | atEnd
  | group (r : Pattern)
  | seq (r s : Pattern)
  | alt (r s : Pattern)

def isWord (c : Char) : Bool := c.isAlphanum || c == '_'

/-- A position in a text, with the text before it from the last character on, and what the group
has captured. -/
structure Cursor where
  before : List Char
  after : List Char
  group : List Char

def atBoundary (before after : List Char) : Bool :=
  before.head?.any isWord != after.head?.any isWord

namespace Cursor

variable (c : Cursor)

def advance (k : Nat) : Cursor := ⟨(c.after.take k).reverse ++ c.before, c.after.drop k, c.group⟩

def passed (c' : Cursor) : List Char := c.after.take (c.after.length - c'.after.length)

def run (p : Char → Bool) (max : Option Nat) : Nat :=
  max.elim (c.after.takeWhile p).length (min (c.after.takeWhile p).length)

end Cursor

def downFrom : Nat → Nat → List Nat
  | 0, low => if low = 0 then [0] else []
  | n + 1, low => if low ≤ n + 1 then (n + 1) :: downFrom n low else []

def Pattern.ends : Pattern → Cursor → List Cursor
  | char p, c =>
    match c.after with
    | [] => []
    | x :: _ => if p x then [c.advance 1] else []
  | many p min max, c => (downFrom (c.run p max) min).map c.advance
  | boundary, c => if atBoundary c.before c.after then [c] else []
  | atEnd, c => if c.after = [] then [c] else []
  | group r, c => (r.ends c).map fun c' => { c' with group := c.passed c' }
  | seq r s, c => (r.ends c).flatMap s.ends
  | alt r s, c => r.ends c ++ s.ends c

structure Match where
  whole : List Char
  group : List Char
  suffix : List Char

def Pattern.matchAt (r : Pattern) (before after : List Char) : Option Match :=
  (r.ends ⟨before, after, []⟩).head?.map fun c =>
    ⟨Cursor.passed ⟨before, after, []⟩ c, c.group, c.after⟩

def Pattern.searchFrom (r : Pattern) (before : List Char) : List Char → Option Match
  | [] => r.matchAt before []
  | x :: after =>
    match r.matchAt before (x :: after) with
    | some m => some m
    | none => r.searchFrom (x :: before) after

def Pattern.search (r : Pattern) (subject : List Char) : Option Match := r.searchFrom [] subject

/-! ### Repetitions -/

theorem mem_downFrom {n low k : Nat} : k ∈ downFrom n low ↔ low ≤ k ∧ k ≤ n := by
  induction n with
  | zero =>
    rw [downFrom]
    split_ifs with h
    · simp only [List.mem_singleton]
      omega
    · simp only [List.not_mem_nil, false_iff]
      omega
  | succ n ih =>
    rw [downFrom]
    split_ifs with h
    · rw [List.mem_cons, ih]
      omega
    · simp only [List.not_mem_nil, false_iff]
      omega

theorem downFrom_cons {n low : Nat} (h : low ≤ n) :
    ∃ rest, downFrom n low = n :: rest ∧ ∀ k, k ∈ rest ↔ low ≤ k ∧ k < n := by
  cases n with
  | zero =>
    obtain rfl : low = 0 := Nat.le_zero.mp h
    exact ⟨[], rfl, by simp⟩
  | succ n =>
    refine ⟨downFrom n low, if_pos h, fun k => ?_⟩
    rw [mem_downFrom]
    omega

theorem flatMap_downFrom {n low : Nat} {f : Nat → List Cursor}
    (h : ∀ k, low ≤ k → k < n → f k = []) :
    (downFrom n low).flatMap f = if low ≤ n then f n else [] := by
  split_ifs with hlow
  · obtain ⟨rest, hdown, hrest⟩ := downFrom_cons hlow
    have hnil : rest.flatMap f = [] :=
      List.flatMap_eq_nil_iff.mpr fun k hk => h k ((hrest k).mp hk).1 ((hrest k).mp hk).2
    rw [hdown, List.flatMap_cons, hnil, List.append_nil]
  · have hnil : downFrom n low = [] := by
      refine List.eq_nil_iff_forall_not_mem.mpr fun k hk => ?_
      have := mem_downFrom.mp hk
      omega
    rw [hnil, List.flatMap_nil]

variable {p : Char → Bool} {low : Nat} {max : Option Nat} {r : Pattern}
  {before d rest group : List Char}

def Ends (p : Char → Bool) (text : List Char) : Prop := ∀ c ∈ text.head?, p c = false

instance (p : Char → Bool) (text : List Char) : Decidable (Ends p text) :=
  decidable_of_iff (text.head?.any p = false) (by cases text <;> simp [Ends])

theorem ends_nil (p : Char → Bool) : Ends p [] := by simp [Ends]

theorem ends_cons {c : Char} {text : List Char} : Ends p (c :: text) ↔ p c = false := by
  simp [Ends]

theorem ends_dropWhile (p : Char → Bool) (text : List Char) : Ends p (text.dropWhile p) := by
  intro c hc
  have := List.head?_dropWhile_not p text
  rw [Option.mem_def.mp hc] at this
  simpa using this

theorem takeWhile_append (hd : ∀ c ∈ d, p c = true) (hrest : Ends p rest) :
    (d ++ rest).takeWhile p = d := by
  rw [List.takeWhile_append_of_pos hd]
  cases rest with
  | nil => simp
  | cons c rest => rw [List.takeWhile_cons_of_neg (by simp [ends_cons.mp hrest]), List.append_nil]

theorem exists_run (p : Char → Bool) (text : List Char) :
    ∃ d rest, text = d ++ rest ∧ (∀ c ∈ d, p c = true) ∧ Ends p rest :=
  ⟨_, _, List.takeWhile_append_dropWhile.symm, fun _ hc => List.mem_takeWhile_imp hc,
    ends_dropWhile p text⟩

theorem run_append (hd : ∀ c ∈ d, p c = true) (hrest : Ends p rest) :
    Cursor.run ⟨before, d ++ rest, group⟩ p max = max.elim d.length (min d.length) := by
  rw [Cursor.run]
  dsimp only
  rw [takeWhile_append hd hrest]

@[simp] theorem advance_append (before d rest group : List Char) :
    Cursor.advance ⟨before, d ++ rest, group⟩ d.length = ⟨d.reverse ++ before, rest, group⟩ := by
  simp [Cursor.advance]

def Pattern.Avoids (r : Pattern) (p : Char → Bool) : Prop :=
  ∀ c : Cursor, ∀ x ∈ c.after.head?, p x = true → r.ends c = []

theorem ends_many_seq (hr : r.Avoids p) (hd : ∀ c ∈ d, p c = true) (hrest : Ends p rest) :
    ((Pattern.many p low max).seq r).ends ⟨before, d ++ rest, group⟩ =
      if low ≤ d.length ∧ (∀ m ∈ max, d.length ≤ m) then
        r.ends ⟨d.reverse ++ before, rest, group⟩ else [] := by
  have hshort : ∀ k, k < d.length →
      r.ends (Cursor.advance ⟨before, d ++ rest, group⟩ k) = [] := by
    intro k hk
    refine hr _ (d.get ⟨k, hk⟩) ?_ (hd _ (List.getElem_mem hk))
    simp [Cursor.advance, List.head?_drop, List.getElem?_append_left hk]
  show ((downFrom _ low).map _).flatMap r.ends = _
  rw [List.flatMap_map, run_append hd hrest]
  cases max with
  | none =>
    rw [Option.elim_none, flatMap_downFrom fun k _ hk => hshort k hk, advance_append]
    simp
  | some m =>
    rw [Option.elim_some, flatMap_downFrom fun k _ hk => hshort k (by omega)]
    by_cases hm : d.length ≤ m
    · rw [Nat.min_eq_left hm, advance_append]
      simp [hm]
    · rw [Nat.min_eq_right (Nat.le_of_not_le hm), hshort m (Nat.lt_of_not_le hm)]
      simp [hm]

theorem avoids_char_seq {q : Char → Bool} (h : ∀ c, p c = true → q c = false) :
    ((Pattern.char q).seq r).Avoids p := by
  intro c x hx hp
  obtain ⟨b, after, g⟩ := c
  cases after with
  | nil => simp at hx
  | cons y after =>
    obtain rfl : y = x := by simpa using hx
    simp [Pattern.ends, h y hp]

@[simp] theorem ends_char_seq_cons {q : Char → Bool} {x : Char} {after : List Char} :
    ((Pattern.char q).seq r).ends ⟨before, x :: after, group⟩ =
      if q x then r.ends ⟨x :: before, after, group⟩ else [] := by
  by_cases h : q x = true <;> simp [Pattern.ends, h, Cursor.advance]

/-! ### What a match leaves -/

theorem ends_append (r : Pattern) : ∀ c : Cursor, ∀ c' ∈ r.ends c,
    ∃ taken, c.after = taken ++ c'.after ∧ c'.before = taken.reverse ++ c.before := by
  have hadvance : ∀ (c : Cursor) (k : Nat), ∃ taken, c.after = taken ++ (c.advance k).after ∧
      (c.advance k).before = taken.reverse ++ c.before :=
    fun c k => ⟨c.after.take k, (List.take_append_drop k c.after).symm, rfl⟩
  induction r with
  | char p =>
    intro c c' hc'
    rw [Pattern.ends] at hc'
    split at hc'
    · simp at hc'
    · split_ifs at hc'
      · obtain rfl := List.mem_singleton.mp hc'
        exact hadvance c 1
      · simp at hc'
  | many p low max =>
    intro c c' hc'
    obtain ⟨k, -, rfl⟩ := List.mem_map.mp hc'
    exact hadvance c k
  | boundary | atEnd =>
    intro c c' hc'
    rw [Pattern.ends] at hc'
    split_ifs at hc'
    · obtain rfl := List.mem_singleton.mp hc'
      exact ⟨[], rfl, rfl⟩
    · simp at hc'
  | group r ih =>
    intro c c' hc'
    obtain ⟨c₁, hc₁, rfl⟩ := List.mem_map.mp hc'
    exact ih c c₁ hc₁
  | seq r s ihr ihs =>
    intro c c' hc'
    obtain ⟨c₁, hc₁, hc'⟩ := List.mem_flatMap.mp hc'
    obtain ⟨taken, hafter, hbefore⟩ := ihr c c₁ hc₁
    obtain ⟨taken', hafter', hbefore'⟩ := ihs c₁ c' hc'
    refine ⟨taken ++ taken', ?_, ?_⟩
    · rw [hafter, hafter', List.append_assoc]
    · rw [hbefore', hbefore, List.reverse_append, List.append_assoc]
  | alt r s ihr ihs =>
    intro c c' hc'
    rcases List.mem_append.mp hc' with hc' | hc'
    · exact ihr c c' hc'
    · exact ihs c c' hc'

def Pattern.width : Pattern → Nat
  | .char _ => 1
  | .many _ low _ => low
  | .boundary => 0
  | .atEnd => 0
  | .group r => r.width
  | .seq r s => r.width + s.width
  | .alt r s => min r.width s.width

theorem ends_width (r : Pattern) : ∀ c : Cursor, ∀ c' ∈ r.ends c,
    c'.after.length + r.width ≤ c.after.length := by
  induction r with
  | char p =>
    rintro ⟨b, after, g⟩ c' hc'
    cases after with
    | nil => simp [Pattern.ends] at hc'
    | cons x after =>
      rw [Pattern.ends] at hc'
      dsimp only at hc'
      split_ifs at hc'
      · obtain rfl := List.mem_singleton.mp hc'
        exact le_rfl
      · simp at hc'
  | many p low max =>
    intro c c' hc'
    obtain ⟨k, hk, rfl⟩ := List.mem_map.mp hc'
    -- a repetition consumes at least `low` characters
    obtain ⟨hlow, hrun⟩ := mem_downFrom.mp hk
    have hle : c.run p max ≤ (c.after.takeWhile p).length := by
      rw [Cursor.run]
      cases max with
      | none => exact le_rfl
      | some max => exact Nat.min_le_left _ _
    have hlen := (List.takeWhile_sublist p (l := c.after)).length_le
    rw [Cursor.advance, List.length_drop, Pattern.width]
    omega
  | boundary | atEnd =>
    intro c c' hc'
    rw [Pattern.ends] at hc'
    split_ifs at hc'
    · obtain rfl := List.mem_singleton.mp hc'
      exact le_rfl
    · simp at hc'
  | group r ih =>
    intro c c' hc'
    obtain ⟨c₁, hc₁, rfl⟩ := List.mem_map.mp hc'
    exact ih c c₁ hc₁
  | seq r s ihr ihs =>
    intro c c' hc'
    obtain ⟨c₁, hc₁, hc'⟩ := List.mem_flatMap.mp hc'
    have := ihr c c₁ hc₁
    have := ihs c₁ c' hc'
    rw [Pattern.width]
    omega
  | alt r s ihr ihs =>
    intro c c' hc'
    rw [Pattern.width]
    rcases List.mem_append.mp hc' with hc' | hc'
    · have := ihr c c' hc'
      omega
    · have := ihs c c' hc'
      omega

theorem matchAt_width {after : List Char} {m : Match} (h : r.matchAt before after = some m) :
    m.suffix.length + r.width ≤ after.length := by
  obtain ⟨c', hc', rfl⟩ := Option.map_eq_some_iff.mp h
  exact ends_width r _ c' (List.mem_of_mem_head? hc')

theorem matchAt_append {after : List Char} {m : Match} (h : r.matchAt before after = some m) :
    after = m.whole ++ m.suffix := by
  obtain ⟨c', hc', rfl⟩ := Option.map_eq_some_iff.mp h
  obtain ⟨taken, hafter, -⟩ := ends_append r _ c' (List.mem_of_mem_head? hc')
  dsimp only at hafter
  subst hafter
  simp [Cursor.passed]

structure Cursor.Like (c c' : Cursor) : Prop where
  word : c.before.head?.any isWord = c'.before.head?.any isWord
  after : c.after = c'.after
  group : c.group = c'.group

theorem ends_like (r : Pattern) : ∀ {c c' : Cursor}, c.Like c' →
    List.Forall₂ Cursor.Like (r.ends c) (r.ends c') := by
  have hadvance : ∀ {c c' : Cursor}, c.Like c' → ∀ k, (c.advance k).Like (c'.advance k) := by
    intro c c' h k
    refine ⟨?_, congrArg (List.drop k) h.after, h.group⟩
    simp only [Cursor.advance, ← h.after]
    cases (c.after.take k).reverse with
    | nil => exact h.word
    | cons x l => rfl
  have hone : ∀ {c c' : Cursor} {b : Bool}, c.Like c' →
      List.Forall₂ Cursor.Like (if b then [c] else []) (if b then [c'] else []) := by
    intro c c' b h
    cases b with
    | false => exact .nil
    | true => exact .cons h .nil
  induction r with
  | char p =>
    intro c c' h
    rw [Pattern.ends, Pattern.ends, ← h.after]
    split
    · exact .nil
    · exact hone (hadvance h 1)
  | many p low max =>
    intro c c' h
    have hrun : c'.run p max = c.run p max := by rw [Cursor.run, Cursor.run, h.after]
    rw [Pattern.ends, Pattern.ends, hrun, List.forall₂_map_left_iff, List.forall₂_map_right_iff]
    exact List.forall₂_same.mpr fun k _ => hadvance h k
  | boundary =>
    intro c c' h
    have hsame : atBoundary c'.before c'.after = atBoundary c.before c.after := by
      rw [atBoundary, atBoundary, h.word, h.after]
    rw [Pattern.ends, Pattern.ends, hsame]
    exact hone h
  | atEnd =>
    intro c c' h
    rw [Pattern.ends, Pattern.ends, ← h.after]
    split_ifs
    · exact .cons h .nil
    · exact .nil
  | group r ih =>
    intro c c' h
    rw [Pattern.ends, Pattern.ends, List.forall₂_map_left_iff, List.forall₂_map_right_iff]
    refine (ih h).imp fun d d' hd => ⟨hd.word, hd.after, ?_⟩
    simp only [Cursor.passed, h.after, hd.after]
  | seq r s ihr ihs =>
    intro c c' h
    rw [Pattern.ends, Pattern.ends]
    have hr := ihr h
    -- the ends of `r` correspond one by one, and so do the ends of `s` from each of them
    generalize r.ends c = l at hr ⊢
    generalize r.ends c' = l' at hr ⊢
    induction hr with
    | nil => exact .nil
    | cons hd _ ih =>
      rw [List.flatMap_cons, List.flatMap_cons]
      exact List.rel_append (ihs hd) ih
  | alt r s ihr ihs => exact fun h => List.rel_append (ihr h) (ihs h)

theorem matchAt_like {before' after : List Char}
    (h : before.head?.any isWord = before'.head?.any isWord) :
    r.matchAt before after = r.matchAt before' after := by
  have hends : List.Forall₂ Cursor.Like (r.ends ⟨before, after, []⟩)
      (r.ends ⟨before', after, []⟩) :=
    ends_like r ⟨h, rfl, rfl⟩
  rw [Pattern.matchAt, Pattern.matchAt]
  generalize r.ends ⟨before, after, []⟩ = l at hends ⊢
  generalize r.ends ⟨before', after, []⟩ = l' at hends ⊢
  cases hends with
  | nil => rfl
  | cons hd _ => simp [Cursor.passed, hd.after, hd.group]

/-! ### Searching again and again -/

inductive Matches (r : Pattern) : List Char → List Char → List Match → Prop
  | nil {before after : List Char} : r.searchFrom before after = none → Matches r before after []
  | cons {before after : List Char} {m : Match} {ms : List Match} :
    r.searchFrom before after = some m → Matches r [] m.suffix ms → Matches r before after (m :: ms)

theorem searchFrom_of_matchAt {after : List Char} {m : Match}
    (h : r.matchAt before after = some m) : r.searchFrom before after = some m := by
  cases after with
  | nil => exact h
  | cons x after => rw [Pattern.searchFrom, h]

theorem searchFrom_cons {x : Char} {after : List Char} (h : r.matchAt before (x :: after) = none) :
    r.searchFrom before (x :: after) = r.searchFrom (x :: before) after := by
  rw [Pattern.searchFrom, h]

theorem searchFrom_width {after : List Char} {m : Match}
    (h : r.searchFrom before after = some m) : m.suffix.length + r.width ≤ after.length := by
  induction after generalizing before with
  | nil => exact matchAt_width h
  | cons x after ih =>
    rw [Pattern.searchFrom] at h
    split at h
    · rename_i m' hm'
      obtain rfl := Option.some.inj h
      exact matchAt_width hm'
    · exact (ih h).trans (Nat.le_succ _)

theorem searchFrom_like {before' after : List Char}
    (h : before.head?.any isWord = before'.head?.any isWord) :
    r.searchFrom before after = r.searchFrom before' after := by
  induction after generalizing before before' with
  | nil => exact matchAt_like h
  | cons x after ih =>
    rw [Pattern.searchFrom, Pattern.searchFrom, matchAt_like h]
    split
    · rfl
    · exact ih rfl

def Pattern.Restarts (r : Pattern) (before after : List Char) : Prop :=
  before.head?.any isWord = false ∨ ∀ before', r.matchAt before' after = none

theorem searchFrom_restart {after : List Char} (h : r.Restarts before after) :
    r.searchFrom [] after = r.searchFrom before after := by
  rcases h with h | h
  · exact searchFrom_like h.symm
  · cases after with
    | nil => exact (h []).trans (h before).symm
    | cons x after =>
      rw [searchFrom_cons (h _), searchFrom_cons (h _)]
      exact searchFrom_like rfl

theorem Matches.congr {before' after after' : List Char} {ms : List Match}
    (h : r.searchFrom before after = r.searchFrom before' after')
    (hms : Matches r before after ms) : Matches r before' after' ms := by
  cases hms with
  | nil hnone => exact .nil (h.symm.trans hnone)
  | cons hsome hrest => exact .cons (h.symm.trans hsome) hrest

def Somewhere (Q : List Char → List Char → Prop) (before after : List Char) : Prop :=
  ∃ pre rest, after = pre ++ rest ∧ Q (pre.reverse ++ before) rest

def Everywhere (Q : List Char → List Char → Prop) (before after : List Char) : Prop :=
  ∀ pre rest, after = pre ++ rest → Q (pre.reverse ++ before) rest

theorem Everywhere.here {Q : List Char → List Char → Prop} {after : List Char}
    (h : Everywhere Q before after) : Q before after := h [] after rfl

theorem Everywhere.behind {Q : List Char → List Char → Prop} {s after : List Char}
    (h : Everywhere Q before (s ++ after)) : Everywhere Q (s.reverse ++ before) after := by
  intro pre rest hrest
  have := h (s ++ pre) rest (by rw [hrest, List.append_assoc])
  rwa [List.reverse_append, List.append_assoc] at this

theorem Somewhere.behind {Q : List Char → List Char → Prop} {s after : List Char}
    (h : Somewhere Q (s.reverse ++ before) after) : Somewhere Q before (s ++ after) := by
  obtain ⟨pre, rest, rfl, hQ⟩ := h
  refine ⟨s ++ pre, rest, (List.append_assoc ..).symm, ?_⟩
  rwa [List.reverse_append, List.append_assoc]

theorem everywhere_nil {Q : List Char → List Char → Prop} :
    Everywhere Q before [] ↔ Q before [] := by
  refine ⟨fun h => h.here, fun h pre rest heq => ?_⟩
  obtain ⟨rfl, rfl⟩ := List.append_eq_nil_iff.mp heq.symm
  exact h

theorem everywhere_cons {Q : List Char → List Char → Prop} {x : Char} {after : List Char} :
    Everywhere Q before (x :: after) ↔
      Q before (x :: after) ∧ Everywhere Q (x :: before) after := by
  refine ⟨fun h => ⟨h.here, Everywhere.behind (s := [x]) h⟩, fun ⟨hx, h⟩ pre rest heq => ?_⟩
  cases pre with
  | nil =>
    obtain rfl : x :: after = rest := heq
    exact hx
  | cons y pre =>
    obtain ⟨rfl, hrest⟩ := List.cons.inj heq
    rw [List.reverse_cons, List.append_assoc]
    exact h pre rest hrest

def Pattern.Resumes (r : Pattern) (before after : List Char) : Prop :=
  Everywhere (fun b a => ∀ m, r.matchAt b a = some m →
    m.whole ≠ [] ∧ r.Restarts (m.whole.reverse ++ b) m.suffix) before after

def Pattern.NoOverlap (r : Pattern) (before after : List Char) : Prop :=
  Everywhere (fun b a => ∀ m, r.matchAt b a = some m → ∀ s₁ s₂, m.whole = s₁ ++ s₂ → s₁ ≠ [] →
    s₂ ≠ [] → r.matchAt (s₁.reverse ++ b) (s₂ ++ m.suffix) = none) before after

/-- If the search goes on behind every match, what is found are matches at positions of the text.
If matches do not overlap, all of them are found. -/
theorem exists_matches {after : List Char} (hresumes : r.Resumes before after) :
    ∃ ms, Matches r before after ms ∧ ms.length ≤ after.length ∧
      (∀ m ∈ ms, Somewhere (fun b a => r.matchAt b a = some m) before after) ∧
      (r.NoOverlap before after →
        ∀ m, Somewhere (fun b a => r.matchAt b a = some m) before after → m ∈ ms) := by
  generalize hn : after.length = n
  induction n using Nat.strong_induction_on generalizing before after with
  | _ n ih =>
    cases hmatch : r.matchAt before after with
    | some m =>
      -- a match: the search restarts behind it
      obtain ⟨hne, hre⟩ := hresumes.here m hmatch
      have happend := matchAt_append hmatch
      have hlen : m.suffix.length < n := by
        rw [← hn, happend, List.length_append]
        have := List.length_pos_iff.mpr hne
        omega
      rw [happend] at hresumes
      obtain ⟨ms, hms, hcount, hsound, hcomplete⟩ := ih _ hlen (Everywhere.behind hresumes) rfl
      refine ⟨m :: ms, .cons (searchFrom_of_matchAt hmatch)
        (hms.congr (searchFrom_restart hre).symm), ?_, ?_, fun hoverlap m' hm' => ?_⟩
      · exact hcount.trans_lt hlen
      · intro m' hm'
        rcases List.mem_cons.mp hm' with rfl | hm'
        · exact ⟨[], after, rfl, hmatch⟩
        · rw [happend]
          exact (hsound m' hm').behind
      · obtain ⟨pre, rest, heq, hmatch'⟩ := hm'
        rcases List.append_eq_append_iff.mp (happend.symm.trans heq) with
          ⟨s, rfl, hsuffix⟩ | ⟨s, hwhole, rfl⟩
        · refine List.mem_cons_of_mem _ (hcomplete ?_ m' ⟨s, rest, hsuffix, ?_⟩)
          · rw [happend] at hoverlap
            exact Everywhere.behind hoverlap
          · rwa [List.reverse_append, List.append_assoc] at hmatch'
        · by_cases hpre : pre = []
          · subst hpre
            rw [heq, List.nil_append] at hmatch
            obtain rfl := Option.some.inj (hmatch.symm.trans hmatch')
            exact List.mem_cons_self ..
          · by_cases hs : s = []
            · subst hs
              rw [List.append_nil] at hwhole
              subst hwhole
              rw [happend] at hoverlap
              exact List.mem_cons_of_mem _
                (hcomplete (Everywhere.behind hoverlap) m' ⟨[], _, rfl, hmatch'⟩)
            · have hnone := hoverlap.here m hmatch pre s hwhole hpre hs
              exact absurd (hnone.symm.trans hmatch') (by simp)
    | none =>
      cases after with
      | nil =>
        refine ⟨[], .nil hmatch, Nat.zero_le _, by simp, fun _ m hm => ?_⟩
        obtain ⟨pre, rest, heq, hm⟩ := hm
        obtain ⟨rfl, rfl⟩ := List.append_eq_nil_iff.mp heq.symm
        exact absurd (hmatch.symm.trans hm) (by simp)
      | cons x after =>
        have hlen : after.length < n := by
          rw [← hn]
          exact Nat.lt_succ_self _
        have hbehind := Everywhere.behind (s := [x]) hresumes
        obtain ⟨ms, hms, hcount, hsound, hcomplete⟩ := ih _ hlen hbehind rfl
        rw [List.reverse_singleton, List.singleton_append] at hms
        refine ⟨ms, hms.congr (searchFrom_cons hmatch).symm, hcount.trans hlen.le, ?_,
          fun hoverlap m hm => ?_⟩
        · exact fun m hm => Somewhere.behind (s := [x]) (hsound m hm)
        · obtain ⟨pre, rest, heq, hm⟩ := hm
          cases pre with
          | nil =>
            rw [List.nil_append] at heq
            rw [← heq] at hm
            exact absurd (hmatch.symm.trans hm) (by simp)
          | cons y pre =>
            obtain ⟨rfl, htail⟩ := List.cons.inj heq
            refine hcomplete (Everywhere.behind (s := [x]) hoverlap) m ⟨pre, rest, htail, ?_⟩
            rwa [List.reverse_cons, List.append_assoc] at hm

end Regex
