import Mathlib.Data.List.Basic
import Mathlib.Order.Defs.Unbundled

/-! Ordered associative containers as lists kept in the order of a comparator. Two elements
neither of which precedes the other are equivalent: a set keeps one of them, a multiset all of
them, and a lookup with a key finds whatever is equivalent to the key. The comparator need not
be total on values, only transitive, so that overlapping intervals may count as equivalent. -/

namespace Ordered

variable {α : Type*} (lt : α → α → Prop)

def Equiv (a b : α) : Prop := ¬ lt a b ∧ ¬ lt b a

abbrev Sorted (l : List α) : Prop := l.Pairwise lt

abbrev WeakSorted (l : List α) : Prop := l.Pairwise fun a b => ¬ lt b a

section Operations
variable [DecidableRel lt]

instance (a b : α) : Decidable (Equiv lt a b) := inferInstanceAs (Decidable (_ ∧ _))

/-- Set insertion: an element equivalent to a stored one is not inserted. -/
def insert (x : α) : List α → List α
  | [] => [x]
  | a :: l => if lt a x then a :: insert x l else if lt x a then x :: a :: l else a :: l

def insertMulti (x : α) : List α → List α
  | [] => [x]
  | a :: l => if lt x a then x :: a :: l else a :: insertMulti x l

def erase (x : α) (l : List α) : List α := l.filter fun a => ¬ Equiv lt a x

def lowerBound (x : α) (l : List α) : List α := l.dropWhile fun a => lt a x

def equalRange (x : α) (l : List α) : List α :=
  (lowerBound lt x l).takeWhile fun a => ¬ lt x a

def find (x : α) (l : List α) : Option α := (equalRange lt x l).head?

def ofList (l : List α) : List α := l.foldl (fun s a => insert lt a s) []

end Operations

variable {lt}

theorem dropWhile_eq_filter {p : α → Bool} {l : List α}
    (h : l.Pairwise fun a b => p b = true → p a = true) :
    l.dropWhile p = l.filter fun a => !p a := by
  induction l with
  | nil => rfl
  | cons a l ih =>
    have ha := List.pairwise_cons.mp h
    cases hp : p a with
    | true => simp [hp, ih ha.2]
    | false =>
      have hl : ∀ b ∈ l, p b = false := fun b hb => by
        cases hb' : p b with
        | true => exact absurd (ha.1 b hb hb') (by simp [hp])
        | false => rfl
      have hf : l.filter (fun a => !p a) = l :=
        List.filter_eq_self.mpr fun b hb => by simp [hl b hb]
      simp [hp, hf]

theorem takeWhile_eq_filter {p : α → Bool} {l : List α}
    (h : l.Pairwise fun a b => p b = true → p a = true) : l.takeWhile p = l.filter p := by
  induction l with
  | nil => rfl
  | cons a l ih =>
    have ha := List.pairwise_cons.mp h
    cases hp : p a with
    | true => simp [hp, ih ha.2]
    | false =>
      have hf : l.filter p = [] := List.filter_eq_nil_iff.mpr fun b hb hb' =>
        absurd (ha.1 b hb hb') (by simp [hp])
      simp [hp, hf]

theorem Sorted.eq_of_equiv {l : List α} (h : Sorted lt l) {a b : α} (ha : a ∈ l) (hb : b ∈ l)
    (hab : Equiv lt a b) : a = b := by
  induction l with
  | nil => simp at ha
  | cons c l ih =>
    have hc := List.pairwise_cons.mp h
    rcases List.mem_cons.mp ha with rfl | ha' <;> rcases List.mem_cons.mp hb with rfl | hb'
    · rfl
    · exact absurd (hc.1 b hb') hab.1
    · exact absurd (hc.1 a ha') hab.2
    · exact ih hc.2 ha' hb'

theorem Sorted.ext [IsTrans α lt] [Std.Irrefl lt] {l₁ l₂ : List α} (h₁ : Sorted lt l₁)
    (h₂ : Sorted lt l₂) (h : ∀ a, a ∈ l₁ ↔ a ∈ l₂) : l₁ = l₂ := by
  have hne : ∀ {a b : α}, lt a b → a ≠ b := fun hab he => Std.Irrefl.irrefl _ (he ▸ hab)
  have hn₁ : l₁.Nodup := h₁.imp hne
  have hn₂ : l₂.Nodup := h₂.imp hne
  refine ((List.perm_ext_iff_of_nodup hn₁ hn₂).mpr h).eq_of_pairwise ?_ h₁ h₂
  exact fun a b _ _ hab hba =>
    absurd (IsTrans.trans _ _ _ hab hba) (Std.Irrefl.irrefl a)

theorem Equiv.eq [Std.Trichotomous lt] {a b : α} (h : Equiv lt a b) : a = b :=
  Std.Trichotomous.trichotomous _ _ h.1 h.2

variable [DecidableRel lt]

theorem mem_of_find {l : List α} {x a : α} (h : find lt x l = some a) : a ∈ l := by
  have hrange : a ∈ equalRange lt x l := List.mem_of_mem_head? h
  have hbound := (List.takeWhile_sublist _).subset hrange
  exact (List.dropWhile_sublist _).subset hbound

theorem mem_erase {x a : α} {l : List α} : a ∈ erase lt x l ↔ a ∈ l ∧ ¬ Equiv lt a x := by
  simp [erase]

theorem mem_of_mem_insert {x a : α} {l : List α} (h : a ∈ insert lt x l) : a = x ∨ a ∈ l := by
  induction l with
  | nil => simpa [insert] using h
  | cons b l ih =>
    simp only [insert] at h
    split_ifs at h with h₁ h₂
    · rcases List.mem_cons.mp h with rfl | h
      · exact .inr (List.mem_cons_self ..)
      · exact (ih h).imp_right (List.mem_cons_of_mem _)
    · exact List.mem_cons.mp h
    · exact .inr h

theorem mem_insert_of_mem {x a : α} {l : List α} (h : a ∈ l) : a ∈ insert lt x l := by
  induction l with
  | nil => simp at h
  | cons b l ih =>
    simp only [insert]
    split_ifs with h₁ h₂
    · rcases List.mem_cons.mp h with rfl | h
      · exact List.mem_cons_self ..
      · exact List.mem_cons_of_mem _ (ih h)
    · exact List.mem_cons_of_mem _ h
    · exact h

theorem mem_insert_self {x : α} {l : List α} (h : ∀ a ∈ l, ¬ Equiv lt a x) :
    x ∈ insert lt x l := by
  induction l with
  | nil => simp [insert]
  | cons b l ih =>
    simp only [insert]
    split_ifs with h₁ h₂
    · exact List.mem_cons_of_mem _ (ih fun a ha => h a (List.mem_cons_of_mem _ ha))
    · exact List.mem_cons_self ..
    · exact absurd ⟨h₁, h₂⟩ (h b (List.mem_cons_self ..))

theorem mem_insert {x a : α} {l : List α} (h : ∀ b ∈ l, ¬ Equiv lt b x) :
    a ∈ insert lt x l ↔ a = x ∨ a ∈ l := by
  refine ⟨mem_of_mem_insert, ?_⟩
  rintro (rfl | ha)
  · exact mem_insert_self h
  · exact mem_insert_of_mem ha

theorem mem_insertMulti {x a : α} {l : List α} : a ∈ insertMulti lt x l ↔ a = x ∨ a ∈ l := by
  induction l with
  | nil => simp [insertMulti]
  | cons b l ih =>
    simp only [insertMulti]
    split_ifs with h
    · exact List.mem_cons
    · simp only [List.mem_cons, ih]
      tauto

theorem Sorted.erase {l : List α} (h : Sorted lt l) (x : α) : Sorted lt (erase lt x l) :=
  List.Pairwise.filter _ h

section Trans
variable [IsTrans α lt]

theorem Sorted.insert {l : List α} (h : Sorted lt l) (x : α) : Sorted lt (insert lt x l) := by
  induction l with
  | nil => exact List.pairwise_singleton _ _
  | cons b l ih =>
    have hb := List.pairwise_cons.mp h
    simp only [Ordered.insert]
    split_ifs with h₁ h₂
    · refine List.pairwise_cons.mpr ⟨fun a ha => ?_, ih hb.2⟩
      rcases mem_of_mem_insert ha with rfl | ha
      · exact h₁
      · exact hb.1 a ha
    · refine List.pairwise_cons.mpr ⟨fun a ha => ?_, h⟩
      rcases List.mem_cons.mp ha with rfl | ha
      · exact h₂
      · exact IsTrans.trans _ _ _ h₂ (hb.1 a ha)
    · exact h

theorem sorted_ofList (l : List α) : Sorted lt (ofList lt l) := by
  have key : ∀ s, Sorted lt s → Sorted lt (l.foldl (fun s a => Ordered.insert lt a s) s) := by
    induction l with
    | nil => exact fun _ hs => hs
    | cons a l ih => exact fun s hs => ih _ (hs.insert a)
  exact key [] List.Pairwise.nil

theorem insert_eq_self {x a : α} {l : List α} (hl : Sorted lt l) (ha : a ∈ l)
    (h : Equiv lt a x) : insert lt x l = l := by
  induction l with
  | nil => simp at ha
  | cons b l ih =>
    have hb := List.pairwise_cons.mp hl
    simp only [insert]
    rcases List.mem_cons.mp ha with rfl | ha
    · rw [if_neg h.1, if_neg h.2]
    · split_ifs with h₁ h₂
      · rw [ih hb.2 ha]
      · exact absurd (IsTrans.trans _ _ _ h₂ (hb.1 a ha)) h.2
      · rfl

theorem lowerBound_eq_filter {l : List α} (h : Sorted lt l) (x : α) :
    lowerBound lt x l = l.filter fun a => ¬ lt a x := by
  rw [lowerBound, dropWhile_eq_filter]
  · simp
  · exact h.imp fun hab hb => by simpa using IsTrans.trans _ _ _ hab (of_decide_eq_true hb)

theorem equalRange_eq_filter {l : List α} (h : Sorted lt l) (x : α) :
    equalRange lt x l = l.filter fun a => Equiv lt a x := by
  rw [equalRange, lowerBound_eq_filter h, takeWhile_eq_filter, List.filter_filter]
  · refine List.filter_congr fun a _ => ?_
    simp [Equiv, and_comm]
  · refine (List.Pairwise.filter _ h).imp fun {a b} hab hb => ?_
    simp only [decide_eq_true_eq] at hb ⊢
    exact fun hx => hb (IsTrans.trans _ _ _ hx hab)

theorem takeWhile_dropWhile_equiv {l : List α} (h : Sorted lt l) (x : α) :
    (l.dropWhile fun a => ¬ Equiv lt a x).takeWhile (fun a => Equiv lt a x) =
      l.filter fun a => Equiv lt a x := by
  induction l with
  | nil => rfl
  | cons a l ih =>
    have ha := List.pairwise_cons.mp h
    by_cases he : Equiv lt a x
    · rw [List.dropWhile_cons_of_neg (by simpa using he), takeWhile_eq_filter]
      refine List.pairwise_cons.mpr ⟨fun _ _ _ => decide_eq_true he, ?_⟩
      refine ha.2.imp_of_mem fun {b c} hb _ hbc hc => decide_eq_true ⟨fun hbx => ?_, fun hxb => ?_⟩
      · exact he.1 (IsTrans.trans _ _ _ (ha.1 b hb) hbx)
      · exact (of_decide_eq_true hc).2 (IsTrans.trans _ _ _ hxb hbc)
    · rw [List.dropWhile_cons_of_pos (by simpa using he), ih ha.2,
        List.filter_cons_of_neg (by simpa using he)]

theorem takeWhile_lowerBound_equiv {l : List α} (h : Sorted lt l) (x : α) :
    (lowerBound lt x l).takeWhile (fun a => Equiv lt a x) = equalRange lt x l := by
  rw [equalRange_eq_filter h, lowerBound_eq_filter h, takeWhile_eq_filter, List.filter_filter]
  · refine List.filter_congr fun a _ => ?_
    simpa [Equiv] using fun he => (of_decide_eq_true he).1
  · refine (List.Pairwise.filter _ h).imp_of_mem fun {a b} ha _ hab hb => ?_
    simp only [List.mem_filter, decide_eq_true_eq] at ha hb ⊢
    exact ⟨ha.2, fun hx => hb.2 (IsTrans.trans _ _ _ hx hab)⟩

theorem mem_equalRange {l : List α} (h : Sorted lt l) {x a : α} :
    a ∈ equalRange lt x l ↔ a ∈ l ∧ Equiv lt a x := by
  simp [equalRange_eq_filter h]

theorem find_eq_some {l : List α} (h : Sorted lt l) {x a : α} (ha : find lt x l = some a) :
    a ∈ l ∧ Equiv lt a x :=
  (mem_equalRange h).mp (List.mem_of_mem_head? ha)

theorem find_eq_none {l : List α} (h : Sorted lt l) {x : α} :
    find lt x l = none ↔ ∀ a ∈ l, ¬ Equiv lt a x := by
  simp [find, equalRange_eq_filter h]

end Trans

/-! A multiset whose comparator ranks elements: what precedes an element precedes or follows
every third one. -/

section Weak
variable [IsTrans α lt] [Std.Irrefl lt]

theorem WeakSorted.insertMulti {l : List α}
    (h : WeakSorted lt l) (x : α) : WeakSorted lt (insertMulti lt x l) := by
  induction l with
  | nil => exact List.pairwise_singleton _ _
  | cons a l ih =>
    have ha := List.pairwise_cons.mp h
    have hasymm : ∀ {a b : α}, lt a b → ¬ lt b a := fun hab hba =>
      Std.Irrefl.irrefl _ (IsTrans.trans _ _ _ hab hba)
    simp only [Ordered.insertMulti]
    split_ifs with hxa
    · refine List.pairwise_cons.mpr ⟨fun b hb => ?_, h⟩
      rcases List.mem_cons.mp hb with rfl | hb
      · exact hasymm hxa
      · intro hbx
        exact ha.1 b hb (IsTrans.trans _ _ _ hbx hxa)
    · refine List.pairwise_cons.mpr ⟨fun b hb => ?_, ih ha.2⟩
      rcases mem_insertMulti.mp hb with rfl | hb
      · exact hxa
      · exact ha.1 b hb

omit [IsTrans α lt] [Std.Irrefl lt] in
theorem WeakSorted.erase {l : List α} (h : WeakSorted lt l) (x : α) :
    WeakSorted lt (Ordered.erase lt x l) :=
  List.Pairwise.filter _ h

omit [IsTrans α lt] [Std.Irrefl lt] in
theorem WeakSorted.equalRange_eq_filter (hrank : ∀ a b c : α, lt a c → lt a b ∨ lt b c)
    {l : List α} (h : WeakSorted lt l) (x : α) :
    equalRange lt x l = l.filter fun a => Equiv lt a x := by
  have hlow : lowerBound lt x l = l.filter fun a => ¬ lt a x := by
    rw [lowerBound, dropWhile_eq_filter]
    · simp
    · refine h.imp fun {a b} hba hbx => ?_
      simp only [decide_eq_true_eq] at hbx ⊢
      exact (hrank b a x hbx).resolve_left hba
  rw [equalRange, hlow, takeWhile_eq_filter, List.filter_filter]
  · refine List.filter_congr fun a _ => ?_
    simp [Equiv, and_comm]
  · refine (List.Pairwise.filter _ h).imp fun {a b} hba hxb => ?_
    simp only [decide_eq_true_eq] at hxb ⊢
    exact fun hxa => hba ((hrank x b a hxa).resolve_left hxb)

omit [IsTrans α lt] [Std.Irrefl lt] in
theorem WeakSorted.mem_equalRange (hrank : ∀ a b c : α, lt a c → lt a b ∨ lt b c) {l : List α}
    (h : WeakSorted lt l) {x a : α} : a ∈ equalRange lt x l ↔ a ∈ l ∧ Equiv lt a x := by
  rw [h.equalRange_eq_filter hrank, List.mem_filter, decide_eq_true_eq]

omit [IsTrans α lt] [Std.Irrefl lt] in
theorem insertMulti_perm (x : α) (l : List α) : (Ordered.insertMulti lt x l).Perm (x :: l) := by
  induction l with
  | nil => exact .refl _
  | cons a l ih =>
    simp only [Ordered.insertMulti]
    split_ifs
    · exact .refl _
    · exact (ih.cons a).trans (.swap x a l)

end Weak

theorem mem_ofList_of_injective {a : α} {l : List α}
    (h : ∀ b ∈ l, ∀ c ∈ l, Equiv lt b c → b = c) : a ∈ ofList lt l ↔ a ∈ l := by
  have key : ∀ (r s : List α), (∀ b ∈ r, b ∈ l) → (∀ b ∈ s, b ∈ l) →
      (a ∈ r.foldl (fun s a => insert lt a s) s ↔ a ∈ r ∨ a ∈ s) := by
    intro r
    induction r with
    | nil => simp
    | cons b r ih =>
      intro s hr hs
      have hb : b ∈ l := hr b (List.mem_cons_self ..)
      have hmem : ∀ c, c ∈ insert lt b s ↔ c = b ∨ c ∈ s := by
        intro c
        refine ⟨mem_of_mem_insert, ?_⟩
        rintro (rfl | hc)
        · by_cases hfree : ∀ d ∈ s, ¬ Equiv lt d c
          · exact mem_insert_self hfree
          · push Not at hfree
            obtain ⟨d, hd, he⟩ := hfree
            exact mem_insert_of_mem (h d (hs d hd) c hb he ▸ hd)
        · exact mem_insert_of_mem hc
      rw [List.foldl_cons, ih _ (fun c hc => hr c (List.mem_cons_of_mem _ hc)), hmem,
        List.mem_cons]
      · tauto
      · intro c hc
        rcases (hmem c).mp hc with rfl | hc
        · exact hb
        · exact hs c hc
  simpa [ofList] using key l [] (fun _ h => h) (by simp)

section Linear
variable [Std.Trichotomous lt]

theorem mem_insert_linear {x a : α} {l : List α} : a ∈ insert lt x l ↔ a = x ∨ a ∈ l := by
  refine ⟨mem_of_mem_insert, ?_⟩
  rintro (rfl | ha)
  · by_cases h : ∀ b ∈ l, ¬ Equiv lt b a
    · exact mem_insert_self h
    · push Not at h
      obtain ⟨b, hb, he⟩ := h
      exact mem_insert_of_mem (he.eq ▸ hb)
  · exact mem_insert_of_mem ha

theorem mem_ofList {a : α} {l : List α} : a ∈ ofList lt l ↔ a ∈ l :=
  mem_ofList_of_injective fun _ _ _ _ h => h.eq

end Linear

structure Keyed (key : α → List Nat) where
  elements : List α
  sorted : Sorted (fun a b => key a < key b) elements

namespace Keyed

variable {key : α → List Nat} {a b : Keyed key}

instance [DecidableEq α] : DecidableEq (Keyed key) := fun a b =>
  decidable_of_iff (a.elements = b.elements) (by cases a; cases b; simp)

theorem elements_eq_iff : a.elements = b.elements ↔ ∀ x, x ∈ a.elements ↔ x ∈ b.elements := by
  have htrans : IsTrans α fun x y => key x < key y := ⟨fun _ _ _ => List.lt_trans⟩
  have hirrefl : Std.Irrefl fun x y : α => key x < key y := ⟨fun x => List.lt_irrefl (key x)⟩
  constructor
  · intro h x
    rw [h]
  · exact a.sorted.ext b.sorted

end Keyed

end Ordered
