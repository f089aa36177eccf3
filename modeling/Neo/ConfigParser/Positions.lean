import Neo.ConfigParser.Expressions

/-! What the expressions match at a position of a text, however many ways of matching are tried. -/

namespace Neo

open Scanf Regex

namespace ConfigParser

/-! ### The expressions at a position -/

theorem isWord_of_isDigit {c : Char} (h : c.isDigit = true) : isWord c = true := by
  simp [isWord, Char.isAlphanum, h]

theorem isDigit_of_isWord {c : Char} (h : isWord c = false) : c.isDigit = false := by
  by_contra hc
  rw [isWord_of_isDigit (Bool.not_eq_false _ ▸ hc)] at h
  exact absurd h (by decide)

theorem avoids_lit (c : Char) (r : Pattern) (h : c.isDigit = false) :
    ((lit c).seq r).Avoids Char.isDigit := by
  refine avoids_char_seq fun x hx => ?_
  rw [beq_eq_false_iff_ne]
  rintro rfl
  rw [hx] at h
  exact Bool.false_ne_true h.symm

variable {b g after : List Char} {r : Pattern}

theorem ends_octet_dot {d rest : List Char} (hne : d ≠ []) (hlen : d.length ≤ 3)
    (hd : ∀ c ∈ d, c.isDigit = true) :
    (octet.seq ((lit '.').seq r)).ends ⟨b, d ++ '.' :: rest, g⟩ =
      r.ends ⟨'.' :: (d.reverse ++ b), rest, g⟩ := by
  have hcount : 1 ≤ d.length ∧ ∀ m ∈ some 3, d.length ≤ m :=
    ⟨List.length_pos_iff.mpr hne, fun m hm => Option.some.inj hm ▸ hlen⟩
  rw [octet, ends_many_seq (avoids_lit '.' r rfl) hd (ends_cons.mpr rfl), if_pos hcount, lit,
    ends_char_seq_cons]
  rfl

theorem exists_of_ends_octet_dot
    (h : (octet.seq ((lit '.').seq r)).ends ⟨b, after, g⟩ ≠ []) :
    ∃ d rest, after = d ++ '.' :: rest ∧ d ≠ [] ∧ d.length ≤ 3 ∧ ∀ c ∈ d, c.isDigit = true := by
  obtain ⟨d, rest, rfl, hd, hrest⟩ := exists_run Char.isDigit after
  rw [octet, ends_many_seq (avoids_lit '.' r rfl) hd hrest] at h
  split_ifs at h with hlen
  · cases rest with
    | nil => exact absurd rfl h
    | cons x rest =>
      have hx : x = '.' := by
        by_contra hx
        rw [lit, ends_char_seq_cons, if_neg (by simpa using hx)] at h
        exact h rfl
      exact ⟨d, rest, by rw [hx], List.ne_nil_of_length_pos hlen.1, hlen.2 3 rfl, hd⟩
  · exact absurd rfl h

def Quad.stem (q : Quad) (before : List Char) : List Char :=
  '.' :: (q.d₁.reverse ++ '.' :: (q.d₂.reverse ++ '.' :: (q.d₃.reverse ++ before)))

theorem ends_quad (q : Quad) {post : List Char} (hpost : Ends Char.isDigit post) :
    quad.ends ⟨b, q.text ++ post, g⟩ = (downFrom (min q.d₀.length 3) 1).map
      (Cursor.advance ⟨q.stem b, q.d₀ ++ post, g⟩) := by
  have h₃ := q.isDigit q.d₃ (by simp)
  have h₂ := q.isDigit q.d₂ (by simp)
  have h₁ := q.isDigit q.d₁ (by simp)
  have h₀ := q.isDigit q.d₀ (by simp)
  rw [q.text_append, quad, ends_octet_dot h₃.1 (q.short q.d₃ (by simp)) h₃.2,
    ends_octet_dot h₂.1 (q.short q.d₂ (by simp)) h₂.2,
    ends_octet_dot h₁.1 (q.short q.d₁ (by simp)) h₁.2]
  show (downFrom _ 1).map _ = _
  rw [run_append h₀.2 hpost]
  rfl

theorem exists_quad (h : quad.ends ⟨b, after, g⟩ ≠ []) :
    ∃ (q : Quad) (post : List Char), after = q.text ++ post ∧ Ends Char.isDigit post := by
  rw [quad] at h
  obtain ⟨d₃, rest₃, rfl, hne₃, hlen₃, hd₃⟩ := exists_of_ends_octet_dot h
  rw [ends_octet_dot hne₃ hlen₃ hd₃] at h
  obtain ⟨d₂, rest₂, rfl, hne₂, hlen₂, hd₂⟩ := exists_of_ends_octet_dot h
  rw [ends_octet_dot hne₂ hlen₂ hd₂] at h
  obtain ⟨d₁, rest₁, rfl, hne₁, hlen₁, hd₁⟩ := exists_of_ends_octet_dot h
  rw [ends_octet_dot hne₁ hlen₁ hd₁] at h
  obtain ⟨d₀, post, rfl, hd₀, hpost⟩ := exists_run Char.isDigit rest₁
  have hne₀ : d₀ ≠ [] := by
    rintro rfl
    rw [octet, Pattern.ends, run_append hd₀ hpost] at h
    exact h rfl
  refine ⟨⟨d₃, d₂, d₁, d₀, ?_, ?_⟩, post, ?_, hpost⟩
  · simp only [List.forall_mem_cons, List.not_mem_nil, false_imp_iff, forall_true_iff, and_true]
    exact ⟨⟨hne₃, hd₃⟩, ⟨hne₂, hd₂⟩, ⟨hne₁, hd₁⟩, hne₀, hd₀⟩
  · simp only [List.forall_mem_cons, List.not_mem_nil, false_imp_iff, forall_true_iff, and_true]
    exact ⟨hlen₃, hlen₂, hlen₁⟩
  · rw [Quad.text_append]

theorem ends_quad_seq (hr : r.Avoids Char.isDigit) (q : Quad) {post : List Char}
    (hpost : Ends Char.isDigit post) :
    (quad.seq r).ends ⟨b, q.text ++ post, g⟩ =
      if q.d₀.length ≤ 3 then r.ends ⟨q.text.reverse ++ b, post, g⟩ else [] := by
  have h₀ := q.isDigit q.d₀ (by simp)
  have hpos := List.length_pos_iff.mpr h₀.1
  have hshort : ∀ k, k < q.d₀.length →
      r.ends (Cursor.advance ⟨q.stem b, q.d₀ ++ post, g⟩ k) = [] := by
    intro k hk
    refine hr _ (q.d₀.get ⟨k, hk⟩) ?_ (h₀.2 _ (List.getElem_mem hk))
    simp [Cursor.advance, List.head?_drop, List.getElem?_append_left hk]
  have hback : q.d₀.reverse ++ q.stem b = q.text.reverse ++ b := by
    simp [Quad.stem, Quad.text]
  show (quad.ends _).flatMap r.ends = _
  rw [ends_quad q hpost, List.flatMap_map, flatMap_downFrom fun k _ hk => hshort k (by omega),
    if_pos (by omega)]
  split_ifs with hlen
  · rw [Nat.min_eq_left hlen, advance_append, hback]
  · exact hshort _ (by omega)

theorem ends_quad_lit {c : Char} (hc : c.isDigit = false) (q : Quad) (hlen : q.d₀.length ≤ 3)
    (post : List Char) : (quad.seq ((lit c).seq r)).ends ⟨b, q.text ++ c :: post, g⟩ =
      r.ends ⟨c :: (q.text.reverse ++ b), post, g⟩ := by
  rw [ends_quad_seq (avoids_lit c r hc) q (ends_cons.mpr hc), if_pos hlen, lit,
    ends_char_seq_cons, if_pos (beq_self_eq_true c)]

theorem exists_of_ends_quad_lit {c : Char} (hc : c.isDigit = false)
    (h : (quad.seq ((lit c).seq r)).ends ⟨b, after, g⟩ ≠ []) :
    ∃ (q : Quad) (post : List Char), after = q.text ++ c :: post ∧ q.d₀.length ≤ 3 := by
  have hquad : quad.ends ⟨b, after, g⟩ ≠ [] := by
    intro hnil
    rw [Pattern.ends, hnil] at h
    exact h rfl
  obtain ⟨q, post, rfl, hpost⟩ := exists_quad hquad
  rw [ends_quad_seq (avoids_lit c r hc) q hpost] at h
  split_ifs at h with hlen
  · cases post with
    | nil => exact absurd rfl h
    | cons x post =>
      have hx : x = c := by
        by_contra hx
        rw [lit, ends_char_seq_cons, if_neg (by simpa using hx)] at h
        exact h rfl
      exact ⟨q, post, by rw [hx], hlen⟩
  · exact absurd rfl h

/-! ### Boundaries -/

theorem ends_isWord_iff {text : List Char} : Ends isWord text ↔ text.head?.any isWord = false := by
  cases text with
  | nil => simp [Ends]
  | cons c text => simp [Ends]

theorem ends_isDigit_of_isWord {text : List Char} (h : Ends isWord text) :
    Ends Char.isDigit text := fun c hc => isDigit_of_isWord (h c hc)

theorem atBoundary_inside {d post : List Char} (hd : ∀ c ∈ d, c.isDigit = true) {k : Nat}
    (hk : 1 ≤ k) (hlt : k < d.length) :
    atBoundary (((d ++ post).take k).reverse ++ b) ((d ++ post).drop k) = false := by
  have hbefore : (((d ++ post).take k).reverse ++ b).head? = some (d.get ⟨k - 1, by omega⟩) := by
    rw [List.take_append_of_le_length hlt.le]
    obtain ⟨j, rfl⟩ := Nat.exists_eq_add_of_le' hk
    have hj : j < d.length := by omega
    rw [List.take_succ_eq_append_getElem hj, List.reverse_append]
    rfl
  have hafter : ((d ++ post).drop k).head? = some (d.get ⟨k, hlt⟩) := by
    simp [List.head?_drop, List.getElem?_append_left hlt]
  rw [atBoundary, hbefore, hafter, Option.any_some, Option.any_some,
    isWord_of_isDigit (hd _ (List.get_mem ..)), isWord_of_isDigit (hd _ (List.get_mem ..))]
  rfl

theorem atBoundary_behind {d post : List Char} (hne : d ≠ []) (hd : ∀ c ∈ d, c.isDigit = true) :
    atBoundary (d.reverse ++ b) post = true ↔ Ends isWord post := by
  have hbefore : (d.reverse ++ b).head?.any isWord = true := by
    obtain ⟨l, x, rfl⟩ := List.eq_nil_or_concat d |>.resolve_left hne
    simp [isWord_of_isDigit (hd x (by simp))]
  rw [atBoundary, hbefore, ends_isWord_iff]
  cases post.head?.any isWord <;> simp

theorem atBoundary_front (q : Quad) (post : List Char) :
    atBoundary b (q.text ++ post) = true ↔ Ends isWord b := by
  have h₃ := q.isDigit q.d₃ (by simp)
  have hafter : (q.text ++ post).head?.any isWord = true := by
    obtain ⟨x, l, hl⟩ := List.exists_cons_of_ne_nil h₃.1
    rw [q.text_append, hl]
    simp [isWord_of_isDigit (h₃.2 x (by simp [hl]))]
  rw [atBoundary, hafter, ends_isWord_iff]
  cases b.head?.any isWord <;> simp

theorem flatMap_number_boundary {d post : List Char} (hd : ∀ c ∈ d, c.isDigit = true)
    (hpost : Ends Char.isDigit post) {f : Cursor → Cursor}
    (hbefore : ∀ c, (f c).before = c.before) (hafter : ∀ c, (f c).after = c.after) :
    (number.ends ⟨b, d ++ post, g⟩).flatMap (fun c => Pattern.boundary.ends (f c)) =
      if d ≠ [] ∧ Ends isWord post then [f ⟨d.reverse ++ b, post, g⟩] else [] := by
  show ((downFrom _ 1).map _).flatMap _ = _
  rw [List.flatMap_map, run_append hd hpost, Option.elim_none, flatMap_downFrom]
  · by_cases hne : d = []
    · subst hne
      rfl
    · have hpos := List.length_pos_iff.mpr hne
      rw [if_pos (show 1 ≤ d.length from hpos), advance_append, Pattern.ends, hbefore, hafter]
      by_cases hword : Ends isWord post
      · rw [if_pos ((atBoundary_behind hne hd).mpr hword), if_pos ⟨hne, hword⟩]
      · rw [if_neg ((atBoundary_behind hne hd).not.mpr hword), if_neg fun h => hword h.2]
  · intro k hk hlt
    rw [Pattern.ends, hbefore, hafter, Cursor.advance, atBoundary_inside hd hk hlt]
    rfl

theorem ends_number_boundary {d post : List Char} (hd : ∀ c ∈ d, c.isDigit = true)
    (hpost : Ends Char.isDigit post) :
    (number.seq .boundary).ends ⟨b, d ++ post, g⟩ =
      if d ≠ [] ∧ Ends isWord post then [⟨d.reverse ++ b, post, g⟩] else [] :=
  flatMap_number_boundary (f := id) hd hpost (fun _ => rfl) fun _ => rfl

theorem ends_group_number_boundary {d post : List Char} (hd : ∀ c ∈ d, c.isDigit = true)
    (hpost : Ends Char.isDigit post) :
    ((Pattern.group number).seq .boundary).ends ⟨b, d ++ post, g⟩ =
      if d ≠ [] ∧ Ends isWord post then [⟨d.reverse ++ b, post, d⟩] else [] := by
  let f : Cursor → Cursor := fun c => { c with group := Cursor.passed ⟨b, d ++ post, g⟩ c }
  have h := flatMap_number_boundary (b := b) (g := g) (f := f) hd hpost (fun _ => rfl)
    fun _ => rfl
  have hpassed : (Cursor.passed ⟨b, d ++ post, g⟩ ⟨d.reverse ++ b, post, g⟩) = d := by
    simp [Cursor.passed]
  show ((number.ends _).map f).flatMap Pattern.boundary.ends = _
  rw [List.flatMap_map, h]
  simp only [f, hpassed]

theorem ends_boundary_seq (after g : List Char) :
    (Pattern.boundary.seq r).ends ⟨b, after, g⟩ =
      if atBoundary b after then r.ends ⟨b, after, g⟩ else [] := by
  show (Pattern.boundary.ends _).flatMap r.ends = _
  rw [Pattern.ends]
  split_ifs <;> simp

/-! ### What the expressions match at a position -/

theorem matchAt_of_ends {c : Cursor} {l : List Cursor} (h : r.ends ⟨b, after, []⟩ = c :: l)
    {whole : List Char} (hafter : after = whole ++ c.after) :
    r.matchAt b after = some ⟨whole, c.group, c.after⟩ := by
  rw [Pattern.matchAt, h]
  simp [Cursor.passed, hafter]

theorem ends_of_matchAt {m : Match} (h : r.matchAt b after = some m) :
    r.ends ⟨b, after, []⟩ ≠ [] := by
  intro hnil
  rw [Pattern.matchAt, hnil] at h
  simp at h

theorem matchAt_network {d post : List Char} (q : Quad) (hlen : q.d₀.length ≤ 3) (hne : d ≠ [])
    (hd : ∀ c ∈ d, c.isDigit = true) (hb : Ends isWord b) (hpost : Ends isWord post) :
    ipPrefixRegex.matchAt b (q.text ++ '/' :: (d ++ post)) =
      some ⟨q.text ++ '/' :: d, [], post⟩ := by
  refine matchAt_of_ends (l := []) (c := ⟨d.reverse ++ '/' :: (q.text.reverse ++ b), post, []⟩) ?_
    (by simp)
  rw [ipPrefixRegex, ends_boundary_seq, if_pos ((atBoundary_front q _).mpr hb),
    ends_quad_lit rfl q hlen, ends_number_boundary hd (ends_isDigit_of_isWord hpost),
    if_pos ⟨hne, hpost⟩]

theorem exists_of_matchAt_network {m : Match} (h : ipPrefixRegex.matchAt b after = some m) :
    ∃ (q : Quad) (d post : List Char), after = q.text ++ '/' :: (d ++ post) ∧ q.d₀.length ≤ 3 ∧
      d ≠ [] ∧ (∀ c ∈ d, c.isDigit = true) ∧ Ends isWord b ∧ Ends isWord post ∧
        m = ⟨q.text ++ '/' :: d, [], post⟩ := by
  have hends := ends_of_matchAt h
  rw [ipPrefixRegex, ends_boundary_seq] at hends
  split_ifs at hends with hb
  · obtain ⟨q, rest, rfl, hlen⟩ := exists_of_ends_quad_lit rfl hends
    rw [ends_quad_lit rfl q hlen] at hends
    rw [atBoundary_front] at hb
    obtain ⟨d, post, rfl, hd, hpost⟩ := exists_run Char.isDigit rest
    rw [ends_number_boundary hd hpost] at hends
    split_ifs at hends with hcond
    · obtain ⟨hne, hword⟩ := hcond
      rw [matchAt_network q hlen hne hd hb hword] at h
      exact ⟨q, d, post, rfl, hlen, hne, hd, hb, hword, (Option.some.inj h).symm⟩
    · exact absurd rfl hends
  · exact absurd rfl hends

theorem matchAt_addr {post : List Char} (q : Quad) (hlen : q.d₀.length ≤ 3)
    (hb : Ends isWord b) (hpost : Ends Char.isDigit post) (hslash : '/' ∉ post.head?) :
    ipAddrRegex.matchAt b (q.text ++ post) = some ⟨q.text ++ post.take 1, q.text, post.drop 1⟩ := by
  have h₀ := q.isDigit q.d₀ (by simp)
  have hpos : 1 ≤ q.d₀.length := List.length_pos_iff.mpr h₀.1
  obtain ⟨l, hl, -⟩ := downFrom_cons hpos
  have hpassed : Cursor.passed ⟨b, q.text ++ post, []⟩
      (Cursor.advance ⟨q.stem b, q.d₀ ++ post, []⟩ q.d₀.length) = q.text := by
    simp [Cursor.passed]
  have hends : ∃ l', ipAddrRegex.ends ⟨b, q.text ++ post, []⟩ =
      ⟨(post.take 1).reverse ++ (q.d₀.reverse ++ q.stem b), post.drop 1, q.text⟩ :: l' := by
    rw [ipAddrRegex, ends_boundary_seq, if_pos ((atBoundary_front q _).mpr hb)]
    show ∃ l', ((quad.ends _).map _).flatMap _ = _
    rw [ends_quad q hpost, Nat.min_eq_left hlen, hl, List.map_cons, List.map_cons,
      List.flatMap_cons, hpassed, advance_append]
    cases post with
    | nil => exact ⟨_, rfl⟩
    | cons x post =>
      have hx : (x != '/') = true := by
        rw [bne_iff_ne]
        rintro rfl
        exact hslash rfl
      have hchar : ∀ before, (Pattern.char (· != '/')).ends ⟨before, x :: post, q.text⟩ =
          [⟨x :: before, post, q.text⟩] := fun before => by
        rw [Pattern.ends]
        exact if_pos hx
      rw [Pattern.ends, hchar]
      exact ⟨_, rfl⟩
  obtain ⟨l', hends⟩ := hends
  exact matchAt_of_ends hends (by rw [List.append_assoc, List.take_append_drop])

theorem exists_of_matchAt_addr {m : Match} (h : ipAddrRegex.matchAt b after = some m) :
    ∃ (q : Quad) (post : List Char), after = q.text ++ post ∧ Ends Char.isDigit post ∧
      Ends isWord b ∧ (q.d₀.length = 1 → '/' ∉ post.head?) := by
  have hends := ends_of_matchAt h
  rw [ipAddrRegex, ends_boundary_seq] at hends
  split_ifs at hends with hb
  · have hquad : quad.ends ⟨b, after, []⟩ ≠ [] := by
      intro hnil
      rw [Pattern.ends, Pattern.ends, hnil] at hends
      exact hends rfl
    obtain ⟨q, post, rfl, hpost⟩ := exists_quad hquad
    rw [atBoundary_front] at hb
    refine ⟨q, post, rfl, hpost, hb, fun hone hslash => hends ?_⟩
    -- a single digit cannot be given up for the slash behind it
    obtain ⟨x, hx⟩ := List.length_eq_one_iff.mp hone
    obtain ⟨post, rfl⟩ : ∃ post', post = '/' :: post' := List.head?_eq_some_iff.mp hslash
    show ((quad.ends _).map _).flatMap _ = _
    rw [ends_quad q hpost, hone]
    have hdown : downFrom (min 1 3) 1 = [1] := rfl
    rw [hdown, List.map_singleton, List.map_singleton, List.flatMap_singleton, hx]
    rfl
  · exact absurd rfl hends

/-! ### Ports at a position -/

theorem ends_seq_assoc (r s t : Pattern) (c : Cursor) :
    ((r.seq s).seq t).ends c = (r.seq (s.seq t)).ends c := List.flatMap_assoc

theorem ends_alt_seq (r s t : Pattern) (c : Cursor) :
    ((r.alt s).seq t).ends c = (r.seq t).ends c ++ (s.seq t).ends c := List.flatMap_append

theorem ends_lit_seq (x : Char) (after g : List Char) :
    ((lit x).seq r).ends ⟨b, x :: after, g⟩ = r.ends ⟨x :: b, after, g⟩ := by
  rw [lit, ends_char_seq_cons, if_pos (beq_self_eq_true x)]

theorem exists_of_ends_lit_seq {x : Char} (h : ((lit x).seq r).ends ⟨b, after, g⟩ ≠ []) :
    ∃ after', after = x :: after' := by
  cases after with
  | nil => exact absurd rfl h
  | cons y after =>
    by_cases hy : y = x
    · exact ⟨after, by rw [hy]⟩
    · rw [lit, ends_char_seq_cons, if_neg (by simpa using hy)] at h
      exact absurd rfl h

theorem exists_of_ends_port (h : ((Pattern.group number).seq .boundary).ends ⟨b, after, g⟩ ≠ []) :
    ∃ d post, after = d ++ post ∧ d ≠ [] ∧ (∀ c ∈ d, c.isDigit = true) ∧ Ends isWord post ∧
      ((Pattern.group number).seq .boundary).ends ⟨b, after, g⟩ =
        [⟨d.reverse ++ b, post, d⟩] := by
  obtain ⟨d, post, rfl, hd, hpost⟩ := exists_run Char.isDigit after
  rw [ends_group_number_boundary hd hpost] at h ⊢
  split_ifs at h ⊢ with hcond
  · exact ⟨d, post, rfl, hcond.1, hd, hcond.2, rfl⟩
  · exact absurd rfl h

theorem avoids_port : ((Pattern.group number).seq .boundary).Avoids isBlank := by
  intro c x hx hblank
  by_contra h
  obtain ⟨b, after, g⟩ := c
  obtain ⟨d, post, rfl, hne, hd, -⟩ := exists_of_ends_port h
  obtain ⟨y, d, rfl⟩ := List.exists_cons_of_ne_nil hne
  obtain rfl : y = x := by simpa using hx
  have := hd y (by simp)
  rw [isDigit_of_isBlank hblank] at this
  exact absurd this (by decide)

def PortShape (before lead : List Char) : Prop :=
  (∃ blanks, blanks ≠ [] ∧ (∀ c ∈ blanks, isBlank c = true) ∧ lead = "port".toList ++ blanks) ∨
    Ends isWord before ∧ ∃ q : Quad, q.d₀.length ≤ 3 ∧ lead = q.text ++ [':']

theorem exists_of_ends_portWord
    (h : (portWord.seq ((Pattern.group number).seq .boundary)).ends ⟨b, after, []⟩ ≠ []) :
    ∃ lead d post, after = lead ++ (d ++ post) ∧ PortShape b lead ∧ d ≠ [] ∧
      (∀ c ∈ d, c.isDigit = true) ∧ Ends isWord post ∧
        (portWord.seq ((Pattern.group number).seq .boundary)).ends ⟨b, after, []⟩ =
          [⟨d.reverse ++ (lead.reverse ++ b), post, d⟩] := by
  rw [portWord, ends_seq_assoc] at h ⊢
  obtain ⟨after, rfl⟩ := exists_of_ends_lit_seq h
  rw [ends_lit_seq, ends_seq_assoc] at h ⊢
  obtain ⟨after, rfl⟩ := exists_of_ends_lit_seq h
  rw [ends_lit_seq, ends_seq_assoc] at h ⊢
  obtain ⟨after, rfl⟩ := exists_of_ends_lit_seq h
  rw [ends_lit_seq, ends_seq_assoc] at h ⊢
  obtain ⟨after, rfl⟩ := exists_of_ends_lit_seq h
  rw [ends_lit_seq] at h ⊢
  obtain ⟨blanks, rest, rfl, hblank, hrest⟩ := exists_run isBlank after
  rw [ends_many_seq avoids_port hblank hrest] at h ⊢
  split_ifs at h ⊢ with hcond
  · obtain ⟨d, post, rfl, hne, hd, hpost, hport⟩ := exists_of_ends_port h
    refine ⟨"port".toList ++ blanks, d, post, rfl,
      .inl ⟨blanks, List.ne_nil_of_length_pos hcond.1, hblank, rfl⟩, hne, hd, hpost, ?_⟩
    rw [hport]
    simp
  · exact absurd rfl h

theorem exists_of_ends_portQuad
    (h : (Pattern.boundary.seq (quad.seq ((lit ':').seq
      ((Pattern.group number).seq .boundary)))).ends ⟨b, after, []⟩ ≠ []) :
    ∃ lead d post, after = lead ++ (d ++ post) ∧ PortShape b lead ∧ d ≠ [] ∧
      (∀ c ∈ d, c.isDigit = true) ∧ Ends isWord post ∧
        (Pattern.boundary.seq (quad.seq ((lit ':').seq
          ((Pattern.group number).seq .boundary)))).ends ⟨b, after, []⟩ =
            [⟨d.reverse ++ (lead.reverse ++ b), post, d⟩] := by
  rw [ends_boundary_seq] at h ⊢
  split_ifs at h ⊢ with hb
  · obtain ⟨q, rest, rfl, hlen⟩ := exists_of_ends_quad_lit rfl h
    rw [ends_quad_lit rfl q hlen] at h ⊢
    rw [atBoundary_front] at hb
    obtain ⟨d, post, rfl, hne, hd, hpost, hport⟩ := exists_of_ends_port h
    refine ⟨q.text ++ [':'], d, post, by simp, .inr ⟨hb, q, hlen, rfl⟩, hne, hd, hpost, ?_⟩
    rw [hport]
    simp
  · exact absurd rfl h

theorem exists_of_matchAt_port {m : Match} (h : portRegex.matchAt b after = some m) :
    ∃ lead d post, after = lead ++ (d ++ post) ∧ PortShape b lead ∧ d ≠ [] ∧
      (∀ c ∈ d, c.isDigit = true) ∧ Ends isWord post ∧ m = ⟨lead ++ d, d, post⟩ := by
  have hends : portRegex.ends ⟨b, after, []⟩ =
      (portWord.seq ((Pattern.group number).seq .boundary)).ends ⟨b, after, []⟩ ++
        (Pattern.boundary.seq (quad.seq ((lit ':').seq
          ((Pattern.group number).seq .boundary)))).ends ⟨b, after, []⟩ := by
    rw [portRegex, ends_alt_seq, ends_seq_assoc _ (quad.seq (lit ':')), ends_boundary_seq,
      ends_boundary_seq, ends_seq_assoc]
  have hmatch : ∀ (lead d post : List Char) (l : List Cursor), after = lead ++ (d ++ post) →
      portRegex.ends ⟨b, after, []⟩ = ⟨d.reverse ++ (lead.reverse ++ b), post, d⟩ :: l →
        m = ⟨lead ++ d, d, post⟩ := by
    intro lead d post l hafter hl
    exact Option.some.inj (h.symm.trans (matchAt_of_ends hl (by simp [hafter])))
  by_cases hword : (portWord.seq ((Pattern.group number).seq .boundary)).ends ⟨b, after, []⟩ = []
  · rw [hword, List.nil_append] at hends
    obtain ⟨lead, d, post, hafter, hshape, hne, hd, hpost, hone⟩ :=
      exists_of_ends_portQuad (hends ▸ ends_of_matchAt h)
    exact ⟨lead, d, post, hafter, hshape, hne, hd, hpost,
      hmatch lead d post [] hafter (hends.trans hone)⟩
  · obtain ⟨lead, d, post, hafter, hshape, hne, hd, hpost, hone⟩ := exists_of_ends_portWord hword
    rw [hone] at hends
    exact ⟨lead, d, post, hafter, hshape, hne, hd, hpost, hmatch lead d post _ hafter hends⟩

end ConfigParser

end Neo
