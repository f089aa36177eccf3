import Neo.ConfigParser.Positions

/-! The mining of a text. Where what looks like an address, a network or a port is one, the text
is mined to its end. -/

namespace Neo

open Scanf Regex

namespace ConfigParser

variable {b g after : List Char} {r : Pattern}

/-! ### What is read at a position -/

theorem digits_inj {d d' rest rest' : List Char} (hd : ∀ c ∈ d, c.isDigit = true)
    (hd' : ∀ c ∈ d', c.isDigit = true) (hrest : Ends Char.isDigit rest)
    (hrest' : Ends Char.isDigit rest') (h : d ++ rest = d' ++ rest') : d = d' ∧ rest = rest' := by
  have hrun : d = d' := by
    rw [← takeWhile_append hd hrest, h, takeWhile_append hd' hrest']
  subst hrun
  exact ⟨rfl, List.append_cancel_left h⟩

theorem Quad.append_inj {q q' : Quad} {post post' : List Char} (hpost : Ends Char.isDigit post)
    (hpost' : Ends Char.isDigit post') (h : q.text ++ post = q'.text ++ post') :
    q = q' ∧ post = post' := by
  have hdot : ∀ rest, Ends Char.isDigit ('.' :: rest) := fun _ => ends_cons.mpr rfl
  have hdigit : ∀ (q : Quad), ∀ d ∈ [q.d₃, q.d₂, q.d₁, q.d₀], ∀ c ∈ d, c.isDigit = true :=
    fun q d hd => (q.isDigit d hd).2
  rw [q.text_append, q'.text_append] at h
  obtain ⟨h₃, t₃⟩ := digits_inj (hdigit q _ (by simp)) (hdigit q' _ (by simp)) (hdot _) (hdot _) h
  obtain ⟨h₂, t₂⟩ := digits_inj (hdigit q _ (by simp)) (hdigit q' _ (by simp)) (hdot _) (hdot _)
    (List.cons.inj t₃).2
  obtain ⟨h₁, t₁⟩ := digits_inj (hdigit q _ (by simp)) (hdigit q' _ (by simp)) (hdot _) (hdot _)
    (List.cons.inj t₂).2
  obtain ⟨h₀, t₀⟩ := digits_inj (hdigit q _ (by simp)) (hdigit q' _ (by simp)) hpost hpost'
    (List.cons.inj t₁).2
  refine ⟨?_, t₀⟩
  cases q
  cases q'
  rw [Quad.mk.injEq]
  exact ⟨h₃, h₂, h₁, h₀⟩

theorem parse_of_cidr {s : List Char} {n : IPNetwork} (h : Cidr s n.toIPInterface) :
    IPNetwork.parse s = .ok n := by
  rw [IPNetwork.parse, h.parse]
  exact dif_pos n.isNetwork

theorem NetworkAt.matchAt {n : IPNetwork} (h : NetworkAt n b after) :
    ∃ m, ipPrefixRegex.matchAt b after = some m ∧ IPNetwork.parse m.whole = .ok n := by
  obtain ⟨q, d, post, rfl, hq, hd, halone⟩ := h
  refine ⟨_, matchAt_network q hq.1 hd.ne hd.isDigit halone.wordBefore halone.wordAfter, ?_⟩
  exact parse_of_cidr ⟨_, _, rfl, hq.2, hd⟩

theorem CleanAt.network {m : Match} (hclean : CleanAt b after)
    (h : ipPrefixRegex.matchAt b after = some m) :
    ∃ n, IPNetwork.parse m.whole = .ok n ∧ NetworkAt n b after ∧
      ∃ (q : Quad) (d : List Char), m.whole = q.text ++ '/' :: d ∧
        (∀ c ∈ d, c.isDigit = true) ∧ Alone b m.suffix := by
  obtain ⟨q, d, post, rfl, hlen, hne, hd, hb, hpost, rfl⟩ := exists_of_matchAt_network h
  have hends := ends_isDigit_of_isWord hpost
  cases hclean.quad q _ rfl (ends_cons.mpr rfl) hb with
  | address a _ _ hslash => exact absurd rfl hslash
  | network n d' post' hone heq hq hd' halone =>
    obtain ⟨rfl, rfl⟩ := digits_inj hd hd'.isDigit hends
      (ends_isDigit_of_isWord halone.wordAfter) (List.cons.inj heq).2
    exact ⟨n, parse_of_cidr ⟨_, _, rfl, hq.2, hd'⟩, ⟨q, d, post, rfl, hq, hd', halone⟩, q, d, rfl,
      hd, halone⟩
  | broken d' post' c hone heq _ hd' hword hdigit =>
    obtain ⟨-, rfl⟩ := digits_inj hd hd' hends (ends_cons.mpr hdigit) (List.cons.inj heq).2
    exact absurd (hword.symm.trans (ends_cons.mp hpost)) (by decide)
  | neither post' hone heq hstop _ =>
    obtain ⟨x, d, rfl⟩ := List.exists_cons_of_ne_nil hne
    rw [← (List.cons.inj heq).2, List.cons_append, ends_cons] at hstop
    exact absurd ((hd x (by simp)).symm.trans hstop) (by decide)

theorem CleanAt.matchAt_address {a : IPv4Address} (hclean : CleanAt b after)
    (h : AddressAt a b after) :
    ∃ m, ipAddrRegex.matchAt b after = some m ∧ IPv4Address.parse m.group = .ok a := by
  obtain ⟨q, post, rfl, hq, halone, hslash⟩ := h
  have hends := ends_isDigit_of_isWord halone.wordAfter
  have hcontinues : ∀ d post', d ≠ [] → (∀ c ∈ d, c.isDigit = true) →
      post ≠ '/' :: (d ++ post') := by
    rintro d post' hne hd rfl
    obtain ⟨x, d, rfl⟩ := List.exists_cons_of_ne_nil hne
    exact hslash ⟨x, d ++ post', rfl, hd x (by simp)⟩
  cases hclean.quad q post rfl hends halone.wordBefore with
  | address _ _ _ hnot =>
    exact ⟨_, matchAt_addr q hq.1 halone.wordBefore hends hnot, hq.2.parse⟩
  | network n d post' _ heq _ hd _ => exact absurd heq (hcontinues d post' hd.ne hd.isDigit)
  | broken d post' c _ heq hne hd _ _ => exact absurd heq (hcontinues d (c :: post') hne hd)
  | neither _ _ _ _ hnot => exact absurd halone (hnot a hq)

theorem CleanAt.address {m : Match} (hclean : CleanAt b after)
    (h : ipAddrRegex.matchAt b after = some m) :
    ∃ a, IPv4Address.parse m.group = .ok a ∧ AddressAt a b after ∧
      ∃ (q : Quad) (post : List Char), after = q.text ++ post ∧ Alone b post ∧
        m = ⟨q.text ++ post.take 1, q.text, post.drop 1⟩ := by
  obtain ⟨q, post, rfl, hends, hb, hslash⟩ := exists_of_matchAt_addr h
  cases hclean.quad q post rfl hends hb with
  | address a hq halone hnot =>
    have hm := matchAt_addr q hq.1 hb hends hnot
    obtain rfl := Option.some.inj (h.symm.trans hm)
    refine ⟨a, hq.2.parse, ⟨q, post, rfl, hq, halone, ?_⟩, q, post, rfl, halone, rfl⟩
    rintro ⟨d, rest, rfl, -⟩
    exact hnot rfl
  | network n d post' hone heq | broken d post' c hone heq | neither post' hone heq =>
    subst heq
    exact absurd rfl (hslash hone)

def portOf (m : Match) : Except (List Char) (BitVec 16) := (stoul m.group).map (BitVec.ofNat 16)

theorem CleanAt.port_found {m : Match} (hclean : CleanAt b after)
    (h : portRegex.matchAt b after = some m) :
    ∃ p, portOf m = .ok p ∧ PortAt p b after ∧ m.whole ≠ [] ∧ Ends isWord m.suffix := by
  obtain ⟨lead, d, post, rfl, hshape, hne, hd, hpost, rfl⟩ := exists_of_matchAt_port h
  have hlead : PortLead b lead := by
    rcases hshape with hword | ⟨hb, q, hlen, rfl⟩
    · exact .inl hword
    · have happend : q.text ++ [':'] ++ (d ++ post) = q.text ++ ':' :: (d ++ post) := by simp
      cases hclean.quad q _ happend (ends_cons.mpr rfl) hb with
      | address a hq => exact .inr ⟨hb, q, a, hq, rfl⟩
      | network n d' post' _ heq | broken d' post' c _ heq | neither post' _ heq =>
        exact absurd (List.cons.inj heq).1 (by decide)
  obtain ⟨hdot, p, hnum, hpos⟩ := hclean.port lead d post rfl hlead hne hd hpost
  have hvalue : stoul d = .ok p.toNat := by
    rw [stoul, hnum.value]
    exact if_pos (p.isLt.trans (by decide))
  refine ⟨p, ?_, ⟨lead, d, post, rfl, hlead, hnum, hpos, hpost, hdot⟩, by simp [hne], hpost⟩
  simp [portOf, hvalue, Except.map]

/-! ### Where the search goes on -/

theorem Quad.not_ends (q : Quad) (post : List Char) : ¬Ends isWord (q.text ++ post) := by
  have h₃ := q.isDigit q.d₃ (by simp)
  obtain ⟨x, l, hl⟩ := List.exists_cons_of_ne_nil h₃.1
  rw [q.text_append, hl, List.cons_append, ends_cons, isWord_of_isDigit (h₃.2 x (by simp [hl]))]
  decide

theorem not_matchAt_network (h : Ends isWord after) (b : List Char) :
    ipPrefixRegex.matchAt b after = none := by
  refine Option.eq_none_iff_forall_ne_some.mpr fun m hm => ?_
  obtain ⟨q, d, post, rfl, -⟩ := exists_of_matchAt_network hm
  exact q.not_ends _ h

theorem not_matchAt_port (h : Ends isWord after) (b : List Char) :
    portRegex.matchAt b after = none := by
  refine Option.eq_none_iff_forall_ne_some.mpr fun m hm => ?_
  obtain ⟨lead, d, post, rfl, hshape, -⟩ := exists_of_matchAt_port hm
  rcases hshape with ⟨blanks, -, -, rfl⟩ | ⟨-, q, -, rfl⟩
  · exact absurd (ends_cons.mp h) (by decide)
  · rw [List.append_assoc] at h
    exact q.not_ends _ h

theorem cut_digits {d rest s₁ s₂ : List Char} (hd : ∀ c ∈ d, c.isDigit = true)
    (h : s₁ ++ s₂ = d ++ rest) (hs : s₁ ≠ []) (hword : Ends isWord (s₁.reverse ++ b)) :
    ∃ s, s ≠ [] ∧ s₁ = d ++ s ∧ s ++ s₂ = rest := by
  have hlast : ¬∀ c ∈ s₁, c.isDigit = true := by
    intro hdigit
    obtain ⟨l, x, rfl⟩ := List.eq_nil_or_concat s₁ |>.resolve_left hs
    have := isWord_of_isDigit (hdigit x (by simp))
    simp [Ends, this] at hword
  rcases List.append_eq_append_iff.mp h with ⟨t, rfl, -⟩ | ⟨t, rfl, ht⟩
  · exact absurd (fun c hc => hd c (List.mem_append_left _ hc)) hlast
  · refine ⟨t, ?_, rfl, ht.symm⟩
    rintro rfl
    rw [List.append_nil] at hlast
    exact hlast hd

theorem cut_octet {d rest s₁ s₂ : List Char} (hne : d ≠ []) (hd : ∀ c ∈ d, c.isDigit = true)
    (h : s₁ ++ s₂ = d ++ '.' :: rest) (hs : s₁ ≠ []) (hword : Ends isWord (s₁.reverse ++ b))
    (hdot : ¬Continues '.' (s₁.reverse ++ b)) :
    ∃ s, s ≠ [] ∧ s₁ = d ++ '.' :: s ∧ s ++ s₂ = rest := by
  obtain ⟨t, ht, rfl, htail⟩ := cut_digits hd h hs hword
  obtain ⟨x, s, rfl⟩ := List.exists_cons_of_ne_nil ht
  obtain ⟨rfl, hrest⟩ := List.cons.inj htail
  refine ⟨s, ?_, rfl, hrest⟩
  rintro rfl
  obtain ⟨l, x, rfl⟩ := List.eq_nil_or_concat d |>.resolve_left hne
  exact hdot ⟨x, l.reverse ++ b, by simp, hd x (by simp)⟩

theorem cut_quad (q : Quad) {rest s s' : List Char} (h : s ++ s' = q.text ++ rest) (hs : s ≠ [])
    (hword : Ends isWord (s.reverse ++ b)) (hdot : ¬Continues '.' (s.reverse ++ b)) :
    ∃ s₀, s₀ ≠ [] ∧ s = q.text ++ s₀ ∧ s₀ ++ s' = rest := by
  have hback : ∀ (b d s : List Char), (d ++ '.' :: s).reverse ++ b =
      s.reverse ++ ('.' :: (d.reverse ++ b)) := by simp
  have h₃ := q.isDigit q.d₃ (by simp)
  have h₂ := q.isDigit q.d₂ (by simp)
  have h₁ := q.isDigit q.d₁ (by simp)
  have h₀ := q.isDigit q.d₀ (by simp)
  rw [q.text_append] at h
  obtain ⟨s₃, hs₃, rfl, t₃⟩ := cut_octet h₃.1 h₃.2 h hs hword hdot
  rw [hback] at hword hdot
  obtain ⟨s₂, hs₂, rfl, t₂⟩ := cut_octet h₂.1 h₂.2 t₃ hs₃ hword hdot
  rw [hback] at hword hdot
  obtain ⟨s₁, hs₁, rfl, t₁⟩ := cut_octet h₁.1 h₁.2 t₂ hs₂ hword hdot
  rw [hback] at hword
  obtain ⟨s₀, hs₀, rfl, t₀⟩ := cut_digits h₀.2 t₁ hs₁ hword
  exact ⟨s₀, hs₀, by simp [Quad.text], t₀⟩

theorem not_matchAt_inside_network (hclean : Everywhere CleanAt b after) {m : Match}
    (h : ipPrefixRegex.matchAt b after = some m) {s₁ s₂ : List Char} (hwhole : m.whole = s₁ ++ s₂)
    (hs₁ : s₁ ≠ []) :
    ipPrefixRegex.matchAt (s₁.reverse ++ b) (s₂ ++ m.suffix) = none := by
  refine Option.eq_none_iff_forall_ne_some.mpr fun m' hm' => ?_
  have hafter : after = s₁ ++ (s₂ ++ m.suffix) := by
    rw [← List.append_assoc, ← hwhole, ← matchAt_append h]
  obtain ⟨-, -, -, q, d, hq, hd, halone⟩ := hclean.here.network h
  obtain ⟨-, -, -, q', d', hq', -, halone'⟩ := (hclean s₁ _ hafter).network hm'
  obtain ⟨s, hs, rfl, hcut⟩ := cut_quad q (hwhole.symm.trans hq) hs₁ halone'.wordBefore
    halone'.dotBefore
  obtain ⟨x, s, rfl⟩ := List.exists_cons_of_ne_nil hs
  obtain ⟨rfl, hd'⟩ := List.cons.inj hcut
  by_cases hnil : s = []
  · -- the digits behind the slash would start the other address
    subst hnil
    have hend := matchAt_append hm'
    have htail : s₂ = d := hd'
    rw [htail, hq', List.append_assoc, q'.text_append] at hend
    obtain ⟨-, hdot⟩ := digits_inj hd (q'.isDigit q'.d₃ (by simp)).2
      (ends_isDigit_of_isWord halone.wordAfter) (ends_cons.mpr rfl) hend
    obtain ⟨y, l, hl⟩ := List.exists_cons_of_ne_nil (q'.isDigit q'.d₂ (by simp)).1
    rw [hl] at hdot
    exact halone.dotAfter ⟨y, _, hdot, (q'.isDigit q'.d₂ (by simp)).2 y (by simp [hl])⟩
  · have hword : Ends isWord (s.reverse ++ '/' :: (q.text.reverse ++ b)) := by
      simpa using halone'.wordBefore
    obtain ⟨t, ht, -, hrest⟩ : ∃ t, t ≠ [] ∧ s = d ++ t ∧ t ++ s₂ = [] :=
      cut_digits hd (by simpa using hd') hnil hword
    exact ht (List.append_eq_nil_iff.mp hrest).1

theorem not_matchAt_inside_addr (hclean : Everywhere CleanAt b after) {m : Match}
    (h : ipAddrRegex.matchAt b after = some m) {s₁ s₂ : List Char} (hwhole : m.whole = s₁ ++ s₂)
    (hs₁ : s₁ ≠ []) (hs₂ : s₂ ≠ []) :
    ipAddrRegex.matchAt (s₁.reverse ++ b) (s₂ ++ m.suffix) = none := by
  refine Option.eq_none_iff_forall_ne_some.mpr fun m' hm' => ?_
  have hafter : after = s₁ ++ (s₂ ++ m.suffix) := by
    rw [← List.append_assoc, ← hwhole, ← matchAt_append h]
  obtain ⟨-, -, -, q, post, -, -, rfl⟩ := hclean.here.address h
  obtain ⟨-, -, -, q', post', -, halone', -⟩ := (hclean s₁ _ hafter).address hm'
  obtain ⟨s, hs, -, hcut⟩ := cut_quad q hwhole.symm hs₁ halone'.wordBefore halone'.dotBefore
  have hlen := congrArg List.length hcut
  rw [List.length_append, List.length_take] at hlen
  have := List.length_pos_iff.mpr hs
  have := List.length_pos_iff.mpr hs₂
  omega

theorem restarts_addr (hclean : CleanAt b after) {m : Match}
    (h : ipAddrRegex.matchAt b after = some m) :
    ipAddrRegex.Restarts (m.whole.reverse ++ b) m.suffix := by
  obtain ⟨-, -, -, q, post, -, halone, rfl⟩ := hclean.address h
  cases post with
  | nil =>
    refine .inr fun before => Option.eq_none_iff_forall_ne_some.mpr fun m' hm' => ?_
    obtain ⟨q', post', heq, -⟩ := exists_of_matchAt_addr hm'
    exact q'.not_ends post' (heq ▸ ends_nil isWord)
  | cons x post =>
    refine .inl ?_
    simpa using ends_cons.mp halone.wordAfter

/-! ### The loops -/

theorem searchAll_eq_foldlM {emplace : Match → MinedEcs → Except (List Char) MinedEcs}
    {ms : List Match} {fuel : Nat} (hms : Matches r [] after ms) (hfuel : ms.length < fuel)
    (mb : MinedEcs) :
    searchAll r emplace fuel after mb = some (ms.foldlM (fun mb m => emplace m mb) mb) := by
  induction fuel generalizing after ms mb with
  | zero => omega
  | succ fuel ih =>
    cases hms with
    | nil hnone =>
      rw [searchAll, Pattern.search, hnone]
      rfl
    | cons hsome hrest =>
      rename_i m ms
      rw [searchAll, Pattern.search, hsome, List.foldlM_cons]
      dsimp only
      cases emplace m mb with
      | error e => rfl
      | ok mb => exact ih hrest (Nat.lt_of_succ_lt_succ hfuel) mb

structure Inserts {α : Type} [DecidableEq α]
    (emplace : Match → MinedEcs → Except (List Char) MinedEcs)
    (value : Match → Except (List Char) α) (get : MinedEcs → Finset α)
    (set : Finset α → MinedEcs → MinedEcs) : Prop where
  emplace_eq : ∀ m mb, emplace m mb = (value m).map fun v => set (insert v (get mb)) mb
  get_set : ∀ s mb, get (set s mb) = s
  set_set : ∀ s t mb, set s (set t mb) = set s mb
  set_get : ∀ mb, set (get mb) mb = mb

theorem Inserts.searchAll {α : Type} [DecidableEq α] {value : Match → Except (List Char) α}
    {emplace : Match → MinedEcs → Except (List Char) MinedEcs}
    {get : MinedEcs → Finset α} {set : Finset α → MinedEcs → MinedEcs}
    (h : Inserts emplace value get set) {ms : List Match} {fuel : Nat}
    (hms : Matches r [] after ms) (hvalue : ∀ m ∈ ms, ∃ v, value m = .ok v)
    (hfuel : ms.length < fuel) (mb : MinedEcs) :
    ∃ s, searchAll r emplace fuel after mb = some (.ok (set s mb)) ∧
      ∀ v, v ∈ s ↔ v ∈ get mb ∨ ∃ m ∈ ms, value m = .ok v := by
  rw [searchAll_eq_foldlM hms hfuel]
  clear hms hfuel
  induction ms generalizing mb with
  | nil =>
    refine ⟨get mb, ?_, by simp⟩
    rw [h.set_get]
    rfl
  | cons m ms ih =>
    obtain ⟨v, hv⟩ := hvalue m (List.mem_cons_self ..)
    obtain ⟨s, hs, hmem⟩ := ih (fun m hm => hvalue m (List.mem_cons_of_mem _ hm))
      (set (insert v (get mb)) mb)
    refine ⟨s, ?_, fun w => ?_⟩
    · rw [List.foldlM_cons, h.emplace_eq, hv, ← h.set_set s (insert v (get mb)), ← hs]
      rfl
    · rw [hmem, h.get_set, Finset.mem_insert]
      simp only [List.mem_cons, exists_eq_or_imp, hv, Except.ok.injEq]
      tauto

theorem inserts_network : Inserts emplacePrefix (fun m => IPNetwork.parse m.whole)
    MinedEcs.ecIpPrefixes fun s mb => { mb with ecIpPrefixes := s } where
  emplace_eq m mb := by
    rw [emplacePrefix]
    cases IPNetwork.parse m.whole <;> rfl
  get_set _ _ := rfl
  set_set _ _ _ := rfl
  set_get _ := rfl

theorem inserts_addr : Inserts emplaceAddr (fun m => IPv4Address.parse m.group)
    MinedEcs.ecIpAddrs fun s mb => { mb with ecIpAddrs := s } where
  emplace_eq m mb := by
    rw [emplaceAddr]
    cases IPv4Address.parse m.group <;> rfl
  get_set _ _ := rfl
  set_set _ _ _ := rfl
  set_get _ := rfl

theorem inserts_port : Inserts insertPort portOf MinedEcs.ecPorts fun s mb =>
    { mb with ecPorts := s } where
  emplace_eq m mb := by
    rw [insertPort, portOf]
    cases stoul m.group <;> rfl
  get_set _ _ := rfl
  set_set _ _ _ := rfl
  set_get _ := rfl

theorem searchAll_ne_none {emplace : Match → MinedEcs → Except (List Char) MinedEcs} {fuel : Nat}
    (hwidth : 0 < r.width) (hfuel : after.length < fuel) (mb : MinedEcs) :
    searchAll r emplace fuel after mb ≠ none := by
  induction fuel generalizing after mb with
  | zero => omega
  | succ fuel ih =>
    rw [searchAll]
    cases hsearch : r.search after with
    | none => exact Option.some_ne_none _
    | some m =>
      dsimp only
      cases emplace m mb with
      | error e => exact Option.some_ne_none _
      | ok mb =>
        have := searchFrom_width hsearch
        exact ih (by omega) mb

theorem parseConfigString_ne_none (config : List Char) (mb : MinedEcs) :
    parseConfigString (config.length + 1) mb config ≠ none := by
  have hlt := Nat.lt_succ_self config.length
  have hloop : ∀ {r : Pattern} (emplace : Match → MinedEcs → Except (List Char) MinedEcs) mb,
      0 < r.width → ∃ res, searchAll r emplace (config.length + 1) config mb = some res :=
    fun emplace mb hwidth => Option.ne_none_iff_exists'.mp (searchAll_ne_none hwidth hlt mb)
  obtain ⟨res₁, h₁⟩ := hloop emplacePrefix mb (show 0 < ipPrefixRegex.width by decide)
  rw [parseConfigString, h₁, Option.bind_eq_bind, Option.bind_some]
  cases res₁ with
  | error e => exact Option.some_ne_none _
  | ok mb₁ =>
    obtain ⟨res₂, h₂⟩ := hloop emplaceAddr mb₁ (show 0 < ipAddrRegex.width by decide)
    dsimp only
    rw [h₂, Option.bind_some]
    cases res₂ with
    | error e => exact Option.some_ne_none _
    | ok mb₂ => exact searchAll_ne_none (show 0 < portRegex.width by decide) hlt mb₂

theorem exists_networks (hclean : Clean after) :
    ∃ ms, Matches ipPrefixRegex [] after ms ∧ ms.length ≤ after.length ∧
      (∀ m ∈ ms, ∃ n, IPNetwork.parse m.whole = .ok n) ∧
      ∀ n, (∃ m ∈ ms, IPNetwork.parse m.whole = .ok n) ↔ Somewhere (NetworkAt n) [] after := by
  have hresumes : ipPrefixRegex.Resumes [] after := by
    intro pre rest heq m hm
    obtain ⟨-, -, -, q, d, hwhole, -, halone⟩ := (hclean pre rest heq).network hm
    refine ⟨?_, .inr fun b => not_matchAt_network halone.wordAfter b⟩
    rw [hwhole]
    simp
  obtain ⟨ms, hms, hlen, hsound, hcomplete⟩ := exists_matches hresumes
  refine ⟨ms, hms, hlen, fun m hm => ?_, fun n => ⟨?_, ?_⟩⟩
  · obtain ⟨pre, rest, heq, hmatch⟩ := hsound m hm
    obtain ⟨n, hn, -⟩ := (hclean pre rest heq).network hmatch
    exact ⟨n, hn⟩
  · rintro ⟨m, hm, hparse⟩
    obtain ⟨pre, rest, heq, hmatch⟩ := hsound m hm
    obtain ⟨n', hn', hat, -⟩ := (hclean pre rest heq).network hmatch
    obtain rfl := Except.ok.inj (hn'.symm.trans hparse)
    exact ⟨pre, rest, heq, hat⟩
  · rintro ⟨pre, rest, heq, hat⟩
    obtain ⟨m, hm, hparse⟩ := hat.matchAt
    refine ⟨m, hcomplete ?_ m ⟨pre, rest, heq, hm⟩, hparse⟩
    intro pre' rest' heq' m' hm' s₁ s₂ hwhole hs₁ hs₂
    have hthere : Everywhere CleanAt (pre'.reverse ++ []) rest' :=
      Everywhere.behind (s := pre') (heq' ▸ hclean)
    exact not_matchAt_inside_network hthere hm' hwhole hs₁

theorem exists_addrs (hclean : Clean after) :
    ∃ ms, Matches ipAddrRegex [] after ms ∧ ms.length ≤ after.length ∧
      (∀ m ∈ ms, ∃ a, IPv4Address.parse m.group = .ok a) ∧
      ∀ a, (∃ m ∈ ms, IPv4Address.parse m.group = .ok a) ↔ Somewhere (AddressAt a) [] after := by
  have hresumes : ipAddrRegex.Resumes [] after := by
    intro pre rest heq m hm
    refine ⟨?_, restarts_addr (hclean pre rest heq) hm⟩
    obtain ⟨-, -, -, q, post, -, -, rfl⟩ := (hclean pre rest heq).address hm
    simp [Quad.text]
  obtain ⟨ms, hms, hlen, hsound, hcomplete⟩ := exists_matches hresumes
  refine ⟨ms, hms, hlen, fun m hm => ?_, fun a => ⟨?_, ?_⟩⟩
  · obtain ⟨pre, rest, heq, hmatch⟩ := hsound m hm
    obtain ⟨a, ha, -⟩ := (hclean pre rest heq).address hmatch
    exact ⟨a, ha⟩
  · rintro ⟨m, hm, hparse⟩
    obtain ⟨pre, rest, heq, hmatch⟩ := hsound m hm
    obtain ⟨a', ha', hat, -⟩ := (hclean pre rest heq).address hmatch
    obtain rfl := Except.ok.inj (ha'.symm.trans hparse)
    exact ⟨pre, rest, heq, hat⟩
  · rintro ⟨pre, rest, heq, hat⟩
    obtain ⟨m, hm, hparse⟩ := (hclean pre rest heq).matchAt_address hat
    refine ⟨m, hcomplete ?_ m ⟨pre, rest, heq, hm⟩, hparse⟩
    intro pre' rest' heq' m' hm' s₁ s₂ hwhole hs₁ hs₂
    have hthere : Everywhere CleanAt (pre'.reverse ++ []) rest' :=
      Everywhere.behind (s := pre') (heq' ▸ hclean)
    exact not_matchAt_inside_addr hthere hm' hwhole hs₁ hs₂

theorem exists_ports (hclean : Clean after) :
    ∃ ms, Matches portRegex [] after ms ∧ ms.length ≤ after.length ∧
      ∀ m ∈ ms, ∃ p, portOf m = .ok p ∧ Somewhere (PortAt p) [] after := by
  have hresumes : portRegex.Resumes [] after := by
    intro pre rest heq m hm
    obtain ⟨-, -, -, hne, hsuffix⟩ := (hclean pre rest heq).port_found hm
    exact ⟨hne, .inr fun b => not_matchAt_port hsuffix b⟩
  obtain ⟨ms, hms, hlen, hsound, -⟩ := exists_matches hresumes
  refine ⟨ms, hms, hlen, fun m hm => ?_⟩
  obtain ⟨pre, rest, heq, hmatch⟩ := hsound m hm
  obtain ⟨p, hp, hat, -⟩ := (hclean pre rest heq).port_found hmatch
  exact ⟨p, hp, pre, rest, heq, hat⟩

/-- A text in which every look-alike is what it looks like is read to its end, and its networks,
addresses and ports are found. -/
theorem mines_of_clean (config : List Char) (h : Clean config) : Mines config := by
  intro mb
  obtain ⟨ms₁, hms₁, hlen₁, hvalue₁, hfound₁⟩ := exists_networks h
  obtain ⟨ms₂, hms₂, hlen₂, hvalue₂, hfound₂⟩ := exists_addrs h
  obtain ⟨ms₃, hms₃, hlen₃, hfound₃⟩ := exists_ports h
  obtain ⟨nets, hloop₁, hnets⟩ := inserts_network.searchAll hms₁ hvalue₁
    (Nat.lt_succ_of_le hlen₁) mb
  obtain ⟨addrs, hloop₂, haddrs⟩ := inserts_addr.searchAll hms₂ hvalue₂
    (Nat.lt_succ_of_le hlen₂) { mb with ecIpPrefixes := nets }
  obtain ⟨ports, hloop₃, hports⟩ := inserts_port.searchAll hms₃
    (fun m hm => (hfound₃ m hm).imp fun _ => And.left) (Nat.lt_succ_of_le hlen₃)
    { mb with ecIpPrefixes := nets, ecIpAddrs := addrs }
  refine ⟨{ ecIpPrefixes := nets, ecIpAddrs := addrs, ecPorts := ports }, ?_, fun n => ?_,
    fun a => ?_, fun p hp => (hports p).mpr (.inl hp), fun p hp => ?_⟩
  · rw [parseConfigString, hloop₁, Option.bind_eq_bind, Option.bind_some]
    dsimp only
    rw [hloop₂, Option.bind_some]
    exact hloop₃
  · exact (hnets n).trans (or_congr_right (hfound₁ n))
  · exact (haddrs a).trans (or_congr_right (hfound₂ a))
  · refine ((hports p).mp hp).imp_right ?_
    rintro ⟨m, hm, hvalue⟩
    obtain ⟨p', hp', hat⟩ := hfound₃ m hm
    obtain rfl := Except.ok.inj (hp'.symm.trans hvalue)
    exact hat

/-! ### A text that is read right, and one that is not -/

theorem Quad.ends_ne_nil (q : Quad) {post : List Char} (hpost : Ends Char.isDigit post) :
    quad.ends ⟨b, q.text ++ post, g⟩ ≠ [] := by
  have hpos := List.length_pos_iff.mpr (q.isDigit q.d₀ (by simp)).1
  obtain ⟨l, hl, -⟩ := downFrom_cons (show 1 ≤ min q.d₀.length 3 by omega)
  rw [ends_quad q hpost, hl]
  exact List.cons_ne_nil _ _

theorem cleanAt_of_none {before : List Char}
    (hquad : ¬Ends isWord before ∨ quad.ends ⟨[], after, []⟩ = [])
    (hport : ¬"port".toList <+: after) : CleanAt before after := by
  have hnone : ∀ (q : Quad) (post : List Char), after = q.text ++ post → Ends Char.isDigit post →
      ¬Ends isWord before := by
    rintro q post rfl hpost
    exact hquad.resolve_right (q.ends_ne_nil hpost)
  constructor
  · exact fun q post hafter hpost hbefore => absurd hbefore (hnone q post hafter hpost)
  · rintro lead d post rfl (⟨blanks, -, -, rfl⟩ | ⟨hbefore, q, a, -, rfl⟩) _ _ _
    · rw [List.append_assoc] at hport
      exact absurd (List.prefix_append _ _) hport
    · refine absurd hbefore (hnone q (':' :: (d ++ post)) ?_ (ends_cons.mpr rfl))
      simp

def gatewayQuad : Quad where
  d₃ := ['1', '0']
  d₂ := ['0']
  d₁ := ['0']
  d₀ := ['1']
  isDigit := by simp
  short := by simp

theorem denotes_gatewayQuad : gatewayQuad.Denotes 0x0a000001#32 := by
  refine ⟨by decide, _, _, _, _, 10, 0, 0, 1, rfl, ?_, ?_, ?_, ?_, by decide⟩ <;>
    exact ⟨by decide, by simp [gatewayQuad], by decide, by decide⟩

theorem clean_gateway : Clean "10.0.0.1:80".toList := by
  have hrest : Everywhere CleanAt ['1'] "0.0.0.1:80".toList := by
    simp only [String.reduceToList, everywhere_cons, everywhere_nil]
    refine ⟨?_, ?_, ?_, ?_, ?_, ?_, ?_, ?_, ?_, ?_, ?_⟩ <;>
      exact cleanAt_of_none (by decide) (by decide)
  refine everywhere_cons.mpr ⟨⟨?_, ?_⟩, hrest⟩
  · intro q post hafter hpost hbefore
    have happend : gatewayQuad.text ++ ":80".toList = q.text ++ post := hafter
    obtain ⟨rfl, rfl⟩ := Quad.append_inj (by decide) hpost happend
    exact .address _ denotes_gatewayQuad
      ⟨hbefore, by decide, by simp [Continues], by simp [Continues]⟩ (by decide)
  · rintro lead d post hafter (⟨blanks, -, -, rfl⟩ | ⟨-, q, a, -, rfl⟩) hne hd hpost
    · exact absurd (List.cons.inj hafter).1 (by decide)
    · have happend : gatewayQuad.text ++ ":80".toList = q.text ++ ':' :: (d ++ post) :=
        hafter.trans (List.append_assoc ..)
      obtain ⟨rfl, htail⟩ := Quad.append_inj (by decide) (ends_cons.mpr rfl) happend
      have hdigits : "80".toList ++ [] = d ++ post := (List.cons.inj htail).2
      obtain ⟨rfl, rfl⟩ := digits_inj (by simp) hd (ends_nil _) (ends_isDigit_of_isWord hpost)
        hdigits
      exact ⟨by simp [Continues], 80#16, ⟨by decide, hd, by decide, by decide⟩, by decide⟩

theorem mines_gateway : Clean "10.0.0.1:80".toList ∧ Mines "10.0.0.1:80".toList :=
  ⟨clean_gateway, mines_of_clean _ clean_gateway⟩

theorem parseConfigString_interface :
    parseConfigString 12 ⟨∅, ∅, ∅⟩ "10.0.0.1/24".toList =
      some (.error "Invalid network: 10.0.0.1/24".toList) := by
  rfl

theorem not_mines : ¬Mines "10.0.0.1/24".toList := by
  intro h
  obtain ⟨mb', hread, -⟩ := h ⟨∅, ∅, ∅⟩
  have := hread.symm.trans parseConfigString_interface
  simp at this

end ConfigParser

end Neo
