import BlockLens.Proofs.Markup

set_option autoImplicit false

namespace BlockLens

open Text

namespace Text

theorem takeWhile_append_of_dropWhile {p : Char → Bool} {s : List Char} (h : s.dropWhile p ≠ [])
    (w : List Char) :
    (s ++ w).takeWhile p = s.takeWhile p ∧ (s ++ w).dropWhile p = s.dropWhile p ++ w := by
  have hlen : (s.takeWhile p).length ≠ s.length := by
    intro he
    have hcat := congrArg List.length (List.takeWhile_append_dropWhile (p := p) (l := s))
    rw [List.length_append] at hcat
    exact h (List.length_eq_zero_iff.1 (by omega))
  constructor
  · rw [List.takeWhile_append, if_neg hlen]
  · rw [List.dropWhile_append, if_neg (by simpa using h)]

theorem cut?_extend {w s b r : List Char} (h : cut? w s = some (b, r)) (u : List Char) :
    cut? w (s ++ u) = some (b, r ++ u) := by
  obtain ⟨hs, hmin⟩ := cut?_eq_some_iff.1 h
  refine cut?_eq_some_iff.2 ⟨by simp [hs], fun b' r' he => ?_⟩
  rcases Nat.lt_or_ge b'.length b.length with hlt | hge
  · -- a copy that begins earlier lies in the shorter text as well
    have hle : (b' ++ w).length ≤ s.length := by
      simp only [hs, List.length_append]
      omega
    obtain ⟨q, hq⟩ := List.prefix_of_prefix_length_le ⟨r', he.symm⟩ (List.prefix_append s u) hle
    exact hmin b' q hq.symm
  · exact hge

theorem contains_of_part {w s v : List Char} (hv : v <+: s) (h : contains w s = false) :
    contains w v = false := by
  obtain ⟨u, rfl⟩ := hv
  refine Bool.eq_false_iff.2 fun hw => ?_
  obtain ⟨b, r, rfl⟩ := contains_eq_true.1 hw
  rw [contains_eq_true.2 ⟨b, r ++ u, by simp⟩] at h
  contradiction

end Text

namespace Tag

def Item.append (w : List Char) : Item → Item
  | .close b r => .close b (r ++ w)
  | .stray r => .stray (r ++ w)
  | .bare k r => .bare k (r ++ w)
  | .valued k v r => .valued k v (r ++ w)
  | .broken => .broken

theorem value?_append {s v r : List Char} (h : value? s = some (v, r)) (hr : r ≠ [])
    (w : List Char) : value? (s ++ w) = some (v, r ++ w) := by
  cases s with
  | nil => simp_all [value?]
  | cons c s =>
    simp only [value?, List.cons_append] at h ⊢
    split at h
    · next hq => rw [if_pos hq, cut?_extend h w]
    · next hq =>
      simp only [Option.some.injEq, Prod.mk.injEq] at h
      obtain ⟨rfl, rfl⟩ := h
      obtain ⟨htake, hdrop⟩ := takeWhile_append_of_dropWhile hr w
      rw [List.cons_append] at htake hdrop
      rw [if_neg hq, htake, hdrop]

theorem keyed_append {key s : List Char} (h : (keyed key s).rest.dropWhile isBlank ≠ [])
    (w : List Char) : keyed key (s ++ w) = (keyed key s).append w := by
  by_cases he : ∃ t, s.dropWhile isBlank = '=' :: t
  · obtain ⟨t, ht⟩ := he
    have hw := (takeWhile_append_of_dropWhile (p := isBlank) (s := s) (by simp [ht]) w).2
    rw [ht, List.cons_append] at hw
    simp only [keyed, ht] at h
    simp only [keyed, ht, hw]
    cases hv : value? (t.dropWhile isBlank) with
    | none => simp [hv, Item.rest] at h
    | some p =>
      obtain ⟨v, r⟩ := p
      simp only [hv, Item.rest] at h
      have hr : r ≠ [] := by
        rintro rfl
        exact h rfl
      have hd : t.dropWhile isBlank ≠ [] := by
        intro hd
        rw [hd] at hv
        simp only [value?, Option.some.injEq, Prod.mk.injEq] at hv
        exact hr hv.2.symm
      rw [(takeWhile_append_of_dropWhile hd w).2, value?_append hv hr]
      rfl
  · have he' : ∀ t, s.dropWhile isBlank ≠ '=' :: t := fun t ht => he ⟨t, ht⟩
    rw [keyed_bare he'] at h ⊢
    have hd : s.dropWhile isBlank ≠ [] := h
    refine keyed_bare fun t ht => ?_
    rw [(takeWhile_append_of_dropWhile hd w).2] at ht
    obtain ⟨c, u, hu⟩ := List.exists_cons_of_ne_nil hd
    rw [hu, List.cons_append, List.cons.injEq] at ht
    exact he' u (by rw [hu, ht.1])

theorem item_append {s : List Char}
    (h : (∃ b r, item s = .close b r) ∨ (item s).rest.dropWhile isBlank ≠ []) (w : List Char) :
    item (s ++ w) = (item s).append w := by
  cases s with
  | nil =>
    rcases h with ⟨b, r, hb⟩ | h
    · exact nomatch (show Item.broken = .close b r from hb)
    · exact absurd rfl h
  | cons c s =>
    by_cases hgt : c = '>'
    · subst hgt
      rfl
    · by_cases hslash : c = '/' ∧ s.head? = some '>'
      · obtain ⟨rfl, hhead⟩ := hslash
        obtain ⟨r, rfl⟩ := List.head?_eq_some_iff.1 hhead
        rfl
      · have hitem := item_other hgt fun hc hs => hslash ⟨hc, hs⟩
        rw [hitem] at h ⊢
        cases hk : isKeyChar c with
        | false =>
          simp only [hk, Bool.false_eq_true, if_false, reduceCtorEq, exists_false, false_or,
            Item.rest] at h
          have hs : s ≠ [] := by
            rintro rfl
            exact h rfl
          obtain ⟨d, t, rfl⟩ := List.exists_cons_of_ne_nil hs
          have hw := item_other (s := d :: t ++ w) hgt fun hc hs => hslash ⟨hc, hs⟩
          rw [List.cons_append, hw, hk]
          rfl
        | true =>
          rw [if_pos hk] at h
          have hrest : (keyed ((c :: s).takeWhile isKeyChar)
              ((c :: s).dropWhile isKeyChar)).rest.dropWhile isBlank ≠ [] := by
            rcases h with ⟨b, r, hb⟩ | h
            · unfold keyed at hb
              split at hb
              · split at hb <;> simp at hb
              · simp at hb
            · exact h
          have hdrop : (c :: s).dropWhile isKeyChar ≠ [] := by
            intro hd
            rw [hd] at hrest
            exact hrest rfl
          have hslash' : c ≠ '/' := by
            rintro rfl
            contradiction
          obtain ⟨h₁, h₂⟩ := takeWhile_append_of_dropWhile hdrop w
          rw [List.cons_append] at h₁ h₂ ⊢
          rw [item_other hgt (absurd · hslash'), hk, if_pos rfl, if_pos rfl, h₁, h₂,
            keyed_append hrest]

theorem dropWhile_of_rest? {acc : Attributes} {s : List Char} {p : Attributes × Bool × List Char}
    (h : rest? acc s = some p) : s.dropWhile isBlank ≠ [] := by
  intro hs
  rw [rest?_eq acc hs] at h
  contradiction

theorem rest?_append {acc a : Attributes} {b : Bool} {s r : List Char}
    (h : rest? acc s = some (a, b, r)) (w : List Char) :
    rest? acc (s ++ w) = some (a, b, r ++ w) := by
  have hskip := (takeWhile_append_of_dropWhile (dropWhile_of_rest? h) w).2
  fun_induction rest? acc s with
  | case1 => contradiction
  | case2 => contradiction
  | case3 acc s c t hs b' r' hi =>
    rw [hs] at hskip
    rw [rest?_eq acc hskip, item_append (.inl ⟨b', r', hi⟩) w, hi]
    simp only [Option.some.injEq, Prod.mk.injEq] at h
    obtain ⟨rfl, rfl, rfl⟩ := h
    rfl
  | case4 acc s c t hs r' hi ih | case5 acc s c t hs k r' hi ih | case6 acc s c t hs k v r' hi ih =>
    have hr := dropWhile_of_rest? h
    rw [hs] at hskip
    rw [rest?_eq acc hskip, item_append (.inr (by rw [hi]; exact hr)) w, hi]
    exact ih h (takeWhile_append_of_dropWhile hr w).2

/-- What is read as a tag is read so in front of any text. -/
theorem read?_append {s r : List Char} {t : Tag} (h : read? s = some (t, r)) (w : List Char) :
    read? (s ++ w) = some (t, r ++ w) := by
  unfold read? at h
  split at h
  · next c s =>
    split at h
    · next hc =>
      simp only [Option.map_eq_some_iff, Prod.mk.injEq] at h
      obtain ⟨⟨a, b, r'⟩, hr, rfl, rfl⟩ := h
      have hd : (c :: s).dropWhile isNameChar ≠ [] := by
        intro hd
        rw [hd] at hr
        exact dropWhile_of_rest? hr rfl
      obtain ⟨htake, hdrop⟩ := takeWhile_append_of_dropWhile hd w
      rw [List.cons_append] at htake hdrop
      simp only [List.cons_append, read?, hc, if_true, htake, hdrop, rest?_append hr w,
        Option.map_some]
    · contradiction
  · contradiction

/-- No tag breaks off and is one already. -/
theorem read?_eq_none_of_part {s v : List Char} {t : Tag} (h : read? s = some (t, []))
    (hv : v <+: s) (hlt : v.length < s.length) : read? v = none := by
  cases hr : read? v with
  | none => rfl
  | some p =>
    obtain ⟨u, rfl⟩ := hv
    rw [read?_append hr u, Option.some.injEq, Prod.mk.injEq, List.append_eq_nil_iff] at h
    simp [h.2.2] at hlt

theorem isNameChar_toLower (c : Char) : isNameChar c.toLower = isNameChar c := by
  rcases toLower_cases c with h | ⟨-, hu, hl⟩
  · rw [h]
  · simp only [isNameChar, isAlphanum_of_isUpper hu, isAlphanum_of_isLower hl, Bool.true_or]

theorem isNameStart_toLower (c : Char) : isNameStart c.toLower = isNameStart c := by
  rcases toLower_cases c with h | ⟨-, hu, hl⟩
  · rw [h]
  · delta isNameStart Char.isAlpha
    simp only [hu, hl, Bool.or_true, Bool.true_or]

theorem not_mem_name_of_read? {s r : List Char} {g : Tag} (h : read? s = some (g, r)) {x : Char}
    (hx : isNameChar x = false) : x ∉ g.name.toList := by
  unfold read? at h
  split at h
  · next c s =>
    split at h
    · simp only [Option.map_eq_some_iff, Prod.mk.injEq] at h
      obtain ⟨-, -, rfl, -⟩ := h
      rw [String.toList_ofList, List.mem_map]
      rintro ⟨d, hd, rfl⟩
      have hname : isNameChar d = true := List.all_eq_true.1 List.all_takeWhile d hd
      rw [isNameChar_toLower, hname] at hx
      contradiction
    · contradiction
  · contradiction

end Tag

end BlockLens
