import BlockLens.Text.Numeral
import BlockLens.Text.Quoted
import BlockLens.Text.Scan
import Mathlib.Tactic.SplitIfs

set_option autoImplicit false

namespace BlockLens.Text

@[simp] theorem after?_append (w r : List Char) : after? w (w ++ r) = some r :=
  after?_eq_some.2 rfl

theorem after?_eq_none {w s : List Char} : after? w s = none ↔ ∀ r, s ≠ w ++ r := by
  cases h : after? w s with
  | none =>
    refine ⟨fun _ r hr => ?_, fun _ => rfl⟩
    rw [after?_eq_some.2 hr] at h
    contradiction
  | some t =>
    refine ⟨fun h' => by contradiction, fun h' => absurd (after?_eq_some.1 h) (h' t)⟩

/-- A word whose first character does not occur again in it cannot overlap a copy of itself, so
that it is found where it was put. -/
theorem cut?_append {x : Char} {w : List Char} (hx : x ∉ w) {s : List Char}
    (hs : cut? (x :: w) s = none) (r : List Char) :
    cut? (x :: w) (s ++ x :: w ++ r) = some (s, r) := by
  induction s with
  | nil => simp [cut?, after?]
  | cons c s ih =>
    simp only [cut?] at hs
    cases ha : after? (x :: w) (c :: s) with
    | some t => simp [ha] at hs
    | none =>
      simp only [ha, Option.map_eq_none_iff] at hs
      have hn : after? (x :: w) (c :: s ++ x :: w ++ r) = none := by
        refine after?_eq_none.2 fun t ht => ?_
        simp only [List.cons_append, List.cons.injEq, List.append_assoc] at ht
        obtain ⟨rfl, ht⟩ := ht
        rcases List.append_eq_append_iff.1 ht with ⟨u, hw, hu⟩ | ⟨u, hw, -⟩
        · -- the copy would begin inside the word
          cases u with
          | nil => exact after?_eq_none.1 ha [] (by simpa using hw.symm)
          | cons d u =>
            simp only [List.cons_append, List.cons.injEq] at hu
            exact hx (by rw [hw, ← hu.1]; simp)
        · exact after?_eq_none.1 ha u (by simp [hw])
      have hi := ih hs
      simp only [List.cons_append] at hn ⊢
      simp only [cut?, hn]
      simp only [List.append_assoc, List.cons_append] at hi
      simp [hi]

theorem contains_cons_eq_false {w s : List Char} {c : Char} :
    contains w (c :: s) = false ↔ after? w (c :: s) = none ∧ contains w s = false := by
  cases h : after? w (c :: s) <;> simp [contains, cut?, h]

theorem contains_eq_true {w s : List Char} :
    contains w s = true ↔ ∃ b r, s = b ++ w ++ r := by
  constructor
  · intro h
    obtain ⟨⟨b, r⟩, hp⟩ := Option.isSome_iff_exists.1 h
    exact ⟨b, r, eq_of_cut? hp⟩
  · rintro ⟨b, r, rfl⟩
    induction b with
    | nil =>
      rw [List.nil_append, contains]
      cases hs : w ++ r with
      | nil => rw [cut?, ← hs, after?_append]; rfl
      | cons c s => rw [cut?, ← hs, after?_append]; rfl
    | cons c b ih =>
      simp only [contains, List.cons_append, cut?] at ih ⊢
      split
      · rfl
      · simpa using ih

theorem cut?_eq_some_iff {w s b r : List Char} :
    cut? w s = some (b, r) ↔
      s = b ++ w ++ r ∧ ∀ b' r', s = b' ++ w ++ r' → b.length ≤ b'.length := by
  have first : ∀ {s b r : List Char}, cut? w s = some (b, r) →
      ∀ b' r', s = b' ++ w ++ r' → b.length ≤ b'.length := by
    intro s
    induction s with
    | nil =>
      intro b r h b' r' _
      have hb : b = [] := by
        have hs := eq_of_cut? h
        simp_all
      simp [hb]
    | cons c s ih =>
      intro b r h b' r' hs
      simp only [cut?] at h
      split at h
      · simp only [Option.some.injEq, Prod.mk.injEq] at h
        simp [← h.1]
      · next hn =>
        obtain ⟨⟨b₁, r₁⟩, hp, h⟩ := Option.map_eq_some_iff.1 h
        simp only [Prod.mk.injEq] at h
        cases b' with
        | nil => exact absurd hs (by simpa using after?_eq_none.1 hn r')
        | cons c' b' =>
          simp only [List.cons_append, List.cons.injEq] at hs
          rw [← h.1, List.length_cons, List.length_cons]
          exact Nat.succ_le_succ (ih hp b' r' hs.2)
  constructor
  · intro h
    exact ⟨eq_of_cut? h, first h⟩
  · rintro ⟨hs, hmin⟩
    obtain ⟨⟨b₁, r₁⟩, hp⟩ := Option.isSome_iff_exists.1 (contains_eq_true.2 ⟨b, r, hs⟩)
    have hlen : b₁.length = b.length :=
      Nat.le_antisymm (first hp b r hs) (hmin b₁ r₁ (eq_of_cut? hp))
    have heq : b₁ ++ (w ++ r₁) = b ++ (w ++ r) := by
      rw [← List.append_assoc, ← List.append_assoc, ← hs, eq_of_cut? hp]
    obtain ⟨rfl, htail⟩ := List.append_inj heq hlen
    rw [hp, List.append_cancel_left htail]

theorem pieces_ne_nil (p : Char → Bool) (s : List Char) : pieces p s ≠ [] := by
  cases s with
  | nil => simp [pieces]
  | cons c s =>
    simp only [pieces]
    split
    · simp
    · split <;> simp

theorem pieces_of_none {p : Char → Bool} {s : List Char} (h : ∀ c ∈ s, p c = false) :
    pieces p s = [s] := by
  induction s with
  | nil => rfl
  | cons c s ih =>
    have hc := h c (by simp)
    have hs := ih fun d hd => h d (by simp [hd])
    simp [pieces, hc, hs]

theorem pieces_append_cons {p : Char → Bool} {s : List Char} (h : ∀ c ∈ s, p c = false)
    {x : Char} (hx : p x = true) (t : List Char) : pieces p (s ++ x :: t) = s :: pieces p t := by
  induction s with
  | nil => simp [pieces, hx]
  | cons c s ih =>
    have hc := h c (by simp)
    have hs := ih fun d hd => h d (by simp [hd])
    simp [pieces, hc, hs]

def joined (x : Char) (s : List Char) (r : List (List Char)) : List Char :=
  s ++ r.flatMap (x :: ·)

theorem intercalate_cons (x : Char) (s : List Char) (r : List (List Char)) :
    [x].intercalate (s :: r) = joined x s r := by
  induction r generalizing s with
  | nil => simp [joined]
  | cons t r ih =>
    rw [List.intercalate_cons_cons, ih]
    simp [joined]

theorem pieces_joined {x : Char} {s : List Char} {r : List (List Char)} (hs : x ∉ s)
    (hr : ∀ t ∈ r, x ∉ t) : pieces (· == x) (joined x s r) = s :: r := by
  have free : ∀ t : List Char, x ∉ t → ∀ c ∈ t, (c == x) = false := by
    intro t ht c hc
    simp only [beq_eq_false_iff_ne]
    exact fun e => ht (e ▸ hc)
  induction r generalizing s with
  | nil => simp [joined, pieces_of_none (free s hs)]
  | cons t r ih =>
    have ht := ih (hr t (by simp)) fun u hu => hr u (by simp [hu])
    simp only [joined, List.flatMap_cons, List.cons_append] at ht ⊢
    rw [pieces_append_cons (free s hs) (by simp), ht]

theorem joined_of_pieces {x : Char} {q s : List Char} {r : List (List Char)}
    (h : pieces (· == x) q = s :: r) : q = joined x s r := by
  induction q generalizing s r with
  | nil =>
    simp only [pieces, List.cons.injEq] at h
    obtain ⟨rfl, rfl⟩ := h
    rfl
  | cons c q ih =>
    simp only [pieces] at h
    split at h
    · next hc =>
      obtain ⟨t, u, hp⟩ := List.exists_cons_of_ne_nil (pieces_ne_nil (· == x) q)
      simp only [List.cons.injEq] at h
      obtain ⟨rfl, rfl⟩ := h
      have hx : c = x := by simpa using hc
      have hq := ih hp
      simp only [joined] at hq
      simp [joined, hp, hx, ← hq]
    · split at h
      · next hp => exact absurd hp (pieces_ne_nil _ q)
      · next t u hp =>
        simp only [List.cons.injEq] at h
        obtain ⟨rfl, rfl⟩ := h
        have hq := ih hp
        simp only [joined] at hq
        simp [joined, ← hq]

theorem of_mem_pieces {p : Char → Bool} {s t : List Char} (h : t ∈ pieces p s) :
    ∀ c ∈ t, p c = false := by
  induction s generalizing t with
  | nil => simp_all [pieces]
  | cons a s ih =>
    simp only [pieces] at h
    split at h
    · rcases List.mem_cons.1 h with rfl | h
      · simp
      · exact ih h
    · next ha =>
      obtain ⟨u, us, hu⟩ := List.exists_cons_of_ne_nil (pieces_ne_nil p s)
      rw [hu] at h ih
      intro c hc
      rcases List.mem_cons.1 h with rfl | h
      · rcases List.mem_cons.1 hc with rfl | hc
        · simpa using ha
        · exact ih List.mem_cons_self c hc
      · exact ih (List.mem_cons_of_mem _ h) c hc

theorem lastPiece_append {p : Char → Bool} (s : List Char) {t : List Char} (h : ∀ c ∈ t, p c = false) :
    lastPiece p (s ++ t) = lastPiece p s ++ t := by
  have ht : ∀ c ∈ t.reverse, (!p c) = true := by
    intro c hc
    simp [h c (List.mem_reverse.1 hc)]
  rw [lastPiece, List.reverse_append, List.takeWhile_append_of_pos ht]
  simp [lastPiece]

theorem toList_quote (s : String) :
    (quote s).toList = '"' :: (s.toList.flatMap quoteChar ++ ['"']) := by
  simp [quote]

theorem not_mem_quote (s : String) : '\n' ∉ (quote s).toList := by
  have hdigit : ∀ k < 16, '\n' ≠ Nat.digitChar k := by decide
  have hhex : ∀ n, '\n' ≠ hexDigit n := fun n => hdigit _ (Nat.mod_lt _ (by decide))
  have hchar : ∀ c, '\n' ∉ quoteChar c := by
    intro c
    unfold quoteChar
    split_ifs with h₁ h₂ h₃ h₄ h₅ h₆ h₇ h₈
    case neg => simpa using Ne.symm h₃
    all_goals simp [hhex]
  simp [toList_quote, hchar]

theorem toNat_lt_of_isAlphanum {c : Char} (h : c.isAlphanum = true) : c.toNat < 128 := by
  delta Char.isAlphanum Char.isAlpha Char.isUpper Char.isLower Char.isDigit at h
  simp only [Bool.or_eq_true, Bool.and_eq_true, decide_eq_true_eq, UInt32.le_iff_toNat_le] at h
  have hv : c.toNat = c.val.toNat := rfl
  rcases h with (⟨-, h⟩ | ⟨-, h⟩) | ⟨-, h⟩ <;> simp at h <;> omega

theorem of_toNat_lt {P : Char → Prop} {b : Nat} (h : ∀ n < b, P (Char.ofNat n)) {c : Char}
    (hc : c.toNat < b) : P c :=
  Char.ofNat_toNat c ▸ h c.toNat hc

theorem isAlphanum_of_isUpper {c : Char} (h : c.isUpper = true) : c.isAlphanum = true := by
  delta Char.isAlphanum Char.isAlpha
  simp only [h, Bool.true_or]

theorem isAlphanum_of_isLower {c : Char} (h : c.isLower = true) : c.isAlphanum = true := by
  delta Char.isAlphanum Char.isAlpha
  simp only [h, Bool.or_true, Bool.true_or]

theorem toLower_of_not_isUpper {c : Char} (h : c.isUpper = false) : c.toLower = c :=
  dif_neg (of_decide_eq_false h)

theorem toLower_cases (c : Char) :
    c.toLower = c ∨ c.toNat < 128 ∧ c.isUpper = true ∧ c.toLower.isLower = true := by
  cases hu : c.isUpper with
  | false => exact .inl (toLower_of_not_isUpper hu)
  | true =>
    have hc : c.toNat < 128 := toNat_lt_of_isAlphanum (isAlphanum_of_isUpper hu)
    have hl : c.isUpper = true → c.toLower.isLower = true :=
      of_toNat_lt (P := fun c => c.isUpper = true → c.toLower.isLower = true) (by decide) hc
    exact .inr ⟨hc, rfl, hl hu⟩

theorem digitChar_of_isDigit {c : Char} (h : c.isDigit = true) :
    c.toNat - '0'.toNat < 10 ∧ Nat.digitChar (c.toNat - '0'.toNat) = c := by
  simp only [Char.isDigit, Bool.and_eq_true, decide_eq_true_eq] at h
  have h1 : 48 ≤ c.toNat := h.1
  have h2 : c.toNat ≤ 57 := h.2
  have hn : c.toNat - '0'.toNat < 10 := by
    have : '0'.toNat = 48 := rfl
    omega
  refine ⟨hn, ?_⟩
  apply Char.toNat_inj.1
  rw [Nat.toNat_digitChar_of_lt_ten hn]
  have : '0'.toNat = 48 := rfl
  omega

theorem toDigits_ofDigitChars {s : List Char} (hs : s.all Char.isDigit = true) {n : Nat}
    (hn : 0 < n) : Nat.toDigits 10 (Nat.ofDigitChars 10 s n) = Nat.toDigits 10 n ++ s := by
  induction s generalizing n with
  | nil => simp
  | cons c s ih =>
    simp only [List.all_cons, Bool.and_eq_true] at hs
    obtain ⟨hd, hc⟩ := digitChar_of_isDigit hs.1
    have hstep := Nat.toDigits_append_toDigits (b := 10) (by decide) hn hd
    rw [Nat.ofDigitChars_cons, ih hs.2 (by omega), ← hstep, Nat.toDigits_of_lt_base hd, hc]
    simp

theorem toDigits_injective {m n : Nat} (h : Nat.toDigits 10 m = Nat.toDigits 10 n) : m = n := by
  have hm : Nat.ofDigitChars 10 (Nat.toDigits 10 m) 0 = m := Nat.ofDigitChars_ten_toDigits
  rw [← hm, h, Nat.ofDigitChars_ten_toDigits]

theorem head?_toDigits_ne {n : Nat} (hn : 0 < n) : (Nat.toDigits 10 n).head? ≠ some '0' := by
  induction n using Nat.strongRecOn with
  | ind n ih =>
    by_cases h : n < 10
    · simp only [Nat.toDigits_of_lt_base h, List.head?_cons, ne_eq, Option.some.injEq,
        Nat.digitChar_eq_zero]
      omega
    · have hq := ih (n / 10) (by omega) (by omega)
      rw [Nat.toDigits_of_base_le (by decide) (by omega), List.head?_append]
      cases hh : (Nat.toDigits 10 (n / 10)).head? with
      | none => exact absurd (List.head?_eq_none_iff.1 hh) Nat.toDigits_ne_nil
      | some c => simpa [hh] using hq

theorem canonicalWord?_eq_some {s : List Char} {n : Nat} :
    canonicalWord? s = some n ↔ s = Nat.toDigits 10 n ∧ n < wordLimit := by
  constructor
  · intro h
    unfold canonicalWord? word? at h
    split at h
    · next hc =>
      simp only [Bool.and_eq_true, decide_eq_true_eq] at h
      split at h
      · next hw =>
        obtain ⟨⟨he, hs⟩, hl⟩ := hw
        simp only [Option.some.injEq] at h
        subst h
        refine ⟨?_, hl⟩
        cases s with
        | nil => simp at he
        | cons c s =>
          simp only [List.all_cons, Bool.and_eq_true] at hs
          obtain ⟨hd, hcd⟩ := digitChar_of_isDigit hs.1
          simp only [List.head?_cons, Bool.or_eq_true, decide_eq_true_eq, bne_iff_ne, ne_eq,
            Option.some.injEq] at hc
          rcases hc with hc | hc
          · rw [hc]; rfl
          · have hpos : 0 < c.toNat - '0'.toNat := by
              refine Nat.pos_of_ne_zero fun hz => hc ?_
              rw [← hcd, hz]; rfl
            rw [Nat.ofDigitChars_cons, Nat.mul_zero, Nat.zero_add,
              toDigits_ofDigitChars hs.2 hpos, Nat.toDigits_of_lt_base hd, hcd]
            rfl
      · contradiction
    · contradiction
  · rintro ⟨rfl, hl⟩
    have hd : (Nat.toDigits 10 n).all Char.isDigit = true :=
      List.all_eq_true.2 fun c hc => Nat.isDigit_of_mem_toDigits (by decide) (by decide) hc
    have he : (Nat.toDigits 10 n).isEmpty = false := by simp
    have hc : (Nat.toDigits 10 n = ['0'] || (Nat.toDigits 10 n).head? != some '0') = true := by
      by_cases hz : n = 0
      · subst hz; rfl
      · simp only [Bool.or_eq_true, bne_iff_ne]
        exact .inr (head?_toDigits_ne (Nat.pos_of_ne_zero hz))
    simp [canonicalWord?, word?, hc, hd, he, Nat.ofDigitChars_ten_toDigits, hl]

theorem width_pos {s : List Char} (h : s ≠ []) : 0 < width s := by
  have := length_le_width s
  have := List.length_pos_iff.2 h
  omega

/-- Fronts of one text are the same if they are of the same width. -/
theorem eq_of_width_eq {p q t u : List Char} (h : p ++ t = q ++ u) (hw : width p = width q) :
    p = q := by
  have hnil : ∀ {v : List Char}, width v = 0 → v = [] := fun hv =>
    Classical.byContradiction fun hne => absurd hv (Nat.ne_of_gt (width_pos hne))
  rcases List.append_eq_append_iff.1 h with ⟨v, rfl, -⟩ | ⟨v, rfl, -⟩
  · rw [width_append] at hw
    rw [hnil (v := v) (by omega), List.append_nil]
  · rw [width_append] at hw
    rw [hnil (v := v) (by omega), List.append_nil]

def byte? (s : String) (i : Nat) : Option UInt8 := s.toUTF8.data[i]?

theorem size_utf8Encode (s : List Char) : s.utf8Encode.size = width s := by
  induction s with
  | nil => simp [width]
  | cons c s ih =>
    rw [List.utf8Encode_cons, List.utf8Encode_singleton]
    simp [width, ih]

theorem byte?_middle {s t u v : List Char} {i : Nat} (h : s = u ++ t ++ v) (hi : i < width t) :
    byte? (.ofList s) (width u + i) = byte? (.ofList t) i := by
  subst h
  have hu := size_utf8Encode u
  have ht := size_utf8Encode t
  rw [← ByteArray.size_data] at hu ht
  simp only [byte?, String.toUTF8_eq_toByteArray, String.toByteArray_ofList, List.utf8Encode_append,
    ByteArray.data_append]
  rw [Array.getElem?_append_left (by simp only [Array.size_append]; omega),
    Array.getElem?_append_right (by omega)]
  congr 1
  omega

theorem isSome_byte? {s : List Char} {i : Nat} (hi : i < width s) :
    (byte? (.ofList s) i).isSome = true := by
  simpa [byte?, size_utf8Encode] using hi

end BlockLens.Text
