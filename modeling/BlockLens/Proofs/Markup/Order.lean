import BlockLens.Proofs.Markup

set_option autoImplicit false

namespace BlockLens.Markup

open Text

structure Ordered (o e : Nat) (p : Parsed) : Prop where
  behind : ∀ b ∈ p.blocks, o < b.span.start ∧ b.span.start ≤ b.span.stop
  apart : p.blocks.Pairwise fun a b => a.span.stop < b.span.start
  one : p.errors.length ≤ 1
  last : ∀ x ∈ p.errors, o ≤ x.span.start ∧ x.span.start ≤ x.span.stop ∧ x.span.stop = e ∧
    ∀ b ∈ p.blocks, b.span.stop ≤ x.span.start

theorem ordered_empty (o e : Nat) : Ordered o e {} where
  behind := by simp
  apart := by simp
  one := by simp
  last := by simp

theorem ordered_error {o e : Nat} (h : o ≤ e) (message : String) :
    Ordered o e { errors := [⟨message, ⟨o, e⟩⟩] } where
  behind := by simp
  apart := by simp
  one := by simp
  last := by simpa using h

theorem Ordered.of_le {o o' e : Nat} {p : Parsed} (h : Ordered o' e p) (ho : o ≤ o') :
    Ordered o e p where
  behind b hb := by
    have := h.behind b hb
    omega
  apart := h.apart
  one := h.one
  last x hx := by
    obtain ⟨h₁, h₂⟩ := h.last x hx
    exact ⟨by omega, h₂⟩

/-- All that follows begins where the block is over, or later. -/
theorem Ordered.cons {o o' e : Nat} {p : Parsed} {b : Block} (h : Ordered o' e p)
    (hstart : o < b.span.start) (hspan : b.span.start ≤ b.span.stop) (hstop : b.span.stop ≤ o') :
    Ordered o e (Parsed.cons b p) where
  behind a ha := by
    rcases List.mem_cons.1 ha with rfl | ha
    · exact ⟨hstart, hspan⟩
    · have := h.behind a ha
      omega
  apart := by
    refine List.pairwise_cons.2 ⟨fun a ha => ?_, h.apart⟩
    have := h.behind a ha
    omega
  one := h.one
  last x hx := by
    obtain ⟨h₁, h₂, h₃, h₄⟩ := h.last x hx
    refine ⟨by omega, h₂, h₃, fun a ha => ?_⟩
    rcases List.mem_cons.1 ha with rfl | ha
    · omega
    · exact h₄ a ha

theorem width_lt_of_suffix {r s : List Char} (h : r <:+ s) (hl : r.length < s.length) :
    width r < width s := by
  obtain ⟨u, rfl⟩ := h
  have hu : u ≠ [] := by
    rintro rfl
    simp at hl
  have := width_pos hu
  rw [width_append]
  omega

theorem ordered_splitAt (o : Nat) (s : List Char) : Ordered o (o + width s) (splitAt o s) := by
  fun_induction splitAt o s with
  | case1 o => exact ordered_empty o _
  | case2 o t c r hcut ih =>
    have hs : width ('<' :: '!' :: '-' :: '-' :: t) = 4 + width c + 3 + width r := by
      simp [eq_of_cut? hcut, width, Char.utf8Size]
      omega
    rw [hs, show o + (4 + width c + 3 + width r) = o + 4 + width c + 3 + width r by omega]
    exact ih.of_le (by omega)
  | case3 o t hcut =>
    have hs : o + width ('<' :: '!' :: '-' :: '-' :: t) = o + 4 + width t := by
      simp [width, Char.utf8Size]
      omega
    rw [hs]
    exact ordered_error (by omega) _
  | case4 o t c r hcut ih =>
    have hs : width ('<' :: '/' :: t) = 2 + width c + 1 + width r := by
      simp [eq_of_cut? hcut, width, Char.utf8Size]
      omega
    rw [hs, show o + (2 + width c + 1 + width r) = o + 2 + width c + 1 + width r by omega]
    exact ih.of_le (by omega)
  | case5 o t hcut => exact ordered_empty o _
  | case6 o c t hc he hr ih =>
    rw [width, ← Nat.add_assoc]
    exact ih.of_le (by omega)
  | case7 o c t hc he tag r hr start hself ih =>
    have hlt := width_lt_of_suffix (Tag.suffix_read? hr) (Tag.length_read?_lt hr)
    rw [show o + width (c :: t) = start + width r by omega]
    exact ih.cons (by simp only [block]; omega) (by simp [block]) (by simp [block, width])
  | case8 o c t hc he tag r hr start hself body r' hb ih =>
    have hlt := width_lt_of_suffix (Tag.suffix_read? hr) (Tag.length_read?_lt hr)
    obtain ⟨gap, hbody⟩ := eq_of_content? hb
    have hr' : width r = width body + width ('<' :: '/' :: tag.name.toList ++ gap ++ ['>']) +
        width r' := by
      rw [hbody]
      simp [width]
      omega
    rw [show o + width (c :: t) = start + (width r - width r') + width r' by omega]
    exact ih.cons (by simp only [block]; omega) (by simp [block]) (by simp only [block]; omega)
  | case9 o c t hc he tag r hr hself hb => exact ordered_error (by omega) _

theorem lang_of_mem_splitAt {o : Nat} {s : List Char} {b : Block}
    (h : b ∈ (splitAt o s).blocks) : b.lang = b.attrs.get? "lang" := by
  fun_induction splitAt o s with
  | case1 | case3 | case5 | case9 => simp at h
  | case2 o t c r hcut ih | case4 o t c r hcut ih => exact ih h
  | case6 o c t hc he hr ih => exact ih h
  | case7 o c t hc he tag r hr start hself ih
  | case8 o c t hc he tag r hr start hself body r' hb ih =>
    rcases List.mem_cons.1 h with rfl | h
    · rfl
    · exact ih h

end BlockLens.Markup
