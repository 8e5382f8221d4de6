import BlockLens.Proofs.Text
import BlockLens.Template.Expressions

set_option autoImplicit false

namespace BlockLens.Template

open Text

/-- The excerpts stand in `s`, which begins at `o`, one behind the other, with something before
each; none is blank. -/
inductive Stands : Nat → List Char → List Excerpt → Prop
  | nil (o : Nat) (s : List Char) : Stands o s []
  | cons {o : Nat} {p t r : List Char} {es : List Excerpt} (hp : p ≠ []) (ht : isVoid t = false)
      (h : Stands (o + width p + width t) r es) : Stands o (p ++ t ++ r) (⟨o + width p, t⟩ :: es)

theorem Stands.prepend {o : Nat} {s : List Char} {es : List Excerpt} (p : List Char)
    (h : Stands (o + width p) s es) : Stands o (p ++ s) es := by
  cases h with
  | nil => exact .nil _ _
  | @cons _ p' t r es hp ht h =>
    have hc : Stands o (p ++ p' ++ t ++ r) (⟨o + width (p ++ p'), t⟩ :: es) :=
      .cons (by simp [hp]) ht (by simpa only [width_append, Nat.add_assoc] using h)
    simpa only [width_append, Nat.add_assoc, List.append_assoc] using hc

theorem Stands.append {o : Nat} {s r : List Char} {es es' : List Excerpt} (h : Stands o s es)
    (h' : Stands (o + width s) r es') : Stands o (s ++ r) (es ++ es') := by
  induction h with
  | nil o s => exact h'.prepend s
  | @cons o p t u es hp ht h ih =>
    rw [List.cons_append, List.append_assoc _ u r]
    refine .cons hp ht (ih ?_)
    simpa only [width_append, Nat.add_assoc] using h'

theorem stands_one {o : Nat} {p t : List Char} (hp : p ≠ []) (r : List Char)
    (ht : isVoid t = false) : Stands o (p ++ t ++ r) [⟨o + width p, t⟩] := .cons hp ht (.nil _ _)

theorem Stands.of_mem {o : Nat} {s : List Char} {es : List Excerpt} (h : Stands o s es) {e : Excerpt}
    (he : e ∈ es) : e.text ≠ [] ∧ ∃ p q, s = p ++ e.text ++ q ∧ e.start = o + width p := by
  induction h with
  | nil => simp at he
  | @cons o p t r es hp ht h ih =>
    rcases List.mem_cons.1 he with rfl | he
    · exact ⟨by rintro rfl; simp [isVoid] at ht, p, r, rfl, rfl⟩
    · obtain ⟨hne, u, q, rfl, hs⟩ := ih he
      refine ⟨hne, p ++ t ++ u, q, by simp, ?_⟩
      rw [hs, width_append, width_append]
      omega

theorem Stands.lt_start {o : Nat} {s : List Char} {es : List Excerpt} (h : Stands o s es)
    {e : Excerpt} (he : e ∈ es) : o < e.start := by
  induction h with
  | nil => simp at he
  | @cons o p t r es hp ht h ih =>
    have hpos := width_pos hp
    rcases List.mem_cons.1 he with rfl | he
    · simp only
      omega
    · have := ih he
      omega

/-- No two excerpts meet. -/
theorem Stands.apart {o : Nat} {s : List Char} {es : List Excerpt} (h : Stands o s es) :
    es.Pairwise fun a b => a.span.stop < b.span.start := by
  induction h with
  | nil => exact List.Pairwise.nil
  | cons hp ht h ih => exact List.pairwise_cons.2 ⟨fun e he => h.lt_start he, ih⟩

theorem utf8Size_of_isQuote {q : Char} (h : Tag.isQuote q = true) : q.utf8Size = 1 := by
  simp only [Tag.isQuote, Bool.or_eq_true, beq_iff_eq] at h
  rcases h with rfl | rfl <;> rfl

theorem stands_readAttribute (o : Nat) (c : Char) (s : List Char) :
    ∃ u, c :: s = u ++ (readAttribute o c s).2 ∧ Stands o u (readAttribute o c s).1.toList := by
  unfold readAttribute
  split
  · have hs := List.takeWhile_append_dropWhile (p := Tag.isKeyChar) (l := s)
    generalize s.takeWhile Tag.isKeyChar = k at hs ⊢
    split
    · next q t hd =>
      rw [hd] at hs
      split
      · next hq =>
        split
        · next v r hv =>
          refine ⟨c :: k ++ ['=', q] ++ v ++ [q], ?_, ?_⟩
          · rw [← hs, eq_of_cut? hv]
            simp
          · dsimp only
            split
            · next hb =>
              simp only [Bool.and_eq_true, Bool.not_eq_true'] at hb
              have hw : width (c :: k ++ ['=', q]) = width (c :: k) + 2 := by
                have hq' := utf8Size_of_isQuote hq
                have he : '='.utf8Size = 1 := rfl
                simp only [width_append, width]
                omega
              have hone := stands_one (o := o) (p := c :: k ++ ['=', q]) (by simp) [q] hb.2
              rwa [hw, ← Nat.add_assoc] at hone
            · exact .nil _ _
        · exact ⟨c :: s, by simp, .nil _ _⟩
      · exact ⟨c :: k ++ ['='], by simp [← hs], .nil _ _⟩
    · exact ⟨c :: s, by simp, .nil _ _⟩
    · exact ⟨c :: k, by simp [hs], .nil _ _⟩
  · exact ⟨[c], by simp, .nil _ _⟩

theorem stands_readAttributes (o : Nat) (s : List Char) :
    ∃ u, s = u ++ (readAttributes o s).2 ∧ Stands o u (readAttributes o s).1 := by
  fun_induction readAttributes o s with
  | case1 o s h => exact ⟨s, by simp, .nil _ _⟩
  | case2 o s t h =>
    have hs := List.takeWhile_append_dropWhile (p := isGap) (l := s)
    rw [h] at hs
    exact ⟨s.takeWhile isGap ++ ['>'], by simp [hs], .nil _ _⟩
  | case3 o s c t h hc o₁ a p ih =>
    have hs := List.takeWhile_append_dropWhile (p := isGap) (l := s)
    rw [h] at hs
    obtain ⟨u, hu, hsu⟩ := stands_readAttribute o₁ c t
    obtain ⟨v, hv, hsv⟩ := ih
    refine ⟨s.takeWhile isGap ++ (u ++ v), ?_, ?_⟩
    · rw [List.append_assoc, List.append_assoc, ← hv, ← hu, hs]
    · refine (hsu.append ?_).prepend _
      have hw : o₁ + (width (c :: t) - width a.2) = o₁ + width u := by
        rw [hu, width_append, Nat.add_sub_cancel _ (width a.2)]
      exact hw ▸ hsv

theorem stands_expressionsFrom (o : Nat) (s : List Char) : Stands o s (expressionsFrom o s) := by
  fun_induction expressionsFrom o s with
  | case1 o => exact .nil _ _
  | case2 o t c r hc ih =>
    have hs : '<' :: '!' :: '-' :: '-' :: t = ('<' :: c ++ ['-', '-', '>']) ++ r := by
      simp [eq_of_cut? hc]
    have hw : o + width ('<' :: c ++ ['-', '-', '>']) = o + 1 + width c + 3 := by
      simp [width, Char.utf8Size]
      omega
    rw [hs]
    exact Stands.prepend _ (hw ▸ ih)
  | case3 o t => exact .nil _ _
  | case4 o t e r hc ih =>
    have hs : '\x7b' :: '\x7b' :: t = ['\x7b', '\x7b'] ++ e ++ ['\x7d', '\x7d'] ++ r := by
      simp [eq_of_cut? hc]
    have hw : o + width (['\x7b', '\x7b'] ++ e ++ ['\x7d', '\x7d']) = o + 2 + width e + 2 := by
      simp [width, Char.utf8Size]
      omega
    rw [hs]
    refine Stands.append ?_ (hw ▸ ih)
    split
    · exact .nil _ _
    · next he => exact stands_one (by simp) ['\x7d', '\x7d'] (by simpa using he)
  | case5 o t => exact .nil _ _
  | case6 o c t _ hc name p ih =>
    have hn := List.takeWhile_append_dropWhile (p := isTagChar) (l := c :: t)
    obtain ⟨u, hu, hsu⟩ := stands_readAttributes (o + 1 + width name) ((c :: t).dropWhile isTagChar)
    have hs : '<' :: c :: t = ('<' :: name ++ u) ++ p.2 := by
      rw [List.append_assoc, ← hu, List.cons_append, hn]
    have hw : o + (width ('<' :: c :: t) - width p.2) = o + width ('<' :: name ++ u) := by
      rw [hs, width_append, Nat.add_sub_cancel _ (width p.2)]
    have hlt : o + width ('<' :: name) = o + 1 + width name := by
      simp only [width, Nat.add_assoc]
      rfl
    rw [hw] at ih ⊢
    rw [hs]
    exact (Stands.prepend _ (hlt ▸ hsu)).append ih
  | case7 o c t _ hc ih => exact Stands.prepend ['<'] ih
  | case8 o c t _ _ _ ih => exact Stands.prepend [c] (by simpa [width] using ih)

end BlockLens.Template
