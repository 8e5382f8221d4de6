import BlockLens.Markup.Blocks
import BlockLens.Proofs.Text

set_option autoImplicit false

namespace BlockLens

open Text

namespace Tag

theorem suffix_value? {s v r : List Char} (h : value? s = some (v, r)) : r <:+ s := by
  cases s with
  | nil =>
    simp only [value?, Option.some.injEq, Prod.mk.injEq] at h
    simp [← h.2]
  | cons c s =>
    simp only [value?] at h
    split at h
    · exact ⟨c :: v ++ [c], by rw [eq_of_cut? h]; simp⟩
    · simp only [Option.some.injEq, Prod.mk.injEq] at h
      exact h.2 ▸ List.dropWhile_suffix _

theorem suffix_keyed (key s : List Char) : (keyed key s).rest <:+ s := by
  unfold keyed
  split
  · next t ht =>
    have ht' : t <:+ s := (List.suffix_cons _ t).trans (ht ▸ List.dropWhile_suffix _)
    split
    · next v r hv => exact ((suffix_value? hv).trans (List.dropWhile_suffix _)).trans ht'
    · exact List.nil_suffix
  · exact List.suffix_rfl

theorem suffix_item (s : List Char) : (item s).rest <:+ s := by
  unfold item
  split
  · exact List.suffix_rfl
  · exact List.suffix_cons _ _
  · exact (List.suffix_cons _ _).trans (List.suffix_cons _ _)
  · split
    · exact (suffix_keyed _ _).trans (List.dropWhile_suffix _)
    · exact List.suffix_cons _ _

theorem item_other {c : Char} {s : List Char} (hc : c ≠ '>') (hs : c = '/' → s.head? ≠ some '>') :
    item (c :: s) =
      if isKeyChar c then keyed ((c :: s).takeWhile isKeyChar) ((c :: s).dropWhile isKeyChar)
      else .stray s := by
  unfold item
  split
  · contradiction
  · next e => exact absurd (List.cons.inj e).1 hc
  · next e =>
    obtain ⟨h₁, h₂⟩ := List.cons.inj e
    exact absurd (by rw [h₂]; rfl) (hs h₁)
  · next e =>
    obtain ⟨rfl, rfl⟩ := List.cons.inj e
    rfl

theorem keyed_bare {key s : List Char} (h : ∀ t, s.dropWhile isBlank ≠ '=' :: t) :
    keyed key s = .bare key s := by
  unfold keyed
  split
  · next t ht => exact absurd ht (h t)
  · rfl

/-- One turn of the reader: blanks, and what stands behind them. -/
theorem rest?_eq {s u : List Char} (acc : Attributes) (hs : s.dropWhile isBlank = u) :
    rest? acc s =
      match item u with
      | .broken => none
      | .close b r => some (acc, b, r)
      | .stray r => rest? acc r
      | .bare k r => rest? (acc.insert (String.ofList k) "true") r
      | .valued k v r => rest? (acc.insert (String.ofList k) (String.ofList v)) r := by
  rw [rest?]
  split
  · next h =>
    obtain rfl : u = [] := hs.symm.trans h
    rfl
  · next c t h =>
    obtain rfl : u = c :: t := hs.symm.trans h
    split <;> next h' => simp only [h']

theorem suffix_rest? {acc a : Attributes} {b : Bool} {s r : List Char}
    (h : rest? acc s = some (a, b, r)) : r <:+ s := by
  have step : ∀ {s : List Char} {c : Char} {t : List Char}, s.dropWhile isBlank = c :: t →
      (item (c :: t)).rest <:+ s :=
    fun hs => (suffix_item _).trans (hs ▸ List.dropWhile_suffix _)
  fun_induction rest? acc s with
  | case1 => simp at h
  | case2 => simp at h
  | case3 acc s c t hs b' r' hi =>
    simp only [Option.some.injEq, Prod.mk.injEq] at h
    obtain ⟨-, -, rfl⟩ := h
    have := step hs
    rwa [hi] at this
  | case4 acc s c t hs r' hi ih | case5 acc s c t hs k r' hi ih | case6 acc s c t hs k v r' hi ih =>
    have := step hs
    rw [hi] at this
    exact (ih h).trans this

theorem suffix_read? {s r : List Char} {t : Tag} (h : read? s = some (t, r)) : r <:+ s := by
  unfold read? at h
  split at h
  · next c s =>
    split at h
    · simp only [Option.map_eq_some_iff, Prod.mk.injEq] at h
      obtain ⟨⟨a, b, r'⟩, hr, -, rfl⟩ := h
      exact ((suffix_rest? hr).trans (List.dropWhile_suffix _)).trans (List.suffix_cons _ _)
    · simp at h
  · simp at h

end Tag

namespace Markup

/-- The content of `b` stands in `s`, which begins at offset `o`, where its range says. -/
def Lies (o : Nat) (s : List Char) (b : Block) : Prop :=
  ∃ p q, s = p ++ b.content.toList ++ q ∧ b.span.start = o + width p ∧
    b.span.stop = b.span.start + width b.content.toList

theorem Lies.prepend {o : Nat} {s : List Char} {b : Block} (p : List Char)
    (h : Lies (o + width p) s b) : Lies o (p ++ s) b := by
  obtain ⟨u, q, hs, hstart, hstop⟩ := h
  refine ⟨p ++ u, q, by simp [hs], ?_, hstop⟩
  rw [width_append]
  omega

theorem Lies.of_suffix {o o' : Nat} {s r : List Char} {b : Block} (hr : r <:+ s)
    (ho : o' = o + (width s - width r)) (h : Lies o' r b) : Lies o s b := by
  obtain ⟨p, rfl⟩ := hr
  rw [width_append, Nat.add_sub_cancel] at ho
  exact Lies.prepend p (ho ▸ h)

theorem Lies.byte? {text : String} {b : Block} (h : Lies 0 text.toList b) {x : Nat}
    (hl : b.span.start ≤ x) (hr : x < b.span.stop) :
    ∃ y, byte? text x = some y ∧ Text.byte? b.content (x - b.span.start) = some y := by
  obtain ⟨p, q, hs, hstart, hstop⟩ := h
  have hmid := byte?_middle hs (i := x - width p) (by omega)
  rw [show width p + (x - width p) = x by omega, String.ofList_toList, String.ofList_toList] at hmid
  obtain ⟨y, hy⟩ := Option.isSome_iff_exists.1
    (isSome_byte? (s := b.content.toList) (i := x - width p) (by omega))
  rw [String.ofList_toList] at hy
  rw [show x - b.span.start = x - width p by omega]
  exact ⟨y, hmid.trans hy, hy⟩

theorem lies_block (tag : Tag) (start : Nat) (body q : List Char) :
    Lies start (body ++ q) (block tag start body) :=
  ⟨[], q, by simp [block], by simp [block, width], by simp [block]⟩

theorem suffix_content? {name : List Char} {nested : Bool} {depth : Nat} {s b r : List Char}
    (h : content? name nested depth s = some (b, r)) : r <:+ s := by
  obtain ⟨gap, rfl⟩ := eq_of_content? h
  exact ⟨b ++ '<' :: '/' :: name ++ gap ++ ['>'], by simp⟩

theorem splitAt_comment (o : Nat) (t : List Char) :
    splitAt o ('<' :: '!' :: '-' :: '-' :: t) =
      match cut? ['-', '-', '>'] t with
      | some (c, r) => splitAt (o + 4 + width c + 3) r
      | none => { errors := [⟨"Unterminated comment", ⟨o, o + 4 + width t⟩⟩] } := by
  rw [splitAt]
  split <;> next h => simp only [h]

theorem splitAt_endTag (o : Nat) (t : List Char) :
    splitAt o ('<' :: '/' :: t) =
      match cut? ['>'] t with
      | some (c, r) => splitAt (o + 2 + width c + 1) r
      | none => {} := by
  rw [splitAt]
  split <;> next h => simp only [h]

theorem splitAt_other (o : Nat) {c : Char} {t : List Char}
    (hc : ∀ u, c = '<' → t = '!' :: '-' :: '-' :: u → False)
    (he : ∀ u, c = '<' → t = '/' :: u → False) :
    splitAt o (c :: t) =
      match Tag.read? (c :: t) with
      | none => splitAt (o + c.utf8Size) t
      | some (tag, r) =>
        let start := o + (width (c :: t) - width r)
        if tag.selfClosing then Parsed.cons (block tag start []) (splitAt start r)
        else
          match content? tag.name.toList (tag.name == "template") 0 r with
          | some (body, r') =>
            Parsed.cons (block tag start body) (splitAt (start + (width r - width r')) r')
          | none =>
            { errors :=
                [⟨s!"Element <{tag.name}> is missing end tag.", ⟨o, o + width (c :: t)⟩⟩] } := by
  rw [splitAt]
  · split
    · next h => simp only [h]
    · next h =>
      simp only [h]
      split
      · rfl
      · split <;> next h' => simp only [h']
  · exact hc
  · exact he

/-- Every block lies in the text, and its kind is that of its tag. -/
theorem mem_splitAt {o : Nat} {s : List Char} {b : Block} (h : b ∈ (splitAt o s).blocks) :
    Lies o s b ∧ ∃ tag, b.kind = .ofTag tag := by
  fun_induction splitAt o s with
  | case1 => simp at h
  | case2 o t c r hc ih =>
    obtain ⟨hl, hk⟩ := ih h
    have hs : '<' :: '!' :: '-' :: '-' :: t = ('<' :: '!' :: '-' :: '-' :: c ++ ['-', '-', '>']) ++ r := by
      simp [eq_of_cut? hc]
    refine ⟨hs ▸ Lies.prepend _ ?_, hk⟩
    have hw : o + width ('<' :: '!' :: '-' :: '-' :: c ++ ['-', '-', '>']) = o + 4 + width c + 3 := by
      simp [width, Char.utf8Size]
      omega
    rwa [hw]
  | case3 o t => simp at h
  | case4 o t c r hc ih =>
    obtain ⟨hl, hk⟩ := ih h
    have hs : '<' :: '/' :: t = ('<' :: '/' :: c ++ ['>']) ++ r := by simp [eq_of_cut? hc]
    refine ⟨hs ▸ Lies.prepend _ ?_, hk⟩
    have hw : o + width ('<' :: '/' :: c ++ ['>']) = o + 2 + width c + 1 := by
      simp [width, Char.utf8Size]
      omega
    rwa [hw]
  | case5 o t => simp at h
  | case6 o c t _ _ hr ih =>
    obtain ⟨hl, hk⟩ := ih h
    exact ⟨Lies.prepend [c] (by simpa [width] using hl), hk⟩
  | case7 o c t _ _ tag r hr start hself ih =>
    have hsuf := Tag.suffix_read? hr
    simp only [Parsed.cons, List.mem_cons] at h
    rcases h with rfl | h
    · exact ⟨(lies_block tag start [] r).of_suffix hsuf rfl, tag.name, rfl⟩
    · obtain ⟨hl, hk⟩ := ih h
      exact ⟨hl.of_suffix hsuf rfl, hk⟩
  | case8 o c t _ _ tag r hr start hself body r' hb ih =>
    have hsuf := Tag.suffix_read? hr
    simp only [Parsed.cons, List.mem_cons] at h
    rcases h with rfl | h
    · obtain ⟨gap, hbody⟩ := eq_of_content? hb
      rw [List.append_assoc, List.append_assoc] at hbody
      have hl := lies_block tag start body ('<' :: '/' :: tag.name.toList ++ (gap ++ '>' :: r'))
      rw [← hbody] at hl
      exact ⟨hl.of_suffix hsuf rfl, tag.name, rfl⟩
    · obtain ⟨hl, hk⟩ := ih h
      exact ⟨(hl.of_suffix (suffix_content? hb) rfl).of_suffix hsuf rfl, hk⟩
  | case9 => simp at h

theorem lies_of_mem_split {text : String} {b : Block} (h : b ∈ (split text).blocks) :
    Lies 0 text.toList b := (mem_splitAt h).1

theorem kind_of_mem_split {text : String} {b : Block} (h : b ∈ (split text).blocks) :
    ∃ tag, b.kind = .ofTag tag := (mem_splitAt h).2

end Markup

end BlockLens
