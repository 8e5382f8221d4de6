import BlockLens.Proofs.SourceMap
import BlockLens.Proofs.Template.Expressions
import BlockLens.Proofs.Text
import BlockLens.Template.Render

set_option autoImplicit false

namespace BlockLens.Template

open Text SourceMap

def texts (ps : List Piece) : List Char := ps.flatMap Piece.text

@[simp] theorem texts_nil : texts [] = [] := rfl

@[simp] theorem texts_cons (p : Piece) (ps : List Piece) : texts (p :: ps) = p.text ++ texts ps := by
  simp [texts]

@[simp] theorem texts_append (ps qs : List Piece) : texts (ps ++ qs) = texts ps ++ texts qs := by
  simp [texts]

theorem follows_made {o a a' : Nat} {s : List Char} {r : List Piece} (hs : s ≠ []) (ha : a ≤ a')
    (h : Follows (o + width s) a' (segments (o + width s) r)) :
    Follows o a (segments o (.made s :: r)) := by
  have := width_pos hs
  exact h.of_lt (by omega) ha

theorem follows_copied {o a : Nat} {s : List Char} {r : List Piece}
    (h : Follows (o + width s) (a + width s) (segments (o + width s) r)) :
    Follows o a (segments o (.copied a s :: r)) := by
  by_cases hs : s = []
  · subst hs
    simpa [segments, width] using h
  · have := width_pos hs
    simp only [segments, List.isEmpty_iff, hs, if_false]
    refine ⟨⟨Nat.le_refl _, Nat.le_refl _, fun _ => rfl⟩, ⟨?_, ?_⟩, h⟩
    · simp only
      omega
    · simp only
      omega

theorem follows_routed {o a : Nat} {tail : List Char} {names : List (List Char × List Char)}
    {r : List Piece}
    (h : Follows (o + width (texts (routed a tail names))) (a + width (Split.text ⟨names, tail⟩))
      (segments (o + width (texts (routed a tail names))) r)) :
    Follows o a (segments o (routed a tail names ++ r)) := by
  induction names generalizing o a with
  | nil => exact follows_copied (by simpa [routed, Split.text, Piece.text] using h)
  | cons n names ih =>
    obtain ⟨gap, w⟩ := n
    simp only [routed, List.cons_append]
    refine follows_copied (follows_made (by simp) (Nat.le_refl _) (follows_copied (ih ?_)))
    simpa only [routed, texts_cons, Piece.text, Split.text, List.flatMap_cons, List.append_assoc,
      width_append, Nat.add_assoc] using h

theorem follows_statement {o a : Nat} {e : Excerpt} {r : List Piece} (ha : a ≤ e.start)
    (h : Follows (o + width (texts (statement e))) (e.start + width e.text)
      (segments (o + width (texts (statement e))) r)) :
    Follows o a (segments o (statement e ++ r)) := by
  have htext : Split.text ⟨(split e.text).names, (split e.text).tail⟩ = e.text := split_text e.text
  simp only [statement, List.cons_append, List.append_assoc, List.nil_append]
  refine follows_made (by decide) ha (follows_routed (follows_made (by decide) (Nat.le_refl _) ?_))
  rw [htext]
  simpa only [statement, List.cons_append, texts_cons, texts_append, texts_nil, Piece.text,
    List.append_nil, width_append, Nat.add_assoc] using h

theorem follows_body {a : Nat} {s : List Char} {es : List Excerpt} (h : Stands a s es) (o : Nat) :
    Follows o a (segments o (es.flatMap statement)) := by
  induction h generalizing o with
  | nil => trivial
  | @cons a p t r es hp ht h ih =>
    rw [List.flatMap_cons]
    exact follows_statement (Nat.le_add_right _ _) (ih _)

theorem segments_append (o : Nat) (ps qs : List Piece) :
    segments o (ps ++ qs) = segments o ps ++ segments (o + width (texts ps)) qs := by
  induction ps generalizing o with
  | nil => simp [segments, width]
  | cons p ps ih =>
    cases p with
    | made s => simp [segments, ih, Piece.text, Nat.add_assoc]
    | copied a s =>
      by_cases hs : s = []
      · simp [segments, ih, Piece.text, hs]
      · simp [segments, ih, Piece.text, hs, Nat.add_assoc]

theorem mem_segments {o : Nat} {ps : List Piece} {x : Segment} (h : x ∈ segments o ps) :
    ∃ l a s r, ps = l ++ .copied a s :: r ∧ s ≠ [] ∧
      x = ⟨⟨o + width (texts l), o + width (texts l) + width s⟩, ⟨a, a + width s⟩⟩ := by
  induction ps generalizing o with
  | nil => simp [segments] at h
  | cons p ps ih =>
    have later : ∀ {s : List Char}, p.text = s → x ∈ segments (o + width s) ps →
        ∃ l a t r, p :: ps = l ++ .copied a t :: r ∧ t ≠ [] ∧
          x = ⟨⟨o + width (texts l), o + width (texts l) + width t⟩, ⟨a, a + width t⟩⟩ := by
      rintro s rfl hx
      obtain ⟨l, a, t, r, rfl, ht, rfl⟩ := ih hx
      exact ⟨p :: l, a, t, r, rfl, ht, by simp [Nat.add_assoc]⟩
    cases p with
    | made s => exact later rfl h
    | copied a s =>
      simp only [segments] at h
      split at h
      · next hs => exact later (s := s) rfl (by simpa [List.isEmpty_iff.1 hs, width] using h)
      · next hs =>
        rcases List.mem_cons.1 h with rfl | h
        · exact ⟨[], a, s, ps, rfl, by simpa using hs, by simp [width]⟩
        · exact later rfl h

theorem text_cons (gap w tail : List Char) (names : List (List Char × List Char)) :
    Split.text ⟨(gap, w) :: names, tail⟩ = gap ++ (w ++ Split.text ⟨names, tail⟩) := by
  simp [Split.text]

theorem copied_of_mem_routed {o a : Nat} {tail t : List Char} {names : List (List Char × List Char)}
    (h : Piece.copied a t ∈ routed o tail names) :
    ∃ u v, Split.text ⟨names, tail⟩ = u ++ t ++ v ∧ a = o + width u := by
  induction names generalizing o with
  | nil =>
    simp only [routed, List.mem_singleton, Piece.copied.injEq] at h
    obtain ⟨rfl, rfl⟩ := h
    exact ⟨[], [], by simp [Split.text], rfl⟩
  | cons n names ih =>
    obtain ⟨gap, w⟩ := n
    simp only [routed, List.mem_cons, Piece.copied.injEq, reduceCtorEq, false_or] at h
    rw [text_cons]
    rcases h with ⟨rfl, rfl⟩ | ⟨rfl, rfl⟩ | h
    · exact ⟨[], w ++ Split.text ⟨names, tail⟩, by simp, rfl⟩
    · exact ⟨gap, Split.text ⟨names, tail⟩, by simp, rfl⟩
    · obtain ⟨u, v, hu, ha⟩ := ih h
      refine ⟨gap ++ w ++ u, v, by simp [hu], ?_⟩
      rw [ha, width_append, width_append]
      omega

theorem exists_copied_routed {o x : Nat} {tail : List Char} {names : List (List Char × List Char)}
    (hl : o ≤ x) (hr : x < o + width (Split.text ⟨names, tail⟩)) :
    ∃ a t, Piece.copied a t ∈ routed o tail names ∧ a ≤ x ∧ x < a + width t := by
  induction names generalizing o with
  | nil => exact ⟨o, tail, by simp [routed], hl, by simpa [Split.text] using hr⟩
  | cons n names ih =>
    obtain ⟨gap, w⟩ := n
    rw [text_cons, width_append, width_append] at hr
    by_cases hg : x < o + width gap
    · exact ⟨o, gap, by simp [routed], hl, hg⟩
    by_cases hw : x < o + width gap + width w
    · exact ⟨o + width gap, w, by simp [routed], by omega, hw⟩
    obtain ⟨a, t, hm, ha⟩ := ih (o := o + width gap + width w) (by omega) (by omega)
    exact ⟨a, t, by simp [routed, hm], ha⟩

def Copies (src gen : List Char) (x : Segment) : Prop :=
  ∃ t u v u' v', src = u ++ t ++ v ∧ gen = u' ++ t ++ v' ∧
    x = ⟨⟨width u', width u' + width t⟩, ⟨width u, width u + width t⟩⟩

theorem Copies.stop_le {src gen : List Char} {x : Segment} (h : Copies src gen x) :
    x.source.stop ≤ width src ∧ x.generated.stop ≤ width gen := by
  obtain ⟨t, u, v, u', v', rfl, rfl, rfl⟩ := h
  simp only [width_append]
  omega

theorem Copies.byte_eq {src gen : List Char} {x : Segment} (h : Copies src gen x) {o g : Nat}
    (hl : x.source.start ≤ o) (hr : o < x.source.stop)
    (hg : g + x.source.start = x.generated.start + o) :
    byte? (.ofList gen) g = byte? (.ofList src) o := by
  obtain ⟨t, u, v, u', v', hs, hgen, rfl⟩ := h
  simp only at hl hr hg
  have h₁ := byte?_middle hs (i := o - width u) (by omega)
  have h₂ := byte?_middle hgen (i := o - width u) (by omega)
  rw [show width u + (o - width u) = o by omega] at h₁
  rw [show width u' + (o - width u) = g by omega] at h₂
  rw [h₁, h₂]

theorem mem_statement {e : Excerpt} {a : Nat} {t : List Char} :
    Piece.copied a t ∈ statement e ↔
      Piece.copied a t ∈ routed e.start (split e.text).tail (split e.text).names := by
  simp [statement]

theorem text_split (s : List Char) : Split.text ⟨(split s).names, (split s).tail⟩ = s := split_text s

variable {s : List Char} {es : List Excerpt}

theorem copies_of_mem_segments (h : Stands 0 s es) (pre post : List Char) {x : Segment}
    (hx : x ∈ segments (width pre) (es.flatMap statement)) :
    Copies s (pre ++ texts (es.flatMap statement) ++ post) x ∧
      ∃ e ∈ es, e.start ≤ x.source.start ∧ x.source.stop ≤ e.start + width e.text := by
  obtain ⟨l, a, t, r, hbody, -, rfl⟩ := mem_segments hx
  have hmem : Piece.copied a t ∈ es.flatMap statement := by simp [hbody]
  obtain ⟨e, he, hmem⟩ := List.mem_flatMap.1 hmem
  obtain ⟨u, v, htext, rfl⟩ := copied_of_mem_routed (mem_statement.1 hmem)
  rw [text_split] at htext
  obtain ⟨-, p, q, rfl, hstart⟩ := h.of_mem he
  refine ⟨⟨t, p ++ u, v ++ q, pre ++ texts l, texts r ++ post, by simp [htext], ?_, ?_⟩, e, he, ?_⟩
  · simp [hbody, Piece.text]
  · simp [hstart]
  · rw [htext, width_append, width_append]
    simp only
    omega

theorem exists_mem_segments {e : Excerpt} (he : e ∈ es) {x : Nat} (hl : e.start ≤ x)
    (hr : x < e.start + width e.text) (o : Nat) :
    ∃ y ∈ segments o (es.flatMap statement), y.source.start ≤ x ∧ x < y.source.stop := by
  obtain ⟨a, t, hmem, ha, ht⟩ := exists_copied_routed hl (by rwa [text_split])
  obtain ⟨l, r, hbody⟩ := List.append_of_mem (List.mem_flatMap.2 ⟨e, he, mem_statement.2 hmem⟩)
  have hne : t ≠ [] := by
    rintro rfl
    simp only [width] at ht
    omega
  refine ⟨⟨⟨o + width (texts l), o + width (texts l) + width t⟩, ⟨a, a + width t⟩⟩, ?_, ha, ht⟩
  rw [hbody, segments_append]
  exact List.mem_append_right _ (by simp [segments, hne])

/-- The map of a rendered template: copies in order that cover the expressions and nothing else. -/
structure Maps (content : String) (out : Output) (m : SourceMap) : Prop where
  mapping : out.mapping = .segments m
  follows : ∃ g, Follows g 0 m.segments
  copies : ∀ s ∈ m.segments, Copies content.toList out.code.toList s
  within : ∀ s ∈ m.segments, ∃ e ∈ expressions content,
    e.start ≤ s.source.start ∧ s.source.stop ≤ e.start + width e.text
  covers : ∀ e ∈ expressions content, ∀ x, e.start ≤ x → x < e.start + width e.text →
    ∃ s ∈ m.segments, s.source.start ≤ x ∧ x < s.source.stop

theorem stands_expressions (content : String) : Stands 0 content.toList (expressions content) :=
  stands_expressionsFrom 0 _

theorem maps_render (content : String) (scriptImport : Option String) :
    ∃ m, Maps content (render (expressions content) scriptImport) m := by
  have hst := stands_expressions content
  refine ⟨_, rfl, ⟨_, follows_body hst _⟩, fun s hs => ?_, fun s hs => ?_,
    fun e he x hl hr => exists_mem_segments he hl hr _⟩
  · simp only [← width_append] at hs
    simpa [render, texts] using (copies_of_mem_segments hst _ closing hs).1
  · simp only [← width_append] at hs
    exact (copies_of_mem_segments hst _ closing hs).2

namespace Maps

variable {content : String} {out : Output} {m : SourceMap}

/-- Exactly the offsets of expressions have a counterpart, both ends included. -/
theorem isSome_generatedAt? (h : Maps content out m) (x : Nat) :
    (m.generatedAt? x).isSome = true ↔
      ∃ e ∈ expressions content, e.start ≤ x ∧ x ≤ e.start + width e.text := by
  obtain ⟨g, hf⟩ := h.follows
  rw [hf.isSome_generatedAt? x]
  constructor
  · intro ⟨s, hs, hl, hr⟩
    obtain ⟨e, he, hel, her⟩ := h.within s hs
    exact ⟨e, he, by omega, by omega⟩
  · intro ⟨e, he, hl, hr⟩
    have hpos := width_pos ((stands_expressions content).of_mem he).1
    -- the end of an expression is the end of the segment with the byte before it
    by_cases hx : x < e.start + width e.text
    · obtain ⟨s, hs, hsl, hsr⟩ := h.covers e he x hl hx
      exact ⟨s, hs, hsl, by omega⟩
    · obtain ⟨s, hs, hsl, hsr⟩ := h.covers e he (x - 1) (by omega) (by omega)
      exact ⟨s, hs, by omega, by omega⟩

theorem le_bytes (h : Maps content out m) {x g : Nat} (hg : m.generatedAt? x = some g) :
    g ≤ bytes out.code := by
  obtain ⟨g₀, hf⟩ := h.follows
  obtain ⟨s, hp, rfl⟩ := Option.map_eq_some_iff.1 hg
  obtain ⟨hs, hcase⟩ := pick_cases hp
  have hcopy := (hf.of_mem hs).2
  have hn := hcopy.nonempty
  have hl := hcopy.length
  have hstop := (h.copies s hs).stop_le.2
  unfold bytes
  rcases hcase with hc | ⟨hc, -⟩
  · simp only [Span.contains, Bool.and_eq_true, decide_eq_true_eq] at hc
    have := hcopy.toGenerated hc.1
    omega
  · have := hcopy.toGenerated (o := x) (by omega)
    omega

/-- Inside an expression, both sides have the same byte. -/
theorem byte_eq (h : Maps content out m) {x g : Nat} (hg : m.generatedAt? x = some g) {e : Excerpt}
    (he : e ∈ expressions content) (hl : e.start ≤ x) (hr : x < e.start + width e.text) :
    byte? out.code g = byte? content x := by
  obtain ⟨g₀, hf⟩ := h.follows
  obtain ⟨s, hp, rfl⟩ := Option.map_eq_some_iff.1 hg
  obtain ⟨hs, hcase⟩ := pick_cases hp
  rcases hcase with hc | ⟨-, hnone⟩
  · simp only [Span.contains, Bool.and_eq_true, decide_eq_true_eq] at hc
    have hto := (hf.of_mem hs).2.toGenerated hc.1
    simpa using (h.copies s hs).byte_eq hc.1 hc.2 hto
  · obtain ⟨t, ht, htl, htr⟩ := h.covers e he x hl hr
    have := hnone t ht
    simp only [Span.contains, Bool.and_eq_false_iff, decide_eq_false_iff_not] at this
    omega

end Maps

end BlockLens.Template
