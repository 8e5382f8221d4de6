import BlockLens.Transform.SourceMap
/-!
Lists of copied stretches in order, and why a search through them can be undone. Two stretches may
meet in the generated text only where they also meet in the source; otherwise the offset between
them would be claimed by the second in one direction and by the first in the other.
-/

set_option autoImplicit false

namespace BlockLens

namespace Segment

structure IsCopy (s : Segment) : Prop where
  nonempty : s.generated.start < s.generated.stop
  length : s.source.stop + s.generated.start = s.source.start + s.generated.stop

structure Behind (g a : Nat) (s : Segment) : Prop where
  generated : g ≤ s.generated.start
  source : a ≤ s.source.start
  meets : g = s.generated.start → a = s.source.start

theorem Behind.of_lt {g a g' a' : Nat} {s : Segment} (h : s.Behind g' a') (hg : g < g')
    (ha : a ≤ a') : s.Behind g a where
  generated := by have := h.generated; omega
  source := by have := h.source; omega
  meets := by have := h.generated; omega

theorem IsCopy.isVerbatim {s : Segment} (h : s.IsCopy) : s.isVerbatim = true := by
  have hn := h.nonempty
  have hl := h.length
  refine decide_eq_true ?_
  unfold Span.length
  omega

theorem IsCopy.toSource {s : Segment} (h : s.IsCopy) {g : Nat} (hg : s.generated.start ≤ g) :
    s.toSource g + s.generated.start = s.source.start + g := by
  simp only [Segment.toSource, h.isVerbatim, if_true]
  omega

theorem IsCopy.toGenerated {s : Segment} (h : s.IsCopy) {o : Nat} (ho : s.source.start ≤ o) :
    s.toGenerated o + s.source.start = s.generated.start + o := by
  simp only [Segment.toGenerated, h.isVerbatim, if_true]
  omega

end Segment

namespace SourceMap

open Segment

/-- Copies in order, the first behind `g` and `a`. -/
def Follows (g a : Nat) : List Segment → Prop
  | [] => True
  | s :: l => s.Behind g a ∧ s.IsCopy ∧ Follows s.generated.stop s.source.stop l

variable {g a : Nat} {l : List Segment}

theorem Follows.of_lt {g' a' : Nat} (h : Follows g' a' l) (hg : g < g') (ha : a ≤ a') :
    Follows g a l := by
  cases l with
  | nil => trivial
  | cons s l => exact ⟨h.1.of_lt hg ha, h.2⟩

theorem Follows.of_mem (h : Follows g a l) {s : Segment} (hs : s ∈ l) : s.Behind g a ∧ s.IsCopy := by
  induction l generalizing g a with
  | nil => simp at hs
  | cons t l ih =>
    obtain ⟨hb, hc, hl⟩ := h
    rcases List.mem_cons.1 hs with rfl | hs
    · exact ⟨hb, hc⟩
    · obtain ⟨hb', hc'⟩ := ih hl hs
      have hn := hc.nonempty
      have hlen := hc.length
      have h₁ := hb.generated
      have h₂ := hb.source
      exact ⟨hb'.of_lt (by omega) (by omega), hc'⟩

/-- Of two members, one is behind the other. -/
theorem Follows.eq_or_behind (h : Follows g a l) {s t : Segment} (hs : s ∈ l) (ht : t ∈ l) :
    s = t ∨ t.Behind s.generated.stop s.source.stop ∨ s.Behind t.generated.stop t.source.stop := by
  induction l generalizing g a with
  | nil => simp at hs
  | cons u l ih =>
    obtain ⟨-, -, hl⟩ := h
    rcases List.mem_cons.1 hs with rfl | hs'
    · rcases List.mem_cons.1 ht with rfl | ht'
      · exact .inl rfl
      · exact .inr (.inl (hl.of_mem ht').1)
    · rcases List.mem_cons.1 ht with rfl | ht'
      · exact .inr (.inr (hl.of_mem hs').1)
      · exact ih hl hs' ht'

theorem pick_cases {range : Segment → Span} {o : Nat} {s : Segment} (h : pick range l o = some s) :
    s ∈ l ∧ ((range s).contains o = true ∨
      (range s).stop = o ∧ ∀ t ∈ l, (range t).contains o = false) := by
  unfold pick at h
  rcases Option.or_eq_some_iff.1 h with h | ⟨hn, h⟩
  · have hc := List.find?_some h
    exact ⟨List.mem_of_find?_eq_some h, .inl hc⟩
  · refine ⟨List.mem_of_find?_eq_some h, .inr ⟨?_, fun t ht => ?_⟩⟩
    · simpa using List.find?_some h
    · simpa using List.find?_eq_none.1 hn t ht

theorem pick_of_contains {range : Segment → Span} {o : Nat} {s : Segment} (hs : s ∈ l)
    (hc : (range s).contains o = true)
    (hu : ∀ t ∈ l, (range t).contains o = true → t = s) : pick range l o = some s := by
  have hf : l.find? (fun t => (range t).contains o) = some s := by
    cases hf : l.find? (fun t => (range t).contains o) with
    | none => exact absurd hc (List.find?_eq_none.1 hf s hs)
    | some t =>
      have ht := List.find?_some hf
      rw [hu t (List.mem_of_find?_eq_some hf) ht]
  rw [pick, hf]
  rfl

theorem pick_of_stop {range : Segment → Span} {o : Nat} {s : Segment} (hs : s ∈ l)
    (hc : ∀ t ∈ l, (range t).contains o = false) (ho : (range s).stop = o)
    (hu : ∀ t ∈ l, (range t).stop = o → t = s) : pick range l o = some s := by
  have hn : l.find? (fun t => (range t).contains o) = none :=
    List.find?_eq_none.2 fun t ht => by simp [hc t ht]
  have hf : l.find? (fun t => (range t).stop == o) = some s := by
    cases hf : l.find? (fun t => (range t).stop == o) with
    | none => exact absurd (by simpa using ho) (List.find?_eq_none.1 hf s hs)
    | some t =>
      have ht := List.find?_some hf
      rw [hu t (List.mem_of_find?_eq_some hf) (by simpa using ht)]
  rw [pick, hn, hf]
  rfl

theorem Follows.eq_of_contains (h : Follows g a l) {s t : Segment} {i : Nat} (hs : s ∈ l) (ht : t ∈ l)
    (hsi : s.generated.contains i = true) (hti : t.generated.contains i = true) : t = s := by
  simp only [Span.contains, Bool.and_eq_true, decide_eq_true_eq] at hsi hti
  rcases h.eq_or_behind hs ht with rfl | hb | hb
  · rfl
  · have := hb.generated
    omega
  · have := hb.generated
    omega

theorem Follows.eq_of_stop (h : Follows g a l) {s t : Segment} {i : Nat} (hs : s ∈ l) (ht : t ∈ l)
    (hsi : s.generated.stop = i) (hti : t.generated.stop = i) : t = s := by
  have hsn := (h.of_mem hs).2.nonempty
  have htn := (h.of_mem ht).2.nonempty
  rcases h.eq_or_behind hs ht with rfl | hb | hb
  · rfl
  · have := hb.generated
    omega
  · have := hb.generated
    omega

theorem Follows.sourceAt? (h : Follows g a l) {o i : Nat} (hi : generatedAt? ⟨l⟩ o = some i) :
    sourceAt? ⟨l⟩ i = some o := by
  obtain ⟨s, hp, rfl⟩ := Option.map_eq_some_iff.1 hi
  obtain ⟨hs, hcase⟩ := pick_cases hp
  have hcopy := (h.of_mem hs).2
  have hn := hcopy.nonempty
  have hl := hcopy.length
  suffices hback : pick Segment.generated l (s.toGenerated o) = some s ∧ s.source.start ≤ o by
    have hto := hcopy.toGenerated hback.2
    have hback' := hcopy.toSource (g := s.toGenerated o) (by omega)
    rw [SourceMap.sourceAt?, hback.1, Option.map_some, Option.some.injEq]
    omega
  rcases hcase with hc | ⟨hstop, hnone⟩
  · simp only [Span.contains, Bool.and_eq_true, decide_eq_true_eq] at hc
    have hto := hcopy.toGenerated hc.1
    have hsi : s.generated.contains (s.toGenerated o) = true := by
      simp only [Span.contains, Bool.and_eq_true, decide_eq_true_eq]
      omega
    exact ⟨pick_of_contains hs hsi fun t ht => h.eq_of_contains hs ht hsi, hc.1⟩
  · have hto := hcopy.toGenerated (o := o) (by omega)
    have hsi : s.generated.stop = s.toGenerated o := by omega
    refine ⟨pick_of_stop hs (fun t ht => ?_) hsi fun t ht => h.eq_of_stop hs ht hsi, by omega⟩
    -- a copy that begins there would begin at `o` too, and so contain it
    have htn := (h.of_mem ht).2.nonempty
    have htl := (h.of_mem ht).2.length
    have hno := hnone t ht
    simp only [Span.contains, Bool.and_eq_false_iff, decide_eq_false_iff_not] at hno ⊢
    rcases h.eq_or_behind hs ht with rfl | hb | hb
    · omega
    · have := hb.generated
      by_cases hmeet : s.generated.stop = t.generated.start
      · have := hb.meets hmeet
        omega
      · omega
    · have := hb.generated
      omega

/-- An offset that a copied range reaches goes where that range says. Behind its end another may
begin, and is asked first, but then both say the same. -/
theorem Follows.sourceAt?_of_reaches (h : Follows g a l) {s : Segment} (hs : s ∈ l) {i : Nat}
    (hl : s.generated.start ≤ i) (hr : i ≤ s.generated.stop) :
    SourceMap.sourceAt? ⟨l⟩ i = some (s.source.start + (i - s.generated.start)) := by
  have found : ∀ {t : Segment}, pick Segment.generated l i = some t → t ∈ l →
      t.generated.start ≤ i →
      t.source.start + (i - t.generated.start) = s.source.start + (i - s.generated.start) →
      SourceMap.sourceAt? ⟨l⟩ i = some (s.source.start + (i - s.generated.start)) := by
    intro t hp ht hti heq
    have hto := (h.of_mem ht).2.toSource hti
    rw [SourceMap.sourceAt?, hp, Option.map_some, Option.some.injEq]
    omega
  have hcopy := (h.of_mem hs).2
  have hn := hcopy.nonempty
  have hlen := hcopy.length
  by_cases hc : ∃ t ∈ l, t.generated.contains i = true
  · obtain ⟨t, ht, htc⟩ := hc
    have hpick : pick Segment.generated l i = some t :=
      pick_of_contains ht htc fun u hu => h.eq_of_contains ht hu htc
    simp only [Span.contains, Bool.and_eq_true, decide_eq_true_eq] at htc
    refine found hpick ht htc.1 ?_
    rcases h.eq_or_behind hs ht with rfl | hb | hb
    · rfl
    · have := hb.generated
      have := hb.meets (by omega)
      omega
    · have := hb.generated
      omega
  · have hnone : ∀ t ∈ l, t.generated.contains i = false := by
      intro t ht
      cases htc : t.generated.contains i with
      | false => rfl
      | true => exact absurd ⟨t, ht, htc⟩ hc
    have hstop : s.generated.stop = i := by
      have := hnone s hs
      simp only [Span.contains, Bool.and_eq_false_iff, decide_eq_false_iff_not] at this
      omega
    exact found (pick_of_stop hs hnone hstop fun t ht => h.eq_of_stop hs ht hstop) hs hl rfl

theorem Follows.isSome_generatedAt? (h : Follows g a l) (o : Nat) :
    (generatedAt? ⟨l⟩ o).isSome = true ↔ ∃ s ∈ l, s.source.start ≤ o ∧ o ≤ s.source.stop := by
  constructor
  · intro hsome
    obtain ⟨i, hi⟩ := Option.isSome_iff_exists.1 hsome
    obtain ⟨s, hp, -⟩ := Option.map_eq_some_iff.1 hi
    obtain ⟨hs, hcase⟩ := pick_cases hp
    have hn := (h.of_mem hs).2.nonempty
    have hl := (h.of_mem hs).2.length
    refine ⟨s, hs, ?_⟩
    rcases hcase with hc | ⟨hstop, -⟩
    · simp only [Span.contains, Bool.and_eq_true, decide_eq_true_eq] at hc
      omega
    · omega
  · rintro ⟨s, hs, hle, hge⟩
    rw [SourceMap.generatedAt?, Option.isSome_map]
    simp only [pick, Option.isSome_or, List.find?_isSome, Bool.or_eq_true]
    by_cases ho : o = s.source.stop
    · exact .inr ⟨s, hs, by simpa using ho.symm⟩
    · exact .inl ⟨s, hs, by simp only [Span.contains, Bool.and_eq_true, decide_eq_true_eq]; omega⟩

end SourceMap

end BlockLens
