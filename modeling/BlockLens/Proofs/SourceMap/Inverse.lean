import BlockLens.Proofs.SourceMap
import Mathlib.Data.List.Pairwise
/-!
Lists of copies in any order. Where no two of them share an offset, neither in the generated text
nor in the source, the copy around an offset answers for it in both directions, and the way back
undoes the way there. Nothing is taken below zero on the way.
-/

set_option autoImplicit false

namespace BlockLens

def Span.Disjoint (a b : Span) : Prop := ∀ o, a.contains o = true → b.contains o = false

theorem Span.contains_iff {s : Span} {o : Nat} : s.contains o = true ↔ s.start ≤ o ∧ o < s.stop := by
  simp [Span.contains]

theorem Span.disjoint_of_le {a b : Span} (h : a.stop ≤ b.start ∨ b.stop ≤ a.start) :
    a.Disjoint b := by
  intro o ha
  rw [Span.contains_iff] at ha
  rw [Bool.eq_false_iff, ne_eq, Span.contains_iff]
  omega

instance : Std.Symm Span.Disjoint where
  symm a b h o hb := by
    cases ha : a.contains o with
    | false => rfl
    | true => rw [h o ha] at hb; contradiction

def Segment.turned (s : Segment) : Segment := ⟨s.source, s.generated⟩

theorem Segment.toSource_turned (s : Segment) : s.turned.toSource = s.toGenerated := by
  funext o
  simp [Segment.toSource, Segment.toGenerated, Segment.turned, Segment.isVerbatim,
    eq_comm (a := s.source.length)]

theorem Segment.toGenerated_turned (s : Segment) : s.turned.toGenerated = s.toSource := by
  funext o
  simp [Segment.toSource, Segment.toGenerated, Segment.turned, Segment.isVerbatim,
    eq_comm (a := s.source.length)]

namespace SourceMap

def turned (m : SourceMap) : SourceMap := ⟨m.segments.map Segment.turned⟩

theorem mem_turned {m : SourceMap} {s : Segment} : s ∈ m.turned.segments ↔ s.turned ∈ m.segments := by
  constructor
  · intro h
    obtain ⟨t, ht, rfl⟩ := List.mem_map.1 h
    exact ht
  · intro h
    exact List.mem_map.2 ⟨s.turned, h, rfl⟩

theorem pick_map_turned (range : Segment → Span) (l : List Segment) (o : Nat) :
    pick range (l.map Segment.turned) o =
      (pick (fun s => range s.turned) l o).map Segment.turned := by
  simp only [pick, List.find?_map, Option.map_or]
  rfl

theorem sourceAt?_turned (m : SourceMap) (o : Nat) : m.turned.sourceAt? o = m.generatedAt? o := by
  rw [sourceAt?, turned, pick_map_turned, Option.map_map, generatedAt?]
  exact congrArg (Option.map · _) (funext fun s => congrFun s.toSource_turned o)

theorem generatedAt?_turned (m : SourceMap) (o : Nat) : m.turned.generatedAt? o = m.sourceAt? o := by
  rw [generatedAt?, turned, pick_map_turned, Option.map_map, sourceAt?]
  exact congrArg (Option.map · _) (funext fun s => congrFun s.toGenerated_turned o)

/-- Every segment is a copy that is not empty, and no two share an offset in either text. -/
structure Scattered (m : SourceMap) : Prop where
  nonempty : ∀ s ∈ m.segments, s.generated.isEmpty = false ∧ s.source.isEmpty = false
  length : ∀ s ∈ m.segments, s.generated.length = s.source.length
  generated : m.segments.Pairwise fun s t => s.generated.Disjoint t.generated
  source : m.segments.Pairwise fun s t => s.source.Disjoint t.source

def Ordered (m : SourceMap) : Prop :=
  ∀ s ∈ m.segments, s.generated.start ≤ s.generated.stop ∧ s.source.start ≤ s.source.stop

variable {m : SourceMap}

theorem Scattered.isCopy (h : m.Scattered) {s : Segment} (hs : s ∈ m.segments) : s.IsCopy := by
  obtain ⟨hg, ho⟩ := h.nonempty s hs
  have hl := h.length s hs
  simp only [Span.isEmpty, decide_eq_false_iff_not] at hg ho
  unfold Span.length at hl
  exact ⟨by omega, by omega⟩

theorem Scattered.turned (h : m.Scattered) : m.turned.Scattered where
  nonempty _ hs := (h.nonempty _ (mem_turned.1 hs)).symm
  length _ hs := (h.length _ (mem_turned.1 hs)).symm
  generated := List.pairwise_map.2 h.source
  source := List.pairwise_map.2 h.generated

theorem Scattered.eq_of_contains (h : m.Scattered) {s t : Segment} (hs : s ∈ m.segments)
    (ht : t ∈ m.segments) {g : Nat} (hsg : s.generated.contains g = true)
    (htg : t.generated.contains g = true) : t = s := by
  by_contra hne
  have : Std.Symm fun s t : Segment => s.generated.Disjoint t.generated :=
    ⟨fun _ _ hd => symm hd⟩
  have hd : t.generated.Disjoint s.generated := h.generated.forall ht hs hne
  rw [hd g htg] at hsg
  contradiction

theorem Scattered.eq_of_stop (h : m.Scattered) {s t : Segment} (hs : s ∈ m.segments)
    (ht : t ∈ m.segments) (hst : t.generated.stop = s.generated.stop) : t = s := by
  have hsn := (h.isCopy hs).nonempty
  have htn := (h.isCopy ht).nonempty
  refine h.eq_of_contains hs ht (g := s.generated.stop - 1) ?_ ?_
  · rw [Span.contains_iff]
    omega
  · rw [Span.contains_iff]
    omega

theorem Scattered.sourceAt?_of_contains (h : m.Scattered) {s : Segment} (hs : s ∈ m.segments)
    {g : Nat} (hg : s.generated.contains g = true) :
    m.sourceAt? g = some (s.source.start + (g - s.generated.start)) := by
  have hpick : pick Segment.generated m.segments g = some s :=
    pick_of_contains hs hg fun t ht htg => h.eq_of_contains hs ht hg htg
  have hle := (Span.contains_iff.1 hg).1
  have hto := (h.isCopy hs).toSource hle
  rw [sourceAt?, hpick, Option.map_some, Option.some.injEq]
  omega

theorem Scattered.generatedAt?_of_contains (h : m.Scattered) {s : Segment} (hs : s ∈ m.segments)
    {o : Nat} (ho : s.source.contains o = true) :
    m.generatedAt? o = some (s.generated.start + (o - s.source.start)) := by
  have hturned : s.turned ∈ m.turned.segments := mem_turned.2 hs
  rw [← sourceAt?_turned]
  exact h.turned.sourceAt?_of_contains hturned ho

/-- Around an offset the way there stays in the copy, and the way back undoes it. -/
theorem Scattered.round (h : m.Scattered) {s : Segment} (hs : s ∈ m.segments) {g : Nat}
    (hg : s.generated.contains g = true) :
    ∃ o, m.sourceAt? g = some o ∧ s.source.contains o = true ∧ m.generatedAt? o = some g := by
  have hl := (h.isCopy hs).length
  obtain ⟨hle, hlt⟩ := Span.contains_iff.1 hg
  have ho : s.source.contains (s.source.start + (g - s.generated.start)) = true := by
    rw [Span.contains_iff]
    omega
  refine ⟨_, h.sourceAt?_of_contains hs hg, ho, ?_⟩
  rw [h.generatedAt?_of_contains hs ho, Option.some.injEq]
  omega

theorem Scattered.sourceAt?_of_not_contains (h : m.Scattered) {g : Nat}
    (hg : ∀ s ∈ m.segments, s.generated.contains g = false) (o : Nat) :
    m.sourceAt? g = some o ↔ ∃ s ∈ m.segments, s.generated.stop = g ∧ s.source.stop = o := by
  have hend : ∀ s ∈ m.segments, s.generated.stop = g → s.toSource g = s.source.stop := by
    intro s hs hstop
    have hcopy := h.isCopy hs
    have hn := hcopy.nonempty
    have hl := hcopy.length
    have hto := hcopy.toSource (g := g) (by omega)
    omega
  constructor
  · intro hat
    obtain ⟨s, hpick, rfl⟩ := Option.map_eq_some_iff.1 hat
    obtain ⟨hs, hc | ⟨hstop, -⟩⟩ := pick_cases hpick
    · rw [hg s hs] at hc
      contradiction
    · exact ⟨s, hs, hstop, (hend s hs hstop).symm⟩
  · rintro ⟨s, hs, hstop, rfl⟩
    have hpick : pick Segment.generated m.segments g = some s :=
      pick_of_stop hs hg hstop fun t ht htstop => h.eq_of_stop hs ht (htstop.trans hstop.symm)
    rw [sourceAt?, hpick, Option.map_some, hend s hs hstop]

/-- A difference that is refused where it would fall below zero. -/
def less? (a b : Nat) : Option Nat := if b ≤ a then some (a - b) else none

theorem less?_of_le {a b : Nat} (h : b ≤ a) : less? a b = some (a - b) := if_pos h

/-- A search with every difference taken by `less?`: the two lengths that are compared, and the way
from the start of the range. There is no result at all if one of them is refused. -/
def reckon? (here there : Segment → Span) (l : List Segment) (o : Nat) : Option (Option Nat) :=
  match pick here l o with
  | none => some none
  | some s =>
    (less? (here s).stop (here s).start).bind fun a =>
      (less? (there s).stop (there s).start).bind fun b =>
        if a = b then (less? o (here s).start).map fun d => some ((there s).start + d)
        else some (some (there s).start)

/-- The range that is picked begins at the offset or before it. -/
theorem start_le_of_pick {range : Segment → Span} {l : List Segment} {o : Nat} {s : Segment}
    (hl : ∀ t ∈ l, (range t).start ≤ (range t).stop) (h : pick range l o = some s) :
    s ∈ l ∧ (range s).start ≤ o := by
  obtain ⟨hs, hc | ⟨hstop, -⟩⟩ := pick_cases h
  · exact ⟨hs, (Span.contains_iff.1 hc).1⟩
  · exact ⟨hs, hstop ▸ hl s hs⟩

theorem Ordered.reckon?_generated (h : m.Ordered) (g : Nat) :
    reckon? Segment.generated Segment.source m.segments g = some (m.sourceAt? g) := by
  unfold reckon? sourceAt?
  cases hpick : pick Segment.generated m.segments g with
  | none => rfl
  | some s =>
    obtain ⟨hs, hle⟩ := start_le_of_pick (fun t ht => (h t ht).1) hpick
    obtain ⟨hg, ho⟩ := h s hs
    simp only [less?_of_le hg, less?_of_le ho, less?_of_le hle, Option.bind_some, Option.map_some,
      Segment.toSource, Segment.isVerbatim, Span.length]
    by_cases hl : s.generated.stop - s.generated.start = s.source.stop - s.source.start
    · simp only [hl, if_true, decide_true, Nat.add_sub_assoc hle]
    · simp only [hl, if_false, decide_false, Bool.false_eq_true]

theorem Ordered.turned (h : m.Ordered) : m.turned.Ordered :=
  fun s hs => (h s.turned (mem_turned.1 hs)).symm

theorem reckon?_map_turned (l : List Segment) (o : Nat) :
    reckon? Segment.generated Segment.source (l.map Segment.turned) o =
      reckon? Segment.source Segment.generated l o := by
  unfold reckon?
  rw [pick_map_turned]
  cases hpick : pick (fun s => s.turned.generated) l o with
  | none =>
    have hsame : pick Segment.source l o = none := hpick
    rw [hsame]
    rfl
  | some s =>
    have hsame : pick Segment.source l o = some s := hpick
    rw [hsame]
    rfl

theorem Ordered.reckon?_source (h : m.Ordered) (o : Nat) :
    reckon? Segment.source Segment.generated m.segments o = some (m.generatedAt? o) := by
  rw [← reckon?_map_turned, ← sourceAt?_turned]
  exact h.turned.reckon?_generated o

/-- Copies that share no offset can be undone in both directions; between them only the ends have
an answer. In any list of ranges that do not end before they begin, both searches come to their
answer without a difference below zero. -/
theorem lookups_invert (m : SourceMap) :
    (m.Scattered →
      (∀ s ∈ m.segments, ∀ g, s.generated.contains g = true →
        ∃ o, m.sourceAt? g = some o ∧ s.source.contains o = true ∧ m.generatedAt? o = some g) ∧
      (∀ s ∈ m.segments, ∀ o, s.source.contains o = true →
        ∃ g, m.generatedAt? o = some g ∧ s.generated.contains g = true ∧ m.sourceAt? g = some o) ∧
      (∀ g, (∀ s ∈ m.segments, s.generated.contains g = false) → ∀ o,
        m.sourceAt? g = some o ↔ ∃ s ∈ m.segments, s.generated.stop = g ∧ s.source.stop = o) ∧
      (∀ o, (∀ s ∈ m.segments, s.source.contains o = false) → ∀ g,
        m.generatedAt? o = some g ↔ ∃ s ∈ m.segments, s.source.stop = o ∧ s.generated.stop = g)) ∧
    (m.Ordered →
      (∀ g, reckon? Segment.generated Segment.source m.segments g = some (m.sourceAt? g)) ∧
      (∀ o, reckon? Segment.source Segment.generated m.segments o = some (m.generatedAt? o))) := by
  refine ⟨fun h => ⟨fun s hs g hg => h.round hs hg, fun s hs o ho => ?_,
    fun g hg => h.sourceAt?_of_not_contains hg, fun o ho g => ?_⟩,
    fun h => ⟨h.reckon?_generated, h.reckon?_source⟩⟩
  · have hturned : s.turned ∈ m.turned.segments := mem_turned.2 hs
    have hround := h.turned.round hturned ho
    simp only [sourceAt?_turned, generatedAt?_turned] at hround
    exact hround
  · have hends := h.turned.sourceAt?_of_not_contains (fun s hs => ho _ (mem_turned.1 hs)) g
    rw [sourceAt?_turned] at hends
    rw [hends]
    constructor
    · rintro ⟨s, hs, hstop⟩
      exact ⟨s.turned, mem_turned.1 hs, hstop⟩
    · rintro ⟨s, hs, hstop⟩
      exact ⟨s.turned, mem_turned.2 hs, hstop⟩

/-- Two copies out of order, which meet in the source and not in the generated text: where they
meet, the second answers, and at its end in the generated text the first answers. -/
theorem lookups_invert_meeting :
    let m : SourceMap := ⟨[⟨⟨20, 23⟩, ⟨6, 9⟩⟩, ⟨⟨0, 1⟩, ⟨5, 6⟩⟩]⟩
    m.Scattered ∧ m.Ordered ∧
      (∃ g, m.generatedAt? 6 = some g ∧ Span.contains ⟨20, 23⟩ g = true ∧ m.sourceAt? g = some 6) ∧
      m.sourceAt? 1 = some 6 ∧
      reckon? Segment.generated Segment.source m.segments 1 = some (m.sourceAt? 1) := by
  intro m
  have hscattered : m.Scattered := by
    refine ⟨by decide, by decide, ?_, ?_⟩
    · exact List.pairwise_pair.2 (Span.disjoint_of_le (by decide))
    · exact List.pairwise_pair.2 (Span.disjoint_of_le (by decide))
  have hordered : m.Ordered := by
    intro s hs
    revert s
    decide
  obtain ⟨-, hback, hends, -⟩ := (lookups_invert m).1 hscattered
  refine ⟨hscattered, hordered, ?_, ?_, ((lookups_invert m).2 hordered).1 1⟩
  · exact hback ⟨⟨20, 23⟩, ⟨6, 9⟩⟩ (by decide) 6 (by decide)
  · exact (hends 1 (by decide) 6).2 ⟨⟨⟨0, 1⟩, ⟨5, 6⟩⟩, by decide, rfl, rfl⟩

end SourceMap

end BlockLens
