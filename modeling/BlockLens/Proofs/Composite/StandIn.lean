import BlockLens.Proofs.Composite.Eviction
import BlockLens.Proofs.Markup.Order
import BlockLens.Proofs.Outline.Slots
import BlockLens.Proofs.Workspace.Offsets
/-!
Which blocks count as stand-ins. The synthesized script is told by its shape, an empty range and a
mark in the attributes, and an author can write that shape: an empty block with the mark is in the
outline and yet is not found at its offset, maps no offset, and is lost with the next faulty parse
unless its slot is one of many. Every other written block is treated as one.
-/

set_option autoImplicit false

namespace BlockLens

open Text Outline

namespace Markup

theorem nodup_split (text : String) : (split text).blocks.Nodup := by
  have h := ordered_splitAt 0 text.toList
  refine h.apart.imp_of_mem fun ha _ hlt hab => ?_
  have hspan := (h.behind _ ha).2
  rw [← hab] at hlt
  omega

theorem eq_of_touches {text : String} {a b : Block} (ha : a ∈ (split text).blocks)
    (hb : b ∈ (split text).blocks) {x : Nat} (hax : a.touches x = true)
    (hbx : b.touches x = true) : a = b := by
  have hapart := List.pairwise_iff_getElem.1 (ordered_splitAt 0 text.toList).apart
  obtain ⟨i, hi, rfl⟩ := List.getElem_of_mem ha
  obtain ⟨j, hj, rfl⟩ := List.getElem_of_mem hb
  rw [View.touches_iff] at hax hbx
  rcases Nat.lt_trichotomy i j with hij | rfl | hji
  · have hlt : ((split text).blocks[i]).span.stop < ((split text).blocks[j]).span.start :=
      hapart i j hi hj hij
    omega
  · rfl
  · have hlt : ((split text).blocks[j]).span.stop < ((split text).blocks[i]).span.start :=
      hapart j i hj hi hji
    omega

end Markup

namespace Block

/-- Empty, with the mark of a stand-in. -/
def Marked (b : Block) : Prop := b.attrs.isSet "fallback" = true ∧ b.content = ""

instance (b : Block) : Decidable b.Marked := inferInstanceAs (Decidable (_ ∧ _))

theorem isEmpty_span_of_mem_split {text : String} {b : Block}
    (h : b ∈ (Markup.split text).blocks) : b.span.isEmpty = true ↔ b.content = "" := by
  obtain ⟨p, q, -, -, hstop⟩ := Markup.lies_of_mem_split h
  have hwidth : width b.content.toList = 0 ↔ b.content.toList = [] :=
    ⟨fun hw => List.eq_nil_of_length_eq_zero (by have := length_le_width b.content.toList; omega),
      fun hl => by rw [hl, width]⟩
  rw [Span.isEmpty, decide_eq_true_eq, hstop, ← String.toList_eq_nil_iff, ← hwidth]
  omega

theorem isFallback_iff_marked {text : String} {b : Block} (h : b ∈ (Markup.split text).blocks) :
    b.isFallback = true ↔ b.Marked := by
  rw [isFallback, Bool.and_eq_true, isEmpty_span_of_mem_split h, Marked]

theorem ne_fallback_of_mem_split {text : String} {b : Block}
    (h : b ∈ (Markup.split text).blocks) : b ≠ Composite.fallback.block := by
  rintro rfl
  have hempty := (isEmpty_span_of_mem_split h).1 rfl
  exact absurd hempty (by decide)

end Block

namespace Composite

variable {o : Options}

theorem mem_blocks_of_produced {text : String} {s : Slot} {b : Block}
    (h : produced o text s = some b) : b ∈ (o.parser text).blocks := by
  obtain ⟨e, he, rfl⟩ := Option.map_eq_some_iff.1 h
  obtain ⟨i, -, hi⟩ := mem_entries_ofBlocks (mem_entries_of_get? he)
  exact List.mem_of_getElem? hi

theorem slot_eq_of_produced {text : String} (hblocks : (o.parser text).blocks.Nodup) {s t : Slot}
    {b : Block} (hs : produced o text s = some b) (ht : produced o text t = some b) : s = t := by
  obtain ⟨e, he, heb⟩ := Option.map_eq_some_iff.1 hs
  obtain ⟨f, hf, hfb⟩ := Option.map_eq_some_iff.1 ht
  exact slot_eq_of_block_eq (nodup_entries_ofBlocks hblocks 0) he hf (heb.trans hfb.symm)

theorem Consistent.produced_of_get? {c : Composite} (h : Consistent o c) {t : String}
    (ht : c.parsed = some t) (hgood : c.errors = []) {s : Slot} {e : Entry}
    (he : c.outline.get? s = some e) (hne : e.block ≠ fallback.block) :
    produced o t s = some e.block := by
  have hsame := map_block_get? (h.faultless t ht hgood) s
  rw [he, Option.map_some, outlineOf, get?_scripted] at hsame
  split at hsame
  · exact absurd (Option.some.inj hsame) hne
  · exact hsame.symm

theorem Consistent.slotAt?_eq_some {c : Composite} (h : Consistent o c)
    (hparser : o.parser = Markup.split) {t : String} (ht : c.parsed = some t)
    (hgood : c.errors = []) {s : Slot} {e : Entry} (he : c.outline.get? s = some e)
    (hcounts : e.block.isFallback = false) {x : Nat} (hx : e.block.touches x = true) :
    c.slotAt? x = some (s, e) := by
  have hfound : ∀ {s' : Slot} {e' : Entry}, c.outline.get? s' = some e' →
      e'.block.isFallback = false → produced o t s' = some e'.block := by
    intro s' e' he' hcounts'
    refine h.produced_of_get? ht hgood he' fun heq => ?_
    rw [heq] at hcounts'
    exact absurd hcounts' (by decide)
  have hmem : ∀ p, p ∈ c.outline.documentOrder ↔ c.outline.get? p.1 = some p.2 := by
    intro p
    rw [documentOrder, List.mem_mergeSort]
    exact mem_slots
  cases hf : c.slotAt? x with
  | none =>
    have hnone := List.find?_eq_none.1 hf (s, e) ((hmem _).2 he)
    simp [hcounts, hx] at hnone
  | some p =>
    obtain ⟨s', e'⟩ := p
    have hp := List.find?_some hf
    have he' := (hmem _).1 (List.mem_of_find?_eq_some hf)
    simp only [Bool.and_eq_true, Bool.not_eq_true'] at hp
    have hb := hfound he hcounts
    have hb' := hfound he' hp.1
    have heq : e'.block = e.block := by
      have hmem' : e'.block ∈ (Markup.split t).blocks := hparser ▸ mem_blocks_of_produced hb'
      have hmem : e.block ∈ (Markup.split t).blocks := hparser ▸ mem_blocks_of_produced hb
      exact Markup.eq_of_touches hmem' hmem hp.2 hx
    obtain rfl : s' = s := by
      refine slot_eq_of_produced ?_ (heq ▸ hb') hb
      rw [hparser]
      exact Markup.nodup_split t
    rw [he, Option.some.injEq] at he'
    rw [he']

theorem not_isFallback_of_slotAt? {c : Composite} {s : Slot} {e : Entry} {x : Nat}
    (h : c.slotAt? x = some (s, e)) : e.block.isFallback = false := by
  have hp := List.find?_some h
  simp only [Bool.and_eq_true, Bool.not_eq_true'] at hp
  exact hp.1

theorem handsOn_of_latest {t : String} (hfaulty : problemsOf o t ≠ []) {ts : List String}
    {s : Slot} (hlost : produced o t s = none) {b : Block} (h : latest o (t :: ts) s = some b) :
    handsOn s b = true := by
  cases ts with
  | nil =>
    rw [latest_one, hlost] at h
    contradiction
  | cons u us =>
    rw [latest_faulty o hfaulty (List.cons_ne_nil u us), hlost, Option.none_or] at h
    exact (Option.filter_eq_some_iff.1 h).2

theorem latest_of_lastGood {ts : List String} {s : Slot} {b : Block} (hne : b ≠ fallback.block)
    (h : lastGood o ts s = some b) : latest o ts s = some b := by
  unfold lastGood at h
  split at h
  · exact absurd (Option.some.inj h).symm hne
  · exact h

theorem lastGood_of_latest {ts : List String} {s : Slot} {b : Block}
    (h : latest o ts s = some b) : lastGood o ts s = some b := by
  unfold lastGood
  split
  · next hs =>
    rw [← hs.1, h] at hs
    exact absurd hs.2.1 (by simp)
  · exact h

/-- A block that the next faulty parse loses stays if and only if it may be handed on. -/
theorem Consistent.carried_iff {c : Composite} (h : Consistent o c) {ts : List String}
    (hts : c.parsed = ts.head?) (hne : ts ≠ []) (hshows : Shows o ts c.outline) {s : Slot}
    {e : Entry} (he : c.outline.get? s = some e) (hwritten : e.block ≠ fallback.block)
    {t : String} (hfaulty : problemsOf o t ≠ []) (hlost : produced o t s = none) :
    ((Composite.refresh o t { c with dirty := true }).outline.get? s).map (·.block) = some e.block ↔
      handsOn s e.block = true := by
  have hlatest : latest o ts s = some e.block := by
    refine latest_of_lastGood hwritten ?_
    rw [← hshows s, he, Option.map_some]
  by_cases hsame : c.parsed = some t
  · have hrefresh : (Composite.refresh o t { c with dirty := true }).outline = c.outline := by
      simp [Composite.refresh, hsame]
    obtain ⟨us, rfl⟩ := List.head?_eq_some_iff.1 (hts.symm.trans hsame)
    rw [hrefresh, he]
    exact iff_of_true rfl (handsOn_of_latest hfaulty hlost hlatest)
  · have hrefresh : (Composite.refresh o t { c with dirty := true }).outline = next o t c := by
      have hr : Composite.refresh o t { c with dirty := true } =
          Composite.reparse o t { c with dirty := true } := by
        simp [Composite.refresh, hsame]
      rw [hr, outline_reparse]
      rfl
    have hnext := h.shows_next hts (fun _ => hshows) t s
    have hrule := latest_faulty o hfaulty hne s
    rw [hlost, Option.none_or, hlatest] at hrule
    rw [hrefresh, hnext]
    constructor
    · intro hstays
      have hstays := latest_of_lastGood hwritten hstays
      rw [hrule] at hstays
      exact (Option.filter_eq_some_iff.1 hstays).2
    · intro hands
      refine lastGood_of_latest ?_
      rw [hrule, Option.filter_some, if_pos hands]

end Composite

namespace Output

def codeAt? (out : Output) (n : Nat) : Option Nat :=
  match out.mapping with
  | .identity => if n ≤ bytes out.code then some n else none
  | .segments m => m.generatedAt? n
  | .unmapped => none

def contentAt? (out : Output) (content : String) (n : Nat) : Option Nat :=
  match out.mapping with
  | .identity => if n ≤ bytes content then some n else none
  | .segments m => m.sourceAt? n
  | .unmapped => none

end Output

namespace View

/-- The offsets of the block lead to the code and back as the output says. -/
structure Follows (v : View) : Prop where
  forth : ∀ x, v.block.touches x = true →
    v.generatedAt? x = v.output?.bind (·.codeAt? (x - v.block.span.start))
  back : ∀ g, v.absoluteAt? g =
    v.output?.bind fun out => (out.contentAt? v.block.content g).map (v.block.span.start + ·)

theorem follows_of_not_isFallback {v : View} (h : v.block.isFallback = false) : v.Follows where
  forth x hx := by
    rw [generatedAt?, h, hx]
    rfl
  back g := by
    rw [absoluteAt?, h]
    rfl

theorem eq_none_of_isFallback {v : View} (h : v.block.isFallback = true) :
    (∀ x, v.generatedAt? x = none) ∧ ∀ g, v.absoluteAt? g = none := by
  simp [generatedAt?, absoluteAt?, h]

end View

namespace Document

variable {o : Options}

def Found (o : Options) (e : Entry) : Prop :=
  e = Composite.fallback ∨ e.stamp ≠ .synthesized ∧ ∃ t, e.block ∈ (o.parser t).blocks

theorem keeps_found (o : Options) :
    Action.Keeps o fun d => d.composite.Consistent o ∧ ∀ e ∈ d.composite.outline.entries, Found o e := by
  refine keeps_outline (P := fun d => ∀ e ∈ d.entries, Found o e) fun c text hc h e he => ?_
  rcases hc.mem_entries_next he with ⟨i, hstamp, hb⟩ | rfl | he
  · exact .inr ⟨by simp [hstamp], text, List.mem_of_getElem? hb⟩
  · exact .inl rfl
  · exact h e he

def retold (d : Document) (src : Source) : Document := { d with source := src }.markDirty

/-- In every state of every document, a block passes for the synthesized script if it is that
script, or is empty and marked like it. A written block is found at each of its offsets while there
is no problem, maps its offsets, and outlasts a faulty parse that loses it, exactly if it is not
such a one; only in a slot among others of its kind it is not lost even then. -/
theorem written_iff_not_marked (hparser : o.parser = Markup.split) (file text : String)
    (version : Int) (ms : List Move) {s : Slot} {e : Entry}
    (he : (((ofText file text version).run o ms).refresh o).composite.outline.get? s = some e) :
    let d := ((ofText file text version).run o ms).refresh o
    let c := d.composite
    (e.block.isFallback = true ↔ e.stamp = .synthesized ∨ e.block.Marked) ∧
    (e.stamp ≠ .synthesized →
      (c.errors = [] →
        ((∀ x, e.block.touches x = true → c.slotAt? x = some (s, e)) ↔ ¬ e.block.Marked)) ∧
      (∀ v : View, v.block = e.block →
        (¬ e.block.Marked → v.Follows) ∧
        (e.block.Marked → (∀ x, v.generatedAt? x = none) ∧ ∀ g, v.absoluteAt? g = none)) ∧
      ∀ src : Source, Composite.problemsOf o src.text ≠ [] →
        Composite.produced o src.text s = none →
        ((((d.retold src).refresh o).composite.outline.get? s).map (·.block) = some e.block ↔
          s.kind.repeats = true ∨ ¬ e.block.Marked)) := by
  intro d c
  obtain ⟨r, htraced⟩ : ∃ r, Traced o r d :=
    ⟨_, ((traced_ofText o file text version).run ms).refresh⟩
  have hc : c.Consistent o := htraced.consistent
  have hfound : Found o e := by
    have h₀ : (ofText file text version).composite.Consistent o ∧
        ∀ e ∈ (ofText file text version).composite.outline.entries, Found o e :=
      ⟨Composite.consistent_new o file, by simp [ofText, entries]⟩
    have hrun := (keeps_found o).moves (fun _ _ h => h) h₀ ms
    exact ((keeps_found o).refresh _ hrun).2 e (mem_entries_of_get? he)
  rcases hfound with rfl | ⟨hstamp, t, ht⟩
  · exact ⟨iff_of_true rfl (.inl rfl), fun h => absurd rfl h⟩
  · rw [hparser] at ht
    have hmark := Block.isFallback_iff_marked ht
    have hcounts : e.block.isFallback = false ↔ ¬ e.block.Marked := by
      rw [← hmark, Bool.not_eq_true]
    obtain ⟨u, hu⟩ := Option.isSome_iff_exists.1 (hc.isSome_parsed (Composite.dirty_refresh _ _))
    refine ⟨by simp [hmark, hstamp], fun _ => ⟨fun hgood => ?_, fun v hv => ?_, ?_⟩⟩
    · rw [← hcounts]
      constructor
      · intro h
        obtain ⟨p, q, -, -, hstop⟩ := Markup.lies_of_mem_split ht
        have hstart := h e.block.span.start (View.touches_iff.2 ⟨Nat.le_refl _, by omega⟩)
        exact Composite.not_isFallback_of_slotAt? hstart
      · intro h x hx
        exact hc.slotAt?_eq_some hparser hu hgood he h hx
    · rw [← hcounts, ← hmark, ← hv]
      exact ⟨View.follows_of_not_isFallback, View.eq_none_of_isFallback⟩
    · intro src hfaulty hlost
      have hne : r.texts ≠ [] := by
        intro hnil
        have hparsed := hu.symm.trans htraced.parsed
        rw [hnil] at hparsed
        contradiction
      have hcarried := hc.carried_iff htraced.parsed hne (htraced.shows hne) he
        (Block.ne_fallback_of_mem_split ht) hfaulty hlost
      rw [handsOn, Bool.or_eq_true, Bool.not_eq_true'] at hcarried
      rw [← hcounts]
      exact hcarried

/-- An empty script with the mark is in the outline, and is neither found nor kept. -/
theorem written_iff_not_marked_script :
    let o : Options := ⟨Markup.split, .empty, none⟩
    let d := (ofText "a.vue" "<script fallback></script>" 1).refresh o
    let e : Entry :=
      ⟨.parsed 0 0, ⟨.script, none, .ofList [("fallback", "true")], ⟨17, 17⟩, ""⟩⟩
    d.composite.outline.get? .script = some e ∧ e.block.isFallback = true ∧
      ¬ (∀ x, e.block.touches x = true → d.composite.slotAt? x = some (.script, e)) ∧
      ¬ ((((d.retold ⟨"<style>", 2⟩).refresh o).composite.outline.get? .script).map (·.block) =
        some e.block) := by
  intro o d e
  have he : d.composite.outline.get? .script = some e := by decide +kernel
  have hmarked : e.block.Marked := by decide +kernel
  have hgood : d.composite.errors = [] := by decide +kernel
  have hfaulty : Composite.problemsOf o "<style>" ≠ [] := by decide +kernel
  have hlost : Composite.produced o "<style>" .script = none := by decide +kernel
  obtain ⟨hfallback, hwritten⟩ :=
    written_iff_not_marked (o := o) rfl "a.vue" "<script fallback></script>" 1 [] he
  obtain ⟨hfound, -, hcarried⟩ := hwritten (by decide)
  refine ⟨he, hfallback.2 (.inr hmarked), fun h => (hfound hgood).1 h hmarked, fun h => ?_⟩
  rcases (hcarried ⟨"<style>", 2⟩ hfaulty hlost).1 h with hrepeats | hn
  · exact absurd hrepeats (by decide)
  · exact hn hmarked

end Document

end BlockLens
