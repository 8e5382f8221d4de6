import BlockLens.Proofs.Markup
import BlockLens.Proofs.Template.Render
import BlockLens.Proofs.Workspace.Session
import BlockLens.Transform.Builtin

set_option autoImplicit false

namespace BlockLens

open Text

namespace Block

def Framed (b : Block) : Prop :=
  b = Composite.fallback.block ∨ b.span.stop = b.span.start + bytes b.content

theorem Framed.stop_eq {b : Block} (h : b.Framed)
    (hb : b.isFallback = false ∨ b.kind = .template) : b.span.stop = b.span.start + bytes b.content := by
  rcases h with rfl | h
  · rcases hb with hb | hb
    · exact absurd hb (by decide)
    · exact absurd hb (by decide)
  · exact h

theorem isFallback_of_lt {b : Block} (h : b.span.start < b.span.stop) : b.isFallback = false := by
  have he : b.span.isEmpty = false := decide_eq_false (by omega)
  simp [isFallback, he]

end Block

namespace View

structure Exact (v : View) : Prop where
  back : ∀ x g, v.generatedAt? x = some g →
    v.absoluteAt? g = some x ∧ ∃ out, v.output? = some out ∧ g ≤ bytes out.code
  script : v.block.kind = .script → v.block.isFallback = false → ∀ x,
    v.generatedAt? x =
      if v.block.span.start ≤ x ∧ x ≤ v.block.span.stop then some (x - v.block.span.start) else none
  template : v.block.kind = .template → ∀ x,
    (v.generatedAt? x).isSome = true ↔ ∃ e ∈ Template.expressions v.block.content,
      v.block.span.start + e.start ≤ x ∧ x ≤ v.block.span.start + e.start + width e.text

/-- `x` lies in the content of a script, or in an expression of a template. -/
def Inside (v : View) (x : Nat) : Prop :=
  v.block.kind = .script ∧ x < v.block.span.stop ∨
    v.block.kind = .template ∧ ∃ e ∈ Template.expressions v.block.content,
      v.block.span.start + e.start ≤ x ∧ x < v.block.span.start + e.start + width e.text

def Verbatim (v : View) (text : String) : Prop :=
  ∀ x g out, v.generatedAt? x = some g → v.output? = some out → v.Inside x →
    ∃ y, byte? text x = some y ∧ byte? out.code g = some y

variable {v : View} {out : Output}

theorem touches_iff {b : Block} {x : Nat} :
    b.touches x = true ↔ b.span.start ≤ x ∧ x ≤ b.span.stop := by
  simp [Block.touches, Span.touches]

theorem of_generatedAt? {x g : Nat} (h : v.generatedAt? x = some g) :
    v.block.isFallback = false ∧ v.block.span.start ≤ x ∧ x ≤ v.block.span.stop := by
  unfold generatedAt? at h
  split at h
  · contradiction
  · next hn =>
    simp only [Bool.or_eq_true, Bool.not_eq_true', not_or, Bool.not_eq_true, Bool.not_eq_false] at hn
    exact ⟨hn.1, touches_iff.1 hn.2⟩

theorem generatedAt?_eq {x : Nat} (hv : v.output? = some out) (hf : v.block.isFallback = false)
    (hl : v.block.span.start ≤ x) (hr : x ≤ v.block.span.stop) :
    v.generatedAt? x =
      match out.mapping with
      | .identity =>
        if x - v.block.span.start ≤ bytes out.code then some (x - v.block.span.start) else none
      | .segments m => m.generatedAt? (x - v.block.span.start)
      | .unmapped => none := by
  have ht := touches_iff.2 ⟨hl, hr⟩
  unfold generatedAt?
  rw [hf, ht, hv]
  rfl

theorem generatedAt?_of_not_touches {x : Nat}
    (h : ¬ (v.block.span.start ≤ x ∧ x ≤ v.block.span.stop)) : v.generatedAt? x = none := by
  cases hg : v.generatedAt? x with
  | none => rfl
  | some g => exact absurd (of_generatedAt? hg).2 h

section Identity

variable (hv : v.output? = some out) (hm : out.mapping = .identity)
  (hc : out.code = v.block.content) (hb : v.block.Framed)

include hv hm hc hb

theorem generatedAt?_identity (hf : v.block.isFallback = false) (x : Nat) :
    v.generatedAt? x =
      if v.block.span.start ≤ x ∧ x ≤ v.block.span.stop then some (x - v.block.span.start)
      else none := by
  by_cases h : v.block.span.start ≤ x ∧ x ≤ v.block.span.stop
  · have hlen : x - v.block.span.start ≤ bytes v.block.content := by
      have := hb.stop_eq (.inl hf)
      omega
    simp only [generatedAt?_eq hv hf h.1 h.2, hm, hc, hlen, h, and_self, if_true]
  · rw [generatedAt?_of_not_touches h, if_neg h]

theorem exact_identity (hk : v.block.kind ≠ .template) : v.Exact where
  back x g h := by
    obtain ⟨hf, hl, hr⟩ := of_generatedAt? h
    rw [generatedAt?_identity hv hm hc hb hf, if_pos ⟨hl, hr⟩, Option.some.injEq] at h
    have hlen : g ≤ bytes v.block.content := by
      have := hb.stop_eq (.inl hf)
      omega
    refine ⟨?_, out, hv, by rwa [hc]⟩
    simp only [absoluteAt?, hf, hv, Option.bind_some, hm, hlen, if_true, Option.map_some,
      Bool.false_eq_true, if_false, Option.some.injEq]
    omega
  script _ hf x := generatedAt?_identity hv hm hc hb hf x
  template h := absurd h hk

theorem verbatim_identity (hk : v.block.kind ≠ .template) {text : String}
    (ht : Markup.Lies 0 text.toList v.block) : v.Verbatim text := by
  intro x g out' h hout hin
  obtain ⟨hf, hl, hr⟩ := of_generatedAt? h
  rw [generatedAt?_identity hv hm hc hb hf, if_pos ⟨hl, hr⟩, Option.some.injEq] at h
  rw [hv, Option.some.injEq] at hout
  subst hout h
  rcases hin with ⟨-, hx⟩ | ⟨hk', -⟩
  · obtain ⟨y, hy, hy'⟩ := ht.byte? hl hx
    exact ⟨y, hy, by rwa [hc]⟩
  · exact absurd hk' hk

end Identity

section Segments

variable {m : SourceMap} (hv : v.output? = some out)
  (hm : Template.Maps v.block.content out m) (hb : v.block.Framed)

include hv hm hb

theorem exact_segments (hk : v.block.kind ≠ .script) : v.Exact where
  back x g h := by
    obtain ⟨hf, hl, hr⟩ := of_generatedAt? h
    rw [generatedAt?_eq hv hf hl hr, hm.mapping] at h
    obtain ⟨g₀, hfol⟩ := hm.follows
    refine ⟨?_, out, hv, hm.le_bytes h⟩
    have hback : m.sourceAt? g = some (x - v.block.span.start) := hfol.sourceAt? h
    simp only [absoluteAt?, hf, hv, Option.bind_some, hm.mapping, hback, Option.map_some,
      Bool.false_eq_true, if_false, Option.some.injEq]
    omega
  script h := absurd h hk
  template hk x := by
    have hstop := hb.stop_eq (.inr hk)
    constructor
    · intro hsome
      obtain ⟨g, hg⟩ := Option.isSome_iff_exists.1 hsome
      obtain ⟨hf, hl, hr⟩ := of_generatedAt? hg
      rw [generatedAt?_eq hv hf hl hr, hm.mapping] at hsome
      obtain ⟨e, he, hel, her⟩ := (hm.isSome_generatedAt? _).1 hsome
      exact ⟨e, he, by omega, by omega⟩
    · intro ⟨e, he, hl, hr⟩
      obtain ⟨hne, p, q, hcontent, hstart⟩ := (Template.stands_expressions _).of_mem he
      have hpos := width_pos hne
      have hlen : bytes v.block.content = width p + width e.text + width q := by
        simp only [bytes, hcontent, width_append]
      have hf := Block.isFallback_of_lt (b := v.block) (by omega)
      rw [generatedAt?_eq hv hf (by omega) (by omega), hm.mapping]
      exact (hm.isSome_generatedAt? _).2 ⟨e, he, by omega, by omega⟩

theorem verbatim_segments (hk : v.block.kind ≠ .script) {text : String}
    (ht : Markup.Lies 0 text.toList v.block) : v.Verbatim text := by
  intro x g out' h hout hin
  obtain ⟨hf, hl, hr⟩ := of_generatedAt? h
  rw [generatedAt?_eq hv hf hl hr, hm.mapping] at h
  rw [hv, Option.some.injEq] at hout
  subst hout
  rcases hin with ⟨hk', -⟩ | ⟨hk', e, he, hel, her⟩
  · exact absurd hk' hk
  · obtain ⟨-, p, q, hcontent, hstart⟩ := (Template.stands_expressions _).of_mem he
    have hlen : bytes v.block.content = width p + width e.text + width q := by
      simp only [bytes, hcontent, width_append]
    have hstop := hb.stop_eq (.inl hf)
    obtain ⟨y, hy, hy'⟩ := ht.byte? hl (by omega)
    refine ⟨y, hy, ?_⟩
    rw [← hy']
    exact hm.byte_eq h he (by omega) (by omega)

end Segments

theorem builtin_cases {d : BlockDocument} {b : Block} {g : Option Output}
    (ht : d.transformer = Registry.builtin.get? b.kind) (hg : d.generate b = .ok g) :
    (g = none ∧ b.kind ≠ .script ∧ b.kind ≠ .template) ∨
      (∃ out, g = some out ∧ out.mapping = .identity ∧ out.code = b.content ∧ b.kind ≠ .template) ∨
      ∃ out m, g = some out ∧ Template.Maps b.content out m ∧ b.kind ≠ .script := by
  simp only [Registry.builtin, Registry.get?_register] at ht
  unfold BlockDocument.generate at hg
  split at ht
  · next htag =>
    have hk : b.kind ≠ .script := by
      intro hk
      simp [hk, Kind.tag] at htag
    simp only [ht, Template.transformer, Template.run] at hg
    split at hg
    · simp only [Except.map, Except.ok.injEq] at hg
      obtain ⟨m, hm⟩ := Template.maps_render b.content d.scriptImport
      exact .inr (.inr ⟨_, m, hg.symm, hm, hk⟩)
    · simp [Except.map] at hg
  · next hnt =>
    have hk : b.kind ≠ .template := by
      intro hk
      simp [hk, Kind.tag] at hnt
    split at ht
    · simp only [ht, Script.transformer, Script.run] at hg
      split at hg
      · simp [Except.map] at hg
      · simp only [Except.map, Except.ok.injEq] at hg
        exact .inr (.inl ⟨_, hg.symm, rfl, rfl, hk⟩)
    · next hns =>
      have hk' : b.kind ≠ .script := by
        intro hk'
        simp [hk', Kind.tag] at hns
      simp only [ht, Registry.get?, Registry.empty, Except.ok.injEq] at hg
      exact .inl ⟨hg.symm, hk', hk⟩

theorem generatedAt?_of_no_output (hv : v.output? = none) (x : Nat) : v.generatedAt? x = none := by
  simp [generatedAt?, hv]

theorem exact_ofBlock {d : BlockDocument} {b : Block} {g : Option Output}
    (ht : d.transformer = Registry.builtin.get? b.kind) (hb : b.Framed)
    (hg : d.generate b = .ok g) :
    (ofBlock d b).Exact ∧ ∀ text : String, Markup.Lies 0 text.toList b → (ofBlock d b).Verbatim text := by
  have hout : (ofBlock d b).output? = g := by simp [ofBlock, output?, hg, Except.toOption]
  rcases builtin_cases ht hg with ⟨rfl, hs, hk⟩ | ⟨out, rfl, hm, hc, hk⟩ | ⟨out, m, rfl, hm, hk⟩
  · have hnone := generatedAt?_of_no_output hout
    refine ⟨⟨fun x g h => ?_, fun h => absurd h hs, fun h => absurd h hk⟩, fun text _ x g out h => ?_⟩
    · simp [hnone] at h
    · simp [hnone] at h
  · exact ⟨exact_identity hout hm hc hb hk, fun _ hl => verbatim_identity hout hm hc hb hk hl⟩
  · exact ⟨exact_segments hout hm hb hk, fun _ hl => verbatim_segments hout hm hb hk hl⟩

end View

namespace Composite

def builtinOptions (runtime : Option String) : Options := ⟨Markup.split, .builtin, runtime⟩

theorem framed_of_mem_split {text : String} {b : Block} (h : b ∈ (Markup.split text).blocks) :
    b.Framed := by
  obtain ⟨p, q, -, -, hstop⟩ := Markup.lies_of_mem_split h
  exact .inr hstop

theorem Consistent.mem_split {runtime : Option String} {c : Composite}
    (h : Consistent (builtinOptions runtime) c) {t : String} (ht : c.parsed = some t)
    (he : c.errors = []) {s : Slot} {e : Entry} (hs : c.outline.get? s = some e) :
    e.block = fallback.block ∨ e.block ∈ (Markup.split t).blocks := by
  have hsame := Outline.map_block_get? (h.faultless t ht he) s
  rw [hs, Option.map_some] at hsame
  obtain ⟨e', he', hee⟩ := Option.map_eq_some_iff.1 hsame.symm
  rw [← hee]
  rcases mem_entries_scripted (Outline.mem_entries_of_get? he') with hm | rfl
  · obtain ⟨i, -, hi⟩ := Outline.mem_entries_ofBlocks hm
    exact .inr (List.mem_of_getElem? hi)
  · exact .inl rfl

theorem Consistent.lies {runtime : Option String} {c : Composite}
    (h : Consistent (builtinOptions runtime) c) {t : String} (ht : c.parsed = some t)
    (he : c.errors = []) {s : Slot} {e : Entry} (hs : c.outline.get? s = some e) :
    e.block = fallback.block ∨ Markup.Lies 0 t.toList e.block :=
  (h.mem_split ht he hs).imp_right Markup.lies_of_mem_split

end Composite

namespace Session

end Session

end BlockLens
