import BlockLens.Document.BlockDocument
import BlockLens.Proofs.Template.Faithful
import Mathlib.Data.List.Forall2
/-!
The regions of a rendered template. The zones and the body follow each other and cover the code;
what was copied lies well inside the body. The table has a row for each name that the template
uses, in which key and target are two places with the same name, and no two rows touch.
-/

set_option autoImplicit false

namespace BlockLens.Template

open Text SourceMap

theorem texts_ne_nil_of_copied {es : List Excerpt} {l r : List Piece} {a : Nat} {t : List Char}
    (h : es.flatMap statement = l ++ .copied a t :: r) : texts r ≠ [] := by
  have hlast : (es.flatMap statement).getLast? = some (.made ");\n".toList) := by
    rcases List.eq_nil_or_concat es with rfl | ⟨init, e, rfl⟩
    · simp at h
    · rw [List.concat_eq_append, List.flatMap_append, List.flatMap_singleton, statement,
        ← List.append_assoc, List.getLast?_concat]
  rw [h] at hlast
  rcases List.eq_nil_or_concat r with rfl | ⟨init, p, rfl⟩
  · simp at hlast
  · rw [List.concat_eq_append, ← List.cons_append, ← List.append_assoc, List.getLast?_concat,
      Option.some.injEq] at hlast
    simp [hlast, Piece.text]

/-- No zone reaches into a copied stretch. -/
theorem contains_zone_of_mem_segments {content : String} {scriptImport : Option String}
    {m : SourceMap} (hm : (render (expressions content) scriptImport).mapping = .segments m)
    {s : Segment} (hs : s ∈ m.segments) {i : Nat} (hl : s.generated.start ≤ i)
    (hr : i ≤ s.generated.stop) {z : Zone} (hz : z ∈ (render (expressions content) scriptImport).zones) :
    z.span.contains i = false := by
  simp only [render, Mapping.segments.injEq] at hm
  subst hm
  obtain ⟨l, a, t, r, hbody, -, rfl⟩ := mem_segments hs
  have hend := width_pos (texts_ne_nil_of_copied hbody)
  have hwidth : width ((expressions content).flatMap statement |>.flatMap Piece.text) =
      width (texts l) + width t + width (texts r) := by
    rw [hbody]
    simp [texts, Piece.text, Nat.add_assoc]
  simp only [render, List.mem_cons, List.not_mem_nil, or_false] at hz
  simp only [Span.contains, Bool.and_eq_false_iff, decide_eq_false_iff_not] at hl hr ⊢
  rcases hz with rfl | rfl | rfl | rfl
  · simp only
    omega
  · simp only
    omega
  · simp only
    omega
  · simp only
    omega

theorem exists_reached {m : SourceMap} {g a : Nat} (hf : Follows g a m.segments) {i x : Nat}
    (h : m.sourceAt? i = some x) :
    ∃ s ∈ m.segments, s.generated.start ≤ i ∧ i ≤ s.generated.stop := by
  obtain ⟨s, hp, -⟩ := Option.map_eq_some_iff.1 h
  obtain ⟨hs, hcase⟩ := pick_cases hp
  have hn := (hf.of_mem hs).2.nonempty
  refine ⟨s, hs, ?_⟩
  rcases hcase with hc | ⟨hstop, -⟩
  · simp only [Span.contains, Bool.and_eq_true, decide_eq_true_eq] at hc
    omega
  · omega

def freeNames (es : List Excerpt) : List (List Char) :=
  es.flatMap fun e => (identifiers (.ofList e.text)).map (·.text)

theorem map_text_place (o : Nat) (names : List (List Char × List Char)) :
    (place o names).map (·.text) = names.map (·.2) := by
  induction names generalizing o with
  | nil => rfl
  | cons n names ih => simp [place, ih]

theorem usedNames_eq (es : List Excerpt) : usedNames es = (freeNames es).eraseDups := by
  simp [usedNames, freeNames, identifiers, map_text_place]

structure Distinct (used names : List (List Char)) : Prop where
  nodup : names.Nodup
  mem : ∀ n, n ∈ names ↔ n ∈ used
  order : names.Pairwise fun a b => used.idxOf a < used.idxOf b

theorem idxOf_lt_of_filter {p : List Char → Bool} {l : List (List Char)} {x y : List Char}
    (hx : p x = true) (hy : p y = true) (h : (l.filter p).idxOf x < (l.filter p).idxOf y) :
    l.idxOf x < l.idxOf y := by
  induction l with
  | nil => exact h
  | cons c l ih =>
    by_cases hc : p c = true
    · rw [List.filter_cons_of_pos hc] at h
      grind
    · have hcx : c ≠ x := fun e => hc (e ▸ hx)
      have hcy : c ≠ y := fun e => hc (e ▸ hy)
      rw [List.filter_cons_of_neg hc] at h
      grind

theorem distinct_eraseDups (l : List (List Char)) : Distinct l l.eraseDups := by
  induction hn : l.length using Nat.strongRecOn generalizing l with
  | ind n ih =>
    cases l with
    | nil => exact ⟨by simp, by simp, by simp⟩
    | cons a l =>
      have hlen := List.length_filter_le (fun b => !b == a) l
      simp only [List.length_cons] at hn
      obtain ⟨hnodup, hmem, horder⟩ := ih _ (by omega) (l.filter fun b => !b == a) rfl
      have hrest : ∀ x ∈ (l.filter fun b => !b == a).eraseDups, x ≠ a := by
        intro x hx
        simpa using (List.mem_filter.1 ((hmem x).1 hx)).2
      rw [List.eraseDups_cons]
      refine ⟨List.nodup_cons.2 ⟨fun ha => hrest a ha rfl, hnodup⟩, fun x => ?_,
        List.pairwise_cons.2 ⟨fun x hx => ?_, ?_⟩⟩
      · simp only [List.mem_cons, hmem, List.mem_filter]
        by_cases hx : x = a
        · simp [hx]
        · simp [hx]
      · have hxa := hrest x hx
        grind
      · refine horder.imp_of_mem fun {x y} hx hy hlt => ?_
        have hxa := hrest x hx
        have hya := hrest y hy
        have := idxOf_lt_of_filter (by simpa using hxa) (by simpa using hya) hlt
        grind

/-- Key and target are places of the name, the target as a member of the component. -/
structure Binds (code : List Char) (b : Binding) (name : List Char) : Prop where
  key : ∃ u v, code = u ++ name ++ v ∧ b.key = ⟨width u, width u + width name⟩
  target : ∃ u v, code = u ++ "__ctx.".toList ++ name ++ v ∧ b.target = width (u ++ "__ctx.".toList)

theorem binds_tableBindings (names : List (List Char)) (u v : List Char) :
    List.Forall₂ (Binds (u ++ names.flatMap row ++ v)) (tableBindings (width u) names) names := by
  induction names generalizing u with
  | nil => exact .nil
  | cons n names ih =>
    have hnext := ih (u ++ row n)
    rw [width_append] at hnext
    refine .cons ⟨⟨u ++ "  ".toList, ": __ctx.".toList ++ n ++ ",\n".toList ++ names.flatMap row ++ v, ?_, ?_⟩,
      ⟨u ++ "  ".toList ++ n ++ ": ".toList, ",\n".toList ++ names.flatMap row ++ v, ?_, ?_⟩⟩ ?_
    · simp [row]
    · simp [width, Char.utf8Size]
    · simp [row]
    · simp [width, Char.utf8Size]
      omega
    · simpa [List.append_assoc] using hnext

structure Between (o e : Nat) (b : Binding) : Prop where
  start : o < b.key.start
  key : b.key.start ≤ b.key.stop
  target : b.key.stop < b.target
  stop : b.target < e

theorem Between.mono {o e o' e' : Nat} {b : Binding} (h : Between o e b) (ho : o' ≤ o) (he : e ≤ e') :
    Between o' e' b where
  start := by have := h.start; omega
  key := h.key
  target := h.target
  stop := by have := h.stop; omega

theorem width_row (n : List Char) : width (row n) = 2 + width n + 8 + width n + 2 := by
  simp [row, width, Char.utf8Size]
  omega

theorem between_tableBindings {o : Nat} {names : List (List Char)} {b : Binding}
    (hb : b ∈ tableBindings o names) : Between o (o + width (names.flatMap row)) b := by
  induction names generalizing o with
  | nil => simp [tableBindings] at hb
  | cons n names ih =>
    have hw := width_row n
    rw [List.flatMap_cons, width_append]
    rcases List.mem_cons.1 hb with rfl | hb
    · exact ⟨by simp only; omega, by simp only; omega, by simp only; omega, by simp only; omega⟩
    · exact (ih hb).mono (by omega) (by omega)

/-- A row ends before the key of the next. -/
theorem pairwise_tableBindings (o : Nat) (names : List (List Char)) :
    (tableBindings o names).Pairwise fun x y => x.target < y.key.start := by
  induction names generalizing o with
  | nil => exact .nil
  | cons n names ih =>
    refine List.pairwise_cons.2 ⟨fun b hb => ?_, ih _⟩
    have hw := width_row n
    have := (between_tableBindings hb).start
    simp only
    omega

structure Rows (bs : List Binding) : Prop where
  order : bs.Pairwise fun x y => x.target < y.key.start
  key : ∀ b ∈ bs, b.key.start ≤ b.key.stop ∧ b.key.stop < b.target

namespace Rows

variable {bs : List Binding} {b c : Binding}

theorem eq_or_before (h : Rows bs) (hb : b ∈ bs) (hc : c ∈ bs) :
    b = c ∨ b.target < c.key.start ∨ c.target < b.key.start := by
  induction bs with
  | nil => simp at hb
  | cons d bs ih =>
    obtain ⟨hd, hrest⟩ := List.pairwise_cons.1 h.order
    rcases List.mem_cons.1 hb with rfl | hb'
    · rcases List.mem_cons.1 hc with rfl | hc'
      · exact .inl rfl
      · exact .inr (.inl (hd c hc'))
    · rcases List.mem_cons.1 hc with rfl | hc'
      · exact .inr (.inr (hd b hb'))
      · exact ih ⟨hrest, fun x hx => h.key x (List.mem_cons_of_mem _ hx)⟩ hb' hc'

/-- A key is found from each of its offsets, both ends included. -/
theorem find?_touches (h : Rows bs) (hb : b ∈ bs) {g : Nat} (hg : b.key.touches g = true) :
    bs.find? (fun x => x.key.touches g) = some b := by
  cases hf : bs.find? fun x => x.key.touches g with
  | none => exact absurd hg (List.find?_eq_none.1 hf b hb)
  | some c =>
    have hc := List.mem_of_find?_eq_some hf
    have hcg := List.find?_some hf
    have hkb := h.key b hb
    have hkc := h.key c hc
    simp only [Span.touches, Bool.and_eq_true, decide_eq_true_eq] at hg hcg
    rcases h.eq_or_before hb hc with rfl | hlt | hlt
    · rfl
    · omega
    · omega

theorem touches_target (h : Rows bs) (hb : b ∈ bs) (hc : c ∈ bs) :
    c.key.touches b.target = false := by
  have hkb := h.key b hb
  have hkc := h.key c hc
  simp only [Span.touches, Bool.and_eq_false_iff, decide_eq_false_iff_not]
  rcases h.eq_or_before hb hc with rfl | hlt | hlt
  · omega
  · omega
  · omega

end Rows

def body (content : String) : List Char :=
  (expressions content).flatMap fun e => "  (".toList ++ woven e ++ ");\n".toList

/-- The zones in order, and where the body stands between the last two of them. -/
def Tiled (content : String) (out : Output) : Prop :=
  ∃ a b c d, out.zones = [⟨.ignored, ⟨0, a⟩⟩, ⟨.templateGlobals, ⟨a, b⟩⟩, ⟨.ignored, ⟨b, c⟩⟩,
      ⟨.ignored, ⟨d, bytes out.code⟩⟩] ∧
    0 < a ∧ a < b ∧ b < c ∧ d < bytes out.code ∧
    ∃ u v, out.code.toList = u ++ body content ++ v ∧ width u = c ∧ c + width (body content) = d

theorem toList_ne_nil {s : String} (h : s ≠ "") : s.toList ≠ [] :=
  fun hs => h (String.toList_eq_nil_iff.1 hs)

theorem tiled_render (content : String) (scriptImport : Option String) :
    Tiled content (render (expressions content) scriptImport) := by
  have hbody : ((expressions content).flatMap statement).flatMap Piece.text = body content :=
    texts_flatMap_statement _
  have hheader : header scriptImport ≠ [] :=
    List.append_ne_nil_of_right_ne_nil _ (toList_ne_nil (by simp))
  have htable : tableText (usedNames (expressions content)) ≠ [] :=
    List.append_ne_nil_of_right_ne_nil _ (toList_ne_nil (by simp))
  have hopening : opening ≠ [] := toList_ne_nil (by simp)
  have hclosing : closing ≠ [] := toList_ne_nil (by simp)
  simp only [Tiled, render, hbody]
  -- the texts themselves are of no account
  generalize header scriptImport = h, tableText _ = t, opening = o, body content = b,
    closing = c at hheader htable hopening hclosing ⊢
  have := width_pos hheader
  have := width_pos htable
  have := width_pos hopening
  have := width_pos hclosing
  have hbytes : bytes (.ofList (h ++ t ++ o ++ b ++ c)) =
      width h + width t + width o + width b + width c := by
    simp only [bytes, String.toList_ofList, width_append]
  refine ⟨_, _, _, _, by rw [hbytes], by omega, by omega, by omega, by omega, h ++ t ++ o, c, ?_⟩
  simp only [String.toList_ofList, width_append, and_self]

structure Separate (content : String) (out : Output) (m : SourceMap) (names : List (List Char)) :
    Prop where
  mapping : out.mapping = .segments m
  tiled : Tiled content out
  unmapped : ∀ g x, m.sourceAt? g = some x → ∀ z ∈ out.zones, z.span.contains g = false
  distinct : Distinct (freeNames (expressions content)) names
  binds : List.Forall₂ (Binds out.code.toList) out.bindings names
  keys : out.bindings.Pairwise fun x y => x.key.stop < y.key.start
  inside : ∀ x ∈ out.bindings, ∀ z ∈ out.zones, z.kind = .templateGlobals →
    z.span.start ≤ x.key.start ∧ x.key.stop ≤ z.span.stop ∧ z.span.contains x.target = true
  found : ∀ x ∈ out.bindings, ∀ g, x.key.touches g = true →
    ∀ v : View, v.output? = some out → v.bindingTarget? g = some x.target
  missed : ∀ x ∈ out.bindings, ∀ y ∈ out.bindings, y.key.touches x.target = false

def tableHead : List Char := "const ".toList ++ table ++ " = \x7b\n".toList

def tableFoot : List Char := "\x7d;\n".toList

theorem tableText_eq (names : List (List Char)) :
    tableText names = tableHead ++ names.flatMap row ++ tableFoot := rfl

theorem rows_tableBindings (o : Nat) (names : List (List Char)) : Rows (tableBindings o names) where
  order := pairwise_tableBindings o names
  key _ hb := ⟨(between_tableBindings hb).key, (between_tableBindings hb).target⟩

theorem bindings_render (es : List Excerpt) (scriptImport : Option String) :
    (render es scriptImport).bindings =
      tableBindings (width (header scriptImport ++ tableHead)) (usedNames es) := by
  rw [width_append]
  rfl

theorem inside_render {es : List Excerpt} {scriptImport : Option String} {b : Binding}
    (hb : b ∈ (render es scriptImport).bindings) {z : Zone}
    (hz : z ∈ (render es scriptImport).zones) (hk : z.kind = .templateGlobals) :
    z.span.start ≤ b.key.start ∧ b.key.stop ≤ z.span.stop ∧ z.span.contains b.target = true := by
  rw [bindings_render] at hb
  obtain ⟨hstart, hkey, htarget, hstop⟩ := between_tableBindings hb
  have hz : z.span = ⟨width (header scriptImport),
      width (header scriptImport) + width (tableText (usedNames es))⟩ := by
    simp only [render, List.mem_cons, List.not_mem_nil, or_false] at hz
    rcases hz with rfl | rfl | rfl | rfl
    · contradiction
    · rfl
    · contradiction
    · contradiction
  rw [tableText_eq] at hz
  simp only [width_append] at hz hstart hstop
  generalize width tableHead = i, width tableFoot = j at hz hstart hstop
  simp only [hz, Span.contains, Bool.and_eq_true, decide_eq_true_eq]
  omega

theorem separate_render (content : String) (scriptImport : Option String) :
    ∃ m, Separate content (render (expressions content) scriptImport) m
      (usedNames (expressions content)) := by
  obtain ⟨m, hm⟩ := maps_render content scriptImport
  obtain ⟨g, hf⟩ := hm.follows
  have hbindings := bindings_render (expressions content) scriptImport
  have hrows := rows_tableBindings (width (header scriptImport ++ tableHead))
    (usedNames (expressions content))
  rw [← hbindings] at hrows
  refine ⟨m, hm.mapping, tiled_render content scriptImport, fun i x hi z hz => ?_, ?_, ?_,
    hrows.order.imp_of_mem fun {x _} hx _ hlt => ?_, fun b hb z hz hk => inside_render hb hz hk,
    fun b hb i hi v hv => ?_, fun b hb c hc => hrows.touches_target hb hc⟩
  · obtain ⟨s, hs, hl, hr⟩ := exists_reached hf hi
    exact contains_zone_of_mem_segments hm.mapping hs hl hr hz
  · rw [usedNames_eq]
    exact distinct_eraseDups _
  · have h := binds_tableBindings (usedNames (expressions content))
      (header scriptImport ++ tableHead)
      (tableFoot ++ opening ++ texts ((expressions content).flatMap statement) ++ closing)
    rw [← hbindings] at h
    simpa [render, tableText_eq, texts] using h
  · have := (hrows.key x hx).2
    omega
  · rw [View.bindingTarget?, hv, Option.bind_some, hrows.find?_touches hb hi]
    rfl

/-- The regions of every template that can be rendered keep apart. -/
theorem regions_separate (b : Block) (c : Context)
    (h : b.language = "html" ∨ b.language = "vue-html") :
    ∃ out m names, transformer.run b c = .ok out ∧ Separate b.content out m names := by
  obtain ⟨m, hm⟩ := separate_render b.content c.scriptImport
  refine ⟨_, m, _, ?_, hm⟩
  have hl : (b.language = "html" || b.language = "vue-html") = true := by simpa using h
  simp only [transformer, run, hl, if_true]

theorem regions_separate_shared :
    let b : Block :=
      { kind := .template, attrs := .ofList [], span := ⟨10, 43⟩
        content := "<p :a='b+é'>\x7b\x7b é(b, c.d) \x7d\x7d</p>" }
    let c : Context := ⟨"Foo.vue", .template, some "./Foo.vue?vue&type=script&lang.ts"⟩
    b.language = "vue-html" ∧
      ∃ out m names, transformer.run b c = .ok out ∧ Separate b.content out m names :=
  ⟨rfl, regions_separate _ _ (.inr rfl)⟩

end BlockLens.Template
